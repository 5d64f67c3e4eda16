import Yaos.Multiboot.PageMap

/-!
# Gaps in the memory map

Every byte of a gap should be mapped at `IO_MEM_BASE` plus its address. The
loop over the whole pages of a gap runs while `haddr + PAGE_SIZE < addr`, so
it never maps the page that holds the last byte of the gap, whatever the
alignment of its end; nothing else in the function does it for this gap. The
pages of short gaps, and of the part up to the first page boundary, are the
ones that `deal_reverse` passes on.
-/

namespace Yaos.Multiboot

open Yaos.Lib Yaos.Pgtable
open Yaos.Phymem (pageSize)

def between : List Range → List Range
  | [] => []
  | r :: map => gaps (r.addr + r.size) map

/-- A byte is mapped at `IO_MEM_BASE` plus its address: the entry there is
present, for a page of 2M, and has the number of the byte's page. -/
def Reaches (pg : Pgtable.State) (x : Nat) : Prop :=
  pg.translation (ioMemBase + x) % 2 = 1 ∧ pg.translation (ioMemBase + x) / 2 ^ 7 % 2 = 1 ∧
    pg.translation (ioMemBase + x) / pageSize = x / pageSize

def Unreserved (v : Reverse) (x : Nat) : Prop := ∀ r ∈ v.revmem, x ∉ r

/-- A page that is mapped though no gap holds it whole: it was mapped before,
it was recorded before, or a part of a gap that goes through `deal_reverse`
makes `on_iomem` record it. -/
def Filled (b : Boot) (kernel : Range) (map : List Range) (p : Nat) : Prop :=
  Reaches b.pg (p * pageSize) ∨ (p : Int) + 1 ∈ b.ioRemapPages ∨
    ∃ g ∈ gaps 0 map, ∃ d ∈ deferred g, Records (b.table kernel) d p

/-- When every gap is mapped, in terms of the map and the state before: the
page that holds the last byte of a gap of 2M or more is filled, and so are
the pages of the parts that go through `deal_reverse`, as far as they are not
reserved. -/
structure Covered (b : Boot) (kernel : Range) (map : List Range) : Prop where
  last : ∀ g ∈ between map, pageSize ≤ g.size → ∀ x ∈ g, Unreserved (b.table kernel) x →
    x / pageSize = (g.addr + g.size - 1) / pageSize → Filled b kernel map (x / pageSize)
  parts : ∀ g ∈ between map, ∀ d ∈ deferred g, ∀ x ∈ d, Unreserved (b.table kernel) x →
    Filled b kernel map (x / pageSize)

/-! ## Bytes and pages -/

variable {s t : Pgtable.State} {M : List Range} {fuel x : Nat}

theorem translation_io (hs : Sound s M) (hx : x < 2 ^ 35) :
    s.translation (ioMemBase + x) = s.entry (io2v (x / pageSize * pageSize)) := by
  obtain ⟨live, L, hi⟩ := hs
  have hc : Canonical (ioMemBase + x) := by
    simp only [Canonical, ioMemBase]
    omega
  rw [Pgtable.State.translation, if_pos hc]
  apply entry_congr hi.tree.root_pos
  rw [← io2v_low hx]
  exact vpn_io2v_page x

theorem page_lt_window (hx : x < 2 ^ 35) : x / pageSize < 2 ^ 27 := by
  simp only [pageSize]
  omega

theorem Laid.reaches_iff {A : Nat → Prop} (h : Laid s t A) (hs : Sound s M) (ht : Sound t M)
    (hx : x < 2 ^ 35) :
    Reaches t x ↔ A (x / pageSize) ∨ Reaches s (x / pageSize * pageSize) := by
  have hbase : x / pageSize * pageSize < 2 ^ 35 :=
    Nat.lt_of_le_of_lt (Nat.div_mul_le_self _ _) hx
  have hpage : x / pageSize * pageSize / pageSize = x / pageSize :=
    Nat.mul_div_cancel _ (by decide)
  simp only [Reaches, translation_io hs hbase, translation_io ht hx, hpage]
  by_cases hA : A (x / pageSize)
  · rw [h.hit _ hA (page_lt_window hx), Pgtable.or_flags
      (show x / pageSize * pageSize % Radix.page = 0 by
        simp only [pageSize, Radix.page]; omega) (by decide)]
    refine iff_of_true ?_ (.inl hA)
    rw [show ioFlags = 0x9b from rfl]
    simp only [pageSize]
    omega
  · rw [h.miss _ (page_lt_window hx) hA]
    simp only [hA, false_or]

/-! ## Gaps -/

variable {map : List Range} {g g' d : Range} {lastend : Nat}

/-- A memory map: sorted, without overlap, and below the window's 32G. -/
structure MemoryMap (map : List Range) : Prop where
  sorted : map.Pairwise fun r q => r.addr + r.size ≤ q.addr
  below : ∀ r ∈ map, r.addr + r.size ≤ 2 ^ 35

theorem MemoryMap.tail {r : Range} (h : MemoryMap (r :: map)) :
    MemoryMap map ∧ ∀ q ∈ map, r.addr + r.size ≤ q.addr := by
  obtain ⟨hfirst, hrest⟩ := List.pairwise_cons.mp h.sorted
  exact ⟨⟨hrest, fun q hq => h.below q (List.mem_cons_of_mem r hq)⟩, hfirst⟩

theorem mem_gaps_cons {r : Range} : g ∈ gaps lastend (r :: map) ↔
    (lastend < r.addr ∧ g = ⟨lastend, r.addr - lastend⟩) ∨ g ∈ gaps (r.addr + r.size) map := by
  rw [gaps, List.mem_append]
  refine or_congr_left ?_
  split
  case isTrue h => simp [h]
  case isFalse h => simp [h]

/-- A gap has bytes, and they lie from `lastend` on and below 32G. -/
theorem gap_bounds (hmap : MemoryMap map) (hg : g ∈ gaps lastend map)
    (hle : ∀ r ∈ map, lastend ≤ r.addr) :
    lastend ≤ g.addr ∧ 0 < g.size ∧ g.addr + g.size ≤ 2 ^ 35 := by
  induction map generalizing lastend with
  | nil => cases hg
  | cons r map ih =>
    obtain ⟨htail, hnext⟩ := hmap.tail
    have hr := hmap.below r List.mem_cons_self
    have hl := hle r List.mem_cons_self
    rcases mem_gaps_cons.mp hg with ⟨hlt, rfl⟩ | hg
    · dsimp only
      omega
    · obtain ⟨h₁, h₂, h₃⟩ := ih htail hg hnext
      exact ⟨by omega, h₂, h₃⟩

theorem gap_unique (hmap : MemoryMap map) (hle : ∀ r ∈ map, lastend ≤ r.addr)
    (hg : g ∈ gaps lastend map) (hg' : g' ∈ gaps lastend map) (hx : x ∈ g) (hx' : x ∈ g') :
    g = g' := by
  induction map generalizing lastend with
  | nil => cases hg
  | cons r map ih =>
    obtain ⟨htail, hnext⟩ := hmap.tail
    -- the first gap ends where its entry begins, the others begin behind it
    have hfirst : ∀ q ∈ gaps (r.addr + r.size) map, x ∈ q → ¬ x ∈ Range.mk lastend (r.addr - lastend) := by
      intro q hq hxq hxl
      have hl := hle r List.mem_cons_self
      have hb := gap_bounds htail hq hnext
      rw [Range.mem_def] at hxq hxl
      dsimp only at hxl
      omega
    rcases mem_gaps_cons.mp hg with ⟨-, rfl⟩ | hg
    · rcases mem_gaps_cons.mp hg' with ⟨-, rfl⟩ | hg'
      · rfl
      · exact absurd hx (hfirst _ hg' hx')
    · rcases mem_gaps_cons.mp hg' with ⟨-, rfl⟩ | hg'
      · exact absurd hx' (hfirst _ hg hx)
      · exact ih htail hnext hg hg'

theorem gaps_of_between (hg : g ∈ between map) : g ∈ gaps 0 map := by
  cases map with
  | nil => cases hg
  | cons r map => exact mem_gaps_cons.mpr (.inr hg)

theorem deferred_sub (hd : d ∈ deferred g) (hx : x ∈ d) : x ∈ g := by
  rw [deferred] at hd
  split at hd
  case isTrue => exact List.mem_singleton.mp hd ▸ hx
  case isFalse hbig =>
    split at hd
    case isTrue hlow =>
      rw [List.mem_singleton.mp hd, Range.mem_def] at hx
      rw [Range.mem_def]
      dsimp only at hx
      omega
    case isFalse => cases hd

/-- The page of a byte of a gap: its byte is deferred, or the page is mapped
at once, or it is the last one. -/
theorem page_cases (hx : x ∈ g) : (∃ d ∈ deferred g, x ∈ d) ∨ Whole g (x / pageSize) ∨
    pageSize ≤ g.size ∧ x / pageSize = (g.addr + g.size - 1) / pageSize := by
  rw [Range.mem_def] at hx
  rw [deferred]
  by_cases hsmall : g.size < pageSize
  · rw [if_pos hsmall]
    exact .inl ⟨g, List.mem_singleton_self g, hx⟩
  · rw [if_neg hsmall]
    by_cases hhead : g.addr % pageSize ≠ 0 ∧ x < g.addr + (pageSize - g.addr % pageSize)
    · rw [if_pos hhead.1]
      exact .inl ⟨_, List.mem_singleton_self _, hx.1, hhead.2⟩
    · right
      simp only [Whole, pageSize] at *
      omega

/-- The pages mapped at once have no deferred byte and not the last one. -/
theorem Whole.inner (h : Whole g (x / pageSize)) : x ∈ g ∧ (∀ d ∈ deferred g, x ∉ d) ∧
    x / pageSize ≠ (g.addr + g.size - 1) / pageSize := by
  obtain ⟨hbig, hlow, hhigh⟩ := h
  refine ⟨?_, fun d hd hx => ?_, ?_⟩
  · rw [Range.mem_def]
    simp only [pageSize] at *
    omega
  · rw [deferred, if_neg (by omega)] at hd
    split at hd
    case isTrue hoff =>
      rw [List.mem_singleton.mp hd, Range.mem_def] at hx
      simp only [pageSize] at *
      omega
    case isFalse => cases hd
  · simp only [pageSize] at *
    omega

/-! ## The window -/

variable {b c : Boot} {kernel : Range}

/-- A page that is mapped in the end but not at once is filled. -/
theorem filled_of_maps (hmap : MemoryMap map) (hg : g ∈ gaps 0 map) (hx : x ∈ g)
    (hno : ¬ Whole g (x / pageSize))
    (h : Maps b kernel map (x / pageSize) ∨ Reaches b.pg (x / pageSize * pageSize)) :
    Filled b kernel map (x / pageSize) := by
  rcases h with (⟨g', hg', hw⟩ | hio | hrec) | hreach
  · have := gap_unique hmap (fun _ _ => Nat.zero_le _) hg hg' hx hw.inner.1
    exact absurd (this ▸ hw) hno
  · exact .inr (.inl hio)
  · exact .inr (.inr hrec)
  · exact .inl hreach

theorem Filled.maps (h : Filled b kernel map (x / pageSize)) :
    Maps b kernel map (x / pageSize) ∨ Reaches b.pg (x / pageSize * pageSize) := by
  rcases h with hreach | hio | hrec
  · exact .inr hreach
  · exact .inl (.inr (.inl hio))
  · exact .inl (.inr (.inr hrec))

/-- **Device memory.** After `init_page_map` every byte of a gap that is not
reserved is mapped in the window, exactly if the map is covered. -/
theorem gaps_mapped_iff (hmap : MemoryMap map) (hrev : b.rev.Recorded)
    (hk : kernel.addr + kernel.size < 2 ^ 64) (hl : Numbers b.ioRemapPages) (hs : Sound b.pg M)
    (h : initPageMap fuel b kernel map = .ok c) :
    (∀ g ∈ between map, ∀ x ∈ g, Unreserved c.rev x → Reaches c.pg x) ↔ Covered b kernel map := by
  obtain ⟨hrev', hs', hlaid⟩ := initPageMap_does hrev hk hl hs hmap.below h
  have hbyte : ∀ g ∈ between map, ∀ x ∈ g, x < 2 ^ 35 := by
    intro g hg x hx
    have := gap_bounds hmap (gaps_of_between hg) fun _ _ => Nat.zero_le _
    rw [Range.mem_def] at hx
    omega
  have hreach : ∀ g ∈ between map, ∀ x ∈ g,
      (Reaches c.pg x ↔ Maps b kernel map (x / pageSize) ∨ Reaches b.pg (x / pageSize * pageSize)) :=
    fun g hg x hx => hlaid.reaches_iff hs hs' (hbyte g hg x hx)
  rw [hrev']
  constructor
  · intro hall
    refine ⟨fun g hg _ x hx hun hlast => ?_, fun g hg d hd x hx hun => ?_⟩
    · exact filled_of_maps hmap (gaps_of_between hg) hx (fun hw => hw.inner.2.2 hlast)
        ((hreach g hg x hx).mp (hall g hg x hx hun))
    · have hxg := deferred_sub hd hx
      exact filled_of_maps hmap (gaps_of_between hg) hxg (fun hw => hw.inner.2.1 d hd hx)
        ((hreach g hg x hxg).mp (hall g hg x hxg hun))
  · intro hcov g hg x hx hun
    rw [hreach g hg x hx]
    rcases page_cases hx with ⟨d, hd, hxd⟩ | hw | ⟨hbig, hlast⟩
    · exact (hcov.parts g hg d hd x hxd hun).maps
    · exact .inl (.inl ⟨g, gaps_of_between hg, hw⟩)
    · exact (hcov.last g hg hbig x hx hun hlast).maps

/-- The tables of `init_e820`: the kernel at 1M and the page of the IOAPIC. -/
def booted : Boot where
  rev := ⟨[reverseLow, ⟨0x100000, 0x100000⟩], 0x200000⟩
  ioRemapPages := [0x7f7]
  pg := room

theorem booted_recorded : booted.rev.Recorded := ⟨by decide, by decide⟩

theorem booted_numbers : Numbers booted.ioRemapPages := by
  intro n hn
  rw [List.mem_singleton.mp hn]
  decide

theorem booted_sound : Sound booted.pg [] := ⟨_, _, room_inv⟩

/-- The hole below 1M of a PC: its only page is recorded. -/
theorem gaps_mapped_low : ∃ c,
    initPageMap 8 booted ⟨0x100000, 0x100000⟩ [⟨0, 0x9fc00⟩, ⟨0x100000, 0x700000⟩] = .ok c ∧
      ∀ g ∈ between [⟨0, 0x9fc00⟩, ⟨0x100000, 0x700000⟩], ∀ x ∈ g, Unreserved c.rev x →
        Reaches c.pg x := by
  obtain ⟨c, hrun, -⟩ : ∃ c, initPageMap 8 booted ⟨0x100000, 0x100000⟩
      [⟨0, 0x9fc00⟩, ⟨0x100000, 0x700000⟩] = .ok c ∧ () = () :=
    exists_eq_ok (by decide +kernel)
  have hgap : between [⟨0, 0x9fc00⟩, ⟨0x100000, 0x700000⟩] = [⟨0x9fc00, 0x60400⟩] := by decide
  refine ⟨c, hrun, (gaps_mapped_iff ⟨by decide, by decide⟩ booted_recorded (by decide)
    booted_numbers booted_sound hrun).mpr ⟨fun g hg hbig => ?_, fun g hg d hd x hx _ => ?_⟩⟩
  · rw [hgap, List.mem_singleton] at hg
    exact absurd (hg ▸ hbig) (by decide)
  · rw [hgap, List.mem_singleton] at hg
    subst hg
    obtain rfl : d = ⟨0x9fc00, 0x60400⟩ := List.mem_singleton.mp hd
    have hpage : x / pageSize = 0 := by
      rw [Range.mem_def] at hx
      simp only [pageSize] at hx ⊢
      omega
    rw [hpage]
    exact .inr (.inr ⟨_, by decide, _, hd, [⟨false, 0x9fc00, 0x60400⟩], by decide +kernel, _,
      List.mem_singleton_self _, by decide⟩)

/-- **The last page of a gap.** Between 4M and 8M the page at 4M is mapped,
the page at 6M is not. -/
theorem gaps_last_page_unmapped : ∃ c,
    initPageMap 8 booted ⟨0x100000, 0x100000⟩ [⟨0, 0x400000⟩, ⟨0x800000, 0x200000⟩] = .ok c ∧
      ⟨0x400000, 0x400000⟩ ∈ between [⟨0, 0x400000⟩, ⟨0x800000, 0x200000⟩] ∧
      Unreserved c.rev 0x600000 ∧ c.pg.translation (ioMemBase + 0x400000) = 0x40009b ∧
      ¬ Reaches c.pg 0x600000 := by
  obtain ⟨c, hrun, hval⟩ : ∃ c, initPageMap 8 booted ⟨0x100000, 0x100000⟩
      [⟨0, 0x400000⟩, ⟨0x800000, 0x200000⟩] = .ok c ∧ (c.rev.revmem,
        c.pg.translation (ioMemBase + 0x400000), c.pg.translation (ioMemBase + 0x600000)) =
        ([reverseLow, ⟨0x100000, 0x100000⟩, reverseLow, ⟨0x100000, 0x100000⟩], 0x40009b, 0) :=
    exists_eq_ok (by decide +kernel)
  simp only [Prod.mk.injEq] at hval
  obtain ⟨hrev, hfirst, hlast⟩ := hval
  refine ⟨c, hrun, by decide, ?_, hfirst, fun h => ?_⟩
  · rw [Unreserved, hrev]
    decide
  · rw [Reaches, hlast] at h
    exact absurd h.1 (by decide)

end Yaos.Multiboot
