import Yaos.Kheap.Invariant
import Yaos.Multiboot.Memory
import Yaos.Phymem.History

/-!
# Which bytes become free

`FreedBy` says of a region which of its bytes `on_mem` frees: the part up
to the first 2M boundary and the part from the last one on, as long as they
end below `__max_phy_mem_addr`, and the 2M pages in between. A region that
does not begin on a 4K boundary fails an assertion of the heap.
-/

namespace Yaos.Multiboot

open Yaos.Lib Yaos.Kheap
open Yaos.Phymem (pageSize)

/-- The heap and the bitmap have their shape, whatever they hold. -/
structure Shaped (s : Kheap.State) (L M : List Range) : Prop where
  heap4k : s.heap4k.Reps L
  small : s.small.Reps M
  phys : Phymem.Inv s.phys

def freeCount (s : Kheap.State) (L M : List Range) (b : Nat) : Nat :=
  cover L b + cover M b + freeAt s.phys b

/-- The byte is in a hole of the heap or in a page of the bitmap. -/
def Free (s : Kheap.State) (b : Nat) : Prop :=
  ∃ L M, s.heap4k.Reps L ∧ s.small.Reps M ∧ 0 < freeCount s L M b

theorem Shaped.free_iff {s : Kheap.State} {L M : List Range} (h : Shaped s L M) (b : Nat) :
    Free s b ↔ 0 < freeCount s L M b := by
  constructor
  · rintro ⟨L', M', hL, hM, hpos⟩
    rw [h.heap4k.unique hL, h.small.unique hM]
    exact hpos
  · exact fun hpos => ⟨L, M, h.heap4k, h.small, hpos⟩

def Release.range : Release → Range
  | .small r => r
  | .heap4k r => r
  | .pages r => r

def Release.Frees (b : Nat) : Release → Prop
  | .pages r => r.addr ≠ 0 ∧ b ∈ r
  | x => b ∈ x.range

/-! ## The calls -/

variable {s t : Kheap.State} {L M : List Range}

theorem freeAt_freed {p q : Phymem.State} {a n : Nat} (ha : a % pageSize = 0)
    (hn : n % pageSize = 0)
    (h : Phymem.Freed p q (a / pageSize) (a / pageSize + n / pageSize)) (b : Nat) :
    freeAt q b = if b ∈ Range.mk a n then 1 else freeAt p b := by
  have hbit := h.bits (b / pageSize)
  have hmem := Range.mem_blocks (n := n / pageSize) (b := b) (by decide) ha
  rw [Nat.div_mul_cancel (Nat.dvd_of_mod_eq_zero hn)] at hmem
  rw [freeAt, freeAt]
  by_cases hb : b ∈ Range.mk a n
  · rw [if_pos hb, if_pos]
    rw [hbit, decide_eq_true (hmem.mp hb), Bool.true_or]
  · rw [if_neg hb, hbit, decide_eq_false (mt hmem.mpr hb), Bool.false_or]

theorem release_free {x : Release} (hs : Shaped s L M) (h : release s x = .ok t) :
    ∃ L' M', Shaped t L' M' ∧ ∀ b, Free t b ↔ Free s b ∨ x.Frees b := by
  cases x with
  | small r =>
    obtain ⟨_, _, h⟩ := bind_eq_ok.mp h
    obtain ⟨h', hadd, h⟩ := bind_eq_ok.mp h
    cases h
    have ht : Shaped { s with small := h' } L (r :: M) := ⟨hs.heap4k, hs.small.addFront hadd, hs.phys⟩
    refine ⟨L, r :: M, ht, fun b => ?_⟩
    rw [ht.free_iff, hs.free_iff, freeCount, freeCount, cover_cons]
    simp only [Release.Frees, Release.range, ← Range.has_pos]
    omega
  | heap4k r =>
    obtain ⟨_, _, h⟩ := bind_eq_ok.mp h
    obtain ⟨h', hadd, h⟩ := bind_eq_ok.mp h
    cases h
    have ht : Shaped { s with heap4k := h' } (insertRange r L) M :=
      ⟨hs.heap4k.addSorted hadd, hs.small, hs.phys⟩
    refine ⟨insertRange r L, M, ht, fun b => ?_⟩
    rw [ht.free_iff, hs.free_iff, freeCount, freeCount, cover_insertRange]
    simp only [Release.Frees, Release.range, ← Range.has_pos]
    omega
  | pages r =>
    obtain ⟨phys, hphys, h⟩ := bind_eq_ok.mp h
    cases h
    rcases Phymem.freePhyPages_cases hs.phys hphys with ⟨h0, rfl⟩ | ⟨h0, ha, hn, hfreed⟩
    · exact ⟨L, M, hs, fun b => by simp [Release.Frees, h0]⟩
    · have ht : Shaped { s with phys := phys } L M := ⟨hs.heap4k, hs.small, hfreed.inv⟩
      refine ⟨L, M, ht, fun b => ?_⟩
      rw [ht.free_iff, hs.free_iff, freeCount, freeCount, freeAt_freed ha hn hfreed b]
      by_cases hb : b ∈ r
      · simp [Release.Frees, h0, hb]
      · simp [Release.Frees, hb]

theorem releases_free {calls : List Release} (hs : Shaped s L M)
    (h : calls.foldlM release s = .ok t) :
    ∃ L' M', Shaped t L' M' ∧ ∀ b, Free t b ↔ Free s b ∨ ∃ x ∈ calls, x.Frees b := by
  induction calls generalizing s L M with
  | nil =>
    cases h
    exact ⟨L, M, hs, fun b => by simp⟩
  | cons x calls ih =>
    rw [List.foldlM_cons] at h
    obtain ⟨s₁, h₁, h⟩ := bind_eq_ok.mp h
    obtain ⟨L₁, M₁, hs₁, hfree₁⟩ := release_free hs h₁
    obtain ⟨L₂, M₂, hs₂, hfree₂⟩ := ih hs₁ h
    refine ⟨L₂, M₂, hs₂, fun b => ?_⟩
    rw [hfree₂, hfree₁, List.exists_mem_cons_iff, or_assoc]

/-- The byte becomes part of a 4K hole. -/
def Release.Holes (b : Nat) : Release → Prop
  | .heap4k r => b ∈ r
  | _ => False

theorem release_holes {x : Release} (hL : s.heap4k.Reps L) (h : release s x = .ok t) :
    ∃ L', t.heap4k.Reps L' ∧ ∀ b, 0 < cover L b ∨ x.Holes b → 0 < cover L' b := by
  cases x with
  | small r =>
    obtain ⟨_, _, h⟩ := bind_eq_ok.mp h
    obtain ⟨h', -, h⟩ := bind_eq_ok.mp h
    cases h
    exact ⟨L, hL, fun b hb => hb.resolve_right id⟩
  | heap4k r =>
    obtain ⟨_, _, h⟩ := bind_eq_ok.mp h
    obtain ⟨h', hadd, h⟩ := bind_eq_ok.mp h
    cases h
    refine ⟨insertRange r L, hL.addSorted hadd, fun b hb => ?_⟩
    simp only [Release.Holes, ← Range.has_pos] at hb
    rw [cover_insertRange]
    omega
  | pages r =>
    obtain ⟨phys, -, h⟩ := bind_eq_ok.mp h
    cases h
    exact ⟨L, hL, fun b hb => hb.resolve_right id⟩

theorem releases_holes {calls : List Release} (hL : s.heap4k.Reps L)
    (h : calls.foldlM release s = .ok t) :
    ∃ L', t.heap4k.Reps L' ∧ ∀ b, 0 < cover L b ∨ (∃ x ∈ calls, x.Holes b) → 0 < cover L' b := by
  induction calls generalizing s L with
  | nil =>
    cases h
    exact ⟨L, hL, by simp⟩
  | cons x calls ih =>
    rw [List.foldlM_cons] at h
    obtain ⟨s₁, h₁, h⟩ := bind_eq_ok.mp h
    obtain ⟨L₁, hL₁, hholes₁⟩ := release_holes hL h₁
    obtain ⟨L₂, hL₂, hholes₂⟩ := ih hL₁ h
    refine ⟨L₂, hL₂, fun b hb => hholes₂ b ?_⟩
    rw [List.exists_mem_cons_iff, ← or_assoc] at hb
    exact hb.imp_left (hholes₁ b)

/-! ## `on_mem` -/

/-- The byte is freed when `on_mem` is called for the region. -/
def FreedBy (max : Nat) (r : Range) (b : Nat) : Prop :=
  let stop := r.addr + r.size / 0x1000 * 0x1000
  let up := (r.addr + (pageSize - 1)) / pageSize * pageSize
  let down := stop / pageSize * pageSize
  r.addr ≤ b ∧ b < stop ∧
    if stop - r.addr < pageSize then stop < max
    else if b < up then up < max
    else if b < down then up ≠ 0
    else stop < max

/-- The byte is freed, and it is not on one of the region's 2M pages. -/
def HoledBy (max : Nat) (r : Range) (b : Nat) : Prop :=
  let stop := r.addr + r.size / 0x1000 * 0x1000
  FreedBy max r b ∧ (stop - r.addr < pageSize ∨
    b < (r.addr + (pageSize - 1)) / pageSize * pageSize ∨ stop / pageSize * pageSize ≤ b)

/-- What `on_mem` calls for a region on a 4K boundary. -/
structure Pieces (max a n : Nat) (calls : List Release) : Prop where
  frees : ∀ b, (∃ x ∈ calls, x.Frees b) ↔ FreedBy max ⟨a, n⟩ b
  holes : ∀ b, HoledBy max ⟨a, n⟩ b → ∀ x ∈ calls, x.Frees b → x.Holes b
  inside : ∀ b, cover (calls.map Release.range) b ≤ Range.has ⟨a, n⟩ b
  pos : ∀ x ∈ calls, 0 < x.range.size

theorem freeBelow_frees {max a n b : Nat} (hw : a + n < 2 ^ 64) :
    (∃ x ∈ freeBelow max a n, x.Frees b) ↔ a + n < max ∧ a ≤ b ∧ b < a + n := by
  rw [freeBelow, u64_of_lt hw]
  split
  next h => simp [Release.Frees, Release.range, Range.mem_def, h]
  next h => simp [h]

theorem freeBelow_holes {max a n b : Nat} : ∀ x ∈ freeBelow max a n, x.Frees b → x.Holes b := by
  rw [freeBelow]
  split
  · simp [Release.Frees, Release.range, Release.Holes]
  · simp

theorem freeBelow_cover {max a n : Nat} (b : Nat) :
    cover ((freeBelow max a n).map Release.range) b ≤ Range.has ⟨a, n⟩ b := by
  rw [freeBelow]
  split
  · simp [Release.range]
  · simp

theorem freeBelow_pos {max a n : Nat} (hn : 0 < n) : ∀ x ∈ freeBelow max a n, 0 < x.range.size := by
  rw [freeBelow]
  split
  · simpa [Release.range] using hn
  · simp

variable {max a n fuel : Nat} {calls : List Release}

theorem pieces_small (hw : a + n < 2 ^ 64) (h0 : n / 0x1000 * 0x1000 ≠ 0)
    (hn : n / 0x1000 * 0x1000 < pageSize) :
    Pieces max a n (freeBelow max a (n / 0x1000 * 0x1000)) where
  frees b := by
    rw [freeBelow_frees (by omega), FreedBy]
    dsimp only
    rw [if_pos (by omega)]
    omega
  holes b _ := freeBelow_holes
  inside b := by
    refine Nat.le_trans (freeBelow_cover b) (Range.has_mono ?_ ?_ b)
    · exact Nat.le_refl a
    · dsimp only
      omega
  pos := freeBelow_pos (Nat.pos_of_ne_zero h0)

/-- The first page boundary from an address on, and the last one up to
the end of a region that begins on one. -/
theorem boundary_up (ha : a % pageSize = 0) :
    (a + (pageSize - 1)) / pageSize * pageSize = a := by
  simp only [pageSize] at *
  omega

theorem boundary_down {w : Nat} (ha : a % pageSize = 0) :
    (a + w) / pageSize * pageSize = a + w / pageSize * pageSize := by
  simp only [pageSize] at *
  omega

theorem boundary_same {e : Nat} (ha : a % pageSize = 0) (hle : a ≤ e) (h : e - a < pageSize) :
    e / pageSize * pageSize = a := by
  simp only [pageSize] at *
  omega

theorem pieces_pages (hw : a + n < 2 ^ 64) (ha : a % pageSize = 0)
    (hn : pageSize ≤ n / 0x1000 * 0x1000) :
    Pieces max a n (.pages ⟨a, n / 0x1000 * 0x1000 / pageSize * pageSize⟩ ::
      if n / 0x1000 * 0x1000 % pageSize = 0 then []
      else freeBelow max (u64 (a + n / 0x1000 * 0x1000 / pageSize * pageSize))
        (n / 0x1000 * 0x1000 % pageSize)) := by
  have hle : n / 0x1000 * 0x1000 ≤ n := Nat.div_mul_le_self _ _
  have hup := boundary_up ha
  have hdown := boundary_down (w := n / 0x1000 * 0x1000) ha
  have hsum := Nat.div_add_mod' (n / 0x1000 * 0x1000) pageSize
  have hpages : 0 < n / 0x1000 * 0x1000 / pageSize * pageSize :=
    Nat.mul_pos (Nat.div_pos hn (by decide)) (by decide)
  constructor
  · intro b
    rw [FreedBy]
    dsimp only
    rw [hup, hdown]
    generalize n / 0x1000 * 0x1000 = w at *
    generalize w / pageSize * pageSize = p at *
    generalize w % pageSize = t at *
    have hhead : Release.Frees b (.pages ⟨a, p⟩) ↔ a ≠ 0 ∧ a ≤ b ∧ b < a + p := Iff.rfl
    have hsize : ¬ a + w - a < pageSize := by omega
    rw [u64_of_lt (by omega), List.exists_mem_cons_iff, hhead, if_neg hsize]
    by_cases ht : t = 0
    · simp only [ht, if_true, List.not_mem_nil, false_and, exists_false, or_false]
      split_ifs <;> omega
    · rw [if_neg ht, freeBelow_frees (by omega)]
      split_ifs <;> omega
  · intro b hb x hx
    rcases List.mem_cons.mp hx with rfl | hx
    · rintro ⟨-, hlow, hhigh⟩
      have hpart := hb.2
      dsimp only at hlow hhigh hpart
      rw [hup, hdown] at hpart
      omega
    · split at hx
      · cases hx
      · exact freeBelow_holes x hx
  · intro b
    have htail : cover ((if n / 0x1000 * 0x1000 % pageSize = 0 then []
        else freeBelow max (u64 (a + n / 0x1000 * 0x1000 / pageSize * pageSize))
          (n / 0x1000 * 0x1000 % pageSize)).map Release.range) b ≤
        Range.has ⟨a + n / 0x1000 * 0x1000 / pageSize * pageSize, n / 0x1000 * 0x1000 % pageSize⟩ b := by
      split
      · simp
      · rw [u64_of_lt (by omega)]
        exact freeBelow_cover b
    rw [List.map_cons, cover_cons]
    refine Nat.le_trans (Nat.add_le_add_left htail _) ?_
    generalize n / 0x1000 * 0x1000 = w at *
    generalize w / pageSize * pageSize = p at *
    generalize w % pageSize = t at *
    simp only [Release.range, Range.has_eq]
    split_ifs <;> omega
  · intro x hx
    rcases List.mem_cons.mp hx with rfl | hx
    · exact hpages
    · split at hx
      · cases hx
      · exact freeBelow_pos (by omega) x hx

theorem pieces_empty (h0 : n / 0x1000 * 0x1000 = 0) : Pieces max a n [] where
  frees b := by
    rw [FreedBy]
    dsimp only
    rw [h0]
    simp only [List.not_mem_nil, false_and, exists_false, false_iff]
    omega
  holes b _ := by simp
  inside b := Nat.zero_le _
  pos := by simp

/-- A region with a part before its first page boundary `a'`. -/
theorem pieces_head {a' : Nat} {rest : List Release} (hw : a + n < 2 ^ 64)
    (hup : (a + (pageSize - 1)) / pageSize * pageSize = a') (hlt : a < a')
    (hin : a' < a + n / 0x1000 * 0x1000) (hn : pageSize ≤ n / 0x1000 * 0x1000)
    (h : Pieces max a' (a + n / 0x1000 * 0x1000 - a') rest) (ha : a % 0x1000 = 0) :
    Pieces max a n (freeBelow max a (a' - a) ++ rest) := by
  have hle : n / 0x1000 * 0x1000 ≤ n := Nat.div_mul_le_self _ _
  have ha' : a' % pageSize = 0 := by
    rw [← hup]
    exact Nat.mul_mod_left _ _
  have hwhole : (a + n / 0x1000 * 0x1000 - a') / 0x1000 * 0x1000 = a + n / 0x1000 * 0x1000 - a' := by
    simp only [pageSize] at ha'
    omega
  constructor
  · intro b
    simp only [List.mem_append, or_and_right, exists_or]
    rw [freeBelow_frees (by omega), h.frees, FreedBy, FreedBy]
    dsimp only
    rw [hwhole, boundary_up ha', hup]
    have hstop : a' + (a + n / 0x1000 * 0x1000 - a') = a + n / 0x1000 * 0x1000 := by omega
    rw [hstop]
    -- without a whole page after it, the first boundary is the last one too
    have hdown : a + n / 0x1000 * 0x1000 - a' < pageSize →
        (a + n / 0x1000 * 0x1000) / pageSize * pageSize = a' := by
      exact boundary_same ha' (Nat.le_of_lt hin)
    clear h hup hwhole hstop ha' ha
    generalize n / 0x1000 * 0x1000 = w at *
    generalize (a + w) / pageSize * pageSize = d at *
    have hsize : ¬ a + w - a < pageSize := by omega
    have hnext : a + (a' - a) = a' := by omega
    rw [if_neg hsize, hnext]
    by_cases hshort : a + w - a' < pageSize
    · have := hdown hshort
      simp only [hshort, if_true]
      split_ifs <;> omega
    · simp only [hshort, if_false]
      split_ifs <;> omega
  · intro b hb x hx hfrees
    rcases List.mem_append.mp hx with hx | hx
    · exact freeBelow_holes x hx hfrees
    · refine h.holes b ⟨(h.frees b).mp ⟨x, hx, hfrees⟩, ?_⟩ x hx hfrees
      have hpart := hb.2
      dsimp only at hpart ⊢
      rw [hup] at hpart
      rw [hwhole, boundary_up ha']
      have hstop : a' + (a + n / 0x1000 * 0x1000 - a') = a + n / 0x1000 * 0x1000 := by omega
      rw [hstop]
      omega
  · intro b
    rw [List.map_append, cover_append]
    refine Nat.le_trans (Nat.add_le_add (freeBelow_cover b) (h.inside b)) ?_
    simp only [Range.has_eq]
    split_ifs <;> omega
  · intro x hx
    rcases List.mem_append.mp hx with hx | hx
    · exact freeBelow_pos (by omega) x hx
    · exact h.pos x hx

theorem onMem_page (hw : a + n < 2 ^ 64) (ha : a % pageSize = 0)
    (h : onMem max fuel a n = .ok calls) : Pieces max a n calls := by
  have ha' : a % 0x1000 = 0 := by
    simp only [pageSize] at ha
    omega
  cases fuel with
  | zero => cases h
  | succ fuel =>
    rw [onMem] at h
    simp only [ha', ha, ne_eq, not_true_eq_false, if_false] at h
    split at h
    next h0 =>
      cases h
      exact pieces_empty h0
    next h0 =>
      split at h
      next hsmall =>
        cases h
        exact pieces_small hw h0 hsmall
      next hbig =>
        cases h
        exact pieces_pages hw ha (Nat.le_of_not_lt hbig)

/-- **`on_mem`** on a 4K boundary. -/
theorem onMem_pieces (hw : a + n < 2 ^ 64) (ha : a % 0x1000 = 0)
    (h : onMem max fuel a n = .ok calls) : Pieces max a n calls := by
  by_cases hpage : a % pageSize = 0
  · exact onMem_page hw hpage h
  cases fuel with
  | zero => cases h
  | succ fuel =>
    rw [onMem] at h
    simp only [ha, hpage, ne_eq, not_true_eq_false, not_false_eq_true, if_false, if_true] at h
    split at h
    next h0 =>
      cases h
      exact pieces_empty h0
    next h0 =>
      split at h
      next hsmall =>
        cases h
        exact pieces_small hw h0 hsmall
      next hbig =>
        have hlow : 0 < pageSize - a % pageSize ∧ pageSize - a % pageSize < pageSize ∧
            (a + (pageSize - 1)) / pageSize * pageSize = a + (pageSize - a % pageSize) := by
          simp only [pageSize] at *
          omega
        obtain ⟨hlow₁, hlow₂, hup⟩ := hlow
        have hle : n / 0x1000 * 0x1000 ≤ n := Nat.div_mul_le_self _ _
        rw [if_neg (by omega), u64_of_lt (by omega)] at h
        obtain ⟨rest, hrest, h⟩ := bind_eq_ok.mp h
        cases h
        have halign : (a + (pageSize - a % pageSize)) % pageSize = 0 := by
          rw [← hup]
          exact Nat.mul_mod_left _ _
        have hsub : n / 0x1000 * 0x1000 - (pageSize - a % pageSize) =
            a + n / 0x1000 * 0x1000 - (a + (pageSize - a % pageSize)) := by omega
        rw [hsub] at hrest
        have hpieces := pieces_head hw hup (by omega) (by omega) (Nat.le_of_not_lt hbig)
          (onMem_page (by omega) halign hrest) ha
        rwa [Nat.add_sub_cancel_left] at hpieces

/-- Elsewhere the first call to return would be one of `free_kheap_small`
on an address that is not on a 4K boundary. -/
theorem onMem_unaligned (ha : a % 0x1000 ≠ 0) (h : onMem max fuel a n = .ok calls) :
    .small ⟨a, 0x1000 - a % 0x1000⟩ ∈ calls := by
  cases fuel with
  | zero => cases h
  | succ fuel =>
    rw [onMem] at h
    simp only [ha, ne_eq, not_false_eq_true, if_true] at h
    obtain ⟨rest, -, h⟩ := bind_eq_ok.mp h
    cases h
    simp

theorem releases_aligned {r : Range} (h : calls.foldlM release s = .ok t)
    (hr : .small r ∈ calls) : r.addr % 0x1000 = 0 := by
  induction calls generalizing s with
  | nil => cases hr
  | cons x calls ih =>
    rw [List.foldlM_cons] at h
    obtain ⟨s₁, h₁, h⟩ := bind_eq_ok.mp h
    rcases List.mem_cons.mp hr with rfl | hr
    · obtain ⟨_, hcheck, -⟩ := bind_eq_ok.mp h₁
      simp only [check_eq_ok, Bool.and_eq_true, decide_eq_true_eq] at hcheck
      exact hcheck.1
    · exact ih h hr

theorem onMem_returned (hw : a + n < 2 ^ 64) (h : onMem max fuel a n = .ok calls)
    (hrun : calls.foldlM release s = .ok t) : Pieces max a n calls := by
  by_cases ha : a % 0x1000 = 0
  · exact onMem_pieces hw ha h
  · exact absurd (releases_aligned hrun (onMem_unaligned ha h)) ha

/-! ## Handling the regions -/

/-- The byte is freed when the region is handled. -/
def Passed.FreedBy (max b : Nat) (p : Passed) : Prop :=
  p.ismem = true ∧ Multiboot.FreedBy max p.range b

/-- The byte becomes part of a 4K hole when the region is handled. -/
def Passed.HoledBy (max b : Nat) (p : Passed) : Prop :=
  p.ismem = true ∧ Multiboot.HoledBy max p.range b

/-- The regions that are passed to `on_mem`. -/
def memRanges (passed : List Passed) : List Range := (passed.filter (·.ismem)).map (·.range)

/-- What is called for regions one after the other. -/
structure Handled (max : Nat) (passed : List Passed) (calls : List Release) : Prop where
  frees : ∀ b, (∃ x ∈ calls, x.Frees b) ↔ ∃ p ∈ passed, p.FreedBy max b
  holes : ∀ b, (∃ p ∈ passed, p.HoledBy max b) → ∃ x ∈ calls, x.Holes b
  inside : ∀ b, cover (calls.map Release.range) b ≤ cover (memRanges passed) b
  pos : ∀ x ∈ calls, 0 < x.range.size

variable {p : Passed} {passed : List Passed} {rest : List Release}

theorem Handled.nil : Handled max [] [] where
  frees b := by simp
  holes b := by simp
  inside b := Nat.le_refl _
  pos := by simp

theorem Handled.mem (hmem : p.ismem = true) (hp : Pieces max p.range.addr p.range.size calls)
    (h : Handled max passed rest) : Handled max (p :: passed) (calls ++ rest) where
  frees b := by
    simp only [List.mem_append, or_and_right, exists_or, List.exists_mem_cons_iff]
    rw [hp.frees, h.frees]
    simp [Passed.FreedBy, hmem]
  holes b hb := by
    rcases (List.exists_mem_cons_iff _ _ _).mp hb with ⟨-, hb⟩ | hb
    · obtain ⟨x, hx, hfrees⟩ := (hp.frees b).mpr hb.1
      exact ⟨x, List.mem_append_left _ hx, hp.holes b hb x hx hfrees⟩
    · obtain ⟨x, hx, hholes⟩ := h.holes b hb
      exact ⟨x, List.mem_append_right _ hx, hholes⟩
  inside b := by
    have hranges : memRanges (p :: passed) = p.range :: memRanges passed := by
      simp [memRanges, hmem]
    rw [hranges, List.map_append, cover_append, cover_cons]
    exact Nat.add_le_add (hp.inside b) (h.inside b)
  pos x hx := by
    rcases List.mem_append.mp hx with hx | hx
    · exact hp.pos x hx
    · exact h.pos x hx

theorem Handled.iomem (hio : ¬ p.ismem = true) (h : Handled max passed rest) :
    Handled max (p :: passed) rest where
  frees b := by
    rw [h.frees, List.exists_mem_cons_iff]
    simp [Passed.FreedBy, hio]
  holes b hb := by
    rcases (List.exists_mem_cons_iff _ _ _).mp hb with ⟨hmem, -⟩ | hb
    · exact absurd hmem hio
    · exact h.holes b hb
  inside b := by
    have hranges : memRanges (p :: passed) = memRanges passed := by
      simp [memRanges, hio]
    rw [hranges]
    exact h.inside b
  pos := h.pos

theorem handled_calls {l l' : List Int} (hw : ∀ p ∈ passed, p.range.addr + p.range.size < 2 ^ 64)
    (h : passed.foldlM (handle max fuel) (s, l) = .ok (t, l')) :
    ∃ calls, calls.foldlM release s = .ok t ∧ Handled max passed calls := by
  induction passed generalizing s l with
  | nil =>
    cases h
    exact ⟨[], rfl, .nil⟩
  | cons p passed ih =>
    rw [List.foldlM_cons] at h
    obtain ⟨⟨s₁, l₁⟩, h₁, h⟩ := bind_eq_ok.mp h
    obtain ⟨rest, hrest, hhandled⟩ := ih (fun q hq => hw q (List.mem_cons_of_mem p hq)) h
    rw [handle] at h₁
    split at h₁
    next hmem =>
      obtain ⟨calls, hcalls, h₁⟩ := bind_eq_ok.mp h₁
      obtain ⟨s₂, hrun, h₁⟩ := bind_eq_ok.mp h₁
      cases h₁
      have hpieces := onMem_returned (hw p List.mem_cons_self) hcalls hrun
      refine ⟨calls ++ rest, ?_, hhandled.mem hmem hpieces⟩
      rw [List.foldlM_append]
      exact bind_eq_ok.mpr ⟨s₁, hrun, hrest⟩
    next hio =>
      obtain ⟨l₂, -, h₁⟩ := bind_eq_ok.mp h₁
      cases h₁
      exact ⟨rest, hrest, hhandled.iomem hio⟩

/-! ## No byte is handed out twice -/

variable {live : List Range}

theorem release_inv {x : Release} (hi : Kheap.Inv s (x.range :: live) L M) (hpos : 0 < x.range.size)
    (h : release s x = .ok t) : ∃ L' M', Kheap.Inv t live L' M' := by
  have honce := hi.once
  simp only [cover_cons] at honce
  have hrest : Kheap.Inv s live L M := hi.mono fun b => by simp
  cases x with
  | small r => exact ⟨L, r :: M, (hi.freeSmall h).1⟩
  | heap4k r =>
    refine ⟨_, M, (hrest.free4k hpos (fun b => ?_) h).1⟩
    have : r.has b + (cover L b + cover M b + cover live b + freeAt s.phys b) ≤ 1 := by
      have hb : cover L b + cover M b + (r.has b + cover live b) + freeAt s.phys b ≤ 1 := honce b
      omega
    exact this
  | pages r =>
    obtain ⟨phys, hphys, h⟩ := bind_eq_ok.mp h
    cases h
    rcases Phymem.freePhyPages_cases hrest.phys hphys with ⟨-, rfl⟩ | ⟨-, ha, hn, hfreed⟩
    · exact ⟨L, M, hrest⟩
    · refine ⟨L, M, { hrest with phys := hfreed.inv, once := fun b => ?_ }⟩
      have hb : cover L b + cover M b + (r.has b + cover live b) + freeAt s.phys b ≤ 1 := honce b
      dsimp only
      rw [freeAt_freed ha hn hfreed b]
      by_cases hin : b ∈ r
      · have := Range.has_pos.mpr hin
        rw [if_pos hin]
        omega
      · rw [if_neg hin]
        omega

theorem releases_inv (hi : Kheap.Inv s (calls.map Release.range ++ live) L M)
    (hpos : ∀ x ∈ calls, 0 < x.range.size) (h : calls.foldlM release s = .ok t) :
    ∃ L' M', Kheap.Inv t live L' M' := by
  induction calls generalizing s L M with
  | nil =>
    cases h
    exact ⟨L, M, hi⟩
  | cons x calls ih =>
    rw [List.foldlM_cons] at h
    obtain ⟨s₁, h₁, h⟩ := bind_eq_ok.mp h
    obtain ⟨L₁, M₁, hi₁⟩ := release_inv hi (hpos x List.mem_cons_self) h₁
    exact ih hi₁ (fun y hy => hpos y (List.mem_cons_of_mem x hy)) h

end Yaos.Multiboot
