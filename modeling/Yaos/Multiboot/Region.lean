import Yaos.Multiboot.Released

/-!
# One call of `on_mem`

`on_mem` always returns: it recurses at most twice, to the next 4K boundary
and to the next 2M boundary. A region that begins on a 4K boundary is cut as
it should be; its last piece is dropped if it ends at `__max_phy_mem_addr`.
A region that does not begin on one makes a call of `free_kheap_small` that
the callee's assertion refuses. And `free_phy_pages` ignores a call for
address 0, so the pages of a region that begins there are not released.
-/

namespace Yaos.Multiboot

open Yaos.Lib
open Yaos.Phymem (pageSize)

/-- The alignment that the callee asserts. `free_phy_pages` looks at neither
argument if the address is 0. -/
def Release.Aligned : Release → Prop
  | .small r => r.addr % 0x1000 = 0 ∧ r.size % 0x1000 = 0
  | .heap4k r => r.addr % 0x1000 = 0 ∧ r.size % 0x1000 = 0
  | .pages r => r.addr ≠ 0 → r.addr % pageSize = 0 ∧ r.size % pageSize = 0

def Release.released : Release → List Range
  | .pages r => if r.addr = 0 then [] else [r]
  | x => [x.range]

/-- The calls for a region: aligned, apart, inside it, and releasing every
whole frame of it once, but for a last part of less than 2M that ends at
`__max_phy_mem_addr`. -/
structure Dealt (max a n : Nat) (calls : List Release) : Prop where
  aligned : ∀ x ∈ calls, x.Aligned
  apart : (calls.map Release.range).Pairwise Range.Apart
  inside : ∀ x ∈ calls, ∀ b ∈ x.range, b ∈ Range.mk a n
  frames : ∃ p, (p = a + n ∨ a + n = max ∧ max < p + pageSize) ∧
    ∀ f, f % 0x1000 = 0 → a ≤ f → f + 0x1000 ≤ a + n →
      ∀ b, f ≤ b → b < f + 0x1000 →
        cover (calls.flatMap Release.released) b = if b < p then 1 else 0

variable {max a n fuel : Nat} {calls : List Release}

/-! ## It returns -/

theorem onMem_page_returns (max : Nat) (ha : a % pageSize = 0) (n : Nat) :
    ∃ calls, ∀ fuel, onMem max (fuel + 1) a n = .ok calls := by
  have ha' : a % 0x1000 = 0 := by
    simp only [pageSize] at ha
    omega
  simp only [onMem, ha', ha, ne_eq, not_true_eq_false, if_false]
  split
  · exact ⟨_, fun _ => rfl⟩
  · split
    · exact ⟨_, fun _ => rfl⟩
    · exact ⟨_, fun _ => rfl⟩

theorem onMem_4k_returns (max : Nat) (ha : a % 0x1000 = 0) (n : Nat) :
    ∃ calls, ∀ fuel, onMem max (fuel + 2) a n = .ok calls := by
  by_cases hpage : a % pageSize = 0
  · obtain ⟨calls, h⟩ := onMem_page_returns max hpage n
    exact ⟨calls, fun fuel => h (fuel + 1)⟩
  -- the next boundary is on a page
  have hnext : u64 (a + (pageSize - a % pageSize)) % pageSize = 0 := by
    simp only [u64, pageSize]
    omega
  obtain ⟨rest, h⟩ := onMem_page_returns max hnext
    (n / 0x1000 * 0x1000 - (pageSize - a % pageSize))
  by_cases h0 : n / 0x1000 * 0x1000 = 0
  · refine ⟨[], fun fuel => ?_⟩
    rw [onMem]
    simp only [ha, h0, ne_eq, not_true_eq_false, if_false, if_true]
  by_cases hsmall : n / 0x1000 * 0x1000 < pageSize ∨ n / 0x1000 * 0x1000 ≤ pageSize - a % pageSize
  · refine ⟨freeBelow max a (n / 0x1000 * 0x1000), fun fuel => ?_⟩
    rw [onMem]
    simp only [ha, h0, hpage, ne_eq, not_true_eq_false, not_false_eq_true, if_false, if_true]
    split
    · rfl
    next hbig => rw [if_pos (hsmall.resolve_left hbig)]
  · obtain ⟨hbig, hlong⟩ := not_or.mp hsmall
    refine ⟨freeBelow max a (pageSize - a % pageSize) ++ rest, fun fuel => ?_⟩
    rw [onMem]
    simp only [ha, h0, hpage, hbig, hlong, ne_eq, not_true_eq_false, not_false_eq_true, if_false,
      if_true]
    rw [h fuel]
    rfl

theorem onMem_returns (max a n : Nat) : ∃ calls, ∀ fuel, onMem max (fuel + 3) a n = .ok calls := by
  by_cases ha : a % 0x1000 = 0
  · obtain ⟨calls, h⟩ := onMem_4k_returns max ha n
    exact ⟨calls, fun fuel => h (fuel + 1)⟩
  have hnext : u64 (a + (0x1000 - a % 0x1000)) % 0x1000 = 0 := by
    simp only [u64]
    omega
  obtain ⟨rest, h⟩ := onMem_4k_returns max hnext (sub64 n (0x1000 - a % 0x1000))
  refine ⟨(if n ≤ 0x1000 - a % 0x1000 ∧ u64 (a + n) < max then [.small ⟨a, n⟩] else []) ++
    .small ⟨a, 0x1000 - a % 0x1000⟩ :: rest, fun fuel => ?_⟩
  rw [onMem]
  simp only [ha, ne_eq, not_false_eq_true, if_true]
  rw [h fuel]
  rfl

/-! ## Alignment -/

theorem freeBelow_aligned (ha : a % 0x1000 = 0) (hn : n % 0x1000 = 0) :
    ∀ x ∈ freeBelow max a n, x.Aligned := by
  intro x hx
  rw [freeBelow] at hx
  split at hx
  · rw [List.mem_singleton.mp hx]
    exact ⟨ha, hn⟩
  · cases hx

theorem onMem_aligned (ha : a % 0x1000 = 0) (h : onMem max fuel a n = .ok calls) :
    ∀ x ∈ calls, x.Aligned := by
  induction fuel generalizing a n calls with
  | zero => cases h
  | succ fuel ih =>
    rw [onMem] at h
    simp only [ha, ne_eq, not_true_eq_false, if_false] at h
    have hwhole := Nat.mul_mod_left (n / 0x1000) 0x1000
    split at h
    · cases h
      intro x hx
      cases hx
    · split at h
      · cases h
        exact freeBelow_aligned ha hwhole
      · split at h
        case isTrue hlow =>
          have hhead : (pageSize - a % pageSize) % 0x1000 = 0 := by
            simp only [pageSize]
            omega
          have hnext : u64 (a + (pageSize - a % pageSize)) % 0x1000 = 0 := by
            simp only [u64, pageSize]
            omega
          split at h
          · cases h
            exact freeBelow_aligned ha hwhole
          · obtain ⟨rest, hrest, h⟩ := bind_eq_ok.mp h
            cases h
            intro x hx
            rcases List.mem_append.mp hx with hx | hx
            · exact freeBelow_aligned ha hhead x hx
            · exact ih hnext hrest x hx
        case isFalse hlow =>
          have hpage := not_not.mp hlow
          cases h
          intro x hx
          rcases List.mem_cons.mp hx with rfl | hx
          · exact fun _ => ⟨hpage, Nat.mul_mod_left _ _⟩
          · split at hx
            · cases hx
            · refine freeBelow_aligned ?_ ?_ x hx
              · simp only [u64, pageSize] at *
                omega
              · simp only [pageSize]
                omega

/-! ## Frames -/

theorem mem_released {x : Release} {b : Nat} : (∃ r ∈ x.released, b ∈ r) ↔ x.Frees b := by
  cases x with
  | small r => simp [Release.released, Release.Frees, Release.range]
  | heap4k r => simp [Release.released, Release.Frees, Release.range]
  | pages r =>
    by_cases h0 : r.addr = 0
    · simp [Release.released, Release.Frees, h0]
    · simp [Release.released, Release.Frees, h0]

theorem cover_released_le (calls : List Release) (b : Nat) :
    cover (calls.flatMap Release.released) b ≤ cover (calls.map Release.range) b := by
  induction calls with
  | nil => exact Nat.le_refl _
  | cons x calls ih =>
    have hx : cover x.released b ≤ x.range.has b := by
      cases x with
      | small r => simp [Release.released, Release.range]
      | heap4k r => simp [Release.released, Release.range]
      | pages r =>
        rw [Release.released]
        split
        · exact Nat.zero_le _
        · simp [Release.range]
    rw [List.flatMap_cons, cover_append, List.map_cons, cover_cons]
    exact Nat.add_le_add hx ih

theorem Pieces.cover_released (h : Pieces max a n calls) (b : Nat) [Decidable (FreedBy max ⟨a, n⟩ b)] :
    cover (calls.flatMap Release.released) b = if FreedBy max ⟨a, n⟩ b then 1 else 0 := by
  have hle : cover (calls.flatMap Release.released) b ≤ 1 :=
    Nat.le_trans (cover_released_le calls b) (Nat.le_trans (h.inside b) (Range.has_le _ b))
  have hpos : 0 < cover (calls.flatMap Release.released) b ↔ FreedBy max ⟨a, n⟩ b := by
    rw [cover_pos, ← h.frees]
    constructor
    · rintro ⟨r, hr, hb⟩
      obtain ⟨x, hx, hrx⟩ := List.mem_flatMap.mp hr
      exact ⟨x, hx, mem_released.mp ⟨r, hrx, hb⟩⟩
    · rintro ⟨x, hx, hfrees⟩
      obtain ⟨r, hr, hb⟩ := mem_released.mpr hfrees
      exact ⟨r, List.mem_flatMap.mpr ⟨x, hx, hr⟩, hb⟩
  split
  next hf =>
    have := hpos.mpr hf
    omega
  next hf =>
    have := mt hpos.mp hf
    omega

/-- Where the last part begins that is dropped. -/
def dropped (max a n : Nat) : Nat :=
  if a + n / 0x1000 * 0x1000 < max then a + n
  else if n / 0x1000 * 0x1000 < pageSize then a
  else (a + n / 0x1000 * 0x1000) / pageSize * pageSize

theorem dropped_spec (hmax : a + n ≤ max) :
    dropped max a n = a + n ∨ a + n = max ∧ max < dropped max a n + pageSize := by
  rw [dropped]
  split
  · exact .inl rfl
  · right
    split
    · omega
    · simp only [pageSize]
      omega

/-- The bytes of a whole frame are freed up to where the last part begins. -/
theorem freedBy_iff {f b : Nat} (ha : a % 0x1000 = 0) (h0 : a = 0 → n / 0x1000 * 0x1000 < pageSize)
    (hmax : a + n ≤ max) (hf : f % 0x1000 = 0) (haf : a ≤ f) (hfn : f + 0x1000 ≤ a + n)
    (hb : f ≤ b) (hb' : b < f + 0x1000) : FreedBy max ⟨a, n⟩ b ↔ b < dropped max a n := by
  have hstop : b < a + n / 0x1000 * 0x1000 := by omega
  rw [FreedBy, dropped]
  dsimp only
  by_cases hsmall : n / 0x1000 * 0x1000 < pageSize
  · rw [if_pos (by omega), if_pos hsmall]
    split <;> omega
  · -- the head ends inside the region
    have hup : (a + (pageSize - 1)) / pageSize * pageSize < a + pageSize := by
      simp only [pageSize]
      omega
    have hup0 : (a + (pageSize - 1)) / pageSize * pageSize ≠ 0 := by
      have ha0 : a ≠ 0 := fun h => hsmall (h0 h)
      simp only [pageSize]
      omega
    have hdown : (a + n / 0x1000 * 0x1000) / pageSize * pageSize ≤ a + n / 0x1000 * 0x1000 :=
      Nat.div_mul_le_self _ _
    have hle : (a + (pageSize - 1)) / pageSize * pageSize ≤
        (a + n / 0x1000 * 0x1000) / pageSize * pageSize := by
      simp only [pageSize] at hsmall ⊢
      omega
    rw [if_neg (by omega), if_neg hsmall]
    generalize (a + (pageSize - 1)) / pageSize * pageSize = up at *
    generalize (a + n / 0x1000 * 0x1000) / pageSize * pageSize = down at *
    split_ifs <;> omega

theorem onMem_exact (hm : max < 2 ^ 64) (hmax : a + n ≤ max) (ha : a % 0x1000 = 0)
    (h0 : a = 0 → n / 0x1000 * 0x1000 < pageSize) (h : onMem max fuel a n = .ok calls) :
    Dealt max a n calls := by
  classical
  have hpieces := onMem_pieces (by omega) ha h
  refine ⟨onMem_aligned ha h, ?_, fun x hx b hb => ?_, dropped max a n, dropped_spec hmax, ?_⟩
  · rw [pairwise_apart_iff]
    exact fun b => Nat.le_trans (hpieces.inside b) (Range.has_le _ b)
  · have hpos := cover_pos.mpr ⟨x.range, List.mem_map_of_mem hx, hb⟩
    exact Range.has_pos.mp (Nat.lt_of_lt_of_le hpos (hpieces.inside b))
  · intro f hf haf hfn b hb hb'
    rw [hpieces.cover_released]
    simp only [freedBy_iff ha h0 hmax hf haf hfn hb hb']

/-- **One region.** `on_mem` returns, with calls that are aligned, apart and
inside the region and that release each of its frames once, exactly if the
region begins on a 4K boundary and does not begin at 0 with a whole page. -/
theorem onMem_exact_iff (hm : max < 2 ^ 64) (hmax : a + n ≤ max) :
    (∃ calls, (∀ fuel, onMem max (fuel + 3) a n = .ok calls) ∧ Dealt max a n calls) ↔
      a % 0x1000 = 0 ∧ (a = 0 → n / 0x1000 * 0x1000 < pageSize) := by
  classical
  constructor
  · rintro ⟨calls, hrun, hexact⟩
    have ha : a % 0x1000 = 0 := by
      by_contra ha
      exact ha (hexact.aligned _ (onMem_unaligned ha (hrun 0))).1
    refine ⟨ha, ?_⟩
    rintro rfl
    by_contra hbig
    -- the first frame is one of those that `free_phy_pages` ignores
    obtain ⟨p, hp, hframes⟩ := hexact.frames
    have hlarge : pageSize ≤ n := Nat.le_trans (Nat.le_of_not_lt hbig) (Nat.div_mul_le_self _ _)
    have hframe : 0 + 0x1000 ≤ 0 + n := by
      simp only [pageSize] at hlarge
      omega
    have hfirst := hframes 0 rfl (Nat.le_refl 0) hframe 0 (Nat.le_refl 0) (by decide)
    have hdown : 0 < (0 + n / 0x1000 * 0x1000) / pageSize * pageSize := by
      simp only [pageSize] at hbig ⊢
      omega
    have hnot : ¬ FreedBy max ⟨0, n⟩ 0 := by
      rw [FreedBy]
      dsimp only
      rw [if_neg (by omega), boundary_up (by decide), if_neg (Nat.lt_irrefl 0), if_pos hdown]
      rintro ⟨-, -, h⟩
      exact h rfl
    have hkept : 0 < p := by
      simp only [pageSize] at hlarge hp
      omega
    rw [(onMem_pieces (by omega) ha (hrun 0)).cover_released, if_neg hnot, if_pos hkept] at hfirst
    cases hfirst
  · rintro ⟨ha, h0⟩
    obtain ⟨calls, hrun⟩ := onMem_returns max a n
    exact ⟨calls, hrun, onMem_exact hm hmax ha h0 (hrun 0)⟩

/-- 8M and a bit from 1M on, below 1G: a head, three pages and a tail. -/
theorem onMem_exact_iff_1M :
    ∃ calls, onMem 0x40000000 3 0x100000 0x801800 = .ok calls ∧ calls =
        [.heap4k ⟨0x100000, 0x100000⟩, .pages ⟨0x200000, 0x600000⟩, .heap4k ⟨0x800000, 0x101000⟩] ∧
      Dealt 0x40000000 0x100000 0x801800 calls := by
  obtain ⟨calls, hrun, hexact⟩ := (onMem_exact_iff (a := 0x100000) (n := 0x801800)
    (show 0x40000000 < 2 ^ 64 by decide) (by decide)).mpr ⟨by decide, by decide⟩
  refine ⟨calls, hrun 0, ?_, hexact⟩
  have hcalls := hrun 0
  cases hcalls
  rfl

/-- **An unaligned region.** For 768 bytes at 639K, inside one frame, both
calls of `free_kheap_small` are unaligned and the second one is for more than
the region; then the size wraps around, and almost all of the address space is
released. -/
theorem onMem_underflows :
    onMem 0x40000000 3 0x9fc00 0x300 = .ok
      [.small ⟨0x9fc00, 0x300⟩, .small ⟨0x9fc00, 0x400⟩, .heap4k ⟨0xa0000, 0x160000⟩,
        .pages ⟨0x200000, 0xffffffffffe00000⟩, .heap4k ⟨0, 0x9f000⟩] ∧
      ¬ Release.Aligned (.small ⟨0x9fc00, 0x300⟩) := by
  refine ⟨rfl, ?_⟩
  rintro ⟨h, -⟩
  cases h

end Yaos.Multiboot
