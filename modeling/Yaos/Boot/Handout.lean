import Yaos.Boot.Model
import Yaos.Multiboot.Released

/-!
# The memory that `init_e820` hands out

`Reaches` follows `deal_reverse` from a region of the map to the parts of
it, or beyond it, that are passed on; `Released` is what `on_mem` frees of
them. Without overlapping entries and without a split, nothing is handed
out that the kernel has in use or that was handed out before.
-/

namespace Yaos.Boot

open Yaos.Lib Yaos.Multiboot Yaos.Kheap

/-- The part `q` of the region is passed on. -/
inductive Reaches (rs : List Range) : Nat → Nat → Range → Prop where
  | clear {a n : Nat} : firstHit rs a n = none → Reaches rs a n ⟨a, n⟩
  | front {a n : Nat} {r q : Range} : firstHit rs a n = some r → r.addr ≤ a →
      r.addr + r.size < a + n →
      Reaches rs (r.addr + r.size) (a + n - (r.addr + r.size)) q → Reaches rs a n q
  | low {a n : Nat} {r q : Range} : firstHit rs a n = some r → a < r.addr →
      Reaches rs a (r.addr - a) q → Reaches rs a n q
  | high {a n : Nat} {r q : Range} : firstHit rs a n = some r → a < r.addr →
      Reaches rs (r.addr + n) (a + n - r.addr) q → Reaches rs a n q

/-- The byte is freed by `init_e820`. -/
def Released (img : Image) (map : List Entry) (b : Nat) : Prop :=
  ∃ e ∈ map, e.ismem = true ∧ ∃ q, Reaches (reserved img) e.addr e.size q ∧
    FreedBy (maxPhyMemAddr map) q b

/-- The byte becomes part of a 4K hole in `init_e820`. -/
def HoleReleased (img : Image) (map : List Entry) (b : Nat) : Prop :=
  ∃ e ∈ map, e.ismem = true ∧ ∃ q, Reaches (reserved img) e.addr e.size q ∧
    HoledBy (maxPhyMemAddr map) q b

/-! ## `deal_reverse` -/

section DealReverse

variable {v : Reverse} {ismem : Bool} {fuel a n K N : Nat} {out : List Passed} {r q : Range}

theorem Reaches.of_none (hhit : firstHit v.revmem a n = none) :
    Reaches v.revmem a n q ↔ q = ⟨a, n⟩ := by
  constructor
  · intro h
    cases h <;> simp_all
  · rintro rfl
    exact .clear hhit

theorem Reaches.of_whole (hhit : firstHit v.revmem a n = some r) (h₁ : r.addr ≤ a)
    (h₂ : a + n ≤ r.addr + r.size) : ¬ Reaches v.revmem a n q := by
  intro h
  cases h with
  | clear h' => simp_all
  | front h' _ hlt _ =>
    cases hhit.symm.trans h'
    omega
  | low h' hlt _ =>
    cases hhit.symm.trans h'
    omega
  | high h' hlt _ =>
    cases hhit.symm.trans h'
    omega

theorem Reaches.of_front (hhit : firstHit v.revmem a n = some r) (h₁ : r.addr ≤ a)
    (h₂ : r.addr + r.size < a + n) : Reaches v.revmem a n q ↔
      Reaches v.revmem (r.addr + r.size) (a + n - (r.addr + r.size)) q := by
  constructor
  · intro h
    cases h with
    | clear h' => simp_all
    | front h' _ _ hq =>
      cases hhit.symm.trans h'
      exact hq
    | low h' hlt _ =>
      cases hhit.symm.trans h'
      omega
    | high h' hlt _ =>
      cases hhit.symm.trans h'
      omega
  · exact .front hhit h₁ h₂

theorem Reaches.of_split (hhit : firstHit v.revmem a n = some r) (h₁ : a < r.addr) :
    Reaches v.revmem a n q ↔
      Reaches v.revmem a (r.addr - a) q ∨ Reaches v.revmem (r.addr + n) (a + n - r.addr) q := by
  constructor
  · intro h
    cases h with
    | clear h' => simp_all
    | front h' hle _ _ =>
      cases hhit.symm.trans h'
      omega
    | low h' _ hq =>
      cases hhit.symm.trans h'
      exact .inl hq
    | high h' _ hq =>
      cases hhit.symm.trans h'
      exact .inr hq
  · rintro (h | h)
    · exact .low hhit h₁ h
    · exact .high hhit h₁ h

/-- `deal_reverse` on a region below `K + 2 * N`, where the reserved ranges
end below `K`: no arithmetic wraps, and exactly the parts that are reached
are passed on. -/
theorem dealReverse_reaches (hv : v.Recorded) (hK : ∀ r ∈ v.revmem, r.addr + r.size ≤ K)
    (hN : K + 2 * N < 2 ^ 64) (ha : a ≤ K + N) (hn : n ≤ N)
    (h : dealReverse v ismem fuel a n = .ok out) :
    (∀ q, (∃ p ∈ out, p.range = q) ↔ Reaches v.revmem a n q) ∧
      ∀ p ∈ out, p.range.addr ≤ K + N ∧ p.range.size ≤ N := by
  induction fuel generalizing a n out with
  | zero => cases h
  | succ fuel ih =>
    have hu : u64 (a + n) = a + n := u64_of_lt (by omega)
    cases hhit : firstHit v.revmem a n with
    | none =>
      rw [dealReverse_clear ismem fuel hhit] at h
      cases h
      refine ⟨fun q => ?_, by simpa using ⟨ha, hn⟩⟩
      rw [Reaches.of_none hhit]
      simp [eq_comm]
    | some r =>
      obtain ⟨hr, hfit, hlt, hend, -⟩ := firstHit_some hv hhit
      have hrK := hK r hr
      rw [hu] at hend
      by_cases hfront : r.addr ≤ a
      · by_cases hwhole : a + n ≤ r.addr + r.size
        · rw [dealReverse_whole ismem fuel hv hhit hfront (by rwa [hu])] at h
          cases h
          exact ⟨fun q => by simp [Reaches.of_whole hhit hfront hwhole], by simp⟩
        · rw [dealReverse_front ismem fuel hv hhit hfront (by rwa [hu]),
            sub64_of_le (by omega) (by omega), Nat.add_comm n a] at h
          obtain ⟨hreach, hbound⟩ := ih (by omega) (by omega) h
          exact ⟨fun q => (hreach q).trans (Reaches.of_front hhit hfront (by omega)).symm, hbound⟩
      · rw [dealReverse_split ismem fuel hv hhit hfront, sub64_of_le (by omega) (by omega),
          sub64_of_le (by omega) (by omega), u64_of_lt (by omega), Nat.add_comm n a] at h
        obtain ⟨low, hlow, h⟩ := bind_eq_ok.mp h
        obtain ⟨high, hhigh, h⟩ := bind_eq_ok.mp h
        cases h
        obtain ⟨hreach₁, hbound₁⟩ := ih (by omega) (by omega) hlow
        obtain ⟨hreach₂, hbound₂⟩ := ih (by omega) (by omega) hhigh
        refine ⟨fun q => ?_, fun p hp => ?_⟩
        · rw [Reaches.of_split hhit (by omega), ← hreach₁, ← hreach₂]
          simp only [List.mem_append, or_and_right, exists_or]
        · rcases List.mem_append.mp hp with hp | hp
          · exact hbound₁ p hp
          · exact hbound₂ p hp

end DealReverse

/-! ## The whole map -/

section Map

variable {img : Image} {v : Reverse} {fuel : Nat} {map : List Entry} {passed : List Passed}

theorem reserved_fits (img : Image) : ∀ r ∈ reserved img, r.addr + r.size ≤ 2 ^ 33 := by
  have := img.low
  simp only [reserved, reverseLowSize, kernelStart, Image.kernelEnd, initHeapSize, List.mem_cons,
    List.not_mem_nil, or_false, forall_eq_or_imp, forall_eq]
  omega

theorem recorded (h : (reserved img).foldlM addReverse Reverse.empty = .ok v) :
    v.revmem = reserved img ∧ v.Recorded := by
  obtain ⟨hmem, hv⟩ := addReverse_records h
    (fun r hr => Nat.lt_of_le_of_lt (reserved_fits img r hr) (by decide)) Reverse.recorded_empty
  exact ⟨by simpa [Reverse.empty] using hmem, hv⟩

theorem entry_reaches (hr : v.revmem = reserved img) (hv : v.Recorded) (e : Entry)
    (h : dealReverse v e.ismem fuel e.addr e.size = .ok passed) :
    (∀ q, (∃ p ∈ passed, p.range = q) ↔ Reaches (reserved img) e.addr e.size q) ∧
      ∀ p ∈ passed, p.range.addr ≤ 2 ^ 33 + 2 ^ 52 ∧ p.range.size ≤ 2 ^ 52 := by
  have hfit := e.fits
  rw [← hr]
  exact dealReverse_reaches hv (hr ▸ reserved_fits img) (by decide) (by omega) (by omega) h

theorem dealMap_reaches (hr : v.revmem = reserved img) (hv : v.Recorded)
    (h : dealMap fuel v map = .ok passed) :
    (∀ P : Range → Prop, (∃ p ∈ passed, p.ismem = true ∧ P p.range) ↔ ∃ e ∈ map, e.ismem = true ∧
        ∃ q, Reaches (reserved img) e.addr e.size q ∧ P q) ∧
      ∀ p ∈ passed, p.range.addr ≤ 2 ^ 33 + 2 ^ 52 ∧ p.range.size ≤ 2 ^ 52 := by
  induction map generalizing passed with
  | nil =>
    cases h
    simp
  | cons e map ih =>
    obtain ⟨first, hfirst, h⟩ := bind_eq_ok.mp h
    obtain ⟨rest, hrest, h⟩ := bind_eq_ok.mp h
    cases h
    obtain ⟨hreach, hbound⟩ := entry_reaches hr hv e hfirst
    obtain ⟨hih, hbound'⟩ := ih hrest
    have hmem := dealReverse_ismem hv hfirst
    refine ⟨fun P => ?_, fun p hp => ?_⟩
    · rw [List.exists_mem_cons_iff, ← hih]
      simp only [List.mem_append, or_and_right, exists_or]
      refine or_congr_left ⟨?_, ?_⟩
      · rintro ⟨p, hp, hismem, hP⟩
        exact ⟨(hmem p hp).symm.trans hismem, p.range, (hreach _).mp ⟨p, hp, rfl⟩, hP⟩
      · rintro ⟨hismem, q, hq, hP⟩
        obtain ⟨p, hp, rfl⟩ := (hreach q).mpr hq
        exact ⟨p, hp, (hmem p hp).trans hismem, hP⟩
    · rcases List.mem_append.mp hp with hp | hp
      · exact hbound p hp
      · exact hbound' p hp

theorem initE820_calls {heap heap' : Kheap.State} {l : List Int}
    (h : initE820 fuel img heap map = .ok (heap', l)) :
    ∃ v passed calls, v.revmem = reserved img ∧ v.Recorded ∧ dealMap fuel v map = .ok passed ∧
      calls.foldlM release heap = .ok heap' ∧ Handled (maxPhyMemAddr map) passed calls := by
  obtain ⟨v, hv, h⟩ := bind_eq_ok.mp h
  obtain ⟨l₀, -, h⟩ := bind_eq_ok.mp h
  obtain ⟨passed, hpassed, h⟩ := bind_eq_ok.mp h
  obtain ⟨hr, hrec⟩ := recorded hv
  have hw : ∀ p ∈ passed, p.range.addr + p.range.size < 2 ^ 64 := by
    intro p hp
    have := (dealMap_reaches hr hrec hpassed).2 p hp
    omega
  obtain ⟨calls, hcalls, hhandled⟩ := handled_calls hw h
  exact ⟨v, passed, calls, hr, hrec, hpassed, hcalls, hhandled⟩

/-- **`init_e820`**: what is free after it. -/
theorem initE820_free {heap heap' : Kheap.State} {L M : List Range} {l : List Int}
    (hs : Shaped heap L M) (h : initE820 fuel img heap map = .ok (heap', l)) :
    (∃ L' M', Shaped heap' L' M') ∧ (∀ b, Free heap' b ↔ Free heap b ∨ Released img map b) ∧
      ∀ b, Released img map b → b < 2 ^ 54 := by
  obtain ⟨v, passed, calls, hr, hrec, hpassed, hcalls, hhandled⟩ := initE820_calls h
  obtain ⟨hreach, hbound⟩ := dealMap_reaches hr hrec hpassed
  obtain ⟨L', M', hs', hfree⟩ := releases_free hs hcalls
  have hreleased : ∀ b, (∃ p ∈ passed, p.FreedBy (maxPhyMemAddr map) b) ↔ Released img map b :=
    fun b => hreach (FreedBy (maxPhyMemAddr map) · b)
  refine ⟨⟨L', M', hs'⟩, fun b => ?_, fun b hb => ?_⟩
  · rw [hfree, hhandled.frees, hreleased]
  · obtain ⟨p, hp, -, hfreed⟩ := (hreleased b).mpr hb
    have hend := hbound p hp
    have hlt := hfreed.2.1
    have hle : p.range.size / 0x1000 * 0x1000 ≤ p.range.size := Nat.div_mul_le_self _ _
    omega

theorem initE820_holes {heap heap' : Kheap.State} {L : List Range} {l : List Int}
    (hL : heap.heap4k.Reps L) (h : initE820 fuel img heap map = .ok (heap', l)) :
    ∃ L', heap'.heap4k.Reps L' ∧ ∀ b, 0 < cover L b ∨ HoleReleased img map b → 0 < cover L' b := by
  obtain ⟨v, passed, calls, hr, hrec, hpassed, hcalls, hhandled⟩ := initE820_calls h
  have hreach := (dealMap_reaches hr hrec hpassed).1
  obtain ⟨L', hL', hholes⟩ := releases_holes hL hcalls
  refine ⟨L', hL', fun b hb => hholes b (hb.imp_right fun hb => ?_)⟩
  exact hhandled.holes b ((hreach (HoledBy (maxPhyMemAddr map) · b)).mpr hb)

/-! ## No memory twice -/

/-- Entries do not overlap, and no reserved range begins inside a usable
one. -/
structure Separate (img : Image) (map : List Entry) : Prop where
  apart : (map.map Entry.range).Pairwise Range.Apart
  noSplit : ∀ e ∈ map, e.ismem = true → NoSplit (reserved img) e.addr e.size

theorem entry_cover (hr : v.revmem = reserved img) (hv : v.Recorded) {e : Entry}
    (hns : NoSplit (reserved img) e.addr e.size)
    (h : dealReverse v e.ismem fuel e.addr e.size = .ok passed) (b : Nat) :
    cover (passed.map (·.range)) b ≤ e.range.has b ∧
      ∀ r ∈ reserved img, b ∈ r → cover (passed.map (·.range)) b = 0 := by
  have hfit := e.fits
  rw [← hr] at hns ⊢
  have hexact := hns.exact hv (by omega) h
  have hone := pairwise_apart_iff.mp hexact.disjoint b
  have hmem : 0 < cover (passed.map (·.range)) b ↔
      b ∈ e.range ∧ ∀ r ∈ v.revmem, b ∉ r := cover_pos.trans (hexact.union b)
  constructor
  · by_cases hb : b ∈ e.range
    · have := Range.has_pos.mpr hb
      omega
    · have hno := mt hmem.mp fun hand => hb hand.1
      omega
  · intro r hr' hbr
    have hno := mt hmem.mp fun hand => hand.2 r hr' hbr
    omega

theorem memRanges_append (p q : List Passed) :
    memRanges (p ++ q) = memRanges p ++ memRanges q := by
  simp [memRanges]

theorem dealMap_cover (hr : v.revmem = reserved img) (hv : v.Recorded)
    (hns : ∀ e ∈ map, e.ismem = true → NoSplit (reserved img) e.addr e.size)
    (h : dealMap fuel v map = .ok passed) (b : Nat) :
    cover (memRanges passed) b ≤ cover (map.map Entry.range) b ∧
      ∀ r ∈ reserved img, b ∈ r → cover (memRanges passed) b = 0 := by
  induction map generalizing passed with
  | nil =>
    cases h
    simp [memRanges]
  | cons e map ih =>
    obtain ⟨first, hfirst, h⟩ := bind_eq_ok.mp h
    obtain ⟨rest, hrest, h⟩ := bind_eq_ok.mp h
    cases h
    obtain ⟨hle, hzero⟩ := ih (fun e' he' => hns e' (List.mem_cons_of_mem e he')) hrest
    have hmem := dealReverse_ismem hv hfirst
    rw [memRanges_append, List.map_cons, cover_append, cover_cons]
    cases hismem : e.ismem with
    | false =>
      have hnone : memRanges first = [] := by
        rw [memRanges, List.filter_eq_nil_iff.mpr, List.map_nil]
        intro p hp
        simp [hmem p hp, hismem]
      rw [hnone, cover_nil, Nat.zero_add]
      exact ⟨by omega, hzero⟩
    | true =>
      have hall : memRanges first = first.map (·.range) := by
        rw [memRanges, List.filter_eq_self.mpr]
        intro p hp
        rw [hmem p hp, hismem]
      obtain ⟨hle₁, hzero₁⟩ := entry_cover hr hv (hns e List.mem_cons_self hismem) hfirst b
      rw [hall]
      refine ⟨by omega, fun r hr' hbr => ?_⟩
      have := hzero₁ r hr' hbr
      have := hzero r hr' hbr
      omega

end Map

end Yaos.Boot
