import Yaos.Slub.Objects

/-!
# The class of a size (`kmalloc_slab`, `kmalloc_index`)

`kmalloc_slab` looks small sizes up in a table and scans for the highest bit of
the others; `kmalloc_index` compares the size with one class after another. Both
give the smallest class that is large enough.
-/

namespace Yaos.Slub

open Yaos.Lib

/-- `kmalloc_index` of `slub.h`, with `KMALLOC_MIN_SIZE` 8. `BUG()` does not return. -/
def kmallocIndex (size : Nat) : Outcome Nat :=
  if size = 0 then .ok 0
  else if size ≤ 8 then .ok 3
  else if 64 < size ∧ size ≤ 96 then .ok 1
  else if 128 < size ∧ size ≤ 192 then .ok 2
  else if size ≤ 8 then .ok 3
  else if size ≤ 16 then .ok 4
  else if size ≤ 32 then .ok 5
  else if size ≤ 64 then .ok 6
  else if size ≤ 128 then .ok 7
  else if size ≤ 256 then .ok 8
  else if size ≤ 512 then .ok 9
  else if size ≤ 1024 then .ok 10
  else if size ≤ 2 * 1024 then .ok 11
  else if size ≤ 4 * 1024 then .ok 12
  else if size ≤ 8 * 1024 then .ok 13
  else if size ≤ 16 * 1024 then .ok 14
  else if size ≤ 32 * 1024 then .ok 15
  else if size ≤ 64 * 1024 then .ok 16
  else if size ≤ 128 * 1024 then .ok 17
  else if size ≤ 256 * 1024 then .ok 18
  else if size ≤ 512 * 1024 then .ok 19
  else if size ≤ 1024 * 1024 then .ok 20
  else if size ≤ 2 * 1024 * 1024 then .ok 21
  else if size ≤ 4 * 1024 * 1024 then .ok 22
  else if size ≤ 8 * 1024 * 1024 then .ok 23
  else if size ≤ 16 * 1024 * 1024 then .ok 24
  else if size ≤ 32 * 1024 * 1024 then .ok 25
  else if size ≤ 64 * 1024 * 1024 then .ok 26
  else .error .assert

/-- The class `i` holds the size, and no smaller class does. -/
def BestFit (size i : Nat) : Prop :=
  size ≤ kmallocInfoSize i ∧
    ∀ j < kmallocInfo.length, kmallocInfoSize j < kmallocInfoSize i → kmallocInfoSize j < size

instance (size i : Nat) : Decidable (BestFit size i) := inferInstanceAs (Decidable (_ ∧ _))

variable {size i k : Nat}

theorem class_table (h0 : 0 < size) (h : size ≤ 192) :
    ∃ i, kmallocSlab size = .index i ∧ kmallocIndex size = .ok i ∧ BestFit size i := by
  have htable : ∀ size ≤ 192, 0 < size →
      kmallocSlab size = .index (sizeIndex.getD (sizeIndexElem size) 0) ∧
      kmallocIndex size = .ok (sizeIndex.getD (sizeIndexElem size) 0) ∧
      BestFit size (sizeIndex.getD (sizeIndexElem size) 0) := by
    decide +kernel
  exact ⟨_, htable size h h0⟩

theorem info_pow : ∀ i ≤ 26, 3 ≤ i → kmallocInfoSize i = 2 ^ i := by decide

/-- Above the table a class is best if the size does not fit in half of it. -/
theorem bestFit_pow (h : 192 < size) (hk' : k ≤ 25) (hlow : 2 ^ k < size)
    (hhigh : size ≤ 2 ^ (k + 1)) : BestFit size (k + 1) := by
  have hk : 7 ≤ k := by
    by_contra hlt
    have := Nat.pow_le_pow_right (n := 2) (by decide) (show k + 1 ≤ 7 by omega)
    omega
  rw [BestFit, info_pow (k + 1) (by omega) (by omega)]
  refine ⟨hhigh, fun j hj hlt => ?_⟩
  by_cases hj3 : 3 ≤ j
  · rw [info_pow j (Nat.le_of_lt_succ hj) hj3] at hlt ⊢
    have hjk : j < k + 1 := (Nat.pow_lt_pow_iff_right (by decide)).mp hlt
    exact Nat.lt_of_le_of_lt (Nat.pow_le_pow_right (by decide) (by omega)) hlow
  · -- the empty class and the two that are not powers of two
    have hrest : ∀ j < 3, kmallocInfoSize j ≤ 192 := by decide
    exact Nat.lt_of_le_of_lt (hrest j (by omega)) h

/-- The answer is the class of the smallest power of two that is large enough. -/
def Answers (size : Nat) (answer : Outcome Nat) : Prop :=
  ∃ k, k ≤ 25 ∧ answer = .ok (k + 1) ∧ 2 ^ k < size ∧ size ≤ 2 ^ (k + 1)

theorem Answers.step {n : Nat} {rest : Outcome Nat} (hlow : 2 ^ k < size) (hn : n = 2 ^ (k + 1))
    (hk : k ≤ 25) (hrest : 2 ^ (k + 1) < size → Answers size rest) :
    Answers size (if size ≤ n then .ok (k + 1) else rest) := by
  subst hn
  split
  next hle => exact ⟨k, hk, rfl, hlow, hle⟩
  next hgt => exact hrest (Nat.not_le.mp hgt)

theorem kmallocIndex_pow (h : 192 < size) (hmax : size ≤ kmallocMaxSize) :
    Answers size (kmallocIndex size) := by
  rw [kmallocMaxSize] at hmax
  have hskip : ∀ {n i : Nat} {x : Outcome Nat}, n < size → (if size ≤ n then .ok i else x) = x :=
    fun hn => if_neg (Nat.not_le.mpr hn)
  rw [kmallocIndex, if_neg (by omega), hskip (by omega), if_neg (by omega), if_neg (by omega),
    hskip (by omega), hskip (by omega), hskip (by omega), hskip (by omega), hskip (by omega)]
  have h7 : 2 ^ 7 < size := Nat.lt_trans (by decide) h
  -- the classes from 256 bytes to 8 MB; then the size is too large
  refine Answers.step h7 rfl (by decide) fun h8 => ?_
  iterate 15 refine Answers.step (by assumption) rfl (by decide) fun _ => ?_
  omega

theorem fls_pow (h : 192 < size) (hmax : size ≤ kmallocMaxSize) (hlow : 2 ^ k < size)
    (hhigh : size ≤ 2 ^ (k + 1)) : kmallocSlab size = .index (k + 1) := by
  rw [kmallocSlab, if_neg (by omega), if_neg (by omega), fls]
  rw [kmallocMaxSize] at hmax
  rw [Nat.mod_eq_of_lt (by omega), if_neg (by omega)]
  have hlog : Nat.log2 (size - 1) = k := (Nat.log2_eq_iff (by omega)).mpr (by omega)
  rw [hlog]

/-- **The two functions agree**, and the class is the smallest one that is large
enough. -/
theorem kmalloc_slab_best_fit (h0 : 1 ≤ size) (hmax : size ≤ kmallocMaxSize) :
    ∃ i, kmallocSlab size = .index i ∧ kmallocIndex size = .ok i ∧ BestFit size i := by
  by_cases h : size ≤ 192
  · exact class_table h0 h
  · have habove : 192 < size := Nat.not_le.mp h
    obtain ⟨k, hk, hindex, hlow, hhigh⟩ := kmallocIndex_pow habove hmax
    exact ⟨k + 1, fls_pow habove hmax hlow hhigh, hindex, bestFit_pow habove hk hlow hhigh⟩

/-- The largest size of all. -/
theorem kmalloc_slab_best_fit_max :
    ∃ i, kmallocSlab 0x800000 = .index i ∧ kmallocIndex 0x800000 = .ok i ∧ BestFit 0x800000 i :=
  kmalloc_slab_best_fit (by decide) (by decide)

end Yaos.Slub
