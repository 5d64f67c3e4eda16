import Mathlib.Data.Finset.Card
import Mathlib.Logic.Function.Iterate

/-! Searching along the iterates of a function. Once an iterate comes again, no
new ones come; so the first one with a property comes before any repetition, and
early if there are few values. -/
namespace Yaos.Lib

variable {α : Type} {f : α → α} {x : α} {i j k : Nat}

theorem iterate_shift (h : f^[i] x = f^[j] x) (n : Nat) : f^[n + i] x = f^[n + j] x := by
  rw [Function.iterate_add_apply, Function.iterate_add_apply, h]

theorem iterate_injOn_first {P : α → Prop} (hk : P (f^[k] x)) (hfirst : ∀ i < k, ¬ P (f^[i] x))
    (hi : i ≤ k) (hj : j ≤ k) (h : f^[i] x = f^[j] x) : i = j := by
  have hlt : ∀ {i j}, i < j → j ≤ k → f^[i] x ≠ f^[j] x := by
    intro i j hij hj h
    refine hfirst (k - j + i) (by omega) ?_
    rw [iterate_shift h (k - j), Nat.sub_add_cancel hj]
    exact hk
  rcases Nat.lt_trichotomy i j with hij | hij | hij
  · exact absurd h (hlt hij hj)
  · exact hij
  · exact absurd h.symm (hlt hij hi)

/-- **With `n` values the first iterate with a property is among the first `n`.** -/
theorem first_lt {P : α → Prop} {g : α → Nat} {n : Nat} (hk : P (f^[k] x))
    (hfirst : ∀ i < k, ¬ P (f^[i] x)) (hg : ∀ i ≤ k, g (f^[i] x) < n)
    (hinj : ∀ i ≤ k, ∀ j ≤ k, g (f^[i] x) = g (f^[j] x) → f^[i] x = f^[j] x) : k < n := by
  have hcard : (Finset.range (k + 1)).card ≤ (Finset.range n).card := by
    refine Finset.card_le_card_of_injOn (fun i => g (f^[i] x)) (fun i hi => ?_) fun i hi j hj h => ?_
    · simp only [Finset.coe_range, Set.mem_Iio] at hi ⊢
      exact hg i (by omega)
    · simp only [Finset.coe_range, Set.mem_Iio] at hi hj
      exact iterate_injOn_first hk hfirst (by omega) (by omega) (hinj i (by omega) j (by omega) h)
  rw [Finset.card_range, Finset.card_range] at hcard
  exact hcard

end Yaos.Lib
