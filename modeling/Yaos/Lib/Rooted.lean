import Mathlib.Logic.Relation

/-! Forests given by a relation to the parent, and what becomes of them when
one node changes: it is hung elsewhere or taken away. -/
namespace Yaos.Lib

open Relation

variable {α : Type*} {Up Up' : α → α → Prop} {r c x y : α}

/-- Following parents leads to the root `r`. -/
def Rooted (Up : α → α → Prop) (r c : α) : Prop := ReflTransGen Up c r

theorem Rooted.refl : Rooted Up r r := ReflTransGen.refl

theorem Rooted.head (h : Up c y) (hy : Rooted Up r y) : Rooted Up r c := ReflTransGen.head h hy

theorem Rooted.mono (h : Rooted Up r c) (hsub : ∀ a b, Up a b → Up' a b) : Rooted Up' r c :=
  ReflTransGen.mono hsub _ _ h

/-- A way to the root that does not come by `x` does not depend on `x`. -/
theorem Rooted.avoid (h : Rooted Up r c) (hkeep : ∀ a b, a ≠ x → Up a b → Up' a b)
    (hnot : ¬ ReflTransGen Up c x) : Rooted Up' r c := by
  induction h using ReflTransGen.head_induction_on with
  | refl => exact Rooted.refl
  | head hab _ ih =>
    refine Rooted.head (hkeep _ _ ?_ hab) (ih fun hb => hnot (hb.head hab))
    intro ha
    exact hnot (ha ▸ ReflTransGen.refl)

theorem Rooted.prune (h : Rooted Up r c) (hkeep : ∀ a b, a ≠ x → Up a b → Up' a b)
    (hleaf : ∀ a, ¬ Up a x) (hne : c ≠ x) : Rooted Up' r c := by
  apply h.avoid hkeep
  intro hcx
  rcases ReflTransGen.cases_tail hcx with heq | ⟨a, -, ha⟩
  · exact hne heq.symm
  · exact hleaf a ha

/-- A node is hung below `y`, which is not below it. -/
theorem Rooted.move (h : Rooted Up r c) (hkeep : ∀ a b, a ≠ x → Up a b → Up' a b) (hnew : Up' x y)
    (hy : Rooted Up r y) (hnot : ¬ ReflTransGen Up y x) : Rooted Up' r c := by
  have hx : Rooted Up' r x := Rooted.head hnew (hy.avoid hkeep hnot)
  induction h using ReflTransGen.head_induction_on with
  | refl => exact Rooted.refl
  | @head a b hab _ ih =>
    by_cases ha : a = x
    · exact ha ▸ hx
    · exact Rooted.head (hkeep a b ha hab) ih

theorem Rooted.eq_of_loop (h : Rooted Up r c) (hloop : ∀ b, Up c b → b = c) : c = r := by
  have hall : ∀ a, ReflTransGen Up a r → a = c → a = r := by
    intro a ha
    induction ha using ReflTransGen.head_induction_on with
    | refl => exact fun _ => rfl
    | head hab _ ih =>
      intro heq
      subst heq
      have hb := hloop _ hab
      rw [← hb]
      exact ih hb
  exact hall c h rfl

end Yaos.Lib
