import Mathlib.Data.List.Basic

/-! Lists of slots: an element is written at a position of the list, or right
behind its end. -/
namespace Yaos.Lib

variable {α : Type*}

/-- Write at a position, at most the end. -/
def setAt (l : List α) (j : Nat) (x : α) : List α := l.take j ++ x :: l.drop (j + 1)

variable {l : List α} {j k : Nat} {x y : α}

theorem getElem?_setAt (hj : j ≤ l.length) (k : Nat) :
    (setAt l j x)[k]? = if k = j then some x else l[k]? := by
  have hlen : (l.take j).length = j := by simp [hj]
  rcases Nat.lt_trichotomy k j with h | h | h
  · rw [if_neg (Nat.ne_of_lt h), setAt, List.getElem?_append_left (by omega),
      List.getElem?_take_of_lt h]
  · rw [if_pos h, setAt, List.getElem?_append_right (by omega), hlen, h, Nat.sub_self,
      List.getElem?_cons_zero]
  · rw [if_neg (by omega), setAt, List.getElem?_append_right (by omega), hlen,
      show k - j = k - j - 1 + 1 by omega, List.getElem?_cons_succ, List.getElem?_drop]
    congr 1
    omega

theorem length_setAt (hj : j ≤ l.length) : (setAt l j x).length = max l.length (j + 1) := by
  simp only [setAt, List.length_append, List.length_take, List.length_cons, List.length_drop]
  omega

theorem mem_setAt (hj : j ≤ l.length) :
    y ∈ setAt l j x ↔ y = x ∨ ∃ k, k ≠ j ∧ l[k]? = some y := by
  rw [List.mem_iff_getElem?]
  simp only [getElem?_setAt hj]
  constructor
  · rintro ⟨k, hk⟩
    split at hk
    · left
      exact (Option.some.inj hk).symm
    next hne => exact .inr ⟨k, hne, hk⟩
  · rintro (rfl | ⟨k, hne, hk⟩)
    · exact ⟨j, by rw [if_pos rfl]⟩
    · exact ⟨k, by rwa [if_neg hne]⟩

theorem countP_setAt (p : α → Bool) (hj : j ≤ l.length) :
    (setAt l j x).countP p + (l[j]?.elim 0 fun y => if p y then 1 else 0) =
      l.countP p + if p x then 1 else 0 := by
  have hl : l.countP p = (l.take j).countP p + (l.drop j).countP p := by
    rw [← List.countP_append, List.take_append_drop]
  rw [setAt, List.countP_append, List.countP_cons, hl]
  by_cases h : j < l.length
  · rw [List.getElem?_eq_getElem h, List.drop_eq_getElem_cons h, List.countP_cons, Option.elim_some]
    omega
  · rw [List.getElem?_eq_none (by omega), List.drop_of_length_le (by omega),
      List.drop_of_length_le (by omega)]
    simp

theorem countP_le_one (p : α → Bool)
    (h : ∀ (j k : Nat) x y, l[j]? = some x → l[k]? = some y → p x = true → p y = true → j = k) :
    l.countP p ≤ 1 := by
  induction l with
  | nil => simp
  | cons x l ih =>
    rw [List.countP_cons]
    split
    next hx =>
      have hrest : l.countP p = 0 := by
        rw [List.countP_eq_zero]
        intro y hy hpy
        obtain ⟨k, hk⟩ := List.mem_iff_getElem?.mp hy
        exact absurd (h 0 (k + 1) x y rfl hk hx hpy) (by omega)
      omega
    next =>
      rw [Nat.add_zero]
      apply ih
      intro j k a b hj hk ha hb
      have := h (j + 1) (k + 1) a b hj hk ha hb
      omega

end Yaos.Lib
