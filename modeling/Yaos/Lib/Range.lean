import Mathlib.Algebra.GroupWithZero.Nat
import Mathlib.Data.List.Count

/-! Byte ranges and how often a list of them covers a byte. Disjointness of
many ranges that are split, merged and moved between lists is awkward as a
pairwise statement; `cover` turns it into addition. Splitting a range
keeps the cover of every byte, and a list is pairwise apart exactly when
no byte is covered twice (`pairwise_apart_iff`). -/
namespace Yaos.Lib

/-- The bytes from `addr` to `addr + size`. -/
structure Range where
  addr : Nat
  size : Nat
  deriving DecidableEq

namespace Range

instance : Membership Nat Range := ⟨fun r b => r.addr ≤ b ∧ b < r.addr + r.size⟩

theorem mem_def {r : Range} {b : Nat} : b ∈ r ↔ r.addr ≤ b ∧ b < r.addr + r.size := Iff.rfl

instance (b : Nat) (r : Range) : Decidable (b ∈ r) := inferInstanceAs (Decidable (_ ∧ _))

def Apart (r q : Range) : Prop := ∀ b ∈ r, b ∉ q

theorem apart_of_le {r q : Range} (h : r.addr + r.size ≤ q.addr) : r.Apart q := by
  intro b hr hq
  rw [mem_def] at hr hq
  omega

/-- `1` on the bytes of the range, `0` elsewhere. -/
def has (r : Range) (b : Nat) : Nat := if b ∈ r then 1 else 0

theorem has_eq (a n b : Nat) : has ⟨a, n⟩ b = if a ≤ b ∧ b < a + n then 1 else 0 := rfl

theorem has_le (r : Range) (b : Nat) : r.has b ≤ 1 := by
  unfold has
  split <;> omega

theorem has_pos {r : Range} {b : Nat} : 0 < r.has b ↔ b ∈ r := by
  unfold has
  split <;> simp_all

@[simp] theorem has_empty (a b : Nat) : has ⟨a, 0⟩ b = 0 := by
  rw [has_eq, if_neg (by omega)]

theorem has_split (a b : Nat) {k n : Nat} (h : k ≤ n) :
    has ⟨a, n⟩ b = has ⟨a, k⟩ b + has ⟨a + k, n - k⟩ b := by
  simp only [has_eq]
  split_ifs <;> omega

theorem has_mono {r q : Range} (h : q.addr ≤ r.addr) (h' : r.addr + r.size ≤ q.addr + q.size)
    (b : Nat) : r.has b ≤ q.has b := by
  unfold has
  simp only [mem_def]
  split_ifs <;> omega

theorem eq_of_has {a n b m : Nat} (h : ∀ x, has ⟨a, n⟩ x = has ⟨b, m⟩ x) (hm : 0 < m) :
    a = b ∧ n = m := by
  have hiff : ∀ x, (a ≤ x ∧ x < a + n) ↔ (b ≤ x ∧ x < b + m) := by
    intro x
    have hx := h x
    rw [has_eq, has_eq] at hx
    split_ifs at hx with h₁ h₂
    · exact iff_of_true h₁ h₂
    · exact iff_of_false h₁ ‹_›
  have h₁ := hiff b
  have h₂ := hiff a
  have h₃ := hiff (b + m - 1)
  have h₄ := hiff (a + n - 1)
  omega

/-- The bytes of `n` blocks of `w` bytes, the first of them at a multiple of `w`,
by the number of their block. -/
theorem mem_blocks {w a n b : Nat} (hw : 0 < w) (ha : a % w = 0) :
    b ∈ (⟨a, n * w⟩ : Range) ↔ a / w ≤ b / w ∧ b / w < a / w + n := by
  obtain ⟨k, rfl⟩ := Nat.dvd_of_mod_eq_zero ha
  rw [mem_def, Nat.mul_div_cancel_left k hw, Nat.le_div_iff_mul_le hw, Nat.div_lt_iff_lt_mul hw,
    Nat.add_mul, Nat.mul_comm w k]

theorem mem_block {w a b : Nat} (hw : 0 < w) (ha : a % w = 0) :
    b ∈ (⟨a, w⟩ : Range) ↔ b / w = a / w := by
  have h := mem_blocks (n := 1) (b := b) hw ha
  rw [Nat.one_mul] at h
  rw [h]
  omega

/-- A byte of a row of blocks is in one of them, wherever the row begins. -/
theorem exists_block {w a n b : Nat} (h : b ∈ (⟨a, n * w⟩ : Range)) :
    ∃ k < n, b ∈ (⟨a + k * w, w⟩ : Range) := by
  obtain ⟨hle, hlt⟩ := mem_def.mp h
  have hin : b - a < w * n := by
    rw [Nat.mul_comm]
    dsimp only at hle hlt
    omega
  have hdm : (b - a) / w * w + (b - a) % w = b - a := Nat.div_add_mod' _ _
  have hmod : (b - a) % w < w := Nat.mod_lt _ (Nat.pos_of_mul_pos_right (Nat.zero_lt_of_lt hin))
  refine ⟨(b - a) / w, Nat.div_lt_of_lt_mul hin, mem_def.mpr ?_⟩
  dsimp only at hle hlt ⊢
  omega

end Range

/-- How many ranges of the list hold the byte. -/
def cover (l : List Range) (b : Nat) : Nat := (l.map (·.has b)).sum

@[simp] theorem cover_nil (b : Nat) : cover [] b = 0 := rfl

@[simp] theorem cover_cons (r : Range) (l : List Range) (b : Nat) :
    cover (r :: l) b = r.has b + cover l b := by
  simp [cover]

@[simp] theorem cover_append (l m : List Range) (b : Nat) :
    cover (l ++ m) b = cover l b + cover m b := by
  simp [cover]

theorem cover_perm {l m : List Range} (h : l.Perm m) (b : Nat) : cover l b = cover m b :=
  (h.map fun r : Range => r.has b).sum_nat

theorem has_le_cover {l : List Range} {r : Range} (h : r ∈ l) (b : Nat) :
    r.has b ≤ cover l b := by
  induction l with
  | nil => cases h
  | cons q l ih =>
    rw [cover_cons]
    rcases List.mem_cons.mp h with rfl | h
    · omega
    · have := ih h
      omega

theorem cover_pos {l : List Range} {b : Nat} : 0 < cover l b ↔ ∃ r ∈ l, b ∈ r := by
  constructor
  · intro h
    induction l with
    | nil => simp at h
    | cons q l ih =>
      rw [cover_cons] at h
      by_cases hq : b ∈ q
      · exact ⟨q, List.mem_cons_self, hq⟩
      · have hq0 : q.has b = 0 := if_neg hq
        obtain ⟨r, hr, hb⟩ := ih (by omega)
        exact ⟨r, List.mem_cons_of_mem q hr, hb⟩
  · rintro ⟨r, hr, hb⟩
    exact Nat.lt_of_lt_of_le (Range.has_pos.mpr hb) (has_le_cover hr b)

theorem cover_eq_zero {l : List Range} {b : Nat} : cover l b = 0 ↔ ∀ r ∈ l, b ∉ r := by
  have h := not_congr (cover_pos (l := l) (b := b))
  rw [Nat.not_lt, Nat.le_zero] at h
  rw [h]
  simp

theorem pairwise_apart_iff {l : List Range} :
    l.Pairwise Range.Apart ↔ ∀ b, cover l b ≤ 1 := by
  induction l with
  | nil => simp
  | cons r l ih =>
    rw [List.pairwise_cons, ih]
    constructor
    · rintro ⟨hr, hl⟩ b
      rw [cover_cons]
      by_cases hb : b ∈ r
      · have hl0 : cover l b = 0 := cover_eq_zero.mpr fun q hq => hr q hq b hb
        have := r.has_le b
        omega
      · have hr0 : r.has b = 0 := if_neg hb
        have := hl b
        omega
    · intro h
      refine ⟨fun q hq b hbr hbq => ?_, fun b => ?_⟩
      · have h₁ := Range.has_pos.mpr hbr
        have h₂ := cover_pos.mpr ⟨q, hq, hbq⟩
        have h₃ := h b
        rw [cover_cons] at h₃
        omega
      · have h₃ := h b
        rw [cover_cons] at h₃
        omega

theorem apart_of_cover {l m : List Range} (h : ∀ b, cover l b + cover m b ≤ 1)
    {r q : Range} (hr : r ∈ l) (hq : q ∈ m) : r.Apart q := by
  intro b hbr hbq
  have h₁ := cover_pos.mpr ⟨r, hr, hbr⟩
  have h₂ := cover_pos.mpr ⟨q, hq, hbq⟩
  have h₃ := h b
  omega

end Yaos.Lib
