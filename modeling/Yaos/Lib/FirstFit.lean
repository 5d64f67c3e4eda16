import Yaos.Lib.Range

/-! First-fit allocation from a list of free ranges: sorted insertion
(`insertRange`) and cutting a block off the first range that is large
enough (`cutFirst`). A remainder of at most `least` bytes is given up.
The lemmas say what each does to the cover of a byte, to the order of the
list, and which range is chosen. -/
namespace Yaos.Lib

/-- The tail of the sorted insertion: after the ranges that begin lower. -/
def insertTail (r : Range) : List Range → List Range
  | [] => [r]
  | q :: L => if q.addr < r.addr then q :: insertTail r L else r :: q :: L

/-- The sorted insertion: in front of the first range, or after it. -/
def insertRange (r : Range) : List Range → List Range
  | [] => [r]
  | q :: L => if r.addr < q.addr then r :: q :: L else q :: insertTail r L

/-- The first-fit allocation: where the block begins, and what is left. -/
def cutFirst (least size : Nat) : List Range → Option (Nat × List Range)
  | [] => none
  | q :: L =>
      if q.size < size then (cutFirst least size L).map fun x => (x.1, q :: x.2)
      else some (q.addr,
        if q.size - size ≤ least then L else ⟨q.addr + size, q.size - size⟩ :: L)

def Ordered (L : List Range) : Prop := L.Pairwise fun r q => r.addr + r.size ≤ q.addr

theorem insertTail_append {r : Range} {A B : List Range} (hA : ∀ q ∈ A, q.addr < r.addr)
    (hB : ∀ q ∈ B.head?, ¬ q.addr < r.addr) : insertTail r (A ++ B) = A ++ r :: B := by
  induction A with
  | nil =>
    cases B with
    | nil => rfl
    | cons q B => simp [insertTail, hB q (by simp)]
  | cons q A ih =>
    have hq := hA q List.mem_cons_self
    simp [insertTail, hq, ih fun x hx => hA x (List.mem_cons_of_mem q hx)]

theorem cutFirst_append {least size : Nat} {A B : List Range} {q : Range}
    (hA : ∀ x ∈ A, x.size < size) (hq : ¬ q.size < size) :
    cutFirst least size (A ++ q :: B) = some (q.addr, A ++
      (if q.size - size ≤ least then B else ⟨q.addr + size, q.size - size⟩ :: B)) := by
  induction A with
  | nil => simp [cutFirst, hq]
  | cons x A ih =>
    have hx := hA x List.mem_cons_self
    simp [cutFirst, hx, ih fun y hy => hA y (List.mem_cons_of_mem x hy)]

theorem cutFirst_eq_none {least size : Nat} {L : List Range} :
    cutFirst least size L = none ↔ ∀ q ∈ L, q.size < size := by
  induction L with
  | nil => simp [cutFirst]
  | cons q L ih =>
    by_cases hq : q.size < size
    · simp [cutFirst, hq, ih]
    · simp [cutFirst, hq]

/-! ## Insertion -/

theorem perm_insertTail (r : Range) (L : List Range) : (insertTail r L).Perm (r :: L) := by
  induction L with
  | nil => exact .refl _
  | cons q L ih =>
    rw [insertTail]
    split
    · exact (ih.cons q).trans (.swap r q L)
    · exact .refl _

theorem perm_insertRange (r : Range) (L : List Range) : (insertRange r L).Perm (r :: L) := by
  cases L with
  | nil => exact .refl _
  | cons q L =>
    rw [insertRange]
    split
    · exact .refl _
    · exact ((perm_insertTail r L).cons q).trans (.swap r q L)

theorem mem_insertRange {r x : Range} {L : List Range} :
    x ∈ insertRange r L ↔ x = r ∨ x ∈ L := by
  rw [(perm_insertRange r L).mem_iff, List.mem_cons]

theorem length_insertRange (r : Range) (L : List Range) :
    (insertRange r L).length = L.length + 1 :=
  (perm_insertRange r L).length_eq

theorem cover_insertRange (r : Range) (L : List Range) (b : Nat) :
    cover (insertRange r L) b = r.has b + cover L b := by
  rw [cover_perm (perm_insertRange r L), cover_cons]

theorem Range.Apart.le_or_le {r q : Range} (h : r.Apart q) (hr : 0 < r.size) (hq : 0 < q.size) :
    r.addr + r.size ≤ q.addr ∨ q.addr + q.size ≤ r.addr := by
  by_contra hno
  push Not at hno
  have h₁ := h (max r.addr q.addr)
  simp only [Range.mem_def] at h₁
  omega

theorem ordered_insertTail {r : Range} {L : List Range} (hL : Ordered L) (hr : 0 < r.size)
    (hpos : ∀ q ∈ L, 0 < q.size) (hap : ∀ q ∈ L, r.Apart q) : Ordered (insertTail r L) := by
  induction L with
  | nil => exact List.pairwise_singleton _ _
  | cons q L ih =>
    obtain ⟨hq, hL'⟩ := List.pairwise_cons.mp hL
    have hqp := hpos q List.mem_cons_self
    have hrq := (hap q List.mem_cons_self).le_or_le hr hqp
    simp only [insertTail]
    split
    · refine List.pairwise_cons.mpr ⟨fun x hx => ?_, ih hL'
        (fun x hx => hpos x (List.mem_cons_of_mem q hx))
        fun x hx => hap x (List.mem_cons_of_mem q hx)⟩
      rcases List.mem_cons.mp ((perm_insertTail r L).mem_iff.mp hx) with rfl | hx
      · omega
      · exact hq x hx
    · refine List.pairwise_cons.mpr ⟨fun x hx => ?_, hL⟩
      rcases List.mem_cons.mp hx with rfl | hx
      · omega
      · have := hq x hx
        omega

theorem ordered_insertRange {r : Range} {L : List Range} (hL : Ordered L) (hr : 0 < r.size)
    (hpos : ∀ q ∈ L, 0 < q.size) (hap : ∀ q ∈ L, r.Apart q) : Ordered (insertRange r L) := by
  have htail := ordered_insertTail hL hr hpos hap
  cases L with
  | nil => exact htail
  | cons q L =>
    have hq := hpos q List.mem_cons_self
    have hrq := (hap q List.mem_cons_self).le_or_le hr hq
    rw [insertTail] at htail
    rw [insertRange]
    split
    · rwa [if_neg (show ¬ q.addr < r.addr by omega)] at htail
    · rwa [if_pos (show q.addr < r.addr by omega)] at htail

/-! ## First fit -/

section Cut

variable {least size a : Nat} {L L' : List Range}

theorem cutFirst_some (h : cutFirst least size L = some (a, L')) :
    ∃ A q B, L = A ++ q :: B ∧ (∀ x ∈ A, x.size < size) ∧ size ≤ q.size ∧ a = q.addr ∧
      L' = A ++ (if q.size - size ≤ least then B else ⟨q.addr + size, q.size - size⟩ :: B) := by
  induction L generalizing a L' with
  | nil => simp [cutFirst] at h
  | cons q L ih =>
    simp only [cutFirst] at h
    split at h
    next hq =>
      obtain ⟨⟨a', L''⟩, hc, heq⟩ := Option.map_eq_some_iff.mp h
      cases heq
      obtain ⟨A, x, B, rfl, hA, hx, ha, hL'⟩ := ih hc
      refine ⟨q :: A, x, B, rfl, ?_, hx, ha, by simp [hL']⟩
      intro y hy
      rcases List.mem_cons.mp hy with rfl | hy
      · exact hq
      · exact hA y hy
    next hq =>
      cases h
      exact ⟨[], q, L, rfl, by simp, by omega, rfl, by simp⟩

theorem cutFirst_find (h : cutFirst least size L = some (a, L')) :
    ∃ A q B, L = A ++ q :: B ∧ L.find? (fun x => decide (size ≤ x.size)) = some q ∧
      size ≤ q.size ∧ a = q.addr ∧
      L' = A ++ (if q.size - size ≤ least then B else ⟨q.addr + size, q.size - size⟩ :: B) := by
  obtain ⟨A, q, B, rfl, hA, hle, ha, hL'⟩ := cutFirst_some h
  have hskip : A.find? (fun x => decide (size ≤ x.size)) = none := by
    apply List.find?_eq_none.mpr
    intro x hx
    have := hA x hx
    simp only [decide_eq_true_eq]
    omega
  refine ⟨A, q, B, rfl, ?_, hle, ha, hL'⟩
  rw [List.find?_append, hskip, Option.none_or]
  apply List.find?_cons_of_pos
  exact decide_eq_true hle

theorem cover_cutFirst (h : cutFirst least size L = some (a, L')) (b : Nat) :
    Range.has ⟨a, size⟩ b + cover L' b ≤ cover L b := by
  obtain ⟨A, q, B, rfl, _, hq, rfl, rfl⟩ := cutFirst_some h
  have hsplit : q.has b = Range.has ⟨q.addr, size⟩ b + Range.has ⟨q.addr + size, q.size - size⟩ b :=
    Range.has_split q.addr b hq
  rw [cover_append, cover_append, cover_cons]
  split
  · omega
  · rw [cover_cons]
    omega

theorem cover_cutFirst_zero (h : cutFirst 0 size L = some (a, L')) (b : Nat) :
    cover L b = Range.has ⟨a, size⟩ b + cover L' b := by
  obtain ⟨A, q, B, rfl, -, hle, rfl, rfl⟩ := cutFirst_some h
  have hsplit : q.has b = Range.has ⟨q.addr, size⟩ b + Range.has ⟨q.addr + size, q.size - size⟩ b :=
    Range.has_split q.addr b hle
  by_cases hrest : q.size - size ≤ 0
  · have hempty : q.size - size = 0 := by omega
    rw [hempty, Range.has_empty] at hsplit
    simp only [if_pos hrest, cover_append, cover_cons]
    omega
  · simp only [if_neg hrest, cover_append, cover_cons]
    omega

theorem ordered_cutFirst (h : cutFirst least size L = some (a, L')) (hL : Ordered L) :
    Ordered L' := by
  obtain ⟨A, q, B, rfl, _, hq, rfl, rfl⟩ := cutFirst_some h
  obtain ⟨hA, hB, hAB⟩ := List.pairwise_append.mp hL
  obtain ⟨hqB, hB⟩ := List.pairwise_cons.mp hB
  split
  · exact List.pairwise_append.mpr ⟨hA, hB, fun x hx y hy => hAB x hx y (List.mem_cons_of_mem q hy)⟩
  · refine List.pairwise_append.mpr ⟨hA, List.pairwise_cons.mpr ⟨fun x hx => ?_, hB⟩, ?_⟩
    · have := hqB x hx
      dsimp only
      omega
    · intro x hx y hy
      rcases List.mem_cons.mp hy with rfl | hy
      · have := hAB x hx q List.mem_cons_self
        dsimp only
        omega
      · exact hAB x hx y (List.mem_cons_of_mem q hy)

/-- What is left are ranges of the list and the rear part of one. -/
theorem mem_cutFirst (h : cutFirst least size L = some (a, L')) {x : Range} (hx : x ∈ L') :
    x ∈ L ∨ ∃ q ∈ L, size + least < q.size ∧ x = ⟨q.addr + size, q.size - size⟩ := by
  obtain ⟨A, q, B, rfl, _, hq, rfl, rfl⟩ := cutFirst_some h
  rcases List.mem_append.mp hx with hx | hx
  · exact .inl (List.mem_append_left _ hx)
  · split at hx
    next => exact .inl (List.mem_append_right _ (List.mem_cons_of_mem q hx))
    next hless =>
      rcases List.mem_cons.mp hx with rfl | hx
      · exact .inr ⟨q, by simp, by omega, rfl⟩
      · exact .inl (List.mem_append_right _ (List.mem_cons_of_mem q hx))

theorem cutFirst_lowest (h : cutFirst least size L = some (a, L')) (hL : Ordered L) :
    (∃ q ∈ L, size ≤ q.size ∧ a = q.addr) ∧ ∀ x ∈ L, size ≤ x.size → a ≤ x.addr := by
  obtain ⟨A, q, B, rfl, hA, hq, rfl, _⟩ := cutFirst_some h
  refine ⟨⟨q, by simp, hq, rfl⟩, fun x hx hsize => ?_⟩
  obtain ⟨_, hB, _⟩ := List.pairwise_append.mp hL
  rcases List.mem_append.mp hx with hx | hx
  · have := hA x hx
    omega
  · rcases List.mem_cons.mp hx with rfl | hx
    · exact Nat.le_refl _
    · have := (List.pairwise_cons.mp hB).1 x hx
      omega

end Cut

end Yaos.Lib
