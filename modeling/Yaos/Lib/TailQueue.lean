import Mathlib.Logic.Function.Basic
import Yaos.Lib.Seg

/-! Queues with a tail pointer. The tail is the address of the pointer that
the next node is stored to: the head itself while the queue is empty, else
the successor field of the last node. `TailQueue.Holds` relates such a
queue in a store to the list of its nodes; appending is an equation on
lists, and everything that is not on the queue keeps its successor. -/
namespace Yaos.Lib

open Function

variable {ι : Type}

inductive Tail (ι : Type) where
  | head
  | next (x : ι)
  deriving DecidableEq

structure TailQueue (ι : Type) where
  head : Option ι
  tail : Tail ι

/-- The tail pointer of a queue with these nodes. -/
def Tail.of (l : List ι) : Tail ι :=
  match l.getLast? with
  | none => .head
  | some x => .next x

namespace TailQueue

def empty : TailQueue ι := ⟨none, .head⟩

/-- Store a node where the tail points, and let the tail point into it. -/
def append [DecidableEq ι] (q : TailQueue ι) (next : ι → Option ι) (x : ι) :
    (ι → Option ι) × TailQueue ι :=
  let next := update next x none
  match q.tail with
  | .head => (next, ⟨some x, .next x⟩)
  | .next y => (update next y (some x), ⟨q.head, .next x⟩)

/-- Store a node in front; the tail stays. -/
def push [DecidableEq ι] (q : TailQueue ι) (next : ι → Option ι) (x : ι) :
    (ι → Option ι) × TailQueue ι :=
  (update next x q.head, ⟨some x, q.tail⟩)

/-- Store a node in front; on an empty queue the tail comes to point into it. -/
def insertHead [DecidableEq ι] (q : TailQueue ι) (next : ι → Option ι) (x : ι) :
    (ι → Option ι) × TailQueue ι :=
  (update next x q.head, ⟨some x, if q.head = none then .next x else q.tail⟩)

/-- Take off the first node, `x`. -/
def removeHead [DecidableEq ι] (q : TailQueue ι) (next : ι → Option ι) (x : ι) : TailQueue ι :=
  ⟨next x, if next x = none then .head else q.tail⟩

/-- The queue has the nodes `l`. -/
structure Holds (next : ι → Option ι) (q : TailQueue ι) (l : List ι) : Prop where
  chain : Chain next q.head l
  tail : q.tail = Tail.of l

variable {next next' : ι → Option ι} {q : TailQueue ι} {l : List ι} {x : ι}

theorem holds_empty (next : ι → Option ι) : Holds next empty [] := ⟨.nil _, rfl⟩

theorem Holds.frame (h : Holds next q l) (hl : ∀ y ∈ l, next' y = next y) : Holds next' q l :=
  ⟨h.chain.frame hl, h.tail⟩

theorem Holds.head_eq_none_iff (h : Holds next q l) : q.head = none ↔ l = [] := by
  constructor
  · intro hq
    have hchain := h.chain
    rw [hq] at hchain
    exact hchain.nil_of_none
  · rintro rfl
    exact h.chain.nil_eq

variable [DecidableEq ι]

theorem append_of_head (hq : q.tail = .head) :
    q.append next x = (update next x none, ⟨some x, .next x⟩) := by
  rw [TailQueue.append, hq]

theorem append_of_next {y : ι} (hq : q.tail = .next y) :
    q.append next x =
      (update (update next x none) y (some x), ⟨q.head, .next x⟩) := by
  rw [TailQueue.append, hq]

omit [DecidableEq ι] in
theorem tail_of_concat (l : List ι) (x : ι) : Tail.of (l ++ [x]) = .next x := by
  rw [Tail.of, List.getLast?_concat]

/-- **Appending** a node that is not on the queue. -/
theorem Holds.append (h : Holds next q l) (hx : x ∉ l) :
    Holds (q.append next x).1 (q.append next x).2 (l ++ [x]) ∧
      ∀ y, y ≠ x → y ∉ l → (q.append next x).1 y = next y := by
  have htail := h.tail
  rcases List.eq_nil_or_concat' l with rfl | ⟨a, z, rfl⟩
  · rw [append_of_head htail]
    dsimp only
    refine ⟨⟨.cons ?_, (tail_of_concat _ x).symm⟩, fun y hy _ => update_of_ne hy _ _⟩
    rw [update_self]
    exact .nil _
  · rw [tail_of_concat] at htail
    rw [append_of_next htail]
    dsimp only
    have hz : z ∉ a := fun hza =>
      List.disjoint_of_nodup_append (Chain.nodup h.chain) hza List.mem_cons_self
    have hxz : x ≠ z := fun heq => hx (by simp [heq])
    have hxa : x ∉ a := fun hxa => hx (by simp [hxa])
    refine ⟨⟨?_, (tail_of_concat _ x).symm⟩, fun y hy hyl => ?_⟩
    · rw [List.append_assoc]
      -- up to the old last node nothing changed
      refine (h.chain.split_at.1.frame fun y hy => ?_).append (.cons ?_)
      · rw [update_of_ne (ne_of_mem_of_not_mem hy hz),
          update_of_ne (ne_of_mem_of_not_mem hy hxa)]
      · rw [update_self]
        refine .cons ?_
        rw [update_of_ne hxz, update_self]
        exact .nil _
    · have hyz : y ≠ z := fun heq => hyl (by simp [heq])
      rw [update_of_ne hyz, update_of_ne hy]

/-- **Pushing** a node in front keeps the tail right if there was one to
point to. -/
theorem Holds.push (h : Holds next q l) (hx : x ∉ l) (hl : l ≠ []) :
    Holds (q.push next x).1 (q.push next x).2 (x :: l) := by
  refine ⟨.cons ?_, ?_⟩
  · show Chain (update next x q.head) (update next x q.head x) l
    rw [update_self]
    exact h.chain.frame fun y hy => update_of_ne (ne_of_mem_of_not_mem hy hx) _ _
  · show q.tail = _
    rw [h.tail, Tail.of, Tail.of, List.getLast?_cons_of_ne_nil hl]

theorem Holds.push_stale (h : Holds next q []) (l' : List ι) :
    ¬ Holds next' (q.push next x).2 l' := by
  intro h'
  obtain ⟨r, rfl, -⟩ := Chain.eq_cons (x := x) h'.chain
  have htail : Tail.of (x :: r) = .head := h'.tail.symm.trans h.tail
  rw [Tail.of, List.getLast?_cons] at htail
  cases htail

/-- **Inserting** a node in front. -/
theorem Holds.insertHead (h : Holds next q l) (hx : x ∉ l) :
    Holds (q.insertHead next x).1 (q.insertHead next x).2 (x :: l) := by
  refine ⟨.cons ?_, ?_⟩
  · show Chain (update next x q.head) (update next x q.head x) l
    rw [update_self]
    exact h.chain.frame fun y hy => update_of_ne (ne_of_mem_of_not_mem hy hx) _ _
  · show (if q.head = none then Tail.next x else q.tail) = _
    by_cases hl : l = []
    · rw [if_pos (h.head_eq_none_iff.mpr hl), hl]
      rfl
    · rw [if_neg (mt h.head_eq_none_iff.mp hl), h.tail, Tail.of, Tail.of,
        List.getLast?_cons_of_ne_nil hl]

/-- **Removing** the first node. -/
theorem Holds.removeHead (h : Holds next q (x :: l)) : Holds next (q.removeHead next x) l := by
  have hchain : Chain next (next x) l := h.chain.tail
  refine ⟨hchain, ?_⟩
  show (if next x = none then Tail.head else q.tail) = _
  by_cases hl : l = []
  · subst hl
    rw [if_pos hchain.nil_eq]
    rfl
  · have hne : next x ≠ none := fun hnone => by
      rw [hnone] at hchain
      exact hl hchain.nil_of_none
    rw [if_neg hne, h.tail, Tail.of, Tail.of, List.getLast?_cons_of_ne_nil hl]

end TailQueue

end Yaos.Lib
