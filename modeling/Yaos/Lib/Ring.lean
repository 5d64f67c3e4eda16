import Mathlib.Data.List.Chain
import Mathlib.Data.List.Nodup
import Mathlib.Logic.Function.Basic

/-! Circular doubly linked lists. The links are kept in the nodes, and the head of
the list is a node as well, which points to itself in both directions while the
list is empty. `LinkRing links head l` says that the nodes behind the head are `l`.
A node is added behind the head by four writes; one of them goes to the node that
the head points to, so it goes nowhere if the head has not been set up. -/
namespace Yaos.Lib

open Function

structure Links (ι : Type) where
  next : Option ι
  prev : Option ι

variable {ι : Type}

/-- A well-formed list: following either link from any node, the head included,
and then the other leads back to it. -/
structure LinkRing (links : ι → Links ι) (head : ι) (l : List ι) : Prop where
  nodup : (head :: l).Nodup
  chain : (head :: (l ++ [head])).IsChain fun a b =>
    (links a).next = some b ∧ (links b).prev = some a

variable {links : ι → Links ι} {head new x : ι} {l : List ι}

theorem LinkRing.prev_ne_none (h : LinkRing links head l) : (links head).prev ≠ none := by
  have hlast : head :: l = (head :: l).dropLast ++ [(head :: l).getLast (List.cons_ne_nil _ _)] :=
    (List.dropLast_append_getLast _).symm
  have hchain := h.chain
  rw [← List.cons_append, hlast, List.append_assoc, List.singleton_append,
    List.isChain_append_cons_cons] at hchain
  rw [hchain.2.1.2]
  exact Option.some_ne_none _

variable [DecidableEq ι]

def addAfter (links : ι → Links ι) (new head : ι) : ι → Links ι :=
  let next := (links head).next
  let links := next.elim links fun n => update links n { links n with prev := some new }
  let links := update links new ⟨next, some head⟩
  update links head { links head with next := some new }

theorem addAfter_next : (addAfter links new head x).next =
    if x = head then some new else if x = new then (links head).next else (links x).next := by
  rw [addAfter]
  by_cases hhead : x = head
  · rw [if_pos hhead, hhead, update_self]
  rw [if_neg hhead, update_of_ne hhead]
  by_cases hnew : x = new
  · rw [if_pos hnew, hnew, update_self]
  rw [if_neg hnew, update_of_ne hnew]
  cases (links head).next with
  | none => rfl
  | some n =>
    by_cases hn : x = n
    · rw [Option.elim_some, hn, update_self]
    · rw [Option.elim_some, update_of_ne hn]

/-- The new node and the one that the head pointed to are the ones whose
predecessor changes. -/
theorem addAfter_prev (hne : new ≠ head) : (addAfter links new head x).prev =
    if x = new then some head
    else if (links head).next = some x then some new else (links x).prev := by
  rw [addAfter]
  by_cases hnew : x = new
  · rw [if_pos hnew, hnew, update_of_ne hne, update_self]
  have hprev : ∀ m : ι → Links ι,
      (update m head { m head with next := some new } x).prev = (m x).prev := by
    intro m
    by_cases hhead : x = head
    · rw [hhead, update_self]
    · rw [update_of_ne hhead]
  rw [if_neg hnew, hprev, update_of_ne hnew]
  cases (links head).next with
  | none => rfl
  | some n =>
    rw [Option.elim_some]
    by_cases hn : some n = some x
    · rw [if_pos hn, Option.some.inj hn, update_self]
    · rw [if_neg hn, update_of_ne fun heq => hn (congrArg some heq.symm)]

theorem addAfter_of_ne (hhead : x ≠ head) (hnew : x ≠ new) (hnext : (links head).next ≠ some x) :
    addAfter links new head x = links x := by
  rw [addAfter, update_of_ne hhead, update_of_ne hnew]
  cases hn : (links head).next with
  | none => rfl
  | some n =>
    rw [Option.elim_some, update_of_ne]
    intro hx
    rw [hn, hx] at hnext
    exact hnext rfl

end Yaos.Lib
