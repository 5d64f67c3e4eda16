import Mathlib.Data.List.Perm.Basic
import Yaos.Tasklet.Model

/-!
# The lists of tasklets

A tasklet is on one of the two queues, in the hand of the action or on the
list the action detached. `Linked` says that the pointers agree with the
recorded lists; appending, pushing, detaching and taking the next one keep
it, as long as the tasklet they write to is on none of them.
-/

namespace Yaos.Tasklet

open Yaos.Lib
open Function (update update_self update_of_ne)

/-- All the tasklets of two queues and of a third list. -/
def whole (on : Bool → List Nat) (m : List Nat) : List Nat := on false ++ (on true ++ m)

variable {on : Bool → List Nat} {m rest : List Nat} {t y : Nat}

theorem mem_whole : t ∈ whole on m ↔ (∃ hi, t ∈ on hi) ∨ t ∈ m := by
  rw [whole, List.mem_append, List.mem_append, Bool.exists_bool, or_assoc]

theorem not_mem_queue (h : t ∉ whole on m) (hi : Bool) : t ∉ on hi :=
  fun hmem => h (mem_whole.mpr (.inl ⟨hi, hmem⟩))

theorem whole_apart (h : (whole on m).Nodup) {hi hi' : Bool} (hne : hi' ≠ hi) (hy : y ∈ on hi') :
    y ∉ on hi := by
  intro hy'
  have hdis : List.Disjoint (on false) (on true) :=
    (List.disjoint_append_right.mp (List.disjoint_of_nodup_append h)).1
  cases hi with
  | false => exact hdis hy' ((Bool.not_eq_false hi').mp hne ▸ hy)
  | true => exact hdis ((Bool.not_eq_true hi').mp hne ▸ hy) hy'

theorem whole_apart_rest (h : (whole on m).Nodup) (hi : Bool) (hy : y ∈ m) : y ∉ on hi := by
  intro hy'
  cases hi with
  | false => exact List.disjoint_of_nodup_append h hy' (List.mem_append_right _ hy)
  | true => exact List.disjoint_of_nodup_append (List.Nodup.of_append_right h) hy' hy

/-! Each way to put a tasklet somewhere adds it to the whole once. -/

theorem whole_cons (t : Nat) : (whole on (t :: m)).Perm (t :: whole on m) := by
  rw [whole, whole, ← List.append_assoc, ← List.append_assoc]
  exact List.perm_middle

theorem whole_append (hi : Bool) (t : Nat) :
    (whole (update on hi (on hi ++ [t])) m).Perm (t :: whole on m) := by
  cases hi with
  | false =>
    show (on false ++ [t] ++ (on true ++ m)).Perm _
    rw [List.append_assoc]
    exact List.perm_middle
  | true =>
    show (on false ++ (on true ++ [t] ++ m)).Perm _
    rw [List.append_assoc]
    exact (List.Perm.append_left _ List.perm_middle).trans List.perm_middle

theorem whole_push (t : Nat) :
    (whole (update on true (t :: on true)) m).Perm (t :: whole on m) :=
  List.perm_middle

theorem whole_detach (hi : Bool) : (whole (update on hi []) (on hi)).Perm (whole on []) := by
  cases hi with
  | false =>
    show ([] ++ (on true ++ on false)).Perm (on false ++ (on true ++ []))
    rw [List.nil_append, List.append_nil]
    exact List.perm_append_comm
  | true =>
    show (on false ++ ([] ++ on true)).Perm (on false ++ (on true ++ []))
    rw [List.nil_append, List.append_nil]

/-- The tasklets of a list are those with the bit set, each once. -/
structure Marked (sched : Nat → Bool) (l : List Nat) : Prop where
  once : l.Nodup
  sched : ∀ t, sched t = true ↔ t ∈ l

section Marked

variable {sched : Nat → Bool} {l l' : List Nat}

theorem Marked.perm (h : Marked sched l) (hp : l'.Perm l) : Marked sched l' :=
  ⟨hp.nodup_iff.mpr h.once, fun t => (h.sched t).trans hp.mem_iff.symm⟩

theorem Marked.not_mem (h : Marked sched l) (ht : ¬ sched t = true) : t ∉ l :=
  fun hmem => ht ((h.sched t).mpr hmem)

theorem Marked.set (h : Marked sched l) (ht : ¬ sched t = true) :
    Marked (update sched t true) (t :: l) := by
  refine ⟨List.nodup_cons.mpr ⟨h.not_mem ht, h.once⟩, fun u => ?_⟩
  by_cases hu : u = t
  · subst hu
    simp
  · rw [update_of_ne hu, List.mem_cons, h.sched u]
    simp [hu]

theorem Marked.clear (h : Marked sched (t :: l)) : Marked (update sched t false) l := by
  obtain ⟨ht, hnd⟩ := List.nodup_cons.mp h.once
  refine ⟨hnd, fun u => ?_⟩
  by_cases hu : u = t
  · subst hu
    simp [ht]
  · rw [update_of_ne hu, h.sched u, List.mem_cons]
    simp [hu]

end Marked

structure Linked (next : Nat → Option Nat) (vec : Bool → TailQueue Nat) (on : Bool → List Nat)
    (list : Option Nat) (rest : List Nat) : Prop where
  queue : ∀ hi, (vec hi).Holds next (on hi)
  list : Chain next list rest

variable {next : Nat → Option Nat} {vec : Bool → TailQueue Nat} {list : Option Nat}

theorem Linked.append (h : Linked next vec on list rest) (hnd : (whole on rest).Nodup)
    (ht : t ∉ whole on rest) (hi : Bool) :
    Linked ((vec hi).append next t).1 (update vec hi ((vec hi).append next t).2)
      (update on hi (on hi ++ [t])) list rest := by
  obtain ⟨hq, hframe⟩ := (h.queue hi).append (not_mem_queue ht hi)
  refine ⟨fun hi' => ?_, h.list.frame fun y hy => hframe y ?_ (whole_apart_rest hnd hi hy)⟩
  · by_cases heq : hi' = hi
    · subst heq
      rw [update_self, update_self]
      exact hq
    · rw [update_of_ne heq, update_of_ne heq]
      exact (h.queue hi').frame fun y hy =>
        hframe y (ne_of_mem_of_not_mem hy (not_mem_queue ht hi')) (whole_apart hnd heq hy)
  · exact ne_of_mem_of_not_mem hy fun hmem => ht (mem_whole.mpr (.inr hmem))

theorem Linked.push (h : Linked next vec on list rest) (ht : t ∉ whole on rest)
    (hhead : (vec true).head ≠ none) :
    Linked ((vec true).push next t).1 (update vec true ((vec true).push next t).2)
      (update on true (t :: on true)) list rest := by
  have hframe : ∀ y, y ≠ t → ((vec true).push next t).1 y = next y :=
    fun y hy => update_of_ne hy _ _
  refine ⟨fun hi => ?_, h.list.frame fun y hy => hframe y ?_⟩
  · cases hi with
    | false =>
      exact (h.queue false).frame fun y hy =>
        hframe y (ne_of_mem_of_not_mem hy (not_mem_queue ht false))
    | true =>
      exact (h.queue true).push (not_mem_queue ht true) (mt (h.queue true).head_eq_none_iff.mpr hhead)
  · exact ne_of_mem_of_not_mem hy fun hmem => ht (mem_whole.mpr (.inr hmem))

theorem Linked.detach (h : Linked next vec on list rest) (hi : Bool) :
    Linked next (update vec hi .empty) (update on hi []) (vec hi).head (on hi) := by
  refine ⟨fun hi' => ?_, (h.queue hi).chain⟩
  by_cases heq : hi' = hi
  · subst heq
    rw [update_self, update_self]
    exact TailQueue.holds_empty next
  · rw [update_of_ne heq, update_of_ne heq]
    exact h.queue hi'

theorem Linked.take (h : Linked next vec on (some t) rest) :
    rest = t :: rest.tail ∧ Linked next vec on (next t) rest.tail := by
  obtain ⟨r, rfl, hr⟩ := Chain.eq_cons h.list
  exact ⟨rfl, h.queue, hr⟩

/-- Where the tasklets of a state are, with an action that stands before
`list` and has `held` in hand. -/
structure Placed (s : State) (list : Option Nat) (held rest : List Nat) : Prop where
  linked : Linked s.next s.vec s.on list rest
  marked : Marked s.sched (whole s.on (held ++ rest))

variable {s : State} {held : List Nat}

theorem Placed.once (h : Placed s list held rest) : (whole s.on rest).Nodup :=
  h.marked.once.sublist
    ((List.Sublist.refl _).append ((List.Sublist.refl _).append (List.sublist_append_right ..)))

theorem Placed.not_mem (h : Placed s list held rest) (ht : ¬ s.sched t = true) :
    t ∉ whole s.on rest := by
  intro hmem
  refine h.marked.not_mem ht (mem_whole.mpr ?_)
  exact (mem_whole.mp hmem).imp_right (List.mem_append_right held)

theorem Placed.schedule (h : Placed s list held rest) (ht : ¬ s.sched t = true) (hi : Bool) :
    Placed ((s.setSched t).append hi t) list held rest :=
  ⟨h.linked.append h.once (h.not_mem ht) hi, (h.marked.set ht).perm (whole_append hi t)⟩

theorem Placed.first (h : Placed s list held rest) (ht : ¬ s.sched t = true)
    (hhead : (s.vec true).head ≠ none) : Placed ((s.setSched t).push t) list held rest :=
  ⟨h.linked.push (h.not_mem ht) hhead, (h.marked.set ht).perm (whole_push t)⟩

theorem Placed.requeue (h : Placed s list [t] rest) (hi : Bool) :
    Placed (s.append hi t) list [] rest := by
  have hm : Marked s.sched (t :: whole s.on rest) := h.marked.perm (whole_cons t).symm
  exact ⟨h.linked.append h.once (List.nodup_cons.mp hm.once).1 hi, hm.perm (whole_append hi t)⟩

end Yaos.Tasklet
