import Mathlib.Data.List.Nodup

/-! Singly linked lists in a store. `Seg next p l q` says that following
`next` from the pointer `p` visits the nodes `l` and arrives at `q`; a
complete list is a segment that ends in `none`. The store is only a
function from nodes to their successor, so the lemmas serve any memory
layout: a write elsewhere keeps a segment (`Seg.frame`), and the surgery
of linked-list code (push, insert, unlink) is an equation on lists. -/
namespace Yaos.Lib

variable {ι : Type} {next next' : ι → Option ι}

/-- Following `next` from `p` visits `l` and arrives at `q`. -/
inductive Seg (next : ι → Option ι) : Option ι → List ι → Option ι → Prop where
  | nil (p : Option ι) : Seg next p [] p
  | cons {x : ι} {l : List ι} {q : Option ι} :
      Seg next (next x) l q → Seg next (some x) (x :: l) q

/-- A complete list: it ends in the null pointer. -/
abbrev Chain (next : ι → Option ι) (p : Option ι) (l : List ι) : Prop := Seg next p l none

theorem Seg.head {p q : Option ι} {x : ι} {l : List ι} (h : Seg next p (x :: l) q) :
    p = some x := by
  cases h
  rfl

theorem Seg.tail {p q : Option ι} {x : ι} {l : List ι} (h : Seg next p (x :: l) q) :
    Seg next (next x) l q := by
  cases h with
  | cons h => exact h

theorem Seg.nil_eq {p q : Option ι} (h : Seg next p [] q) : p = q := by
  cases h
  rfl

theorem Chain.nil_of_none {l : List ι} (h : Chain next none l) : l = [] := by
  cases h
  rfl

theorem Chain.eq_cons {x : ι} {l : List ι} (h : Chain next (some x) l) :
    ∃ r, l = x :: r ∧ Chain next (next x) r := by
  cases h with
  | cons h => exact ⟨_, rfl, h⟩

theorem Seg.append {p q r : Option ι} {l l' : List ι} (h : Seg next p l q)
    (h' : Seg next q l' r) : Seg next p (l ++ l') r := by
  induction h with
  | nil p => exact h'
  | cons _ ih => exact .cons (ih h')

theorem Seg.split {p r : Option ι} {l l' : List ι} (h : Seg next p (l ++ l') r) :
    ∃ q, Seg next p l q ∧ Seg next q l' r := by
  induction l generalizing p with
  | nil => exact ⟨p, .nil p, h⟩
  | cons x l ih =>
    cases h with
    | cons h =>
      obtain ⟨q, h₁, h₂⟩ := ih h
      exact ⟨q, .cons h₁, h₂⟩

theorem Seg.split_at {p r : Option ι} {x : ι} {l l' : List ι}
    (h : Seg next p (l ++ x :: l') r) :
    Seg next p l (some x) ∧ Seg next (next x) l' r := by
  obtain ⟨q, h₁, h₂⟩ := h.split
  have hq := h₂.head
  subst hq
  exact ⟨h₁, h₂.tail⟩

theorem Seg.next_last {p q : Option ι} {l : List ι} {y : ι} (h : Seg next p l q)
    (hy : l.getLast? = some y) : next y = q := by
  obtain ⟨a, rfl⟩ := List.getLast?_eq_some_iff.mp hy
  exact h.split_at.2.nil_eq

theorem Seg.end_unique {p q q' : Option ι} {l : List ι} (h : Seg next p l q)
    (h' : Seg next p l q') : q = q' := by
  induction h with
  | nil p => exact h'.nil_eq
  | cons _ ih => exact ih h'.tail

theorem Chain.unique {p : Option ι} {l l' : List ι} (h : Chain next p l)
    (h' : Chain next p l') : l = l' := by
  induction l generalizing p l' with
  | nil =>
    have hp := h.nil_eq
    subst hp
    exact (Chain.nil_of_none h').symm
  | cons x l ih =>
    have hp := h.head
    subst hp
    obtain ⟨r, rfl, hr⟩ := Chain.eq_cons h'
    rw [ih h.tail hr]

/-- It does not matter which complete list from `p` a node is on. -/
theorem Chain.exists_mem_iff {p : Option ι} {x : ι} {l : List ι} (h : Chain next p l) :
    (∃ l', Chain next p l' ∧ x ∈ l') ↔ x ∈ l := by
  constructor
  · rintro ⟨l', hl', hx⟩
    rwa [Chain.unique h hl']
  · intro hx
    exact ⟨l, h, hx⟩

/-- A node that a walk along a complete list comes to is on the list. -/
theorem Chain.mem_of_seg {p : Option ι} {x : ι} {l l' : List ι} (h : Chain next p l)
    (h' : Seg next p l' (some x)) : x ∈ l := by
  induction l' generalizing p l with
  | nil =>
    obtain rfl := h'.nil_eq
    obtain ⟨r, rfl, -⟩ := h.eq_cons
    exact List.mem_cons_self
  | cons y l' ih =>
    obtain rfl := h'.head
    obtain ⟨r, rfl, hr⟩ := h.eq_cons
    exact List.mem_cons_of_mem y (ih hr h'.tail)

/-- A complete list repeats no node: from the second visit on it would be
shorter than itself. -/
theorem Chain.nodup {p : Option ι} {l : List ι} (h : Chain next p l) : l.Nodup := by
  induction l generalizing p with
  | nil => exact List.nodup_nil
  | cons x l ih =>
    refine List.nodup_cons.mpr ⟨fun hx => ?_, ih h.tail⟩
    obtain ⟨l₁, l₂, rfl⟩ := List.append_of_mem hx
    have h₂ : Chain next (next x) l₂ := h.tail.split_at.2
    have hlen := congrArg List.length (Chain.unique h.tail h₂)
    simp only [List.length_append, List.length_cons] at hlen
    omega

theorem Seg.frame {p q : Option ι} {l : List ι} (h : Seg next p l q)
    (hl : ∀ x ∈ l, next' x = next x) : Seg next' p l q := by
  induction h with
  | nil p => exact .nil p
  | @cons x l q _ ih =>
    have hx := hl x List.mem_cons_self
    refine .cons ?_
    rw [hx]
    exact ih fun y hy => hl y (List.mem_cons_of_mem x hy)

/-- Two lists are joined: the last node of the first is made to point to the second,
whose last node is redirected, and no other node is changed. -/
theorem Seg.join {p q r s : Option ι} {l l' : List ι} {x y h : ι} (hl : Seg next p (l ++ [x]) q)
    (hl' : Seg next (some h) (l' ++ [y]) r) (hsame : ∀ i ∈ l ++ l', next' i = next i)
    (hx : next' x = some h) (hy : next' y = s) : Seg next' p (l ++ [x] ++ (l' ++ [y])) s := by
  have hfirst : Seg next' p l (some x) :=
    hl.split_at.1.frame fun i hi => hsame i (List.mem_append_left l' hi)
  have hsecond : Seg next' (some h) l' (some y) :=
    hl'.split_at.1.frame fun i hi => hsame i (List.mem_append_right l hi)
  have hx' : Seg next' (some x) [x] (some h) := .cons (hx ▸ .nil _)
  have hy' : Seg next' (some y) [y] s := .cons (hy ▸ .nil _)
  exact (hfirst.append hx').append (hsecond.append hy')

/-- Pointing a node of a list back at the list's head makes the list from
that node endless. -/
theorem Chain.not_of_cycle {p : ι} {q : Option ι} {a b : List ι}
    (h : Chain next q (a ++ p :: b)) (hframe : ∀ u, u ≠ p → next' u = next u)
    (hp : next' p = q) (r : List ι) : ¬ Chain next' (some p) r := by
  intro hr
  have ha : ∀ u ∈ a, u ≠ p := by
    rintro u hu rfl
    exact List.disjoint_of_nodup_append (Chain.nodup h) hu List.mem_cons_self
  have hseg : Seg next' q a (some p) := h.split_at.1.frame fun u hu => hframe u (ha u hu)
  obtain ⟨r', rfl, hr'⟩ := Chain.eq_cons hr
  rw [hp] at hr'
  -- going round once more gives a second, longer list from the same pointer
  have hround : Chain next' q (a ++ p :: r') := hseg.append hr
  have hlen := congrArg List.length (Chain.unique hr' hround)
  simp only [List.length_append, List.length_cons] at hlen
  omega

/-- **Insertion** of a new node after a node of the list. -/
theorem Seg.insert {p q : Option ι} {x n : ι} {l l' : List ι}
    (h : Seg next p (l ++ x :: l') q) (hx : next' x = some n) (hn : next' n = next x)
    (hl : ∀ y ∈ l, next' y = next y) (hl' : ∀ y ∈ l', next' y = next y) :
    Seg next' p (l ++ x :: n :: l') q := by
  obtain ⟨h₁, h₂⟩ := h.split_at
  refine (h₁.frame hl).append (.cons ?_)
  rw [hx]
  refine .cons ?_
  rw [hn]
  exact h₂.frame hl'

/-- **Unlinking** the node after a node of the list. -/
theorem Seg.unlink {p q : Option ι} {x n : ι} {l l' : List ι}
    (h : Seg next p (l ++ x :: n :: l') q) (hx : next' x = next n)
    (hl : ∀ y ∈ l, next' y = next y) (hl' : ∀ y ∈ l', next' y = next y) :
    Seg next' p (l ++ x :: l') q := by
  obtain ⟨h₁, h₂⟩ := h.split_at
  refine (h₁.frame hl).append (.cons ?_)
  rw [hx]
  exact h₂.tail.frame hl'

end Yaos.Lib
