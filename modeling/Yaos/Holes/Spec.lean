import Mathlib.Data.List.Perm.Subperm
import Yaos.Holes.Model
import Yaos.Lib.FirstFit

/-!
# Hole lists as lists of ranges

`Shape h l f` says that the two linked lists of `h` are `l` (the holes) and
`f` (the pool) and that together they are all descriptors. On that footing
each operation is an operation on the list of ranges: `insertRange` for the
sorted insertion, `cutFirst` for the first-fit allocation. The lemmas that
end in `_spec` are the refinement; users of a hole list only see ranges.
-/

namespace Yaos.Holes

open Yaos.Lib

variable {h : HoleList} {l f : List Nat} {p : Nat}

/-- The descriptors: `l` is the list of holes, `f` the pool. -/
structure Shape (h : HoleList) (l f : List Nat) : Prop where
  holes : Chain h.next h.phead l
  pool : Chain h.next h.pfree f
  nodup : (l ++ f).Nodup
  all : ∀ i, i ∈ l ++ f ↔ i < h.max

def HoleList.range (h : HoleList) (i : Nat) : Range := ⟨(h.node i).addr, (h.node i).size⟩

/-- `h` represents the list of ranges `L`. -/
def HoleList.Reps (h : HoleList) (L : List Range) : Prop :=
  ∃ l f, Shape h l f ∧ l.map h.range = L

/-! ## Walks -/

theorem Shape.length_le (hs : Shape h l f) : l.length ≤ h.max := by
  have hsub : l ⊆ List.range h.max := by
    intro i hi
    exact List.mem_range.mpr ((hs.all i).mp (List.mem_append_left f hi))
  have hnodup := (List.nodup_append.mp hs.nodup).1
  have hlen := (List.subperm_of_subset hnodup hsub).length_le
  simpa using hlen

theorem firstFit_eq {size k : Nat} {q : Option Nat} (hc : Chain h.next q l) (hk : l.length ≤ k) :
    h.firstFit size k q = .ok (l.find? fun i => decide (size ≤ (h.node i).size)) := by
  induction l generalizing q k with
  | nil =>
    have hq := hc.nil_eq
    subst hq
    cases k <;> rfl
  | cons i l ih =>
    have hq := hc.head
    subst hq
    cases k with
    | zero => simp at hk
    | succ k =>
      simp only [List.length_cons, Nat.add_le_add_iff_right] at hk
      simp only [HoleList.firstFit]
      by_cases hi : (h.node i).size < size
      · rw [if_pos hi, ih hc.tail hk, List.find?_cons_of_neg (by simpa using hi)]
      · rw [if_neg hi, List.find?_cons_of_pos (by simpa using hi)]

/-- The sorted walk from `q` passes the lower descriptors `c` and stops at
the last one, `x`. -/
theorem seek_spec (addr : Nat) {k q : Nat} {l : List Nat} (hc : Chain h.next (some q) (q :: l))
    (hk : l.length < k) :
    ∃ a x b c, h.seek addr k q = .ok x ∧ l = c ++ b ∧ q :: c = a ++ [x] ∧
      (∀ i ∈ c, (h.node i).addr < addr) ∧ ∀ i ∈ b.head?, ¬ (h.node i).addr < addr := by
  induction k generalizing q l with
  | zero => omega
  | succ k ih =>
    simp only [HoleList.seek]
    cases l with
    | nil =>
      have hq : h.next q = none := hc.tail.nil_eq
      exact ⟨[], q, [], [], by simp [hq], rfl, rfl, by simp, by simp⟩
    | cons r l =>
      have hq : h.next q = some r := hc.tail.head
      by_cases hr : (h.node r).addr < addr
      · obtain ⟨a, x, b, c, hx, hl, heq, hlow, hhigh⟩ := ih (hq ▸ hc.tail) (by simpa using hk)
        refine ⟨q :: a, x, b, r :: c, by simp [hq, hr, hx], by simp [hl], by simp [heq], ?_, hhigh⟩
        intro i hi
        rcases List.mem_cons.mp hi with rfl | hi
        · exact hr
        · exact hlow i hi
      · exact ⟨[], q, r :: l, [], by simp [hq, hr], rfl, rfl, by simp, by simpa using hr⟩

theorem before_spec {k q x : Nat} {a b : List Nat}
    (hc : Chain h.next (some q) (a ++ x :: p :: b)) (hk : a.length < k) :
    h.before p k q = .ok x := by
  induction k generalizing q a with
  | zero => omega
  | succ k ih =>
    simp only [HoleList.before]
    have hnodup := Chain.nodup hc
    cases a with
    | nil =>
      have hq : some q = some x := hc.head
      cases hq
      have hn : h.next x = some p := hc.tail.head
      simp [hn]
    | cons y a =>
      have hq : some q = some y := hc.head
      cases hq
      -- the next descriptor is not `p`, which comes later on the list
      have htail := hc.tail
      cases hn : h.next q with
      | none =>
        rw [hn] at htail
        simpa using Chain.nil_of_none htail
      | some r =>
        rw [hn] at htail
        have hr : r ≠ p := by
          rintro rfl
          have hnd := Chain.nodup htail
          cases a with
          | nil =>
            have hx := htail.head
            cases hx
            simp at hnd
          | cons z a =>
            have hz := htail.head
            cases hz
            simp at hnd
        simp only [if_neg hr]
        exact ih htail (by simpa using hk)

/-! ## Adding a hole -/

/-- Descriptors that agree on `l` agree on the links and ranges of `l`. -/
structure AgreeOn (l : List Nat) (h h' : HoleList) : Prop where
  next : ∀ i ∈ l, h'.next i = h.next i
  range : l.map h'.range = l.map h.range

theorem agreeOn_of_ne {h' : HoleList} (hn : ∀ i, i ≠ p → h'.node i = h.node i) (hp : p ∉ l) :
    AgreeOn l h h' where
  next i hi := congrArg Node.pnext (hn i (ne_of_mem_of_not_mem hi hp))
  range := List.map_congr_left fun i hi => by
    rw [HoleList.range, HoleList.range, hn i (ne_of_mem_of_not_mem hi hp)]

theorem upd_pnext_range (q : Option Nat) (i : Nat) :
    (h.upd p fun x => { x with pnext := q }).range i = h.range i := by
  simp only [HoleList.range, HoleList.upd_node]
  split <;> rfl

/-- A descriptor taken from the pool, filled in and not yet linked. -/
structure Popped (h : HoleList) (l f : List Nat) (p : Nat) (r : Range) : Prop where
  holes : Chain h.next h.phead l
  pool : Chain h.next h.pfree f
  nodup : (p :: (l ++ f)).Nodup
  all : ∀ i, i ∈ p :: (l ++ f) ↔ i < h.max
  range : h.range p = r

theorem Popped.notMem {r : Range} (hs : Popped h l f p r) : p ∉ l ∧ p ∉ f := by
  have hp := (List.nodup_cons.mp hs.nodup).1
  simpa [not_or] using hp

theorem pop_spec (addr size : Nat) (hs : Shape h l f) :
    f = [] ∧ h.pop addr size = .error .panic ∨
    ∃ p f' h', f = p :: f' ∧ h.pop addr size = .ok (p, h') ∧ Popped h' l f' p ⟨addr, size⟩ ∧
      l.map h'.range = l.map h.range ∧ h'.max = h.max := by
  cases f with
  | nil =>
    have hf : h.pfree = none := hs.pool.nil_eq
    exact .inl ⟨rfl, by simp [HoleList.pop, hf]⟩
  | cons p f =>
    have hf : h.pfree = some p := hs.pool.head
    have hperm : (p :: (l ++ f)).Perm (l ++ p :: f) := List.perm_middle.symm
    have hnodup : (p :: (l ++ f)).Nodup := hperm.nodup_iff.mpr hs.nodup
    have hp := (List.nodup_cons.mp hnodup).1
    simp only [List.mem_append, not_or] at hp
    have hagree : ∀ m, p ∉ m → AgreeOn m h (h.fill p addr size) := fun m hm =>
      agreeOn_of_ne (fun i hi => h.fill_ne hi addr size) hm
    refine .inr ⟨p, f, h.fill p addr size, rfl, by simp only [HoleList.pop, hf], ?_,
      (hagree l hp.1).range, rfl⟩
    refine ⟨hs.holes.frame (hagree l hp.1).next, hs.pool.tail.frame (hagree f hp.2).next,
      hnodup, fun i => hperm.mem_iff.trans (hs.all i), ?_⟩
    simp [HoleList.range, HoleList.fill]

theorem push_spec {r : Range} (hs : Popped h l f p r) :
    Shape (h.push p) (p :: l) f ∧ (p :: l).map (h.push p).range = r :: l.map h.range ∧
      (h.push p).max = h.max := by
  obtain ⟨hl, hf⟩ := hs.notMem
  have hagree : ∀ m, p ∉ m → AgreeOn m h (h.push p) := fun m hm =>
    agreeOn_of_ne (fun i hi => h.push_ne hi) hm
  refine ⟨⟨.cons ?_, hs.pool.frame (hagree f hf).next, hs.nodup, hs.all⟩, ?_, rfl⟩
  · have hn : (h.push p).next p = h.phead := by simp [HoleList.push, HoleList.next]
    rw [hn]
    exact hs.holes.frame (hagree l hl).next
  · rw [List.map_cons, (hagree l hl).range]
    exact congrArg (· :: _) ((upd_pnext_range h.phead p).trans hs.range)

theorem Popped.behind {r : Range} {a b : List Nat} {x : Nat}
    (hs : Popped h (a ++ x :: b) f p r) :
    let h' := (h.upd p fun y => { y with pnext := h.next x }).upd x
      fun y => { y with pnext := some p }
    Shape h' (a ++ x :: p :: b) f ∧
      (a ++ x :: p :: b).map h'.range = a.map h.range ++ h.range x :: r :: b.map h.range := by
  obtain ⟨hl, hf⟩ := hs.notMem
  have hperm : (a ++ x :: p :: b).Perm (p :: (a ++ x :: b)) := by
    have hmid : (a ++ [x] ++ p :: b).Perm (p :: (a ++ [x] ++ b)) := List.perm_middle
    simpa using hmid
  intro h'
  have hrange : ∀ i, h'.range i = h.range i := fun i =>
    (upd_pnext_range _ i).trans (upd_pnext_range _ i)
  have hnode : ∀ i, i ≠ p → i ≠ x → h'.next i = h.next i := by
    intro i hip hix
    simp [h', HoleList.next, HoleList.upd_node, hip, hix]
  have hxp : x ≠ p := by
    rintro rfl
    exact hl (by simp)
  have hx : h'.next x = some p := by simp [h', HoleList.next]
  have hp : h'.next p = h.next x := by simp [h', HoleList.next, HoleList.upd_node, hxp.symm]
  have hnd := Chain.nodup hs.holes
  have hxa : x ∉ a := fun hxa => List.disjoint_of_nodup_append hnd hxa List.mem_cons_self
  have hxb : x ∉ b := (List.nodup_cons.mp (List.nodup_append.mp hnd).2.1).1
  have hxf : x ∉ f := fun hxf => List.disjoint_of_nodup_append
    (List.nodup_cons.mp hs.nodup).2 (by simp) hxf
  simp only [List.mem_append, List.mem_cons, not_or] at hl
  refine ⟨⟨?_, ?_, ?_, ?_⟩, ?_⟩
  · exact hs.holes.insert hx hp
      (fun i hi => hnode i (ne_of_mem_of_not_mem hi hl.1) (ne_of_mem_of_not_mem hi hxa))
      (fun i hi => hnode i (ne_of_mem_of_not_mem hi hl.2.2) (ne_of_mem_of_not_mem hi hxb))
  · exact hs.pool.frame fun i hi =>
      hnode i (ne_of_mem_of_not_mem hi hf) (ne_of_mem_of_not_mem hi hxf)
  · exact (hperm.append_right f).nodup_iff.mpr hs.nodup
  · intro i
    exact (hperm.append_right f).mem_iff.trans (hs.all i)
  · simp only [List.map_append, List.map_cons, hs.range, funext hrange]

theorem link_spec {r : Range} (hs : Popped h l f p r) (hlen : l.length ≤ h.max) :
    ∃ h' l', h.link p = .ok h' ∧ Shape h' l' f ∧
      l'.map h'.range = insertRange r (l.map h.range) ∧ h'.max = h.max := by
  have hr : (h.node p).addr = r.addr := congrArg Range.addr hs.range
  cases l with
  | nil =>
    have hhead : h.phead = none := hs.holes.nil_eq
    obtain ⟨h₁, h₂, h₃⟩ := push_spec hs
    exact ⟨h.push p, [p], by simp [HoleList.link, hhead], h₁, h₂, h₃⟩
  | cons q l =>
    have hhead : h.phead = some q := hs.holes.head
    by_cases hlow : r.addr < (h.node q).addr
    · obtain ⟨h₁, h₂, h₃⟩ := push_spec hs
      refine ⟨h.push p, p :: q :: l, by simp [HoleList.link, hhead, hr, hlow], h₁, ?_, h₃⟩
      rw [h₂, List.map_cons]
      simp [insertRange, HoleList.range, hlow]
    · -- behind the descriptor `x` where the walk stops
      rw [List.length_cons] at hlen
      obtain ⟨a, x, b, c, hx, rfl, hax, hbefore, hafter⟩ :=
        seek_spec r.addr (hhead ▸ hs.holes) hlen
      have hlink : h.link p = .ok ((h.upd p fun y => { y with pnext := h.next x }).upd x
          fun y => { y with pnext := some p }) := by
        simp [HoleList.link, hhead, hr, hlow, hx]
      have hsplit : q :: (c ++ b) = a ++ x :: b := by
        rw [← List.cons_append, hax, List.append_assoc, List.singleton_append]
      have hs' : Popped h (a ++ x :: b) f p r := hsplit ▸ hs
      obtain ⟨hshape, hrange⟩ := hs'.behind
      refine ⟨_, _, hlink, hshape, ?_, rfl⟩
      have hins : insertTail r ((c ++ b).map h.range) = c.map h.range ++ r :: b.map h.range := by
        rw [List.map_append]
        refine insertTail_append ?_ ?_
        · intro y hy
          obtain ⟨i, hi, rfl⟩ := List.mem_map.mp hy
          exact hbefore i hi
        · intro y hy
          rw [List.head?_map] at hy
          obtain ⟨i, hi, rfl⟩ := Option.map_eq_some_iff.mp hy
          exact hafter i hi
      have hlow' : ¬ r.addr < (h.range q).addr := hlow
      rw [hrange, List.map_cons, insertRange, if_neg hlow', hins, ← List.cons_append,
        ← List.map_cons, hax]
      simp

theorem addSorted_spec (addr size : Nat) (hs : Shape h l f) :
    f = [] ∧ h.addSorted addr size = .error .panic ∨
    ∃ h' l' p f', f = p :: f' ∧ h.addSorted addr size = .ok h' ∧ Shape h' l' f' ∧
      l'.map h'.range = insertRange ⟨addr, size⟩ (l.map h.range) ∧ h'.max = h.max := by
  rcases pop_spec addr size hs with ⟨hf, hpop⟩ | ⟨p, f', h₁, hf, hpop, hs₁, hr₁, hm₁⟩
  · exact .inl ⟨hf, by rw [HoleList.addSorted, hpop, error_bind]⟩
  · obtain ⟨h₂, l₂, hlink, hs₂, hr₂, hm₂⟩ := link_spec hs₁ (hm₁ ▸ hs.length_le)
    refine .inr ⟨h₂, l₂, p, f', hf, ?_, hs₂, by rw [hr₂, hr₁], hm₂.trans hm₁⟩
    rw [HoleList.addSorted, hpop, ok_bind]
    exact hlink

theorem addFront_spec (addr size : Nat) (hs : Shape h l f) :
    f = [] ∧ h.addFront addr size = .error .panic ∨
    ∃ h' l' p f', f = p :: f' ∧ h.addFront addr size = .ok h' ∧ Shape h' l' f' ∧
      l'.map h'.range = ⟨addr, size⟩ :: l.map h.range ∧ h'.max = h.max := by
  rcases pop_spec addr size hs with ⟨hf, hpop⟩ | ⟨p, f', h₁, hf, hpop, hs₁, hr₁, hm₁⟩
  · exact .inl ⟨hf, by rw [HoleList.addFront, hpop, error_bind]⟩
  · obtain ⟨hs₂, hr₂, hm₂⟩ := push_spec hs₁
    refine .inr ⟨h₁.push p, _, p, f', hf, ?_, hs₂, by rw [hr₂, hr₁], hm₂.trans hm₁⟩
    rw [HoleList.addFront, hpop, ok_bind]

/-! ## Taking from a hole -/

structure Unlinked (h : HoleList) (l f : List Nat) (p : Nat) : Prop where
  holes : Chain h.next h.phead l
  pool : Chain h.next h.pfree f
  nodup : (l ++ p :: f).Nodup
  all : ∀ i, i ∈ l ++ p :: f ↔ i < h.max

/-- Bypassing `p`: its predecessor `x` is linked to its successor. -/
theorem Shape.bypass {a b : List Nat} {x : Nat} (hs : Shape h (a ++ x :: p :: b) f) :
    Unlinked (h.upd x fun y => { y with pnext := h.next p }) (a ++ x :: b) f p := by
  have hperm : (a ++ x :: b ++ p :: f).Perm (a ++ x :: p :: b ++ f) := by
    have h₁ : (a ++ x :: b ++ p :: f).Perm (p :: (a ++ x :: b ++ f)) := List.perm_middle
    have h₂ : (a ++ x :: p :: b ++ f).Perm (p :: (a ++ x :: b ++ f)) := by
      have hmid : (a ++ [x] ++ p :: (b ++ f)).Perm (p :: (a ++ [x] ++ (b ++ f))) :=
        List.perm_middle
      simpa using hmid
    exact h₁.trans h₂.symm
  have hnd := Chain.nodup hs.holes
  have hxa : x ∉ a := fun hxa => List.disjoint_of_nodup_append hnd hxa List.mem_cons_self
  have hxb : x ∉ b := fun hxb => (List.nodup_cons.mp (List.nodup_append.mp hnd).2.1).1
    (List.mem_cons_of_mem p hxb)
  have hxf : x ∉ f := fun hxf => List.disjoint_of_nodup_append hs.nodup (by simp) hxf
  have hagree : ∀ m, x ∉ m →
      AgreeOn m h (h.upd x fun y => { y with pnext := h.next p }) := fun m hm =>
    agreeOn_of_ne (fun i hi => h.upd_ne hi _) hm
  refine ⟨hs.holes.unlink (by simp [HoleList.next]) (hagree a hxa).next (hagree b hxb).next,
    hs.pool.frame (hagree f hxf).next, hperm.nodup_iff.mpr hs.nodup, fun i => ?_⟩
  exact hperm.mem_iff.trans (hs.all i)

/-- All three unlink branches take `p` off the list and move no range. -/
theorem unlink_spec {a b : List Nat} (hs : Shape h (a ++ p :: b) f) :
    ∃ h', h.unlink p = .ok h' ∧ Unlinked h' (a ++ b) f p ∧ (∀ i, h'.range i = h.range i) ∧
      h'.max = h.max := by
  rcases List.eq_nil_or_concat a with rfl | ⟨a, x, rfl⟩
  · have hhead : h.phead = some p := hs.holes.head
    have hperm : (b ++ p :: f).Perm (p :: (b ++ f)) := List.perm_middle
    refine ⟨{ h with phead := h.next p }, by simp [HoleList.unlink, hhead],
      ⟨hs.holes.tail, hs.pool, hperm.nodup_iff.mpr hs.nodup, fun i => ?_⟩, fun _ => rfl, rfl⟩
    exact hperm.mem_iff.trans (hs.all i)
  · simp only [List.concat_eq_append, List.append_assoc, List.singleton_append] at hs ⊢
    refine ⟨h.upd x fun y => { y with pnext := h.next p }, ?_, hs.bypass,
      upd_pnext_range _, rfl⟩
    have hlen : (a ++ x :: p :: b).length ≤ h.max := hs.length_le
    have hnd := Chain.nodup hs.holes
    have hnext : h.next x = some p := hs.holes.split_at.2.head
    cases a with
    | nil =>
      have hhead : h.phead = some x := hs.holes.head
      have hxp : x ≠ p := by
        rintro rfl
        simp at hnd
      simp [HoleList.unlink, hhead, hxp, hnext]
    | cons y a =>
      have hhead : h.phead = some y := hs.holes.head
      have hyp : y ≠ p := by
        rintro rfl
        simp at hnd
      have hyn : h.next y ≠ some p := by
        intro hy
        have htail := hs.holes.tail
        rw [hy] at htail
        cases a with
        | nil =>
          have hx := htail.head
          cases hx
          simp at hnd
        | cons z a =>
          have hz := htail.head
          cases hz
          simp at hnd
      have hbefore : h.before p h.max y = .ok x :=
        before_spec (hhead ▸ hs.holes) (by simp at hlen ⊢; omega)
      simp [HoleList.unlink, hhead, hyp, hyn, hbefore]

theorem Unlinked.drop (hs : Unlinked h l f p) : Shape (h.drop p) l (p :: f) := by
  have hp := (List.nodup_cons.mp (List.perm_middle.nodup_iff.mp hs.nodup)).1
  simp only [List.mem_append, not_or] at hp
  have hagree : ∀ m, p ∉ m → AgreeOn m h (h.drop p) := fun m hm =>
    agreeOn_of_ne (fun i hi => h.drop_ne hi) hm
  refine ⟨hs.holes.frame (hagree l hp.1).next, .cons ?_, hs.nodup, hs.all⟩
  have hn : (h.drop p).next p = h.pfree := by simp [HoleList.drop, HoleList.next]
  rw [hn]
  exact hs.pool.frame (hagree f hp.2).next

theorem Shape.upd {g : Node → Node} (hs : Shape h l f)
    (hg : (g (h.node p)).pnext = (h.node p).pnext) : Shape (h.upd p g) l f := by
  have hnext : ∀ i, (h.upd p g).next i = h.next i := by
    intro i
    simp only [HoleList.next, HoleList.upd_node]
    split
    next hi => rw [hi, hg]
    next => rfl
  exact ⟨hs.holes.frame fun i _ => hnext i, hs.pool.frame fun i _ => hnext i, hs.nodup, hs.all⟩

theorem upd_map_range {g : Node → Node} (hp : p ∉ l) :
    l.map (h.upd p g).range = l.map h.range :=
  (agreeOn_of_ne (fun _ hi => h.upd_ne hi g) hp).range

/-- **Taking** `size` bytes from hole `p`. -/
theorem take_spec (least size : Nat) {a b : List Nat} (hs : Shape h (a ++ p :: b) f) :
    ∃ h' l' f', h.take least p size = .ok ((h.node p).addr, h') ∧ Shape h' l' f' ∧
      l'.map h'.range = a.map h.range ++
        (if (h.node p).size - size ≤ least then b.map h.range
          else ⟨(h.node p).addr + size, (h.node p).size - size⟩ :: b.map h.range) ∧
      h'.max = h.max := by
  have hnd := Chain.nodup hs.holes
  have hpa : p ∉ a := fun hpa => List.disjoint_of_nodup_append hnd hpa List.mem_cons_self
  have hpb : p ∉ b := (List.nodup_cons.mp (List.nodup_append.mp hnd).2.1).1
  have hs₁ := hs.upd (p := p) (g := fun x => { x with size := x.size - size }) rfl
  by_cases hless : (h.node p).size - size ≤ least
  · obtain ⟨h₂, hun, hs₂, hr₂, hm₂⟩ := unlink_spec hs₁
    have haddr : (h₂.node p).addr = (h.node p).addr := by
      have := congrArg Range.addr (hr₂ p)
      simpa [HoleList.range] using this
    have hmap : ∀ m : List Nat, p ∉ m → m.map h₂.range = m.map h.range := fun m hm =>
      (List.map_congr_left fun i _ => hr₂ i).trans (upd_map_range hm)
    refine ⟨(h₂.drop p).upd p fun x => { x with addr := x.addr + size }, a ++ b, p :: f, ?_,
      hs₂.drop.upd rfl, ?_, hm₂⟩
    · simp [HoleList.take, hless, hun, HoleList.drop, haddr]
    · have hpab : p ∉ a ++ b := by simp [hpa, hpb]
      rw [if_pos hless, upd_map_range hpab, (agreeOn_of_ne (fun _ hi => h₂.drop_ne hi) hpab).range,
        hmap _ hpab, List.map_append]
  · refine ⟨_, a ++ p :: b, f, ?_, 
      hs₁.upd (p := p) (g := fun x => { x with addr := x.addr + size }) rfl, ?_, rfl⟩
    · simp [HoleList.take, hless]
    · rw [if_neg hless, List.map_append, List.map_cons, upd_map_range hpa, upd_map_range hpb,
        upd_map_range hpa, upd_map_range hpb]
      simp [HoleList.range]

/-- **First fit.** The walk finds a hole exactly when `cutFirst` does, and
taking from it is `cutFirst`. -/
theorem firstFit_take_spec (least size : Nat) (hs : Shape h l f) :
    (h.firstFit size h.max h.phead = .ok none ∧ cutFirst least size (l.map h.range) = none) ∨
    ∃ p a h' l' f', h.firstFit size h.max h.phead = .ok (some p) ∧
      h.take least p size = .ok (a, h') ∧ Shape h' l' f' ∧
      cutFirst least size (l.map h.range) = some (a, l'.map h'.range) ∧ h'.max = h.max := by
  rw [firstFit_eq hs.holes hs.length_le]
  cases hfind : l.find? fun i => decide (size ≤ (h.node i).size) with
  | none =>
    refine .inl ⟨rfl, cutFirst_eq_none.mpr fun q hq => ?_⟩
    obtain ⟨i, hi, rfl⟩ := List.mem_map.mp hq
    simpa [HoleList.range] using List.find?_eq_none.mp hfind i hi
  | some p =>
    obtain ⟨hp, a, b, rfl, ha⟩ := List.find?_eq_some_iff_append.mp hfind
    obtain ⟨h', l', f', ht, hs', hr', hm'⟩ := take_spec least size hs
    refine .inr ⟨p, _, h', l', f', rfl, ht, hs', ?_, hm'⟩
    rw [hr', List.map_append, List.map_cons]
    refine cutFirst_append ?_ (by simpa [HoleList.range] using hp)
    intro x hx
    obtain ⟨i, hi, rfl⟩ := List.mem_map.mp hx
    simpa [HoleList.range] using ha i hi

/-! ## The interface

What a returning call did, on the represented ranges. -/

variable {L : List Range} {h' : HoleList}

theorem reps_init {n : Nat} (hn : 0 < n) : (HoleList.init n).Reps [] := by
  refine ⟨[], List.range n, ⟨.nil none, ?_, by simpa using List.nodup_range, by simp [HoleList.init]⟩,
    rfl⟩
  -- the pool from descriptor `k` on
  suffices ∀ k < n, Chain (HoleList.init n).next (some k) (List.range' k (n - k)) by
    simpa [HoleList.init, List.range_eq_range'] using this 0 hn
  intro k hk
  induction hd : n - k generalizing k with
  | zero => omega
  | succ d ih =>
    rw [List.range'_succ]
    refine .cons ?_
    by_cases hlast : k + 1 < n
    · have hnext : (HoleList.init n).next k = some (k + 1) := by
        simp [HoleList.init, HoleList.next, hlast]
      rw [hnext]
      exact ih (k + 1) hlast (by omega)
    · have hnext : (HoleList.init n).next k = none := by
        simp [HoleList.init, HoleList.next, hlast]
      obtain rfl : d = 0 := by omega
      rw [hnext]
      exact .nil none

theorem HoleList.Reps.unique {L' : List Range} (hr : h.Reps L) (hr' : h.Reps L') : L = L' := by
  obtain ⟨l, f, hs, rfl⟩ := hr
  obtain ⟨l', f', hs', rfl⟩ := hr'
  rw [Chain.unique hs.holes hs'.holes]

theorem HoleList.Reps.addSorted (hr : h.Reps L) {addr size : Nat}
    (he : h.addSorted addr size = .ok h') : h'.Reps (insertRange ⟨addr, size⟩ L) := by
  obtain ⟨l, f, hs, rfl⟩ := hr
  rcases addSorted_spec addr size hs with ⟨_, herr⟩ | ⟨h₁, l₁, p, f₁, _, hok, hs₁, hr₁, _⟩
  · rw [herr] at he
    cases he
  · rw [hok] at he
    cases he
    exact ⟨l₁, f₁, hs₁, hr₁⟩

theorem HoleList.Reps.addFront (hr : h.Reps L) {addr size : Nat}
    (he : h.addFront addr size = .ok h') : h'.Reps (⟨addr, size⟩ :: L) := by
  obtain ⟨l, f, hs, rfl⟩ := hr
  rcases addFront_spec addr size hs with ⟨_, herr⟩ | ⟨h₁, l₁, p, f₁, _, hok, hs₁, hr₁, _⟩
  · rw [herr] at he
    cases he
  · rw [hok] at he
    cases he
    exact ⟨l₁, f₁, hs₁, hr₁⟩

theorem HoleList.Reps.firstFit_none (hr : h.Reps L) {size : Nat}
    (he : h.firstFit size h.max h.phead = .ok none) : ∀ q ∈ L, q.size < size := by
  obtain ⟨l, f, hs, rfl⟩ := hr
  rcases firstFit_take_spec 0 size hs with ⟨_, hc⟩ | ⟨p, a, h₁, l₁, f₁, hf, _⟩
  · exact cutFirst_eq_none.mp hc
  · rw [hf] at he
    cases he

theorem HoleList.Reps.take (hr : h.Reps L) {least size p a : Nat}
    (hf : h.firstFit size h.max h.phead = .ok (some p))
    (he : h.take least p size = .ok (a, h')) :
    ∃ L', cutFirst least size L = some (a, L') ∧ h'.Reps L' := by
  obtain ⟨l, f, hs, rfl⟩ := hr
  rcases firstFit_take_spec least size hs with ⟨hnone, _⟩ | ⟨q, b, h₁, l₁, f₁, hsome, ht, hs₁, hc, _⟩
  · rw [hnone] at hf
    cases hf
  · rw [hsome] at hf
    cases hf
    rw [ht] at he
    cases he
    exact ⟨_, hc, l₁, f₁, hs₁, rfl⟩

/-! ## What a list of ranges is enough for -/

theorem Shape.length_add (hs : Shape h l f) : l.length + f.length = h.max := by
  have hperm : (l ++ f).Perm (List.range h.max) :=
    (List.perm_ext_iff_of_nodup hs.nodup List.nodup_range).mpr fun i => by
      rw [hs.all, List.mem_range]
  rw [← List.length_append, hperm.length_eq, List.length_range]

theorem HoleList.Reps.length_le (hr : h.Reps L) : L.length ≤ h.max := by
  obtain ⟨l, f, hs, rfl⟩ := hr
  rw [List.length_map]
  exact hs.length_le

/-- A descriptor is left exactly while fewer than `max` ranges are held. -/
theorem HoleList.Reps.pfree_ne_none (hr : h.Reps L) : h.pfree ≠ none ↔ L.length < h.max := by
  obtain ⟨l, f, hs, rfl⟩ := hr
  have hlen := hs.length_add
  rw [List.length_map]
  cases f with
  | nil =>
    have hnil := hs.pool.nil_eq
    simp only [List.length_nil] at hlen
    simp only [hnil, ne_eq, not_true, false_iff]
    omega
  | cons p f =>
    have hhead := hs.pool.head
    simp only [List.length_cons] at hlen
    simp only [hhead, ne_eq, reduceCtorEq, not_false_iff, true_iff]
    omega

theorem HoleList.Reps.addSorted_of_room (hr : h.Reps L) (hroom : h.pfree ≠ none)
    (addr size : Nat) :
    ∃ h', h.addSorted addr size = .ok h' ∧ h'.Reps (insertRange ⟨addr, size⟩ L) ∧
      h'.max = h.max := by
  obtain ⟨l, f, hs, rfl⟩ := hr
  rcases addSorted_spec addr size hs with ⟨rfl, -⟩ | ⟨h₁, l₁, p, f₁, -, hok, hs₁, hr₁, hmax⟩
  · exact absurd hs.pool.nil_eq hroom
  · exact ⟨h₁, hok, ⟨l₁, f₁, hs₁, hr₁⟩, hmax⟩

theorem HoleList.addSorted_of_full (hfull : h.pfree = none) (addr size : Nat) :
    h.addSorted addr size = .error .panic := by
  rw [HoleList.addSorted, HoleList.pop, hfull]
  rfl

theorem HoleList.Reps.firstFit_of_none (hr : h.Reps L) {size : Nat}
    (hno : ∀ q ∈ L, q.size < size) : h.firstFit size h.max h.phead = .ok none := by
  obtain ⟨l, f, hs, rfl⟩ := hr
  rcases firstFit_take_spec 0 size hs with ⟨hnone, -⟩ | ⟨p, a, h₁, l₁, f₁, -, -, -, hc, -⟩
  · exact hnone
  · rw [cutFirst_eq_none.mpr hno] at hc
    cases hc

theorem HoleList.Reps.firstFit_mem (hr : h.Reps L) {size p : Nat}
    (hf : h.firstFit size h.max h.phead = .ok (some p)) : h.range p ∈ L := by
  obtain ⟨l, f, hs, rfl⟩ := hr
  rw [firstFit_eq hs.holes hs.length_le] at hf
  exact List.mem_map_of_mem (List.mem_of_find?_eq_some (Except.ok.inj hf))

theorem HoleList.take_zero {p : Nat} (hpos : 0 < (h.node p).size) :
    h.take 0 p 0 = .ok ((h.node p).addr, h) := by
  have hsame (f : Node → Node) (hf : f (h.node p) = h.node p) : h.upd p f = h := by
    rw [HoleList.upd, hf, Function.update_eq_self]
  rw [HoleList.take]
  dsimp only
  rw [hsame (fun x => { x with size := x.size - 0 }) rfl, if_neg (Nat.not_le.mpr hpos), ok_bind,
    hsame (fun x => { x with addr := x.addr + 0 }) rfl]

/-- A hole is large enough: the search finds one, and it can be cut. -/
theorem HoleList.Reps.firstFit_of_fits (hr : h.Reps L) {size : Nat} (least : Nat)
    (hex : ∃ q ∈ L, size ≤ q.size) :
    ∃ p a h' L', h.firstFit size h.max h.phead = .ok (some p) ∧
      h.take least p size = .ok (a, h') ∧ cutFirst least size L = some (a, L') ∧ h'.Reps L' ∧
      h'.max = h.max := by
  obtain ⟨l, f, hs, rfl⟩ := hr
  rcases firstFit_take_spec least size hs with ⟨-, hc⟩ | ⟨p, a, h₁, l₁, f₁, hsome, ht, hs₁, hc, hmax⟩
  · obtain ⟨q, hq, hle⟩ := hex
    have := cutFirst_eq_none.mp hc q hq
    omega
  · exact ⟨p, a, h₁, _, hsome, ht, hc, ⟨l₁, f₁, hs₁, rfl⟩, hmax⟩

end Yaos.Holes
