import Yaos.Timer.Model

/-!
# The two lists of timers

`Lists s held l f`: the timers are `l`, the free nodes `f`, the nodes
`held` are on neither list, and no node is in two places. Each piece of
`set_timeout` and `run_timer_softirq` is an operation on these lists; none
changes what a node says, except for the node it owns.
-/

namespace Yaos.Timer

open Yaos.Lib

variable {F : Type} {s t : State F} {held l f : List Nat} {p : Nat}

structure Lists (s : State F) (held l f : List Nat) : Prop where
  timer : Chain s.next s.ptimer l
  pool : Chain s.next s.pfree f
  nodup : (held ++ (l ++ f)).Nodup

def State.regs (s : State F) (l : List Nat) : List (Reg F) := l.map fun i => (s.node i).reg

def Reg.Before (a b : Reg F) : Prop := a.deadline ≤ b.deadline

structure Relinked (s t : State F) : Prop where
  reg : ∀ i, (t.node i).reg = (s.node i).reg
  msecCount : t.msecCount = s.msecCount
  registered : t.registered = s.registered
  invoked : t.invoked = s.invoked

/-! ## Field lemmas -/

theorem State.upd_node (s : State F) (i j : Nat) (g : Node F → Node F) :
    (s.upd i g).node j = if j = i then g (s.node j) else s.node j := by
  by_cases hj : j = i
  · subst hj
    simp [State.upd]
  · simp [State.upd, hj]

theorem State.upd_next_self (s : State F) (i : Nat) (q : Option Nat) :
    (s.upd i fun x => { x with pnext := q }).next i = q := by
  rw [State.next, State.upd_node, if_pos rfl]

theorem State.upd_next_ne (s : State F) {i j : Nat} (hj : j ≠ i) (g : Node F → Node F) :
    (s.upd i g).next j = s.next j := by
  rw [State.next, State.upd_node, if_neg hj, State.next]

theorem State.upd_pnext_reg (s : State F) (i j : Nat) (q : Option Nat) :
    ((s.upd i fun x => { x with pnext := q }).node j).reg = (s.node j).reg := by
  rw [State.upd_node]
  split <;> rfl

theorem Relinked.regs (h : Relinked s t) (l : List Nat) : t.regs l = s.regs l :=
  List.map_congr_left fun i _ => h.reg i

theorem Relinked.trans {u : State F} (h₁ : Relinked s t) (h₂ : Relinked t u) : Relinked s u where
  reg i := (h₂.reg i).trans (h₁.reg i)
  msecCount := h₂.msecCount.trans h₁.msecCount
  registered := h₂.registered.trans h₁.registered
  invoked := h₂.invoked.trans h₁.invoked

theorem relinked_upd (s : State F) (i : Nat) (q : Option Nat) :
    Relinked s (s.upd i fun x => { x with pnext := q }) :=
  ⟨fun j => s.upd_pnext_reg i j q, rfl, rfl, rfl⟩

/-! ## `set_timeout` -/

theorem Lists.pop (h : Lists s held l (p :: f)) : Lists (s.pop p) (p :: held) l f where
  timer := h.timer
  pool := h.pool.tail
  nodup := by
    refine (List.Perm.nodup_iff ?_).mp h.nodup
    rw [← List.append_assoc, ← List.append_assoc]
    exact List.perm_middle

theorem Lists.hold (h : Lists s held l f) (hp : p ∉ held ++ (l ++ f)) :
    Lists s (p :: held) l f :=
  ⟨h.timer, h.pool, List.nodup_cons.mpr ⟨hp, h.nodup⟩⟩

theorem Lists.held_notMem (h : Lists s (p :: held) l f) : p ∉ l ∧ p ∉ f := by
  have hp : p ∉ held ++ (l ++ f) := (List.nodup_cons.mp h.nodup).1
  simp only [List.mem_append, not_or] at hp
  exact hp.2

theorem Lists.write (h : Lists s (p :: held) l f) (g : Node F → Node F) :
    Lists (s.upd p g) (p :: held) l f := by
  obtain ⟨hl, hf⟩ := h.held_notMem
  refine ⟨h.timer.frame fun i hi => ?_, h.pool.frame fun i hi => ?_, h.nodup⟩
  · exact s.upd_next_ne (ne_of_mem_of_not_mem hi hl) g
  · exact s.upd_next_ne (ne_of_mem_of_not_mem hi hf) g

theorem Lists.arm (h : Lists s (p :: held) l f) (d : Nat) (g : F) :
    Lists (s.arm p d g) (p :: held) l f :=
  let h' := h.write fun x => { x with deadline := d, callback := g, id := s.registered.length }
  ⟨h'.timer, h'.pool, h'.nodup⟩

theorem arm_node (s : State F) (p d : Nat) (g : F) (i : Nat) : (s.arm p d g).node i =
    if i = p then ⟨(s.node i).pnext, d, g, s.registered.length⟩ else s.node i :=
  s.upd_node p i fun x => { x with deadline := d, callback := g, id := s.registered.length }

theorem arm_next (s : State F) (p d : Nat) (g : F) : (s.arm p d g).next = s.next := by
  funext i
  rw [State.next, arm_node]
  split <;> rfl

theorem arm_reg_self (s : State F) (p d : Nat) (g : F) :
    ((s.arm p d g).node p).reg = ⟨s.registered.length, d, g⟩ := by
  rw [arm_node, if_pos rfl]
  rfl

theorem arm_regs (d : Nat) (g : F) (hp : p ∉ l) : (s.arm p d g).regs l = s.regs l := by
  refine List.map_congr_left fun i hi => ?_
  rw [arm_node, if_neg (ne_of_mem_of_not_mem hi hp)]

/-- The walk of `set_timeout` from `q` stops behind the earlier timers. -/
theorem seek_spec {d k q x : Nat} (hc : Chain s.next (some q) (q :: l))
    (h : s.seek d k q = .ok x) :
    ∃ a b c, l = c ++ b ∧ q :: c = a ++ [x] ∧ (∀ i ∈ c, (s.node i).deadline < d) ∧
      ∀ i ∈ b.head?, ¬ (s.node i).deadline < d := by
  induction k generalizing q l with
  | zero => cases h
  | succ k ih =>
    rw [State.seek] at h
    cases l with
    | nil =>
      have hq : s.next q = none := hc.tail.nil_eq
      rw [hq] at h
      cases h
      exact ⟨[], [], [], rfl, rfl, by simp, by simp⟩
    | cons r l =>
      have hq : s.next q = some r := hc.tail.head
      rw [hq] at h
      dsimp only at h
      split at h
      next hr =>
        obtain ⟨a, b, c, hl, heq, hlow, hhigh⟩ := ih (hq ▸ hc.tail) h
        refine ⟨q :: a, b, r :: c, by simp [hl], by simp [heq], ?_, hhigh⟩
        intro i hi
        rcases List.mem_cons.mp hi with rfl | hi
        · exact hr
        · exact hlow i hi
      next hr =>
        cases h
        exact ⟨[], r :: l, [], rfl, rfl, by simp, by simpa using hr⟩

theorem seek_returns {d k q : Nat} (hc : Chain s.next (some q) (q :: l)) (hk : l.length < k) :
    ∃ x, s.seek d k q = .ok x := by
  induction k generalizing q l with
  | zero => omega
  | succ k ih =>
    rw [State.seek]
    cases l with
    | nil =>
      have hq : s.next q = none := hc.tail.nil_eq
      exact ⟨q, by rw [hq]⟩
    | cons r l =>
      have hq : s.next q = some r := hc.tail.head
      rw [hq]
      dsimp only
      split
      · exact ih (hq ▸ hc.tail) (by simpa using hk)
      · exact ⟨q, rfl⟩

/-- Timers in order stay in order with a new one between the earlier and the
later ones. -/
theorem sorted_insert {A B : List (Reg F)} {r : Reg F} (h : (A ++ B).Pairwise Reg.Before)
    (hA : ∀ a ∈ A, a.Before r) (hB : ∀ b ∈ B, r.Before b) : (A ++ r :: B).Pairwise Reg.Before := by
  obtain ⟨h₁, h₂, h₁₂⟩ := List.pairwise_append.mp h
  refine List.pairwise_append.mpr ⟨h₁, List.pairwise_cons.mpr ⟨hB, h₂⟩, fun a ha b hb => ?_⟩
  rcases List.mem_cons.mp hb with rfl | hb
  · exact hA a ha
  · exact h₁₂ a ha b hb

theorem not_before_of_head {d : Nat} {b : List Nat} (h : (s.regs b).Pairwise Reg.Before)
    (hhead : ∀ i ∈ b.head?, ¬ (s.node i).deadline < d) : ∀ r ∈ s.regs b, d ≤ r.deadline := by
  cases b with
  | nil => simp [State.regs]
  | cons i b =>
    have hi : d ≤ (s.node i).deadline := Nat.le_of_not_lt (hhead i rfl)
    intro r hr
    rcases List.mem_cons.mp hr with rfl | hr
    · exact hi
    · exact Nat.le_trans hi ((List.pairwise_cons.mp h).1 r hr)

/-- Where `set_timeout` links a node with deadline `d`: behind `a`, in front
of `b`. -/
structure Linked (s t : State F) (p d : Nat) (held a b f : List Nat) : Prop where
  lists : Lists t held (a ++ p :: b) f
  relinked : Relinked s t
  run : t.run = s.run
  low : ∀ i ∈ a, (s.node i).deadline ≤ d
  high : ∀ i ∈ b.head?, ¬ (s.node i).deadline < d

theorem Lists.placed {a b : List Nat} (h : Lists s (p :: held) (a ++ b) f) :
    (held ++ (a ++ p :: b ++ f)).Nodup := by
  refine (List.Perm.nodup_iff ?_).mp h.nodup
  simp only [List.append_assoc, List.cons_append]
  rw [← List.append_assoc held a (b ++ f), ← List.append_assoc held a (p :: (b ++ f))]
  exact List.perm_middle.symm

theorem front_linked {d : Nat} (h : Lists s (p :: held) l f)
    (hhigh : ∀ i ∈ l.head?, ¬ (s.node i).deadline < d) :
    Linked s (s.front p) p d held [] l f := by
  have hw := h.write fun x => { x with pnext := s.ptimer }
  refine ⟨⟨.cons ?_, hw.pool, h.placed⟩, ⟨fun j => s.upd_pnext_reg p j s.ptimer, rfl, rfl, rfl⟩,
    rfl, by simp, hhigh⟩
  have hself : (s.front p).next p = s.ptimer := s.upd_next_self p s.ptimer
  rw [hself]
  exact hw.timer

theorem behind_linked {a b : List Nat} {x d : Nat} (h : Lists s (p :: held) (a ++ x :: b) f)
    (hlow : ∀ i ∈ a ++ [x], (s.node i).deadline ≤ d)
    (hhigh : ∀ i ∈ b.head?, ¬ (s.node i).deadline < d) :
    Linked s (s.behind x p) p d held (a ++ [x]) b f := by
  have hsplit : a ++ x :: b = a ++ [x] ++ b := by simp
  obtain ⟨hl, hf⟩ := h.held_notMem
  have hnodup : (a ++ x :: b ++ f).Nodup := by
    have hall : (held ++ (a ++ x :: b ++ f)).Nodup := (List.nodup_cons.mp h.nodup).2
    exact (List.nodup_append.mp hall).2.1
  have hx : x ≠ p := fun heq => hl (by simp [heq])
  have hxf : x ∉ f := fun hxf => (List.disjoint_of_nodup_append hnodup) (by simp) hxf
  have hxab : x ∉ a ∧ x ∉ b := by
    have hnd := (List.nodup_append.mp hnodup).1
    have hnd' := List.nodup_cons.mp (List.perm_middle.nodup_iff.mp hnd)
    simpa [not_or] using hnd'.1
  have hother : ∀ i, i ≠ x → i ≠ p → (s.behind x p).next i = s.next i := by
    intro i hix hip
    rw [State.behind, State.upd_next_ne _ hix, State.upd_next_ne _ hip]
  have hnx : (s.behind x p).next x = some p := State.upd_next_self _ x (some p)
  have hnp : (s.behind x p).next p = s.next x := by
    rw [State.behind, State.upd_next_ne _ hx.symm, State.upd_next_self]
  refine ⟨⟨?_, h.pool.frame fun i hi => ?_, ?_⟩,
    (relinked_upd s p _).trans (relinked_upd _ x _), rfl, hlow, hhigh⟩
  · have hins := h.timer.insert hnx hnp
      (fun i hi => hother i (ne_of_mem_of_not_mem hi hxab.1)
        (ne_of_mem_of_not_mem (List.mem_append_left _ hi) hl))
      (fun i hi => hother i (ne_of_mem_of_not_mem hi hxab.2)
        (ne_of_mem_of_not_mem (List.mem_append_right _ (List.mem_cons_of_mem x hi)) hl))
    rw [List.append_assoc]
    exact hins
  · exact hother i (ne_of_mem_of_not_mem hi hxf) (ne_of_mem_of_not_mem hi hf)
  · rw [hsplit] at h
    exact h.placed

/-- **`set_timeout`** with interrupts disabled. -/
theorem link_spec {fuel d : Nat} (h : Lists s (p :: held) l f)
    (hlink : s.link fuel p d = .ok t) : ∃ a b, l = a ++ b ∧ Linked s t p d held a b f := by
  rw [State.link] at hlink
  cases l with
  | nil =>
    rw [h.timer.nil_eq] at hlink
    cases hlink
    exact ⟨[], [], rfl, front_linked h (by simp)⟩
  | cons q l =>
    have hq : s.ptimer = some q := h.timer.head
    rw [hq] at hlink
    dsimp only at hlink
    split at hlink
    next hlt =>
      cases hlink
      refine ⟨[], q :: l, rfl, front_linked h fun i hi => ?_⟩
      cases hi
      exact Nat.not_lt_of_lt hlt
    next hge =>
      obtain ⟨x, hseek, hlink⟩ := bind_eq_ok.mp hlink
      cases hlink
      have hc : Chain s.next (some q) (q :: l) := hq ▸ h.timer
      obtain ⟨a, b, c, rfl, heq, hlow, hhigh⟩ := seek_spec hc hseek
      have hsplit : q :: (c ++ b) = a ++ x :: b := by
        rw [← List.cons_append, heq, List.append_assoc]
        rfl
      rw [hsplit] at h
      refine ⟨a ++ [x], b, by simp [hsplit], behind_linked h (fun i hi => ?_) hhigh⟩
      rw [← heq] at hi
      rcases List.mem_cons.mp hi with rfl | hi
      · exact Nat.le_of_not_lt hge
      · exact Nat.le_of_lt (hlow i hi)

theorem Linked.sorted {a b : List Nat} {d : Nat} (h : Linked s t p d held a b f)
    (hd : (s.node p).deadline = d) (hsort : (s.regs (a ++ b)).Pairwise Reg.Before) :
    (t.regs (a ++ p :: b)).Pairwise Reg.Before := by
  subst hd
  rw [h.relinked.regs]
  have hcat : s.regs (a ++ b) = s.regs a ++ s.regs b := by simp [State.regs]
  have hnew : s.regs (a ++ p :: b) = s.regs a ++ (s.node p).reg :: s.regs b := by
    simp [State.regs]
  rw [hcat] at hsort
  rw [hnew]
  refine sorted_insert hsort (fun r hr => ?_) ?_
  · obtain ⟨i, hi, rfl⟩ := List.mem_map.mp hr
    exact h.low i hi
  · exact not_before_of_head (List.pairwise_append.mp hsort).2.1 h.high

/-- `set_timeout` fails without memory; otherwise it inserts the head of the
free list or, when that is empty, the node of `yaos_malloc`. -/
theorem setTimeout_cases {fuel msec : Nat} {code : Int} {g : F} {answer : Option Nat}
    (hl : Lists s held l f) (hfresh : ∀ p, answer = some p → p ∉ held ++ (l ++ f))
    (h : setTimeout fuel s msec g answer = .ok (code, t)) :
    (s.pfree = none ∧ answer = none ∧ t = s) ∨
    (∃ p f', f = p :: f' ∧ s.pfree = some p ∧ Lists (s.pop p) (p :: held) l f' ∧
      (s.pop p).insert fuel p msec g = .ok t) ∨
    ∃ p, s.pfree = none ∧ answer = some p ∧ Lists s (p :: held) l f ∧
      s.insert fuel p msec g = .ok t := by
  unfold setTimeout at h
  split at h
  next p hp =>
    obtain ⟨t, hins, h⟩ := bind_eq_ok.mp h
    cases h
    obtain ⟨f', rfl, -⟩ := Chain.eq_cons (hp ▸ hl.pool)
    exact .inr (.inl ⟨p, f', rfl, hp, hl.pop, hins⟩)
  next hp =>
    split at h
    next =>
      cases h
      exact .inl ⟨hp, rfl, rfl⟩
    next p =>
      obtain ⟨t, hins, h⟩ := bind_eq_ok.mp h
      cases h
      exact .inr (.inr ⟨p, hp, rfl, hl.hold (hfresh p rfl), hins⟩)

theorem link_returns {fuel d : Nat} (h : Chain s.next s.ptimer l) (hfuel : l.length ≤ fuel) :
    ∃ t, s.link fuel p d = .ok t := by
  rw [State.link]
  cases l with
  | nil => exact ⟨_, by rw [h.nil_eq]⟩
  | cons q l =>
    have hq : s.ptimer = some q := h.head
    obtain ⟨x, hx⟩ := seek_returns (d := d) (hq ▸ h) hfuel
    rw [hq]
    dsimp only
    split
    · exact ⟨_, rfl⟩
    · exact ⟨_, by rw [hx]; rfl⟩

end Yaos.Timer
