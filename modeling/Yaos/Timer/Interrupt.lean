import Yaos.Timer.History

/-!
# Interrupts inside `set_timeout`

`set_timeout` takes its node before it disables interrupts, so
`run_timer_softirq` can be entered between any two of its statements up to
there. `Pc` is where it stands, with its local variables; functions called
by the interrupt make whole `set_timeout`s, since `run_timer_softirq` is
not entered twice.

A node may be lost or taken twice at one statement only,
`ptime->pfree = p->pnext`, and exactly if the interrupts since
`p = ptime->pfree` left another node at the head of the free list.
-/

namespace Yaos.Timer

open Yaos.Lib

variable {F : Type}

/-- The next statement of `set_timeout`. -/
inductive Pc (F : Type) where
  /-- not in `set_timeout` -/
  | out
  /-- after `p = ptime->pfree` -/
  | read (p : Option Nat) (msec : Nat) (pfunc : F)
  /-- `p` was taken from the free list or from `yaos_malloc` -/
  | took (p msec : Nat) (pfunc : F)
  /-- after `thedeadline = msec + msec_count` -/
  | timed (p deadline : Nat) (pfunc : F)
  /-- after `p->deadline = thedeadline` -/
  | dated (p deadline : Nat) (pfunc : F)
  /-- after `p->callback = pfunc` -/
  | ready (p deadline : Nat)

/-- The node that `set_timeout` owns. -/
def Pc.held : Pc F → List Nat
  | .out => []
  | .read _ _ _ => []
  | .took p _ _ => [p]
  | .timed p _ _ => [p]
  | .dated p _ _ => [p]
  | .ready p _ => [p]

/-- The timers, a `set_timeout` in progress, and all nodes there are. -/
structure World (F : Type) where
  timers : State F
  pc : Pc F
  nodes : List Nat

/-- One statement of `set_timeout`; from `local_irq_save` on it is one. -/
def World.advance (fuel : Nat) (w : World F) (answer : Option Nat) : Outcome (World F) :=
  match w.pc with
  | .out => .ok w
  | .read (some p) msec pfunc => .ok { w with timers := w.timers.pop p, pc := .took p msec pfunc }
  | .read none msec pfunc =>
      match answer with
      | none => .ok { w with pc := .out }
      | some p => .ok { w with pc := .took p msec pfunc, nodes := p :: w.nodes }
  | .took p msec pfunc => .ok { w with pc := .timed p (w.timers.deadline msec) pfunc }
  | .timed p deadline pfunc => .ok { w with
      timers := w.timers.upd p fun x => { x with deadline := deadline }
      pc := .dated p deadline pfunc }
  | .dated p deadline pfunc => .ok { w with
      timers := w.timers.upd p fun x => { x with callback := pfunc }
      pc := .ready p deadline }
  | .ready p deadline => do
      let s ← w.timers.link fuel p deadline
      .ok { w with timers := s, pc := .out }

/-- The nodes after a whole `set_timeout`. -/
def World.known (w : World F) (answer : Option Nat) : List Nat :=
  match w.timers.pfree with
  | some _ => w.nodes
  | none => answer.toList ++ w.nodes

inductive Event (F : Type) where
  /-- `set_timeout` is called and reads `pfree` -/
  | start (msec : Nat) (pfunc : F)
  /-- its next statement -/
  | advance (answer : Option Nat)
  | tick (now : Nat)
  /-- an interrupt enters `run_timer_softirq` -/
  | softirq
  | call
  /-- a function that was called calls `set_timeout` -/
  | setTimeout (msec : Nat) (pfunc : F) (answer : Option Nat)

/-- One step. While an interrupt is served, `set_timeout` stands still. -/
def Happens (w : World F) (e : Event F) (w' : World F) : Prop :=
  match e with
  | .start msec pfunc => w.timers.run = none ∧ w.pc = .out ∧
      w' = { w with pc := .read w.timers.pfree msec pfunc }
  | .advance answer => w.timers.run = none ∧ (∀ p, answer = some p → p ∉ w.nodes) ∧
      ∃ fuel, w.advance fuel answer = .ok w'
  | .tick now => w.timers.msecCount ≤ now ∧
      w' = { w with timers := { w.timers with msecCount := now } }
  | .softirq => w.timers.run = none ∧ w' = { w with timers := runTimerSoftirq w.timers }
  | .call => ∃ r t, w.timers.run = some r ∧ call w.timers r = .ok t ∧ w' = { w with timers := t }
  | .setTimeout msec pfunc answer => w.timers.run ≠ none ∧ (∀ p, answer = some p → p ∉ w.nodes) ∧
      ∃ fuel code t, setTimeout fuel w.timers msec pfunc answer = .ok (code, t) ∧
        w' = { w with timers := t, nodes := w.known answer }

/-- Every node is in exactly one place, and both lists end. -/
def Placed (w : World F) : Prop :=
  ∃ l f, Lists w.timers w.pc.held l f ∧ (w.pc.held ++ (l ++ f)).Perm w.nodes

/-- When `set_timeout` takes a node off the free list, the node is still
its head. -/
def Unmoved (w : World F) (e : Event F) : Prop :=
  ∀ answer p msec pfunc, e = .advance answer → w.pc = .read (some p) msec pfunc →
    w.timers.pfree = some p

/-- The world after `init_timer`. -/
def initWorld (g : F) (msecCount : Nat) : World F :=
  ⟨initTimer g msecCount, .out, List.range nrTimerBuf⟩

/-! ## Each event -/

section Events

variable {w w' : World F} {s t : State F} {held l f : List Nat} {p : Nat}

theorem Lists.enter (clock count : Nat) (called : List (Reg F)) (h : Lists s held l f) :
    ∃ l' f', Lists (enter s clock count called) held l' f' ∧ (l' ++ f').Perm (l ++ f) := by
  rcases enter_spec clock count called h with ⟨heq, -⟩ | ⟨a, b, r, rfl, -, htake, -⟩
  · rw [heq]
    exact ⟨l, f, ⟨h.timer, h.pool, h.nodup⟩, List.Perm.refl _⟩
  · refine ⟨b, a ++ f, htake.lists, ?_⟩
    rw [← List.append_assoc]
    exact List.Perm.append_right f List.perm_append_comm

theorem Lists.call {r : Frame F} (h : Lists s held l f) (hcall : Timer.call s r = .ok t) :
    ∃ l' f', Lists t held l' f' ∧ (l' ++ f').Perm (l ++ f) := by
  have hsame : ∀ t : State F, t.node = s.node → t.ptimer = s.ptimer → t.pfree = s.pfree →
      ∃ l' f', Lists t held l' f' ∧ (l' ++ f').Perm (l ++ f) := by
    intro t hnode htimer hfree
    have hnext : t.next = s.next := by
      funext i
      rw [State.next, hnode, State.next]
    exact ⟨l, f, ⟨by rw [hnext, htimer]; exact h.timer, by rw [hnext, hfree]; exact h.pool,
      h.nodup⟩, List.Perm.refl _⟩
  have hleave : ∃ l' f', Lists (leave s r) held l' f' ∧ (l' ++ f').Perm (l ++ f) := by
    rw [leave]
    split
    · exact h.enter r.clock r.count r.called
    · exact hsame _ rfl rfl rfl
  unfold Timer.call at hcall
  split at hcall
  · cases hcall
    exact hleave
  · split at hcall
    · split at hcall
      · cases hcall
      · cases hcall
        exact hsame _ rfl rfl rfl
    · cases hcall
      exact hleave

theorem Lists.insert {fuel msec : Nat} {g : F} (h : Lists s (p :: held) l f)
    (hins : s.insert fuel p msec g = .ok t) :
    ∃ l', Lists t held l' f ∧ l'.Perm (p :: l) := by
  obtain ⟨a, b, rfl, hlinked⟩ := link_spec (h.arm (s.deadline msec) g) hins
  exact ⟨a ++ p :: b, hlinked.lists, List.perm_middle⟩

/-- `set_timeout` without an interrupt puts one node on the list, from the
free list or a new one, or does nothing. -/
theorem Lists.setTimeout {fuel msec : Nat} {code : Int} {g : F} {answer : Option Nat}
    (h : Lists w.timers held l f) (hfresh : ∀ p, answer = some p → p ∉ held ++ (l ++ f))
    (hset : Timer.setTimeout fuel w.timers msec g answer = .ok (code, t))
    (hnodes : (held ++ (l ++ f)).Perm w.nodes) :
    ∃ l' f', Lists t held l' f' ∧ (held ++ (l' ++ f')).Perm (w.known answer) := by
  rcases setTimeout_cases h hfresh hset with
    ⟨hp, rfl, rfl⟩ | ⟨p, f', rfl, hp, hl, hins⟩ | ⟨p, hp, rfl, hl, hins⟩
  · rw [World.known, hp]
    exact ⟨l, f, h, hnodes⟩
  · obtain ⟨l', hlists, hperm⟩ := hl.insert hins
    rw [World.known, hp]
    refine ⟨l', f', hlists, List.Perm.trans (List.Perm.append_left held ?_) hnodes⟩
    exact (hperm.append_right f').trans List.perm_middle.symm
  · obtain ⟨l', hlists, hperm⟩ := hl.insert hins
    rw [World.known, hp]
    refine ⟨l', f, hlists, List.Perm.trans ?_ (hnodes.cons p)⟩
    exact ((hperm.append_right f).append_left held).trans List.perm_middle

/-- Each statement of `set_timeout` keeps every node in one place, if the
one it takes is the head of the free list. -/
theorem Placed.advance {fuel : Nat} {answer : Option Nat} (h : Placed w)
    (hfresh : ∀ p, answer = some p → p ∉ w.nodes)
    (hhead : ∀ p msec g, w.pc = .read (some p) msec g → w.timers.pfree = some p)
    (hadv : w.advance fuel answer = .ok w') : Placed w' := by
  obtain ⟨s, pc, nodes⟩ := w
  obtain ⟨l, f, hlists, hnodes⟩ := h
  dsimp only at hfresh hhead hlists hnodes
  unfold World.advance at hadv
  cases pc with
  | out =>
    cases hadv
    exact ⟨l, f, hlists, hnodes⟩
  | read p msec g =>
    cases p with
    | none =>
      cases answer with
      | none =>
        cases hadv
        exact ⟨l, f, hlists, hnodes⟩
      | some p =>
        cases hadv
        have hnew : p ∉ [] ++ (l ++ f) := fun hp => hfresh p rfl (hnodes.mem_iff.mp hp)
        exact ⟨l, f, hlists.hold hnew, hnodes.cons p⟩
    | some p =>
      cases hadv
      have hp : s.pfree = some p := hhead p msec g rfl
      obtain ⟨f, rfl, -⟩ := Chain.eq_cons (hp ▸ hlists.pool)
      have hmid : (p :: (l ++ f)).Perm (l ++ p :: f) := List.perm_middle.symm
      exact ⟨l, f, hlists.pop, hmid.trans hnodes⟩
  | took p msec g =>
    cases hadv
    exact ⟨l, f, hlists, hnodes⟩
  | timed p deadline g =>
    cases hadv
    exact ⟨l, f, hlists.write fun x => { x with deadline := deadline }, hnodes⟩
  | dated p deadline g =>
    cases hadv
    exact ⟨l, f, hlists.write fun x => { x with callback := g }, hnodes⟩
  | ready p deadline =>
    obtain ⟨t, hlink, hadv⟩ := bind_eq_ok.mp hadv
    cases hadv
    obtain ⟨a, b, rfl, hlinked⟩ := link_spec hlists hlink
    refine ⟨a ++ p :: b, f, hlinked.lists, List.Perm.trans ?_ hnodes⟩
    exact List.perm_middle.append_right f

/-- If a node that is not the head of the free list is taken as if it were,
some node is in no place or in two. -/
theorem Placed.pfree_of_pop {msec : Nat} {g : F} {s : State F} {nodes : List Nat}
    (h : Placed ⟨s, .read (some p) msec g, nodes⟩)
    (hpop : Placed ⟨s.pop p, .took p msec g, nodes⟩) : s.pfree = some p := by
  obtain ⟨l, f, hlists, hnodes⟩ := h
  obtain ⟨l', f', hlists', hnodes'⟩ := hpop
  obtain rfl : l' = l := Chain.unique hlists'.timer hlists.timer
  have hperm : (p :: (l' ++ f')).Perm (l' ++ f) := hnodes'.trans hnodes.symm
  have hmem : p ∈ l' ++ f := hperm.mem_iff.mp List.mem_cons_self
  have hpl : p ∉ l' := hlists'.held_notMem.1
  have hpf : p ∈ f := (List.mem_append.mp hmem).resolve_left hpl
  obtain ⟨a, b, rfl⟩ := List.append_of_mem hpf
  obtain ⟨hseg, hrest⟩ := Seg.split_at hlists.pool
  -- the free list after the write is what stood behind `p`, so nothing stood before
  obtain rfl : f' = b := Chain.unique hlists'.pool hrest
  have hlen := hperm.length_eq
  simp only [List.length_cons, List.length_append] at hlen
  obtain rfl : a = [] := List.eq_nil_of_length_eq_zero (by omega)
  exact hseg.nil_eq

theorem Placed.happens {e : Event F} (h : Placed w) (hun : Unmoved w e) (hstep : Happens w e w') :
    Placed w' := by
  obtain ⟨l, f, hlists, hnodes⟩ := id h
  cases e with
  | start msec g =>
    obtain ⟨-, hpc, rfl⟩ := hstep
    rw [hpc] at hlists hnodes
    exact ⟨l, f, hlists, hnodes⟩
  | advance answer =>
    obtain ⟨-, hfresh, fuel, hadv⟩ := hstep
    exact h.advance hfresh (fun p msec g hpc => hun answer p msec g rfl hpc) hadv
  | tick now =>
    obtain ⟨-, rfl⟩ := hstep
    exact ⟨l, f, ⟨hlists.timer, hlists.pool, hlists.nodup⟩, hnodes⟩
  | softirq =>
    obtain ⟨-, rfl⟩ := hstep
    obtain ⟨l', f', hlists', hperm⟩ := hlists.enter _ _ _
    exact ⟨l', f', hlists', (hperm.append_left _).trans hnodes⟩
  | call =>
    obtain ⟨r, t, -, hcall, rfl⟩ := hstep
    obtain ⟨l', f', hlists', hperm⟩ := hlists.call hcall
    exact ⟨l', f', hlists', (hperm.append_left _).trans hnodes⟩
  | setTimeout msec g answer =>
    obtain ⟨-, hfresh, fuel, code, t, hset, rfl⟩ := hstep
    exact hlists.setTimeout (fun p hp hmem => hfresh p hp (hnodes.mem_iff.mp hmem)) hset hnodes

theorem Placed.unmoved {e : Event F} (h : Placed w) (hstep : Happens w e w') (h' : Placed w') :
    Unmoved w e := by
  rintro answer p msec g rfl hpc
  obtain ⟨s, pc, nodes⟩ := w
  dsimp only at hpc
  subst hpc
  obtain ⟨-, -, fuel, hadv⟩ := hstep
  cases hadv
  exact h.pfree_of_pop h'

theorem initWorld_placed (g : F) (m : Nat) : Placed (initWorld g m) :=
  ⟨[], List.range nrTimerBuf, (initTimer_inv g m).lists, List.Perm.refl _⟩

end Events

/-! ## Whole runs -/

/-- **No node is lost or taken twice** in a run, exactly if no interrupt
moves the head of the free list between the two statements that take a node
off it. -/
theorem nodes_placed_iff {g : F} {m : Nat} {w : World F} {tr : List (Taken (World F) (Event F))}
    (htr : Trace Happens (initWorld g m) tr w) :
    (∀ x ∈ tr, Placed x.pre ∧ Placed x.post) ↔ ∀ x ∈ tr, Unmoved x.pre x.label := by
  refine ⟨fun hall => ?_, fun hun => ?_⟩
  · exact fun x hx => (hall x hx).1.unmoved (htr.taken x hx) (hall x hx).2
  · exact (htr.invariant Placed Unmoved (fun h hun hstep => h.happens hun hstep)
      (initWorld_placed g m) hun).2

/-- Without an interrupt a node is taken as it should be. -/
theorem nodes_placed_iff_alone : ∃ tr w, Trace Happens (initWorld () 0) tr w ∧
    w.pc = .took 0 5 () ∧ ∀ x ∈ tr, Placed x.pre ∧ Placed x.post := by
  have htr : Trace Happens (initWorld () 0) _ _ :=
    .step (a := Event.start 5 ()) ⟨rfl, rfl, rfl⟩
      (.step (a := Event.advance none) ⟨rfl, by simp, 0, rfl⟩ (.done _))
  refine ⟨_, _, htr, rfl, (nodes_placed_iff htr).mpr fun x hx => ?_⟩
  rintro answer p msec g hlabel hpc
  simp only [List.mem_cons, List.not_mem_nil, or_false] at hx
  rcases hx with rfl | rfl
  · cases hlabel
  · cases hpc
    rfl

/-- A timer fires between the two statements and its function sets two
timers: the second gets the node that `set_timeout` then takes as well. -/
theorem nodes_placed_iff_taken_twice : ∃ tr w, Trace Happens (initWorld () 0) tr w ∧
    ∃ x ∈ tr, ¬ Placed x.post := by
  have htr : Trace Happens (initWorld () 0) _ _ :=
    .step (a := Event.start 5 ()) ⟨rfl, rfl, rfl⟩
    (.step (a := Event.advance none) ⟨rfl, by simp, 0, rfl⟩
    (.step (a := Event.advance none) ⟨rfl, by simp, 0, rfl⟩
    (.step (a := Event.advance none) ⟨rfl, by simp, 0, rfl⟩
    (.step (a := Event.advance none) ⟨rfl, by simp, 0, rfl⟩
    (.step (a := Event.advance none) ⟨rfl, by simp, 0, rfl⟩
    (.step (a := Event.start 5 ()) ⟨rfl, rfl, rfl⟩
    (.step (a := Event.tick 5) ⟨by decide, rfl⟩
    (.step (a := Event.softirq) ⟨rfl, rfl⟩
    (.step (a := Event.call) ⟨_, _, rfl, rfl, rfl⟩
    (.step (a := Event.setTimeout 5 () none) ⟨Option.some_ne_none _, by simp, 9, _, _, rfl, rfl⟩
    (.step (a := Event.setTimeout 5 () none) ⟨Option.some_ne_none _, by simp, 9, _, _, rfl, rfl⟩
    (.step (a := Event.call) ⟨_, _, rfl, rfl, rfl⟩
    (.step (a := Event.advance none) ⟨rfl, by simp, 0, rfl⟩ (.done _))))))))))))))
  refine ⟨_, _, htr, _, List.mem_of_getLast? rfl, ?_⟩
  rintro ⟨l, f, hlists, -⟩
  have hp : (1 : Nat) ∉ l := hlists.held_notMem.1
  obtain ⟨l, rfl, htail⟩ := Chain.eq_cons (x := 0) hlists.timer
  obtain ⟨l, rfl, -⟩ := Chain.eq_cons (x := 1) htail
  exact hp (by simp)

end Yaos.Timer
