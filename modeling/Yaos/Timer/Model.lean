import Mathlib.Algebra.Group.Nat.Defs
import Mathlib.Logic.Function.Basic
import Yaos.Errno
import Yaos.Lib.Outcome
import Yaos.Lib.Seg

/-!
# Timers of one CPU (`kernel/timer.c`)

A timer is a node on the list `ptimer`, sorted by deadline; unused nodes
are on `pfree`, and when it is empty a node comes from `yaos_malloc`.
`run_timer_softirq` takes the due nodes off the list, at most ten at a
time, recycles them and calls their functions with interrupts enabled.

A function may do anything in between, so `run_timer_softirq` is cut at
its calls: `enter` goes up to the loop, `call` is one round of it or what
follows, and `Frame` holds the local variables. The answer of
`yaos_malloc` is an argument.

`id`, `registered`, `invoked` and the last three fields of `Frame` are a
record of what happened; the code does not have them and reads none.
-/

namespace Yaos.Timer

open Yaos.Lib

variable {F : Type}

structure Reg (F : Type) where
  id : Nat
  deadline : Nat
  func : F

/-- `struct timeout_callback`. -/
structure Node (F : Type) where
  pnext : Option Nat
  deadline : Nat
  callback : F
  id : Nat

/-- The function of a node, with its deadline and number. -/
def Node.reg (x : Node F) : Reg F := ⟨x.id, x.deadline, x.callback⟩

/-- `run_timer_softirq` in its loop: `funcarr[i]` is called next, `i` counted
from one. `clock` and `count` are `msec_count` and the number of
registrations when it was entered, `called` what it called. -/
structure Frame (F : Type) where
  funcarr : Nat → Option (Reg F)
  callnr : Nat
  i : Nat
  clock : Nat
  count : Nat
  called : List (Reg F)

/-- `struct timer_manager` and `msec_count`. -/
structure State (F : Type) where
  node : Nat → Node F
  pfree : Option Nat
  ptimer : Option Nat
  msecCount : Nat
  run : Option (Frame F)
  registered : List (Reg F)
  invoked : List (Reg F × Nat)

/-- `NR_TIMER_BUF`. -/
def nrTimerBuf : Nat := 16

def State.upd (s : State F) (i : Nat) (f : Node F → Node F) : State F :=
  { s with node := Function.update s.node i (f (s.node i)) }

/-- The `pnext` links. -/
def State.next (s : State F) (i : Nat) : Option Nat := (s.node i).pnext

/-- `init_timer`; what the nodes hold does not matter. -/
def initTimer (f : F) (msecCount : Nat) : State F where
  node i := ⟨if i + 1 < nrTimerBuf then some (i + 1) else none, 0, f, 0⟩
  pfree := some 0
  ptimer := none
  msecCount := msecCount
  run := none
  registered := []
  invoked := []

/-! ## `set_timeout` -/

/-- `ptime->pfree = p->pnext;` -/
def State.pop (s : State F) (p : Nat) : State F := { s with pfree := s.next p }

/-- `p->deadline = thedeadline; p->callback = pfunc;` and the record. -/
def State.arm (s : State F) (p deadline : Nat) (pfunc : F) : State F :=
  let id := s.registered.length
  { s.upd p fun x => { x with deadline := deadline, callback := pfunc, id := id } with
    registered := s.registered ++ [⟨id, deadline, pfunc⟩] }

/-- `while (ptr->pnext && ptr->pnext->deadline < thedeadline) ptr = ptr->pnext;` -/
def State.seek (s : State F) (deadline : Nat) : Nat → Nat → Outcome Nat
  | 0, _ => .error .spin
  | k + 1, ptr =>
      match s.next ptr with
      | none => .ok ptr
      | some q => if (s.node q).deadline < deadline then s.seek deadline k q else .ok ptr

/-- `p->pnext = ptime->ptimer; ptime->ptimer = p;` -/
def State.front (s : State F) (p : Nat) : State F :=
  { s.upd p fun x => { x with pnext := s.ptimer } with ptimer := some p }

/-- `p->pnext = ptr->pnext; ptr->pnext = p;` -/
def State.behind (s : State F) (ptr p : Nat) : State F :=
  (s.upd p fun x => { x with pnext := s.next ptr }).upd ptr fun x => { x with pnext := some p }

/-- What `set_timeout` does with interrupts disabled. -/
def State.link (fuel : Nat) (s : State F) (p deadline : Nat) : Outcome (State F) :=
  match s.ptimer with
  | none => .ok (s.front p)
  | some q =>
      if deadline < (s.node q).deadline then .ok (s.front p)
      else do
        let ptr ← s.seek deadline fuel q
        .ok (s.behind ptr p)

/-- `msec + msec_count`. -/
def State.deadline (s : State F) (msec : Nat) : Nat := (msec + s.msecCount) % 2 ^ 64

/-- `set_timeout` from the node on. -/
def State.insert (fuel : Nat) (s : State F) (p msec : Nat) (pfunc : F) : Outcome (State F) :=
  (s.arm p (s.deadline msec) pfunc).link fuel p (s.deadline msec)

/-- `set_timeout`. -/
def setTimeout (fuel : Nat) (s : State F) (msec : Nat) (pfunc : F) (answer : Option Nat) :
    Outcome (Int × State F) :=
  match s.pfree with
  | some p => do
      let s ← (s.pop p).insert fuel p msec pfunc
      .ok (0, s)
  | none =>
      match answer with
      | none => .ok (enomem, s)
      | some p => do
          let s ← s.insert fuel p msec pfunc
          .ok (0, s)

/-! ## `run_timer_softirq` -/

/-- The loop that fills `funcarr` from `callnr` down: how many slots are
left, the last node and the array. -/
def State.fill (s : State F) :
    Nat → Nat → (Nat → Option (Reg F)) → Nat × Nat × (Nat → Option (Reg F))
  | 0, ptr, funcarr => (0, ptr, funcarr)
  | callnr + 1, ptr, funcarr =>
      match s.next ptr with
      | none => (callnr + 1, ptr, funcarr)
      | some q =>
          if (s.node q).deadline ≤ s.msecCount then
            s.fill callnr q (Function.update funcarr callnr (some (s.node q).reg))
          else (callnr + 1, ptr, funcarr)

/-- `run_timer_softirq` up to its loop, from the outside or from itself. -/
def enter (s : State F) (clock count : Nat) (called : List (Reg F)) : State F :=
  match s.ptimer with
  | none => { s with run := none }
  | some p =>
      if s.msecCount < (s.node p).deadline then { s with run := none }
      else
        let funcarr := Function.update (fun _ => none) 9 (some (s.node p).reg)
        let (callnr, ptr, funcarr) := s.fill 9 p funcarr
        { s.upd ptr fun x => { x with pnext := s.pfree } with
          ptimer := s.next ptr
          pfree := some p
          run := some ⟨funcarr, callnr, 10, clock, count, called⟩ }

/-- `run_timer_softirq` is entered. -/
def runTimerSoftirq (s : State F) : State F := enter s s.msecCount s.registered.length []

/-- After the loop: `if (callnr == 0) run_timer_softirq(paction);` -/
def leave (s : State F) (r : Frame F) : State F :=
  if r.callnr = 0 then enter s r.clock r.count r.called else { s with run := none }

/-- `for (int i = 9; i >= callnr; i--) (funcarr[i]) (msec_count);`: the next
round, or the end. -/
def call (s : State F) (r : Frame F) : Outcome (State F) :=
  match r.i with
  | 0 => .ok (leave s r)
  | i + 1 =>
      if r.callnr ≤ i then
        match r.funcarr i with
        | none => .error .fault
        | some f => .ok { s with
            invoked := s.invoked ++ [(f, s.msecCount)]
            run := some { r with i := i, called := r.called ++ [f] } }
      else .ok (leave s r)

end Yaos.Timer
