import Mathlib.Algebra.Group.Nat.Defs
import Yaos.Phymem.Model

/-!
# Softirqs of one CPU (`kernel/tasklet.c`)

A softirq is raised by setting its bit; `__do_softirq` takes all bits at
once, clears them and runs their actions with interrupts enabled, and
starts over while there are new ones, ten times at most. It then leaves
the rest to the tasklet thread.

Everything an action or an interrupt may do happens between two steps of
`__do_softirq`: `Pc` is its next statement and `Frame` holds its local
variables. The tasklet thread may run inside `wakeup_taskletd` and run
`__do_softirq` itself, so there is a stack of frames.

`snapshot`, `ran`, `passes`, `woke`, `since`, `count` and the log are a
record of what happened, which the code does not have.
-/

namespace Yaos.Softirq

open Yaos.Lib

/-- `MAX_SOFTIRQ_TIME`, in ms. -/
def maxSoftirqTime : Nat := 2

/-- `MAX_SOFTIRQ_RESTART`. -/
def maxSoftirqRestart : Nat := 10

/-- `NR_SOFTIRQS`. -/
def nrSoftirqs : Nat := 10

/-- Where `__do_softirq` stands. -/
inductive Pc where
  /-- at the label `restart`, interrupts disabled -/
  | restart
  /-- at the head of the loop -/
  | loop
  /-- in an action; `bit` is `softirq_bit` -/
  | running (bit : Nat)
  /-- behind the loop, interrupts disabled -/
  | behind
  /-- in `wakeup_taskletd` -/
  | woken

/-- The local variables: `h` is an index into `softirq_vec`. -/
structure Frame where
  deadline : Nat
  maxRestart : Nat
  pending : BitVec 32
  h : Nat
  pc : Pc
  /-- the pending bits when the pass began -/
  snapshot : BitVec 32
  /-- the actions the pass has started -/
  ran : List Nat
  passes : Nat
  woke : Bool
  /-- the length of the log on entry -/
  since : Nat
  /-- `tasklet_count` on entry -/
  count : Int

inductive Entry where
  | raised (nr : Nat)
  | started (nr : Nat)
  deriving DecidableEq

/-- The CPU: `registered` are the entries of `softirq_vec` with an action. -/
structure State where
  pending : BitVec 32
  taskletCount : Int
  msecCount : Nat
  registered : Nat → Bool
  stack : List Frame
  log : List Entry

/-- `in_tasklet`. -/
def State.inTasklet (s : State) : Bool := 0 ≤ s.taskletCount

/-- `__raise_softirq_irqoff`. -/
def raiseSoftirqIrqoff (s : State) (nr : Nat) : State :=
  { s with pending := s.pending ||| 1#32 <<< nr, log := s.log ++ [.raised nr] }

/-- `__do_softirq` up to the label `restart`. -/
def doSoftirq (s : State) : State :=
  { s with
    taskletCount := s.taskletCount + 1
    stack := {
      deadline := (s.msecCount + maxSoftirqTime) % 2 ^ 64
      maxRestart := maxSoftirqRestart
      pending := s.pending
      h := 0
      pc := .restart
      snapshot := 0#32
      ran := []
      passes := 0
      woke := false
      since := s.log.length
      count := s.taskletCount } :: s.stack }

/-- `enable_tasklet(); return;` -/
def leave (s : State) (rest : List Frame) : State :=
  { s with taskletCount := s.taskletCount - 1, stack := rest }

/-- The next statement of the run `r`. -/
def advance (s : State) (r : Frame) (rest : List Frame) : Outcome State :=
  match r.pc with
  | .restart => .ok { s with
      pending := 0#32
      stack := { r with
        h := 0
        pc := .loop
        snapshot := s.pending
        ran := []
        passes := r.passes + 1 } :: rest }
  | .loop =>
      let bit := Phymem.ffs r.pending
      if bit = 0 then .ok { s with stack := { r with pc := .behind } :: rest }
      else
        let h := r.h + (bit - 1)
        if s.registered h then .ok { s with
          stack := { r with h := h, pc := .running bit, ran := r.ran ++ [h] } :: rest
          log := s.log ++ [.started h] }
        else .error .fault
  | .running bit => .ok { s with
      stack := { r with h := r.h + 1, pending := r.pending >>> bit, pc := .loop } :: rest }
  | .behind =>
      let pending := s.pending
      if pending = 0#32 then .ok (leave s rest)
      else if s.msecCount < r.deadline then
        let maxRestart := r.maxRestart - 1
        if maxRestart ≠ 0 then .ok { s with
          stack := { r with pending := pending, maxRestart := maxRestart, pc := .restart } :: rest }
        else .ok { s with
          stack := { r with
            pending := pending, maxRestart := maxRestart, pc := .woken, woke := true } :: rest }
      else .ok { s with stack := { r with pending := pending, pc := .woken, woke := true } :: rest }
  | .woken => .ok (leave s rest)

/-- `irq_exit`. -/
def irqExit (s : State) : State :=
  if !s.inTasklet && s.pending ≠ 0#32 then doSoftirq s else s

/-- `run_ksoftirqd`. -/
def runKsoftirqd (s : State) : State := if s.pending ≠ 0#32 then doSoftirq s else s

/-! ## Steps -/

/-- Interrupts may be enabled: the current run is in its loop, or is inside
`wakeup_taskletd`, or there is none. -/
def State.Open (s : State) : Prop :=
  ∀ r ∈ s.stack.head?, (r.pc = .loop ∨ ∃ bit, r.pc = .running bit) ∨ r.pc = .woken

/-- No softirq runs on this stack: the tasklet thread may. -/
def State.Idle (s : State) : Prop := ∀ r ∈ s.stack.head?, r.pc = .woken

inductive Op where
  /-- `__do_softirq` goes on -/
  | advance
  /-- an action or an interrupt raises a softirq -/
  | raise (nr : Nat)
  /-- an interrupt returns -/
  | irqExit
  /-- `__do_softirq` is called by the tasklet thread -/
  | runKsoftirqd
  /-- `__do_softirq` is called with interrupts disabled -/
  | doSoftirq
  | tick (now : Nat)

def Step (s : State) (op : Op) (t : State) : Prop :=
  match op with
  | .advance => ∃ r rest, s.stack = r :: rest ∧ advance s r rest = .ok t
  | .raise nr => s.Open ∧ nr < nrSoftirqs ∧ s.registered nr = true ∧ t = raiseSoftirqIrqoff s nr
  | .irqExit => s.Open ∧ t = irqExit s
  | .runKsoftirqd => s.Idle ∧ t = runKsoftirqd s
  | .doSoftirq => s.Idle ∧ t = doSoftirq s
  | .tick now => t = { s with msecCount := now }

end Yaos.Softirq
