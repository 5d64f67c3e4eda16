import Mathlib.Logic.Function.Basic
import Yaos.Lib.Outcome
import Yaos.Lib.TailQueue

/-!
# Tasklets of one CPU (`kernel/tasklet.c`, `include/yaos/tasklet.h`)

The two per-CPU lists `tasklet_vec` and `tasklet_hi_vec` are handled by the
same code, so a list is named by a `Bool` that says whether it is the
second. `tasklet_action` detaches a list with interrupts disabled and then
works on it with interrupts enabled: it is cut at its statements, `begin`
is what it does up to the loop and `advance` its next statement, and
`Action` holds its local variables. Softirqs do not nest on one CPU, so
there is one action at a time; anything else may come between its steps.
When an action is entered is left open, so raising a softirq has no effect
here.

`on`, `scheduled`, `ran`, `ended` and the last five fields of `Action` are
a record of what happened; the code does not have them and reads none.
-/

namespace Yaos.Tasklet

open Yaos.Lib
open Function (update)

inductive Pc where
  /-- `while (list)` -/
  | loop
  /-- before `tasklet_trylock(t)` -/
  | got (t : Nat)
  /-- before `atomic_read(&t->count)` -/
  | locked (t : Nat)
  /-- the count was zero -/
  | enabled (t : Nat)
  /-- in `t->func(t->data)` -/
  | calling (t : Nat)
  /-- before the second `local_irq_disable()` -/
  | requeue (t : Nat)

/-- `tasklet_action` or `tasklet_hi_action` in its loop. It detached the
tasklets `taken` and has yet to take `rest`; `seen` are those it decided
about and whether it found them enabled, `runs` those it called. -/
structure Action where
  hi : Bool
  list : Option Nat
  pc : Pc
  taken : List Nat
  rest : List Nat
  seen : List (Nat × Bool)
  runs : List Nat
  steps : Nat

/-- The fields of every `struct tasklet_struct`, with the two bits of
`state` apart, and the two lists. -/
structure State where
  next : Nat → Option Nat
  sched : Nat → Bool
  run : Nat → Bool
  count : Nat → BitVec 32
  vec : Bool → TailQueue Nat
  act : Option Action
  on : Bool → List Nat
  scheduled : Nat → Nat
  ran : Nat → Nat
  ended : List Action

/-- Tasklets declared with `DECLARE_TASKLET` or `DECLARE_TASKLET_DISABLED`
and the lists as `softirq_init` leaves them. -/
def boot (count : Nat → BitVec 32) : State where
  next _ := none
  sched _ := false
  run _ := false
  count := count
  vec _ := .empty
  act := none
  on _ := []
  scheduled _ := 0
  ran _ := 0
  ended := []

/-! ## Scheduling -/

/-- `t->next = NULL; *tail = t; tail = &(t->next);` -/
def State.append (s : State) (hi : Bool) (t : Nat) : State :=
  { s with
    next := ((s.vec hi).append s.next t).1
    vec := update s.vec hi ((s.vec hi).append s.next t).2
    on := update s.on hi (s.on hi ++ [t]) }

/-- `test_and_set_bit(TASKLET_STATE_SCHED, &t->state)` on a clear bit. -/
def State.setSched (s : State) (t : Nat) : State :=
  { s with
    sched := update s.sched t true
    scheduled := update s.scheduled t (s.scheduled t + 1) }

/-- The common body of `tasklet_schedule` and `tasklet_hi_schedule`. -/
def schedule (hi : Bool) (s : State) (t : Nat) : State :=
  if s.sched t then s else (s.setSched t).append hi t

/-- `tasklet_schedule`. -/
def taskletSchedule : State → Nat → State := schedule false

/-- `tasklet_hi_schedule`. -/
def taskletHiSchedule : State → Nat → State := schedule true

/-- `__tasklet_hi_schedule_first` without its check. -/
def State.push (s : State) (t : Nat) : State :=
  { s with
    next := ((s.vec true).push s.next t).1
    vec := update s.vec true ((s.vec true).push s.next t).2
    on := update s.on true (t :: s.on true) }

/-- `tasklet_hi_schedule_first`, with the interrupt flag of its caller. -/
def taskletHiScheduleFirst (irqsDisabled : Bool) (s : State) (t : Nat) : Outcome State :=
  if s.sched t then .ok s
  else if irqsDisabled then .ok ((s.setSched t).push t)
  else .error .panic

/-- `tasklet_disable_nosync`. -/
def taskletDisableNosync (s : State) (t : Nat) : State :=
  { s with count := update s.count t (s.count t + 1) }

/-- `tasklet_enable`. -/
def taskletEnable (s : State) (t : Nat) : State :=
  { s with count := update s.count t (s.count t - 1) }

/-! ## The actions -/

def begin (hi : Bool) (s : State) : State :=
  { s with
    vec := update s.vec hi .empty
    on := update s.on hi []
    act := some ⟨hi, (s.vec hi).head, .loop, s.on hi, s.on hi, [], [], 0⟩ }

/-- `tasklet_action` is entered. -/
def taskletAction : State → State := begin false

/-- `tasklet_hi_action` is entered. -/
def taskletHiAction : State → State := begin true

/-- The action goes on at `pc`. -/
def State.goto (s : State) (a : Action) (pc : Pc) : State :=
  { s with act := some { a with pc := pc, steps := a.steps + 1 } }

/-- `tasklet_unlock`. -/
def State.unlock (s : State) (t : Nat) : State :=
  { s with run := update s.run t false }

/-- The action has found out whether `t` is enabled. -/
def Action.see (a : Action) (t : Nat) (enabled : Bool) : Action :=
  { a with seen := a.seen ++ [(t, enabled)] }

def advance (s : State) (a : Action) : Outcome State :=
  match a.pc with
  | .loop =>
      match a.list with
      | none => .ok { s with act := none, ended := a :: s.ended }
      | some t => .ok (s.goto { a with list := s.next t, rest := a.rest.tail } (.got t))
  | .got t =>
      -- `tasklet_trylock`
      if s.run t then .ok (s.goto (a.see t false) (.requeue t))
      else .ok ({ s with run := update s.run t true }.goto a (.locked t))
  | .locked t =>
      if s.count t = 0#32 then .ok (s.goto (a.see t true) (.enabled t))
      else .ok ((s.unlock t).goto (a.see t false) (.requeue t))
  | .enabled t =>
      -- `if (!test_and_clear_bit(TASKLET_STATE_SCHED, &t->state)) BUG();`
      if s.sched t then
        .ok ({ s with
          sched := update s.sched t false
          ran := update s.ran t (s.ran t + 1) }.goto
            { a with runs := a.runs ++ [t] } (.calling t))
      else .error .panic
  | .calling t => .ok ((s.unlock t).goto a .loop)
  | .requeue t => .ok ((s.append a.hi t).goto a .loop)

end Yaos.Tasklet
