import Mathlib.Logic.Function.Basic
import Yaos.Lib.Outcome
import Yaos.Lib.Run

/-!
# Threads of one CPU (`kernel/kthread.c`)

The five calls that switch stacks, over a CPU record that also keeps what
the hardware knows and the kernel does not: `running` is the thread that is
executing, or that an interrupt handler has interrupted. A saved stack
pointer is the thread that goes on from it and the number of the switch that
left it there (`mark`); `away` remembers, for every thread, the last switch
that left it. None of the calls reads `running`, `clock` or `away`. A thread
executes on its own stack, an interrupt handler may be on the IRQ stack of
the CPU: `Kthread.Interrupt` keeps that apart.

The build is a debug build: a failed `ASSERT` never returns, and
`wake_up_thread` walks the parent chain of the running thread. That walk
is a loop without a bound, so the call takes fuel.

The assertions that a stack pointer is mapped
(`p->rsp < __max_phy_mem_addr || get_pte_with_addr(p->rsp)`) are left
out: they can only stop a call. So is the loop of `thread_main`, which
makes no switch of its own but by `yield_thread`.
-/

namespace Yaos.Kthread

open Yaos.Lib

/-- `state` of a thread. -/
inductive TState where
  | init
  | ready
  | run
  | done
  deriving DecidableEq

/-- A value of `%rsp`: the thread that goes on from it (outside of interrupt
handlers, the one whose stack it points into), and the switch at which it was
saved. -/
structure StackPtr (Tid : Type) where
  stack : Tid
  mark : Nat
  deriving DecidableEq

/-- The fields of `struct thread_struct` that the calls use; `rsp` is
`none` when the field is `0`. -/
structure Thread (Tid : Type) where
  rsp : Option (StackPtr Tid)
  lvl : Nat
  flag : BitVec 32
  state : TState
  parent : Option Tid

/-- `THREAD_SUSPEND`. -/
def threadSuspend : BitVec 32 := 8#32

/-- `flag & THREAD_SUSPEND`. -/
def Thread.suspended {Tid : Type} (t : Thread Tid) : Bool := t.flag &&& threadSuspend ≠ 0#32

/-- One CPU: its `current_thread` and its threads, and what the hardware
is doing. -/
structure Cpu (Tid : Type) where
  current : Tid
  threads : Tid → Thread Tid
  running : Tid
  clock : Nat
  away : Tid → Option Nat

/-- What a context switch did: whose `rsp` field took the outgoing stack
pointer, which pointer that was, which thread was switched to, and the
pointer loaded (`none`: started on its own fresh stack). -/
structure Switch (Tid : Type) where
  into : Tid
  saved : StackPtr Tid
  next : Tid
  loaded : Option (StackPtr Tid)

variable {Tid : Type} [DecidableEq Tid]

def Cpu.upd (s : Cpu Tid) (t : Tid) (f : Thread Tid → Thread Tid) : Cpu Tid :=
  { s with threads := Function.update s.threads t (f (s.threads t)) }

/-- `switch_first` and `switch_to` of `entry64.S`: the registers are pushed
on the stack that is executing, the resulting pointer, from which the running
thread goes on, is stored in the `rsp` field of `old`, and `%rsp` becomes the
top of `p`'s own stack or the pointer `ptr` that was read from `p` before. -/
def Cpu.switch (s : Cpu Tid) (p old : Tid) (ptr : Option (StackPtr Tid)) :
    Cpu Tid × Option (Switch Tid) :=
  let here : StackPtr Tid := ⟨s.running, s.clock⟩
  let s' := s.upd old (fun t => { t with rsp := some here })
  ({ s' with
      running := ptr.elim p StackPtr.stack
      clock := s.clock + 1
      away := Function.update s.away s.running (some s.clock) },
    some ⟨old, here, p, ptr⟩)

/-- `if (p->state == THREAD_READY) { p->state = THREAD_RUN;
thread_switch_first(..) } else { .. thread_switch_to(..) }`. Two of the
callers leave the state alone in the second branch (`setRun`). -/
def dispatch (s : Cpu Tid) (p old : Tid) (setRun : Bool) :
    Outcome (Cpu Tid × Option (Switch Tid)) :=
  if (s.threads p).state = .ready then
    .ok ((s.upd p (fun t => { t with state := .run })).switch p old none)
  else do
    let s := if setRun then s.upd p (fun t => { t with state := .run }) else s
    check ((s.threads p).rsp.isSome)
    .ok (s.switch p old (s.threads p).rsp)

/-- `exit_thread`. -/
def exitThread (s : Cpu Tid) : Outcome (Cpu Tid × Option (Switch Tid)) :=
  let old := s.current
  let s' := s.upd old (fun t => { t with state := .done })
  match (s.threads old).parent with
  | none => .error .panic
  | some p => dispatch s' p old true

/-- The debug walk of `wake_up_thread`: is `p` above `q` in the chain? -/
def findParent (s : Cpu Tid) (p : Tid) : Nat → Bool → Option Tid → Outcome Bool
  | 0, _, _ => .error .spin
  | _ + 1, found, none => .ok found
  | fuel + 1, found, some q =>
      let q' := (s.threads q).parent
      findParent s p fuel (found || q' = some p) q'

/-- `wake_up_thread`. -/
def wakeUpThread (fuel : Nat) (s : Cpu Tid) (p : Tid) :
    Outcome (Cpu Tid × Option (Switch Tid)) :=
  let old := s.current
  if p = old then .ok (s, none)
  else if (s.threads p).state = .init then .ok (s, none)
  else if !(s.threads p).suspended then do
    let found ← findParent s p fuel false (some old)
    check (!found)
    .ok (s, none)
  else if (s.threads old).lvl < (s.threads p).lvl then do
    -- splice `p` under the running thread; the flag stays set
    check ((s.threads old).parent ≠ some p)
    let up := (s.threads old).parent
    let s := s.upd p (fun t => { t with parent := up })
    .ok (s.upd old (fun t => { t with parent := some p }), none)
  else
    let s := s.upd p (fun t => { t with flag := t.flag &&& ~~~threadSuspend, parent := some old })
    dispatch { s with current := p } p old false

/-- `suspend_thread`. -/
def suspendThread (s : Cpu Tid) : Outcome (Cpu Tid × Option (Switch Tid)) := do
  let old := s.current
  check ((s.threads old).parent ≠ some old)
  match (s.threads old).parent with
  | none => .error .panic
  | some p =>
      check (!(s.threads old).suspended)
      let s := s.upd old (fun t => { t with flag := t.flag ||| threadSuspend })
      dispatch { s with current := p } p old true

/-- `resume_thread`. -/
def resumeThread (s : Cpu Tid) (p : Tid) : Outcome (Cpu Tid × Option (Switch Tid)) :=
  if (s.threads p).state = .done then .ok (s, none)
  else do
    let old := s.current
    let s := s.upd p (fun t => { t with parent := some old })
    check (old ≠ p)
    dispatch { s with current := p } p old false

/-- `yield_thread`. -/
def yieldThread (s : Cpu Tid) : Outcome (Cpu Tid × Option (Switch Tid)) := do
  let old := s.current
  check ((s.threads old).parent ≠ some old)
  match (s.threads old).parent with
  | none => .error .panic
  | some p => dispatch { s with current := p } p old true

inductive Call (Tid : Type) where
  | resume (p : Tid)
  | yield
  | wake (p : Tid)
  | suspend
  | exit
  deriving DecidableEq

def exec (fuel : Nat) (s : Cpu Tid) : Call Tid → Outcome (Cpu Tid × Option (Switch Tid))
  | .resume p => resumeThread s p
  | .yield => yieldThread s
  | .wake p => wakeUpThread fuel s p
  | .suspend => suspendThread s
  | .exit => exitThread s

/-- A call that returned to a running thread, with the switch it made. -/
structure Made (Tid : Type) where
  call : Call Tid
  switch : Option (Switch Tid)

def Step (s : Cpu Tid) (m : Made Tid) (t : Cpu Tid) : Prop :=
  ∃ fuel, exec fuel s m.call = .ok (t, m.switch)

/-- The state `init_idle_thread` leaves: the idle thread runs, alone on its
chain; every other thread is created at most, and has never run. -/
structure Boot (idle : Tid) (s : Cpu Tid) : Prop where
  current : s.current = idle
  running : s.running = idle
  idleRuns : (s.threads idle).state = .run
  idleFlag : (s.threads idle).suspended = false
  fresh : ∀ t, t ≠ idle → (s.threads t).state = .init ∨ (s.threads t).state = .ready
  noParent : ∀ t, (s.threads t).parent = none
  noRsp : ∀ t, (s.threads t).rsp = none
  noAway : ∀ t, s.away t = none

/-- The idle thread `0` and two created threads, of the given levels. -/
def bootCpu (lvl : Fin 3 → Nat) : Cpu (Fin 3) where
  current := 0
  threads t := ⟨none, lvl t, if t = 0 then 4#32 else 0#32, if t = 0 then .run else .ready, none⟩
  running := 0
  clock := 0
  away _ := none

theorem boot_bootCpu (lvl : Fin 3 → Nat) : Boot 0 (bootCpu lvl) where
  current := rfl
  running := rfl
  idleRuns := rfl
  idleFlag := by simp [bootCpu, Thread.suspended, threadSuspend]
  fresh t ht := by simp [bootCpu, ht]
  noParent _ := rfl
  noRsp _ := rfl
  noAway _ := rfl

/-! ## Field lemmas -/

theorem Cpu.upd_threads (s : Cpu Tid) (t u : Tid) (f : Thread Tid → Thread Tid) :
    (s.upd t f).threads u = if u = t then f (s.threads u) else s.threads u := by
  by_cases h : u = t
  · subst h
    simp [Cpu.upd]
  · simp [Cpu.upd, h]

@[simp] theorem Cpu.upd_self (s : Cpu Tid) (t : Tid) (f : Thread Tid → Thread Tid) :
    (s.upd t f).threads t = f (s.threads t) := by
  simp [Cpu.upd_threads]

@[simp] theorem Cpu.upd_current (s : Cpu Tid) (t : Tid) (f : Thread Tid → Thread Tid) :
    (s.upd t f).current = s.current := rfl

@[simp] theorem Cpu.upd_running (s : Cpu Tid) (t : Tid) (f : Thread Tid → Thread Tid) :
    (s.upd t f).running = s.running := rfl

@[simp] theorem Cpu.upd_clock (s : Cpu Tid) (t : Tid) (f : Thread Tid → Thread Tid) :
    (s.upd t f).clock = s.clock := rfl

@[simp] theorem Cpu.upd_away (s : Cpu Tid) (t : Tid) (f : Thread Tid → Thread Tid) :
    (s.upd t f).away = s.away := rfl

end Yaos.Kthread
