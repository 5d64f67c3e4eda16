import Yaos.Lib.Ring
import Yaos.Smp.Threads

/-!
# The lists that threads are put on (`kernel/kthread.c`, `kernel/smp.c`)

`create_thread_oncpu` puts a new thread on `kthread_create_list` and on the
`threads` list of its task. The first head is set up by `LIST_HEAD`. The other
one lies in a per-CPU `task_struct`, which is zero at the start and which
`softirq_init` clears again for the tasklet task. Nothing ever makes that head
point to itself, so the first `list_add` behind it writes to the `prev` of a
null pointer, and the `prev` of the head stays null.

A task is one of a CPU's per-CPU variables; its only thread is its
`mainthread`. The writes through a null pointer are counted, as the low memory
they go to is mapped.
-/

namespace Yaos.Smp.ThreadLists

open Yaos.Lib

/-- The per-CPU variables with a `task_struct`: `idle_task`, `tasklet_task`, and
those of other threads that are registered for every CPU. -/
inductive TaskVar where
  | idleTask
  | taskletTask
  | registered (n : Nat)
  deriving DecidableEq

structure Task where
  var : TaskVar
  cpu : Nat
  deriving DecidableEq

/-- The `list_head`s: `kthread_create_list`, the `threads` of a task, and the
`threads` and the `children` of its main thread. -/
inductive Head where
  | kthreadCreateList
  | threads (t : Task)
  | mainThreads (t : Task)
  | mainChildren (t : Task)
  deriving DecidableEq

/-- The links, the main threads, the writes through a null pointer so far, and
the tasks whose main thread has been created, the last one first. -/
structure State where
  links : Head → Links Head
  mainthread : Task → Thread
  nullWrites : Nat
  created : List Task

/-- `THREAD_IDLE`. -/
def threadIdle : BitVec 32 := 4#32

/-- `THREAD_LVL_IDLE`. -/
def threadLvlIdle : Nat := 4096

/-- `INIT_STACK_SIZE`. -/
def initStackSize : Nat := 4096

/-- The state before the first call: only `LIST_HEAD` has set up a list. -/
def boot : State where
  links
    | .kthreadCreateList => ⟨some .kthreadCreateList, some .kthreadCreateList⟩
    | _ => ⟨none, none⟩
  mainthread _ := zeroThread
  nullWrites := 0
  created := []

/-- `list_add`. -/
def listAdd (s : State) (new head : Head) : State :=
  { s with
    links := addAfter s.links new head
    nullWrites := s.nullWrites + (s.links head).next.isNone.toNat }

/-- What `create_thread_oncpu` does with the lists once there is a stack. -/
def enlist (s : State) (t : Task) : State :=
  let s := listAdd s (.mainThreads t) .kthreadCreateList
  let s := listAdd s (.mainChildren t) (.threads t)
  { s with created := t :: s.created }

theorem enlist_links (s : State) (t : Task) : (enlist s t).links =
    addAfter (addAfter s.links (.mainThreads t) .kthreadCreateList) (.mainChildren t)
      (.threads t) := rfl

def State.setMain (s : State) (t : Task) (p : Thread) : State :=
  { s with mainthread := Function.update s.mainthread t p }

/-- `init_idle_thread` on a CPU whose `init_stack` is at `initStack`. -/
def initIdleThread (answer : Nat) (s : State) (initStack cpu : Nat) : Int × State :=
  let t : Task := ⟨.idleTask, cpu⟩
  let p := { s.mainthread t with
    stackAddr := initStack, stackSize := initStackSize, flag := threadIdle, realParent := 0,
    lvl := threadLvlIdle }
  let (ret, p) := createThreadOncpu answer p cpu
  if ret ≠ 0 then (ret, s.setMain t p)
  else (0, (enlist s t).setMain t { p with state := .run })

/-- `smp_create_thread` for the task variable `var` of `ht`. -/
def smpCreate (fuel : Nat) (heap : Kheap.State) (s : State) (var : TaskVar) (ht : PercpuThread)
    (cpu current answer : Nat) : Outcome (Int × State × Kheap.State) := do
  let t : Task := ⟨var, cpu⟩
  let (ret, p, heap) ← smpCreateThread fuel heap (s.mainthread t) ht cpu current answer
  if ret ≠ 0 then .ok (ret, s.setMain t p, heap)
  else .ok (0, (enlist s t).setMain t p, heap)

/-- What `softirq_init` does with the tasklet task of its CPU. -/
def softirqInit (s : State) (cpu : Nat) : State :=
  let t : Task := ⟨.taskletTask, cpu⟩
  { s.setMain t zeroThread with
    links := fun
      | .threads u => if u = t then ⟨none, none⟩ else s.links (.threads u)
      | .mainThreads u => if u = t then ⟨none, none⟩ else s.links (.mainThreads u)
      | .mainChildren u => if u = t then ⟨none, none⟩ else s.links (.mainChildren u)
      | .kthreadCreateList => s.links .kthreadCreateList }

/-! ## Runs -/

inductive Call where
  | initIdleThread (initStack cpu : Nat)
  | smpCreateThread (var : TaskVar) (ht : PercpuThread) (cpu : Nat)
  | softirqInit (cpu : Nat)

def Call.task : Call → Task
  | .initIdleThread _ cpu => ⟨.idleTask, cpu⟩
  | .smpCreateThread var _ cpu => ⟨var, cpu⟩
  | .softirqInit cpu => ⟨.taskletTask, cpu⟩

/-- One successful call, whatever the heap and `alloc_vm_stack` are like by
then. -/
def Step (s : State) (c : Call) (s' : State) : Prop :=
  match c with
  | .initIdleThread initStack cpu => ∃ answer, initIdleThread answer s initStack cpu = (0, s')
  | .smpCreateThread var ht cpu => ∃ fuel heap current answer heap',
      smpCreate fuel heap s var ht cpu current answer = .ok (0, s', heap')
  | .softirqInit cpu => s' = softirqInit s cpu

/-- `kthread_create_list` is a list with every created thread once. -/
def State.CreateListOk (s : State) : Prop :=
  ∃ l, LinkRing s.links .kthreadCreateList l ∧ ∀ t ∈ s.created, l.count (.mainThreads t) = 1

/-- The `threads` of a task are a list with its thread once, if that has been
created. -/
def State.ThreadsOk (s : State) (t : Task) : Prop :=
  ∃ l, LinkRing s.links (.threads t) l ∧ (t ∈ s.created → l.count (.mainChildren t) = 1)

/-- All lists are well formed and no write went through a null pointer. -/
structure State.ListsOk (s : State) : Prop where
  createList : s.CreateListOk
  threads : ∀ t, s.ThreadsOk t
  nullWrites : s.nullWrites = 0

/-! ## What a call does -/

section Steps

variable {s s' : State} {c : Call} {t u : Task}

theorem Step.cases (h : Step s c s') :
    (∃ p, s' = (enlist s c.task).setMain c.task p) ∨
      ∃ cpu, c.task = ⟨.taskletTask, cpu⟩ ∧ s' = softirqInit s cpu := by
  cases c with
  | initIdleThread initStack cpu =>
    obtain ⟨answer, h⟩ := h
    rw [initIdleThread] at h
    dsimp only at h
    split at h
    next hret => exact absurd (congrArg Prod.fst h) hret
    · left
      exact ⟨_, (congrArg Prod.snd h).symm⟩
  | smpCreateThread var ht cpu =>
    obtain ⟨fuel, heap, current, answer, heap', h⟩ := h
    rw [smpCreate] at h
    cases hc : smpCreateThread fuel heap (s.mainthread ⟨var, cpu⟩) ht cpu current answer with
    | error e =>
      rw [hc] at h
      cases h
    | ok r =>
      obtain ⟨ret, p, heap₁⟩ := r
      rw [hc] at h
      change (if ret ≠ 0 then _ else _) = _ at h
      split at h
      next hret => exact absurd (congrArg Prod.fst (Except.ok.inj h)) hret
      · left
        exact ⟨p, (congrArg (fun r => r.2.1) (Except.ok.inj h)).symm⟩
  | softirqInit cpu =>
    right
    exact ⟨cpu, rfl, h⟩

/-- What always holds of the links: the `prev` of a task's list head is null, and
only nodes stand behind the heads. -/
structure Inv (s : State) : Prop where
  prev : ∀ t, (s.links (.threads t)).prev = none
  next : ∀ t, (s.links (.threads t)).next = none ∨
    (s.links (.threads t)).next = some (.mainChildren t)
  createList : ∀ t, (s.links .kthreadCreateList).next ≠ some (.threads t)
  fresh : s.created = [] → ∀ t, (s.links (.threads t)).next = none
  nullWrites : s.created ≠ [] → 0 < s.nullWrites

theorem inv_boot : Inv boot where
  prev _ := rfl
  next _ := .inl rfl
  createList t h := by cases h
  fresh _ _ := rfl
  nullWrites h := absurd rfl h

theorem Inv.next_ne (h : Inv s) {x : Head} (hx : x ≠ .mainChildren t) :
    (s.links (.threads t)).next ≠ some x := by
  intro heq
  rcases h.next t with hn | hn
  · rw [hn] at heq
    cases heq
  · rw [hn] at heq
    exact hx (Option.some.inj heq).symm

/-- The first `list_add` does not change the heads of the tasks' lists. -/
theorem Inv.addAfter_threads (h : Inv s) :
    addAfter s.links (.mainThreads t) .kthreadCreateList (.threads u) = s.links (.threads u) := by
  apply addAfter_of_ne
  · exact Head.noConfusion
  · exact Head.noConfusion
  · exact h.createList u

theorem Inv.enlist_prev (h : Inv s) : ((enlist s t).links (.threads u)).prev = none := by
  rw [enlist_links, addAfter_prev Head.noConfusion, if_neg Head.noConfusion, if_neg,
    h.addAfter_threads]
  · exact h.prev u
  · rw [h.addAfter_threads]
    exact h.next_ne Head.noConfusion

theorem Inv.enlist_next (h : Inv s) : ((enlist s t).links (.threads u)).next =
    if u = t then some (.mainChildren t) else (s.links (.threads u)).next := by
  rw [enlist_links, addAfter_next]
  by_cases hu : u = t
  · rw [if_pos hu, if_pos (congrArg Head.threads hu)]
  · rw [if_neg hu, if_neg fun heq => hu (Head.threads.inj heq), if_neg Head.noConfusion,
      h.addAfter_threads]

theorem enlist_createList :
    ((enlist s t).links .kthreadCreateList).next ≠ some (.threads u) := by
  rw [enlist_links, addAfter_next, if_neg Head.noConfusion, if_neg Head.noConfusion, addAfter_next,
    if_pos rfl]
  exact fun heq => Head.noConfusion (Option.some.inj heq)

theorem Inv.enlist_nullWrites (h : Inv s) : 0 < (enlist s t).nullWrites := by
  have heq : (enlist s t).nullWrites = s.nullWrites +
      (s.links .kthreadCreateList).next.isNone.toNat +
      (s.links (.threads t)).next.isNone.toNat := by
    rw [← h.addAfter_threads (t := t) (u := t)]
    rfl
  by_cases hc : s.created = []
  · rw [heq, h.fresh hc t]
    exact Nat.succ_pos _
  · have := h.nullWrites hc
    omega

theorem Inv.enlist (h : Inv s) : Inv (enlist s t) where
  prev _ := h.enlist_prev
  next u := by
    rw [h.enlist_next]
    split
    next hu =>
      right
      rw [hu]
    · exact h.next u
  createList _ := enlist_createList
  fresh hc := absurd hc (List.cons_ne_nil _ _)
  nullWrites _ := h.enlist_nullWrites

theorem Inv.softirqInit {cpu : Nat} (h : Inv s) : Inv (softirqInit s cpu) := by
  have hthreads : ∀ u, (ThreadLists.softirqInit s cpu).links (.threads u) =
      if u = ⟨.taskletTask, cpu⟩ then ⟨none, none⟩ else s.links (.threads u) := fun _ => rfl
  constructor
  · intro u
    rw [hthreads]
    split
    · rfl
    · exact h.prev u
  · intro u
    rw [hthreads]
    split
    · left
      rfl
    · exact h.next u
  · exact h.createList
  · intro hc u
    rw [hthreads]
    split
    · rfl
    · exact h.fresh hc u
  · exact h.nullWrites

theorem Inv.step (h : Inv s) (hs : Step s c s') : Inv s' := by
  rcases hs.cases with ⟨p, rfl⟩ | ⟨cpu, -, rfl⟩
  · obtain ⟨hprev, hnext, hcreate, hfresh, hnull⟩ := h.enlist (t := c.task)
    exact ⟨hprev, hnext, hcreate, hfresh, hnull⟩
  · exact h.softirqInit

theorem Inv.not_threadsOk (h : Inv s) : ¬ s.ThreadsOk t := by
  rintro ⟨l, hring, -⟩
  exact hring.prev_ne_none (h.prev t)

end Steps

/-- After any calls no task's `threads` are a list, and once a thread has been
created a write went through a null pointer. -/
theorem lists_never_ok {tr : List (Taken State Call)} {s : State} (h : Trace Step boot tr s) :
    ¬ s.ListsOk ∧ (∀ t, ¬ s.ThreadsOk t) ∧ (s.created ≠ [] → 0 < s.nullWrites) := by
  have hi : Inv s := (h.always Inv (fun hi hs => hi.step hs) inv_boot).1
  have hthreads : ∀ t, ¬ s.ThreadsOk t := fun t => hi.not_threadsOk
  exact ⟨fun hok => hthreads ⟨.idleTask, 0⟩ (hok.threads _), hthreads, hi.nullWrites⟩

/-- The state after `init_idle_thread` on the boot processor, with its
`init_stack` at 1M. -/
def idleCreated : State := (initIdleThread 0 boot 0x100000 0).2

theorem trace_idleCreated :
    Trace Step boot [⟨boot, .initIdleThread 0x100000 0, idleCreated⟩] idleCreated :=
  .step ⟨0, rfl⟩ (.done _)

/-- The idle thread is not on a list of its task. -/
theorem lists_never_ok_idle : idleCreated.created = [⟨.idleTask, 0⟩] ∧ ¬ idleCreated.ListsOk :=
  ⟨rfl, (lists_never_ok trace_idleCreated).1⟩

/-- The first thread of all: `kthread_create_list` is as it should be, but there was
one write through a null pointer, and the head of the list behind which the thread
stands has no predecessor. -/
theorem idle_thread_unlinked :
    (∃ tr, Trace Step boot tr idleCreated) ∧ idleCreated.CreateListOk ∧ idleCreated.nullWrites = 1 ∧
      (idleCreated.links (.threads ⟨.idleTask, 0⟩)).next = some (.mainChildren ⟨.idleTask, 0⟩) ∧
      (idleCreated.links (.threads ⟨.idleTask, 0⟩)).prev = none ∧ ¬ idleCreated.ListsOk :=
  ⟨⟨_, trace_idleCreated⟩, ⟨[.mainThreads ⟨.idleTask, 0⟩], ⟨by decide, by decide⟩, by decide⟩, rfl, rfl,
    rfl, fun hok => Nat.one_ne_zero hok.nullWrites⟩

end Yaos.Smp.ThreadLists
