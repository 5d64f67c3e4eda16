import Mathlib.Logic.Function.Basic
import Yaos.Lib.Run

/-!
# Activations of per-CPU threads (`kernel/smp.c`)

Every CPU runs `init_percpu_thread` over the same list of registered
descriptors; `smp_create_thread` writes the number of its CPU into the
descriptor and starts a thread that gets the descriptor's address. At every
activation the thread reads the number from the descriptor again, once for
`thread_should_run` and once for `thread_fn`. With more than one CPU that is
the number of the CPU that was last to create its thread.

The steps are the accesses to `ht->cpu` and what lies between them, in any
order between the CPUs and the threads. A CPU or a thread may stop anywhere,
as it does after a panic.
-/

namespace Yaos.Smp.Activation

open Yaos.Lib Function

/-- Where a CPU is in `init_percpu_thread`: before the call of
`smp_create_thread` for the descriptor at this place of the list, or inside
it, behind `ht->cpu = cpu`. -/
inductive Boot where
  | next (d : Nat)
  | stored (d : Nat)
  deriving DecidableEq

/-- Where a thread is in `smp_thread_main`. -/
inductive Phase where
  /-- not yet resumed by `smp_create_thread` -/
  | absent
  /-- before the first `suspend_thread` -/
  | started
  | suspended
  /-- before `thread_should_run(ht->cpu)` -/
  | awake
  /-- before `thread_fn(ht->cpu)` -/
  | chosen
  deriving DecidableEq

/-- The descriptors and the threads; `cpu` is the field of each descriptor,
`created` has the calls of `smp_create_thread` so far, the last one first, as
pairs of descriptor and CPU. -/
structure State where
  nrCpu : Nat
  descs : Nat
  cpu : Nat → Nat
  boot : Nat → Boot
  phase : Nat → Nat → Phase
  created : List (Nat × Nat)

/-- `n` CPUs before `init_percpu_thread`, with `m` registered descriptors. -/
def init (n m : Nat) : State where
  nrCpu := n
  descs := m
  cpu _ := 0
  boot _ := .next 0
  phase _ _ := .absent
  created := []

/-- The steps of CPU `c`, and of the thread of descriptor `d` on CPU `c`. -/
inductive Event where
  /-- `ht->cpu = cpu` -/
  | store (c : Nat)
  /-- `resume_thread(&task->mainthread, (ulong) ht)` -/
  | resume (c : Nat)
  /-- the first `suspend_thread` -/
  | suspend (d c : Nat)
  /-- somebody wakes the thread -/
  | wake (d c : Nat)
  /-- `ht->thread_should_run(ht->cpu)`: the argument and the answer -/
  | shouldRun (d c arg : Nat) (answer : Bool)
  /-- `ht->thread_fn(ht->cpu)`: the argument -/
  | threadFn (d c arg : Nat)
  deriving DecidableEq

/-- The thread of `d` on CPU `c` goes on. -/
def State.setPhase (s : State) (d c : Nat) (p : Phase) : State :=
  { s with phase := update s.phase d (update (s.phase d) c p) }

/-- `ht->cpu = cpu` on CPU `c`. -/
def State.store (s : State) (d c : Nat) : State :=
  { s with
    cpu := update s.cpu d c
    boot := update s.boot c (.stored d)
    created := (d, c) :: s.created }

/-- The state after an event, if it can happen. -/
def State.step (s : State) : Event → Option State
  | .store c =>
      match s.boot c with
      | .next d =>
          if c < s.nrCpu ∧ d < s.descs then some (s.store d c) else none
      | .stored _ => none
  | .resume c =>
      match s.boot c with
      | .next _ => none
      | .stored d =>
          some { s.setPhase d c .started with boot := update s.boot c (.next (d + 1)) }
  | .suspend d c => if s.phase d c = .started then some (s.setPhase d c .suspended) else none
  | .wake d c => if s.phase d c = .suspended then some (s.setPhase d c .awake) else none
  | .shouldRun d c arg answer =>
      if s.phase d c = .awake ∧ arg = s.cpu d then
        some (s.setPhase d c (if answer then .chosen else .suspended))
      else none
  | .threadFn d c arg =>
      if s.phase d c = .chosen ∧ arg = s.cpu d then some (s.setPhase d c .suspended) else none

def Step (s : State) (e : Event) (t : State) : Prop := s.step e = some t

/-- A call is made with the number of the CPU the thread was started for. -/
def Event.Own : Event → Prop
  | .shouldRun _ c arg _ => arg = c
  | .threadFn _ c arg => arg = c
  | _ => True

/-- The CPU that was last to call `smp_create_thread` for the descriptor. -/
def State.latest (s : State) (d : Nat) : Option Nat :=
  (s.created.find? fun x => x.1 = d).map Prod.snd

/-- A call of the thread on CPU `c` is made while `c` is the last CPU that has
called `smp_create_thread` for the descriptor. -/
def Undisturbed (s : State) : Event → Prop
  | .shouldRun d c _ _ => s.latest d = some c
  | .threadFn d c _ => s.latest d = some c
  | _ => True

/-! ## The invariant -/

variable {n m d c : Nat} {s t : State} {e : Event}

/-- The descriptor holds the number that was stored last; a thread is there
only after a CPU stored its number. -/
structure Inv (n m : Nat) (s : State) : Prop where
  nrCpu : s.nrCpu = n
  descs : s.descs = m
  stores : ∀ x ∈ s.created, x.1 < m ∧ x.2 < n
  cpu : ∀ d c, s.latest d = some c → s.cpu d = c
  boot : ∀ d c, s.boot c = .stored d → c < n ∧ s.latest d ≠ none
  thread : ∀ d c, s.phase d c ≠ .absent → c < n ∧ s.latest d ≠ none

theorem inv_init (n m : Nat) : Inv n m (init n m) where
  nrCpu := rfl
  descs := rfl
  stores := by simp [init]
  cpu d c h := by simp [State.latest, init] at h
  boot d c h := by simp [init] at h
  thread d c h := absurd rfl h

theorem latest_cons (hcr : t.created = (d, c) :: s.created) (d' : Nat) :
    t.latest d' = if d = d' then some c else s.latest d' := by
  rw [State.latest, hcr, List.find?_cons]
  by_cases h : d = d'
  · simp [h]
  · simp [h, State.latest]

theorem latest_mem (h : s.latest d = some c) : (d, c) ∈ s.created := by
  obtain ⟨⟨d', c'⟩, hfind, rfl⟩ := Option.map_eq_some_iff.mp h
  obtain rfl : d' = d := by simpa using List.find?_some hfind
  exact List.mem_of_find?_eq_some hfind

theorem Inv.setPhase (h : Inv n m s) (hc : c < n) (hd : s.latest d ≠ none)
    (p : Phase) : Inv n m (s.setPhase d c p) := by
  refine { h with thread := fun d' c' hp => ?_ }
  by_cases hd' : d' = d
  · subst hd'
    by_cases hc' : c' = c
    · subst hc'
      exact ⟨hc, hd⟩
    · refine h.thread d' c' ?_
      simpa [State.setPhase, hc'] using hp
  · refine h.thread d' c' ?_
    simpa [State.setPhase, hd'] using hp

theorem Inv.store (h : Inv n m s) (hc : c < s.nrCpu) (hd : d < s.descs) :
    Inv n m (s.store d c) := by
  have hcons := latest_cons (s := s) (t := s.store d c) rfl
  have hkeep : ∀ d', s.latest d' ≠ none → (s.store d c).latest d' ≠ none := by
    intro d' hne
    rw [hcons]
    split
    · simp
    · exact hne
  refine ⟨h.nrCpu, h.descs, ?_, fun d' c' hl => ?_, fun d' c' hb => ?_, fun d' c' hp => ?_⟩
  · intro x hx
    rcases List.mem_cons.mp hx with rfl | hx
    · exact ⟨h.descs ▸ hd, h.nrCpu ▸ hc⟩
    · exact h.stores x hx
  · rw [hcons] at hl
    split at hl
    case isTrue heq =>
      subst heq
      cases hl
      simp [State.store]
    case isFalse hne => simpa [State.store, Ne.symm hne] using h.cpu d' c' hl
  · by_cases hc' : c' = c
    · subst hc'
      obtain rfl : d = d' := by simpa [State.store] using hb
      exact ⟨h.nrCpu ▸ hc, by simp [hcons]⟩
    · obtain ⟨hlt, hne⟩ := h.boot d' c' (by simpa [State.store, hc'] using hb)
      exact ⟨hlt, hkeep d' hne⟩
  · obtain ⟨hlt, hne⟩ := h.thread d' c' hp
    exact ⟨hlt, hkeep d' hne⟩

theorem Inv.step (h : Inv n m s) (hs : Step s e t) : Inv n m t := by
  have hphase : ∀ {d c : Nat} {p : Phase}, s.phase d c = p → p ≠ .absent →
      ∀ q, Inv n m (s.setPhase d c q) := by
    intro d c p hp hne q
    obtain ⟨hlt, hl⟩ := h.thread d c (by rw [hp]; exact hne)
    exact h.setPhase hlt hl q
  cases e with
  | store c =>
    rw [Step, State.step] at hs
    split at hs
    · split at hs
      case isTrue hlt =>
        cases hs
        exact h.store hlt.1 hlt.2
      case isFalse => cases hs
    · cases hs
  | resume c =>
    rw [Step, State.step] at hs
    split at hs
    · cases hs
    case h_2 d hb =>
      cases hs
      obtain ⟨hlt, hl⟩ := h.boot d c hb
      refine { h.setPhase hlt hl .started with boot := fun d' c' hb' => ?_ }
      by_cases hc' : c' = c
      · subst hc'
        simp at hb'
      · exact h.boot d' c' (by simpa [hc'] using hb')
  | suspend d c =>
    rw [Step, State.step] at hs
    split at hs
    case isTrue hp =>
      cases hs
      exact hphase hp (by decide) _
    case isFalse => cases hs
  | wake d c =>
    rw [Step, State.step] at hs
    split at hs
    case isTrue hp =>
      cases hs
      exact hphase hp (by decide) _
    case isFalse => cases hs
  | shouldRun d c arg answer =>
    rw [Step, State.step] at hs
    split at hs
    case isTrue hp =>
      cases hs
      exact hphase hp.1 (by decide) _
    case isFalse => cases hs
  | threadFn d c arg =>
    rw [Step, State.step] at hs
    split at hs
    case isTrue hp =>
      cases hs
      exact hphase hp.1 (by decide) _
    case isFalse => cases hs

/-! ## The calls -/

/-- The number in the descriptor is that of `c` exactly if `c` stored last. -/
theorem Inv.cpu_eq_iff (h : Inv n m s) (hp : s.phase d c ≠ .absent) :
    s.cpu d = c ↔ s.latest d = some c := by
  obtain ⟨-, hne⟩ := h.thread d c hp
  obtain ⟨c', hl⟩ := Option.ne_none_iff_exists'.mp hne
  rw [h.cpu d c' hl, hl, Option.some_inj]

theorem Inv.own_iff (h : Inv n m s) (hs : Step s e t) : e.Own ↔ Undisturbed s e := by
  cases e with
  | store c => exact Iff.rfl
  | resume c => exact Iff.rfl
  | suspend d c => exact Iff.rfl
  | wake d c => exact Iff.rfl
  | shouldRun d c arg answer =>
    rw [Step, State.step] at hs
    split at hs
    case isTrue hp =>
      obtain ⟨hp, rfl⟩ := hp
      exact h.cpu_eq_iff (by rw [hp]; decide)
    case isFalse => cases hs
  | threadFn d c arg =>
    rw [Step, State.step] at hs
    split at hs
    case isTrue hp =>
      obtain ⟨hp, rfl⟩ := hp
      exact h.cpu_eq_iff (by rw [hp]; decide)
    case isFalse => cases hs

theorem Inv.undisturbed (h : Inv n m s) (hs : Step s e t) (hn : n ≤ 1 ∨ m = 0) :
    Undisturbed s e := by
  have hone : ∀ d c, s.phase d c ≠ .absent → s.latest d = some c := by
    intro d c hp
    obtain ⟨hlt, hne⟩ := h.thread d c hp
    obtain ⟨c', hl⟩ := Option.ne_none_iff_exists'.mp hne
    obtain ⟨hd, hc'⟩ := h.stores _ (latest_mem hl)
    rw [hl]
    congr 1
    simp only at hd hc'
    omega
  cases e with
  | store c => trivial
  | resume c => trivial
  | suspend d c => trivial
  | wake d c => trivial
  | shouldRun d c arg answer =>
    rw [Step, State.step] at hs
    split at hs
    case isTrue hp => exact hone d c (by rw [hp.1]; decide)
    case isFalse => cases hs
  | threadFn d c arg =>
    rw [Step, State.step] at hs
    split at hs
    case isTrue hp => exact hone d c (by rw [hp.1]; decide)
    case isFalse => cases hs

/-! ## Runs -/

/-- Every call of the run is made with the number of the thread's own CPU. -/
def AllOwn (tr : List (Taken State Event)) : Prop := ∀ x ∈ tr, x.label.Own

theorem allOwn_iff_undisturbed {tr : List (Taken State Event)} (h : Trace Step (init n m) tr t) :
    AllOwn tr ↔ ∀ x ∈ tr, Undisturbed x.pre x.label := by
  have hinv := (h.always (Inv n m) (fun hi hs => hi.step hs) (inv_init n m)).2
  constructor
  · intro hown x hx
    exact ((hinv x hx).1.own_iff (h.taken x hx)).mp (hown x hx)
  · intro hund x hx
    exact ((hinv x hx).1.own_iff (h.taken x hx)).mpr (hund x hx)

/-- With a second CPU, the thread of the first one is asked for the second:
CPU 0 creates its thread, CPU 1 stores its number, and the thread of CPU 0
wakes up. -/
theorem race (hn : 1 < n) (hm : 0 < m) :
    ∃ tr t, Trace Step (init n m) tr t ∧ ¬ AllOwn tr := by
  have htr : Trace Step (init n m) _ _ :=
    .step (a := Event.store 0) (t := (init n m).store 0 0) (if_pos ⟨Nat.zero_lt_of_lt hn, hm⟩)
      (.step (a := Event.resume 0) rfl (.step (a := Event.suspend 0 0) rfl
      (.step (a := Event.store 1) (if_pos ⟨hn, hm⟩) (.step (a := Event.wake 0 0) rfl
      (.step (a := Event.shouldRun 0 0 1 true) rfl (.done _))))))
  refine ⟨_, _, htr, fun hall => ?_⟩
  simp [AllOwn, Event.Own] at hall

/-- **The argument of the calls**: in every run it is the number of the
thread's own CPU exactly if, at each call, that CPU was the last one to create
its thread of the descriptor; and it is so in all runs exactly if there is one
CPU at most, or no descriptor. -/
theorem own_cpu_iff (n m : Nat) :
    (∀ tr t, Trace Step (init n m) tr t →
      (AllOwn tr ↔ ∀ x ∈ tr, Undisturbed x.pre x.label)) ∧
    ((∀ tr t, Trace Step (init n m) tr t → AllOwn tr) ↔ n ≤ 1 ∨ m = 0) := by
  refine ⟨fun tr t h => allOwn_iff_undisturbed h, fun hall => ?_, fun hn tr t h => ?_⟩
  · by_contra hno
    obtain ⟨tr, t, h, hnot⟩ := race (n := n) (m := m) (by omega) (by omega)
    exact hnot (hall tr t h)
  · have hinv := (h.always (Inv n m) (fun hi hs => hi.step hs) (inv_init n m)).2
    exact (allOwn_iff_undisturbed h).mpr fun x hx =>
      (hinv x hx).1.undisturbed (h.taken x hx) hn

/-- One CPU and one descriptor. -/
theorem own_cpu_single : ∀ tr t, Trace Step (init 1 1) tr t → AllOwn tr :=
  (own_cpu_iff 1 1).2.mpr (.inl (by decide))

/-- Two CPUs and one descriptor: the thread of CPU 0 asks for CPU 1. -/
theorem two_cpus_race : ∃ tr t, Trace Step (init 2 1) tr t ∧ ¬ AllOwn tr :=
  race (by decide) (by decide)

end Yaos.Smp.Activation
