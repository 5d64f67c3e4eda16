import Yaos.Lib.Run
import Yaos.Tasklet.Lists

/-!
# What happens to a scheduled tasklet

The calls of one CPU in any order, with the statements of an action
between them. `Sound` is what the lists and the record of the actions have
to be in every state: the queues are well formed, a tasklet is somewhere
exactly if its bit is set, and it has run as often as it was scheduled, up
to the one run that is outstanding.

`__tasklet_hi_schedule_first` does not touch the tail. On an empty list the
tail stays `&tasklet_hi_vec.head`, so the next tasklet scheduled there
overwrites the head and the first one is gone with its bit set: a run is
sound exactly if that function is never used on an empty list.
-/

namespace Yaos.Tasklet

open Yaos.Lib
open Function (update update_self update_of_ne)

/-! ## What an action stands for -/

/-- The tasklet that is on no list because the action has it. -/
def Pc.held : Pc → List Nat
  | .got t | .locked t | .enabled t | .requeue t => [t]
  | .loop | .calling _ => []

/-- The tasklet whose `TASKLET_STATE_RUN` the action has set. -/
def Pc.lock : Pc → Option Nat
  | .locked t | .enabled t | .calling t => some t
  | .loop | .got _ | .requeue _ => none

/-- The tasklet in hand that the action has not decided about. -/
def Pc.unseen : Pc → List Nat
  | .got t | .locked t => [t]
  | .loop | .enabled _ | .calling _ | .requeue _ => []

/-- The tasklet found enabled and not yet called. -/
def Pc.due : Pc → List Nat
  | .enabled t => [t]
  | .loop | .got _ | .locked _ | .calling _ | .requeue _ => []

/-- How many statements are left for the tasklet in hand. -/
def Pc.left : Pc → Nat
  | .loop => 0
  | .got _ => 4
  | .locked _ => 3
  | .enabled _ => 2
  | .calling _ | .requeue _ => 1

def State.list (s : State) : Option Nat := s.act.bind Action.list
def State.rest (s : State) : List Nat := s.act.elim [] Action.rest
def State.held (s : State) : List Nat := s.act.elim [] fun a => a.pc.held
def State.lock (s : State) : Option Nat := s.act.bind fun a => a.pc.lock

/-- The record of an action under way: it decides about what it detached in
order, calls what it finds enabled, and takes at most five statements for
each. -/
structure Action.Exact (a : Action) : Prop where
  taken : a.seen.map Prod.fst ++ (a.pc.unseen ++ a.rest) = a.taken
  runs : a.runs ++ a.pc.due = (a.seen.filter Prod.snd).map Prod.fst
  steps : a.steps + (a.pc.left + 5 * a.rest.length) ≤ 5 * a.taken.length

/-- The record of a finished action: it decided about all it detached and
called exactly those it found enabled. -/
structure Action.Done (a : Action) : Prop where
  taken : a.seen.map Prod.fst = a.taken
  runs : a.runs = (a.seen.filter Prod.snd).map Prod.fst

structure Inv (s : State) : Prop where
  placed : Placed s s.list s.held s.rest
  locked : ∀ t, s.run t = true ↔ s.lock = some t
  balance : ∀ t, s.scheduled t = s.ran t + (s.sched t).toNat
  exact : ∀ a, s.act = some a → a.Exact
  ended : ∀ a ∈ s.ended, a.Done

/-- And the action under way can go on. -/
structure Sound (s : State) : Prop extends Inv s where
  live : ∀ a, s.act = some a → ∃ s', advance s a = .ok s'

/-! ## Runs -/

inductive Op where
  | taskletSchedule (t : Nat)
  | taskletHiSchedule (t : Nat)
  | taskletHiScheduleFirst (irqsDisabled : Bool) (t : Nat)
  | taskletDisableNosync (t : Nat)
  | taskletEnable (t : Nat)
  | taskletAction
  | taskletHiAction
  | advance

def Step (s : State) (op : Op) (s' : State) : Prop :=
  match op with
  | .taskletSchedule t => s' = Tasklet.taskletSchedule s t
  | .taskletHiSchedule t => s' = Tasklet.taskletHiSchedule s t
  | .taskletHiScheduleFirst irqs t => Tasklet.taskletHiScheduleFirst irqs s t = .ok s'
  | .taskletDisableNosync t => s' = Tasklet.taskletDisableNosync s t
  | .taskletEnable t => s' = Tasklet.taskletEnable s t
  | .taskletAction => s.act = none ∧ s' = Tasklet.taskletAction s
  | .taskletHiAction => s.act = none ∧ s' = Tasklet.taskletHiAction s
  | .advance => ∃ a, s.act = some a ∧ Tasklet.advance s a = .ok s'

/-- An effective `tasklet_hi_schedule_first` finds a tasklet on the list. -/
def Guard (s : State) : Op → Prop
  | .taskletHiScheduleFirst _ t => s.sched t = true ∨ (s.vec true).head ≠ none
  | _ => True

variable {s s' : State} {a : Action} {t : Nat}

theorem inv_boot (count : Nat → BitVec 32) : Inv (boot count) where
  placed := ⟨⟨fun _ => TailQueue.holds_empty _, .nil _⟩, List.nodup_nil,
    by simp [boot, whole, State.held, State.rest]⟩
  locked := by simp [boot, State.lock]
  balance := by simp [boot]
  exact := by simp [boot]
  ended := by simp [boot]

/-! ## Scheduling -/

theorem balance_set (h : Inv s) (ht : ¬ s.sched t = true) (u : Nat) :
    (s.setSched t).scheduled u = (s.setSched t).ran u + ((s.setSched t).sched u).toNat := by
  have hb := h.balance u
  by_cases hu : u = t
  · subst hu
    simp only [State.setSched, update_self]
    rw [hb, Bool.eq_false_iff.mpr ht]
    rfl
  · simp only [State.setSched, update_of_ne hu]
    exact hb

theorem Inv.schedule (h : Inv s) (hi : Bool) (t : Nat) : Inv (schedule hi s t) := by
  unfold Tasklet.schedule
  split
  · exact h
  · rename_i ht
    exact ⟨h.placed.schedule ht hi, h.locked, balance_set h ht, h.exact, h.ended⟩

/-- `tasklet_hi_schedule_first` does nothing, or pushes a tasklet whose bit
was clear. -/
theorem taskletHiScheduleFirst_cases {irqs : Bool}
    (h : taskletHiScheduleFirst irqs s t = .ok s') :
    s.sched t = true ∧ s' = s ∨ ¬ s.sched t = true ∧ s' = (s.setSched t).push t := by
  unfold taskletHiScheduleFirst at h
  split at h
  · rename_i ht
    cases h
    exact .inl ⟨ht, rfl⟩
  · rename_i ht
    split at h
    · cases h
      exact .inr ⟨ht, rfl⟩
    · cases h

theorem Inv.hiScheduleFirst {irqs : Bool} (h : Inv s)
    (hg : s.sched t = true ∨ (s.vec true).head ≠ none)
    (hs : taskletHiScheduleFirst irqs s t = .ok s') : Inv s' := by
  rcases taskletHiScheduleFirst_cases hs with ⟨-, rfl⟩ | ⟨ht, rfl⟩
  · exact h
  · exact ⟨h.placed.first ht (hg.resolve_left ht), h.locked, balance_set h ht, h.exact, h.ended⟩

theorem hiScheduleFirst_stale (irqs : Bool) (h : Inv s) (ht : ¬ s.sched t = true)
    (hhead : (s.vec true).head = none) (hs : taskletHiScheduleFirst irqs s t = .ok s') :
    ¬ Inv s' := by
  rcases taskletHiScheduleFirst_cases hs with ⟨ht', -⟩ | ⟨-, rfl⟩
  · exact absurd ht' ht
  · intro h'
    have hq := h.placed.linked.queue true
    have hnil : s.on true = [] := Chain.nil_of_none (hhead ▸ hq.chain)
    rw [hnil] at hq
    exact hq.push_stale _ (h'.placed.linked.queue true)

/-! ## Actions -/

theorem Inv.begin (h : Inv s) (hact : s.act = none) (hi : Bool) : Inv (begin hi s) := by
  have hm : Marked s.sched (whole s.on []) := by
    have := h.placed.marked
    rw [State.held, State.rest, hact] at this
    exact this
  have hl := h.locked
  rw [State.lock, hact] at hl
  refine ⟨⟨h.placed.linked.detach hi, hm.perm (whole_detach hi)⟩, hl, h.balance, ?_, h.ended⟩
  intro a ha
  cases ha
  exact ⟨rfl, rfl, Nat.le_of_eq (by simp [Pc.left])⟩

theorem Inv.at (h : Inv s) (hact : s.act = some a) :
    Placed s a.list a.pc.held a.rest ∧ (∀ t, s.run t = true ↔ a.pc.lock = some t) ∧ a.Exact := by
  have hp := h.placed
  have hl := h.locked
  rw [State.list, State.held, State.rest, hact] at hp
  rw [State.lock, hact] at hl
  exact ⟨hp, hl, h.exact a hact⟩

theorem run_set {run : Nat → Bool} (h : ∀ u, run u = true ↔ none = some u) (t u : Nat) :
    update run t true u = true ↔ some t = some u := by
  by_cases hu : u = t
  · subst hu
    simp
  · rw [update_of_ne hu, h u]
    simp [Ne.symm hu]

theorem run_clear {run : Nat → Bool} (h : ∀ u, run u = true ↔ some t = some u) (u : Nat) :
    update run t false u = true ↔ none = some u := by
  by_cases hu : u = t
  · subst hu
    simp
  · rw [update_of_ne hu, h u]
    simp [Ne.symm hu]

theorem Inv.goto {a' : Action} {pc : Pc} (hp : Placed s a'.list pc.held a'.rest)
    (hl : ∀ t, s.run t = true ↔ pc.lock = some t)
    (hb : ∀ t, s.scheduled t = s.ran t + (s.sched t).toNat)
    (he : Action.Exact { a' with pc := pc, steps := a'.steps + 1 })
    (hd : ∀ a ∈ s.ended, a.Done) : Inv (s.goto a' pc) := by
  refine ⟨⟨hp.linked, hp.marked⟩, hl, hb, ?_, hd⟩
  intro b hb
  cases hb
  exact he

/-! One lemma for each place where the action can stand. -/

theorem Inv.advance_loop (h : Inv s) (hact : s.act = some a) (hpc : a.pc = .loop)
    (hs : advance s a = .ok s') : Inv s' := by
  obtain ⟨hp, hl, htaken, hruns, hsteps⟩ := h.at hact
  rw [hpc] at hp hl htaken hruns hsteps
  unfold advance at hs
  rw [hpc] at hs
  dsimp only at hs
  split at hs
  · rename_i hlist
    cases hs
    have hrest : a.rest = [] := Chain.nil_of_none (hlist ▸ hp.linked.list)
    rw [hrest] at hp htaken
    refine ⟨⟨⟨hp.linked.queue, .nil _⟩, hp.marked⟩, hl, h.balance, by simp, fun b hb => ?_⟩
    rcases List.mem_cons.mp hb with rfl | hb
    · exact ⟨by simpa [Pc.unseen] using htaken, by simpa [Pc.due] using hruns⟩
    · exact h.ended b hb
  · rename_i t hlist
    cases hs
    rw [hlist] at hp
    obtain ⟨hrest, hlinked⟩ := hp.linked.take
    have hm := hp.marked
    rw [hrest] at hm htaken hsteps
    refine Inv.goto ⟨hlinked, hm⟩ hl h.balance ⟨htaken, hruns, ?_⟩ h.ended
    simp only [Pc.left, List.length_cons] at hsteps ⊢
    omega

theorem Inv.advance_got (h : Inv s) (hact : s.act = some a) (hpc : a.pc = .got t)
    (hs : advance s a = .ok s') : Inv s' := by
  obtain ⟨hp, hl, htaken, hruns, hsteps⟩ := h.at hact
  rw [hpc] at hp hl htaken hruns hsteps
  -- no other action holds the lock on this CPU
  have hrun : ¬ s.run t = true := by
    rw [hl t]
    exact nofun
  unfold advance at hs
  rw [hpc] at hs
  dsimp only at hs
  rw [if_neg hrun] at hs
  cases hs
  refine Inv.goto ⟨hp.linked, hp.marked⟩ (run_set hl t) h.balance ⟨htaken, hruns, ?_⟩ h.ended
  simp only [Pc.left] at hsteps ⊢
  omega

theorem Inv.advance_locked (h : Inv s) (hact : s.act = some a) (hpc : a.pc = .locked t)
    (hs : advance s a = .ok s') : Inv s' := by
  obtain ⟨hp, hl, htaken, hruns, hsteps⟩ := h.at hact
  rw [hpc] at hp hl htaken hruns hsteps
  have hseen (b : Bool) : (a.see t b).seen.map Prod.fst ++ ([] ++ a.rest) = a.taken := by
    simpa [Action.see, Pc.unseen] using htaken
  simp only [Pc.left] at hsteps
  unfold advance at hs
  rw [hpc] at hs
  dsimp only at hs
  split at hs
  · cases hs
    refine Inv.goto hp hl h.balance ⟨hseen true, ?_, ?_⟩ h.ended
    · simpa [Action.see, Pc.due] using hruns
    · simp only [Pc.left, Action.see]
      omega
  · cases hs
    refine Inv.goto ⟨hp.linked, hp.marked⟩ (run_clear hl) h.balance ⟨hseen false, ?_, ?_⟩ h.ended
    · simpa [Action.see, Pc.due] using hruns
    · simp only [Pc.left, Action.see]
      omega

theorem balance_ran (h : Inv s) (ht : s.sched t = true) (u : Nat) :
    s.scheduled u =
      update s.ran t (s.ran t + 1) u + (update s.sched t false u).toNat := by
  have hb := h.balance u
  by_cases hu : u = t
  · subst hu
    rw [ht] at hb
    rw [update_self, update_self]
    exact hb
  · rw [update_of_ne hu, update_of_ne hu]
    exact hb

theorem Inv.advance_enabled (h : Inv s) (hact : s.act = some a) (hpc : a.pc = .enabled t)
    (hs : advance s a = .ok s') : Inv s' := by
  obtain ⟨hp, hl, htaken, hruns, hsteps⟩ := h.at hact
  rw [hpc] at hp hl htaken hruns hsteps
  unfold advance at hs
  rw [hpc] at hs
  dsimp only at hs
  split at hs
  · rename_i ht
    cases hs
    have hm := (hp.marked.perm (whole_cons t).symm).clear
    refine Inv.goto ⟨hp.linked, hm⟩ hl (balance_ran h ht) ⟨htaken, ?_, ?_⟩ h.ended
    · simpa [Pc.due] using hruns
    · simp only [Pc.left] at hsteps ⊢
      omega
  · cases hs

theorem Inv.advance (h : Inv s) (hact : s.act = some a) (hs : Tasklet.advance s a = .ok s') :
    Inv s' := by
  obtain ⟨hp, hl, htaken, hruns, hsteps⟩ := h.at hact
  cases hpc : a.pc with
  | loop => exact h.advance_loop hact hpc hs
  | got t => exact h.advance_got hact hpc hs
  | locked t => exact h.advance_locked hact hpc hs
  | enabled t => exact h.advance_enabled hact hpc hs
  | calling t =>
    rw [Tasklet.advance, hpc] at hs
    rw [hpc] at hp hl htaken hruns hsteps
    cases hs
    refine Inv.goto ⟨hp.linked, hp.marked⟩ (run_clear hl) h.balance ⟨htaken, hruns, ?_⟩ h.ended
    simp only [Pc.left] at hsteps ⊢
    omega
  | requeue t =>
    rw [Tasklet.advance, hpc] at hs
    rw [hpc] at hp hl htaken hruns hsteps
    cases hs
    refine Inv.goto (hp.requeue a.hi) hl h.balance ⟨htaken, hruns, ?_⟩ h.ended
    simp only [Pc.left] at hsteps ⊢
    omega

/-- `BUG()` is not reached: the tasklet in hand has its bit set. -/
theorem Inv.live (h : Inv s) (hact : s.act = some a) : ∃ s', Tasklet.advance s a = .ok s' := by
  obtain ⟨hp, -, -⟩ := h.at hact
  unfold Tasklet.advance
  split
  · split <;> exact ⟨_, rfl⟩
  · split <;> exact ⟨_, rfl⟩
  · split <;> exact ⟨_, rfl⟩
  · rename_i t hpc
    have ht : s.sched t = true := by
      rw [hp.marked.sched t, mem_whole, hpc]
      exact .inr List.mem_cons_self
    exact ⟨_, if_pos ht⟩
  · exact ⟨_, rfl⟩
  · exact ⟨_, rfl⟩

theorem Inv.sound (h : Inv s) : Sound s := ⟨h, fun _ => h.live⟩

theorem Inv.step {op : Op} (h : Inv s) (hg : Guard s op) (hs : Step s op s') : Inv s' := by
  cases op with
  | taskletSchedule t =>
    cases hs
    exact h.schedule false t
  | taskletHiSchedule t =>
    cases hs
    exact h.schedule true t
  | taskletHiScheduleFirst irqs t => exact h.hiScheduleFirst hg hs
  | taskletDisableNosync t | taskletEnable t =>
    cases hs
    exact ⟨⟨h.placed.linked, h.placed.marked⟩, h.locked, h.balance, h.exact, h.ended⟩
  | taskletAction =>
    obtain ⟨hact, rfl⟩ := hs
    exact h.begin hact false
  | taskletHiAction =>
    obtain ⟨hact, rfl⟩ := hs
    exact h.begin hact true
  | advance =>
    obtain ⟨a, hact, hs⟩ := hs
    exact h.advance hact hs

/-- A sound step was not `tasklet_hi_schedule_first` on an empty list. -/
theorem guard_of_sound {op : Op} (hs : Step s op s') (h : Inv s) (h' : Inv s') : Guard s op := by
  cases op with
  | taskletHiScheduleFirst irqs t =>
    by_contra hg
    obtain ⟨ht, hhead⟩ := not_or.mp hg
    exact hiScheduleFirst_stale irqs h ht (not_not.mp hhead) hs h'
  | _ => trivial

/-- **No tasklet is lost or run twice** in a run from boot exactly if
`tasklet_hi_schedule_first` is never effective on an empty list. -/
theorem tasklets_sound_iff {count : Nat → BitVec 32} {tr : List (Taken State Op)}
    (h : Trace Step (boot count) tr s) :
    (∀ x ∈ tr, Sound x.pre ∧ Sound x.post) ↔ ∀ x ∈ tr, Guard x.pre x.label := by
  constructor
  · intro hall x hx
    exact guard_of_sound (h.taken x hx) (hall x hx).1.toInv (hall x hx).2.toInv
  · intro hg x hx
    obtain ⟨hpre, hpost⟩ := (h.invariant Inv Guard (fun h hg hs => h.step hg hs)
      (inv_boot count) hg).2 x hx
    exact ⟨hpre.sound, hpost.sound⟩

/-- Two tasklets on the second list, the later one in front, and an action
that takes the first of them. -/
theorem tasklets_sound_two :
    ∃ tr s, Trace Step (boot fun _ => 0) tr s ∧ s.ran 1 = 1 ∧
      (∀ x ∈ tr, Guard x.pre x.label) ∧ ∀ x ∈ tr, Sound x.pre ∧ Sound x.post := by
  have h : Trace Step (boot fun _ => 0) _ _ :=
    .step (a := Op.taskletHiSchedule 0) rfl <|
    .step (a := Op.taskletHiScheduleFirst true 1) rfl <|
    .step (a := Op.taskletHiAction) ⟨rfl, rfl⟩ <|
    .step (a := Op.advance) ⟨_, rfl, rfl⟩ <|
    .step (a := Op.advance) ⟨_, rfl, rfl⟩ <|
    .step (a := Op.advance) ⟨_, rfl, rfl⟩ <|
    .step (a := Op.advance) ⟨_, rfl, rfl⟩ <| .done _
  refine ⟨_, _, h, rfl, ?guards, (tasklets_sound_iff h).mpr ?guards⟩
  simp only [List.forall_mem_cons]
  exact ⟨trivial, .inr (Option.some_ne_none 0), trivial, trivial, trivial, trivial, trivial,
    List.forall_mem_nil _⟩

/-- **A lost tasklet.** Tasklet 0 is scheduled first on the empty list, then
tasklet 1 behind it: tasklet 0 has its bit set, so it can not be scheduled
again, and only tasklet 1 is on a list. -/
theorem tasklets_sound_lost :
    ∃ tr s, Trace Step (boot fun _ => 0) tr s ∧
      tr.map Taken.label = [.taskletHiScheduleFirst true 0, .taskletHiSchedule 1] ∧
      s.sched 0 = true ∧ s.ran 0 = 0 ∧ s.act.isNone ∧ Chain s.next (s.vec false).head [] ∧
      Chain s.next (s.vec true).head [1] ∧ ¬ ∀ x ∈ tr, Sound x.pre ∧ Sound x.post := by
  refine ⟨_, _, .step (a := Op.taskletHiScheduleFirst true 0) rfl
    (.step (a := Op.taskletHiSchedule 1) rfl (.done _)), rfl, rfl, rfl, rfl, .nil _,
    .cons (.nil _), fun h => ?_⟩
  exact hiScheduleFirst_stale true (inv_boot _) Bool.false_ne_true rfl rfl
    (h _ List.mem_cons_self).2.toInv

end Yaos.Tasklet
