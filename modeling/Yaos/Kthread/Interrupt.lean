import Yaos.Kthread.Stack

/-!
# Interrupts inside `suspend_thread`

`suspend_thread` runs with interrupts enabled, so it is cut at its
statements; `Pc` is where it stands, with its local variables, and every
thread has its own, since an interrupt may switch away from a thread in
the middle of it. The interrupt is the timer's: its handler calls
`raise_softirq`, and that wakes the tasklet thread. The other calls, and
`suspend_thread` with interrupts disabled, are one step.

From `pcpu->current_thread = p` up to the switch, `current_thread` is not
the thread on the CPU. `wake_up_thread` saves the stack pointer into
`current_thread`, so every switch is as it should be exactly if no
interrupt switches there.

That is the property of the thread a switch leaves in the middle. Which
stack its pointer is in is another matter: `init_idt` and `switchtrap` run a
first handler on the IRQ stack of the CPU (`Machine`), so a handler that
wakes the tasklet thread saves a pointer into no thread's stack.
-/

namespace Yaos.Kthread

open Yaos.Lib Function

/-- The next statement of `suspend_thread`. `was` is a record of what
`p->state` was, which the code does not keep. -/
inductive Pc (Tid : Type) where
  /-- `pold = pcpu->current_thread` -/
  | enter
  /-- `p = pold->parent` -/
  | read (old : Tid)
  /-- `ASSERT(p != pold); if (unlikely(!p))` -/
  | parent (old : Tid) (p : Option Tid)
  /-- `ASSERT(!(pold->flag & THREAD_SUSPEND))` -/
  | checked (old p : Tid)
  /-- `pold->flag |= THREAD_SUSPEND` -/
  | flag (old p : Tid)
  /-- `pcpu->current_thread = p` -/
  | publish (old p : Tid)
  /-- `p->state == THREAD_READY` -/
  | test (old p : Tid)
  /-- `p->state = THREAD_RUN` -/
  | store (old p : Tid) (first : Bool)
  /-- `thread_switch_first` or `thread_switch_to` up to its call -/
  | pass (old p : Tid) (first : Bool) (was : TState)
  /-- `switch_first` or `switch_to` -/
  | switch (old p : Tid) (ptr : Option (StackPtr Tid)) (was : TState)

/-- A CPU and the threads that are inside `suspend_thread`. -/
structure World (Tid : Type) where
  cpu : Cpu Tid
  frame : Tid → Option (Pc Tid)

variable {Tid : Type} [DecidableEq Tid]

/-- One statement of `suspend_thread`: the CPU, what is next and the switch
it made. -/
def statement (s : Cpu Tid) :
    Pc Tid → Outcome (Cpu Tid × Option (Pc Tid) × Option (Switch Tid))
  | .enter => .ok (s, some (.read s.current), none)
  | .read old => .ok (s, some (.parent old (s.threads old).parent), none)
  | .parent old p => do
      check (p ≠ some old)
      match p with
      | none => .error .panic
      | some p => .ok (s, some (.checked old p), none)
  | .checked old p => do
      check (!(s.threads old).suspended)
      .ok (s, some (.flag old p), none)
  | .flag old p =>
      .ok (s.upd old fun t => { t with flag := t.flag ||| threadSuspend },
        some (.publish old p), none)
  | .publish old p => .ok ({ s with current := p }, some (.test old p), none)
  | .test old p => .ok (s, some (.store old p (decide ((s.threads p).state = .ready))), none)
  | .store old p first =>
      .ok (s.upd p fun t => { t with state := .run },
        some (.pass old p first (s.threads p).state), none)
  | .pass old p true was => .ok (s, some (.switch old p none was), none)
  | .pass old p false was => do
      check ((s.threads p).rsp.isSome)
      .ok (s, some (.switch old p (s.threads p).rsp was), none)
  | .switch old p ptr _ => .ok ((s.switch p old ptr).1, none, (s.switch p old ptr).2)

/-- `wakeup_taskletd`; `taskletd` is the CPU's tasklet thread. -/
def wakeupTaskletd (fuel : Nat) (s : Cpu Tid) (taskletd : Tid) :
    Outcome (Cpu Tid × Option (Switch Tid)) :=
  if (s.threads taskletd).suspended then wakeUpThread fuel s taskletd else .ok (s, none)

/-- `raise_softirq`, without the pending bit it sets. -/
def raiseSoftirq (fuel : Nat) (s : Cpu Tid) (taskletd : Tid) (inTasklet : Bool) :
    Outcome (Cpu Tid × Option (Switch Tid)) :=
  if inTasklet then .ok (s, none) else wakeupTaskletd fuel s taskletd

/-- What happens on the CPU. -/
inductive Event (Tid : Type) where
  /-- a call of the running thread, in one step -/
  | call (c : Call Tid)
  /-- the running thread enters `suspend_thread` -/
  | suspend
  /-- its next statement -/
  | advance
  /-- an interrupt -/
  | irq
  /-- its handler calls `raise_softirq` -/
  | raise (inTasklet : Bool)
  /-- its handler returns -/
  | iret

/-- An event, with the switch it made. -/
structure Happened (Tid : Type) where
  event : Event Tid
  switch : Option (Switch Tid)

/-- A CPU and its interrupt handlers that have not returned, the newest first:
the thread that each interrupted, and whether it runs on the IRQ stack.
`irq_count` counts them from -1. -/
structure Machine (Tid : Type) extends World Tid where
  irqCount : Int
  handlers : List (Tid × Bool)

/-- The newest handler that runs in the place of `u`. -/
def Machine.handler (m : Machine Tid) (u : Tid) : Option (Tid × Bool) :=
  m.handlers.find? fun e => e.1 = u

/-- What runs in the place of `u` is on the IRQ stack. -/
def Machine.onIrqStack (m : Machine Tid) (u : Tid) : Bool := (m.handler u).elim false Prod.snd

/-- `switchtrap` up to the call of the handler: the first goes to the IRQ
stack, any other stays on the stack that it finds. -/
def switchtrap (m : Machine Tid) : Machine Tid :=
  let irqCount := m.irqCount + 1
  { m with
    irqCount := irqCount
    handlers := (m.cpu.running, if irqCount = 0 then true else m.onIrqStack m.cpu.running) ::
      m.handlers }

/-- `switchtrapret`. -/
def switchtrapret (m : Machine Tid) : Machine Tid :=
  { m with
    irqCount := m.irqCount - 1
    handlers := m.handlers.eraseP fun e => e.1 = m.cpu.running }

/-- One step: of a thread that no handler has interrupted, or of a handler in
the place of the thread that it has interrupted. -/
def Happens (taskletd : Tid) (m : Machine Tid) (a : Happened Tid) (m' : Machine Tid) : Prop :=
  match a.event with
  | .call c => m.handler m.cpu.running = none ∧ m.frame m.cpu.running = none ∧
      ∃ fuel s, exec fuel m.cpu c = .ok (s, a.switch) ∧ m' = { m with cpu := s }
  | .suspend => m.handler m.cpu.running = none ∧ m.frame m.cpu.running = none ∧
      a.switch = none ∧ m' = { m with frame := update m.frame m.cpu.running (some .enter) }
  | .advance => m.handler m.cpu.running = none ∧ ∃ pc s pc', m.frame m.cpu.running = some pc ∧
      statement m.cpu pc = .ok (s, pc', a.switch) ∧
      m' = { m with cpu := s, frame := update m.frame m.cpu.running pc' }
  | .irq => a.switch = none ∧ m' = switchtrap m
  | .raise inTasklet => (m.handler m.cpu.running).isSome ∧
      ∃ fuel s, raiseSoftirq fuel m.cpu taskletd inTasklet = .ok (s, a.switch) ∧
        m' = { m with cpu := s }
  | .iret => (m.handler m.cpu.running).isSome ∧ a.switch = none ∧ m' = switchtrapret m

/-- The pointer is saved into the thread that the switch leaves, and the one
loaded was saved when the target last left the CPU. -/
structure Own (s : Cpu Tid) (w : Switch Tid) : Prop where
  into : w.into = s.running
  saved : w.saved = ⟨s.running, s.clock⟩
  loads : LoadsOwn s w.next w.loaded

/-! ## The window -/

/-- The thread that `current_thread` already is. -/
def Pc.target : Pc Tid → Option Tid
  | .test _ p | .store _ p _ | .pass _ p _ _ | .switch _ p _ _ => some p
  | .enter | .read _ | .parent _ _ | .checked _ _ | .flag _ _ | .publish _ _ => none

/-- The target of the thread that is running. -/
def World.published (w : World Tid) : Option Tid := (w.frame w.cpu.running).bind Pc.target

/-- `raise_softirq` would switch to the tasklet thread. -/
structure Wakes (s : Cpu Tid) (taskletd : Tid) (inTasklet : Bool) : Prop where
  outside : inTasklet = false
  suspended : (s.threads taskletd).suspended = true
  other : taskletd ≠ s.current
  created : (s.threads taskletd).state ≠ .init
  level : (s.threads taskletd).lvl ≤ (s.threads s.current).lvl

/-- An interrupt that switches finds the running thread outside of the
window. -/
def Guard (taskletd : Tid) (w : World Tid) (e : Event Tid) : Prop :=
  ∀ b, e = .raise b → Wakes w.cpu taskletd b → w.published = none

/-- No interrupt that switches. -/
def Quiet (taskletd : Tid) (s : Cpu Tid) (e : Event Tid) : Prop :=
  ∀ b, e = .raise b → ¬ Wakes s taskletd b

/-! ## The invariant

In the window the CPU is a sound one but for `current_thread` and the
state of the target; `settle` puts both back. -/

/-- The CPU with the state of the target as it was. -/
def Pc.settle (s : Cpu Tid) : Pc Tid → Cpu Tid
  | .pass _ p _ was | .switch _ p _ was => s.upd p fun t => { t with state := was }
  | _ => s

/-- The CPU as if the running thread had not begun to switch. -/
def World.settled (w : World Tid) : Cpu Tid :=
  { (w.frame w.cpu.running).elim w.cpu (Pc.settle w.cpu) with current := w.cpu.running }

/-- The local variables of a `suspend_thread` of the thread `u`. -/
def Pc.Fits (s : Cpu Tid) (u : Tid) : Pc Tid → Prop
  | .enter => True
  | .read old | .parent old _ => old = u
  | .checked old p | .flag old p | .publish old p | .test old p => old = u ∧ p ≠ u
  | .store old p first => old = u ∧ p ≠ u ∧ (first = true ↔ (s.threads p).state = .ready)
  | .pass old p first was => old = u ∧ p ≠ u ∧ (first = true ↔ was = .ready) ∧
      (s.threads p).state = .run
  | .switch old p ptr was => old = u ∧ p ≠ u ∧ (s.threads p).state = .run ∧
      (was = .ready ∧ ptr = none ∨
        was ≠ .ready ∧ (s.threads p).rsp.isSome ∧ ptr = (s.threads p).rsp)

structure Inv (w : World Tid) : Prop where
  sound : Sound w.settled
  current : w.cpu.current = w.published.getD w.cpu.running
  others : ∀ u, u ≠ w.cpu.running → (w.frame u).bind Pc.target = none
  fits : ∀ u pc, w.frame u = some pc → pc.Fits w.cpu u

variable {w w' : World Tid} {s t : Cpu Tid} {frame : Tid → Option (Pc Tid)} {pc : Pc Tid}
  {u p taskletd : Tid}

omit [DecidableEq Tid] in
theorem Pc.Fits.congr (h : pc.Fits s u) (hpc : pc.target = none) : pc.Fits t u := by
  cases pc with
  | enter | read | parent | checked | flag | publish => exact h
  | test | store | pass | switch => cases hpc

omit [DecidableEq Tid] in
theorem Pc.Fits.prepared (h : pc.Fits s u) (hpre : Prepared s t) : pc.Fits t u := by
  cases pc with
  | enter | read | parent | checked | flag | publish | test => exact h
  | store | pass | switch =>
    simp only [Pc.Fits, hpre.state, hpre.rsp]
    exact h

omit [DecidableEq Tid] in
theorem Pc.Fits.target_ne (h : pc.Fits s u) (hp : pc.target = some p) : p ≠ u := by
  cases pc with
  | enter | read | parent | checked | flag | publish => cases hp
  | test old q =>
    cases hp
    exact h.2
  | store old q | pass old q | switch old q =>
    cases hp
    exact h.2.1

theorem Pc.settle_of_none (hpc : pc.target = none) : pc.settle s = s := by
  cases pc with
  | enter | read | parent | checked | flag | publish => rfl
  | test | store | pass | switch => cases hpc

theorem World.settled_of_none (h : w.published = none) (hc : w.cpu.current = w.cpu.running) :
    w.settled = w.cpu := by
  have hsettle : (w.frame w.cpu.running).elim w.cpu (Pc.settle w.cpu) = w.cpu := by
    unfold World.published at h
    cases hf : w.frame w.cpu.running with
    | none => rfl
    | some pc =>
      rw [hf] at h
      exact Pc.settle_of_none h
  rw [World.settled, hsettle]
  exact congrArg (fun u => { w.cpu with current := u }) hc.symm

theorem Inv.sound_cpu (h : Inv w) (hq : w.published = none) : Sound w.cpu := by
  have hc := h.current
  rw [hq] at hc
  exact World.settled_of_none hq hc ▸ h.sound

/-- And a sound CPU with nobody in the window is all there is to show. -/
theorem Inv.of_sound (h : Sound s) (hq : ∀ u, (frame u).bind Pc.target = none)
    (hfits : ∀ u pc, frame u = some pc → pc.Fits s u) : Inv ⟨s, frame⟩ where
  sound := by
    have hset : (⟨s, frame⟩ : World Tid).settled = s :=
      World.settled_of_none (hq s.running) h.current
    rw [hset]
    exact h
  current := by
    rw [World.published, hq s.running]
    exact h.current
  others u _ := hq u
  fits := hfits

theorem Inv.quiet (h : Inv w) (hq : w.published = none) (u : Tid) :
    (w.frame u).bind Pc.target = none := by
  by_cases hu : u = w.cpu.running
  · rw [hu]
    exact hq
  · exact h.others u hu

theorem Inv.move (h : Inv w) (hq : w.published = none) (ht : Sound t) : Inv ⟨t, w.frame⟩ := by
  refine .of_sound ht (h.quiet hq) fun u pc hpc => (h.fits u pc hpc).congr ?_
  have := h.quiet hq u
  rw [hpc] at this
  exact this

omit [DecidableEq Tid] in
theorem published_of_none (h : w.frame w.cpu.running = none) : w.published = none := by
  rw [World.published, h]
  rfl

/-! ## Calls and interrupts -/

omit [DecidableEq Tid] in
theorem Faithful.own {sw : Switch Tid} (h : Faithful s sw t) : Own s sw :=
  ⟨h.into, h.saved, h.loads⟩

theorem Inv.call {fuel : Nat} {c : Call Tid} {sw : Option (Switch Tid)} (h : Inv w)
    (hq : w.published = none) (hc : c ≠ .exit) (he : exec fuel w.cpu c = .ok (t, sw)) :
    Inv ⟨t, w.frame⟩ ∧ ∀ x, sw = some x → Own w.cpu x := by
  obtain ⟨ht, hf⟩ := (h.sound_cpu hq).exec hc he
  exact ⟨h.move hq ht, fun x hx => (hf x hx).own⟩

/-- What the interrupt does: it changes parents at most, or it wakes the
tasklet thread, and then saves into `current_thread`. -/
theorem raiseSoftirq_cases {fuel : Nat} {inTasklet : Bool} {sw : Option (Switch Tid)}
    (h : raiseSoftirq fuel s taskletd inTasklet = .ok (t, sw)) :
    ¬ Wakes s taskletd inTasklet ∧ sw = none ∧ Prepared s t ∧ t.current = s.current ∨
      Wakes s taskletd inTasklet ∧ exec fuel s (.wake taskletd) = .ok (t, sw) ∧
        ∃ x, sw = some x ∧ x.into = s.current := by
  unfold raiseSoftirq wakeupTaskletd at h
  split at h
  · rename_i hin
    cases h
    exact .inl ⟨fun hw => Bool.false_ne_true (hw.outside.symm.trans hin), rfl, .refl _, rfl⟩
  rename_i hin
  split at h
  · rename_i hsus
    have hexec : exec fuel s (.wake taskletd) = .ok (t, sw) := h
    rcases wakeUpThread_cases h with
      ⟨hno, rfl, rfl⟩ | ⟨hne, -, hinit, ⟨hlvl, hpar, rfl, rfl⟩ | ⟨hlvl, x, rfl, hsw⟩⟩
    · refine .inl ⟨fun hw => ?_, rfl, .refl _, rfl⟩
      rcases hno with heq | hinit | hsus'
      · exact hw.other heq
      · exact hw.created hinit
      · exact Bool.false_ne_true (hsus'.symm.trans hsus)
    · refine .inl ⟨fun hw => absurd hw.level (Nat.not_le_of_lt hlvl), rfl, ?_, rfl⟩
      have h₁ : Prepared s
          (s.upd taskletd fun x => { x with parent := (s.threads s.current).parent }) :=
        prepared_upd rfl rfl fun _ => hpar
      refine h₁.trans (prepared_upd rfl rfl fun _ => ?_)
      simpa using hne
    · refine .inr ⟨⟨Bool.eq_false_iff.mpr hin, hsus, hne, hinit, hlvl⟩, hexec, x, rfl, ?_⟩
      rw [hsw.shape]
  · rename_i hsus
    cases h
    exact .inl ⟨fun hw => hsus hw.suspended, rfl, .refl _, rfl⟩

theorem Pc.settle_parent (pc : Pc Tid) (s : Cpu Tid) (u : Tid) :
    ((pc.settle s).threads u).parent = (s.threads u).parent := by
  cases pc with
  | pass | switch =>
    simp only [Pc.settle, Cpu.upd_threads]
    split <;> rfl
  | _ => rfl

/-- Putting the state of the target back commutes with what an interrupt
without a switch does. -/
theorem Pc.settle_prepared (pc : Pc Tid) (h : Prepared s t) :
    Prepared (pc.settle s) (pc.settle t) := by
  cases pc with
  | pass old p first was | switch old p ptr was =>
    refine ⟨h.running, h.clock, h.away, fun u => ?_, fun u => ?_, fun hs u => ?_⟩
    · simp only [Pc.settle, Cpu.upd_threads]
      split <;> exact h.rsp u
    · simp only [Pc.settle, Cpu.upd_threads]
      split
      · rfl
      · exact h.state u
    · rw [Pc.settle_parent]
      refine h.noSelf (fun v => ?_) u
      rw [← Pc.settle_parent (.pass old p true was)]
      exact hs v
  | _ => exact h

theorem settled_eq (hf : w.frame w.cpu.running = some pc) :
    w.settled = { pc.settle w.cpu with current := w.cpu.running } := by
  rw [World.settled, hf]
  rfl

theorem Inv.disturb (h : Inv w) (hpre : Prepared w.cpu t) (hcur : t.current = w.cpu.current) :
    Inv ⟨t, w.frame⟩ := by
  have hrun := hpre.running
  refine ⟨?_, ?_, fun u hu => h.others u (hrun ▸ hu), fun u pc hpc => (h.fits u pc hpc).prepared hpre⟩
  · have hkeep : Prepared ((w.frame w.cpu.running).elim w.cpu (Pc.settle w.cpu))
        ((w.frame w.cpu.running).elim t (Pc.settle t)) := by
      cases w.frame w.cpu.running with
      | none => exact hpre
      | some pc => exact pc.settle_prepared hpre
    unfold World.settled
    rw [hrun]
    exact h.sound.prepared { hkeep with } rfl
  · unfold World.published
    rw [hcur, hrun]
    exact h.current

theorem Inv.current_ne (h : Inv w) (hp : w.published = some p) : w.cpu.current ≠ w.cpu.running := by
  rw [h.current, hp]
  unfold World.published at hp
  obtain ⟨pc, hf, hpc⟩ := Option.bind_eq_some_iff.mp hp
  exact (h.fits _ pc hf).target_ne hpc

/-- **The interrupt** keeps the invariant and switches as it should if it
makes no switch in the window. -/
theorem Inv.raise {fuel : Nat} {inTasklet : Bool} {sw : Option (Switch Tid)} (h : Inv w)
    (hg : Wakes w.cpu taskletd inTasklet → w.published = none)
    (he : raiseSoftirq fuel w.cpu taskletd inTasklet = .ok (t, sw)) :
    Inv ⟨t, w.frame⟩ ∧ ∀ x, sw = some x → Own w.cpu x := by
  rcases raiseSoftirq_cases he with ⟨-, rfl, hpre, hcur⟩ | ⟨hwakes, hexec, -⟩
  · exact ⟨h.disturb hpre hcur, nofun⟩
  · exact h.call (hg hwakes) (by simp) hexec

theorem Inv.raise_wrong {fuel : Nat} {inTasklet : Bool} {sw : Option (Switch Tid)} (h : Inv w)
    (hwakes : Wakes w.cpu taskletd inTasklet) (hp : w.published = some p)
    (he : raiseSoftirq fuel w.cpu taskletd inTasklet = .ok (t, sw)) :
    ∃ x, sw = some x ∧ ¬ Own w.cpu x := by
  rcases raiseSoftirq_cases he with ⟨hno, -⟩ | ⟨-, -, x, hx, hinto⟩
  · exact absurd hwakes hno
  · exact ⟨x, hx, fun hown => h.current_ne hp (hinto.symm.trans hown.into)⟩

/-! ## The statements of `suspend_thread` -/

theorem upd_state_back (s : Cpu Tid) (p : Tid) (a : TState) :
    (s.upd p fun t => { t with state := a }).upd p
      (fun t => { t with state := (s.threads p).state }) = s := by
  simp [Cpu.upd]

theorem Inv.next {pc' : Pc Tid} (h : Inv w) (hrun : t.running = w.cpu.running)
    (hs : Sound { pc'.settle t with current := w.cpu.running })
    (hcur : t.current = pc'.target.getD w.cpu.running) (hfits : pc'.Fits t w.cpu.running) :
    Inv ⟨t, update w.frame w.cpu.running (some pc')⟩ := by
  have hat : update w.frame w.cpu.running (some pc') t.running = some pc' := by
    rw [hrun, update_self]
  refine ⟨?_, ?_, fun u hu => ?_, fun u pc hpc => ?_⟩
  · rw [settled_eq hat, hrun]
    exact hs
  · show t.current = ((update w.frame w.cpu.running (some pc') t.running).bind
      Pc.target).getD t.running
    rw [hat, hrun]
    exact hcur
  · dsimp only at hu ⊢
    rw [hrun] at hu
    rw [update_of_ne hu]
    exact h.others u hu
  · dsimp only at hpc
    by_cases hu : u = w.cpu.running
    · subst hu
      rw [update_self] at hpc
      cases hpc
      exact hfits
    · rw [update_of_ne hu] at hpc
      have hq := h.others u hu
      rw [hpc] at hq
      exact (h.fits u pc hpc).congr hq

/-- The switch at the end is the one `suspend_thread` makes in one step. -/
theorem dispatch_settled {ptr : Option (StackPtr Tid)} {was : TState} (old : Tid)
    (hcur : s.current = p) (hrun : (s.threads p).state = .run)
    (hptr : was = .ready ∧ ptr = none ∨
      was ≠ .ready ∧ (s.threads p).rsp.isSome ∧ ptr = (s.threads p).rsp) :
    dispatch { s.upd p (fun t => { t with state := was }) with current := p } p old true =
      .ok (s.switch p old ptr) := by
  have hback : Cpu.upd { s.upd p (fun t => { t with state := was }) with current := p } p
      (fun t => { t with state := .run }) = s := by
    subst hcur
    have := upd_state_back s s.current was
    rw [hrun] at this
    exact this
  unfold dispatch
  rw [hback]
  rcases hptr with ⟨rfl, rfl⟩ | ⟨hwas, hsome, rfl⟩
  · rw [if_pos (by simp)]
  · rw [if_neg (by simpa using hwas)]
    simp [check, hsome]

theorem Inv.switch {ptr : Option (StackPtr Tid)} {was : TState} {old : Tid} (h : Inv w)
    (hf : w.frame w.cpu.running = some (.switch old p ptr was)) :
    Inv ⟨(w.cpu.switch p old ptr).1, update w.frame w.cpu.running none⟩ ∧
      ∀ x, (w.cpu.switch p old ptr).2 = some x → Own w.cpu x := by
  obtain ⟨rfl, hp, hrun, hptr⟩ := h.fits _ _ hf
  have hcur : w.cpu.current = p := by
    rw [h.current, World.published, hf]
    rfl
  have hs := h.sound
  rw [settled_eq hf] at hs
  obtain ⟨x, hx, hsw⟩ := dispatch_cases (dispatch_settled w.cpu.running hcur hrun hptr)
  obtain ⟨ht, hfaith⟩ := hs.switch ((Prepared.refl _).enter p) rfl hp hsw
  have hquiet : ∀ u, (update w.frame w.cpu.running none u).bind Pc.target = none := by
    intro u
    by_cases hu : u = w.cpu.running
    · rw [hu, update_self]
      rfl
    · rw [update_of_ne hu]
      exact h.others u hu
  refine ⟨.of_sound ht hquiet fun u pc hpc => ?_, fun y hy => ?_⟩
  · have hq := hquiet u
    rw [hpc] at hq
    by_cases hu : u = w.cpu.running
    · rw [hu, update_self] at hpc
      cases hpc
    · rw [update_of_ne hu] at hpc
      exact (h.fits u pc hpc).congr hq
  · obtain rfl : x = y := Option.some.inj (hx.symm.trans hy)
    exact ⟨hfaith.into, hfaith.saved, hfaith.loads⟩

/-- **A statement of `suspend_thread`** keeps the invariant, and the last
one switches as it should. -/
theorem Inv.statement {pc' : Option (Pc Tid)} {sw : Option (Switch Tid)} (h : Inv w)
    (hf : w.frame w.cpu.running = some pc) (he : statement w.cpu pc = .ok (t, pc', sw)) :
    Inv ⟨t, update w.frame w.cpu.running pc'⟩ ∧ ∀ x, sw = some x → Own w.cpu x := by
  have hs := h.sound
  rw [settled_eq hf] at hs
  have hcur : w.cpu.current = pc.target.getD w.cpu.running := by
    rw [h.current, World.published, hf]
    rfl
  have hfits := h.fits _ _ hf
  cases pc with
  | enter =>
    cases he
    exact ⟨h.next rfl hs hcur hcur, nofun⟩
  | read old =>
    cases he
    exact ⟨h.next rfl hs hcur hfits, nofun⟩
  | parent old p =>
    obtain ⟨_, hc, he⟩ := bind_eq_ok.mp he
    cases p with
    | none => cases he
    | some p =>
      cases he
      have hne : p ≠ old := by simpa using hc
      exact ⟨h.next rfl hs hcur ⟨hfits, fun heq => hne (heq.trans hfits.symm)⟩, nofun⟩
  | checked old p =>
    obtain ⟨_, -, he⟩ := bind_eq_ok.mp he
    cases he
    exact ⟨h.next rfl hs hcur hfits, nofun⟩
  | flag old p =>
    cases he
    have hflag : Sound (Cpu.upd { w.cpu with current := w.cpu.running } old fun t =>
        { t with flag := t.flag ||| threadSuspend }) :=
      Sound.prepared (s := { w.cpu with current := w.cpu.running }) hs (prepared_upd rfl rfl id) rfl
    exact ⟨h.next rfl hflag hcur hfits, nofun⟩
  | publish old p =>
    cases he
    exact ⟨h.next rfl hs rfl hfits, nofun⟩
  | test old p =>
    cases he
    exact ⟨h.next rfl hs hcur ⟨hfits.1, hfits.2, decide_eq_true_iff⟩, nofun⟩
  | store old p first =>
    cases he
    obtain ⟨hold, hp, hfirst⟩ := hfits
    refine ⟨h.next rfl ?_ hcur ⟨hold, hp, hfirst, by simp⟩, nofun⟩
    simp only [Pc.settle, upd_state_back]
    exact hs
  | pass old p first was =>
    obtain ⟨hold, hp, hfirst, hrun⟩ := hfits
    cases first with
    | true =>
      cases he
      exact ⟨h.next rfl hs hcur ⟨hold, hp, hrun, .inl ⟨hfirst.mp rfl, rfl⟩⟩, nofun⟩
    | false =>
      obtain ⟨_, hc, he⟩ := bind_eq_ok.mp he
      cases he
      have hwas : was ≠ .ready := fun heq => Bool.false_ne_true (hfirst.mpr heq)
      exact ⟨h.next rfl hs hcur ⟨hold, hp, hrun, .inr ⟨hwas, check_eq_ok.mp hc, rfl⟩⟩, nofun⟩
  | switch old p ptr was =>
    cases he
    exact h.switch hf

/-! ## Runs -/

theorem Boot.inv {idle : Tid} (h : Boot idle s) : Inv ⟨s, fun _ => none⟩ :=
  .of_sound h.sound (fun _ => rfl) nofun

variable {m m' : Machine Tid} {a : Happened Tid}

/-- **One step** that is no `exit_thread` and meets the guard. -/
theorem Inv.step (h : Inv m.toWorld) (hexit : a.event ≠ .call .exit)
    (hg : Guard taskletd m.toWorld a.event) (hs : Happens taskletd m a m') :
    Inv m'.toWorld ∧ ∀ x, a.switch = some x → Own m.cpu x := by
  obtain ⟨event, sw⟩ := a
  have hno : sw = none → ∀ x, sw = some x → Own m.cpu x := by
    rintro rfl x hx
    cases hx
  cases event with
  | call c =>
    obtain ⟨-, hf, fuel, s, he, rfl⟩ := hs
    exact h.call (published_of_none hf) (fun hc => hexit (congrArg Event.call hc)) he
  | suspend =>
    obtain ⟨-, hf, hsw, rfl⟩ := hs
    have hcpu := h.sound_cpu (published_of_none hf)
    have hcur := hcpu.current
    exact ⟨h.next rfl (hcpu.prepared { Prepared.refl m.cpu with } hcur.symm) hcur trivial, hno hsw⟩
  | advance =>
    obtain ⟨-, pc, s, pc', hf, he, rfl⟩ := hs
    exact h.statement hf he
  | irq =>
    obtain ⟨hsw, rfl⟩ := hs
    exact ⟨h, hno hsw⟩
  | raise inTasklet =>
    obtain ⟨-, fuel, s, he, rfl⟩ := hs
    exact h.raise (hg inTasklet rfl) he
  | iret =>
    obtain ⟨-, hsw, rfl⟩ := hs
    exact ⟨h, hno hsw⟩

/-- A step whose switch is as it should be met the guard. -/
theorem Inv.guard (h : Inv m.toWorld) (hs : Happens taskletd m a m')
    (hown : ∀ x, a.switch = some x → Own m.cpu x) : Guard taskletd m.toWorld a.event := by
  obtain ⟨event, sw⟩ := a
  rintro inTasklet rfl hwakes
  obtain ⟨-, fuel, s, he, rfl⟩ := hs
  by_contra hp
  obtain ⟨p, hp⟩ := Option.ne_none_iff_exists'.mp hp
  obtain ⟨x, hx, hbad⟩ := h.raise_wrong hwakes hp he
  exact hbad (hown x hx)

/-! ## The IRQ stack -/

theorem Machine.mem_of_handler {e : Tid × Bool} (h : m.handler u = some e) :
    e ∈ m.handlers ∧ e.1 = u :=
  ⟨List.mem_of_find?_eq_some h, by simpa using List.find?_some h⟩

theorem Machine.exists_of_onIrqStack (h : m.onIrqStack u = true) : (u, true) ∈ m.handlers := by
  rw [Machine.onIrqStack] at h
  cases hf : m.handler u with
  | none =>
    rw [hf] at h
    cases h
  | some e =>
    obtain ⟨v, irq⟩ := e
    obtain ⟨hmem, rfl⟩ := Machine.mem_of_handler hf
    rw [hf] at h
    obtain rfl : irq = true := h
    exact hmem

/-- What a step does to the handlers. -/
theorem Happens.cases (h : Happens taskletd m a m') :
    (a.switch = none ∧ m' = switchtrap m) ∨
    (a.switch = none ∧ (m.handler m.cpu.running).isSome ∧ m' = switchtrapret m) ∨
    ((m.handler m.cpu.running).isSome ∧ ∃ b fuel s, a.event = .raise b ∧
      raiseSoftirq fuel m.cpu taskletd b = .ok (s, a.switch) ∧ m' = { m with cpu := s }) ∨
    (m.handler m.cpu.running = none ∧ m'.irqCount = m.irqCount ∧
      m'.handlers = m.handlers) := by
  obtain ⟨event, sw⟩ := a
  cases event with
  | call c =>
    obtain ⟨hno, -, fuel, s, -, rfl⟩ := h
    exact .inr (.inr (.inr ⟨hno, rfl, rfl⟩))
  | suspend =>
    obtain ⟨hno, -, -, rfl⟩ := h
    exact .inr (.inr (.inr ⟨hno, rfl, rfl⟩))
  | advance =>
    obtain ⟨hno, pc, s, pc', -, -, rfl⟩ := h
    exact .inr (.inr (.inr ⟨hno, rfl, rfl⟩))
  | irq => exact .inl h
  | raise b =>
    obtain ⟨hin, fuel, s, he, rfl⟩ := h
    exact .inr (.inr (.inl ⟨hin, b, fuel, s, rfl, he, rfl⟩))
  | iret => exact .inr (.inl ⟨h.2.1, h.1, h.2.2⟩)

/-- The IRQ stack belongs to one thread at most. -/
structure Nested (m : Machine Tid) : Prop where
  count : m.irqCount = m.handlers.length - 1
  single : ∀ u v, (u, true) ∈ m.handlers → (v, true) ∈ m.handlers → u = v

theorem Nested.switchtrap (h : Nested m) : Nested (switchtrap m) := by
  refine ⟨by simp [Kthread.switchtrap, h.count], ?_⟩
  have hnew : ∀ u, (u, true) ∈ (Kthread.switchtrap m).handlers →
      m.handlers = [] ∧ u = m.cpu.running ∨ (u, true) ∈ m.handlers := by
    intro u hu
    rcases List.mem_cons.mp hu with heq | hu
    · obtain ⟨rfl, hirq⟩ := Prod.mk.inj heq
      split at hirq
      · refine .inl ⟨List.length_eq_zero_iff.mp ?_, rfl⟩
        have := h.count
        omega
      · exact .inr (Machine.exists_of_onIrqStack hirq.symm)
    · exact .inr hu
  intro u v hu hv
  rcases hnew u hu with ⟨hnil, rfl⟩ | hu
  · rcases hnew v hv with ⟨-, rfl⟩ | hv
    · rfl
    · rw [hnil] at hv
      cases hv
  · rcases hnew v hv with ⟨hnil, -⟩ | hv
    · rw [hnil] at hu
      cases hu
    · exact h.single u v hu hv

theorem Nested.switchtrapret (h : Nested m) (hin : (m.handler m.cpu.running).isSome) :
    Nested (switchtrapret m) := by
  refine ⟨?_, fun u v hu hv => h.single u v (List.mem_of_mem_eraseP hu) (List.mem_of_mem_eraseP hv)⟩
  obtain ⟨e, he⟩ := Option.isSome_iff_exists.mp hin
  have hmem := Machine.mem_of_handler he
  have hpos := List.length_pos_of_mem hmem.1
  have hlen : (Kthread.switchtrapret m).handlers.length = m.handlers.length - 1 :=
    List.length_eraseP_of_mem hmem.1 (by simp [hmem.2])
  rw [hlen, Kthread.switchtrapret, h.count]
  dsimp only
  omega

theorem Nested.step (h : Nested m) (hs : Happens taskletd m a m') : Nested m' := by
  rcases hs.cases with ⟨-, rfl⟩ | ⟨-, hin, rfl⟩ | ⟨-, b, fuel, s, -, -, rfl⟩ | ⟨-, hc, hh⟩
  · exact h.switchtrap
  · exact h.switchtrapret hin
  · exact ⟨h.count, h.single⟩
  · exact ⟨by rw [hc, hh, h.count], by rw [hh]; exact h.single⟩

/-- A step that switches is the thread's own, or an interrupt that wakes the
tasklet thread. -/
theorem Quiet.onIrqStack {sw : Switch Tid} (h : Quiet taskletd m.cpu a.event)
    (hs : Happens taskletd m a m') (hsw : a.switch = some sw) :
    m.onIrqStack m.cpu.running = false := by
  rcases hs.cases with ⟨hno, -⟩ | ⟨hno, -⟩ | ⟨-, b, fuel, s, hb, he, -⟩ | ⟨hno, -⟩
  · cases hno.symm.trans hsw
  · cases hno.symm.trans hsw
  · rcases raiseSoftirq_cases he with ⟨-, hno, -⟩ | ⟨hwakes, -⟩
    · cases hno.symm.trans hsw
    · exact absurd hwakes (h b hb)
  · rw [Machine.onIrqStack, hno]
    rfl

/-- No interrupt has switched: the handlers are all of the thread that runs,
and on the IRQ stack. -/
structure Unswitched (m : Machine Tid) : Prop where
  inv : Inv m.toWorld
  nested : Nested m
  here : ∀ e ∈ m.handlers, e = (m.cpu.running, true)

theorem Unswitched.onIrqStack (h : Unswitched m) (hin : (m.handler m.cpu.running).isSome) :
    m.onIrqStack m.cpu.running = true := by
  obtain ⟨e, he⟩ := Option.isSome_iff_exists.mp hin
  rw [Machine.onIrqStack, he, h.here e (Machine.mem_of_handler he).1]
  rfl

theorem Unswitched.handler (h : Unswitched m) (hne : m.handlers ≠ []) :
    (m.handler m.cpu.running).isSome := by
  obtain ⟨e, l, hl⟩ := List.exists_cons_of_ne_nil hne
  rw [Machine.handler, List.find?_isSome]
  exact ⟨e, by simp [hl], by simp [h.here e (by simp [hl])]⟩

theorem Unswitched.switchtrap (h : Unswitched m) :
    ∀ e ∈ (switchtrap m).handlers, e = (m.cpu.running, true) := by
  intro e he
  rcases List.mem_cons.mp he with rfl | he
  · by_cases hnil : m.handlers = []
    · have hzero : m.irqCount + 1 = 0 := by
        have := h.nested.count
        rw [hnil] at this
        simp [this]
      rw [if_pos hzero]
    · rw [h.onIrqStack (h.handler hnil), ite_self]
  · exact h.here e he

/-- A good step is no interrupt that switches: that would leave the IRQ stack. -/
theorem Unswitched.quiet (h : Unswitched m) (hs : Happens taskletd m a m')
    (hown : ∀ sw, a.switch = some sw → m.onIrqStack m.cpu.running = false) :
    Quiet taskletd m.cpu a.event := by
  obtain ⟨event, sw⟩ := a
  rintro b rfl hwakes
  obtain ⟨hin, fuel, s, he, -⟩ := hs
  rcases raiseSoftirq_cases he with ⟨hno, -⟩ | ⟨-, -, x, hx, -⟩
  · exact hno hwakes
  · have hirq := hown x hx
    rw [h.onIrqStack hin] at hirq
    cases hirq

theorem Unswitched.step (h : Unswitched m) (hexit : a.event ≠ .call .exit)
    (hown : ∀ sw, a.switch = some sw → Own m.cpu sw ∧ m.onIrqStack m.cpu.running = false)
    (hs : Happens taskletd m a m') : Quiet taskletd m.cpu a.event ∧ Unswitched m' := by
  have hquiet := h.quiet hs fun sw hsw => (hown sw hsw).2
  have hinv := (h.inv.step hexit (h.inv.guard hs fun x hx => (hown x hx).1) hs).1
  refine ⟨hquiet, hinv, h.nested.step hs, ?_⟩
  rcases hs.cases with ⟨-, rfl⟩ | ⟨-, -, rfl⟩ | ⟨-, b, fuel, s, hb, he, rfl⟩ | ⟨hno, -, hh⟩
  · exact h.switchtrap
  · exact fun e he => h.here e (List.mem_of_mem_eraseP he)
  · rcases raiseSoftirq_cases he with ⟨-, -, hpre, -⟩ | ⟨hwakes, -⟩
    · intro e he
      rw [h.here e he, ← hpre.running]
    · exact absurd hwakes (hquiet b hb)
  · have hnil : m.handlers = [] := by
      by_contra hne
      have hin := h.handler hne
      rw [hno] at hin
      cases hin
    rw [hh, hnil]
    simp

/-- **Every switch saves into the thread that it leaves and loads what the
target saved**, in a run without `exit_thread`, exactly if no interrupt switches
between `pcpu->current_thread = p` and the switch of `suspend_thread`. Every
switch also leaves that thread's own stack exactly if no interrupt switches at
all; the IRQ stack never has more than one thread on it. -/
theorem suspends_own_iff {idle : Tid} {tr : List (Taken (Machine Tid) (Happened Tid))}
    (hb : Boot idle s) (h : Trace (Happens taskletd) ⟨⟨s, fun _ => none⟩, -1, []⟩ tr m)
    (hexit : ∀ x ∈ tr, x.label.event ≠ .call .exit) :
    ((∀ x ∈ tr, ∀ sw, x.label.switch = some sw → Own x.pre.cpu sw) ↔
      ∀ x ∈ tr, Guard taskletd x.pre.toWorld x.label.event) ∧
    ((∀ x ∈ tr, ∀ sw, x.label.switch = some sw →
        Own x.pre.cpu sw ∧ x.pre.onIrqStack x.pre.cpu.running = false) ↔
      ∀ x ∈ tr, Quiet taskletd x.pre.cpu x.label.event) ∧
    ∀ u v, m.onIrqStack u = true → m.onIrqStack v = true → u = v := by
  have h₀ : Nested (⟨⟨s, fun _ => none⟩, -1, []⟩ : Machine Tid) := ⟨rfl, by simp⟩
  have hiff : (∀ x ∈ tr, ∀ sw, x.label.switch = some sw → Own x.pre.cpu sw) ↔
      ∀ x ∈ tr, Guard taskletd x.pre.toWorld x.label.event := by
    constructor
    · intro hall
      refine h.guarded (fun m => Inv m.toWorld)
        (fun m a _ => a.event ≠ .call .exit ∧ ∀ x, a.switch = some x → Own m.cpu x)
        (fun m a => Guard taskletd m.toWorld a.event) (fun hi hs hgood => ?_) hb.inv
        fun x hx => ⟨hexit x hx, hall x hx⟩
      have hg := hi.guard hs hgood.2
      exact ⟨hg, (hi.step hgood.1 hg hs).1⟩
    · intro hg x hx
      have hpre := ((h.invariant (fun m => Inv m.toWorld)
        (fun m a => a.event ≠ .call .exit ∧ Guard taskletd m.toWorld a.event)
        (fun hi hg hs => (hi.step hg.1 hg.2 hs).1) hb.inv fun x hx => ⟨hexit x hx, hg x hx⟩).2
        x hx).1
      exact (hpre.step (hexit x hx) (hg x hx) (h.taken x hx)).2
  refine ⟨hiff, ⟨fun hall => ?_, fun hq x hx sw hsw => ?_⟩, fun u v hu hv => ?_⟩
  · exact h.guarded Unswitched (fun m a _ => a.event ≠ .call .exit ∧
        ∀ sw, a.switch = some sw → Own m.cpu sw ∧ m.onIrqStack m.cpu.running = false)
      (fun m a => Quiet taskletd m.cpu a.event) (fun hi hs hgood => hi.step hgood.1 hgood.2 hs)
      ⟨hb.inv, h₀, by simp⟩ fun x hx => ⟨hexit x hx, hall x hx⟩
  · exact ⟨hiff.mpr (fun y hy b hb hw => absurd hw (hq y hy b hb)) x hx sw hsw,
      (hq x hx).onIrqStack (h.taken x hx) hsw⟩
  · exact (h.always Nested (fun hi hs => hi.step hs) h₀).1.single u v
      (Machine.exists_of_onIrqStack hu) (Machine.exists_of_onIrqStack hv)

/-- The idle thread at `THREAD_LVL_IDLE`, the others at
`THREAD_LVL_TASKLET`. -/
def bootMachine : Machine (Fin 3) :=
  ⟨⟨bootCpu fun t => if t.val = 0 then 4096 else 128, fun _ => none⟩, -1, []⟩

/-- The tasklet thread is started and suspends; an interrupt finds it suspended
and switches to it. It then suspends again, with an interrupt after its first
statement. -/
theorem suspends_own_started :
    ∃ tr m, Trace (Happens (1 : Fin 3)) bootMachine tr m ∧ m.cpu.running = 1 ∧
      m.onIrqStack 0 = true ∧ (tr.filterMap fun x => x.label.switch).length = 3 ∧
      ∀ x ∈ tr, ∀ sw, x.label.switch = some sw → Own x.pre.cpu sw := by
  have h : Trace (Happens (1 : Fin 3)) bootMachine _ _ :=
    .step (a := Happened.mk (.call (.resume 1)) _) ⟨rfl, rfl, 0, _, rfl, rfl⟩ <|
    .step (a := Happened.mk (.call .suspend) _) ⟨rfl, rfl, 0, _, rfl, rfl⟩ <|
    .step (a := Happened.mk .irq none) ⟨rfl, rfl⟩ <|
    .step (a := Happened.mk (.raise false) _) ⟨rfl, 0, _, rfl, rfl⟩ <|
    .step (a := Happened.mk .suspend none) ⟨rfl, rfl, rfl, rfl⟩ <|
    .step (a := Happened.mk .advance none) ⟨rfl, _, _, _, rfl, rfl, rfl⟩ <|
    .step (a := Happened.mk .irq none) ⟨rfl, rfl⟩ <|
    .step (a := Happened.mk (.raise false) _) ⟨rfl, 0, _, rfl, rfl⟩ <|
    .step (a := Happened.mk .iret none) ⟨rfl, rfl, rfl⟩ <| .done _
  refine ⟨_, _, h, rfl, rfl, rfl, (suspends_own_iff (boot_bootCpu _) h ?_).1.mpr ?_⟩
  · simp only [List.forall_mem_cons]
    simp
  · simp only [List.forall_mem_cons]
    exact ⟨nofun, nofun, nofun, fun _ _ _ => rfl, nofun, nofun, nofun, fun _ _ _ => rfl, nofun,
      List.forall_mem_nil _⟩

/-- **The interrupt in the window.** The tasklet thread runs for the second
time and suspends; the interrupt comes when `current_thread` is the idle
thread already. Its handler runs on the stack of the tasklet thread, and saves
the pointer into the idle thread. -/
theorem suspends_own_window :
    ∃ tr m, Trace (Happens (1 : Fin 3)) bootMachine tr m ∧
      (∀ x ∈ tr, x.label.event ≠ .call .exit) ∧
      ∃ x ∈ tr, ∃ sw, x.label.switch = some sw ∧ x.pre.cpu.running = 1 ∧
        x.pre.onIrqStack 1 = false ∧ sw.into = 0 := by
  have h : Trace (Happens (1 : Fin 3)) bootMachine _ _ :=
    .step (a := Happened.mk (.call (.resume 1)) _) ⟨rfl, rfl, 0, _, rfl, rfl⟩ <|
    .step (a := Happened.mk (.call .suspend) _) ⟨rfl, rfl, 0, _, rfl, rfl⟩ <|
    .step (a := Happened.mk .irq none) ⟨rfl, rfl⟩ <|
    .step (a := Happened.mk (.raise false) _) ⟨rfl, 0, _, rfl, rfl⟩ <|
    .step (a := Happened.mk .suspend none) ⟨rfl, rfl, rfl, rfl⟩ <|
    .step (a := Happened.mk .advance none) ⟨rfl, _, _, _, rfl, rfl, rfl⟩ <|
    .step (a := Happened.mk .advance none) ⟨rfl, _, _, _, rfl, rfl, rfl⟩ <|
    .step (a := Happened.mk .advance none) ⟨rfl, _, _, _, rfl, rfl, rfl⟩ <|
    .step (a := Happened.mk .advance none) ⟨rfl, _, _, _, rfl, rfl, rfl⟩ <|
    .step (a := Happened.mk .advance none) ⟨rfl, _, _, _, rfl, rfl, rfl⟩ <|
    .step (a := Happened.mk .advance none) ⟨rfl, _, _, _, rfl, rfl, rfl⟩ <|
    .step (a := Happened.mk .irq none) ⟨rfl, rfl⟩ <|
    .step (a := Happened.mk (.raise false) _) ⟨rfl, 0, _, rfl, rfl⟩ <| .done _
  refine ⟨_, _, h, ?_, _, List.getLast_mem (List.cons_ne_nil _ _), _, rfl, rfl, rfl, rfl⟩
  simp only [List.forall_mem_cons]
  simp

end Yaos.Kthread
