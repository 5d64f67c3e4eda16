import Yaos.Kthread.Calls

/-!
# Whose stack is running

`Sound` is the invariant of a CPU on which no thread has exited:
`current_thread` is the thread on the CPU, and every other started thread
has its last switch-away in its `rsp`. Four of the calls keep it.
`exit_thread` switches to the parent and leaves `current_thread` behind,
so the first exit is already an unfaithful switch.
-/

namespace Yaos.Kthread

open Yaos.Lib

variable {Tid : Type} {s t : Cpu Tid} {p : Tid} {w : Switch Tid}

/-- The pointer loaded for `p` is the one saved when `p` last left the CPU,
or `p` has never run and starts on its own stack. -/
def LoadsOwn (s : Cpu Tid) (p : Tid) : Option (StackPtr Tid) → Prop
  | none => s.away p = none
  | some q => q.stack = p ∧ s.away p = some q.mark

/-- A context switch from `s` to `t` that does what it should. -/
structure Faithful (s : Cpu Tid) (w : Switch Tid) (t : Cpu Tid) : Prop where
  current : t.current = t.running
  into : w.into = s.running
  saved : w.saved = ⟨s.running, s.clock⟩
  next : t.running = w.next
  loads : LoadsOwn s w.next w.loaded

structure Sound (s : Cpu Tid) : Prop where
  current : s.current = s.running
  runs : (s.threads s.running).state = .run
  saved : ∀ u, u ≠ s.running → (s.threads u).state = .run →
    ∃ n, s.away u = some n ∧ (s.threads u).rsp = some ⟨u, n⟩
  fresh : ∀ u, (s.threads u).state = .init ∨ (s.threads u).state = .ready →
    s.away u = none ∧ (s.threads u).rsp = none
  noDone : ∀ u, (s.threads u).state ≠ .done
  noSelf : ∀ u, (s.threads u).parent ≠ some u

theorem Boot.sound {idle : Tid} (h : Boot idle s) : Sound s where
  current := h.current.trans h.running.symm
  runs := by rw [h.running, h.idleRuns]
  saved u hu hr := by
    rw [h.running] at hu
    rcases h.fresh u hu with hi | hi <;> simp [hi] at hr
  fresh u _ := ⟨h.noAway u, h.noRsp u⟩
  noDone u hd := by
    by_cases hu : u = idle
    · simp [hu, h.idleRuns] at hd
    · rcases h.fresh u hu with hi | hi <;> simp [hi] at hd
  noSelf u := by simp [h.noParent u]

/-- A state in which only parents, flags and `current_thread` differ, as
the calls prepare it for `dispatch`. -/
structure Prepared (s s' : Cpu Tid) : Prop where
  running : s'.running = s.running
  clock : s'.clock = s.clock
  away : s'.away = s.away
  rsp : ∀ u, (s'.threads u).rsp = (s.threads u).rsp
  state : ∀ u, (s'.threads u).state = (s.threads u).state
  noSelf : (∀ u, (s.threads u).parent ≠ some u) → ∀ u, (s'.threads u).parent ≠ some u

theorem Prepared.trans {s₁ s₂ : Cpu Tid} (h : Prepared s s₁) (h' : Prepared s₁ s₂) :
    Prepared s s₂ where
  running := h'.running.trans h.running
  clock := h'.clock.trans h.clock
  away := h'.away.trans h.away
  rsp u := (h'.rsp u).trans (h.rsp u)
  state u := (h'.state u).trans (h.state u)
  noSelf hs := h'.noSelf (h.noSelf hs)

theorem Prepared.refl (s : Cpu Tid) : Prepared s s where
  running := rfl
  clock := rfl
  away := rfl
  rsp _ := rfl
  state _ := rfl
  noSelf := id

theorem Prepared.enter {s' : Cpu Tid} (h : Prepared s s') (p : Tid) :
    Prepared s { s' with current := p } := { h with }

/-- The target of a switch out of a sound state is ready and fresh, or has
its own pointer in its `rsp`. -/
theorem Sound.loadsOwn (h : Sound s) (hp : p ≠ s.running) {q : Option (StackPtr Tid)}
    (ht : (s.threads p).state = .ready ∧ q = none ∨
      (s.threads p).state ≠ .ready ∧ (s.threads p).rsp.isSome ∧ q = (s.threads p).rsp) :
    LoadsOwn s p q ∧ q.elim p StackPtr.stack = p := by
  rcases ht with ⟨hr, rfl⟩ | ⟨hr, hsome, rfl⟩
  · exact ⟨(h.fresh p (.inr hr)).1, rfl⟩
  · cases hst : (s.threads p).state with
    | init => simp [(h.fresh p (.inl hst)).2] at hsome
    | ready => exact absurd hst hr
    | done => exact absurd hst (h.noDone p)
    | run =>
      obtain ⟨n, hn, hrsp⟩ := h.saved p hp hst
      rw [hrsp]
      exact ⟨⟨rfl, hn⟩, rfl⟩

theorem Sound.prepared {s' : Cpu Tid} (h : Sound s) (hpre : Prepared s s')
    (hcur : s'.current = s.current) : Sound s' where
  current := by rw [hcur, hpre.running, h.current]
  runs := by rw [hpre.running, hpre.state, h.runs]
  saved u := by
    rw [hpre.running, hpre.state, hpre.away, hpre.rsp]
    exact h.saved u
  fresh u := by
    rw [hpre.state, hpre.away, hpre.rsp]
    exact h.fresh u
  noDone u := by
    rw [hpre.state]
    exact h.noDone u
  noSelf := hpre.noSelf h.noSelf

variable [DecidableEq Tid]

/-- **The switching step.** A call that prepares a sound CPU, makes `p`
current and dispatches it keeps the invariant and switches faithfully. -/
theorem Sound.switch {s' : Cpu Tid} (h : Sound s) (hpre : Prepared s s') (hcur : s'.current = p)
    (hp : p ≠ s.running) (hsw : Switched s' t p s.running w) : Sound t ∧ Faithful s w t := by
  have htarget : (s.threads p).state = .ready ∧ w.loaded = none ∨
      (s.threads p).state ≠ .ready ∧ (s.threads p).rsp.isSome ∧
        w.loaded = (s.threads p).rsp := by
    rw [← hpre.state, ← hpre.rsp]
    rcases hsw.target with ⟨h₁, h₂, _⟩ | ⟨h₁, h₂, h₃, _⟩
    · exact .inl ⟨h₁, h₂⟩
    · exact .inr ⟨h₁, h₂, h₃⟩
  obtain ⟨hown, hstack⟩ := h.loadsOwn hp htarget
  have hrun : t.running = p := hsw.running.trans hstack
  have hcurrent : t.current = t.running := by rw [hsw.current, hcur, hrun]
  have hstate : ∀ u, u ≠ p → (t.threads u).state = (s.threads u).state := fun u hu =>
    (hsw.stateNe u hu).trans (hpre.state u)
  have hrsp : ∀ u, u ≠ s.running → (t.threads u).rsp = (s.threads u).rsp := fun u hu =>
    (hsw.rspNe u hu).trans (hpre.rsp u)
  have haway : ∀ u, u ≠ s.running → t.away u = s.away u := by
    intro u hu
    rw [hsw.away, hpre.running, hpre.away, Function.update_of_ne hu]
  have hruns : (t.threads p).state = .run := by
    rcases hsw.target with ⟨_, _, hr⟩ | ⟨hr, hsome, _, hr' | hr'⟩
    · exact hr
    · exact hr'
    · -- not stored again: `p` is started, hence running
      rw [hpre.state] at hr hr'
      rw [hpre.rsp] at hsome
      cases hst : (s.threads p).state with
      | init => simp [(h.fresh p (.inl hst)).2] at hsome
      | ready => exact absurd hst hr
      | done => exact absurd hst (h.noDone p)
      | run => exact hr'.trans hst
  refine ⟨⟨hcurrent, hrun ▸ hruns, ?_, ?_, ?_, ?_⟩, ⟨hcurrent, ?_, ?_, ?_, ?_⟩⟩
  · intro u hu hst
    rw [hrun] at hu
    by_cases hold : u = s.running
    · -- the thread that has just left
      subst hold
      refine ⟨s.clock, ?_, ?_⟩
      · rw [hsw.away, hpre.running, Function.update_self, hpre.clock]
      · rw [hsw.rspOld, hpre.running, hpre.clock]
    · rw [hstate u hu] at hst
      rw [haway u hold, hrsp u hold]
      exact h.saved u hold hst
  · intro u hu
    have hup : u ≠ p := by
      rintro rfl
      simp [hruns] at hu
    rw [hstate u hup] at hu
    have hold : u ≠ s.running := by
      rintro rfl
      simp [h.runs] at hu
    rw [haway u hold, hrsp u hold]
    exact h.fresh u hu
  · intro u
    by_cases hup : u = p
    · simp [hup, hruns]
    · rw [hstate u hup]
      exact h.noDone u
  · intro u
    rw [hsw.parent]
    exact hpre.noSelf h.noSelf u
  · rw [hsw.shape]
  · rw [hsw.shape, hpre.running, hpre.clock]
  · rw [hsw.shape, hrun]
  · rw [hsw.shape]
    exact hown

theorem prepared_upd {u : Tid} {f : Thread Tid → Thread Tid}
    (hrsp : (f (s.threads u)).rsp = (s.threads u).rsp)
    (hstate : (f (s.threads u)).state = (s.threads u).state)
    (hself : (s.threads u).parent ≠ some u → (f (s.threads u)).parent ≠ some u) :
    Prepared s (s.upd u f) where
  running := rfl
  clock := rfl
  away := rfl
  rsp v := by
    simp only [Cpu.upd_threads]
    split
    next hv => rw [hv, hrsp]
    next => rfl
  state v := by
    simp only [Cpu.upd_threads]
    split
    next hv => rw [hv, hstate]
    next => rfl
  noSelf h v := by
    simp only [Cpu.upd_threads]
    split
    next hv =>
      rw [hv]
      exact hself (h u)
    next => exact h v

/-- **Every call but `exit_thread`** keeps the invariant, and the switch it
makes, if it makes one, is faithful. -/
theorem Sound.exec {fuel : Nat} {c : Call Tid} {sw : Option (Switch Tid)} (h : Sound s)
    (hc : c ≠ .exit) (he : exec fuel s c = .ok (t, sw)) :
    Sound t ∧ ∀ w, sw = some w → Faithful s w t := by
  have hrun : s.current = s.running := h.current
  cases c with
  | exit => exact absurd rfl hc
  | resume p =>
    rcases resumeThread_cases he with ⟨_, rfl, rfl⟩ | ⟨_, hp, w, rfl, hsw⟩
    · exact ⟨h, by simp⟩
    · rw [hrun] at hp
      obtain ⟨ht, hf⟩ := h.switch
        ((prepared_upd rfl rfl (by simpa [hrun] using fun _ => hp)).enter p) rfl hp.symm (hrun ▸ hsw)
      exact ⟨ht, by rintro w ⟨⟩; exact hf⟩
  | yield =>
    obtain ⟨p, w, _, hp, rfl, hsw⟩ := yieldThread_cases he
    rw [hrun] at hp hsw
    obtain ⟨ht, hf⟩ := h.switch ((Prepared.refl s).enter p) rfl hp hsw
    exact ⟨ht, by rintro w ⟨⟩; exact hf⟩
  | suspend =>
    obtain ⟨p, w, _, hp, _, rfl, hsw⟩ := suspendThread_cases he
    rw [hrun] at hp hsw
    obtain ⟨ht, hf⟩ := h.switch ((prepared_upd rfl rfl id).enter p) rfl hp hsw
    exact ⟨ht, by rintro w ⟨⟩; exact hf⟩
  | wake p =>
    rcases wakeUpThread_cases he with ⟨_, rfl, rfl⟩ | ⟨hp, _, _, ⟨_, hpar, rfl, rfl⟩ | ⟨_, w, rfl, hsw⟩⟩
    · exact ⟨h, by simp⟩
    · -- spliced: two parents change, nothing is switched
      have h₁ : Prepared s (s.upd p fun x => { x with parent := (s.threads s.current).parent }) :=
        prepared_upd rfl rfl fun _ => hpar
      refine ⟨h.prepared (h₁.trans (prepared_upd rfl rfl fun _ => ?_)) rfl, by simp⟩
      simpa using hp
    · rw [hrun] at hp
      obtain ⟨ht, hf⟩ := h.switch
        ((prepared_upd rfl rfl (by simpa [hrun] using fun _ => Ne.symm hp)).enter p) rfl hp
        (hrun ▸ hsw)
      exact ⟨ht, by rintro w ⟨⟩; exact hf⟩

/-- `exit_thread` lands on the parent's stack while `current_thread` is
still the thread that exited. -/
theorem Sound.exit {sw : Option (Switch Tid)} (h : Sound s)
    (he : exitThread s = .ok (t, sw)) : ∃ w, sw = some w ∧ ¬ Faithful s w t := by
  obtain ⟨p, w, hpar, rfl, hsw⟩ := exitThread_cases he
  have hp : p ≠ s.current := by
    rintro rfl
    exact h.noSelf _ hpar
  have hself : (s.upd s.current fun x => { x with state := .done }).threads p = s.threads p := by
    rw [Cpu.upd_threads, if_neg hp]
  have hland : w.loaded.elim p StackPtr.stack = p := by
    refine (h.loadsOwn (h.current ▸ hp) ?_).2
    rcases hsw.target with ⟨h₁, h₂, _⟩ | ⟨h₁, h₂, h₃, _⟩
    · exact .inl ⟨hself ▸ h₁, h₂⟩
    · rw [hself] at h₁ h₂ h₃
      exact .inr ⟨h₁, h₂, h₃⟩
  refine ⟨w, rfl, fun hf => hp ?_⟩
  rw [← hland, ← hsw.running, ← hf.current, hsw.current, Cpu.upd_current]

/-- **Stacks and `current_thread` agree** along a run from boot, and every
switch saves into the thread that was running and loads the target's own
stack, exactly as long as no thread calls `exit_thread`. -/
theorem switches_faithful_iff_no_exit {idle : Tid} {tr : List (Taken (Cpu Tid) (Made Tid))}
    (hb : Boot idle s) (h : Trace Step s tr t) :
    (∀ x ∈ tr, ∀ w, x.label.switch = some w → Faithful x.pre w x.post) ↔
      ∀ x ∈ tr, x.label.call ≠ .exit := by
  constructor
  · intro hall
    refine h.guarded Sound (fun s m t => ∀ w, m.switch = some w → Faithful s w t)
      (fun _ m => m.call ≠ .exit) (fun {s m t} hs ⟨fuel, he⟩ hgood => ?_) hb.sound hall
    have hne : m.call ≠ .exit := by
      intro hc
      rw [hc] at he
      obtain ⟨w, hw, hbad⟩ := hs.exit he
      exact hbad (hgood w hw)
    exact ⟨hne, (hs.exec hne he).1⟩
  · intro hno x hx
    have hpre : Sound x.pre := ((h.invariant Sound (fun _ m => m.call ≠ .exit)
      (fun hs hc ⟨_, he⟩ => (hs.exec hc he).1) hb.sound hno).2 x hx).1
    obtain ⟨fuel, he⟩ := h.taken x hx
    exact (hpre.exec (hno x hx) he).2

/-- The idle thread resumes thread `1`, which suspends. -/
theorem switches_faithful_resume_suspend :
    ∃ tr t, Trace Step (bootCpu fun _ => 0) tr t ∧ tr.length = 2 ∧
      ∀ x ∈ tr, ∀ w, x.label.switch = some w → Faithful x.pre w x.post := by
  have htr : Trace Step (bootCpu fun _ => 0) [⟨_, ⟨.resume 1, _⟩, _⟩, ⟨_, ⟨.suspend, _⟩, _⟩] _ :=
    .step ⟨0, rfl⟩ (.step ⟨0, rfl⟩ (.done _))
  exact ⟨_, _, htr, rfl, (switches_faithful_iff_no_exit (boot_bootCpu _) htr).mpr (by simp)⟩

/-- Thread `1` exits to the idle thread, and `current_thread` stays `1`:
when the idle thread then resumes `2`, its stack pointer is stored in
thread `1`. -/
theorem exit_leaves_current :
    ∃ tr t, Trace Step (bootCpu fun _ => 0) tr t ∧
      (∃ x ∈ tr, x.label.switch.isSome ∧ x.post.current = 1 ∧ x.post.running = 0) ∧
      ∃ x ∈ tr, ∃ w, x.label.switch = some w ∧ x.pre.running = 0 ∧ w.into = 1 := by
  have htr : Trace Step (bootCpu fun _ => 0)
      [⟨_, ⟨.resume 1, _⟩, _⟩, ⟨_, ⟨.exit, _⟩, _⟩, ⟨_, ⟨.resume 2, _⟩, _⟩] _ :=
    .step ⟨0, rfl⟩ (.step ⟨0, rfl⟩ (.step ⟨0, rfl⟩ (.done _)))
  refine ⟨_, _, htr, ⟨_, .tail _ (.head _), rfl, rfl, rfl⟩,
    ⟨_, .tail _ (.tail _ (.head _)), _, rfl, rfl, rfl⟩⟩

end Yaos.Kthread
