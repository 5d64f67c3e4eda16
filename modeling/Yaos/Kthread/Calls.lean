import Yaos.Kthread.Model

/-!
# What each call does

`dispatch` is the common end of every call that switches. `Switched` says
everything it does to the CPU, and each call is inverted once, down to
`Switched` from a state the call prepared. The invariants of the later
modules are read off these lemmas; no call is unfolded again.
-/

namespace Yaos.Kthread

open Yaos.Lib

variable {Tid : Type} [DecidableEq Tid] {s t : Cpu Tid} {p old : Tid}

/-- Everything `dispatch` does to `s` when it switches from `old` to `p`. -/
structure Switched (s t : Cpu Tid) (p old : Tid) (w : Switch Tid) : Prop where
  shape : w = ⟨old, ⟨s.running, s.clock⟩, p, w.loaded⟩
  current : t.current = s.current
  running : t.running = w.loaded.elim p StackPtr.stack
  away : t.away = Function.update s.away s.running (some s.clock)
  parent : ∀ u, (t.threads u).parent = (s.threads u).parent
  flag : ∀ u, (t.threads u).flag = (s.threads u).flag
  lvl : ∀ u, (t.threads u).lvl = (s.threads u).lvl
  rspOld : (t.threads old).rsp = some ⟨s.running, s.clock⟩
  rspNe : ∀ u, u ≠ old → (t.threads u).rsp = (s.threads u).rsp
  stateNe : ∀ u, u ≠ p → (t.threads u).state = (s.threads u).state
  target : (s.threads p).state = .ready ∧ w.loaded = none ∧ (t.threads p).state = .run ∨
    (s.threads p).state ≠ .ready ∧ (s.threads p).rsp.isSome ∧ w.loaded = (s.threads p).rsp ∧
      ((t.threads p).state = .run ∨ (t.threads p).state = (s.threads p).state)

/-- The switch itself, after the state of `p` was stored. -/
theorem switched_switch (old : Tid) (f : TState → TState) (ptr : Option (StackPtr Tid))
    (hp : (s.threads p).state = .ready ∧ ptr = none ∧ f .ready = .run ∨
      (s.threads p).state ≠ .ready ∧ (s.threads p).rsp.isSome ∧ ptr = (s.threads p).rsp ∧
        (f (s.threads p).state = .run ∨ f (s.threads p).state = (s.threads p).state)) :
    ∃ w, ((s.upd p (fun t => { t with state := f t.state })).switch p old ptr).2 = some w ∧
      Switched s ((s.upd p (fun t => { t with state := f t.state })).switch p old ptr).1
        p old w := by
  refine ⟨⟨old, ⟨s.running, s.clock⟩, p, ptr⟩, rfl, ?_⟩
  refine {
    shape := rfl, current := rfl, running := rfl, away := rfl
    parent := fun u => ?_, flag := fun u => ?_, lvl := fun u => ?_
    rspOld := ?_, rspNe := fun u hu => ?_, stateNe := fun u hu => ?_, target := ?_ }
  · simp only [Cpu.switch, Cpu.upd_threads]
    split <;> split <;> rfl
  · simp only [Cpu.switch, Cpu.upd_threads]
    split <;> split <;> rfl
  · simp only [Cpu.switch, Cpu.upd_threads]
    split <;> split <;> rfl
  · simp [Cpu.switch]
  · simp only [Cpu.switch, Cpu.upd_threads, if_neg hu]
    split <;> rfl
  · simp only [Cpu.switch, Cpu.upd_threads, if_neg hu]
    split <;> rfl
  · have hstate : (((s.upd p (fun t => { t with state := f t.state })).switch p old
        ptr).1.threads p).state = f (s.threads p).state := by
      simp only [Cpu.switch, Cpu.upd_threads, if_true]
      split <;> rfl
    rw [hstate]
    rcases hp with ⟨h, hptr, hf⟩ | hp
    · exact .inl ⟨h, hptr, by rw [h]; exact hf⟩
    · exact .inr hp

theorem Cpu.upd_state_self (s : Cpu Tid) (p : Tid) :
    s.upd p (fun t => { t with state := t.state }) = s := by
  simp [Cpu.upd]

theorem dispatch_cases {b : Bool} {sw : Option (Switch Tid)}
    (h : dispatch s p old b = .ok (t, sw)) : ∃ w, sw = some w ∧ Switched s t p old w := by
  unfold dispatch at h
  split at h
  next hr =>
    obtain ⟨w, hw, hs⟩ := switched_switch old (fun _ => .run) none (.inl ⟨hr, rfl, rfl⟩)
    cases h
    exact ⟨w, hw, hs⟩
  next hr =>
    -- storing the state again makes no difference to the rest
    obtain ⟨f, hf, hb⟩ : ∃ f : TState → TState, (∀ x, f x = .run ∨ f x = x) ∧
        (if b = true then s.upd p (fun t => { t with state := .run }) else s)
          = s.upd p (fun t => { t with state := f t.state }) := by
      cases b with
      | true => exact ⟨fun _ => .run, fun _ => .inl rfl, rfl⟩
      | false => exact ⟨id, fun _ => .inr rfl, (Cpu.upd_state_self s p).symm⟩
    rw [hb] at h
    obtain ⟨_, hc, h⟩ := bind_eq_ok.mp h
    rw [check_eq_ok, Cpu.upd_self] at hc
    rw [Cpu.upd_self] at h
    obtain ⟨w, hw, hs⟩ := switched_switch old f (s.threads p).rsp
      (.inr ⟨hr, hc, rfl, hf _⟩)
    cases h
    exact ⟨w, hw, hs⟩

theorem dispatch_ne_error {b : Bool} (h : (s.threads p).rsp.isSome) (e : Stop) :
    dispatch s p old b ≠ .error e := by
  unfold dispatch
  split
  next => simp
  next =>
    cases b with
    | true => simp [check, h]
    | false => simp [check, h]

/-! ## The five calls -/

variable {sw : Option (Switch Tid)}

theorem resumeThread_cases (h : resumeThread s p = .ok (t, sw)) :
    (s.threads p).state = .done ∧ t = s ∧ sw = none ∨
    (s.threads p).state ≠ .done ∧ s.current ≠ p ∧ ∃ w, sw = some w ∧
      Switched { s.upd p (fun x => { x with parent := some s.current }) with current := p }
        t p s.current w := by
  unfold resumeThread at h
  split at h
  next hd =>
    cases h
    exact .inl ⟨hd, rfl, rfl⟩
  next hd =>
    obtain ⟨_, hc, h⟩ := bind_eq_ok.mp h
    exact .inr ⟨hd, of_decide_eq_true (check_eq_ok.mp hc), dispatch_cases h⟩

theorem yieldThread_cases (h : yieldThread s = .ok (t, sw)) :
    ∃ p w, (s.threads s.current).parent = some p ∧ p ≠ s.current ∧ sw = some w ∧
      Switched { s with current := p } t p s.current w := by
  unfold yieldThread at h
  obtain ⟨_, hc, h⟩ := bind_eq_ok.mp h
  split at h
  next => cases h
  next p hp =>
    obtain ⟨w, hw, hs⟩ := dispatch_cases h
    refine ⟨p, w, hp, fun he => ?_, hw, hs⟩
    simp [check_eq_ok, hp, he] at hc

theorem suspendThread_cases (h : suspendThread s = .ok (t, sw)) :
    ∃ p w, (s.threads s.current).parent = some p ∧ p ≠ s.current ∧
      (s.threads s.current).suspended = false ∧ sw = some w ∧
      Switched { s.upd s.current (fun x => { x with flag := x.flag ||| threadSuspend })
        with current := p } t p s.current w := by
  unfold suspendThread at h
  obtain ⟨_, hc, h⟩ := bind_eq_ok.mp h
  split at h
  next => cases h
  next p hp =>
    obtain ⟨_, hf, h⟩ := bind_eq_ok.mp h
    obtain ⟨w, hw, hs⟩ := dispatch_cases h
    refine ⟨p, w, hp, fun he => ?_, by simpa [check_eq_ok] using hf, hw, hs⟩
    simp [check_eq_ok, hp, he] at hc

/-- `wake_up_thread` does nothing, or splices `p` under the running thread,
or switches to it. -/
theorem wakeUpThread_cases {fuel : Nat} (h : wakeUpThread fuel s p = .ok (t, sw)) :
    (p = s.current ∨ (s.threads p).state = .init ∨ (s.threads p).suspended = false) ∧
      t = s ∧ sw = none ∨
    p ≠ s.current ∧ (s.threads p).suspended = true ∧ (s.threads p).state ≠ .init ∧
      ((s.threads s.current).lvl < (s.threads p).lvl ∧
          (s.threads s.current).parent ≠ some p ∧ sw = none ∧
          t = (s.upd p (fun x => { x with parent := (s.threads s.current).parent })).upd
            s.current (fun x => { x with parent := some p }) ∨
        (s.threads p).lvl ≤ (s.threads s.current).lvl ∧ ∃ w, sw = some w ∧
          Switched { s.upd p (fun x => { x with
              flag := x.flag &&& ~~~threadSuspend, parent := some s.current })
            with current := p } t p s.current w) := by
  dsimp only [wakeUpThread] at h
  split at h
  next hp =>
    cases h
    exact .inl ⟨.inl hp, rfl, rfl⟩
  next hp =>
  split at h
  next hi =>
    cases h
    exact .inl ⟨.inr (.inl hi), rfl, rfl⟩
  next hi =>
  split at h
  next hf =>
    obtain ⟨_, _, h⟩ := bind_eq_ok.mp h
    obtain ⟨_, _, h⟩ := bind_eq_ok.mp h
    cases h
    exact .inl ⟨.inr (.inr (by simpa using hf)), rfl, rfl⟩
  next hf =>
  refine .inr ⟨hp, by simpa using hf, hi, ?_⟩
  split at h
  next hl =>
    obtain ⟨_, hc, h⟩ := bind_eq_ok.mp h
    cases h
    exact .inl ⟨hl, of_decide_eq_true (check_eq_ok.mp hc), rfl, rfl⟩
  next hl => exact .inr ⟨Nat.le_of_not_lt hl, dispatch_cases h⟩

theorem exitThread_cases (h : exitThread s = .ok (t, sw)) :
    ∃ p w, (s.threads s.current).parent = some p ∧ sw = some w ∧
      Switched (s.upd s.current (fun x => { x with state := .done })) t p s.current w := by
  dsimp only [exitThread] at h
  split at h
  next => cases h
  next p hp =>
    obtain ⟨w, hw, hs⟩ := dispatch_cases h
    exact ⟨p, w, hp, hw, hs⟩

end Yaos.Kthread
