import Yaos.Kthread.Calls
import Yaos.Lib.Seg

/-!
# The parent chain

The threads waiting under the running one form a linked list through
`parent`, from `current_thread` to the idle thread. `yield`, `suspend` and
`exit` only walk up it. `resume_thread` and `wake_up_thread` push a thread
on top, and both can push one that must not be there: `resume_thread` a
thread that already waits on the chain or is suspended, and
`wake_up_thread` (when the woken thread has the larger `lvl`) a thread
whose `THREAD_SUSPEND` it does not clear. `Call.Admitted` excludes exactly
these calls.
-/

namespace Yaos.Kthread

open Yaos.Lib

variable {Tid : Type} {s t : Cpu Tid} {idle p : Tid} {l : List Tid}

/-- The `parent` links. -/
def Cpu.parentOf (s : Cpu Tid) (t : Tid) : Option Tid := (s.threads t).parent

/-- The parent chain of `s` is `l`, and is as it should be. -/
structure ChainIs (idle : Tid) (s : Cpu Tid) (l : List Tid) : Prop where
  chain : Chain s.parentOf (some s.current) l
  nodup : l.Nodup
  last : l.getLast? = some idle
  awake : ∀ t ∈ l, (s.threads t).suspended = false

/-- The parent chain from `current_thread` is finite, repeats no thread,
ends at the idle thread and holds no suspended thread. -/
def WellChained (idle : Tid) (s : Cpu Tid) : Prop := ∃ l, ChainIs idle s l

/-- `p` waits on the parent chain, or runs. -/
def OnChain (s : Cpu Tid) (p : Tid) : Prop := ∃ l, Chain s.parentOf (some s.current) l ∧ p ∈ l

def Call.Admitted (s : Cpu Tid) : Call Tid → Prop
  | .resume p => (s.threads p).state = .done ∨
      (s.threads p).suspended = false ∧ ¬ OnChain s p
  | .wake p => p = s.current ∨ (s.threads p).state = .init ∨
      (s.threads p).suspended = false ∨ (s.threads p).lvl ≤ (s.threads s.current).lvl
  | .yield => True
  | .suspend => True
  | .exit => True

/-- The invariant: besides the chain, the threads waiting on it have been
switched away from, so that they can be switched to. -/
structure Waiting (idle : Tid) (s : Cpu Tid) (l : List Tid) : Prop extends ChainIs idle s l where
  saved : ∀ t ∈ l.tail, (s.threads t).rsp.isSome

theorem ChainIs.eq_cons (h : ChainIs idle s l) :
    ∃ r, l = s.current :: r ∧ Chain s.parentOf (s.parentOf s.current) r :=
  Chain.eq_cons h.chain

theorem onChain_iff (h : Chain s.parentOf (some s.current) l) : OnChain s p ↔ p ∈ l :=
  h.exists_mem_iff

theorem ChainIs.onChain_iff (h : ChainIs idle s l) : OnChain s p ↔ p ∈ l :=
  Kthread.onChain_iff h.chain

theorem Boot.waiting (h : Boot idle s) : Waiting idle s [idle] where
  chain := by
    rw [h.current]
    refine .cons ?_
    rw [Cpu.parentOf, h.noParent]
    exact .nil none
  nodup := List.nodup_singleton idle
  last := rfl
  awake t ht := by
    rw [List.mem_singleton.mp ht]
    exact h.idleFlag
  saved t ht := by simp at ht

/-! ## What a switch does to the chain -/

/-- Flags and parents of the threads in `l` are the same in `t`. -/
structure SameOn (l : List Tid) (s t : Cpu Tid) : Prop where
  parent : ∀ u ∈ l, t.parentOf u = s.parentOf u
  suspended : ∀ u ∈ l, (t.threads u).suspended = (s.threads u).suspended

/-- **Push**: a thread off the chain, not suspended, becomes current with
the old current thread as its parent. -/
theorem ChainIs.push (h : ChainIs idle s l) (hp : p ∉ l) (hcur : t.current = p)
    (hpar : t.parentOf p = some s.current) (hawake : (t.threads p).suspended = false)
    (hsame : SameOn l s t) : ChainIs idle t (p :: l) where
  chain := by
    rw [hcur]
    refine .cons ?_
    rw [hpar]
    exact h.chain.frame hsame.parent
  nodup := List.nodup_cons.mpr ⟨hp, h.nodup⟩
  last := by
    obtain ⟨r, rfl, _⟩ := h.eq_cons
    rw [List.getLast?_cons_cons]
    exact h.last
  awake u hu := by
    rcases List.mem_cons.mp hu with rfl | hu
    · exact hawake
    · rw [hsame.suspended u hu, h.awake u hu]

/-- **Pop**: the parent of the current thread becomes current. -/
theorem ChainIs.pop (h : ChainIs idle s (s.current :: l)) (hpar : s.parentOf s.current = some p)
    (hcur : t.current = p) (hsame : SameOn l s t) : ChainIs idle t l where
  chain := by
    rw [hcur, ← hpar]
    exact h.chain.tail.frame hsame.parent
  nodup := (List.nodup_cons.mp h.nodup).2
  last := by
    have hl : Chain s.parentOf (some p) l := hpar ▸ h.chain.tail
    obtain ⟨r, rfl, _⟩ := Chain.eq_cons hl
    exact h.last
  awake u hu := by
    rw [hsame.suspended u hu, h.awake u (List.mem_cons_of_mem _ hu)]

theorem ChainIs.congr (h : ChainIs idle s l) (hcur : t.current = s.current)
    (hsame : SameOn l s t) : ChainIs idle t l where
  chain := by
    rw [hcur]
    exact h.chain.frame hsame.parent
  nodup := h.nodup
  last := h.last
  awake u hu := by rw [hsame.suspended u hu, h.awake u hu]

theorem SameOn.trans {s₁ s₂ : Cpu Tid} (h : SameOn l s s₁) (h' : SameOn l s₁ s₂) :
    SameOn l s s₂ where
  parent u hu := (h'.parent u hu).trans (h.parent u hu)
  suspended u hu := (h'.suspended u hu).trans (h.suspended u hu)

theorem suspended_clear (x : Thread Tid) (q : Option Tid) :
    ({ x with flag := x.flag &&& ~~~threadSuspend, parent := q } : Thread Tid).suspended
      = false := by
  simp [Thread.suspended, BitVec.and_assoc]

variable [DecidableEq Tid] {old : Tid} {w : Switch Tid}

theorem sameOn_upd {f : Thread Tid → Thread Tid} (hp : p ∉ l) : SameOn l s (s.upd p f) := by
  have hne : ∀ u ∈ l, (s.upd p f).threads u = s.threads u := by
    intro u hu
    rw [Cpu.upd_threads, if_neg]
    rintro rfl
    exact hp hu
  exact ⟨fun u hu => congrArg Thread.parent (hne u hu),
    fun u hu => congrArg Thread.suspended (hne u hu)⟩

theorem Switched.parentOf (h : Switched s t p old w) : t.parentOf = s.parentOf :=
  funext h.parent

theorem Switched.suspended (h : Switched s t p old w) (u : Tid) :
    (t.threads u).suspended = (s.threads u).suspended := by
  simp only [Thread.suspended, h.flag u]

theorem Switched.sameOn (h : Switched s t p old w) : SameOn l s t where
  parent u _ := h.parent u
  suspended u _ := h.suspended u

theorem Switched.isSome_rsp (h : Switched s t p old w) {u : Tid}
    (hu : u = old ∨ (s.threads u).rsp.isSome) : (t.threads u).rsp.isSome := by
  by_cases ho : u = old
  · rw [ho, h.rspOld]
    rfl
  · rw [h.rspNe u ho]
    exact hu.resolve_left ho

/-! ## The calls -/

/-- A call that pushes `p`: its update of `p` stores the parent and leaves
`p` awake. -/
theorem Waiting.push {f : Thread Tid → Thread Tid} (h : Waiting idle s l) (hp : p ∉ l)
    (hpar : (f (s.threads p)).parent = some s.current)
    (hawake : (f (s.threads p)).suspended = false)
    (hsw : Switched { s.upd p f with current := p } t p s.current w) :
    Waiting idle t (p :: l) := by
  have hsame : SameOn l s t := (sameOn_upd hp).trans ⟨hsw.sameOn.parent, hsw.sameOn.suspended⟩
  have hpush : ChainIs idle t (p :: l) := by
    refine h.toChainIs.push hp hsw.current ?_ ?_ hsame
    · rw [hsw.parentOf]
      simpa [Cpu.parentOf] using hpar
    · rw [hsw.suspended]
      simpa using hawake
  refine ⟨hpush, fun u hu => hsw.isSome_rsp ?_⟩
  obtain ⟨r, rfl, _⟩ := h.eq_cons
  rcases List.mem_cons.mp hu with rfl | hur
  · exact .inl rfl
  · right
    have hup : u ≠ p := by
      rintro rfl
      exact hp (List.mem_cons_of_mem _ hur)
    simpa [Cpu.upd_threads, hup] using h.saved u hur

theorem Waiting.pop {s' : Cpu Tid} (h : Waiting idle s l)
    (hpar : s.parentOf s.current = some p) (hsw : Switched s' t p s.current w)
    (hcur : s'.current = p) (hs' : ∀ u, u ≠ s.current → s'.threads u = s.threads u) :
    ∃ r, Waiting idle t r := by
  obtain ⟨r, rfl, _⟩ := h.eq_cons
  have hne : ∀ u ∈ r, s'.threads u = s.threads u := by
    intro u hu
    refine hs' u ?_
    rintro rfl
    exact (List.nodup_cons.mp h.nodup).1 hu
  have hsame : SameOn r s s' := ⟨fun u hu => congrArg Thread.parent (hne u hu),
    fun u hu => congrArg Thread.suspended (hne u hu)⟩
  refine ⟨r, h.toChainIs.pop hpar (hsw.current.trans hcur) (hsame.trans hsw.sameOn), ?_⟩
  intro u hu
  have hur : u ∈ r := List.mem_of_mem_tail hu
  refine hsw.isSome_rsp (.inr ?_)
  rw [hne u hur]
  exact h.saved u hur

/-- **An admitted call keeps the chain.** -/
theorem Waiting.exec {fuel : Nat} {c : Call Tid} {sw : Option (Switch Tid)}
    (h : Waiting idle s l) (hc : c.Admitted s) (he : exec fuel s c = .ok (t, sw)) :
    ∃ r, Waiting idle t r := by
  cases c with
  | resume p =>
    rcases resumeThread_cases he with ⟨_, rfl, rfl⟩ | ⟨hd, _, w, rfl, hsw⟩
    · exact ⟨l, h⟩
    · obtain ⟨hawake, hoff⟩ := hc.resolve_left hd
      exact ⟨_, h.push (mt h.onChain_iff.mpr hoff) rfl hawake hsw⟩
  | yield =>
    obtain ⟨p, w, hpar, _, rfl, hsw⟩ := yieldThread_cases he
    exact h.pop hpar hsw rfl fun _ _ => rfl
  | wake p =>
    rcases wakeUpThread_cases he with ⟨_, rfl, rfl⟩ | ⟨hp, hf, hi, ⟨hlt, _, rfl, rfl⟩ | ⟨_, w, rfl, hsw⟩⟩
    · exact ⟨l, h⟩
    · rcases hc with hc | hc | hc | hc
      · exact absurd hc hp
      · exact absurd hc hi
      · simp [hf] at hc
      · omega
    · have hoff : p ∉ l := fun hpl => by simp [h.awake p hpl] at hf
      exact ⟨_, h.push hoff rfl (suspended_clear _ _) hsw⟩
  | suspend =>
    obtain ⟨p, w, hpar, _, _, rfl, hsw⟩ := suspendThread_cases he
    exact h.pop hpar hsw rfl fun u hu => by simp [Cpu.upd_threads, hu]
  | exit =>
    -- the chain is left as it is: `current_thread` does not move
    obtain ⟨p, w, _, rfl, hsw⟩ := exitThread_cases he
    have hsame : SameOn l s t := by
      refine SameOn.trans ⟨fun u _ => ?_, fun u _ => ?_⟩ hsw.sameOn
      · simp only [Cpu.parentOf, Cpu.upd_threads]
        split <;> rfl
      · simp only [Cpu.upd_threads]
        split <;> rfl
    refine ⟨l, h.toChainIs.congr hsw.current hsame, fun u hu => hsw.isSome_rsp (.inr ?_)⟩
    simp only [Cpu.upd_threads]
    split
    · exact h.saved u hu
    · exact h.saved u hu

/-- **A call that is not admitted breaks the chain.** -/
theorem ChainIs.admitted {fuel : Nat} {c : Call Tid} {sw : Option (Switch Tid)}
    (h : ChainIs idle s l) (he : exec fuel s c = .ok (t, sw)) (ht : WellChained idle t) :
    c.Admitted s := by
  obtain ⟨r, hr⟩ := ht
  obtain ⟨r', rfl, hr'⟩ := hr.eq_cons
  cases c with
  | yield => trivial
  | suspend => trivial
  | exit => trivial
  | resume p =>
    rcases resumeThread_cases he with ⟨hd, _, _⟩ | ⟨_, _, w, rfl, hsw⟩
    · exact .inl hd
    · have hcur : t.current = p := hsw.current
      refine .inr ⟨?_, fun hon => ?_⟩
      · have hawake := hr.awake p (by simp [hcur])
        rw [hsw.suspended] at hawake
        simpa [Thread.suspended] using hawake
      · -- `p` would be its own ancestor
        obtain ⟨a, b, rfl⟩ := List.append_of_mem (h.onChain_iff.mp hon)
        have hchain : Chain t.parentOf (some p) (t.current :: r') := hcur ▸ hr.chain
        refine Chain.not_of_cycle h.chain (fun u hu => ?_) ?_ _ hchain
        · rw [hsw.parentOf]
          simp [Cpu.parentOf, Cpu.upd_threads, hu]
        · rw [hsw.parentOf]
          simp [Cpu.parentOf]
  | wake p =>
    rcases wakeUpThread_cases he with ⟨hcase, _, _⟩ | ⟨hp, hf, _, ⟨_, _, rfl, rfl⟩ | ⟨hle, _⟩⟩
    · rcases hcase with hc | hc | hc
      · exact .inl hc
      · exact .inr (.inl hc)
      · exact .inr (.inr (.inl hc))
    · -- spliced in with `THREAD_SUSPEND` still set
      exfalso
      simp only [Cpu.parentOf, Cpu.upd_current, Cpu.upd_self] at hr'
      obtain ⟨q, rfl, _⟩ := Chain.eq_cons hr'
      have hawake := hr.awake p (by simp)
      simp [Cpu.upd_threads, hp, Thread.suspended] at hawake hf
      exact hf hawake
    · exact .inr (.inr (.inr hle))

/-- On a well-formed chain none of the assertions on `suspend_thread`'s way
fails: the running thread is not flagged and its parent can be switched to. -/
theorem Waiting.suspend_ne_assert (h : Waiting idle s l) :
    suspendThread s ≠ .error .assert := by
  obtain ⟨r, rfl, hr⟩ := h.eq_cons
  have hawake := h.awake s.current List.mem_cons_self
  cases hpar : (s.threads s.current).parent with
  | none => simp [suspendThread, hpar, check]
  | some p =>
    rw [Cpu.parentOf, hpar] at hr
    obtain ⟨r', rfl, _⟩ := Chain.eq_cons hr
    have hp : p ≠ s.current := by
      rintro rfl
      exact (List.nodup_cons.mp h.nodup).1 List.mem_cons_self
    have hrsp := h.saved p List.mem_cons_self
    simp only [suspendThread, hpar, hawake, check, ok_bind, Option.some.injEq, hp, ne_eq,
      not_false_eq_true, decide_true, Bool.not_false, if_true]
    exact dispatch_ne_error (by simpa [Cpu.upd_threads, hp] using hrsp) _

/-- **The parent chain** along a run from boot is finite, repeats no thread,
ends at the idle thread and holds no suspended thread exactly as long as
every call is admitted; and then `suspend_thread` never fails an assertion. -/
theorem chain_kept_iff_admitted {tr : List (Taken (Cpu Tid) (Made Tid))}
    (hb : Boot idle s) (h : Trace Step s tr t) :
    ((∀ x ∈ tr, WellChained idle x.pre ∧ WellChained idle x.post) ↔
      ∀ x ∈ tr, x.label.call.Admitted x.pre) ∧
    ((∀ x ∈ tr, x.label.call.Admitted x.pre) →
      WellChained idle t ∧ suspendThread t ≠ .error .assert) := by
  have hboot : ∃ l, Waiting idle s l := ⟨_, hb.waiting⟩
  have hrun := h.invariant (fun s => ∃ l, Waiting idle s l)
    (fun s m => m.call.Admitted s) (fun ⟨_, hl⟩ hc ⟨_, he⟩ => hl.exec hc he) hboot
  refine ⟨⟨fun hall => ?_, fun hadm x hx => ?_⟩, fun hadm => ?_⟩
  · refine h.guarded (fun s => ∃ l, Waiting idle s l)
      (fun s _ t => WellChained idle s ∧ WellChained idle t) (fun s m => m.call.Admitted s)
      (fun ⟨l, hl⟩ ⟨_, he⟩ ⟨_, ht⟩ => ?_) hboot hall
    have hadm := hl.toChainIs.admitted he ht
    exact ⟨hadm, hl.exec hadm he⟩
  · obtain ⟨⟨l, hl⟩, l', hl'⟩ := (hrun hadm).2 x hx
    exact ⟨⟨l, hl.toChainIs⟩, ⟨l', hl'.toChainIs⟩⟩
  · obtain ⟨⟨l, hl⟩, _⟩ := hrun hadm
    exact ⟨⟨l, hl.toChainIs⟩, hl.suspend_ne_assert⟩

/-- The idle thread resumes thread `1`, which suspends and is woken again. -/
theorem chain_kept_suspend_wake :
    ∃ tr t, Trace Step (bootCpu fun u => if u = 0 then 4096 else 512) tr t ∧ tr.length = 3 ∧
      t.current = 1 ∧ WellChained 0 t := by
  have htr : Trace Step (bootCpu fun u => if u = 0 then 4096 else 512)
      [⟨_, ⟨.resume 1, _⟩, _⟩, ⟨_, ⟨.suspend, _⟩, _⟩, ⟨_, ⟨.wake 1, _⟩, _⟩] _ :=
    .step ⟨0, rfl⟩ (.step ⟨0, rfl⟩ (.step ⟨0, rfl⟩ (.done _)))
  refine ⟨_, _, htr, rfl, rfl, ((chain_kept_iff_admitted (boot_bootCpu _) htr).2 ?_).1⟩
  have hoff : ¬ OnChain (bootCpu fun u => if u = 0 then 4096 else 512) 1 := by
    rw [(boot_bootCpu _).waiting.onChain_iff]
    decide
  intro x hx
  simp only [List.mem_cons, List.not_mem_nil, or_false] at hx
  rcases hx with rfl | rfl | rfl
  · exact .inr ⟨by decide, hoff⟩
  · trivial
  · exact .inr (.inr (.inr (by decide)))

/-- Thread `1` (level 512) suspends; thread `2` (level 128) wakes it and
suspends in turn: thread `1` runs with `THREAD_SUSPEND` set, and its next
`suspend_thread` fails the assertion. -/
theorem wake_splices_suspended :
    ∃ tr t, Trace Step (bootCpu fun u => if u = 0 then 4096 else if u = 1 then 512 else 128) tr t ∧
      ¬ WellChained 0 t ∧ suspendThread t = .error .assert := by
  have htr : Trace Step (bootCpu fun u => if u = 0 then 4096 else if u = 1 then 512 else 128)
      [⟨_, ⟨.resume 1, _⟩, _⟩, ⟨_, ⟨.suspend, _⟩, _⟩, ⟨_, ⟨.resume 2, _⟩, _⟩,
        ⟨_, ⟨.wake 1, _⟩, _⟩, ⟨_, ⟨.suspend, _⟩, _⟩] _ :=
    .step ⟨0, rfl⟩ (.step ⟨0, rfl⟩ (.step ⟨0, rfl⟩ (.step ⟨0, rfl⟩ (.step ⟨0, rfl⟩ (.done _)))))
  refine ⟨_, _, htr, ?_, rfl⟩
  rintro ⟨l, hl⟩
  obtain ⟨r, rfl, _⟩ := hl.eq_cons
  have hawake := hl.awake _ List.mem_cons_self
  revert hawake
  decide

end Yaos.Kthread
