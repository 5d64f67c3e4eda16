import Yaos.Kthread.ParentChain

/-!
# The order of the parent chain

A smaller `lvl` is a higher priority. A thread that suspends hands the CPU to
its parent, so the chain should be sorted by `lvl`. `wake_up_thread` puts a
thread on top when its `lvl` is not above that of the running thread, which
keeps the order; otherwise it puts the thread right behind the running one and
never looks at who else waits there. `Call.KeepsOrder` says which calls are
safe.
-/

namespace Yaos.Kthread

open Yaos.Lib Function

variable {Tid : Type} {s t : Cpu Tid} {idle p : Tid} {l r : List Tid}

/-- `lvl` of a thread. -/
def Cpu.lvlOf (s : Cpu Tid) (t : Tid) : Nat := (s.threads t).lvl

/-- The idle thread runs and nothing waits. Of the other threads nothing is
said: any number of them may be suspended, with any `lvl`. -/
structure IdleAlone (idle : Tid) (s : Cpu Tid) : Prop where
  current : s.current = idle
  noParent : s.parentOf idle = none

/-- The parent chain is `l`: finite, through the idle thread, and sorted. -/
structure Sorted (idle : Tid) (s : Cpu Tid) (l : List Tid) : Prop where
  chain : Chain s.parentOf (some s.current) l
  idle_mem : idle ∈ l
  sorted : l.Pairwise fun a b => s.lvlOf a ≤ s.lvlOf b

/-- `lvl` does not decrease along the parent chain. -/
def InOrder (idle : Tid) (s : Cpu Tid) : Prop := ∃ l, Sorted idle s l

/-- `u` waits behind the running thread. -/
def Behind (s : Cpu Tid) (u : Tid) : Prop :=
  ∃ l, Chain s.parentOf (s.parentOf s.current) l ∧ u ∈ l

/-- When the running thread suspends, the next one waited behind it, and none
that did has a smaller `lvl`. -/
def LowestNext (x : Taken (Cpu Tid) (Made Tid)) : Prop :=
  x.label.call = .suspend →
    Behind x.pre x.post.current ∧ ∀ u, Behind x.pre u → x.pre.lvlOf x.post.current ≤ x.pre.lvlOf u

def Call.WakesOrSuspends : Call Tid → Prop
  | .wake _ => True
  | .suspend => True
  | _ => False

/-- The calls that keep the order: a suspended thread is woken only if it is
not on the chain already, and it belongs on top of the chain or at the second
place; and the idle thread does not suspend. -/
def Call.KeepsOrder (idle : Tid) (s : Cpu Tid) : Call Tid → Prop
  | .wake p => p = s.current ∨ (s.threads p).state = .init ∨ (s.threads p).suspended = false ∨
      ¬ OnChain s p ∧
        (s.lvlOf p ≤ s.lvlOf s.current ∨
          ∀ q, s.parentOf s.current = some q → s.lvlOf p ≤ s.lvlOf q)
  | .suspend => s.current ≠ idle
  | _ => True

theorem IdleAlone.sorted (h : IdleAlone idle s) : Sorted idle s [idle] where
  chain := by
    rw [h.current]
    refine .cons ?_
    rw [h.noParent]
    exact .nil none
  idle_mem := List.mem_singleton_self idle
  sorted := List.pairwise_singleton _ idle

theorem Sorted.eq_cons (h : Sorted idle s l) :
    ∃ r, l = s.current :: r ∧ Chain s.parentOf (s.parentOf s.current) r :=
  Chain.eq_cons h.chain

theorem behind_iff (h : Chain s.parentOf (s.parentOf s.current) r) : Behind s p ↔ p ∈ r :=
  h.exists_mem_iff

/-- The parent of the running thread is the first of those that wait, so it is
enough to compare with it. -/
theorem Sorted.le_behind (h : Sorted idle s (s.current :: r)) {n : Nat}
    (hn : ∀ q, s.parentOf s.current = some q → n ≤ s.lvlOf q) : ∀ u ∈ r, n ≤ s.lvlOf u := by
  intro u hu
  have hr : Chain s.parentOf (s.parentOf s.current) r := h.chain.tail
  cases hpar : s.parentOf s.current with
  | none =>
    rw [hpar] at hr
    rw [Chain.nil_of_none hr] at hu
    cases hu
  | some q =>
    rw [hpar] at hr
    obtain ⟨r', rfl, -⟩ := Chain.eq_cons hr
    have hsorted := (List.pairwise_cons.mp (List.pairwise_cons.mp h.sorted).2).1
    rcases List.mem_cons.mp hu with rfl | hu
    · exact hn u hpar
    · exact Nat.le_trans (hn q hpar) (hsorted u hu)

/-! ## What a call does to the chain -/

variable [DecidableEq Tid] {sw : Option (Switch Tid)} {fuel : Nat}

theorem Switched.lvlOf {old : Tid} {w : Switch Tid} (h : Switched s t p old w) : t.lvlOf = s.lvlOf :=
  funext h.lvl

/-- `p` goes right behind the running thread. -/
structure Spliced (s t : Cpu Tid) (p : Tid) : Prop where
  current : t.current = s.current
  parent : t.parentOf =
    update (update s.parentOf p (s.parentOf s.current)) s.current (some p)
  lvl : t.lvlOf = s.lvlOf

/-- `p` goes on top of the chain. -/
structure Pushed (s t : Cpu Tid) (p : Tid) : Prop where
  current : t.current = p
  parent : t.parentOf = update s.parentOf p (some s.current)
  lvl : t.lvlOf = s.lvlOf

/-- The parent of the running thread is the next to run. -/
structure Popped (s t : Cpu Tid) : Prop where
  current : s.parentOf s.current = some t.current
  parent : t.parentOf = s.parentOf
  lvl : t.lvlOf = s.lvlOf

theorem wake_chain (h : wakeUpThread fuel s p = .ok (t, sw)) :
    (p = s.current ∨ (s.threads p).state = .init ∨ (s.threads p).suspended = false) ∧ t = s ∨
    (p ≠ s.current ∧ (s.threads p).suspended = true ∧ (s.threads p).state ≠ .init) ∧
      (s.lvlOf s.current < s.lvlOf p ∧ Spliced s t p ∨ s.lvlOf p ≤ s.lvlOf s.current ∧ Pushed s t p) := by
  rcases wakeUpThread_cases h with ⟨hno, rfl, -⟩ | ⟨hp, hf, hi, ⟨hlt, -, -, rfl⟩ | ⟨hle, w, -, hsw⟩⟩
  · exact .inl ⟨hno, rfl⟩
  · refine .inr ⟨⟨hp, hf, hi⟩, .inl ⟨hlt, rfl, ?_, ?_⟩⟩
    · funext u
      simp only [Cpu.parentOf, Cpu.upd_threads, update_apply]
      split
      · rfl
      · split <;> rfl
    · funext u
      simp only [Cpu.lvlOf, Cpu.upd_threads]
      split <;> split <;> rfl
  · refine .inr ⟨⟨hp, hf, hi⟩, .inr ⟨hle, hsw.current, ?_, ?_⟩⟩
    · rw [hsw.parentOf]
      funext u
      simp only [Cpu.parentOf, Cpu.upd_threads, update_apply]
      split <;> rfl
    · rw [hsw.lvlOf]
      funext u
      simp only [Cpu.lvlOf, Cpu.upd_threads]
      split <;> rfl

theorem suspend_chain (h : suspendThread s = .ok (t, sw)) : Popped s t := by
  obtain ⟨p, w, hpar, -, -, -, hsw⟩ := suspendThread_cases h
  have hcur : t.current = p := hsw.current
  refine ⟨by rw [hcur]; exact hpar, ?_, ?_⟩
  · rw [hsw.parentOf]
    funext u
    simp only [Cpu.parentOf, Cpu.upd_threads]
    split <;> rfl
  · rw [hsw.lvlOf]
    funext u
    simp only [Cpu.lvlOf, Cpu.upd_threads]
    split <;> rfl

/-! ## Splice -/

theorem Spliced.chain (h : Spliced s t p) (hl : Chain s.parentOf (some s.current) (s.current :: r))
    (hp : p ∉ s.current :: r) : Chain t.parentOf (some t.current) (t.current :: p :: r) := by
  obtain ⟨hne, hpr⟩ := not_or.mp (mt List.mem_cons.mpr hp)
  have hcr := (List.nodup_cons.mp hl.nodup).1
  rw [h.current, h.parent]
  refine Seg.insert (l := []) hl ?_ ?_ (fun y hy => by cases hy) fun y hy => ?_
  · exact update_self _ _ _
  · rw [update_of_ne hne, update_self]
  · rw [update_of_ne (ne_of_mem_of_not_mem hy hcr),
      update_of_ne (ne_of_mem_of_not_mem hy hpr)]

theorem Spliced.not_chain (h : Spliced s t p) (hne : p ≠ s.current)
    (hl : Chain s.parentOf (some s.current) (s.current :: r)) (hp : p ∈ r) (l : List Tid) :
    ¬ Chain t.parentOf (some t.current) l := by
  intro ht
  obtain ⟨a, b, rfl⟩ := List.append_of_mem hp
  have hcr := (List.nodup_cons.mp hl.nodup).1
  obtain ⟨l', rfl, ht'⟩ := Chain.eq_cons ht
  rw [h.current, h.parent, update_self] at ht'
  -- the rest of the chain does not pass through the running thread
  have hrest : Chain (update s.parentOf s.current (some p)) (s.parentOf s.current)
      (a ++ p :: b) :=
    hl.tail.frame fun y hy => update_of_ne (ne_of_mem_of_not_mem hy hcr) _ _
  refine Chain.not_of_cycle hrest (fun u hu => ?_) ?_ _ ht'
  · rw [update_comm hne, update_of_ne hu]
  · rw [update_of_ne hne, update_self]

theorem Spliced.sorted_iff (h : Spliced s t p) (hs : Sorted idle s (s.current :: r))
    (hp : p ∉ s.current :: r) (hlt : s.lvlOf s.current < s.lvlOf p) :
    InOrder idle t ↔ ∀ q, s.parentOf s.current = some q → s.lvlOf p ≤ s.lvlOf q := by
  have hchain := h.chain hs.chain hp
  obtain ⟨hhead, hrest⟩ := List.pairwise_cons.mp hs.sorted
  constructor
  · rintro ⟨l, ht⟩ q hq
    have hsorted := ht.sorted
    rw [Chain.unique ht.chain hchain, h.lvl] at hsorted
    obtain ⟨r', rfl, -⟩ := Chain.eq_cons (hq ▸ hs.chain.tail)
    exact (List.pairwise_cons.mp (List.pairwise_cons.mp hsorted).2).1 q List.mem_cons_self
  · intro hle
    have hbehind := hs.le_behind hle
    refine ⟨_, hchain, ?_, ?_⟩
    · rw [h.current]
      rcases List.mem_cons.mp hs.idle_mem with hi | hi
      · exact hi ▸ List.mem_cons_self
      · exact List.mem_cons_of_mem _ (List.mem_cons_of_mem _ hi)
    · rw [h.lvl, h.current]
      refine .cons (fun u hu => ?_) (.cons hbehind hrest)
      rcases List.mem_cons.mp hu with rfl | hu
      · exact Nat.le_of_lt hlt
      · exact hhead u hu

/-! ## Push and pop -/

theorem Pushed.inOrder (h : Pushed s t p) (hs : Sorted idle s l) (hp : p ∉ l)
    (hle : s.lvlOf p ≤ s.lvlOf s.current) : InOrder idle t := by
  obtain ⟨r, rfl, -⟩ := hs.eq_cons
  have hhead := (List.pairwise_cons.mp hs.sorted).1
  refine ⟨p :: s.current :: r, ?_, List.mem_cons_of_mem p hs.idle_mem, ?_⟩
  · rw [h.current, h.parent]
    refine .cons ?_
    rw [update_self]
    exact hs.chain.frame fun y hy => update_of_ne (ne_of_mem_of_not_mem hy hp) _ _
  · rw [h.lvl]
    refine .cons (fun u hu => ?_) hs.sorted
    rcases List.mem_cons.mp hu with rfl | hu
    · exact hle
    · exact Nat.le_trans hle (hhead u hu)

theorem Pushed.not_chain (h : Pushed s t p) (hl : Chain s.parentOf (some s.current) l)
    (hp : p ∈ l) (r : List Tid) : ¬ Chain t.parentOf (some t.current) r := by
  obtain ⟨a, b, rfl⟩ := List.append_of_mem hp
  rw [h.current, h.parent]
  exact Chain.not_of_cycle hl (fun u hu => update_of_ne hu _ _)
    (update_self _ _ _) r

omit [DecidableEq Tid] in
theorem Popped.sorted_iff (h : Popped s t) (hs : Sorted idle s (s.current :: r)) :
    InOrder idle t ↔ s.current ≠ idle := by
  have hchain : Chain t.parentOf (some t.current) r := by
    rw [h.parent, ← h.current]
    exact hs.chain.tail
  constructor
  · rintro ⟨l, ht⟩ rfl
    have hmem := ht.idle_mem
    rw [Chain.unique ht.chain hchain] at hmem
    exact (List.nodup_cons.mp hs.chain.nodup).1 hmem
  · intro hne
    refine ⟨r, hchain, (List.mem_cons.mp hs.idle_mem).resolve_left hne.symm, ?_⟩
    rw [h.lvl]
    exact (List.pairwise_cons.mp hs.sorted).2

omit [DecidableEq Tid] in
theorem Popped.lowest (h : Popped s t) (hs : Sorted idle s (s.current :: r)) :
    Behind s t.current ∧ ∀ u, Behind s u → s.lvlOf t.current ≤ s.lvlOf u := by
  have hr : Chain s.parentOf (s.parentOf s.current) r := hs.chain.tail
  have hr' := hr
  rw [h.current] at hr'
  obtain ⟨r', rfl, -⟩ := Chain.eq_cons hr'
  refine ⟨(behind_iff hr).mpr List.mem_cons_self, fun u hu => ?_⟩
  refine hs.le_behind (fun q hq => ?_) u ((behind_iff hr).mp hu)
  rw [h.current] at hq
  cases hq
  exact Nat.le_refl _

/-! ## Calls and runs -/

/-- From a sorted chain, a call leads to a sorted chain exactly if it is one of
those that keep the order. -/
theorem Sorted.exec_iff {c : Call Tid} (hs : Sorted idle s l) (hc : c.WakesOrSuspends)
    (h : exec fuel s c = .ok (t, sw)) : InOrder idle t ↔ c.KeepsOrder idle s := by
  obtain ⟨r, rfl, -⟩ := hs.eq_cons
  cases c with
  | resume p => cases hc
  | yield => cases hc
  | exit => cases hc
  | suspend => exact (suspend_chain h).sorted_iff hs
  | wake p =>
    rcases wake_chain h with ⟨hno, rfl⟩ | ⟨⟨hp, hf, hi⟩, hdone⟩
    · refine iff_of_true ⟨_, hs⟩ ?_
      rcases hno with hno | hno | hno
      · exact .inl hno
      · exact .inr (.inl hno)
      · exact .inr (.inr (.inl hno))
    · -- the call does something: what is left of the condition
      have hcond : Call.KeepsOrder idle s (.wake p) ↔ p ∉ s.current :: r ∧
          (s.lvlOf p ≤ s.lvlOf s.current ∨
            ∀ q, s.parentOf s.current = some q → s.lvlOf p ≤ s.lvlOf q) := by
        simp only [Call.KeepsOrder, hp, hi, hf, onChain_iff hs.chain, Bool.true_eq_false, false_or]
      rw [hcond]
      by_cases hon : p ∈ s.current :: r
      · -- already on the chain: a cycle
        refine iff_of_false ?_ fun hc => hc.1 hon
        rintro ⟨l, ht⟩
        rcases hdone with ⟨-, hsp⟩ | ⟨-, hpu⟩
        · have hr := (List.mem_cons.mp hon).resolve_left hp
          exact hsp.not_chain hp hs.chain hr l ht.chain
        · exact hpu.not_chain hs.chain hon l ht.chain
      · rcases hdone with ⟨hlt, hsp⟩ | ⟨hle, hpu⟩
        · rw [hsp.sorted_iff hs hon hlt]
          refine ⟨fun hq => ⟨hon, .inr hq⟩, fun hq => hq.2.resolve_left (Nat.not_le.mpr hlt)⟩
        · exact iff_of_true (hpu.inOrder hs hon hle) ⟨hon, .inl hle⟩

/-- **The chain is sorted** in every state of a run of `wake_up_thread` and
`suspend_thread`, and the thread that runs after a suspend has the smallest
`lvl` of those that wait, exactly if every call keeps the order. -/
theorem sorted_iff_keepsOrder {tr : List (Taken (Cpu Tid) (Made Tid))} (hb : IdleAlone idle s)
    (h : Trace Step s tr t) (honly : ∀ x ∈ tr, x.label.call.WakesOrSuspends) :
    (InOrder idle s ∧ ∀ x ∈ tr, InOrder idle x.post ∧ LowestNext x) ↔
      ∀ x ∈ tr, x.label.call.KeepsOrder idle x.pre := by
  have hstart : InOrder idle s := ⟨_, hb.sorted⟩
  constructor
  · rintro ⟨-, hall⟩
    refine h.guarded (InOrder idle) (fun _ m t => m.call.WakesOrSuspends ∧ InOrder idle t)
      (fun s m => m.call.KeepsOrder idle s) ?_ hstart fun x hx => ⟨honly x hx, (hall x hx).1⟩
    rintro s m t ⟨l, hs⟩ ⟨fuel, he⟩ ⟨hc, ht⟩
    exact ⟨(hs.exec_iff hc he).mp ht, ht⟩
  · intro hkeep
    have hrun := h.invariant (InOrder idle)
      (fun s m => m.call.WakesOrSuspends ∧ m.call.KeepsOrder idle s)
      (fun ⟨l, hs⟩ hg ⟨fuel, he⟩ => (hs.exec_iff hg.1 he).mpr hg.2) hstart
      fun x hx => ⟨honly x hx, hkeep x hx⟩
    refine ⟨hstart, fun x hx => ⟨(hrun.2 x hx).2, fun hsus => ?_⟩⟩
    obtain ⟨l, hs⟩ := (hrun.2 x hx).1
    obtain ⟨r, rfl, -⟩ := hs.eq_cons
    obtain ⟨fuel, he⟩ := h.taken x hx
    rw [hsus] at he
    exact (suspend_chain he).lowest hs

/-- The idle thread and three threads that have suspended: a tasklet, a work
queue and a user thread. -/
def sleepers : Cpu (Fin 4) where
  current := 0
  threads t :=
    ⟨if t = 0 then none else some ⟨t, 0⟩,
      if t = 0 then 4096 else if t = 1 then 128 else if t = 2 then 512 else 2048,
      if t = 0 then 4#32 else threadSuspend, .run, if t = 0 then none else some 0⟩
  running := 0
  clock := 1
  away _ := none

theorem sleepers_idle : IdleAlone 0 sleepers := ⟨rfl, rfl⟩

/-- The tasklet is woken, wakes the work queue and suspends. -/
theorem sorted_iff_keepsOrder_two :
    ∃ tr t, Trace Step sleepers tr t ∧ tr.length = 3 ∧ t.current = 2 ∧ InOrder 0 t := by
  have htr : Trace Step sleepers
      [⟨_, ⟨.wake 1, _⟩, _⟩, ⟨_, ⟨.wake 2, _⟩, _⟩, ⟨_, ⟨.suspend, _⟩, _⟩] _ :=
    .step ⟨0, rfl⟩ (.step ⟨0, rfl⟩ (.step ⟨0, rfl⟩ (.done _)))
  refine ⟨_, _, htr, rfl, rfl, (((sorted_iff_keepsOrder sleepers_idle htr ?_).mpr ?_).2 _
    (List.mem_of_getLast? rfl)).1⟩
  · intro x hx
    simp only [List.mem_cons, List.not_mem_nil, or_false] at hx
    rcases hx with rfl | rfl | rfl
    · trivial
    · trivial
    · trivial
  · intro x hx
    simp only [List.mem_cons, List.not_mem_nil, or_false] at hx
    rcases hx with rfl | rfl | rfl
    · refine .inr (.inr (.inr ⟨?_, .inl (by decide)⟩))
      rw [onChain_iff sleepers_idle.sorted.chain]
      decide
    · refine .inr (.inr (.inr ⟨?_, .inr ?_⟩))
      · refine mt (onChain_iff (l := [1, 0]) ?_).mp (by decide)
        exact .cons (.cons (.nil none))
      · rintro q ⟨⟩
        decide
    · show (1 : Fin 4) ≠ 0
      decide

/-- **The order is lost.** The tasklet is woken and wakes the work queue (512)
and then the user thread (2048), which is put in front of it: when the tasklet
suspends, the user thread runs and the work queue waits. -/
theorem wake_breaks_order :
    ∃ tr t, Trace Step sleepers tr t ∧ (∀ x ∈ tr, x.label.call.WakesOrSuspends) ∧
      ¬ InOrder 0 t ∧ (∃ x ∈ tr, ¬ LowestNext x) ∧
      t.current = 3 ∧ t.lvlOf 3 = 2048 ∧ t.parentOf 3 = some 2 ∧ t.lvlOf 2 = 512 := by
  have htr : Trace Step sleepers
      [⟨_, ⟨.wake 1, _⟩, _⟩, ⟨_, ⟨.wake 2, _⟩, _⟩, ⟨_, ⟨.wake 3, _⟩, _⟩, ⟨_, ⟨.suspend, _⟩, _⟩] _ :=
    .step ⟨0, rfl⟩ (.step ⟨0, rfl⟩ (.step ⟨0, rfl⟩ (.step ⟨0, rfl⟩ (.done _))))
  refine ⟨_, _, htr, ?_, ?_, ⟨_, List.mem_of_getLast? rfl, ?_⟩, rfl, rfl, rfl, rfl⟩
  · intro x hx
    simp only [List.mem_cons, List.not_mem_nil, or_false] at hx
    rcases hx with rfl | rfl | rfl | rfl
    · trivial
    · trivial
    · trivial
    · trivial
  · rintro ⟨l, hl⟩
    obtain ⟨r, rfl, hr⟩ := hl.eq_cons
    obtain ⟨r', rfl, -⟩ := Chain.eq_cons (x := 2) hr
    have hle := (List.pairwise_cons.mp hl.sorted).1 2 List.mem_cons_self
    revert hle
    decide
  · intro hlow
    have hle := (hlow rfl).2 2 ⟨[3, 2, 0], .cons (.cons (.cons (.nil none))), by decide⟩
    revert hle
    decide

end Yaos.Kthread
