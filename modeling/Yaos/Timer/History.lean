import Mathlib.Data.List.Range
import Yaos.Lib.Run
import Yaos.Timer.Batch

/-!
# Every timer fires once

Runs of `set_timeout`, the clock and `run_timer_softirq`, in any order; a
`set_timeout` between two calls of a run is one that a function makes. The
books are kept by one permutation: what was called, what is still to be
called and what is on the list are together what was registered.
-/

namespace Yaos.Timer

open Yaos.Lib

variable {F : Type} {s t : State F} {l f : List Nat} {r : Frame F}

inductive Op (F : Type) where
  | setTimeout (msec : Nat) (pfunc : F) (answer : Option Nat)
  | tick (now : Nat)
  | softirq
  | call

/-- `yaos_malloc` answers with no node that is in use. -/
def Fresh (s : State F) (answer : Option Nat) : Prop :=
  ∀ p, answer = some p → ∀ l, Chain s.next s.ptimer l ∨ Chain s.next s.pfree l → p ∉ l

/-- One step. A deadline does not wrap, and the clock does not go back. -/
def Step (s : State F) (op : Op F) (t : State F) : Prop :=
  match op with
  | .setTimeout msec pfunc answer => msec + s.msecCount < 2 ^ 64 ∧ Fresh s answer ∧
      ∃ fuel code, setTimeout fuel s msec pfunc answer = .ok (code, t)
  | .tick now => s.msecCount ≤ now ∧ t = { s with msecCount := now }
  | .softirq => s.run = none ∧ t = runTimerSoftirq s
  | .call => ∃ r, s.run = some r ∧ call s r = .ok t

/-- What the current run still has to call. -/
def State.left (s : State F) : List (Reg F) := s.run.elim [] Frame.left

/-! ## The invariant -/

structure Core (s : State F) (l f : List Nat) : Prop where
  lists : Lists s [] l f
  sorted : (s.regs l).Pairwise Reg.Before
  ids : s.registered.map Reg.id = List.range s.registered.length
  due : ∀ c ∈ s.invoked, c.1.deadline ≤ c.2

/-- A run with local variables `r`: what it has called and will call is due,
in order, and before all that is on the list. -/
structure Going (s : State F) (l : List Nat) (r : Frame F) : Prop where
  full : r.left.length = r.i - r.callnr
  due : ∀ x ∈ r.called ++ r.left, x.deadline ≤ s.msecCount
  order : (r.called ++ r.left).Pairwise Reg.Before
  below : ∀ x ∈ r.called ++ r.left, ∀ y ∈ s.regs l, x.Before y
  stays : r.callnr ≠ 0 → ∀ y ∈ s.regs l, y.id < r.count → r.clock < y.deadline
  clock : r.clock ≤ s.msecCount
  count : r.count ≤ s.registered.length
  record : ∃ old, s.invoked.map Prod.fst = old ++ r.called

structure Inv (s : State F) (l f : List Nat) : Prop extends Core s l f where
  books : (s.invoked.map Prod.fst ++ (s.left ++ s.regs l)).Perm s.registered
  going : ∀ r, s.run = some r → Going s l r

theorem initTimer_inv (g : F) (m : Nat) : Inv (initTimer g m) [] (List.range nrTimerBuf) where
  lists := by
    refine ⟨.nil _, ?_, by decide⟩
    have hseg : ∀ n i, i + n = nrTimerBuf → 0 < n →
        Chain (initTimer g m).next (some i) (List.range' i n) := by
      intro n
      induction n with
      | zero => intro i _ h0; omega
      | succ n ih =>
        intro i hi _
        refine .cons ?_
        have hnext : (initTimer g m).next i = if i + 1 < nrTimerBuf then some (i + 1) else none :=
          rfl
        rw [hnext]
        cases n with
        | zero =>
          rw [if_neg (by omega)]
          exact .nil _
        | succ n =>
          rw [if_pos (by omega)]
          exact ih (i + 1) (by omega) (by omega)
    rw [List.range_eq_range']
    exact hseg nrTimerBuf 0 rfl (by decide)
  sorted := List.Pairwise.nil
  ids := rfl
  due := by simp [initTimer]
  books := List.Perm.refl _
  going := by simp [initTimer]

/-! ## `set_timeout` -/

/-- A new registration `n` between the timers of `a` and `b`. -/
structure Inserted (s t : State F) (n : Reg F) (a b f : List Nat) (p : Nat) : Prop where
  lists : Lists t [] (a ++ p :: b) f
  sorted : (t.regs (a ++ p :: b)).Pairwise Reg.Before
  regs : t.regs (a ++ p :: b) = s.regs a ++ n :: s.regs b
  registered : t.registered = s.registered ++ [n]
  msecCount : t.msecCount = s.msecCount
  run : t.run = s.run
  invoked : t.invoked = s.invoked

theorem insert_spec {fuel msec p : Nat} {g : F} (hl : Lists s [p] l f)
    (hsort : (s.regs l).Pairwise Reg.Before) (h : s.insert fuel p msec g = .ok t) :
    ∃ a b, l = a ++ b ∧
      Inserted s t ⟨s.registered.length, s.deadline msec, g⟩ a b f p := by
  have hp := hl.held_notMem.1
  have harm := hl.arm (s.deadline msec) g
  have hreg := arm_reg_self s p (s.deadline msec) g
  have hsame := arm_regs (s := s) (s.deadline msec) g hp
  obtain ⟨a, b, rfl, hlinked⟩ := link_spec harm h
  have hsorted := hlinked.sorted (congrArg Reg.deadline hreg) (hsame ▸ hsort)
  have hr := hlinked.relinked
  have hcat : (s.arm p (s.deadline msec) g).regs (a ++ b) =
      (s.arm p (s.deadline msec) g).regs a ++ (s.arm p (s.deadline msec) g).regs b := by
    simp [State.regs]
  have hab : p ∉ a ∧ p ∉ b := by simpa [not_or] using hp
  refine ⟨a, b, rfl, hlinked.lists, hsorted, ?_, hr.registered, hr.msecCount, hlinked.run,
    hr.invoked⟩
  rw [hr.regs]
  have hsplit : (s.arm p (s.deadline msec) g).regs (a ++ p :: b) =
      (s.arm p (s.deadline msec) g).regs a ++ ((s.arm p (s.deadline msec) g).node p).reg ::
        (s.arm p (s.deadline msec) g).regs b := by
    simp [State.regs]
  rw [hsplit, hreg, arm_regs _ g hab.1, arm_regs _ g hab.2]

theorem Inv.inserted {n : Reg F} {a b f' : List Nat} {p : Nat} (hi : Inv s (a ++ b) f)
    (h : Inserted s t n a b f' p) (hid : n.id = s.registered.length)
    (hd : s.msecCount ≤ n.deadline) : Inv t (a ++ p :: b) f' := by
  have hold : s.regs (a ++ b) = s.regs a ++ s.regs b := by simp [State.regs]
  have hmem : ∀ y ∈ t.regs (a ++ p :: b), y = n ∨ y ∈ s.regs (a ++ b) := by
    intro y hy
    rw [h.regs, List.mem_append, List.mem_cons] at hy
    rw [hold, List.mem_append]
    tauto
  have hleft : t.left = s.left := by rw [State.left, State.left, h.run]
  refine ⟨⟨h.lists, h.sorted, ?_, h.invoked ▸ hi.due⟩, ?_, fun r hr => ?_⟩
  · rw [h.registered, List.map_append, hi.ids, List.length_append, List.length_singleton,
      List.range_succ, List.map_singleton, hid]
  · rw [h.invoked, hleft, h.regs, h.registered]
    have hbooks := hi.books
    rw [hold] at hbooks
    refine List.Perm.trans ?_ (hbooks.append_right [n])
    simp only [List.append_assoc]
    refine List.Perm.append_left _ (List.Perm.append_left _ (List.Perm.append_left _ ?_))
    exact (List.perm_append_singleton n _).symm
  · rw [h.run] at hr
    have hg := hi.going r hr
    refine ⟨hg.full, h.msecCount ▸ hg.due, hg.order, fun x hx y hy => ?_, fun hc y hy hy' => ?_,
      h.msecCount ▸ hg.clock, ?_, h.invoked ▸ hg.record⟩
    · rcases hmem y hy with rfl | hy
      · exact Nat.le_trans (hg.due x hx) hd
      · exact hg.below x hx y hy
    · rcases hmem y hy with rfl | hy
      · have := hg.count
        omega
      · exact hg.stays hc y hy hy'
    · have := hg.count
      rw [h.registered, List.length_append]
      omega

theorem Inv.setTimeout {fuel msec : Nat} {code : Int} {g : F} {answer : Option Nat} (hi : Inv s l f)
    (hw : msec + s.msecCount < 2 ^ 64) (hfresh : Fresh s answer)
    (h : Timer.setTimeout fuel s msec g answer = .ok (code, t)) : ∃ l' f', Inv t l' f' := by
  have hd : s.deadline msec = msec + s.msecCount := Nat.mod_eq_of_lt hw
  have hnot : ∀ p, answer = some p → p ∉ [] ++ (l ++ f) := by
    intro p hp
    have h₁ := hfresh p hp l (.inl hi.lists.timer)
    have h₂ := hfresh p hp f (.inr hi.lists.pool)
    simpa [not_or] using ⟨h₁, h₂⟩
  rcases setTimeout_cases hi.lists hnot h with
    ⟨-, -, rfl⟩ | ⟨p, f', rfl, -, hl, hins⟩ | ⟨p, -, -, hl, hins⟩
  · exact ⟨l, f, hi⟩
  · obtain ⟨a, b, rfl, hn⟩ := insert_spec hl hi.sorted hins
    have hn' : Inserted s t ⟨s.registered.length, s.deadline msec, g⟩ a b f' p :=
      ⟨hn.lists, hn.sorted, hn.regs, hn.registered, hn.msecCount, hn.run, hn.invoked⟩
    exact ⟨_, f', hi.inserted hn' rfl (by dsimp only; omega)⟩
  · obtain ⟨a, b, rfl, hn⟩ := insert_spec hl hi.sorted hins
    exact ⟨_, f, hi.inserted hn rfl (by dsimp only; omega)⟩

theorem setTimeout_returns (hc : Chain s.next s.ptimer l) (msec : Nat) (g : F)
    (answer : Option Nat) : ∃ out, Timer.setTimeout l.length s msec g answer = .ok out := by
  have hins : ∀ s₁ : State F, s₁.next = s.next → s₁.ptimer = s.ptimer →
      ∀ p, ∃ t, s₁.insert l.length p msec g = .ok t := by
    intro s₁ hnext htimer p
    have hc₁ : Chain (s₁.arm p (s₁.deadline msec) g).next s₁.ptimer l := by
      rw [arm_next, hnext, htimer]
      exact hc
    exact link_returns hc₁ (Nat.le_refl _)
  unfold Timer.setTimeout
  split
  next p hp =>
    obtain ⟨t, ht⟩ := hins (s.pop p) rfl rfl p
    exact ⟨(0, t), by rw [ht]; rfl⟩
  next =>
    split
    next => exact ⟨_, rfl⟩
    next p =>
      obtain ⟨t, ht⟩ := hins s rfl rfl p
      exact ⟨(0, t), by rw [ht]; rfl⟩

/-! ## The clock and `run_timer_softirq` -/

theorem Inv.tick {now : Nat} (hi : Inv s l f) (hnow : s.msecCount ≤ now) :
    Inv { s with msecCount := now } l f := by
  refine ⟨⟨⟨hi.lists.timer, hi.lists.pool, hi.lists.nodup⟩, hi.sorted, hi.ids, hi.due⟩, hi.books,
    fun r hr => ?_⟩
  have hg := hi.going r hr
  exact { hg with
    due := fun x hx => Nat.le_trans (hg.due x hx) hnow
    clock := Nat.le_trans hg.clock hnow }

/-- `run_timer_softirq` is entered, or enters itself after a batch; if it
returns, what is left on the list is not due. -/
theorem Core.enter (hc : Core s l f)
    (hbooks : (s.invoked.map Prod.fst ++ s.regs l).Perm s.registered) (hg : Going s l r)
    (hleft : r.left = []) :
    ∃ l' f', Inv (enter s r.clock r.count r.called) l' f' ∧
      ((enter s r.clock r.count r.called).run = none →
        ∀ y ∈ (enter s r.clock r.count r.called).regs l', r.clock < y.deadline) := by
  rcases enter_spec r.clock r.count r.called hc.lists with
    ⟨heq, hlater⟩ | ⟨a, b, r', rfl, hne, htake, hclock, hcount, hcalled⟩
  · rw [heq]
    refine ⟨l, f, ⟨⟨⟨hc.lists.timer, hc.lists.pool, hc.lists.nodup⟩, hc.sorted, hc.ids, hc.due⟩,
      hbooks, by simp⟩, fun _ y hy => ?_⟩
    exact Nat.lt_of_le_of_lt hg.clock (not_before_of_head hc.sorted hlater y hy)
  · generalize enter s r.clock r.count r.called = t at htake
    have hr := htake.relinked
    have hcat : s.regs (a ++ b) = s.regs a ++ s.regs b := by simp [State.regs]
    have hsort := hc.sorted
    have hdue := hg.due
    have horder := hg.order
    have hbelow := hg.below
    rw [hleft, List.append_nil] at hdue horder hbelow
    rw [hcat] at hsort hbelow hbooks
    obtain ⟨hsort₁, hsort₂, hsort₁₂⟩ := List.pairwise_append.mp hsort
    refine ⟨b, a ++ f, ⟨⟨htake.lists, ?_, ?_, ?_⟩, ?_, fun r'' hr'' => ?_⟩, ?_⟩
    · rw [hr.regs]
      exact hsort₂
    · rw [hr.registered]
      exact hc.ids
    · rw [hr.invoked]
      exact hc.due
    · rw [hr.invoked, hr.registered, hr.regs, State.left, htake.run]
      show (_ ++ (r'.left ++ _)).Perm _
      rw [htake.left]
      exact hbooks
    · have hsome := htake.run.symm.trans hr''
      cases hsome
      refine ⟨htake.full, ?_, ?_, ?_, ?_, ?_, ?_, ?_⟩
      · rw [hcalled, htake.left, hr.msecCount]
        intro x hx
        rcases List.mem_append.mp hx with hx | hx
        · exact hdue x hx
        · exact htake.due x hx
      · rw [hcalled, htake.left]
        refine List.pairwise_append.mpr ⟨horder, hsort₁, fun x hx y hy => ?_⟩
        exact hbelow x hx y (List.mem_append_left _ hy)
      · rw [hcalled, htake.left, hr.regs]
        intro x hx y hy
        rcases List.mem_append.mp hx with hx | hx
        · exact hbelow x hx y (List.mem_append_right _ hy)
        · exact hsort₁₂ x hx y hy
      · intro hcallnr y hy _
        rw [hr.regs] at hy
        rw [hclock]
        exact Nat.lt_of_le_of_lt hg.clock (not_before_of_head hsort₂ (htake.stays hcallnr) y hy)
      · rw [hclock, hr.msecCount]
        exact hg.clock
      · rw [hcount, hr.registered]
        exact hg.count
      · rw [hcalled, hr.invoked]
        exact hg.record
    · intro hnone
      rw [htake.run] at hnone
      cases hnone

theorem call_cases (s : State F) (hfull : r.left.length = r.i - r.callnr) :
    (∃ g i, r.left = g :: ({ r with i := i, called := r.called ++ [g] } : Frame F).left ∧
        r.i = i + 1 ∧ call s r = .ok { s with
          invoked := s.invoked ++ [(g, s.msecCount)]
          run := some { r with i := i, called := r.called ++ [g] } }) ∨
      r.left = [] ∧ call s r = .ok (leave s r) := by
  rw [Frame.left] at hfull
  unfold call Frame.left
  cases hi : r.i with
  | zero => exact .inr ⟨rfl, rfl⟩
  | succ i =>
    rw [hi, collect] at hfull
    rw [collect]
    dsimp only
    by_cases hle : r.callnr ≤ i
    · rw [if_pos hle] at hfull ⊢
      cases harr : r.funcarr i with
      | none =>
        rw [harr, List.length_nil] at hfull
        omega
      | some g => exact .inl ⟨g, i, rfl, rfl, if_pos hle⟩
    · rw [if_neg hle]
      exact .inr ⟨rfl, if_neg hle⟩

/-- One step of the loop; if `run_timer_softirq` returns, no earlier timer
on the list is due. -/
theorem Inv.call (hi : Inv s l f) (hr : s.run = some r) (h : Timer.call s r = .ok t) :
    ∃ l' f', Inv t l' f' ∧
      (t.run = none → ∀ y ∈ t.regs l', y.id < r.count → r.clock < y.deadline) := by
  have hg := hi.going r hr
  have hbooks := hi.books
  have hleft : s.left = r.left := by rw [State.left, hr, Option.elim_some]
  rcases call_cases s hg.full with ⟨g, i, hg', hri, hcall⟩ | ⟨hnil, hcall⟩
  · cases hcall.symm.trans h
    have hall : r.called ++ r.left = r.called ++ [g] ++
        ({ r with i := i, called := r.called ++ [g] } : Frame F).left := by
      rw [hg', List.append_assoc]
      rfl
    have hdue := hg.due
    have horder := hg.order
    have hbelow := hg.below
    have hfull := hg.full
    rw [hall] at hdue horder hbelow
    rw [hg', hri, List.length_cons] at hfull
    refine ⟨l, f, ⟨⟨⟨hi.lists.timer, hi.lists.pool, hi.lists.nodup⟩, hi.sorted, hi.ids, ?_⟩, ?_,
      fun r' hr' => ?_⟩, fun hnone => by cases hnone⟩
    · intro c hc
      rcases List.mem_append.mp hc with hc | hc
      · exact hi.due c hc
      · rw [List.mem_singleton.mp hc]
        exact hdue g (by simp)
    · rw [hleft, hg'] at hbooks
      rw [List.map_append, List.append_assoc]
      exact hbooks
    · cases hr'
      obtain ⟨old, hold⟩ := hg.record
      refine ⟨?_, hdue, horder, hbelow, hg.stays, hg.clock, hg.count, old, ?_⟩
      · dsimp only
        omega
      · rw [List.map_append, hold, List.append_assoc]
        rfl
  · cases hcall.symm.trans h
    rw [hleft, hnil, List.nil_append] at hbooks
    rw [leave]
    split
    next =>
      obtain ⟨l', f', hi', hret⟩ := hi.toCore.enter hbooks hg hnil
      exact ⟨l', f', hi', fun hnone y hy _ => hret hnone y hy⟩
    next hne =>
      exact ⟨l, f, ⟨⟨⟨hi.lists.timer, hi.lists.pool, hi.lists.nodup⟩, hi.sorted, hi.ids, hi.due⟩,
        hbooks, by simp⟩, fun _ => hg.stays hne⟩

theorem Inv.softirq (hi : Inv s l f) (hr : s.run = none) :
    ∃ l' f', Inv (runTimerSoftirq s) l' f' ∧ ((runTimerSoftirq s).run = none →
      ∀ y ∈ (runTimerSoftirq s).regs l', s.msecCount < y.deadline) := by
  have hbooks := hi.books
  have hleft : s.left = [] := by rw [State.left, hr, Option.elim_none]
  rw [hleft, List.nil_append] at hbooks
  have hg : Going s l ⟨fun _ => none, 0, 0, s.msecCount, s.registered.length, []⟩ :=
    ⟨rfl, by simp [Frame.left, collect], by simp [Frame.left, collect],
      by simp [Frame.left, collect], fun h => absurd rfl h, Nat.le_refl _, Nat.le_refl _,
      s.invoked.map Prod.fst, by simp⟩
  exact hi.toCore.enter hbooks hg rfl

/-! ## Whole runs -/

/-- What holds of the timers at any time: the list is sorted; everything
registered has been called, is about to be called or is on the list, and in
one of these only; nothing was called too early, and the current run calls
in order; and nothing gets stuck. -/
structure Sound (s : State F) : Prop where
  pending : ∃ l, Chain s.next s.ptimer l ∧ (s.regs l).Pairwise Reg.Before ∧
    (s.invoked.map Prod.fst ++ (s.left ++ s.regs l)).Perm s.registered
  distinct : (s.registered.map Reg.id).Nodup
  notEarly : ∀ c ∈ s.invoked, c.1.deadline ≤ c.2
  inOrder : ∀ r, s.run = some r → r.called.Pairwise Reg.Before ∧
    ∃ old, s.invoked.map Prod.fst = old ++ r.called
  proceeds : (∀ msec g answer, ∃ fuel out, setTimeout fuel s msec g answer = .ok out) ∧
    ∀ r, s.run = some r → ∃ t, call s r = .ok t

/-- A run of `run_timer_softirq` returns that was entered at `clock`, after
`count` registrations. -/
def Returns (x : Taken (State F) (Op F)) (clock count : Nat) : Prop :=
  x.post.run = none ∧
    (x.label = .softirq ∧ x.pre.msecCount = clock ∧ x.pre.registered.length = count ∨
      x.label = .call ∧ ∃ r, x.pre.run = some r ∧ r.clock = clock ∧ r.count = count)

theorem Inv.sound (hi : Inv s l f) : Sound s where
  pending := ⟨l, hi.lists.timer, hi.sorted, hi.books⟩
  distinct := by
    rw [hi.ids]
    exact List.nodup_range
  notEarly := hi.due
  inOrder r hr := by
    have hg := hi.going r hr
    exact ⟨(List.pairwise_append.mp hg.order).1, hg.record⟩
  proceeds := by
    refine ⟨fun msec g answer => ⟨_, setTimeout_returns hi.lists.timer msec g answer⟩, ?_⟩
    intro r hr
    rcases call_cases s (hi.going r hr).full with ⟨_, _, _, _, h⟩ | ⟨_, h⟩
    · exact ⟨_, h⟩
    · exact ⟨_, h⟩

theorem Inv.step {op : Op F} (hi : Inv s l f) (h : Step s op t) :
    ∃ l' f', Inv t l' f' ∧ ∀ clock count, Returns ⟨s, op, t⟩ clock count →
      ∀ y ∈ t.regs l', y.id < count → clock < y.deadline := by
  cases op with
  | setTimeout msec g answer =>
    obtain ⟨hw, hfresh, fuel, code, h⟩ := h
    obtain ⟨l', f', hi'⟩ := hi.setTimeout hw hfresh h
    exact ⟨l', f', hi', by simp [Returns]⟩
  | tick now =>
    obtain ⟨hnow, rfl⟩ := h
    exact ⟨l, f, hi.tick hnow, by simp [Returns]⟩
  | softirq =>
    obtain ⟨hr, rfl⟩ := h
    obtain ⟨l', f', hi', hret⟩ := hi.softirq hr
    refine ⟨l', f', hi', fun clock count hx y hy _ => ?_⟩
    obtain ⟨hnone, ⟨-, rfl, -⟩ | ⟨hlabel, -⟩⟩ := hx
    · exact hret hnone y hy
    · cases hlabel
  | call =>
    obtain ⟨r, hr, h⟩ := h
    obtain ⟨l', f', hi', hret⟩ := hi.call hr h
    refine ⟨l', f', hi', fun clock count hx y hy hy' => ?_⟩
    obtain ⟨hnone, ⟨hlabel, -⟩ | ⟨-, r', hr', rfl, rfl⟩⟩ := hx
    · cases hlabel
    · cases hr.symm.trans hr'
      exact hret hnone y hy hy'

end Yaos.Timer
