import Yaos.Phymem.Search
import Yaos.Softirq.Model

/-!
# No raise is lost

A softirq that was raised is started later, or its bit is still set, or
the pass that runs has it in front of it (`Covered`). Only the current run
can be in a pass: all others wait in `wakeup_taskletd`. In a pass, what was
started and what is in front of it are the bits of its beginning (`Pass`).
How many statements a run still has (`Frame.left`) falls with each of them,
so that a run ends whatever interrupts do.
-/

namespace Yaos.Softirq

open Yaos.Lib

variable {s t : State} {r : Frame} {rest : List Frame} {nr : Nat}

/-- The entry of `softirq_vec` the loop goes on with. -/
def Frame.place (r : Frame) : Nat :=
  match r.pc with
  | .running _ => r.h + 1
  | _ => r.h

/-- The softirq is in front of the pass. -/
def Frame.Due (r : Frame) (nr : Nat) : Prop :=
  match r.pc with
  | .loop => r.h ≤ nr ∧ r.pending.getLsbD (nr - r.h) = true
  | .running bit => r.h + 1 ≤ nr ∧ (r.pending >>> bit).getLsbD (nr - (r.h + 1)) = true
  | _ => False

/-- A pass: started so far and still in front of it. -/
structure Pass (r : Frame) : Prop where
  ordered : r.ran.Pairwise (· < ·)
  below : ∀ i ∈ r.ran, i < r.place
  bits : ∀ i, r.snapshot.getLsbD i = true ↔ i ∈ r.ran ∨ r.Due i

/-- A pass that is over: it has started the actions whose bits were pending
at its beginning, each once and in ascending order. -/
structure PassDone (r : Frame) : Prop where
  ordered : r.ran.Pairwise (· < ·)
  bits : ∀ i, i ∈ r.ran ↔ r.snapshot.getLsbD i = true

/-- A run that waits in `wakeup_taskletd`. -/
structure Waits (r : Frame) : Prop where
  pc : r.pc = .woken
  passes : r.passes ≤ maxSoftirqRestart
  woke : r.woke = true

/-- The pass counts among those `max_restart` allows. -/
def Frame.InPass (r : Frame) : Prop :=
  r.passes + r.maxRestart = maxSoftirqRestart + 1 ∧ 0 < r.maxRestart ∧ 0 < r.passes

def Frame.Ok (pending : BitVec 32) (r : Frame) : Prop :=
  match r.pc with
  | .restart => r.pending = pending ∧ r.passes + r.maxRestart = maxSoftirqRestart ∧
      0 < r.maxRestart
  | .loop => Pass r ∧ r.InPass
  | .running _ => Pass r ∧ r.InPass
  | .behind => r.InPass
  | .woken => Waits r

/-- Every run has counted itself in `tasklet_count`. -/
def Counted : Int → List Frame → Prop
  | c, [] => c = -1
  | c, r :: rest => c = r.count + 1 ∧ Counted r.count rest

/-- The action is started after place `i` of the log. -/
def Later (log : List Entry) (i nr : Nat) : Prop := ∃ j, i < j ∧ log[j]? = some (.started nr)

/-- The raise at place `i` of the log is not lost. -/
def Covered (s : State) (i nr : Nat) : Prop :=
  Later s.log i nr ∨ s.pending.getLsbD nr = true ∨
    ∃ r ∈ s.stack.head?, r.Due nr

structure Inv (s : State) : Prop where
  top : ∀ r ∈ s.stack.head?, r.Ok s.pending
  waits : ∀ r ∈ s.stack.tail, Waits r
  counted : Counted s.taskletCount s.stack
  covered : ∀ i nr, s.log[i]? = some (.raised nr) → Covered s i nr
  registered : ∀ nr, s.pending.getLsbD nr = true ∨ (∃ r ∈ s.stack.head?, r.Due nr) →
    s.registered nr = true

/-- A bound on the statements the run still executes: a pass starts 32 actions
at most and has two statements for each, and three of its own. -/
def Frame.left (r : Frame) : Nat :=
  match r.pc with
  | .restart => 67 * r.maxRestart + 1
  | .loop => 2 * (32 - r.h) + 3 + 67 * (r.maxRestart - 1)
  | .running _ => 2 * (32 - (r.h + 1)) + 4 + 67 * (r.maxRestart - 1)
  | .behind => 2 + 67 * (r.maxRestart - 1)
  | .woken => 1

/-! ## One pass -/

/-- The lowest bit is next; what is in front of the pass after it is the
rest. -/
theorem due_split {h b i : Nat} {x : BitVec 32} (hb : x.getLsbD b = true)
    (hlow : ∀ j < b, x.getLsbD j = false) :
    (h ≤ i ∧ x.getLsbD (i - h) = true) ↔
      i = h + b ∨ (h + b + 1 ≤ i ∧ (x >>> (b + 1)).getLsbD (i - (h + b + 1)) = true) := by
  rw [BitVec.getLsbD_ushiftRight]
  constructor
  · rintro ⟨hle, hbit⟩
    have hge : b ≤ i - h := by
      by_contra hlt
      rw [hlow _ (by omega)] at hbit
      cases hbit
    by_cases heq : i = h + b
    · exact .inl heq
    · refine .inr ⟨by omega, ?_⟩
      rw [show b + 1 + (i - (h + b + 1)) = i - h by omega]
      exact hbit
  · rintro (rfl | ⟨hle, hbit⟩)
    · exact ⟨by omega, by rw [show h + b - h = b by omega]; exact hb⟩
    · refine ⟨by omega, ?_⟩
      rw [show i - h = b + 1 + (i - (h + b + 1)) by omega]
      exact hbit

/-- The frame after the loop has started the action of bit `b`. -/
def Frame.start (r : Frame) (b : Nat) : Frame :=
  { r with h := r.h + b, pc := .running (b + 1), ran := r.ran ++ [r.h + b] }

theorem Pass.due_start {b i : Nat} (hpc : r.pc = .loop) (hb : r.pending.getLsbD b = true)
    (hlow : ∀ j < b, r.pending.getLsbD j = false) :
    r.Due i ↔ i = r.h + b ∨ (r.start b).Due i := by
  rw [Frame.Due, hpc]
  exact due_split hb hlow

theorem Pass.start {b : Nat} (h : Pass r) (hpc : r.pc = .loop) (hb : r.pending.getLsbD b = true)
    (hlow : ∀ j < b, r.pending.getLsbD j = false) : Pass (r.start b) where
  ordered := by
    refine List.pairwise_append.mpr ⟨h.ordered, List.pairwise_singleton _ _, fun i hi j hj => ?_⟩
    have := h.below i hi
    rw [Frame.place, hpc] at this
    rw [List.mem_singleton.mp hj]
    dsimp only at this
    omega
  below i hi := by
    show i < r.h + b + 1
    rcases List.mem_append.mp hi with hi | hi
    · have := h.below i hi
      rw [Frame.place, hpc] at this
      dsimp only at this
      omega
    · rw [List.mem_singleton.mp hi]
      omega
  bits i := by
    rw [show (r.start b).snapshot = r.snapshot from rfl, h.bits i, Pass.due_start hpc hb hlow,
      show (r.start b).ran = r.ran ++ [r.h + b] from rfl, List.mem_append, List.mem_singleton,
      or_assoc]

def Frame.finish (r : Frame) (bit : Nat) : Frame :=
  { r with h := r.h + 1, pending := r.pending >>> bit, pc := .loop }

theorem Frame.due_finish {bit i : Nat} (hpc : r.pc = .running bit) :
    (r.finish bit).Due i ↔ r.Due i := by
  rw [Frame.Due, Frame.Due, hpc]
  rfl

theorem Pass.finish {bit : Nat} (h : Pass r) (hpc : r.pc = .running bit) :
    Pass (r.finish bit) where
  ordered := h.ordered
  below i hi := by
    have := h.below i hi
    rw [Frame.place, hpc] at this
    exact this
  bits i := by
    rw [Frame.due_finish hpc]
    exact h.bits i

theorem Pass.done (h : Pass r) (hpc : r.pc = .loop) (hz : r.pending = 0#32) : PassDone r where
  ordered := h.ordered
  bits i := by
    have hnot : ¬ r.Due i := by
      rw [Frame.Due, hpc, hz]
      simp
    rw [h.bits i]
    exact ⟨.inl, fun h => h.resolve_right hnot⟩

/-! ## Steps -/

theorem Later.append {i : Nat} {log : List Entry} (h : Later log i nr) (l : List Entry) :
    Later (log ++ l) i nr := by
  obtain ⟨j, hij, hj⟩ := h
  refine ⟨j, hij, ?_⟩
  rw [List.getElem?_append_left (List.getElem?_eq_some_iff.mp hj).1]
  exact hj

/-- A raise of the longer log is an old one, or the new entry is a raise. -/
theorem raised_append {i : Nat} {log : List Entry} {e : Entry}
    (h : (log ++ [e])[i]? = some (.raised nr)) :
    log[i]? = some (.raised nr) ∨ i = log.length ∧ e = .raised nr := by
  by_cases hi : i < log.length
  · rw [List.getElem?_append_left hi] at h
    exact .inl h
  · rw [List.getElem?_append_right (by omega), List.getElem?_singleton] at h
    split at h
    · exact .inr ⟨by omega, Option.some.inj h⟩
    · cases h

theorem raised_bit {x : BitVec 32} {k : Nat} (hnr : nr < nrSoftirqs) :
    (x ||| 1#32 <<< nr).getLsbD k = true ↔ x.getLsbD k = true ∨ k = nr := by
  rw [nrSoftirqs] at hnr
  rw [BitVec.getLsbD_or, BitVec.getLsbD_shiftLeft, BitVec.getLsbD_one, Bool.or_eq_true]
  refine or_congr_right ?_
  simp only [Bool.and_eq_true, decide_eq_true_eq, Bool.not_eq_true', decide_eq_false_iff_not]
  omega

theorem Waits.ok (h : Waits r) (p : BitVec 32) : r.Ok p := by
  rw [Frame.Ok, h.pc]
  exact h

/-- What holds of the current run when something else happens with
interrupts enabled does not depend on the pending bits. -/
theorem Frame.Ok.of_open {p q : BitVec 32} (h : r.Ok p)
    (hopen : (r.pc = .loop ∨ ∃ bit, r.pc = .running bit) ∨ r.pc = .woken) : r.Ok q := by
  rcases hopen with (hpc | ⟨bit, hpc⟩) | hpc
  · rw [Frame.Ok, hpc] at h ⊢
    exact h
  · rw [Frame.Ok, hpc] at h ⊢
    exact h
  · rw [Frame.Ok, hpc] at h ⊢
    exact h

theorem Inv.raise (hi : Inv s) (hopen : s.Open) (hnr : nr < nrSoftirqs)
    (hreg : s.registered nr = true) : Inv (raiseSoftirqIrqoff s nr) := by
  refine ⟨fun r hr => (hi.top r hr).of_open (hopen r hr), hi.waits, hi.counted, ?_, ?_⟩
  · intro i k hik
    rcases raised_append hik with hold | ⟨-, heq⟩
    · rcases hi.covered i k hold with hst | hbit | hdue
      · exact .inl (hst.append _)
      · exact .inr (.inl ((raised_bit hnr).mpr (.inl hbit)))
      · exact .inr (.inr hdue)
    · cases heq
      exact .inr (.inl ((raised_bit hnr).mpr (.inr rfl)))
  · rintro k (hbit | hdue)
    · rcases (raised_bit hnr).mp hbit with hbit | rfl
      · exact hi.registered k (.inl hbit)
      · exact hreg
    · exact hi.registered k (.inr hdue)

theorem Inv.doSoftirq (hi : Inv s) (hidle : s.Idle) : Inv (doSoftirq s) := by
  have hnone : ∀ k, ¬ ∃ r ∈ s.stack.head?, r.Due k := by
    rintro k ⟨r, hr, hdue⟩
    rw [Frame.Due, hidle r hr] at hdue
    exact hdue
  refine ⟨?_, ?_, ⟨rfl, hi.counted⟩, ?_, ?_⟩
  · rintro r hr
    cases hr
    exact ⟨rfl, rfl, Nat.succ_pos 9⟩
  · intro r hr
    cases hs : s.stack with
    | nil =>
      rw [Softirq.doSoftirq, hs] at hr
      cases hr
    | cons top below =>
      have htop := hi.top top (by rw [hs]; rfl)
      rw [Frame.Ok, hidle top (by rw [hs]; rfl)] at htop
      rw [Softirq.doSoftirq, hs, List.tail_cons] at hr
      rcases List.mem_cons.mp hr with rfl | hr
      · exact htop
      · exact hi.waits r (by rw [hs]; exact hr)
  · intro i k hik
    rcases hi.covered i k hik with hst | hbit | hdue
    · exact .inl hst
    · exact .inr (.inl hbit)
    · exact absurd hdue (hnone k)
  · rintro k (hbit | ⟨r, hr, hdue⟩)
    · exact hi.registered k (.inl hbit)
    · cases hr
      exact hdue.elim

/-- Only the current frame changes; what was in front of the pass still
is. -/
theorem Inv.retop {r' : Frame} (hi : Inv s) (hs : s.stack = r :: rest) (hcount : r'.count = r.count)
    (hok : r'.Ok s.pending) (hdue : ∀ k, r.Due k ↔ r'.Due k) :
    Inv { s with stack := r' :: rest } := by
  have htop : ∀ {k}, (∃ q ∈ (r' :: rest).head?, q.Due k) ↔ ∃ q ∈ s.stack.head?, q.Due k := by
    intro k
    rw [hs]
    simp only [List.head?_cons, Option.mem_def, Option.some.injEq, exists_eq_left']
    exact (hdue k).symm
  have hwaits := hi.waits
  have hcounted := hi.counted
  rw [hs] at hwaits hcounted
  refine ⟨?_, hwaits, ?_, ?_, ?_⟩
  · intro q hq
    cases hq
    exact hok
  · exact ⟨by rw [hcount]; exact hcounted.1, by rw [hcount]; exact hcounted.2⟩
  · intro i k hik
    rcases hi.covered i k hik with hst | hbit | htopdue
    · exact .inl hst
    · exact .inr (.inl hbit)
    · exact .inr (.inr (htop.mpr htopdue))
  · rintro k (hbit | htopdue)
    · exact hi.registered k (.inl hbit)
    · exact hi.registered k (.inr (htop.mp htopdue))

/-- What a run of `__do_softirq` has done when it returns in state `t`: ten
passes at most, `tasklet_count` is what it was, and every softirq raised
since it was entered was started after that, or is pending and the tasklet
thread was woken. -/
structure Returned (r : Frame) (t : State) : Prop where
  passes : r.passes ≤ maxSoftirqRestart
  count : t.taskletCount = r.count
  served : ∀ i nr : Nat, r.since ≤ i → t.log[i]? = some (.raised nr) →
    Later t.log i nr ∨ t.pending.getLsbD nr = true ∧ r.woke = true

theorem Inv.leave (hi : Inv s) (hs : s.stack = r :: rest) (hnot : ∀ k, ¬ r.Due k)
    (hpasses : r.passes ≤ maxSoftirqRestart)
    (hwoke : ∀ k, s.pending.getLsbD k = true → r.woke = true) :
    Inv (leave s rest) ∧ Returned r (leave s rest) := by
  have hwaits := hi.waits
  have hcounted := hi.counted
  rw [hs] at hwaits hcounted
  have hcov : ∀ i k : Nat, s.log[i]? = some (.raised k) →
      Later s.log i k ∨ s.pending.getLsbD k = true := by
    intro i k hik
    rcases hi.covered i k hik with hst | hbit | ⟨q, hq, hdue⟩
    · exact .inl hst
    · exact .inr hbit
    · rw [hs] at hq
      cases hq
      exact absurd hdue (hnot k)
  have hcount : s.taskletCount - 1 = r.count := by
    have := hcounted.1
    omega
  have hrest : ∀ q ∈ rest.head?, Waits q := fun q hq => hwaits q (List.mem_of_head? hq)
  refine ⟨⟨fun q hq => ?_, fun q hq => ?_, ?_, fun i k hik => ?_, ?_⟩,
    ⟨hpasses, hcount, fun i k _ hik => ?_⟩⟩
  · exact (hrest q hq).ok _
  · exact hwaits q (List.mem_of_mem_tail hq)
  · show Counted (s.taskletCount - 1) rest
    rw [hcount]
    exact hcounted.2
  · rcases hcov i k hik with hst | hbit
    · exact .inl hst
    · exact .inr (.inl hbit)
  · rintro k (hbit | ⟨q, hq, hdue⟩)
    · exact hi.registered k (.inl hbit)
    · rw [Frame.Due, (hrest q hq).pc] at hdue
      exact hdue.elim
  · rcases hcov i k hik with hst | hbit
    · exact .inl hst
    · exact .inr ⟨hbit, hwoke k hbit⟩

theorem Inv.restart (hi : Inv s) (hs : s.stack = r :: rest) (hpc : r.pc = .restart) :
    Inv { s with
      pending := 0#32
      stack := { r with
        h := 0, pc := .loop, snapshot := s.pending, ran := [], passes := r.passes + 1 } :: rest } := by
  have htop := hi.top r (by rw [hs]; rfl)
  rw [Frame.Ok, hpc] at htop
  obtain ⟨hpend, hpasses, hpos⟩ := htop
  have hdue : ∀ k, ({ r with
      h := 0, pc := .loop, snapshot := s.pending, ran := [], passes := r.passes + 1 } : Frame).Due k ↔
      s.pending.getLsbD k = true := by
    intro k
    rw [← hpend]
    exact ⟨fun h => h.2, fun h => ⟨Nat.zero_le k, h⟩⟩
  have hwaits := hi.waits
  have hcounted := hi.counted
  rw [hs] at hwaits hcounted
  refine ⟨?_, hwaits, hcounted, ?_, ?_⟩
  · intro q hq
    cases hq
    refine ⟨⟨List.Pairwise.nil, by simp, fun i => ?_⟩, by dsimp only; omega, hpos,
      Nat.succ_pos _⟩
    rw [hdue]
    simp
  · intro i k hik
    rcases hi.covered i k hik with hst | hbit | ⟨q, hq, hold⟩
    · exact .inl hst
    · exact .inr (.inr ⟨_, rfl, (hdue k).mpr hbit⟩)
    · rw [hs] at hq
      cases hq
      rw [Frame.Due, hpc] at hold
      exact hold.elim
  · rintro k (hbit | ⟨q, hq, hnew⟩)
    · simp at hbit
    · cases hq
      exact hi.registered k (.inl ((hdue k).mp hnew))

theorem Inv.start {b : Nat} (hi : Inv s) (hs : s.stack = r :: rest) (hpc : r.pc = .loop)
    (hb : r.pending.getLsbD b = true) (hlow : ∀ j < b, r.pending.getLsbD j = false) :
    Inv { s with stack := r.start b :: rest, log := s.log ++ [.started (r.h + b)] } ∧
      s.registered (r.h + b) = true ∧ r.h + b < 32 := by
  have htop := hi.top r (by rw [hs]; rfl)
  rw [Frame.Ok, hpc] at htop
  obtain ⟨hpass, hin⟩ := htop
  have hdue : ∀ k, r.Due k ↔ k = r.h + b ∨ (r.start b).Due k :=
    fun k => Pass.due_start hpc hb hlow
  have hreg : ∀ k, r.Due k → s.registered k = true :=
    fun k hk => hi.registered k (.inr ⟨r, by rw [hs]; rfl, hk⟩)
  have hwaits := hi.waits
  have hcounted := hi.counted
  rw [hs] at hwaits hcounted
  have hnext : r.Due (r.h + b) := (hdue _).mpr (.inl rfl)
  refine ⟨⟨?_, hwaits, hcounted, ?_, ?_⟩, hreg _ hnext,
    BitVec.lt_of_getLsbD ((hpass.bits _).mpr (.inr hnext))⟩
  · intro q hq
    cases hq
    exact ⟨hpass.start hpc hb hlow, hin⟩
  · intro i k hik
    rcases raised_append hik with hold | ⟨-, heq⟩
    · rcases hi.covered i k hold with hst | hbit | ⟨q, hq, hqdue⟩
      · exact .inl (hst.append _)
      · exact .inr (.inl hbit)
      · rw [hs] at hq
        cases hq
        rcases (hdue k).mp hqdue with rfl | hnext
        · refine .inl ⟨s.log.length, (List.getElem?_eq_some_iff.mp hold).1, ?_⟩
          rw [List.getElem?_append_right (Nat.le_refl _), Nat.sub_self]
          rfl
        · exact .inr (.inr ⟨_, rfl, hnext⟩)
    · cases heq
  · rintro k (hbit | ⟨q, hq, hnext⟩)
    · exact hi.registered k (.inl hbit)
    · cases hq
      exact hreg k ((hdue k).mpr (.inr hnext))

/-- A statement of the run `r` that leads to `t`. -/
structure Advanced (s : State) (r : Frame) (rest : List Frame) (t : State) : Prop where
  next : advance s r rest = .ok t
  inv : Inv t
  done : r.pc = .loop → r.pending = 0#32 → PassDone r
  returned : t.stack = rest → Returned r t
  /-- the run returns, or is nearer to its end -/
  stack : t.stack = rest ∨ ∃ q, t.stack = q :: rest ∧ q.left < r.left

/-- A statement after which the run goes on as `q`. -/
theorem Inv.goesOn (hi : Inv s) (hs : s.stack = r :: rest) (q : Frame) (hcount : q.count = r.count)
    (hok : q.Ok s.pending) (hdue : ∀ k, r.Due k ↔ q.Due k)
    (hdone : r.pc = .loop → r.pending = 0#32 → PassDone r) (hleft : q.left < r.left)
    (hnext : advance s r rest = .ok { s with stack := q :: rest }) : ∃ t, Advanced s r rest t :=
  ⟨_, hnext, hi.retop hs hcount hok hdue, hdone, fun h => absurd h (List.cons_ne_self q rest),
    .inr ⟨q, rfl, hleft⟩⟩

theorem Inv.loop (hi : Inv s) (hs : s.stack = r :: rest) (hpc : r.pc = .loop) :
    ∃ t, Advanced s r rest t := by
  have htop := hi.top r (by rw [hs]; rfl)
  rw [Frame.Ok, hpc] at htop
  obtain ⟨hpass, hin⟩ := htop
  by_cases hz : Phymem.ffs r.pending = 0
  · have hzero := Phymem.ffs_eq_zero.mp hz
    refine hi.goesOn hs { r with pc := .behind } rfl hin (fun k => ?_)
      (fun _ _ => hpass.done hpc hzero) ?_ ?_
    · rw [Frame.Due, Frame.Due, hpc, hzero]
      simp
    · rw [Frame.left, Frame.left, hpc]
      dsimp only
      omega
    · rw [Softirq.advance, hpc]
      exact if_pos hz
  · obtain ⟨b, hffs, hb, hlow⟩ := Phymem.ffs_lowest hz
    obtain ⟨hi', hreg, hlt⟩ := hi.start hs hpc hb hlow
    have hnext : Softirq.advance s r rest =
        .ok { s with stack := r.start b :: rest, log := s.log ++ [.started (r.h + b)] } := by
      rw [Softirq.advance, hpc]
      dsimp only
      rw [if_neg hz, hffs, Nat.add_sub_cancel, if_pos hreg]
      rfl
    refine ⟨_, hnext, hi', fun _ hzero => ?_, fun h => absurd h (List.cons_ne_self _ rest),
      .inr ⟨_, rfl, ?_⟩⟩
    · rw [hzero] at hb
      simp at hb
    · rw [Frame.left, Frame.left, hpc, Frame.start]
      dsimp only
      omega

/-- Behind the loop: the run returns, begins another pass or wakes the
tasklet thread. -/
theorem Inv.behind (hi : Inv s) (hs : s.stack = r :: rest) (hpc : r.pc = .behind) :
    ∃ t, Advanced s r rest t := by
  have htop := hi.top r (by rw [hs]; rfl)
  rw [Frame.Ok, hpc] at htop
  obtain ⟨hpasses, hpos⟩ := htop
  have hnot : ∀ k, ¬ r.Due k := fun k hk => by
    rw [Frame.Due, hpc] at hk
    exact hk
  have hloop : r.pc = .loop → r.pending = 0#32 → PassDone r := fun h => by
    rw [hpc] at h
    cases h
  have hleft : r.left = 2 + 67 * (r.maxRestart - 1) := by rw [Frame.left, hpc]
  have hdue : ∀ q : Frame, q.pc = .restart ∨ q.pc = .woken → ∀ k, r.Due k ↔ q.Due k := by
    intro q hq k
    refine iff_of_false (hnot k) fun hk => ?_
    rcases hq with hq | hq
    · rw [Frame.Due, hq] at hk
      exact hk
    · rw [Frame.Due, hq] at hk
      exact hk
  by_cases hz : s.pending = 0#32
  · have hnone : ∀ k, s.pending.getLsbD k = true → r.woke = true := by
      intro k hk
      rw [hz] at hk
      simp at hk
    obtain ⟨hi', hret⟩ := hi.leave hs hnot (by omega) hnone
    refine ⟨Softirq.leave s rest, ?_, hi', hloop, fun _ => hret, .inl rfl⟩
    rw [Softirq.advance, hpc]
    exact if_pos hz
  by_cases hlt : s.msecCount < r.deadline
  · by_cases hmax : r.maxRestart - 1 ≠ 0
    · refine hi.goesOn hs
        { r with pending := s.pending, maxRestart := r.maxRestart - 1, pc := .restart } rfl
        ⟨rfl, by dsimp only; omega, by dsimp only; omega⟩ (hdue _ (.inl rfl)) hloop
        (by rw [hleft, Frame.left]; dsimp only; omega) ?_
      rw [Softirq.advance, hpc]
      dsimp only
      rw [if_neg hz, if_pos hlt, if_pos hmax]
    · refine hi.goesOn hs { r with
        pending := s.pending, maxRestart := r.maxRestart - 1, pc := .woken, woke := true } rfl
        ⟨rfl, by dsimp only; omega, rfl⟩ (hdue _ (.inr rfl)) hloop
        (by rw [hleft, Frame.left]; dsimp only; omega) ?_
      rw [Softirq.advance, hpc]
      dsimp only
      rw [if_neg hz, if_pos hlt, if_neg hmax]
  · refine hi.goesOn hs { r with pending := s.pending, pc := .woken, woke := true } rfl
      ⟨rfl, by dsimp only; omega, rfl⟩ (hdue _ (.inr rfl)) hloop
      (by rw [hleft, Frame.left]; dsimp only; omega) ?_
    rw [Softirq.advance, hpc]
    dsimp only
    rw [if_neg hz, if_neg hlt]

/-- **Every statement** of a run is possible and keeps the invariant. -/
theorem Inv.advance (hi : Inv s) (hs : s.stack = r :: rest) : ∃ t, Advanced s r rest t := by
  have htop := hi.top r (by rw [hs]; rfl)
  cases hpc : r.pc with
  | restart =>
    rw [Frame.Ok, hpc] at htop
    obtain ⟨-, -, hpos⟩ := htop
    refine ⟨_, by rw [Softirq.advance, hpc], hi.restart hs hpc, fun h => (by cases hpc.symm.trans h),
      fun h => absurd h (List.cons_ne_self _ rest), .inr ⟨_, rfl, ?_⟩⟩
    rw [Frame.left, Frame.left, hpc]
    dsimp only
    omega
  | loop => exact hi.loop hs hpc
  | running bit =>
    rw [Frame.Ok, hpc] at htop
    obtain ⟨hpass, hin⟩ := htop
    refine hi.goesOn hs (r.finish bit) rfl ⟨hpass.finish hpc, hin⟩
      (fun k => (Frame.due_finish hpc).symm) (fun h => ?_) ?_ ?_
    · cases hpc.symm.trans h
    · rw [Frame.left, Frame.left, hpc, Frame.finish]
      dsimp only
      omega
    · rw [Softirq.advance, hpc]
      rfl
  | behind => exact hi.behind hs hpc
  | woken =>
    rw [Frame.Ok, hpc] at htop
    have hnot : ∀ k, ¬ r.Due k := fun k hk => by
      rw [Frame.Due, hpc] at hk
      exact hk
    obtain ⟨hi', hret⟩ := hi.leave hs hnot htop.passes fun _ _ => htop.woke
    refine ⟨Softirq.leave s rest, ?_, hi', fun h => ?_, fun _ => hret, .inl rfl⟩
    · rw [Softirq.advance, hpc]
    · cases hpc.symm.trans h

/-! ## Whole runs -/

/-- No run has begun, and only registered softirqs are pending. -/
structure Boot (s : State) : Prop where
  stack : s.stack = []
  count : s.taskletCount = -1
  log : s.log = []
  registered : ∀ nr, s.pending.getLsbD nr = true → s.registered nr = true

theorem Boot.inv (h : Boot s) : Inv s where
  top := by simp [h.stack]
  waits := by simp [h.stack]
  counted := by
    rw [h.stack, h.count]
    rfl
  covered := by simp [h.log]
  registered := by
    rintro nr (hbit | ⟨r, hr, -⟩)
    · exact h.registered nr hbit
    · rw [h.stack] at hr
      cases hr

theorem Counted.ge {c : Int} {l : List Frame} (h : Counted c l) : -1 ≤ c := by
  induction l generalizing c with
  | nil => exact Int.le_of_eq h.symm
  | cons r l ih =>
    have := ih h.2
    have := h.1
    omega

theorem Inv.inTasklet (hi : Inv s) (hs : s.stack = r :: rest) : s.inTasklet = true := by
  have hc := hi.counted
  rw [hs] at hc
  have := hc.2.ge
  have := hc.1
  exact decide_eq_true (by omega)

theorem Inv.irqExit (hi : Inv s) : Inv (irqExit s) := by
  rw [Softirq.irqExit]
  split
  next hcond =>
    refine hi.doSoftirq fun r hr => ?_
    cases hs : s.stack with
    | nil =>
      rw [hs] at hr
      cases hr
    | cons top rest =>
      rw [hi.inTasklet hs] at hcond
      simp at hcond
  next => exact hi

theorem Inv.step {op : Op} (hi : Inv s) (h : Step s op t) : Inv t := by
  cases op with
  | advance =>
    obtain ⟨r, rest, hs, hadv⟩ := h
    obtain ⟨u, hu⟩ := hi.advance hs
    cases hadv.symm.trans hu.next
    exact hu.inv
  | raise nr =>
    obtain ⟨hopen, hnr, hreg, rfl⟩ := h
    exact hi.raise hopen hnr hreg
  | irqExit =>
    obtain ⟨-, rfl⟩ := h
    exact hi.irqExit
  | runKsoftirqd =>
    obtain ⟨hidle, rfl⟩ := h
    rw [runKsoftirqd]
    split
    · exact hi.doSoftirq hidle
    · exact hi
  | doSoftirq =>
    obtain ⟨hidle, rfl⟩ := h
    exact hi.doSoftirq hidle
  | tick now =>
    obtain rfl := h
    exact ⟨hi.top, hi.waits, hi.counted, hi.covered, hi.registered⟩

/-! ## The statements of one run -/

/-- The statements left to the run that has `n` runs below it. -/
def leftAt (n : Nat) : List Frame → Nat
  | [] => 0
  | r :: rest => if rest.length = n then r.left else leftAt n rest

/-- The step is a statement of the run that has `n` runs below it. -/
def ownStatement (n : Nat) (x : Taken State Op) : Bool :=
  match x.label with
  | .advance => x.pre.stack.length = n + 1
  | _ => false

theorem leftAt_of_length_le {n : Nat} {l : List Frame} (h : l.length ≤ n) : leftAt n l = 0 := by
  induction l with
  | nil => rfl
  | cons r l ih =>
    rw [List.length_cons] at h
    rw [leftAt, if_neg (by omega), ih (by omega)]

theorem leftAt_push {n : Nat} {l : List Frame} (r : Frame) (h : n < l.length) :
    leftAt n (r :: l) = leftAt n l := if_neg (by omega)

theorem Frame.left_pos (r : Frame) : 0 < r.left := by
  rw [Frame.left]
  split <;> omega

theorem Frame.Ok.bounds {p : BitVec 32} (h : r.Ok p) :
    r.passes ≤ maxSoftirqRestart ∧ r.left ≤ 67 * maxSoftirqRestart + 1 := by
  cases hpc : r.pc with
  | restart =>
    simp only [Frame.Ok, Frame.left, hpc] at h ⊢
    omega
  | woken =>
    simp only [Frame.Ok, Frame.left, hpc] at h ⊢
    exact ⟨h.passes, by decide⟩
  | _ =>
    simp only [Frame.Ok, Frame.InPass, Frame.left, hpc] at h ⊢
    omega

theorem Inv.ok (hi : Inv s) (hr : r ∈ s.stack) : r.Ok s.pending := by
  cases hs : s.stack with
  | nil =>
    rw [hs] at hr
    cases hr
  | cons top rest =>
    have htop := hi.top top (by rw [hs]; rfl)
    have hrest := hi.waits
    rw [hs] at hr hrest
    rcases List.mem_cons.mp hr with rfl | hr
    · exact htop
    · exact (hrest r hr).ok _

theorem leftAt_le {n m : Nat} {l : List Frame} (h : ∀ r ∈ l, r.left ≤ m) : leftAt n l ≤ m := by
  induction l with
  | nil => exact Nat.zero_le _
  | cons r l ih =>
    rw [leftAt]
    split
    · exact h r List.mem_cons_self
    · exact ih fun q hq => h q (List.mem_cons_of_mem r hq)

/-- A statement of the run brings it nearer to its end, and nothing else
moves it. -/
theorem Inv.leftAt_step {op : Op} {n : Nat} (hi : Inv s) (h : Step s op t)
    (hn : n < s.stack.length) :
    leftAt n t.stack + (if ownStatement n ⟨s, op, t⟩ then 1 else 0) ≤ leftAt n s.stack := by
  have hpush : leftAt n (Softirq.doSoftirq s).stack = leftAt n s.stack := leftAt_push _ hn
  cases op with
  | advance =>
    obtain ⟨r, rest, hs, hadv⟩ := h
    obtain ⟨u, hu⟩ := hi.advance hs
    cases hadv.symm.trans hu.next
    have hown : ownStatement n ⟨s, .advance, t⟩ = decide (rest.length = n) := by
      simp [ownStatement, hs]
    rw [hown, hs, leftAt]
    by_cases heq : rest.length = n
    · have hlt : leftAt n t.stack < r.left := by
        rcases hu.stack with hrest | ⟨q, hq, hlt⟩
        · rw [hrest, leftAt_of_length_le heq.le]
          exact r.left_pos
        · rw [hq, leftAt, if_pos heq]
          exact hlt
      rw [if_pos heq, decide_eq_true heq]
      exact hlt
    · rw [if_neg heq, decide_eq_false heq]
      rcases hu.stack with hrest | ⟨q, hq, -⟩
      · rw [hrest]
        exact Nat.le_refl _
      · rw [hq, leftAt, if_neg heq]
        exact Nat.le_refl _
  | raise nr =>
    obtain ⟨-, -, -, rfl⟩ := h
    exact Nat.le_refl _
  | irqExit =>
    obtain ⟨-, rfl⟩ := h
    rw [Softirq.irqExit]
    split
    · exact hpush.le
    · exact Nat.le_refl _
  | runKsoftirqd =>
    obtain ⟨-, rfl⟩ := h
    rw [Softirq.runKsoftirqd]
    split
    · exact hpush.le
    · exact Nat.le_refl _
  | doSoftirq =>
    obtain ⟨-, rfl⟩ := h
    exact hpush.le
  | tick now =>
    obtain rfl := h
    exact Nat.le_refl _

theorem Inv.countP_own {tr : List (Taken State Op)} {n : Nat} (hi : Inv s)
    (htr : Trace Step s tr t) (hn : ∀ x ∈ tr, n < x.pre.stack.length) :
    tr.countP (ownStatement n) ≤ leftAt n s.stack := by
  induction htr with
  | done s => exact Nat.zero_le _
  | step hs _ ih =>
    have hstep := hi.leftAt_step hs (hn _ List.mem_cons_self)
    have htail := ih (hi.step hs) fun x hx => hn x (List.mem_cons_of_mem _ hx)
    rw [List.countP_cons]
    omega

/-! ## Runs of the CPU -/

/-- What `__do_softirq` does in the steps `tr`, which lead to `s`. -/
structure Served (tr : List (Taken State Op)) (s : State) : Prop where
  /-- a pass starts exactly the actions that were pending at its beginning,
  in order -/
  pass : ∀ x ∈ tr, x.label = .advance → ∀ r rest, x.pre.stack = r :: rest →
    r.pc = .loop → r.pending = 0#32 → PassDone r
  /-- when a run returns, everything raised meanwhile was started or is left
  to the tasklet thread -/
  returned : ∀ x ∈ tr, x.label = .advance → ∀ r rest, x.pre.stack = r :: rest →
    x.post.stack = rest → Returned r x.post
  passes : ∀ r ∈ s.stack, r.passes ≤ maxSoftirqRestart
  /-- a run has a next statement: it never meets an entry of `softirq_vec`
  without an action -/
  next : ∀ r rest, s.stack = r :: rest → ∃ t, advance s r rest = .ok t
  /-- a run that has not returned meanwhile has executed at most this many
  statements of its own -/
  bounded : ∀ a b n, tr = a ++ b → (∀ x ∈ b, n < x.pre.stack.length) →
    b.countP (ownStatement n) ≤ 67 * maxSoftirqRestart + 1

/-- **No raise is lost.** Along every run of the CPU, whatever its actions and
interrupts raise. -/
theorem softirqs_served {s₀ : State} {tr : List (Taken State Op)} (hb : Boot s₀)
    (htr : Trace Step s₀ tr s) : Served tr s := by
  obtain ⟨hend, hall⟩ := htr.always Inv (fun hi h => hi.step h) hb.inv
  have hadvanced : ∀ x ∈ tr, x.label = .advance → ∀ r rest, x.pre.stack = r :: rest →
      Advanced x.pre r rest x.post := by
    intro x hx hlabel r rest hs
    have hstep := htr.taken x hx
    rw [hlabel] at hstep
    obtain ⟨q, below, hq, hadv⟩ := hstep
    cases hs.symm.trans hq
    obtain ⟨u, hu⟩ := (hall x hx).1.advance hs
    cases hadv.symm.trans hu.next
    exact hu
  refine ⟨fun x hx hl r rest hs => (hadvanced x hx hl r rest hs).done,
    fun x hx hl r rest hs => (hadvanced x hx hl r rest hs).returned,
    fun r hr => (hend.ok hr).bounds.1, fun r rest hs => ?_, fun a b n hab hn => ?_⟩
  · obtain ⟨t, ht⟩ := hend.advance hs
    exact ⟨t, ht.next⟩
  · rw [hab] at htr
    obtain ⟨u, ha, hb'⟩ := htr.split
    have hu := (ha.always Inv (fun hi h => hi.step h) hb.inv).1
    exact (hu.countP_own hb' hn).trans (leftAt_le fun r hr => (hu.ok hr).bounds.2)

/-- From power on the timer softirq is raised, and its action raises the tasklet
softirq. -/
theorem softirqs_served_timer : ∃ s₀ tr s, Boot s₀ ∧ Trace Step s₀ tr s ∧ s.stack = [] ∧
    s.log = [.raised 1, .started 1, .raised 6, .started 6] ∧ Served tr s := by
  have hb : Boot ⟨0#32, -1, 0, fun _ => true, [], []⟩ := ⟨rfl, rfl, rfl, by simp⟩
  obtain ⟨tr, s, htr, hstack, hlog⟩ : ∃ tr s,
      Trace Step ⟨0#32, -1, 0, fun _ => true, [], []⟩ tr s ∧ s.stack = [] ∧
        s.log = [.raised 1, .started 1, .raised 6, .started 6] :=
    ⟨_, _, .step (a := Op.raise 1) ⟨by simp [State.Open], by decide, rfl, rfl⟩
      (.step (a := Op.irqExit) ⟨by simp [State.Open, raiseSoftirqIrqoff], rfl⟩
      (.step (a := Op.advance) ⟨_, _, rfl, rfl⟩
      (.step (a := Op.advance) ⟨_, _, rfl, rfl⟩
      (.step (a := Op.raise 6) ⟨by
        rintro r hr
        cases hr
        exact .inl (.inr ⟨2, rfl⟩), by decide, rfl, rfl⟩
      (.step (a := Op.advance) ⟨_, _, rfl, rfl⟩
      (.step (a := Op.advance) ⟨_, _, rfl, rfl⟩
      (.step (a := Op.advance) ⟨_, _, rfl, rfl⟩
      (.step (a := Op.advance) ⟨_, _, rfl, rfl⟩
      (.step (a := Op.advance) ⟨_, _, rfl, rfl⟩
      (.step (a := Op.advance) ⟨_, _, rfl, rfl⟩
      (.step (a := Op.advance) ⟨_, _, rfl, rfl⟩
      (.step (a := Op.advance) ⟨_, _, rfl, rfl⟩ (.done _))))))))))))), rfl, rfl⟩
  exact ⟨_, tr, s, hb, htr, hstack, hlog, softirqs_served hb htr⟩

end Yaos.Softirq
