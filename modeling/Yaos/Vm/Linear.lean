import Yaos.Vm.Stacks

/-!
# The linear-address allocator between calls

`alloc_linear` and `free_linear` work under `spin_vm`. Between two calls the
holes are sorted and disjoint, each descriptor is on one of the two lists and
the lock is free. The early return of `alloc_linear`, taken when no hole fits,
does not release the lock, so after it the next call of either function spins.
-/

namespace Yaos.Vm

open Yaos.Lib Yaos.Holes
open Yaos.Phymem (pageSize)

/-- The allocator between two calls, with the holes `L`. -/
structure Settled (s : State) (L : List Range) : Prop where
  reps : s.linear.Reps L
  sorted : Ordered L
  whole : ∀ q ∈ L, q.addr % pageSize = 0 ∧ q.size % pageSize = 0
  nonempty : ∀ q ∈ L, 0 < q.size
  released : s.locked = false

inductive LinearCall where
  | alloc (size : Nat)
  | free (addr size : Nat)

/-- What may be called: memory that is given back is page aligned and is not
free already, and a descriptor is left to describe it. -/
def LinearCall.Legal (s : State) (L : List Range) : LinearCall → Prop
  | .alloc _ => True
  | .free addr size => addr % pageSize = 0 ∧ size % pageSize = 0 ∧ s.linear.pfree ≠ none ∧
      ∀ q ∈ L, Range.Apart ⟨addr, size⟩ q

/-- The call returns with the allocator settled, and an `alloc_linear` that
returns null has changed nothing. -/
def LinearCall.Settles (s : State) : LinearCall → Prop
  | .alloc size => ∃ p t, allocLinear s size = .ok (p, t) ∧ (∃ L, Settled t L) ∧ (p = 0 → t = s)
  | .free addr size => ∃ t, freeLinear s addr size = .ok t ∧ ∃ L, Settled t L

/-- The first hole that `alloc_linear` finds large enough. -/
def fitting (L : List Range) (size : Nat) : Option Range :=
  L.find? fun q => decide (roundPage size ≤ q.size)

/-- A hole fits, and its address is not the null pointer unless nothing is
taken from it; what is given back is not empty. -/
def LinearCall.Fits (L : List Range) : LinearCall → Prop
  | .alloc size => ∃ q, fitting L size = some q ∧ (q.addr = 0 → roundPage size = 0)
  | .free _ size => size ≠ 0

instance (L : List Range) (size : Nat) :
    Decidable (∃ q, fitting L size = some q ∧ (q.addr = 0 → roundPage size = 0)) :=
  match h : fitting L size with
  | none => .isFalse fun ⟨_, hq, _⟩ => by cases hq
  | some q => decidable_of_iff (q.addr = 0 → roundPage size = 0)
      ⟨fun hq => ⟨q, rfl, hq⟩, fun ⟨_, hq, hz⟩ => by cases hq; exact hz⟩

instance (L : List Range) : (c : LinearCall) → Decidable (c.Fits L)
  | .alloc size => inferInstanceAs (Decidable (∃ q, fitting L size = some q ∧ _))
  | .free _ size => inferInstanceAs (Decidable (size ≠ 0))

variable {s t : State} {L : List Range} {size addr p : Nat}

theorem lock_of_released (h : s.locked = false) : s.lock = .ok { s with locked := true } := by
  rw [State.lock, h]
  rfl

/-! ## `alloc_linear` -/

theorem allocLinear_of_none (h : Settled s L) (hfit : fitting L size = none) :
    allocLinear s size = .ok (0, { s with locked := true }) := by
  have hnone : s.linear.firstFit (roundPage size) s.linear.max s.linear.phead = .ok none := by
    apply h.reps.firstFit_of_none
    intro q hq
    simpa using List.find?_eq_none.mp hfit q hq
  rw [allocLinear, lock_of_released h.released, ok_bind]
  show (s.linear.firstFit (roundPage size) s.linear.max s.linear.phead >>= _) = _
  rw [hnone]
  rfl

theorem take_nothing {h : HoleList} (hp : 0 < (h.node p).size) :
    h.take 0 p 0 = .ok ((h.node p).addr, h) := by
  have hself : h.upd p (fun x => x) = h := by
    rw [HoleList.upd, Function.update_eq_self]
  rw [HoleList.take]
  show ((if ((h.upd p fun x => x).node p).size ≤ 0 then _ else _) : Outcome _) = _
  rw [if_neg (by rw [hself]; omega)]
  show Except.ok (((h.upd p fun x => x).node p).addr, (h.upd p fun x => x).upd p fun x => x) = _
  rw [hself, hself]

theorem allocLinear_of_some {q : Range} (h : Settled s L) (hfit : fitting L size = some q) :
    ∃ h' L', allocLinear s size = .ok (q.addr, { s with linear := h' }) ∧ h'.Reps L' ∧
      cutFirst 0 (roundPage size) L = some (q.addr, L') ∧
      (roundPage size = 0 → h' = s.linear) := by
  obtain ⟨l, f, hs, rfl⟩ := h.reps
  rcases firstFit_take_spec 0 (roundPage size) hs with ⟨-, hcut⟩ |
    ⟨p, a, h', l', f', hfound, htake, hs', hcut, -⟩
  · have hle := List.find?_some hfit
    have hlt := cutFirst_eq_none.mp hcut q (List.mem_of_find?_eq_some hfit)
    rw [decide_eq_true_eq] at hle
    omega
  · obtain ⟨-, q', -, -, hq', -, rfl, -⟩ := cutFirst_find hcut
    obtain rfl : q' = q := Option.some.inj (hq'.symm.trans hfit)
    refine ⟨h', _, ?_, ⟨l', f', hs', rfl⟩, hcut, fun hzero => ?_⟩
    · rw [allocLinear, lock_of_released h.released, ok_bind]
      show (s.linear.firstFit (roundPage size) s.linear.max s.linear.phead >>= _) = _
      rw [hfound, ok_bind]
      show (s.linear.take 0 p (roundPage size) >>= _) = _
      rw [htake, ok_bind, ← h.released]
    · rw [firstFit_eq hs.holes hs.length_le] at hfound
      have hp := List.mem_of_find?_eq_some (Except.ok.inj hfound)
      have hpos := h.nonempty _ (List.mem_map_of_mem hp)
      rw [hzero, take_nothing hpos] at htake
      exact (congrArg Prod.snd (Except.ok.inj htake)).symm

theorem Settled.cut {h' : HoleList} {L' : List Range} {a : Nat} (h : Settled s L)
    (hcut : cutFirst 0 (roundPage size) L = some (a, L')) (hr : h'.Reps L') :
    Settled { s with linear := h' } L' where
  reps := hr
  sorted := ordered_cutFirst hcut h.sorted
  whole := by
    intro x hx
    rcases mem_cutFirst hcut hx with hx | ⟨q, hq, hlt, rfl⟩
    · exact h.whole x hx
    · have hw := h.whole q hq
      have hround := roundPage_mod size
      exact ⟨by simp [Nat.add_mod, hw.1, hround],
        Nat.mod_eq_zero_of_dvd (Nat.dvd_sub (Nat.dvd_of_mod_eq_zero hw.2)
          (Nat.dvd_of_mod_eq_zero hround))⟩
  nonempty := by
    intro x hx
    rcases mem_cutFirst hcut hx with hx | ⟨q, -, hlt, rfl⟩
    · exact h.nonempty x hx
    · show 0 < q.size - roundPage size
      omega
  released := h.released

theorem cutFirst_ne {least n a : Nat} {L' : List Range} (hcut : cutFirst least n L = some (a, L'))
    (hn : n ≠ 0) : L' ≠ L := by
  obtain ⟨A, q, B, rfl, -, hle, -, rfl⟩ := cutFirst_some hcut
  intro heq
  have heq := List.append_cancel_left heq
  split at heq
  · exact absurd (congrArg List.length heq) (by simp)
  · have haddr := congrArg Range.addr (List.cons.inj heq).1
    simp only at haddr
    omega

/-- `alloc_linear` from a settled state: exactly when it keeps it so. -/
theorem alloc_settles_iff (h : Settled s L) :
    (LinearCall.alloc size).Settles s ↔ (LinearCall.alloc size).Fits L := by
  constructor
  · rintro ⟨p, t, hrun, ⟨L₁, hset⟩, hnull⟩
    cases hfit : fitting L size with
    | none =>
      rw [allocLinear_of_none h hfit] at hrun
      cases hrun
      exact absurd hset.released (by simp)
    | some q =>
      obtain ⟨h', L', hok, hreps, hcut, -⟩ := allocLinear_of_some h hfit
      rw [hok] at hrun
      cases hrun
      refine ⟨q, hfit, fun hq => ?_⟩
      by_contra hround
      have hsame : h' = s.linear := congrArg State.linear (hnull hq)
      rw [hsame] at hreps
      exact cutFirst_ne hcut hround (hreps.unique h.reps)
  · rintro ⟨q, hfit, hq⟩
    obtain ⟨h', L', hok, hreps, hcut, hzero⟩ := allocLinear_of_some h hfit
    refine ⟨q.addr, _, hok, ⟨L', h.cut hcut hreps⟩, fun hp => ?_⟩
    rw [hzero (hq hp)]

/-! ## `free_linear` -/

theorem freeLinear_of_legal (h : Settled s L) (hl : (LinearCall.free addr size).Legal s L) :
    ∃ h', freeLinear s addr size = .ok { s with linear := h' } ∧
      h'.Reps (insertRange ⟨addr, size⟩ L) := by
  obtain ⟨haddr, hsize, hpool, -⟩ := hl
  obtain ⟨h', hadd, hreps, -⟩ := h.reps.addSorted_of_room hpool addr size
  have hcheck : check (addr % pageSize = 0 && size % pageSize = 0) = .ok () :=
    check_eq_ok.mpr (by simp [haddr, hsize])
  refine ⟨h', ?_, hreps⟩
  rw [freeLinear, hcheck, ok_bind, if_neg hpool, lock_of_released h.released, ok_bind]
  show (s.linear.addSorted addr size >>= _) = _
  rw [hadd, ok_bind, ← h.released]

theorem free_settles_iff (h : Settled s L) (hl : (LinearCall.free addr size).Legal s L) :
    (LinearCall.free addr size).Settles s ↔ (LinearCall.free addr size).Fits L := by
  obtain ⟨h', hok, hreps⟩ := freeLinear_of_legal h hl
  obtain ⟨haddr, hsize, -, hap⟩ := hl
  constructor
  · rintro ⟨t, hrun, L₁, hset⟩ hzero
    rw [hok] at hrun
    cases hrun
    have hpos := hset.nonempty ⟨addr, size⟩ (by
      rw [hset.reps.unique hreps]
      exact mem_insertRange.mpr (.inl rfl))
    exact Nat.ne_of_gt hpos hzero
  · intro hne
    have hpos : 0 < size := Nat.pos_of_ne_zero hne
    refine ⟨_, hok, _, hreps, ordered_insertRange h.sorted hpos h.nonempty hap, ?_, ?_, h.released⟩
    · intro q hq
      rcases mem_insertRange.mp hq with rfl | hq
      · exact ⟨haddr, hsize⟩
      · exact h.whole q hq
    · intro q hq
      rcases mem_insertRange.mp hq with rfl | hq
      · exact hpos
      · exact h.nonempty q hq

/-! ## Both -/

/-- **Between calls**: from every settled state, every legal call returns
with the allocator settled (and a null result has changed nothing) exactly if
a hole fits, whose address is not null or from which nothing is taken, or what
is given back is not empty. -/
theorem linearCall_settles_iff (c : LinearCall) (h : Settled s L) (hl : c.Legal s L) :
    c.Settles s ↔ c.Fits L := by
  cases c with
  | alloc size => exact alloc_settles_iff h
  | free addr size => exact free_settles_iff h hl

/-- The linear addresses of a machine with 4 GiB, as `init_vm` is called on it. -/
theorem initVm_settled (pg : Pgtable.State) :
    ∃ s, initVm pg 0x100000000 0xfffffff700000000 = .ok s ∧
      Settled s [⟨0x100000000, 0xfffffff700000000⟩] := by
  have hstart : Settled ⟨HoleList.init maxLinearHole, false, pg⟩ [] :=
    ⟨reps_init (by decide), .nil, by simp, by simp, rfl⟩
  have hl : (LinearCall.free 0x100000000 0xfffffff700000000).Legal
      ⟨HoleList.init maxLinearHole, false, pg⟩ [] :=
    ⟨by decide, by decide, by simp [HoleList.init], by simp⟩
  obtain ⟨h', hok, hreps⟩ := freeLinear_of_legal hstart hl
  refine ⟨_, hok, hreps, List.pairwise_singleton _ _, ?_, ?_, rfl⟩
  · simp [pageSize]
  · simp

/-- One page can be had from the range of `init_vm`. -/
theorem linearCall_settles_page :
    ∃ s, initVm room.pg 0x100000000 0xfffffff700000000 = .ok s ∧
      (LinearCall.alloc 0x200000).Settles s := by
  obtain ⟨s, hs, h⟩ := initVm_settled room.pg
  exact ⟨s, hs, (linearCall_settles_iff (.alloc 0x200000) h trivial).mpr (by decide)⟩

/-- More than all of it cannot; the call keeps the lock, and the next one
spins. -/
theorem alloc_all_keeps_lock :
    ∃ s t, initVm room.pg 0x100000000 0xfffffff700000000 = .ok s ∧
      allocLinear s 0xfffffff800000000 = .ok (0, t) ∧ s.locked = false ∧ t.locked = true ∧
      allocLinear t 0x200000 = .error .spin := by
  obtain ⟨s, hs, h⟩ := initVm_settled room.pg
  exact ⟨s, _, hs, allocLinear_of_none h (by decide), h.released, rfl, rfl⟩

end Yaos.Vm
