import Yaos.Vm.AllocVm

/-!
# When the pages run out

`alloc_vm` and `alloc_vm_stack` take pages one by one. If `alloc_phy_page`
has none left, the first round returns at once and keeps the reserved
range; a later round undoes with the address and the sizes of the round it
is in, not of the call: `free_vm_page` looks at the first page that was
not mapped, and `free_linear` gives back a range that begins there.

So the call leaves everything as it was exactly if it had mapped nothing
and reserved nothing.
-/

namespace Yaos.Vm

open Yaos.Lib Yaos.Holes Yaos.Pgtable
open Yaos.Phymem (pageSize)

variable {fuel size p : Nat} {s t : State} {k : Kind}

/-- The call gets to a round in which `alloc_phy_page` returns 0, after the
pages of `log` were mapped. -/
structure RunsOut (fuel : Nat) (s : State) (k : Kind) (size : Nat) (log : List Mapping) :
    Prop where
  reach : ∃ p s₁ u phys, allocLinear s (k.request size) = .ok (p, s₁) ∧ p ≠ 0 ∧
    Maps fuel s₁.pg (k.base p) log u ∧ Phymem.allocPhyPage fuel u.heap.phys = .ok (0, phys)
  rounds : ∀ j ≤ log.length, j * pageSize % 2 ^ 64 ≤ size
  enough : log.length < fuel

/-- The free pages, the free linear addresses and the translations that
there were are as before. -/
structure Undone (s t : State) : Prop where
  phys : ∀ i, t.phys.bit i = s.phys.bit i
  linear : ∃ L L', s.linear.Reps L ∧ t.linear.Reps L' ∧ ∀ b, cover L' b = cover L b
  translation : ∀ x, s.pg.translation x ≠ 0 → t.pg.translation x = s.pg.translation x

/-- The call returns 0 and has undone all it did. -/
def Restores (fuel : Nat) (s : State) (k : Kind) (size : Nat) : Prop :=
  ∃ t, k.alloc fuel s size = .ok (0, t) ∧ Undone s t

/-! ## The round without a page -/

/-- What the loop does when there is no page. -/
def undo (fuel size : Nat) (s : State) (addr phsize : Nat) : Outcome (Bool × State) :=
  if phsize ≠ 0 then do
    let s ← freeVmPage addr phsize fuel s 0
    let s ← freeLinear s addr size
    .ok (false, s)
  else .ok (false, s)

/-- The address of a round of the loop. -/
def roundAddr (addr n : Nat) : Nat := if n = 0 then addr else (addr + n * pageSize) % 2 ^ 64

theorem roundAddr_next (addr n : Nat) :
    roundAddr ((addr + pageSize) % 2 ^ 64) n = roundAddr addr (n + 1) := by
  unfold roundAddr
  rw [if_neg (Nat.succ_ne_zero n), Nat.mod_add_mod, Nat.succ_mul]
  split
  · rename_i hn
    rw [hn, Nat.zero_mul, Nat.zero_add]
  · congr 1
    omega

theorem allocVmLoop_runs_out {log : List Mapping} {u : Pgtable.State} {phys : Phymem.State}
    {n addr phsize : Nat} (hmaps : Maps fuel s.pg addr log u)
    (hpage : Phymem.allocPhyPage fuel u.heap.phys = .ok (0, phys))
    (hrounds : ∀ j ≤ log.length, (phsize + j * pageSize) % 2 ^ 64 ≤ size) (hph : phsize < 2 ^ 64)
    (hn : log.length < n) :
    allocVmLoop fuel size n s addr phsize = undo fuel size { s with pg := u.setPhys phys }
      (roundAddr addr log.length) ((phsize + log.length * pageSize) % 2 ^ 64) := by
  induction log generalizing s addr phsize n with
  | nil =>
    cases hmaps
    obtain ⟨n, rfl⟩ := Nat.exists_eq_succ_of_ne_zero (Nat.ne_zero_of_lt hn)
    have hin := hrounds 0 (Nat.zero_le _)
    rw [Nat.zero_mul, Nat.add_zero, Nat.mod_eq_of_lt hph] at hin
    rw [List.length_nil, Nat.zero_mul, Nat.add_zero, Nat.mod_eq_of_lt hph, allocVmLoop, if_pos hin,
      State.phys, hpage]
    rfl
  | cons m log ih =>
    cases hmaps with
    | @step _ s₁ _ _ page code phys₁ _ hp h0 hm hrest =>
      obtain ⟨n, rfl⟩ := Nat.exists_eq_succ_of_ne_zero (Nat.ne_zero_of_lt hn)
      have hin := hrounds 0 (Nat.zero_le _)
      rw [Nat.zero_mul, Nat.add_zero, Nat.mod_eq_of_lt hph] at hin
      have hnext : ∀ j, ((phsize + pageSize) % 2 ^ 64 + j * pageSize) % 2 ^ 64 =
          (phsize + (j + 1) * pageSize) % 2 ^ 64 := by
        intro j
        rw [Nat.mod_add_mod, Nat.succ_mul]
        congr 1
        omega
      have hnexts : ∀ j ≤ log.length,
          ((phsize + pageSize) % 2 ^ 64 + j * pageSize) % 2 ^ 64 ≤ size := by
        intro j hj
        rw [hnext]
        exact hrounds (j + 1) (Nat.succ_le_succ hj)
      have hloop := ih (s := { s with pg := s₁ }) (n := n) hrest hnexts
        (Nat.mod_lt _ (by decide)) (Nat.lt_of_succ_lt_succ hn)
      have hmap : mapPageP2vRw fuel (s.setPhys phys₁).pg page addr = .ok (code, s₁) := hm
      rw [allocVmLoop, if_pos hin, State.phys, hp, ok_bind]
      dsimp only
      rw [if_neg h0, hmap, ok_bind]
      dsimp only
      rw [hnext, roundAddr_next] at hloop
      exact hloop

/-! ## The call -/

variable {live H M L : List Range} {log : List Mapping}

theorem RunsOut.alloc (hi : Inv s live H M L) (h : RunsOut fuel s k size log) :
    ∃ (p : Nat) (L' : List Range) (s₁ : State) (u : Pgtable.State) (phys : Phymem.State),
      cutFirst 0 (roundPage (k.request size)) L = some (p, L') ∧ s₁.linear.Reps L' ∧
      Maps fuel s.pg (k.base p) log u ∧
      Phymem.allocPhyPage fuel u.heap.phys = .ok (0, phys) ∧
      k.alloc fuel s size = (do
        let (all, s) ← undo fuel size { s₁ with pg := u.setPhys phys }
          (roundAddr (k.base p) log.length) (log.length * pageSize % 2 ^ 64)
        .ok (if all then k.base p else 0, s)) := by
  obtain ⟨p, s₁, u, phys, hlin, hp, hmaps, hpage⟩ := h.reach
  obtain ⟨hpg, L', hcut, hreps⟩ := allocLinear_cases hi.linear hlin hp
  have hrounds : ∀ j ≤ log.length, (0 + j * pageSize) % 2 ^ 64 ≤ size := by
    intro j hj
    rw [Nat.zero_add]
    exact h.rounds j hj
  have hloop := allocVmLoop_runs_out hmaps hpage hrounds (by decide) h.enough
  rw [Nat.zero_add] at hloop
  rw [hpg] at hmaps
  refine ⟨p, L', s₁, u, phys, hcut, hreps, hmaps, hpage, ?_⟩
  rw [Kind.alloc_eq, hlin, ok_bind]
  dsimp only
  rw [if_neg hp, hloop]

theorem RunsOut.first (hi : Inv s live H M L) (h : RunsOut fuel s k size []) :
    Restores fuel s k size ↔ roundPage (k.request size) = 0 := by
  obtain ⟨p, L', s₁, u, phys, hcut, hreps, hmaps, hpage, halloc⟩ := h.alloc hi
  cases hmaps
  have hcover := cover_cutFirst_zero hcut
  have hret : k.alloc fuel s size = .ok (0, { s₁ with pg := s.pg.setPhys phys }) := halloc
  constructor
  · rintro ⟨t, ht, hundone⟩
    cases hret.symm.trans ht
    obtain ⟨L₀, L₁, hL₀, hL₁, hsame⟩ := hundone.linear
    obtain rfl := hL₀.unique hi.linear
    obtain rfl := hL₁.unique hreps
    by_contra hne
    have hp := hcover p
    rw [hsame p, Range.has_eq, if_pos (by omega)] at hp
    omega
  · intro hzero
    refine ⟨_, hret, fun i => ?_, ⟨L, L', hi.linear, hreps, fun b => ?_⟩, fun x _ => rfl⟩
    · exact bits_of_none hi.pg.heap.phys hpage i
    · rw [hcover b, hzero, Range.has_empty, Nat.zero_add]

theorem other_range (hph : log.length * pageSize % 2 ^ 64 ≠ 0) (hlog : log ≠ [])
    (hmod : size % pageSize = 0) (haddr : p = roundAddr (k.base p) log.length)
    (hsize : roundPage (k.request size) = size) : False := by
  cases k with
  | plain =>
    rw [roundAddr, if_neg fun h0 => hlog (List.length_eq_zero_iff.mp h0), Kind.base] at haddr
    generalize log.length * pageSize = x at haddr hph
    omega
  | stack =>
    have hmod' : (size + pageSize) % 2 ^ 64 % pageSize = 0 := by
      simp only [pageSize] at *
      omega
    rw [Kind.request, roundPage, if_neg (not_not.mpr hmod')] at hsize
    simp only [pageSize] at hsize
    omega

theorem RunsOut.gives_back (hi : Inv s live H M L) (h : RunsOut fuel s k size log)
    (hph : log.length * pageSize % 2 ^ 64 ≠ 0) (ht : k.alloc fuel s size = .ok (0, t)) :
    ∃ p L', cutFirst 0 (roundPage (k.request size)) L = some (p, L') ∧ size % pageSize = 0 ∧
      t.linear.Reps (insertRange ⟨roundAddr (k.base p) log.length, size⟩ L') := by
  obtain ⟨p, L', s₁, u, phys, hcut, hreps, -, -, halloc⟩ := h.alloc hi
  rw [halloc, undo, if_pos hph] at ht
  obtain ⟨⟨all, s₂⟩, hu, ht⟩ := bind_eq_ok.mp ht
  obtain rfl : s₂ = t := congrArg Prod.snd (Except.ok.inj ht)
  obtain ⟨s₃, hfree, hu⟩ := bind_eq_ok.mp hu
  obtain ⟨s₄, hback, hu⟩ := bind_eq_ok.mp hu
  cases hu
  have hlin : s₃.linear.Reps L' := by
    rw [freeVmPage_linear hfree]
    exact hreps
  obtain ⟨hmod, hback, -, -⟩ := freeLinear_cases hlin hback
  exact ⟨p, L', hcut, hmod, hback⟩

/-- After as many rounds as `ulong` has pages nothing is undone. -/
theorem RunsOut.loses (hi : Inv s live H M L) (h : RunsOut fuel s k size log) (hlog : log ≠ [])
    (hph : log.length * pageSize % 2 ^ 64 = 0) (ht : k.alloc fuel s size = .ok (0, t)) :
    ∃ i, s.phys.bit i = true ∧ t.phys.bit i = false := by
  obtain ⟨p, L', s₁, u, phys, -, -, hmaps, hpage, halloc⟩ := h.alloc hi
  obtain ⟨⟨live₁, H₁, hinv₁, -⟩, hto⟩ := hmaps.mapsTo hi.pg
  obtain ⟨m, hm⟩ := List.exists_mem_of_ne_nil log hlog
  obtain ⟨i, -, hbit, hgone⟩ := hto.pages m hm
  rw [halloc, undo, if_neg (not_not.mpr hph)] at ht
  cases ht
  exact ⟨i, hbit, (bits_of_none hinv₁.heap.phys hpage i).trans hgone⟩

/-- In a later round a page is lost or another range is given back. -/
theorem RunsOut.later (hi : Inv s live H M L) (h : RunsOut fuel s k size log) (hlog : log ≠ []) :
    ¬ Restores fuel s k size := by
  rintro ⟨t, ht, hundone⟩
  by_cases hph : log.length * pageSize % 2 ^ 64 = 0
  · obtain ⟨i, hbit, hgone⟩ := h.loses hi hlog hph ht
    exact Bool.false_ne_true (hgone.symm.trans ((hundone.phys i).trans hbit))
  · obtain ⟨p, L', hcut, hmod, hreps⟩ := h.gives_back hi hph ht
    obtain ⟨L₀, L₁, hL₀, hL₁, hsame⟩ := hundone.linear
    obtain rfl := hL₀.unique hi.linear
    obtain rfl := hL₁.unique hreps
    have hpos : 0 < size := Nat.lt_of_lt_of_le (Nat.pos_of_ne_zero hph) (h.rounds _ (Nat.le_refl _))
    have hhas : ∀ b, Range.has ⟨p, roundPage (k.request size)⟩ b =
        Range.has ⟨roundAddr (k.base p) log.length, size⟩ b := by
      intro b
      have h₁ := hsame b
      rw [cover_insertRange, cover_cutFirst_zero hcut b] at h₁
      omega
    obtain ⟨haddr, hsize⟩ := Range.eq_of_has hhas hpos
    exact other_range hph hlog hmod haddr hsize

/-- **The failed call leaves things as they were** exactly if not even the
first page was there and nothing had been reserved. -/
theorem alloc_restores_iff (hi : Inv s live H M L) (h : RunsOut fuel s k size log) :
    Restores fuel s k size ↔ (∃ phys, Phymem.allocPhyPage fuel s.phys = .ok (0, phys)) ∧
      roundPage (k.request size) = 0 := by
  cases log with
  | nil =>
    rw [h.first hi]
    obtain ⟨p, L', s₁, u, phys, -, -, hmaps, hpage, -⟩ := h.alloc hi
    cases hmaps
    exact (and_iff_right ⟨phys, hpage⟩).symm
  | cons m log =>
    refine iff_of_false (h.later hi (List.cons_ne_nil m log)) ?_
    rintro ⟨⟨phys, hpage⟩, -⟩
    obtain ⟨p, L', s₁, u, phys', -, -, hmaps, -, -⟩ := h.alloc hi
    cases hmaps with
    | step hp h0 _ _ =>
      cases hpage.symm.trans hp
      exact h0 rfl

/-- Nothing is asked for, and there is no page: nothing has happened. -/
theorem alloc_restores_empty :
    Restores 1 (withPages (Phymem.initPhyMem (64 * pageSize)) 0x40000000 0x200000) .plain 0 := by
  have hout : RunsOut 1 (withPages (Phymem.initPhyMem (64 * pageSize)) 0x40000000 0x200000)
      .plain 0 [] := by
    refine ⟨⟨0x40000000, _, _, _, rfl, by decide, .done _ _, rfl⟩, fun j hj => ?_, by decide⟩
    obtain rfl : j = 0 := Nat.le_zero.mp hj
    decide
  exact (alloc_restores_iff (withPages_inv (Phymem.inv_init _) (by decide) (by decide)) hout).mpr
    ⟨⟨_, rfl⟩, rfl⟩

def lastPage : Phymem.State :=
  { Phymem.initPhyMem (64 * pageSize) with pgbits := [0x20#64, 0#64], pages := 1 }

/-- **The second page is missing.** The page that was mapped is lost. The
page behind it belongs to somebody else: it becomes free, as a physical
page and as a linear address, while it stays mapped. -/
theorem alloc_restores_not :
    ∃ s t live H M L, Inv s live H M L ∧ RunsOut 8 s .plain 0x200000 [⟨0xa00000, codeOk⟩] ∧
      allocVm 8 s 0x200000 = .ok (0, t) ∧ s.phys.bit 5 = true ∧ t.phys.bit 5 = false ∧
      s.phys.bit 4 = false ∧ t.phys.bit 4 = true ∧ L = [⟨0x40000000, 0x200000⟩] ∧
      t.linear.Reps [⟨0x40200000, 0x200000⟩] ∧ t.pg.translation 0x40200000 = 0x800083 ∧
      ¬ Restores 8 s .plain 0x200000 := by
  have hlast : Phymem.freePhyPages (Phymem.initPhyMem (64 * pageSize))
      ((4 + 1) * pageSize) (1 * pageSize) = .ok lastPage := by
    decide
  have hinv : Inv (withPages lastPage 0x40000000 0x200000) _ _ _ _ :=
    withPages_inv (phys_inv hlast) (by decide) (by decide)
  have hmap : mapPageP2vRw 8
      ((withPages lastPage 0x40000000 0x200000).pg.setPhys
        { lastPage with pgbits := [0#64, 0#64], pages := 0 }) 0xa00000 0x40000000 = _ :=
    mapPageP2v_present (by decide) (by decide) (by decide)
      (ne_of_eq_of_ne (oneMapped_pd (by decide) (by decide)) (by decide))
  have hout : RunsOut 8 (withPages lastPage 0x40000000 0x200000) .plain 0x200000
      [⟨0xa00000, codeOk⟩] := by
    refine ⟨⟨0x40000000, _, _, _, rfl, by decide, .step rfl (by decide) hmap (.done _ _), rfl⟩,
      fun j hj => ?_, by decide⟩
    rw [List.length_singleton] at hj
    simp only [pageSize]
    omega
  have hreps : ∀ t, allocVm 8 (withPages lastPage 0x40000000 0x200000) 0x200000 = .ok (0, t) →
      t.linear.Reps [⟨0x40200000, 0x200000⟩] := by
    intro t ht
    obtain ⟨p, L', hcut, -, hreps⟩ := hout.gives_back hinv (by decide) ht
    cases hcut
    exact hreps
  exact ⟨_, _, _, _, _, _, hinv, hout, rfl, by decide, by decide +kernel, by decide,
    by decide +kernel, rfl, hreps _ rfl, by decide +kernel,
    hout.later hinv (List.cons_ne_nil _ _)⟩

end Yaos.Vm
