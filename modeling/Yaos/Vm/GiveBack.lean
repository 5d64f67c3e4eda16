import Yaos.Vm.Stacks

/-!
# Allocating and giving back

`free_vm` is called with what `alloc_vm` returned. Its loop does not advance
the address, so it looks up the first page of the region in every round, and
like the loop of `alloc_vm` it runs once more than the region has pages. For
a region of `n` pages it releases the first one `n + 1` times; the other
pages, and the one that `alloc_vm` mapped behind the region, stay taken.
-/

namespace Yaos.Vm

open Yaos.Lib Yaos.Holes Yaos.Pgtable
open Yaos.Phymem (pageSize)

/-- The physical page that the tables give for an address:
`*pte & ~PAGE_MASK`. -/
def State.pageOf (s : State) (addr : Nat) : Nat :=
  s.pg.mem (getPteWithAddr s.pg addr) / pageSize * pageSize

/-- The arguments of the calls of `free_phy_one_page` that `free_vm_page`
makes. -/
def releasedPages (addr size : Nat) : Nat → State → Nat → List Nat
  | 0, _, _ => []
  | n + 1, s, phsize =>
      if phsize ≤ size then
        s.pageOf addr :: ((Phymem.freePhyOnePage s.phys (s.pageOf addr)).toOption.elim [] fun phys =>
          releasedPages addr size n (s.setPhys phys) ((phsize + pageSize) % 2 ^ 64))
      else []

/-- The physical pages of `[addr, addr + size)`. -/
def State.regionPages (s : State) (addr size : Nat) : List Nat :=
  (List.range (size / pageSize)).map fun j => s.pageOf (addr + j * pageSize)

/-- Freeing in `t` what was allocated in `s` returns; the free physical pages
and the free linear addresses are those of `s`; and every page of the region
was released once, and no other. -/
structure GivesBack (fuel : Nat) (k : Kind) (s t : State) (p size : Nat) : Prop where
  restored : ∃ u, k.free fuel t p size = .ok u ∧ (∀ i, u.phys.bit i = s.phys.bit i) ∧
    ∃ L L', s.linear.Reps L ∧ u.linear.Reps L' ∧ ∀ b, cover L' b = cover L b
  released : (releasedPages p size fuel t 0).Perm (t.regionPages p size)

variable {fuel size p addr : Nat} {s t u : State} {k : Kind} {live H M L : List Range}

theorem setPhys_pageOf (phys : Phymem.State) : (s.setPhys phys).pageOf addr = s.pageOf addr :=
  rfl

theorem round_next {phsize : Nat} (hal : phsize % pageSize = 0) (hin : phsize ≤ size) :
    (phsize + pageSize) % pageSize = 0 ∧ phsize + pageSize ≤ (size / pageSize + 1) * pageSize := by
  simp only [pageSize] at *
  omega

theorem round_last {phsize : Nat} (hal : phsize % pageSize = 0)
    (hle : phsize ≤ (size / pageSize + 1) * pageSize) (hout : ¬ phsize ≤ size) :
    phsize = (size / pageSize + 1) * pageSize := by
  simp only [pageSize] at *
  omega

/-- The loop of `free_vm_page` releases one page, over and over. -/
theorem freeVmPage_cases {n phsize : Nat} (h : freeVmPage addr size n s phsize = .ok t)
    (hphys : Phymem.Inv s.phys) (hal : phsize % pageSize = 0) (hsize : size < 2 ^ 64 - pageSize)
    (hle : phsize ≤ (size / pageSize + 1) * pageSize) :
    (∀ i, t.phys.bit i = true → s.phys.bit i = true ∨ i = s.pageOf addr / pageSize) ∧
      ∃ m, m * pageSize + phsize = (size / pageSize + 1) * pageSize ∧
        releasedPages addr size n s phsize = List.replicate m (s.pageOf addr) := by
  induction n generalizing s phsize with
  | zero => cases h
  | succ n ih =>
    rw [freeVmPage] at h
    rw [releasedPages]
    split at h
    case isTrue hin =>
      dsimp only at h
      split at h
      · cases h
      obtain ⟨phys, hfree, h⟩ := bind_eq_ok.mp h
      have hfree' : Phymem.freePhyOnePage s.phys (s.pageOf addr) = .ok phys := hfree
      have hnext : (phsize + pageSize) % 2 ^ 64 = phsize + pageSize :=
        Nat.mod_eq_of_lt (by omega)
      rw [hnext] at h
      -- one call sets the bit of the page at most
      have hone : Phymem.Inv phys ∧
          ∀ i, phys.bit i = true → s.phys.bit i = true ∨ i = s.pageOf addr / pageSize := by
        rcases Phymem.freePhyOnePage_cases hphys hfree' with ⟨-, rfl⟩ | ⟨-, -, -, hfreed⟩
        · exact ⟨hphys, fun i hi => .inl hi⟩
        · refine ⟨hfreed.inv, fun i hi => ?_⟩
          rw [hfreed.bits, Bool.or_eq_true, decide_eq_true_eq] at hi
          rcases hi with hi | hi
          · exact .inr (Nat.le_antisymm (Nat.le_of_lt_succ hi.2) hi.1)
          · exact .inl hi
      obtain ⟨hbits, m, hm, hlist⟩ := ih h hone.1 (round_next hal hin).1 (round_next hal hin).2
      refine ⟨fun i hi => ?_, m + 1, by rw [Nat.succ_mul]; omega, ?_⟩
      · rcases hbits i hi with hi | hi
        · exact hone.2 i hi
        · exact .inr hi
      · rw [if_pos hin, hfree', hnext]
        show s.pageOf addr :: releasedPages addr size n (s.setPhys phys) (phsize + pageSize) = _
        rw [hlist, List.replicate_succ, setPhys_pageOf]
    case isFalse hout =>
      cases h
      refine ⟨fun i hi => .inl hi, 0, ?_, ?_⟩
      · rw [Nat.zero_mul, Nat.zero_add]
        exact round_last hal hle hout
      · rw [if_neg hout, List.replicate_zero]

/-- A call that returns a region has a log of one round more than the region
has whole pages. -/
theorem alloc_log (hL : s.linear.Reps L) (h : k.alloc fuel s size = .ok (p, t)) (hp : p ≠ 0) :
    size < 2 ^ 64 - pageSize ∧ (∃ L', t.linear.Reps L') ∧
      ∃ log, Maps fuel s.pg p log t.pg ∧ log.length = size / pageSize + 1 := by
  rw [Kind.alloc_eq] at h
  obtain ⟨⟨a, s₁⟩, hlin, h⟩ := bind_eq_ok.mp h
  obtain ⟨hpg, L', hreps, -⟩ := allocLinear_spec hL hlin
  dsimp only at h
  split at h
  · cases h
    exact absurd rfl hp
  · obtain ⟨⟨all, s₂⟩, hloop, h⟩ := bind_eq_ok.mp h
    cases all with
    | false =>
      cases h
      exact absurd rfl hp
    | true =>
      cases h
      obtain ⟨hsize, heq, log, hmaps, hlen⟩ := allocVmLoop_log hloop
      rw [hpg] at hmaps
      exact ⟨hsize, ⟨L', heq ▸ hreps⟩, log, hmaps, hlen⟩

theorem free_phys (hL : t.linear.Reps L) (h : k.free fuel t p size = .ok u) :
    ∃ s₁, freeVmPage p size fuel t 0 = .ok s₁ ∧ u.phys = s₁.phys := by
  cases k with
  | plain =>
    obtain ⟨s₁, hfree, hback⟩ := bind_eq_ok.mp h
    have hpg := (freeLinear_cases (by rw [freeVmPage_linear hfree]; exact hL) hback).2.2.2
    exact ⟨s₁, hfree, by rw [State.phys, hpg, State.phys]⟩
  | stack =>
    obtain ⟨s₁, hfree, hback⟩ := bind_eq_ok.mp h
    have hpg := (freeLinear_cases (by rw [freeVmPage_linear hfree]; exact hL) hback).2.2.2
    exact ⟨s₁, hfree, by rw [State.phys, hpg, State.phys]⟩

/-- A region of at least one page: one of the two first pages that were taken
stays taken. -/
theorem free_leaks (hi : Inv s live H M L) (h : k.alloc fuel s size = .ok (p, t)) (hp : p ≠ 0)
    (hsize : pageSize ≤ size) (hfree : k.free fuel t p size = .ok u) :
    ∃ i, s.phys.bit i = true ∧ u.phys.bit i = false := by
  obtain ⟨hlt, ⟨L', hL'⟩, log, hmaps, hlen⟩ := alloc_log hi.linear h hp
  obtain ⟨⟨live', H', hpg, -⟩, hto⟩ := hmaps.mapsTo hi.pg
  obtain ⟨s₁, hloop, hphys⟩ := free_phys hL' hfree
  have hbits := (freeVmPage_cases hloop hpg.heap.phys (by decide) hlt (Nat.zero_le _)).1
  have htwo : 2 ≤ log.length := by
    have := Nat.div_pos hsize (by decide)
    omega
  match log, htwo with
  | m :: n :: _, _ =>
    obtain ⟨i, hi₁, hbi, hti⟩ := hto.pages m (by simp)
    obtain ⟨j, hj₁, hbj, htj⟩ := hto.pages n (by simp)
    have hij : i ≠ j := by
      rintro rfl
      have hnodup := hto.nodup
      simp [hi₁, hj₁] at hnodup
    -- a page that comes back is the one that is released
    have hback : ∀ x, t.phys.bit x = false → u.phys.bit x = true →
        x = t.pageOf p / pageSize := by
      intro x hx hux
      rw [hphys] at hux
      exact (hbits x hux).resolve_left fun hb => by rw [hx] at hb; cases hb
    by_cases hui : u.phys.bit i = true
    · refine ⟨j, hbj, Bool.eq_false_iff.mpr fun huj => hij ?_⟩
      rw [hback i hti hui, hback j htj huj]
    · exact ⟨i, hbi, Bool.eq_false_iff.mpr hui⟩

/-- **Nothing is given back as it was taken.** For no region does freeing it
release its pages once and no other; and after a region of at least one page
has been freed, a page that was free before it was allocated is not. -/
theorem free_never_gives_back (hi : Inv s live H M L) (hmod : size % pageSize = 0)
    (h : k.alloc fuel s size = .ok (p, t)) (hp : p ≠ 0) :
    ¬ GivesBack fuel k s t p size ∧
      (0 < size → ∀ u, k.free fuel t p size = .ok u →
        ∃ i, s.phys.bit i = true ∧ u.phys.bit i = false) := by
  obtain ⟨hlt, ⟨L', hL'⟩, log, hmaps, hlen⟩ := alloc_log hi.linear h hp
  obtain ⟨⟨live', H', hpg, -⟩, -⟩ := hmaps.mapsTo hi.pg
  constructor
  · rintro ⟨⟨u, hfree, -⟩, hperm⟩
    obtain ⟨s₁, hloop, -⟩ := free_phys hL' hfree
    obtain ⟨-, m, hm, hlist⟩ :=
      freeVmPage_cases hloop hpg.heap.phys (by decide) hlt (Nat.zero_le _)
    -- one call more than there are pages
    have hcalls : m = size / pageSize + 1 :=
      Nat.eq_of_mul_eq_mul_right (by decide : 0 < pageSize) (by omega)
    have hcount := hperm.length_eq
    rw [hlist, List.length_replicate, State.regionPages, List.length_map, List.length_range] at hcount
    omega
  · intro h0 u hfree
    have hsize : pageSize ≤ size := Nat.le_of_dvd h0 (Nat.dvd_of_mod_eq_zero hmod)
    exact free_leaks hi h hp hsize hfree

/-- A stack of one page. -/
theorem free_never_gives_back_stack :
    ∃ t, allocVmStack 8 room 0x200000 = .ok (0x40600000, t) ∧
      ¬ GivesBack 8 .stack room t 0x40600000 0x200000 := by
  obtain ⟨t, h⟩ : ∃ t, allocVmStack 8 room 0x200000 = .ok (0x40600000, t) := ⟨_, rfl⟩
  exact ⟨t, h, (free_never_gives_back (k := .stack) room_inv (by decide) h (by decide)).1⟩

/-- **A page is lost.** `alloc_vm` of one page takes the physical pages 5 and
6; `free_vm` releases page 5 twice and page 6 never. -/
theorem free_vm_loses_page :
    ∃ t, allocVm 8 room 0x200000 = .ok (0x40400000, t) ∧
      t.regionPages 0x40400000 0x200000 = [0xa00000] ∧
      releasedPages 0x40400000 0x200000 8 t 0 = [0xa00000, 0xa00000] ∧
      room.phys.bit 6 = true ∧
      (freeVm 8 t 0x40400000 0x200000).map (fun u => u.phys.bit 6) = .ok false := by
  refine ⟨_, rfl, ?_, ?_, ?_, ?_⟩
  · decide +kernel
  · decide +kernel
  · decide +kernel
  · decide +kernel

end Yaos.Vm
