import Mathlib.Data.Finset.Card
import Yaos.Boot.Tables

/-!
# Where the loop of `init_pml4` takes its tables

The heap serves a request from its lowest hole. While it has holes below
2G, the tables of the loop come from there, and what is free above 2G stays
free. The loop needs at most two tables for each gigabyte.
-/

namespace Yaos.Boot

open Yaos.Lib Yaos.Lib.Radix Yaos.Pgtable
open Yaos.Phymem (pageSize)

/-- 4K pages below 2G that are in holes. -/
def Low (L : List Range) (S : Finset Nat) : Prop :=
  ∀ p ∈ S, p < 2 ^ 19 ∧ 0 < cover L (p * page)

/-- At most `n` of the low pages were taken, and nothing else. -/
structure Spent (n : Nat) (h h' : Kheap.State) (L L' : List Range) (S S' : Finset Nat) : Prop where
  reps : h'.heap4k.Reps L'
  low : Low L' S'
  card : S.card ≤ S'.card + n
  high : ∀ b, 2 ^ 31 ≤ b → cover L b ≤ cover L' b
  small : h'.small = h.small
  phys : h'.phys = h.phys

theorem Spent.trans {n m : Nat} {h h' h'' : Kheap.State} {L L' L'' : List Range}
    {S S' S'' : Finset Nat} (h₁ : Spent n h h' L L' S S') (h₂ : Spent m h' h'' L' L'' S' S'') :
    Spent (n + m) h h'' L L'' S S'' where
  reps := h₂.reps
  low := h₂.low
  card := by
    have := h₁.card
    have := h₂.card
    omega
  high b hb := Nat.le_trans (h₁.high b hb) (h₂.high b hb)
  small := h₂.small.trans h₁.small
  phys := h₂.phys.trans h₁.phys

theorem Spent.mono {n m : Nat} {h h' : Kheap.State} {L L' : List Range} {S S' : Finset Nat}
    (hs : Spent n h h' L L' S S') (hle : n ≤ m) : Spent m h h' L L' S S' :=
  { hs with card := by have := hs.card; omega }

/-! ## One table -/

variable {fuel : Nat} {live L M : List Range} {S : Finset Nat}

theorem alloc_low {h h' : Kheap.State} {r : Option Nat} (hi : Kheap.Inv h live L M) (hS : Low L S)
    (hpos : 0 < S.card) (hrun : Kheap.allocKheap4k fuel h 4096 = .ok (r, h')) :
    ∃ L' S', Spent 1 h h' L L' S S' := by
  obtain ⟨p, hp⟩ := Finset.card_pos.mp hpos
  obtain ⟨hplt, hpc⟩ := hS p hp
  obtain ⟨x, hx, hpx⟩ := cover_pos.mp hpc
  have hround : Kheap.round4k 4096 = 4096 := by decide
  have hfits : ∀ q ∈ L, 4096 ≤ q.size := by
    intro q hq
    have := hi.whole q hq
    omega
  rw [Kheap.allocKheap4k, hround] at hrun
  obtain ⟨⟨found, h₁⟩, hfind, hcut⟩ := bind_eq_ok.mp hrun
  -- a hole fits, so the bitmap is not asked
  obtain ⟨q, hfirst, rfl, rfl⟩ : ∃ q, h.heap4k.firstFit 4096 h.heap4k.max h.heap4k.phead =
      .ok (some q) ∧ found = some q ∧ h₁ = h := by
    cases fuel with
    | zero => cases hfind
    | succ fuel =>
      rw [Kheap.find4k] at hfind
      obtain ⟨fit, hfit, hfind⟩ := bind_eq_ok.mp hfind
      cases fit with
      | none =>
        have := hi.heap4k.firstFit_none hfit x hx
        have := hfits x hx
        omega
      | some q =>
        cases hfind
        exact ⟨q, hfit, rfl, rfl⟩
  obtain ⟨⟨a, hl⟩, htake, hret⟩ := bind_eq_ok.mp hcut
  cases hret
  obtain ⟨L', hcut, hreps⟩ := hi.heap4k.take hfirst htake
  obtain ⟨⟨q', hq', -, rfl⟩, hlowest⟩ := cutFirst_lowest hcut hi.ordered
  have hcover := cover_cutFirst_zero hcut
  have hal := (hi.whole q' hq').2.1
  have hle := hlowest x hx (hfits x hx)
  have hxp := hpx.1
  have hpage : page = 4096 := rfl
  refine ⟨L', S.erase (q'.addr / page), hreps, ?_, ?_, ?_, rfl, rfl⟩
  · intro i hi'
    obtain ⟨hne, hiS⟩ := Finset.mem_erase.mp hi'
    obtain ⟨hilt, hic⟩ := hS i hiS
    refine ⟨hilt, ?_⟩
    have hother : Range.has ⟨q'.addr, 4096⟩ (i * page) = 0 := by
      rw [Range.has_eq, if_neg]
      rw [hpage] at hne ⊢
      omega
    have := hcover (i * page)
    omega
  · have := Finset.pred_card_le_card_erase (s := S) (a := q'.addr / page)
    omega
  · intro b hb
    have hblock : Range.has ⟨q'.addr, 4096⟩ b = 0 := by
      rw [Range.has_eq, if_neg]
      rw [hpage] at hxp
      omega
    have := hcover b
    omega

theorem tableAt_low {s t : State} {slot : Nat} {r : Option Nat} (hi : Kheap.Inv s.heap live L M)
    (hS : Low L S) (hpos : 0 < S.card) (h : tableAt fuel s slot = .ok (r, t)) :
    ∃ L' S', Spent 1 s.heap t.heap L L' S S' := by
  rw [tableAt] at h
  split at h
  next =>
    cases h
    exact ⟨L, S, hi.heap4k, hS, Nat.le_succ _, fun _ _ => Nat.le_refl _, rfl, rfl⟩
  next =>
    obtain ⟨⟨block, heap⟩, halloc, h⟩ := bind_eq_ok.mp h
    obtain ⟨_, _, h⟩ := bind_eq_ok.mp h
    have hspent := alloc_low hi hS hpos halloc
    split at h
    · cases h
      exact hspent
    · cases h
      exact hspent

/-! ## One page -/

theorem mapPageP2v_low {s t : State} {paddr addr flag code : Nat} (hi : Inv s live L M)
    (hS : Low L S) (hcard : 2 ≤ S.card) (h : mapPageP2v fuel s paddr addr flag = .ok (code, t)) :
    ∃ L' S', Spent 2 s.heap t.heap L L' S S' := by
  rw [mapPageP2v] at h
  obtain ⟨_, _, h⟩ := bind_eq_ok.mp h
  obtain ⟨_, _, h⟩ := bind_eq_ok.mp h
  obtain ⟨⟨pdp, s₁⟩, h₁, h⟩ := bind_eq_ok.mp h
  obtain ⟨L₁, S₁, hspent₁⟩ := tableAt_low hi.heap hS (by omega) h₁
  obtain ⟨live₁, L₁', hinv₁, -⟩ := tableAt_spec hi (q := []) ⟨by decide, by simp⟩ (by decide)
    (Nat.mod_lt _ (by decide) : pml4Index addr < fan) hi.tree.root_pos h₁
  cases pdp with
  | none =>
    cases h
    exact ⟨L₁, S₁, hspent₁.mono (by decide)⟩
  | some pdp =>
    obtain ⟨⟨pd, s₂⟩, h₂, h⟩ := bind_eq_ok.mp h
    rw [hinv₁.heap.heap4k.unique hspent₁.reps] at hinv₁
    have hleft : 0 < S₁.card := by
      have := hspent₁.card
      omega
    obtain ⟨L₂, S₂, hspent₂⟩ := tableAt_low hinv₁.heap hspent₁.low hleft h₂
    cases pd with
    | none =>
      cases h
      exact ⟨L₂, S₂, hspent₁.trans hspent₂⟩
    | some pd =>
      cases h
      exact ⟨L₂, S₂, hspent₁.trans hspent₂⟩

theorem mapPageP2v_tab {s t : State} {paddr addr flag : Nat} (hi : Inv s live L M)
    (hv : paddr ||| flag ≠ 0) (h : mapPageP2v fuel s paddr addr flag = .ok (codeOk, t)) :
    tab t.mem t.pml4 (path addr) ≠ 0 := by
  obtain ⟨live', L', hinv, -, -, -, hcase⟩ := mapPageP2v_spec hi h
  rcases hcase with ⟨-, hentry⟩ | ⟨hcode, -, -⟩
  · intro h0
    have hx := hentry addr
    rw [if_pos rfl, entry_eq_leaf t hinv.tree.root_pos, leaf, if_pos h0] at hx
    exact hv hx.symm
  · exact absurd hcode (by decide)

/-! ## The loop -/

/-- The gigabytes that begin below page `m`. -/
def gigs (m : Nat) : Nat := (m + 511) / 512

theorem path_next {m : Nat} (h : (m + 1) % 512 ≠ 0) :
    path ((m + 1) * pageSize) = path (m * pageSize) := by
  simp only [path, pml4Index, pdpIndex, pageSize, List.cons.injEq, and_true]
  omega

/-- **The loop takes only low pages** if there are enough. -/
theorem mapAbove_low {max k m : Nat} {s t : State} (hmax : max < 2 ^ 63)
    (hm : m * pageSize < 2 ^ 63) (hi : Inv s live L M) (hS : Low L S)
    (hcard : 2 * (gigs (max / pageSize) - gigs m) ≤ S.card)
    (hdir : m % 512 ≠ 0 → tab s.mem s.pml4 (path (m * pageSize)) ≠ 0)
    (h : mapAbove fuel max k s (m * pageSize) = .ok t) :
    ∃ L' S', Spent S.card s.heap t.heap L L' S S' := by
  induction k generalizing s live L S m with
  | zero => cases h
  | succ k ih =>
    rcases mapAbove_round hm h with ⟨hlt, s₁, hmap, h⟩ | ⟨-, rfl⟩
    · obtain ⟨live₁, L₁, hinv₁, -⟩ := mapPageP2v_spec hi hmap
      have hin : m < max / pageSize := by
        rw [Nat.lt_iff_add_one_le, Nat.le_div_iff_mul_le (by decide)]
        exact Nat.le_of_lt hlt
      have hne : m * pageSize ||| (ptePS ||| pteP ||| pteW) ≠ 0 := by
        rw [or_pageFlags]
        have hf : flags = 0x83 := rfl
        omega
      have hdir₁ : (m + 1) % 512 ≠ 0 →
          tab s₁.mem s₁.pml4 (path ((m + 1) * pageSize)) ≠ 0 := by
        intro hnext
        rw [path_next hnext]
        exact mapPageP2v_tab hi hne hmap
      by_cases hfirst : m % 512 = 0
      · -- the first page of a gigabyte
        have hg : gigs (m + 1) = gigs m + 1 ∧ gigs m < gigs (max / pageSize) := by
          generalize max / pageSize = g at *
          simp only [gigs]
          omega
        obtain ⟨L₁', S₁, hspent⟩ := mapPageP2v_low hi hS (by omega) hmap
        rw [hinv₁.heap.heap4k.unique hspent.reps] at hinv₁
        have hc := hspent.card
        obtain ⟨L₂, S₂, hrest⟩ := ih (by omega) hinv₁ hspent.low (by omega) hdir₁ h
        exact ⟨L₂, S₂, { hspent.trans hrest with card := Nat.le_add_left _ _ }⟩
      · -- its directory is there
        have hg : gigs (m + 1) = gigs m := by
          simp only [gigs]
          omega
        have hpage : m * pageSize % 0x1000 = 0 := by
          simp only [pageSize]
          omega
        rw [mapPageP2v_present hi.tree.root_pos hpage (by decide) (hdir hfirst)] at hmap
        cases hmap
        rw [hinv₁.heap.heap4k.unique hi.heap.heap4k] at hinv₁
        have hrest := ih (by omega) hinv₁ hS (by omega) hdir₁ h
        exact hrest
    · exact ⟨L, S, hi.heap.heap4k, hS, Nat.le_add_right _ _, fun _ _ => Nat.le_refl _, rfl, rfl⟩

end Yaos.Boot
