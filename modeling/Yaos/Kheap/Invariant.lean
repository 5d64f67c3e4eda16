import Yaos.Holes.Spec
import Yaos.Kheap.Model
import Yaos.Phymem.Search

/-!
# Who owns a byte

A byte belongs to at most one of: a 4K hole, a small hole, a block that
was handed out, a free physical page. `Inv` states that as one sum for
each byte, so that every operation is an arithmetic step: a refill moves
`1` from the page bitmap to a hole, an allocation from a hole to the live
blocks.
-/

namespace Yaos.Kheap

open Yaos.Lib Yaos.Holes
open Yaos.Phymem (pageSize)

variable {s t : State} {live L M : List Range} {fuel size : Nat}

/-- `1` on the bytes of the free physical pages. -/
def freeAt (s : Phymem.State) (b : Nat) : Nat := if s.bit (b / pageSize) = true then 1 else 0

/-- The invariant, with the ranges of the two hole lists. -/
structure Inv (s : State) (live L M : List Range) : Prop where
  heap4k : s.heap4k.Reps L
  small : s.small.Reps M
  ordered : Ordered L
  whole : ∀ q ∈ L, 0 < q.size ∧ q.addr % 0x1000 = 0 ∧ q.size % 0x1000 = 0
  phys : Phymem.Inv s.phys
  once : ∀ b, cover L b + cover M b + cover live b + freeAt s.phys b ≤ 1

theorem inv_initKheap {phys : Phymem.State} (h : Phymem.Inv phys) :
    Inv (initKheap phys) [] [] [] where
  heap4k := reps_init (by decide)
  small := reps_init (by decide)
  ordered := .nil
  whole := by simp
  phys := h
  once b := by
    simp only [cover_nil, freeAt]
    split <;> omega

theorem Inv.mono {live' : List Range} (hi : Inv s live L M)
    (h : ∀ b, cover live' b ≤ cover live b) : Inv s live' L M :=
  { hi with once := fun b => by have := hi.once b; have := h b; omega }

theorem freeAt_take {s t : Phymem.State} {i : Nat} (hbit : s.bit i = true)
    (hclr : ∀ j, t.bit j = if j = i then false else s.bit j) (b : Nat) :
    freeAt s b = Range.has ⟨pageSize * i, pageSize⟩ b + freeAt t b := by
  have hpage : b / pageSize = i ↔
      pageSize * i ≤ b ∧ b < pageSize * i + pageSize := by
    rw [Nat.div_eq_iff (by decide)]
    simp only [pageSize]
    omega
  simp only [freeAt, hclr, Range.has_eq, ← hpage]
  by_cases hb : b / pageSize = i
  · simp [hb, hbit]
  · simp [hb]

theorem Inv.allocPage {a : Nat} {phys : Phymem.State} (hi : Inv s live L M)
    (h : Phymem.allocPhyPage fuel s.phys = .ok (a, phys)) : Inv { s with phys := phys } live L M := by
  refine { hi with phys := Phymem.Inv.alloc hi.phys h, once := fun b => ?_ }
  have hone := hi.once b
  rcases Phymem.Inv.alloc_page hi.phys h with ⟨_, hbits⟩ | ⟨i, _, _, hbit, hclr⟩
  · simpa only [freeAt, hbits] using hone
  · have := freeAt_take hbit hclr b
    dsimp only
    omega

/-! ## Freeing -/

theorem Inv.free4k {addr : Nat} (hi : Inv s live L M) (hpos : 0 < size)
    (hown : ∀ b, Range.has ⟨addr, size⟩ b + (cover L b + cover M b + cover live b +
      freeAt s.phys b) ≤ 1)
    (h : freeKheap4k s addr size = .ok t) :
    Inv t live (insertRange ⟨addr, size⟩ L) M ∧ t.small = s.small ∧ t.phys = s.phys := by
  unfold freeKheap4k at h
  obtain ⟨_, hc, h⟩ := bind_eq_ok.mp h
  obtain ⟨h', hadd, h⟩ := bind_eq_ok.mp h
  cases h
  have hal : addr % 0x1000 = 0 ∧ size % 0x1000 = 0 := by simpa [check_eq_ok] using hc
  have hap : ∀ q ∈ L, Range.Apart ⟨addr, size⟩ q := fun q hq =>
    apart_of_cover (l := [⟨addr, size⟩]) (m := L) (fun b => by
      have := hown b
      simp only [cover_cons, cover_nil]
      omega) (by simp) hq
  refine ⟨⟨hi.heap4k.addSorted hadd, hi.small,
    ordered_insertRange hi.ordered hpos (fun q hq => (hi.whole q hq).1) hap, ?_, hi.phys, ?_⟩,
    rfl, rfl⟩
  · intro q hq
    rcases mem_insertRange.mp hq with rfl | hq
    · exact ⟨hpos, hal⟩
    · exact hi.whole q hq
  · intro b
    rw [cover_insertRange]
    have := hown b
    dsimp only
    omega

theorem Inv.freeSmall {addr : Nat} (hi : Inv s (⟨addr, size⟩ :: live) L M)
    (h : freeKheapSmall s addr size = .ok t) :
    Inv t live L (⟨addr, size⟩ :: M) ∧ t.heap4k = s.heap4k ∧ t.phys = s.phys := by
  unfold freeKheapSmall at h
  obtain ⟨_, _, h⟩ := bind_eq_ok.mp h
  obtain ⟨h', hadd, h⟩ := bind_eq_ok.mp h
  cases h
  refine ⟨⟨hi.heap4k, hi.small.addFront hadd, hi.ordered, hi.whole, hi.phys, fun b => ?_⟩, rfl, rfl⟩
  have := hi.once b
  rw [cover_cons] at this ⊢
  dsimp only
  omega

/-! ## Allocating -/

/-- What a search adds to the holes: nothing when a hole already fits, and
otherwise only pages that were free in the bitmap. -/
structure Refilled (s : State) (size : Nat) (L L' : List Range) : Prop where
  same : (∃ q ∈ L, size ≤ q.size) → L' = L
  fresh : ∀ x ∈ L', x ∈ L ∨ ∃ i, s.phys.bit i = true ∧ x = ⟨pageSize * i, pageSize⟩

theorem find4k_spec {n : Nat} {p : Option Nat} (hi : Inv s live L M)
    (h : find4k fuel n s size = .ok (p, t)) :
    ∃ L', Inv t live L' M ∧ t.small = s.small ∧ Refilled s size L L' ∧
      ∀ q, p = some q → t.heap4k.firstFit size t.heap4k.max t.heap4k.phead = .ok (some q) := by
  induction n generalizing s L with
  | zero => cases h
  | succ n ih =>
    rw [find4k] at h
    obtain ⟨found, hfound, h⟩ := bind_eq_ok.mp h
    cases found with
    | some q =>
      cases h
      exact ⟨L, hi, rfl, ⟨fun _ => rfl, fun x hx => .inl hx⟩, fun q' hq' => by cases hq'; exact hfound⟩
    | none =>
      have hsmall := hi.heap4k.firstFit_none hfound
      have hno : ¬ ∃ q ∈ L, size ≤ q.size := by
        rintro ⟨q, hq, hle⟩
        have := hsmall q hq
        omega
      obtain ⟨⟨newaddr, phys⟩, hpage, h⟩ := bind_eq_ok.mp h
      have hi₀ := hi.allocPage hpage
      rcases Phymem.Inv.alloc_page hi.phys hpage with ⟨rfl, hbits⟩ | ⟨i, hi0, rfl, hbit, hclr⟩
      · simp only [if_true] at h
        cases h
        exact ⟨L, hi₀, rfl, ⟨fun _ => rfl, fun x hx => .inl hx⟩, by simp⟩
      · have hne : pageSize * i ≠ 0 := Nat.mul_ne_zero (by decide) hi0
        simp only [if_neg hne] at h
        obtain ⟨s₁, hfree, h⟩ := bind_eq_ok.mp h
        have htake := freeAt_take hbit hclr
        obtain ⟨hi₁, hs₁, hp₁⟩ := hi₀.free4k (by decide) (fun b => by
          have := hi.once b
          have := htake b
          dsimp only
          omega) hfree
        obtain ⟨L', hi', hsm, href, hfit⟩ := ih hi₁ h
        refine ⟨L', hi', hsm.trans hs₁, ⟨fun hex => absurd hex hno, fun x hx => ?_⟩, hfit⟩
        rcases href.fresh x hx with hx | ⟨j, hj, rfl⟩
        · rcases mem_insertRange.mp hx with rfl | hx
          · exact .inr ⟨i, hbit, rfl⟩
          · exact .inl hx
        · rw [hp₁] at hj
          change phys.bit j = true at hj
          rw [hclr] at hj
          split at hj
          · cases hj
          · exact .inr ⟨j, hj, rfl⟩

theorem find4k_bits {n : Nat} {p : Option Nat} (hi : Phymem.Inv s.phys)
    (h : find4k fuel n s size = .ok (p, t)) :
    ∀ i, t.phys.bit i = true → s.phys.bit i = true := by
  induction n generalizing s with
  | zero => cases h
  | succ n ih =>
    rw [find4k] at h
    obtain ⟨found, _, h⟩ := bind_eq_ok.mp h
    cases found with
    | some q =>
      cases h
      exact fun _ hb => hb
    | none =>
      obtain ⟨⟨newaddr, phys⟩, hpage, h⟩ := bind_eq_ok.mp h
      have hphys := Phymem.Inv.alloc hi hpage
      have hless : ∀ i, phys.bit i = true → s.phys.bit i = true := by
        rcases Phymem.Inv.alloc_page hi hpage with ⟨_, hbits⟩ | ⟨j, _, _, hbit, hclr⟩
        · intro i hb
          rwa [hbits] at hb
        · intro i hb
          rw [hclr] at hb
          split at hb
          · cases hb
          · exact hb
      dsimp only at h
      split at h
      next =>
        cases h
        exact hless
      next =>
        obtain ⟨s₁, hfree, h⟩ := bind_eq_ok.mp h
        have hs₁ : s₁.phys = phys := by
          rw [freeKheap4k] at hfree
          obtain ⟨_, _, hfree⟩ := bind_eq_ok.mp hfree
          obtain ⟨_, _, hret⟩ := bind_eq_ok.mp hfree
          cases hret
          rfl
        intro i hb
        have := ih (s := s₁) (hs₁ ▸ hphys) h i hb
        rw [hs₁] at this
        exact hless i this

theorem allocKheap4k_bits {p : Option Nat} (hi : Phymem.Inv s.phys)
    (h : allocKheap4k fuel s size = .ok (p, t)) :
    ∀ i, t.phys.bit i = true → s.phys.bit i = true := by
  rw [allocKheap4k] at h
  obtain ⟨⟨q, s₁⟩, hfind, h⟩ := bind_eq_ok.mp h
  have hbits := find4k_bits hi hfind
  cases q with
  | none =>
    cases h
    exact hbits
  | some q =>
    obtain ⟨_, _, h⟩ := bind_eq_ok.mp h
    cases h
    exact hbits

/-- Where a 4K block comes from: the lowest hole that fits, or, when none
fits, a physical page that was free. -/
def Lowest (s : State) (L : List Range) (n a : Nat) : Prop :=
  (∃ q ∈ L, n ≤ q.size ∧ a = q.addr) ∧ (∀ x ∈ L, n ≤ x.size → a ≤ x.addr) ∨
  (∀ q ∈ L, q.size < n) ∧ n ≤ pageSize ∧
    ∃ i, s.phys.bit i = true ∧ a = pageSize * i

theorem Refilled.lowest {L' : List Range} {a : Nat} (h : Refilled s size L L')
    (hq : ∃ q ∈ L', size ≤ q.size ∧ a = q.addr) (hlow : ∀ x ∈ L', size ≤ x.size → a ≤ x.addr) :
    Lowest s L size a := by
  by_cases hex : ∃ q ∈ L, size ≤ q.size
  · rw [h.same hex] at hq hlow
    exact .inl ⟨hq, hlow⟩
  · have hnone : ∀ q ∈ L, q.size < size := by
      intro q hqL
      by_contra hge
      exact hex ⟨q, hqL, by omega⟩
    obtain ⟨q, hqL', hsize, ha⟩ := hq
    refine .inr ⟨hnone, ?_⟩
    rcases h.fresh q hqL' with hqL | ⟨i, hbit, rfl⟩
    · exact absurd ⟨q, hqL, hsize⟩ hex
    · exact ⟨hsize, i, hbit, ha⟩

theorem round4k_mod (size : Nat) : round4k size % 0x1000 = 0 := by
  unfold round4k
  split <;> omega

theorem le_round4k (h : size + 0xfff < 2 ^ 64) : size ≤ round4k size := by
  unfold round4k
  split <;> omega

/-- The live blocks after a call that asked for `n` bytes. -/
def hand (n : Nat) : Option Nat → List Range → List Range
  | none, live => live
  | some a, live => ⟨a, n⟩ :: live

theorem Inv.alloc4k {p : Option Nat} (hi : Inv s live L M)
    (h : allocKheap4k fuel s size = .ok (p, t)) :
    (∃ L', Inv t (hand (round4k size) p live) L' M) ∧
      ∀ a, p = some a → Lowest s L (round4k size) a := by
  rw [allocKheap4k] at h
  obtain ⟨⟨q, s₁⟩, hfind, h⟩ := bind_eq_ok.mp h
  obtain ⟨L₁, hi₁, _, href, hfit⟩ := find4k_spec hi hfind
  cases q with
  | none =>
    cases h
    exact ⟨⟨L₁, hi₁⟩, by simp⟩
  | some q =>
    obtain ⟨⟨a, h'⟩, htake, h⟩ := bind_eq_ok.mp h
    cases h
    obtain ⟨L₂, hcut, hreps⟩ := hi₁.heap4k.take (hfit q rfl) htake
    obtain ⟨hq, hlow⟩ := cutFirst_lowest hcut hi₁.ordered
    refine ⟨⟨L₂, hreps, hi₁.small, ordered_cutFirst hcut hi₁.ordered, fun x hx => ?_, hi₁.phys,
      fun b => ?_⟩, fun a' ha' => by cases ha'; exact href.lowest hq hlow⟩
    · -- whole pages taken from whole pages leave whole pages
      rcases mem_cutFirst hcut hx with hx | ⟨y, hy, hlt, rfl⟩
      · exact hi₁.whole x hx
      · obtain ⟨_, h₁, h₂⟩ := hi₁.whole y hy
        have := round4k_mod size
        dsimp only
        omega
    · have h₁ := hi₁.once b
      have h₂ := cover_cutFirst hcut b
      simp only [hand, cover_cons]
      omega

theorem findSmall_spec {n : Nat} {p : Option Nat} (hi : Inv s live L M)
    (h : findSmall fuel n s size = .ok (p, t)) :
    ∃ L' M', Inv t live L' M' ∧
      ∀ q, p = some q → t.small.firstFit size t.small.max t.small.phead = .ok (some q) := by
  induction n generalizing s L M with
  | zero => cases h
  | succ n ih =>
    rw [findSmall] at h
    obtain ⟨found, hfound, h⟩ := bind_eq_ok.mp h
    cases found with
    | some q =>
      cases h
      exact ⟨L, M, hi, fun q' hq' => by cases hq'; exact hfound⟩
    | none =>
      obtain ⟨⟨block, s₁⟩, hblock, h⟩ := bind_eq_ok.mp h
      obtain ⟨⟨L₁, hi₁⟩, _⟩ := hi.alloc4k hblock
      dsimp only at h
      split at h
      next =>
        -- no page, or a page at address 0, which is lost
        cases h
        refine ⟨L₁, M, hi₁.mono fun b => ?_, by simp⟩
        cases block <;> simp [hand]
      next hne =>
        obtain ⟨s₂, hfree, hrest⟩ := bind_eq_ok.mp h
        cases block with
        | none => exact absurd rfl hne
        | some a =>
          obtain ⟨hi₂, _, _⟩ := Inv.freeSmall hi₁ hfree
          exact ih hi₂ hrest

theorem Inv.allocSmall {p : Option Nat} (hi : Inv s live L M)
    (h : allocKheapSmall fuel s size = .ok (p, t)) :
    ∃ L' M', Inv t (hand size p live) L' M' := by
  rw [allocKheapSmall] at h
  obtain ⟨_, _, h⟩ := bind_eq_ok.mp h
  obtain ⟨⟨q, s₁⟩, hfind, h⟩ := bind_eq_ok.mp h
  obtain ⟨L₁, M₁, hi₁, hfit⟩ := findSmall_spec hi hfind
  cases q with
  | none =>
    cases h
    exact ⟨L₁, M₁, hi₁⟩
  | some q =>
    obtain ⟨⟨a, h'⟩, htake, h⟩ := bind_eq_ok.mp h
    cases h
    obtain ⟨M₂, hcut, hreps⟩ := hi₁.small.take (hfit q rfl) htake
    refine ⟨L₁, M₂, hi₁.heap4k, hreps, hi₁.ordered, hi₁.whole, hi₁.phys, fun b => ?_⟩
    have h₁ := hi₁.once b
    have h₂ := cover_cutFirst hcut b
    simp only [hand, cover_cons]
    omega

end Yaos.Kheap
