import Yaos.Phymem.Model
import Yaos.Lib.Run

/-!
# The search for a free page

What `get_none_zero` finds is the first non-zero word of the cyclic
order `scanOrder`; what `alloc_phy_page` makes of it is decided by the
low half of that word. `Inv` is the invariant every history keeps; one
inversion lemma, `allocPhyPage_cases`, says all that a returning call
can have done, and the later modules only use that.
-/

namespace Yaos.Phymem

open Yaos.Lib

/-! ## The invariant of every history -/

/-- The allocator between calls: the array is one word longer than the
searched part, the cursor is inside it, page `0` is not free, and the
counter is the number of set bits. -/
structure Inv (s : State) : Prop where
  pmax_eq : s.pmax = s.maxPhyAddr / pageSize / 64
  len : s.pgbits.length = s.pmax + 1
  cursor : s.pnow ≤ s.pmax
  page0 : s.bit 0 = false
  count : s.pages = s.popcount

theorem initPhyMem_bit (m i : Nat) : (initPhyMem m).bit i = false := by
  simp only [initPhyMem, State.bit, State.word, List.getD_eq_getElem?_getD,
    List.getElem?_replicate]
  split <;> simp

theorem inv_init (m : Nat) : Inv (initPhyMem m) where
  pmax_eq := rfl
  len := by simp only [initPhyMem, List.length_replicate]; omega
  cursor := Nat.zero_le _
  page0 := initPhyMem_bit m 0
  count := by
    simp only [State.popcount, initPhyMem_bit, Bool.false_eq_true, Finset.filter_false,
      Finset.card_empty]
    rfl

theorem Inv.move {s : State} (hi : Inv s) {c : Nat} (hc : c ≤ s.pmax) :
    Inv { s with pnow := c } :=
  ⟨hi.pmax_eq, hi.len, hc, hi.page0, hi.count⟩

theorem popcount_set {s : State} {i : Nat} (hi : i < s.pgbits.length * 64)
    (hb : s.bit i = false) :
    (s.put (i / 64) (i % 64) true).popcount = s.popcount + 1 := by
  have hput := State.put_bit (b := true) (show i / 64 < s.pgbits.length by omega)
    (Nat.mod_lt i (by decide : 0 < 64))
  have heq : i / 64 * 64 + i % 64 = i := by omega
  simp only [heq] at hput
  have hset : (Finset.range (s.pgbits.length * 64)).filter
        (fun j => (s.put (i / 64) (i % 64) true).bit j = true)
      = insert i ((Finset.range (s.pgbits.length * 64)).filter
        (fun j => s.bit j = true)) := by
    ext j
    by_cases hj : j = i
    · simp [hput, hj, hi]
    · simp [hput, hj]
  rw [State.popcount, State.put_length, hset, Finset.card_insert_of_notMem (by simp [hb])]
  rfl

theorem popcount_clear {s : State} {i : Nat} (hb : s.bit i = true) :
    (s.put (i / 64) (i % 64) false).popcount = s.popcount - 1 := by
  have hi : i < s.pgbits.length * 64 := by
    by_contra hge
    rw [State.bit_of_ge (by omega)] at hb
    cases hb
  have hput := State.put_bit (b := false) (show i / 64 < s.pgbits.length by omega)
    (Nat.mod_lt i (by decide : 0 < 64))
  have heq : i / 64 * 64 + i % 64 = i := by omega
  simp only [heq] at hput
  have hset : (Finset.range (s.pgbits.length * 64)).filter
        (fun j => (s.put (i / 64) (i % 64) false).bit j = true)
      = ((Finset.range (s.pgbits.length * 64)).filter
        (fun j => s.bit j = true)).erase i := by
    ext j
    by_cases hj : j = i
    · simp [hput, hj]
    · simp [hput, hj]
  rw [State.popcount, State.put_length, hset, Finset.card_erase_of_mem (by simp [hb, hi])]
  rfl

/-! ## The scan -/

/-- The order in which `get_none_zero` looks at the words. -/
def scanOrder (s : State) : List Nat :=
  s.pnow :: (List.range' (s.pnow + 1) (s.pmax - (s.pnow + 1))
    ++ 0 :: List.range' 1 (s.pnow - 1))

def firstNonZero (s : State) : Option Nat :=
  (scanOrder s).find? (fun i => s.word i ≠ 0#64)

theorem scanUp_eq (s : State) : ∀ (n p : Nat), p + n ≤ s.pgbits.length →
    scanUp s n p = match (List.range' p n).find? (fun i => s.word i ≠ 0#64) with
      | some q => .ok (q, true)
      | none => .ok (p + n, false) := by
  intro n
  induction n with
  | zero => intro p _; rfl
  | succ n ih =>
      intro p hp
      have hl : load s p = .ok (s.word p) := load_eq_ok.mpr ⟨by omega, rfl⟩
      rw [scanUp, hl, ok_bind, List.range'_succ]
      by_cases hw : s.word p = 0#64
      · rw [if_neg (by simp [hw]), ih (p + 1) (by omega), List.find?_cons_of_neg (by simp [hw]),
          show p + 1 + n = p + (n + 1) by omega]
      · rw [if_pos hw, List.find?_cons_of_pos (by simp [hw])]

/-- **What the search returns**: the first non-zero word, with the cursor
moved onto it; or nothing, with the cursor at least one past the start. -/
theorem getNoneZero_eq {s : State} (hi : Inv s) :
    getNoneZero s = match firstNonZero s with
      | some p => .ok (some p, { s with pnow := p })
      | none => .ok (none, { s with pnow := 1 + (s.pnow - 1) }) := by
  have hlen := hi.len
  have hcur := hi.cursor
  have hnow : load s s.pnow = .ok (s.word s.pnow) := load_eq_ok.mpr ⟨by omega, rfl⟩
  have h0 : load s 0 = .ok (s.word 0) := load_eq_ok.mpr ⟨by omega, rfl⟩
  have hup := scanUp_eq s (s.pmax - (s.pnow + 1)) (s.pnow + 1) (by omega)
  have hdown := scanUp_eq s (s.pnow - 1) 1 (by omega)
  rw [getNoneZero, hnow, ok_bind, firstNonZero, scanOrder]
  by_cases hw : s.word s.pnow = 0#64
  · rw [if_neg (by simp [hw]), List.find?_cons_of_neg (by simp [hw]), List.find?_append]
    rw [hup]
    cases hu : (List.range' (s.pnow + 1) (s.pmax - (s.pnow + 1))).find?
        (fun i => s.word i ≠ 0#64) with
    | some q => simp
    | none =>
        simp only [ok_bind, Bool.false_eq_true, if_false, h0, Option.none_or]
        by_cases hz : s.word 0 = 0#64
        · rw [if_neg (by simp [hz]), List.find?_cons_of_neg (by simp [hz]), hdown]
          cases (List.range' 1 (s.pnow - 1)).find? (fun i => s.word i ≠ 0#64) <;> simp
        · rw [if_pos hz, List.find?_cons_of_pos (by simp [hz])]
  · rw [if_pos hw, List.find?_cons_of_pos (by simp [hw])]

theorem scanOrder_le {s : State} (hi : Inv s) {p : Nat} (hp : p ∈ scanOrder s) :
    p ≤ s.pmax := by
  have hcur := hi.cursor
  simp only [scanOrder, List.mem_cons, List.mem_append, List.mem_range'_1] at hp
  omega

theorem firstNonZero_le {s : State} (hi : Inv s) {p : Nat} (h : firstNonZero s = some p) :
    p ≤ s.pmax ∧ s.word p ≠ 0#64 :=
  ⟨scanOrder_le hi (List.mem_of_find?_eq_some h), by simpa using List.find?_some h⟩

/-- With a free page counted, a search that finds nothing leaves the cursor
inside the array: the one-word array cannot be empty of set bits. -/
theorem cursor_after_miss {s : State} (hi : Inv s) (hp : 0 < s.pages)
    (h : firstNonZero s = none) : 1 + (s.pnow - 1) ≤ s.pmax := by
  have hcur := hi.cursor
  by_contra hgt
  have hmax : s.pmax = 0 := by omega
  rw [hi.count, State.popcount_pos] at hp
  obtain ⟨i, hb⟩ := hp
  have hlt : i < 64 := by
    by_contra hge
    rw [State.bit_of_ge (by rw [hi.len, hmax]; omega)] at hb
    cases hb
  have hnow : s.pnow = 0 := by omega
  have hz := List.find?_eq_none.mp h 0 (by simp [scanOrder, hnow])
  have hw : s.word 0 ≠ 0#64 := State.word_ne_zero.mpr ⟨i, hlt, by simpa using hb⟩
  exact hz (by simpa using hw)

/-! ## `ffs` on the low half -/

theorem ffs_eq_zero {x : BitVec 32} : ffs x = 0 ↔ x = 0#32 := by
  unfold ffs
  split
  · rename_i i hfind
    have hb := List.find?_some hfind
    simp only [Nat.add_one_ne_zero, false_iff]
    rintro rfl
    simp at hb
  · rename_i hnone
    simp only [true_iff]
    refine BitVec.eq_of_getLsbD_eq fun i hi => ?_
    have := List.find?_eq_none.mp hnone i (List.mem_range.mpr hi)
    simpa using this

theorem ffs_spec {x : BitVec 32} (h : ffs x ≠ 0) :
    ffs x - 1 < 32 ∧ x.getLsbD (ffs x - 1) = true := by
  unfold ffs at h ⊢
  split at h
  · rename_i i hfind
    simp only [Nat.add_sub_cancel]
    exact ⟨List.mem_range.mp (List.mem_of_find?_eq_some hfind), by
      simpa using List.find?_some hfind⟩
  · exact absurd rfl h

theorem ffs_lowest {x : BitVec 32} (h : ffs x ≠ 0) :
    ∃ b, ffs x = b + 1 ∧ x.getLsbD b = true ∧ ∀ j < b, x.getLsbD j = false := by
  unfold ffs at h ⊢
  split at h
  · rename_i b hfind
    obtain ⟨hb, -, hlow⟩ := List.find?_range_eq_some.mp hfind
    exact ⟨b, rfl, hb, fun j hj => by simpa using hlow j hj⟩
  · exact absurd rfl h

/-- The low half of word `p`, the part `ffs` is given. -/
def State.low (s : State) (p : Nat) : BitVec 32 := (s.word p).setWidth 32

/-! ## What a call does -/

/-- On a word whose low half is empty the loop goes round for ever: the
cursor is on the word, so every round finds it again. -/
theorem allocPhyPage_spins {s : State} (hi : Inv s) (hp : 0 < s.pages)
    (hw : s.word s.pnow ≠ 0#64) (hl : s.low s.pnow = 0#32) :
    ∀ fuel, allocPhyPage fuel s = .error .spin := by
  have hfirst : firstNonZero s = some s.pnow := by
    rw [firstNonZero, scanOrder, List.find?_cons_of_pos (by simp [hw])]
  have hround : getNoneZero s = .ok (some s.pnow, s) := by
    rw [getNoneZero_eq hi, hfirst]
  intro fuel
  induction fuel with
  | zero => rfl
  | succ fuel ih =>
      have hf : ffs ((s.word s.pnow).setWidth 32) = 0 := ffs_eq_zero.mpr hl
      rw [allocPhyPage, if_neg (by omega), hround, ok_bind]
      simp only [hf, if_true]
      exact ih

/-- The page a call takes from the word it stops at. -/
def State.takePage (s : State) (p : Nat) : State :=
  { ({ s with pnow := p }).put p (ffs (s.low p) - 1) false with pages := s.pages - 1 }

/-- On a word with a bit in its low half one round is enough. -/
theorem allocPhyPage_takes {s : State} (hi : Inv s) (hp : 0 < s.pages) {p : Nat}
    (hfirst : firstNonZero s = some p) (hl : s.low p ≠ 0#32) (fuel : Nat) :
    allocPhyPage (fuel + 1) s =
      .ok (pageSize * (ffs (s.low p) - 1 + p * 64), s.takePage p) := by
  obtain ⟨hple, -⟩ := firstNonZero_le hi hfirst
  have hf : ffs ((s.word p).setWidth 32) ≠ 0 := fun h => hl (ffs_eq_zero.mp h)
  obtain ⟨hlt, hb⟩ := ffs_spec hf
  rw [BitVec.getLsbD_setWidth] at hb
  have hb' : (s.word p).getLsbD (ffs ((s.word p).setWidth 32) - 1) = true := by
    simpa [hlt] using hb
  have hload : load { s with pnow := p } p = .ok (s.word p) :=
    load_eq_ok.mpr ⟨by have := hi.len; show p < s.pgbits.length; omega, rfl⟩
  rw [allocPhyPage, if_neg (by omega), getNoneZero_eq hi, hfirst]
  simp only [ok_bind]
  rw [show ({ s with pnow := p } : State).word p = s.word p from rfl, if_neg hf,
    testAndClearBit, hload]
  simp only [ok_bind, hb', if_true]
  rfl

theorem allocPhyPage_misses {s : State} (hi : Inv s) (hp : 0 < s.pages)
    (hfirst : firstNonZero s = none) (fuel : Nat) :
    allocPhyPage (fuel + 1) s = .ok (0, { s with pnow := 1 + (s.pnow - 1) }) := by
  rw [allocPhyPage, if_neg (by omega), getNoneZero_eq hi, hfirst]
  rfl

theorem takePage_bit {s : State} (hi : Inv s) {p : Nat}
    (hfirst : firstNonZero s = some p) (hl : s.low p ≠ 0#32) :
    s.bit (ffs (s.low p) - 1 + p * 64) = true ∧
      ∀ j, (s.takePage p).bit j =
        if j = ffs (s.low p) - 1 + p * 64 then false else s.bit j := by
  obtain ⟨hple, -⟩ := firstNonZero_le hi hfirst
  obtain ⟨hlt, hb⟩ := ffs_spec (fun h => hl (ffs_eq_zero.mp h))
  have hlen := hi.len
  constructor
  · rw [State.low, BitVec.getLsbD_setWidth] at hb
    rw [State.bit, show (ffs (s.low p) - 1 + p * 64) / 64 = p by omega,
      show (ffs (s.low p) - 1 + p * 64) % 64 = ffs (s.low p) - 1 by omega]
    exact (Bool.and_eq_true_iff.mp hb).2
  · intro j
    have h := State.put_bit (s := { s with pnow := p }) (b := false)
      (show p < s.pgbits.length by omega) (show ffs (s.low p) - 1 < 64 by omega) j
    rw [Nat.add_comm (p * 64)] at h
    exact h

/-- **Everything a returning call can have done.** It found no page counted
or none in reach, and at most the cursor moved; or it cleared one set bit
and returned that page. -/
theorem allocPhyPage_cases {s t : State} {fuel a : Nat} (hi : Inv s)
    (h : allocPhyPage fuel s = .ok (a, t)) :
    (a = 0 ∧ ∃ c ≤ s.pmax, t = { s with pnow := c }) ∨
    (∃ p, firstNonZero s = some p ∧ s.low p ≠ 0#32 ∧ 0 < s.pages ∧
      a = pageSize * (ffs (s.low p) - 1 + p * 64) ∧ t = s.takePage p) := by
  cases fuel with
  | zero => simp [allocPhyPage] at h
  | succ fuel =>
    by_cases hp : s.pages = 0
    · rw [allocPhyPage, if_pos hp] at h
      cases h
      exact .inl ⟨rfl, s.pnow, hi.cursor, rfl⟩
    · have hpos : 0 < s.pages := Nat.pos_of_ne_zero hp
      cases hfirst : firstNonZero s with
      | none =>
        rw [allocPhyPage_misses hi hpos hfirst] at h
        cases h
        exact .inl ⟨rfl, _, cursor_after_miss hi hpos hfirst, rfl⟩
      | some p =>
        by_cases hl : s.low p = 0#32
        · -- this round leaves the cursor on `p`, from where the loop spins
          obtain ⟨hple, hw⟩ := firstNonZero_le hi hfirst
          have hspin := allocPhyPage_spins (hi.move hple) hpos hw hl fuel
          have hf : ffs ((s.word p).setWidth 32) = 0 := ffs_eq_zero.mpr hl
          rw [allocPhyPage, if_neg hp, getNoneZero_eq hi, hfirst] at h
          simp only [ok_bind] at h
          rw [show ({ s with pnow := p } : State).word p = s.word p from rfl, if_pos hf,
            hspin] at h
          cases h
        · rw [allocPhyPage_takes hi hpos hfirst hl] at h
          cases h
          exact .inr ⟨p, rfl, hl, hpos, rfl, rfl⟩

theorem Inv.takePage {s : State} (hi : Inv s) {p : Nat}
    (hfirst : firstNonZero s = some p) (hl : s.low p ≠ 0#32) : Inv (s.takePage p) := by
  obtain ⟨hple, -⟩ := firstNonZero_le hi hfirst
  obtain ⟨hbit, hclr⟩ := takePage_bit hi hfirst hl
  obtain ⟨hlt, -⟩ := ffs_spec (fun h => hl (ffs_eq_zero.mp h))
  refine ⟨hi.pmax_eq, (State.put_length _ _ _ _).trans hi.len, hple, ?_, ?_⟩
  · rw [hclr]
    split
    · rfl
    · exact hi.page0
  · have hpc := popcount_clear (s := { s with pnow := p }) hbit
    rw [show (ffs (s.low p) - 1 + p * 64) / 64 = p by omega,
      show (ffs (s.low p) - 1 + p * 64) % 64 = ffs (s.low p) - 1 by omega] at hpc
    show s.pages - 1 = _
    rw [hi.count]
    exact hpc.symm

theorem Inv.alloc {s t : State} {fuel a : Nat} (hi : Inv s)
    (h : allocPhyPage fuel s = .ok (a, t)) : Inv t := by
  rcases allocPhyPage_cases hi h with ⟨-, c, hc, rfl⟩ | ⟨p, hfirst, hl, -, -, rfl⟩
  · exact hi.move hc
  · exact hi.takePage hfirst hl

/-- What a caller sees of a returning call: no page and no bit changed, or
one free page, not page `0`, taken. -/
theorem Inv.alloc_page {s t : State} {fuel a : Nat} (hi : Inv s)
    (h : allocPhyPage fuel s = .ok (a, t)) :
    (a = 0 ∧ ∀ i, t.bit i = s.bit i) ∨
    ∃ i, i ≠ 0 ∧ a = pageSize * i ∧ s.bit i = true ∧
      ∀ j, t.bit j = if j = i then false else s.bit j := by
  rcases allocPhyPage_cases hi h with ⟨ha, c, _, rfl⟩ | ⟨p, hfirst, hl, _, ha, rfl⟩
  · exact .inl ⟨ha, fun _ => rfl⟩
  · obtain ⟨hbit, hclr⟩ := takePage_bit hi hfirst hl
    refine .inr ⟨_, ?_, ha, hbit, hclr⟩
    intro h0
    rw [h0, hi.page0] at hbit
    cases hbit

/-! ## What a call will do, by the state before it -/

def State.Dry (s : State) : Prop := s.pages = 0 ∨ firstNonZero s = none

def State.Ready (s : State) : Prop :=
  s.pages ≠ 0 ∧ ∃ p, firstNonZero s = some p ∧ s.low p ≠ 0#32

instance (s : State) : Decidable s.Dry := inferInstanceAs (Decidable (_ ∨ _))

theorem allocPhyPage_of_dry {s : State} (hi : Inv s) (h : s.Dry) :
    ∃ t, (∀ fuel, allocPhyPage (fuel + 1) s = .ok (0, t)) ∧ ∀ i, t.bit i = s.bit i := by
  by_cases hp : s.pages = 0
  · exact ⟨s, fun fuel => by rw [allocPhyPage, if_pos hp], fun _ => rfl⟩
  · have hnone := h.resolve_left hp
    exact ⟨_, allocPhyPage_misses hi (Nat.pos_of_ne_zero hp) hnone, fun _ => rfl⟩

theorem allocPhyPage_of_ready {s : State} (hi : Inv s) (h : s.Ready) :
    ∃ a t, a ≠ 0 ∧ ∀ fuel, allocPhyPage (fuel + 1) s = .ok (a, t) := by
  obtain ⟨hp, p, hfirst, hl⟩ := h
  refine ⟨_, _, ?_, allocPhyPage_takes hi (Nat.pos_of_ne_zero hp) hfirst hl⟩
  obtain ⟨hbit, -⟩ := takePage_bit hi hfirst hl
  intro h0
  rw [(Nat.mul_eq_zero.mp h0).resolve_left (by decide), hi.page0] at hbit
  cases hbit

/-- The third outcome: the first non-zero word shows no bit to `ffs`. -/
theorem allocPhyPage_of_neither {s : State} (hi : Inv s) (hd : ¬ s.Dry) (hr : ¬ s.Ready)
    (fuel : Nat) : allocPhyPage fuel s = .error .spin := by
  obtain ⟨hp, hfirst⟩ := not_or.mp hd
  obtain ⟨p, hfirst⟩ := Option.ne_none_iff_exists'.mp hfirst
  have hl : s.low p = 0#32 := by
    by_contra hl
    exact hr ⟨hp, p, hfirst, hl⟩
  obtain ⟨hple, hw⟩ := firstNonZero_le hi hfirst
  cases fuel with
  | zero => rfl
  | succ fuel =>
    rw [allocPhyPage, if_neg hp, getNoneZero_eq hi, hfirst, ok_bind]
    have hffs : ffs ((s.word p).setWidth 32) = 0 := ffs_eq_zero.mpr hl
    show (if ffs ((s.word p).setWidth 32) = 0 then _ else _) = _
    rw [if_pos hffs]
    exact allocPhyPage_spins (hi.move hple) (Nat.pos_of_ne_zero hp) hw hl fuel

end Yaos.Phymem
