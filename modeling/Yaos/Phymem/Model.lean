import Mathlib.Data.Finset.Card
import Yaos.Lib.Outcome

/-!
# The physical page allocator (`arch/x86_64/phymem.c`)

One bit for each 2M page, kept in an array of 64-bit words; a set bit is
a free page. `pgbits` is the array `init_phy_mem` obtains, cut to its
whole words: every access of the code is to a whole word, so a word
index outside the list is an access outside the allocation (`fault`).
Pointers into the array (`pnow`, `pmax`) are word indices.

The search loop of `alloc_phy_page` has no bound of its own. It takes
fuel here, and `Stop.spin` is "not finished yet": the call terminates
exactly when some amount of fuel gives another answer.
-/

namespace Yaos.Phymem

open Yaos.Lib

/-- `PAGE_SIZE`: the 2M huge page. -/
def pageSize : Nat := 0x200000

/-- The file's static variables, with `__max_phy_addr`. -/
structure State where
  maxPhyAddr : Nat
  pgbits : List (BitVec 64)
  pmax : Nat
  pnow : Nat
  nowbit : Nat
  maxbits : Nat
  pages : Nat
  deriving DecidableEq

/-- Word `i` of the bitmap; `0` stands for a word that is not there. -/
def State.word (s : State) (i : Nat) : BitVec 64 := s.pgbits.getD i 0#64

/-- Bit `i` of the bitmap: page `i` is free. -/
def State.bit (s : State) (i : Nat) : Bool := (s.word (i / 64)).getLsbD (i % 64)

/-- `ffs(int)`: one more than the position of the lowest set bit of a
32-bit value, `0` if there is none (`bsfl` leaves `-1`). -/
def ffs (x : BitVec 32) : Nat :=
  match (List.range 32).find? (fun i => x.getLsbD i) with
  | some i => i + 1
  | none => 0

/-- A read of `*p` for the word pointer `p`. -/
def load (s : State) (p : Nat) : Outcome (BitVec 64) :=
  if p < s.pgbits.length then .ok (s.word p) else .error .fault

/-- `while (++pnow < stop) if (*pnow) return pnow;` with `pnow` already
incremented and `n` words left before `stop`. Returns where `pnow` ends
and whether the loop returned from inside. -/
def scanUp (s : State) : Nat → Nat → Outcome (Nat × Bool)
  | 0, p => .ok (p, false)
  | n + 1, p => do
      let w ← load s p
      if w ≠ 0#64 then .ok (p, true) else scanUp s n (p + 1)

/-- `get_none_zero`: the word at the cursor, else the next non-zero word
below `pmax`, else word `0`, else the words up to the old cursor. -/
def getNoneZero (s : State) : Outcome (Option Nat × State) := do
  let w ← load s s.pnow
  if w ≠ 0#64 then .ok (some s.pnow, s)
  else
    let (p, found) ← scanUp s (s.pmax - (s.pnow + 1)) (s.pnow + 1)
    if found then .ok (some p, { s with pnow := p })
    else
      let w ← load s 0
      if w ≠ 0#64 then .ok (some 0, { s with pnow := 0 })
      else
        let (p, found) ← scanUp s (s.pnow - 1) 1
        if found then .ok (some p, { s with pnow := p })
        else .ok (none, { s with pnow := p })

/-- The word array with bit `i` of word `p` written. -/
def State.put (s : State) (p i : Nat) (b : Bool) : State :=
  let w := s.word p
  let w' := if b then w ||| BitVec.twoPow 64 i else w &&& ~~~(BitVec.twoPow 64 i)
  { s with pgbits := s.pgbits.set p w' }

/-- `test_and_clear_bit(i, p)` for a bit inside the word at `p`. -/
def testAndClearBit (s : State) (p i : Nat) : Outcome (Bool × State) := do
  let w ← load s p
  .ok (w.getLsbD i, s.put p i false)

/-- `test_and_set_bit(pos, pgbits)`: the bit string starts at `pgbits`. -/
def testAndSetBit (s : State) (pos : Nat) : Outcome (Bool × State) := do
  let w ← load s (pos / 64)
  .ok (w.getLsbD (pos % 64), s.put (pos / 64) (pos % 64) true)

/-- `alloc_phy_page`: the address of a free page, now taken, or `0`. -/
def allocPhyPage : Nat → State → Outcome (Nat × State)
  | 0, _ => .error .spin
  | fuel + 1, s =>
      if s.pages = 0 then .ok (0, s)
      else do
        let (p, s) ← getNoneZero s
        match p with
        | none => .ok (0, s)
        | some p =>
            -- the `ulong` word is passed as an `int`: only its low half is seen
            let pos := ffs ((s.word p).setWidth 32)
            if pos = 0 then allocPhyPage fuel s
            else do
              let (was, s) ← testAndClearBit s p (pos - 1)
              if was then
                .ok (pageSize * (pos - 1 + p * 64), { s with pages := s.pages - 1 })
              else allocPhyPage fuel s

/-- Set the bit of one page and count it if it was clear. -/
def freeBit (s : State) (pos : Nat) : Outcome State := do
  let (was, s) ← testAndSetBit s pos
  if was then .ok s else .ok { s with pages := s.pages + 1 }

/-- `free_phy_one_page`. Page `0` is never freed. -/
def freePhyOnePage (s : State) (addr : Nat) : Outcome State :=
  if addr = 0 then .ok s
  else do
    check (addr % pageSize = 0 && addr < s.maxPhyAddr)
    freeBit s (addr / pageSize)

/-- The loop of `free_phy_pages`, `n` pages still to free from `pos` on. -/
def freeBits (s : State) : Nat → Nat → Outcome State
  | 0, _ => .ok s
  | n + 1, pos => do
      let s ← freeBit s pos
      freeBits s n (pos + 1)

/-- `free_phy_pages`. The second assertion makes `size` a whole number of
pages, so the loop on `size` runs `size / PAGE_SIZE` times. -/
def freePhyPages (s : State) (addr size : Nat) : Outcome State :=
  if addr = 0 then .ok s
  else do
    check (addr % pageSize = 0 && addr < s.maxPhyAddr)
    check (size % pageSize = 0)
    freeBits s (size / pageSize) (addr / pageSize)

/-- `init_phy_mem`: `bits / 8 + 8` zeroed bytes, of which the whole words
are kept. -/
def initPhyMem (maxPhyAddr : Nat) : State :=
  let bits := maxPhyAddr / pageSize
  let size := bits / 8 + 8
  { maxPhyAddr, maxbits := bits, pgbits := List.replicate (size / 8) 0#64
    pnow := 0, pmax := bits / 64, nowbit := 0, pages := 0 }

/-! ## The words and bits after a write -/

@[simp] theorem State.put_pages (s : State) (p i : Nat) (b : Bool) :
    (s.put p i b).pages = s.pages := rfl

@[simp] theorem State.put_length (s : State) (p i : Nat) (b : Bool) :
    (s.put p i b).pgbits.length = s.pgbits.length := by
  simp [State.put]

theorem load_eq_ok {s : State} {p : Nat} {w : BitVec 64} :
    load s p = .ok w ↔ p < s.pgbits.length ∧ s.word p = w := by
  unfold load
  split <;> simp_all

theorem State.put_word {s : State} {p i : Nat} {b : Bool} (hp : p < s.pgbits.length)
    (q : Nat) : (s.put p i b).word q =
      if q = p then (if b then s.word p ||| BitVec.twoPow 64 i
        else s.word p &&& ~~~(BitVec.twoPow 64 i)) else s.word q := by
  simp only [State.word, State.put, List.getD_eq_getElem?_getD, List.getElem?_set]
  by_cases hq : q = p
  · subst hq
    simp [hp]
  · simp [hq, Ne.symm hq]

theorem State.put_bit {s : State} {p i : Nat} {b : Bool} (hp : p < s.pgbits.length)
    (hi : i < 64) (j : Nat) :
    (s.put p i b).bit j = if j = p * 64 + i then b else s.bit j := by
  simp only [State.bit, State.put_word hp]
  by_cases hw : j / 64 = p
  · rw [if_pos hw, hw]
    have hlt : j % 64 < 64 := Nat.mod_lt _ (by decide)
    by_cases he : j % 64 = i
    · rw [if_pos (by omega : j = p * 64 + i), he]
      cases b <;> simp [hi]
    · rw [if_neg (by omega : j ≠ p * 64 + i)]
      cases b <;> simp [hlt, he]
  · rw [if_neg hw, if_neg (by omega : j ≠ p * 64 + i)]

theorem State.bit_of_ge {s : State} {i : Nat} (h : s.pgbits.length * 64 ≤ i) :
    s.bit i = false := by
  have hw : s.word (i / 64) = 0#64 := by
    simp only [State.word, List.getD_eq_getElem?_getD]
    rw [List.getElem?_eq_none (by omega)]
    rfl
  simp [State.bit, hw]

theorem State.word_ne_zero {s : State} {p : Nat} :
    s.word p ≠ 0#64 ↔ ∃ i < 64, s.bit (p * 64 + i) = true := by
  constructor
  · intro h
    by_contra hall
    push Not at hall
    refine h (BitVec.eq_of_getLsbD_eq fun i hi => ?_)
    have hb := hall i hi
    rw [State.bit, show (p * 64 + i) / 64 = p by omega,
      show (p * 64 + i) % 64 = i by omega] at hb
    simpa using hb
  · rintro ⟨i, hi, hb⟩ h0
    rw [State.bit, show (p * 64 + i) / 64 = p by omega, h0] at hb
    simp at hb

/-- The number of free pages the bitmap shows. -/
def State.popcount (s : State) : Nat :=
  ((Finset.range (s.pgbits.length * 64)).filter (fun i => s.bit i = true)).card

theorem State.popcount_congr {s t : State} (hl : s.pgbits.length = t.pgbits.length)
    (h : ∀ i, s.bit i = t.bit i) : s.popcount = t.popcount := by
  simp [State.popcount, hl, h]

theorem State.popcount_pos {s : State} :
    0 < s.popcount ↔ ∃ i, s.bit i = true := by
  rw [State.popcount, Finset.card_pos]
  constructor
  · rintro ⟨i, hi⟩
    exact ⟨i, (Finset.mem_filter.mp hi).2⟩
  · rintro ⟨i, hi⟩
    refine ⟨i, Finset.mem_filter.mpr ⟨Finset.mem_range.mpr ?_, hi⟩⟩
    by_contra hge
    rw [State.bit_of_ge (by omega)] at hi
    cases hi

end Yaos.Phymem
