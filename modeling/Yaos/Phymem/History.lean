import Yaos.Phymem.Search

/-!
# Histories of the physical page allocator

The calls of `phymem.c` as labels of a transition relation, the step
lemmas for each, and what holds along every history: the counter and the
bitmap agree, a page handed out was free and is freed at most by a later
free, and no call leaves the array.
-/

namespace Yaos.Phymem

open Yaos.Lib

/-! ## The freeing calls -/

theorem State.pgbits_ext {s t : State} (hl : s.pgbits.length = t.pgbits.length)
    (hb : ∀ i, s.bit i = t.bit i) : s.pgbits = t.pgbits := by
  refine List.ext_getElem hl fun p hp hp' => BitVec.eq_of_getLsbD_eq fun i hi => ?_
  have h := hb (p * 64 + i)
  rw [State.bit, State.bit, show (p * 64 + i) / 64 = p by omega,
    show (p * 64 + i) % 64 = i by omega] at h
  simpa [State.word, List.getD_eq_getElem?_getD, hp, hp'] using h

/-- The result of setting the bits of the pages in `[lo, hi)`. -/
structure Freed (s t : State) (lo hi : Nat) : Prop where
  inv : Inv t
  bits : ∀ j, t.bit j = (decide (lo ≤ j ∧ j < hi) || s.bit j)
  maxPhyAddr : t.maxPhyAddr = s.maxPhyAddr
  pmax : t.pmax = s.pmax
  pnow : t.pnow = s.pnow
  nowbit : t.nowbit = s.nowbit
  maxbits : t.maxbits = s.maxbits

theorem Freed.refl {s : State} (hi : Inv s) (lo : Nat) : Freed s s lo lo :=
  ⟨hi, fun j => by simp [show ¬ (lo ≤ j ∧ j < lo) by omega], rfl, rfl, rfl, rfl, rfl⟩

theorem Freed.trans {s t u : State} {lo mid hi : Nat} (h : Freed s t lo mid)
    (h' : Freed t u mid hi) (hlm : lo ≤ mid) (hmh : mid ≤ hi) : Freed s u lo hi := by
  refine ⟨h'.inv, fun j => ?_, h'.maxPhyAddr.trans h.maxPhyAddr, h'.pmax.trans h.pmax,
    h'.pnow.trans h.pnow, h'.nowbit.trans h.nowbit, h'.maxbits.trans h.maxbits⟩
  rw [h'.bits, h.bits, ← Bool.or_assoc, ← Bool.decide_or]
  congr 2
  exact propext (by omega)

theorem Freed.eq_self {s t : State} {lo hi : Nat} (h : Freed s t lo hi) (hs : Inv s)
    (hfree : ∀ j, lo ≤ j → j < hi → s.bit j = true) : t = s := by
  have hb : ∀ j, t.bit j = s.bit j := by
    intro j
    rw [h.bits]
    by_cases hj : lo ≤ j ∧ j < hi
    · simp [hj, hfree j hj.1 hj.2]
    · simp [hj]
  have hl : t.pgbits.length = s.pgbits.length := by
    rw [h.inv.len, hs.len, h.pmax]
  have hp : t.pages = s.pages := by
    rw [h.inv.count, hs.count]
    exact State.popcount_congr hl hb
  have hw := State.pgbits_ext hl hb
  obtain ⟨-, -, h₁, h₂, h₃, h₄, h₅⟩ := h
  cases t
  cases s
  simp_all

theorem freeBit_returns {s : State} (hi : Inv s) {pos : Nat} (h0 : pos ≠ 0)
    (hin : pos / 64 ≤ s.pmax) : ∃ t, freeBit s pos = .ok t ∧ Freed s t pos (pos + 1) := by
  have hlt : pos / 64 < s.pgbits.length := by have := hi.len; omega
  have hload : load s (pos / 64) = .ok (s.word (pos / 64)) := load_eq_ok.mpr ⟨hlt, rfl⟩
  have hput := State.put_bit (b := true) hlt (Nat.mod_lt pos (by decide : 0 < 64))
  have heq : pos / 64 * 64 + pos % 64 = pos := by omega
  have hrange : ∀ j, (pos ≤ j ∧ j < pos + 1) ↔ j = pos := fun j => by omega
  simp only [heq] at hput
  have hbits : ∀ j, (s.put (pos / 64) (pos % 64) true).bit j
      = (decide (pos ≤ j ∧ j < pos + 1) || s.bit j) := by
    intro j
    rw [hput]
    by_cases hj : j = pos
    · rw [if_pos hj, decide_eq_true ((hrange j).mpr hj), Bool.true_or]
    · rw [if_neg hj, decide_eq_false (mt (hrange j).mp hj), Bool.false_or]
  have hzero : (s.put (pos / 64) (pos % 64) true).bit 0 = false := by
    rw [hput, if_neg (Ne.symm h0), hi.page0]
  have hlen := (State.put_length s (pos / 64) (pos % 64) true).trans hi.len
  by_cases hb : s.bit pos = true
  · refine ⟨s.put (pos / 64) (pos % 64) true, ?_, ⟨hi.pmax_eq, hlen, hi.cursor, hzero, ?_⟩,
      hbits, rfl, rfl, rfl, rfl, rfl⟩
    · rw [freeBit, testAndSetBit, hload]
      simp only [ok_bind]
      exact if_pos hb
    · rw [State.put_pages, hi.count]
      refine State.popcount_congr (by simp) fun j => ?_
      rw [hput]
      by_cases hj : j = pos <;> simp [hj, hb]
  · have hb' : s.bit pos = false := by simpa using hb
    refine ⟨{ s.put (pos / 64) (pos % 64) true with pages := s.pages + 1 }, ?_,
      ⟨hi.pmax_eq, hlen, hi.cursor, hzero, ?_⟩, hbits, rfl, rfl, rfl, rfl, rfl⟩
    · rw [freeBit, testAndSetBit, hload]
      simp only [ok_bind]
      exact if_neg hb
    · show s.pages + 1 = _
      rw [hi.count, ← popcount_set (by omega) hb']
      rfl

theorem freeBit_cases {s t : State} (hi : Inv s) {pos : Nat} (h0 : pos ≠ 0)
    (h : freeBit s pos = .ok t) : Freed s t pos (pos + 1) := by
  have hin : pos / 64 ≤ s.pmax := by
    rw [freeBit, testAndSetBit, bind_eq_ok] at h
    obtain ⟨_, h, -⟩ := h
    rw [bind_eq_ok] at h
    obtain ⟨w, hw, -⟩ := h
    have := (load_eq_ok.mp hw).1
    have := hi.len
    omega
  obtain ⟨u, hu, hf⟩ := freeBit_returns hi h0 hin
  rw [hu] at h
  cases h
  exact hf

theorem freeBits_returns {s : State} (hi : Inv s) : ∀ {n pos : Nat}, pos ≠ 0 →
    (0 < n → (pos + n - 1) / 64 ≤ s.pmax) →
    ∃ t, freeBits s n pos = .ok t ∧ Freed s t pos (pos + n) := by
  intro n
  induction n generalizing s with
  | zero => intro pos _ _; exact ⟨s, rfl, .refl hi pos⟩
  | succ n ih =>
      intro pos h0 hin
      have hin := hin (by omega)
      obtain ⟨t, ht, hf⟩ := freeBit_returns hi h0
        (le_trans (Nat.div_le_div_right (by omega)) hin)
      obtain ⟨u, hu, hg⟩ := @ih t hf.inv (pos + 1) (by omega) (fun _ => by
        rw [hf.pmax]
        exact le_trans (Nat.div_le_div_right (by omega)) hin)
      refine ⟨u, ?_, ?_⟩
      · rw [freeBits, ht, ok_bind, hu]
      · rw [show pos + (n + 1) = pos + 1 + n by omega]
        exact hf.trans hg (by omega) (by omega)

theorem freeBits_cases {s t : State} (hi : Inv s) : ∀ {n pos : Nat}, pos ≠ 0 →
    freeBits s n pos = .ok t → Freed s t pos (pos + n) := by
  intro n
  induction n generalizing s with
  | zero =>
      intro pos _ h
      cases h
      exact .refl hi pos
  | succ n ih =>
      intro pos h0 h
      rw [freeBits, bind_eq_ok] at h
      obtain ⟨u, hu, h⟩ := h
      have hf := freeBit_cases hi h0 hu
      rw [show pos + (n + 1) = pos + 1 + n by omega]
      exact hf.trans (ih hf.inv (by omega) h) (by omega) (by omega)

/-- The pages a free of `[addr, addr + size)` names: none for address `0`. -/
theorem freePhyPages_cases {s t : State} {addr size : Nat} (hi : Inv s)
    (h : freePhyPages s addr size = .ok t) :
    (addr = 0 ∧ t = s) ∨ (addr ≠ 0 ∧ addr % pageSize = 0 ∧ size % pageSize = 0 ∧
      Freed s t (addr / pageSize) (addr / pageSize + size / pageSize)) := by
  unfold freePhyPages at h
  split at h
  · rename_i h0
    cases h
    exact .inl ⟨h0, rfl⟩
  · rename_i h0
    simp only [bind_eq_ok, check_eq_ok, Bool.and_eq_true, decide_eq_true_eq, exists_const] at h
    obtain ⟨⟨ha, -⟩, hs, h⟩ := h
    have hp : addr / pageSize ≠ 0 := by
      unfold pageSize at *
      omega
    exact .inr ⟨h0, ha, hs, freeBits_cases hi hp h⟩

theorem freePhyOnePage_cases {s t : State} {addr : Nat} (hi : Inv s)
    (h : freePhyOnePage s addr = .ok t) :
    (addr = 0 ∧ t = s) ∨ (addr ≠ 0 ∧ addr % pageSize = 0 ∧ addr < s.maxPhyAddr ∧
      Freed s t (addr / pageSize) (addr / pageSize + 1)) := by
  unfold freePhyOnePage at h
  split at h
  · rename_i h0
    cases h
    exact .inl ⟨h0, rfl⟩
  · rename_i h0
    simp only [bind_eq_ok, check_eq_ok, Bool.and_eq_true, decide_eq_true_eq, exists_const] at h
    obtain ⟨⟨ha, hm⟩, h⟩ := h
    have hp : addr / pageSize ≠ 0 := by
      unfold pageSize at *
      omega
    exact .inr ⟨h0, ha, hm, freeBit_cases hi hp h⟩

/-! ## Calls as steps -/

/-- A call that has returned; `alloc a` returned the address `a`. -/
inductive Event where
  | init (maxPhyAddr : Nat)
  | freeOne (addr : Nat)
  | freePages (addr size : Nat)
  | alloc (addr : Nat)

def Step (s : State) (e : Event) (t : State) : Prop :=
  match e with
  | .init m => t = initPhyMem m
  | .freeOne addr => freePhyOnePage s addr = .ok t
  | .freePages addr size => freePhyPages s addr size = .ok t
  | .alloc addr => ∃ fuel, allocPhyPage fuel s = .ok (addr, t)

theorem Inv.step {s t : State} {e : Event} (hi : Inv s) (h : Step s e t) : Inv t := by
  cases e with
  | init m =>
      cases h
      exact inv_init m
  | freeOne addr =>
      rcases freePhyOnePage_cases hi h with ⟨-, rfl⟩ | ⟨-, -, -, hf⟩
      · exact hi
      · exact hf.inv
  | freePages addr size =>
      rcases freePhyPages_cases hi h with ⟨-, rfl⟩ | ⟨-, -, -, hf⟩
      · exact hi
      · exact hf.inv
  | alloc addr =>
      obtain ⟨fuel, h⟩ := h
      exact hi.alloc h

theorem Inv.trace {m : Nat} {tr : List (Taken State Event)} {s : State}
    (h : Trace Step (initPhyMem m) tr s) : Inv s :=
  (h.always Inv (fun hi hs => hi.step hs) (inv_init m)).1

/-- **When an allocation succeeds.** After any history, with a page
counted free, `alloc_phy_page` ends and returns the non-zero address of a
page whose bit was set exactly when the first non-zero word in scan order
exists and shows a bit to the 32-bit `ffs`. -/
theorem allocPhyPage_succeeds_iff {m : Nat} {tr : List (Taken State Event)} {s : State}
    (h : Trace Step (initPhyMem m) tr s) (hp : 0 < s.pages) :
    (∃ fuel a t, allocPhyPage fuel s = .ok (a, t) ∧ a ≠ 0 ∧ a % pageSize = 0 ∧
        s.bit (a / pageSize) = true) ↔
      ∃ p, firstNonZero s = some p ∧ s.low p ≠ 0#32 := by
  have hi := Inv.trace h
  constructor
  · rintro ⟨fuel, a, t, hc, ha, -, -⟩
    rcases allocPhyPage_cases hi hc with ⟨h0, -⟩ | ⟨p, hf, hl, -⟩
    · exact absurd h0 ha
    · exact ⟨p, hf, hl⟩
  · rintro ⟨p, hf, hl⟩
    obtain ⟨hb, -⟩ := takePage_bit hi hf hl
    have hne : ffs (s.low p) - 1 + p * 64 ≠ 0 := by
      intro h0
      rw [h0, hi.page0] at hb
      cases hb
    refine ⟨1, _, _, allocPhyPage_takes hi hp hf hl 0, ?_, ?_, ?_⟩
    · exact Nat.mul_ne_zero (by decide) hne
    · exact Nat.mul_mod_right _ _
    · rwa [Nat.mul_div_cancel_left _ (by decide)]

/-- A 128M machine with page `i < 64` freed and nothing else. -/
def onePageFree (i : Nat) : State :=
  { initPhyMem (64 * pageSize) with pgbits := [BitVec.twoPow 64 i, 0#64], pages := 1 }

/-- Page `5` lies in the lower half of word `0`, and is found. -/
theorem allocPhyPage_succeeds_iff_page5 :
    ∃ fuel a t, allocPhyPage fuel (onePageFree 5) = .ok (a, t) ∧ a ≠ 0 ∧
      a % pageSize = 0 ∧ (onePageFree 5).bit (a / pageSize) = true := by
  have htr : Trace Step (initPhyMem (64 * pageSize))
      [⟨initPhyMem (64 * pageSize), .freeOne (5 * pageSize), onePageFree 5⟩]
      (onePageFree 5) :=
    .step (show freePhyOnePage (initPhyMem (64 * pageSize)) (5 * pageSize)
      = .ok (onePageFree 5) by decide) (.done _)
  exact (allocPhyPage_succeeds_iff htr (by decide)).mpr ⟨0, by decide, by decide⟩

/-- Page `32` is the only free page: its bit is in the upper half of word
`0`, and the allocation never ends. -/
theorem allocPhyPage_hangs_on_page32 :
    ¬ ∀ (m : Nat) (tr : List (Taken State Event)) (s : State),
      Trace Step (initPhyMem m) tr s → 0 < s.pages →
      ∃ fuel a t, allocPhyPage fuel s = .ok (a, t) ∧ a ≠ 0 ∧
        s.bit (a / pageSize) = true := by
  intro hall
  have htr : Trace Step (initPhyMem (64 * pageSize))
      [⟨initPhyMem (64 * pageSize), .freeOne (32 * pageSize), onePageFree 32⟩]
      (onePageFree 32) :=
    .step (show freePhyOnePage (initPhyMem (64 * pageSize)) (32 * pageSize)
      = .ok (onePageFree 32) by decide) (.done _)
  obtain ⟨fuel, a, t, h, -⟩ := hall _ _ _ htr (by decide)
  rw [allocPhyPage_spins (Inv.trace htr) (by decide) (by decide) (by decide) fuel] at h
  cases h

/-! ## The books are kept -/

/-- The range `[addr, addr + size)` is a non-empty run of whole pages, not
at address `0`, each of which begins below `__max_phy_addr`. -/
def Inside (s : State) (addr size : Nat) : Prop :=
  addr ≠ 0 ∧ addr % pageSize = 0 ∧ 0 < size ∧ size % pageSize = 0 ∧
    addr + size < s.maxPhyAddr + pageSize

/-- The histories of one initialised allocator whose range frees stay
inside the bitmap. -/
def Proper (s : State) : Event → Prop
  | .init _ => False
  | .freePages addr size => Inside s addr size
  | _ => True

/-- A call that makes page `i` free. -/
def Event.frees (i : Nat) : Event → Prop
  | .freeOne addr => addr ≠ 0 ∧ addr / pageSize = i
  | .freePages addr size =>
      addr ≠ 0 ∧ addr / pageSize ≤ i ∧ i < addr / pageSize + size / pageSize
  | _ => False

/-- A call that hands out page `i`. -/
def Event.handsOut (i : Nat) : Event → Prop
  | .alloc addr => addr ≠ 0 ∧ addr / pageSize = i
  | _ => False

/-- Page `i` was freed at some point of the history, and not handed out
since. -/
def FreedLast (tr : List (Taken State Event)) (i : Nat) : Prop :=
  ∃ l x r, tr = l ++ x :: r ∧ x.label.frees i ∧ ∀ y ∈ r, ¬ y.label.handsOut i

theorem freePhyPages_returns {s : State} {addr size : Nat} (hi : Inv s)
    (hin : Inside s addr size) :
    ∃ t, freePhyPages s addr size = .ok t ∧
      Freed s t (addr / pageSize) (addr / pageSize + size / pageSize) := by
  obtain ⟨h0, ha, hs, hsz, hm⟩ := hin
  have hpm := hi.pmax_eq
  have hp : addr / pageSize ≠ 0 := by unfold pageSize at *; omega
  have hlast : (addr / pageSize + size / pageSize - 1) / 64 ≤ s.pmax := by
    unfold pageSize at *
    omega
  have hlt : addr < s.maxPhyAddr := by unfold pageSize at *; omega
  obtain ⟨t, ht, hf⟩ := freeBits_returns hi hp (fun _ => hlast)
  refine ⟨t, ?_, hf⟩
  simp [freePhyPages, h0, check, ha, hlt, hsz, ht]

theorem freePhyOnePage_returns {s : State} {addr : Nat} (hi : Inv s) (h0 : addr ≠ 0)
    (ha : addr % pageSize = 0) (hm : addr < s.maxPhyAddr) :
    ∃ t, freePhyOnePage s addr = .ok t := by
  have hpm := hi.pmax_eq
  have hp : addr / pageSize ≠ 0 := by unfold pageSize at *; omega
  obtain ⟨t, ht, -⟩ := freeBit_returns hi hp (by unfold pageSize at *; omega)
  exact ⟨t, by simp [freePhyOnePage, h0, check, ha, hm, ht]⟩

theorem no_fault {s : State} (hi : Inv s) :
    (∀ fuel, allocPhyPage fuel s ≠ .error .fault) ∧
    (∀ addr, freePhyOnePage s addr ≠ .error .fault) ∧
    (∀ addr size, Inside s addr size → freePhyPages s addr size ≠ .error .fault) := by
  refine ⟨fun fuel => ?_, fun addr => ?_, fun addr size hin => ?_⟩
  · induction fuel generalizing s with
    | zero => simp [allocPhyPage]
    | succ fuel ih =>
        by_cases hp : s.pages = 0
        · simp [allocPhyPage, hp]
        · have hpos : 0 < s.pages := Nat.pos_of_ne_zero hp
          cases hfirst : firstNonZero s with
          | none => simp [allocPhyPage_misses hi hpos hfirst]
          | some p =>
              by_cases hl : s.low p = 0#32
              · obtain ⟨hple, -⟩ := firstNonZero_le hi hfirst
                have hf : ffs ((s.word p).setWidth 32) = 0 := ffs_eq_zero.mpr hl
                rw [allocPhyPage, if_neg hp, getNoneZero_eq hi, hfirst]
                simp only [ok_bind]
                rw [show ({ s with pnow := p } : State).word p = s.word p from rfl, if_pos hf]
                exact ih (hi.move hple)
              · simp [allocPhyPage_takes hi hpos hfirst hl]
  · by_cases h0 : addr = 0
    · simp [freePhyOnePage, h0]
    · by_cases hc : addr % pageSize = 0 ∧ addr < s.maxPhyAddr
      · obtain ⟨t, ht⟩ := freePhyOnePage_returns hi h0 hc.1 hc.2
        simp [ht]
      · have hc' : (decide (addr % pageSize = 0) && decide (addr < s.maxPhyAddr)) = false := by
          rw [← Bool.decide_and]
          exact decide_eq_false hc
        simp [freePhyOnePage, h0, check, hc']
  · obtain ⟨t, ht, -⟩ := freePhyPages_returns hi hin
    simp [ht]

/-- What one call says about page `i`, read backwards: if it is free now,
this call freed it, or it was free and this call did not hand it out. -/
theorem step_bit_back {s t : State} {e : Event} {i : Nat} (hi : Inv s)
    (hg : Proper s e) (h : Step s e t) (hb : t.bit i = true) :
    e.frees i ∨ (s.bit i = true ∧ ¬ e.handsOut i) := by
  cases e with
  | init m => exact hg.elim
  | freeOne addr =>
      rcases freePhyOnePage_cases hi h with ⟨-, rfl⟩ | ⟨h0, -, -, hf⟩
      · exact .inr ⟨hb, id⟩
      · rw [hf.bits, Bool.or_eq_true, decide_eq_true_eq] at hb
        rcases hb with hb | hb
        · exact .inl ⟨h0, by omega⟩
        · exact .inr ⟨hb, id⟩
  | freePages addr size =>
      rcases freePhyPages_cases hi h with ⟨-, rfl⟩ | ⟨h0, -, -, hf⟩
      · exact .inr ⟨hb, id⟩
      · rw [hf.bits, Bool.or_eq_true, decide_eq_true_eq] at hb
        rcases hb with hb | hb
        · exact .inl ⟨h0, hb⟩
        · exact .inr ⟨hb, id⟩
  | alloc addr =>
      obtain ⟨fuel, h⟩ := h
      rcases allocPhyPage_cases hi h with ⟨rfl, c, -, rfl⟩ | ⟨p, hfirst, hl, -, rfl, rfl⟩
      · exact .inr ⟨hb, fun hh => hh.1 rfl⟩
      · obtain ⟨-, hclr⟩ := takePage_bit hi hfirst hl
        rw [hclr] at hb
        split at hb
        · cases hb
        · rename_i hne
          refine .inr ⟨hb, fun hh => hne ?_⟩
          rw [← hh.2, Nat.mul_div_cancel_left _ (by decide)]

/-- A page that is free at the end of a history was free at its start and
never handed out, or has been freed since it was. -/
theorem freed_last {s t : State} {tr : List (Taken State Event)} {i : Nat} (hi : Inv s)
    (h : Trace Step s tr t) (hg : ∀ x ∈ tr, Proper x.pre x.label) (hb : t.bit i = true) :
    FreedLast tr i ∨ (s.bit i = true ∧ ∀ x ∈ tr, ¬ x.label.handsOut i) := by
  induction h with
  | done s => exact .inr ⟨hb, by simp⟩
  | @step s u v e tr hs _ ih =>
      have hg₀ := hg _ List.mem_cons_self
      rcases ih (hi.step hs) (fun x hx => hg x (List.mem_cons_of_mem _ hx)) hb with
        ⟨l, x, r, rfl, hx, hr⟩ | ⟨hu, hr⟩
      · exact .inl ⟨_ :: l, x, r, rfl, hx, hr⟩
      · rcases step_bit_back hi hg₀ hs hu with hf | ⟨hsb, hno⟩
        · exact .inl ⟨[], _, tr, rfl, hf, hr⟩
        · refine .inr ⟨hsb, fun x hx => ?_⟩
          rcases List.mem_cons.mp hx with rfl | hx
          · exact hno
          · exact hr x hx

/-- Every free page begins below `__max_phy_addr`. -/
def Below (s : State) : Prop := ∀ i, s.bit i = true → pageSize * i < s.maxPhyAddr

theorem step_below {s t : State} {e : Event} (hi : Inv s) (hg : Proper s e)
    (h : Step s e t) (hlow : Below s) : Below t := by
  intro i hb
  cases e with
  | init m => exact hg.elim
  | freeOne addr =>
      rcases freePhyOnePage_cases hi h with ⟨-, rfl⟩ | ⟨-, ha, hm, hf⟩
      · exact hlow i hb
      · rw [hf.bits, Bool.or_eq_true, decide_eq_true_eq] at hb
        rw [hf.maxPhyAddr]
        rcases hb with hb | hb
        · unfold pageSize at *
          omega
        · exact hlow i hb
  | freePages addr size =>
      rcases freePhyPages_cases hi h with ⟨-, rfl⟩ | ⟨-, -, -, hf⟩
      · exact hlow i hb
      · rw [hf.bits, Bool.or_eq_true, decide_eq_true_eq] at hb
        rw [hf.maxPhyAddr]
        rcases hb with hb | hb
        · obtain ⟨-, ha, -, hsz, hm⟩ := hg
          unfold pageSize at *
          omega
        · exact hlow i hb
  | alloc addr =>
      obtain ⟨fuel, h⟩ := h
      rcases allocPhyPage_cases hi h with ⟨rfl, c, -, rfl⟩ | ⟨p, hfirst, hl, -, rfl, rfl⟩
      · exact hlow i hb
      · obtain ⟨-, hclr⟩ := takePage_bit hi hfirst hl
        rw [hclr] at hb
        split at hb
        · cases hb
        · exact hlow i hb

/-- What holds after the history `tr` has led to `s`. -/
structure Books (tr : List (Taken State Event)) (s : State) : Prop where
  /-- the counter is the number of set bits -/
  count : s.pages = s.popcount
  /-- a page handed out: its bit was set and is the only one to change; the
  address is aligned, non-zero and below `__max_phy_addr`; the page was
  freed and has not been handed out since -/
  alloc : ∀ fuel a t, allocPhyPage fuel s = .ok (a, t) → a ≠ 0 →
    a % pageSize = 0 ∧ a < s.maxPhyAddr ∧ s.bit (a / pageSize) = true ∧
    (∀ j, t.bit j = if j = a / pageSize then false else s.bit j) ∧
    FreedLast tr (a / pageSize)
  /-- a failed allocation changes neither bitmap nor counter -/
  failed : ∀ fuel t, allocPhyPage fuel s = .ok (0, t) →
    t.pgbits = s.pgbits ∧ t.pages = s.pages
  /-- a free of one page sets that page's bit, and a second one nothing -/
  freeOne : ∀ a t, a ≠ 0 → freePhyOnePage s a = .ok t →
    (∀ j, t.bit j = (decide (j = a / pageSize) || s.bit j)) ∧
    freePhyOnePage t a = .ok t
  /-- a free of a range sets the bits of the range, and a second one nothing -/
  freePages : ∀ a n, Inside s a n → ∃ t, freePhyPages s a n = .ok t ∧
    (∀ j, t.bit j =
      (decide (a / pageSize ≤ j ∧ j < a / pageSize + n / pageSize) || s.bit j)) ∧
    freePhyPages t a n = .ok t
  /-- no call touches a word outside the array -/
  noFault : (∀ fuel, allocPhyPage fuel s ≠ .error .fault) ∧
    (∀ a, freePhyOnePage s a ≠ .error .fault) ∧
    (∀ a n, Inside s a n → freePhyPages s a n ≠ .error .fault)

theorem freePhyOnePage_twice {s t : State} {a : Nat} (hi : Inv s) (h0 : a ≠ 0)
    (h : freePhyOnePage s a = .ok t) :
    (∀ j, t.bit j = (decide (j = a / pageSize) || s.bit j)) ∧
      freePhyOnePage t a = .ok t := by
  rcases freePhyOnePage_cases hi h with ⟨hz, -⟩ | ⟨-, ha, hm, hf⟩
  · exact absurd hz h0
  · have hb : ∀ j, (a / pageSize ≤ j ∧ j < a / pageSize + 1) ↔ j = a / pageSize :=
      fun j => by omega
    refine ⟨fun j => by simpa only [hb] using hf.bits j, ?_⟩
    rw [← hf.maxPhyAddr] at hm
    obtain ⟨u, hu⟩ := freePhyOnePage_returns hf.inv h0 ha hm
    rcases freePhyOnePage_cases hf.inv hu with ⟨hz, -⟩ | ⟨-, -, -, hg⟩
    · exact absurd hz h0
    · rw [hu, hg.eq_self hf.inv fun j h₁ h₂ => by rw [hf.bits]; simp [h₁, h₂]]

theorem freePhyPages_twice {s : State} {a n : Nat} (hi : Inv s) (hin : Inside s a n) :
    ∃ t, freePhyPages s a n = .ok t ∧
      (∀ j, t.bit j =
        (decide (a / pageSize ≤ j ∧ j < a / pageSize + n / pageSize) || s.bit j)) ∧
      freePhyPages t a n = .ok t := by
  obtain ⟨t, ht, hf⟩ := freePhyPages_returns hi hin
  have hin' : Inside t a n := by
    unfold Inside
    rw [hf.maxPhyAddr]
    exact hin
  obtain ⟨u, hu, hg⟩ := freePhyPages_returns hf.inv hin'
  refine ⟨t, ht, hf.bits, ?_⟩
  rw [hu, hg.eq_self hf.inv fun j h₁ h₂ => by rw [hf.bits]; simp [h₁, h₂]]

/-- **The books are kept along every history** of returning calls whose
range frees stay inside the bitmap. -/
theorem books_of_history {m : Nat} {tr : List (Taken State Event)} {s : State}
    (h : Trace Step (initPhyMem m) tr s) (hg : ∀ x ∈ tr, Proper x.pre x.label) :
    Books tr s := by
  have hi := Inv.trace h
  have hlow : Below s :=
    (h.invariant (fun s => Inv s ∧ Below s) Proper
      (fun hi hg hs => ⟨hi.1.step hs, step_below hi.1 hg hs hi.2⟩)
      ⟨inv_init m, fun i hb => by rw [initPhyMem_bit] at hb; cases hb⟩ hg).1.2
  refine ⟨hi.count, ?_, ?_, fun a t h0 ht => freePhyOnePage_twice hi h0 ht,
    fun a n hin => freePhyPages_twice hi hin, no_fault hi⟩
  · intro fuel a t hc h0
    rcases allocPhyPage_cases hi hc with ⟨hz, -⟩ | ⟨p, hfirst, hl, -, rfl, rfl⟩
    · exact absurd hz h0
    · obtain ⟨hb, hclr⟩ := takePage_bit hi hfirst hl
      rw [Nat.mul_div_cancel_left _ (by decide : 0 < pageSize)]
      refine ⟨Nat.mul_mod_right _ _, hlow _ hb, hb, hclr, ?_⟩
      rcases freed_last (inv_init m) h hg hb with hf | ⟨hb', -⟩
      · exact hf
      · rw [initPhyMem_bit] at hb'
        cases hb'
  · intro fuel t hc
    rcases allocPhyPage_cases hi hc with ⟨-, c, -, rfl⟩ | ⟨p, hfirst, hl, -, h0, -⟩
    · exact ⟨rfl, rfl⟩
    · obtain ⟨hb, -⟩ := takePage_bit hi hfirst hl
      have hz : ffs (s.low p) - 1 + p * 64 = 0 := by
        unfold pageSize at h0
        omega
      rw [hz, hi.page0] at hb
      cases hb

/-- The history that frees page `5`, takes it, and frees it again. -/
theorem books_of_history_page5 :
    Books [⟨initPhyMem (64 * pageSize), .freeOne (5 * pageSize), onePageFree 5⟩,
      ⟨onePageFree 5, .alloc (5 * pageSize), initPhyMem (64 * pageSize)⟩,
      ⟨initPhyMem (64 * pageSize), .freePages (5 * pageSize) pageSize, onePageFree 5⟩]
      (onePageFree 5) := by
  refine books_of_history (m := 64 * pageSize) ?_ ?_
  · refine .step ?_ (.step ?_ (.step ?_ (.done _)))
    · show freePhyOnePage _ _ = .ok _
      decide
    · exact ⟨1, by decide⟩
    · show freePhyPages _ _ _ = .ok _
      decide
  · simp [Proper, Inside, initPhyMem, pageSize]

end Yaos.Phymem
