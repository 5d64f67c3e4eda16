import Yaos.Kheap.Invariant
import Yaos.Pgtable.Model

/-!
# What a map changes

The tables form a radix tree of three levels, and each of them is a live
block of the heap (the static ones count as blocks the heap never had), so
a page the heap hands out is not a table. A map then changes the entry of
its own 2M page and nothing else, or, when a table is missing and cannot
be had, nothing at all.
-/

namespace Yaos.Pgtable

open Yaos.Lib Yaos.Lib.Radix
open Yaos.Phymem (pageSize)

variable {s t : State} {live L M : List Range} {fuel : Nat}

structure Inv (s : State) (live L M : List Range) : Prop where
  heap : Kheap.Inv s.heap live L M
  tree : Tree s.mem s.pml4 2
  owned : ∀ p, IsPath 2 p → tab s.mem s.pml4 p ≠ 0 → (⟨tab s.mem s.pml4 p, page⟩ : Range) ∈ live

/-- The bits of an address that select its entry: the number of its 2M
page in the 48-bit address space. -/
def vpn (addr : Nat) : Nat := addr / 2 ^ 21 % 2 ^ 27

/-- The path to the page directory of an address. -/
def path (addr : Nat) : List Nat := [pml4Index addr, pdpIndex addr]

theorem isPath_path (addr : Nat) : IsPath 2 (path addr) := by
  refine ⟨Nat.le_refl _, fun i hi => ?_⟩
  simp only [path, List.mem_cons, List.not_mem_nil, or_false] at hi
  rcases hi with rfl | rfl
  · exact Nat.mod_lt _ (by decide)
  · exact Nat.mod_lt _ (by decide)

theorem pdIndex_lt (addr : Nat) : pdIndex addr < fan := Nat.mod_lt _ (by decide)

theorem path_eq_iff (x y : Nat) : path x = path y ∧ pdIndex x = pdIndex y ↔ vpn x = vpn y := by
  simp only [path, List.cons.injEq, and_true, pml4Index, pdpIndex, pdIndex, vpn]
  omega

theorem tab_path (addr : Nat) : tab s.mem s.pml4 (path addr) =
    tab s.mem s.pml4 ([pml4Index addr] ++ [pdpIndex addr]) := rfl

theorem entry_eq_leaf (s : State) (h0 : s.pml4 ≠ 0) (addr : Nat) :
    s.entry addr = leaf s.mem s.pml4 (path addr) (pdIndex addr) := by
  have hpdp : tab s.mem s.pml4 [pml4Index addr] =
      frame (s.mem (s.pml4 + 8 * pml4Index addr)) := by
    simp [tab, h0]
  rw [leaf, tab_path, tab_concat, hpdp]
  simp only [State.entry, getPteWithAddr]
  by_cases h₁ : frame (s.mem (s.pml4 + 8 * pml4Index addr)) = 0
  · simp [h₁]
  · simp only [h₁, if_false]
    split
    next => simp
    next h₂ =>
      rw [if_neg]
      omega

theorem or_flags {a f : Nat} (ha : a % page = 0) (hf : f < page) : a ||| f = a + f := by
  have := Nat.two_pow_add_eq_or_of_lt (i := 12) hf (a / page)
  have hmul : 2 ^ 12 * (a / page) = a := Nat.mul_div_cancel' (Nat.dvd_of_mod_eq_zero ha)
  rw [hmul] at this
  exact this.symm

theorem Inv.fresh {heap : Kheap.State} {L' : List Range} {a : Nat} (hi : Inv s live L M)
    (h : Kheap.Inv heap (⟨a, page⟩ :: live) L' M) (ha : a ≠ 0) :
    ∀ p, IsPath 2 p → tab s.mem s.pml4 p ≠ a := by
  rintro p hp rfl
  have hmem := hi.owned p hp ha
  have hone := h.once (tab s.mem s.pml4 p)
  have hle := has_le_cover hmem (tab s.mem s.pml4 p)
  have hin : Range.has ⟨tab s.mem s.pml4 p, page⟩ (tab s.mem s.pml4 p) = 1 := by
    rw [Range.has_eq, if_pos]
    simp [page]
  rw [cover_cons] at hone
  omega

/-- Tables may have been added, but every address has the entry it had. -/
structure Kept (s t : State) : Prop where
  pml4 : t.pml4 = s.pml4
  tabs : ∀ p, IsPath 2 p → tab s.mem s.pml4 p ≠ 0 → tab t.mem t.pml4 p = tab s.mem s.pml4 p
  entry : ∀ x, t.entry x = s.entry x
  bits : ∀ i, t.heap.phys.bit i = true → s.heap.phys.bit i = true

theorem Kept.trans {u : State} (h : Kept s t) (h' : Kept t u) : Kept s u where
  pml4 := h'.pml4.trans h.pml4
  tabs p hp hne := by
    have heq := h.tabs p hp hne
    exact (h'.tabs p hp (heq.trans_ne hne)).trans heq
  entry x := (h'.entry x).trans (h.entry x)
  bits i hi := h.bits i (h'.bits i hi)

/-- The table below `q` at index `k`, found or added. -/
theorem tableAt_spec {q : List Nat} {k : Nat} {r : Option Nat} (hi : Inv s live L M)
    (hq : IsPath 2 q) (hl : q.length < 2) (hk : k < fan) (hq0 : tab s.mem s.pml4 q ≠ 0)
    (h : tableAt fuel s (tab s.mem s.pml4 q + 8 * k) = .ok (r, t)) :
    ∃ live' L', Inv t live' L' M ∧ Kept s t ∧ (∀ x ∈ live, x ∈ live') ∧
      ((r = none ∧ tab s.mem s.pml4 (q ++ [k]) = 0) ∨
        ∃ a, r = some a ∧ a ≠ 0 ∧ tab t.mem t.pml4 (q ++ [k]) = a) := by
  have htab : tab s.mem s.pml4 (q ++ [k]) = frame (s.mem (tab s.mem s.pml4 q + 8 * k)) := by
    rw [tab_concat, if_neg hq0]
  rw [tableAt] at h
  split at h
  next hne =>
    cases h
    exact ⟨live, L, hi, ⟨rfl, fun _ _ _ => rfl, fun _ => rfl, fun _ hb => hb⟩, fun _ hx => hx,
      .inr ⟨_, rfl, hne, htab⟩⟩
  next hzero =>
    have hv : tab s.mem s.pml4 (q ++ [k]) = 0 := by
      rw [htab]
      exact not_not.mp hzero
    obtain ⟨⟨block, heap⟩, halloc, h⟩ := bind_eq_ok.mp h
    obtain ⟨_, hal, h⟩ := bind_eq_ok.mp h
    have hbits := Kheap.allocKheap4k_bits hi.heap.phys halloc
    obtain ⟨⟨L', hheap⟩, -⟩ := hi.heap.alloc4k halloc
    split at h
    next hp0 =>
      -- no block, or one at address 0 that is lost
      cases h
      refine ⟨live, L', ⟨hheap.mono fun b => ?_, hi.tree, hi.owned⟩,
        ⟨rfl, fun _ _ _ => rfl, fun _ => rfl, hbits⟩, fun _ hx => hx, .inl ⟨rfl, hv⟩⟩
      cases block <;> simp [Kheap.hand]
    next hp0 =>
      cases h
      obtain ⟨a, rfl⟩ : ∃ a, block = some a := by
        cases block with
        | none => exact absurd rfl hp0
        | some a => exact ⟨a, rfl⟩
      have ha0 : a ≠ 0 := hp0
      have ha : a % page = 0 := by
        change a % 0x1000 = 0
        simpa using hal
      have hheap' : Kheap.Inv heap (⟨a, page⟩ :: live) L' M := hheap
      have hfresh := hi.fresh hheap' ha0
      have hor : a ||| pteP ||| pteW ||| pteU = a + 7 := by
        rw [Nat.or_assoc, Nat.or_assoc]
        exact or_flags ha (by decide)
      have hf : 7 < page := by decide
      have htree := hi.tree.link hq hk hq0 hv ha0 ha hfresh hf
      have hlink := fun p (hp : IsPath 2 p) => hi.tree.tab_link hq hk hq0 hv ha0 ha hfresh hf hp
      simp only [Option.getD_some, hor]
      refine ⟨⟨a, page⟩ :: live, L', ⟨hheap', htree, fun p hp hne => ?_⟩,
        ⟨rfl, fun p hp hne => ?_, fun x => ?_, hbits⟩, fun x hx => List.mem_cons_of_mem _ hx,
        .inr ⟨a, rfl, ha0, ?_⟩⟩
      · dsimp only at hne ⊢
        rw [hlink p hp] at hne ⊢
        split
        · exact List.mem_cons_self
        · rw [if_neg ‹_›] at hne
          exact List.mem_cons_of_mem _ (hi.owned p hp hne)
      · rw [hlink p hp, if_neg]
        rintro rfl
        exact hne hv
      · rw [entry_eq_leaf s hi.tree.root_pos]
        refine (entry_eq_leaf _ (by exact hi.tree.root_pos) x).trans ?_
        exact hi.tree.leaf_link hq hk hq0 hv ha0 ha hfresh hf hl (isPath_path x) rfl (pdIndex_lt x)
      · rw [hlink _ (hq.concat hl hk), if_pos rfl]

theorem mapPageP2v_present {paddr addr flag : Nat} (h0 : s.pml4 ≠ 0) (hp : paddr % 0x1000 = 0)
    (hf : frame flag = 0) (hd : tab s.mem s.pml4 (path addr) ≠ 0) :
    mapPageP2v fuel s paddr addr flag = .ok (codeOk, { s with
      mem := Function.update s.mem (tab s.mem s.pml4 (path addr) + 8 * pdIndex addr)
        (paddr ||| flag) }) := by
  have hpdp : tab s.mem s.pml4 [pml4Index addr] =
      frame (s.mem (s.pml4 + 8 * pml4Index addr)) := by
    simp [tab, h0]
  have hpd : tab s.mem s.pml4 (path addr) = if frame (s.mem (s.pml4 + 8 * pml4Index addr)) = 0
      then 0 else frame (s.mem (frame (s.mem (s.pml4 + 8 * pml4Index addr)) + 8 * pdpIndex addr)) := by
    rw [tab_path, tab_concat, hpdp]
  have hpdp0 : frame (s.mem (s.pml4 + 8 * pml4Index addr)) ≠ 0 := by
    intro hz
    rw [hpd, if_pos hz] at hd
    exact hd rfl
  rw [if_neg hpdp0] at hpd
  rw [hpd] at hd ⊢
  simp only [mapPageP2v, tableAt, hp, hf, hpdp0, hd, check, decide_true, if_true, ok_bind, ne_eq,
    not_false_eq_true]

theorem mapPageP2v_tables {paddr addr flag code : Nat} (hi : Inv s live L M)
    (h : mapPageP2v fuel s paddr addr flag = .ok (code, t)) :
    ∃ live' L', Inv t live' L' M ∧ (∀ x ∈ live, x ∈ live') ∧ t.pml4 = s.pml4 ∧
      (∀ i, t.heap.phys.bit i = true → s.heap.phys.bit i = true) ∧
      (∀ p, IsPath 2 p → tab s.mem s.pml4 p ≠ 0 → tab t.mem t.pml4 p = tab s.mem s.pml4 p) ∧
      ((code = codeOk ∧ tab t.mem t.pml4 (path addr) ≠ 0 ∧
          ∀ x, t.entry x = if vpn x = vpn addr then paddr ||| flag else s.entry x) ∨
        (code = eNoMem ∧ s.entry addr = 0 ∧ ∀ x, t.entry x = s.entry x)) := by
  rw [mapPageP2v] at h
  obtain ⟨_, _, h⟩ := bind_eq_ok.mp h
  obtain ⟨_, _, h⟩ := bind_eq_ok.mp h
  obtain ⟨⟨pdp, s₁⟩, h₁, h⟩ := bind_eq_ok.mp h
  have hroot : IsPath 2 [] := ⟨by decide, by simp⟩
  have hi4 : pml4Index addr < fan := Nat.mod_lt _ (by decide)
  have hi3 : pdpIndex addr < fan := Nat.mod_lt _ (by decide)
  obtain ⟨live₁, L₁, hinv₁, hkept₁, hsub₁, hcase₁⟩ :=
    tableAt_spec hi hroot (by decide) hi4 hi.tree.root_pos h₁
  rcases hcase₁ with ⟨rfl, hnone⟩ | ⟨pdp, rfl, hpdp0, hpdp⟩
  · cases h
    refine ⟨live₁, L₁, hinv₁, hsub₁, hkept₁.pml4, hkept₁.bits, hkept₁.tabs,
      .inr ⟨rfl, ?_, hkept₁.entry⟩⟩
    have hvacant : tab s.mem s.pml4 (path addr) = 0 := by
      rw [tab_path, tab_concat]
      exact if_pos hnone
    rw [entry_eq_leaf s hi.tree.root_pos, leaf, if_pos hvacant]
  obtain ⟨⟨pd, s₂⟩, h₂, h⟩ := bind_eq_ok.mp h
  rw [← hpdp] at h₂
  obtain ⟨live₂, L₂, hinv₂, hkept₂, hsub₂, hcase₂⟩ :=
    tableAt_spec hinv₁ (hroot.concat (by decide) hi4) (by simp) hi3 (hpdp ▸ hpdp0) h₂
  have hkept := hkept₁.trans hkept₂
  have hsub : ∀ x ∈ live, x ∈ live₂ := fun x hx => hsub₂ x (hsub₁ x hx)
  rcases hcase₂ with ⟨rfl, hnone⟩ | ⟨pd, rfl, hpd0, hpd⟩
  · cases h
    refine ⟨live₂, L₂, hinv₂, hsub, hkept.pml4, hkept.bits, hkept.tabs,
      .inr ⟨rfl, ?_, hkept.entry⟩⟩
    rw [← hkept₁.entry, entry_eq_leaf s₁ hinv₁.tree.root_pos, leaf, tab_path, if_pos]
    exact hnone
  · cases h
    have hpath : tab s₂.mem s₂.pml4 (path addr) = pd := hpd
    rw [← hpath] at hpd0 ⊢
    have hset := fun p (hp : IsPath 2 p) =>
      hinv₂.tree.tab_set (v := paddr ||| flag) (isPath_path addr) rfl (pdIndex_lt addr) hp
    refine ⟨live₂, L₂, ⟨hinv₂.heap, hinv₂.tree.set (isPath_path addr) rfl (pdIndex_lt addr), ?_⟩,
      hsub, hkept.pml4, hkept.bits, ?_, .inl ⟨rfl, ?_, fun x => ?_⟩⟩
    · intro p hp hne
      dsimp only at hne ⊢
      rw [hset p hp] at hne ⊢
      exact hinv₂.owned p hp hne
    · exact fun p hp hne => (hset p hp).trans (hkept.tabs p hp hne)
    · exact (hset _ (isPath_path addr)).trans_ne hpd0
    · refine (entry_eq_leaf _ (by exact hinv₂.tree.root_pos) x).trans ?_
      rw [hinv₂.tree.leaf_set (isPath_path addr) rfl (pdIndex_lt addr) hpd0 (isPath_path x)
        (pdIndex_lt x), ← entry_eq_leaf s₂ hinv₂.tree.root_pos, hkept.entry]
      simp only [path_eq_iff]

/-- **A map** changes the entry of its page, or returns `E_NOMEM` and
changes none. -/
theorem mapPageP2v_spec {paddr addr flag code : Nat} (hi : Inv s live L M)
    (h : mapPageP2v fuel s paddr addr flag = .ok (code, t)) :
    ∃ live' L', Inv t live' L' M ∧ t.pml4 = s.pml4 ∧ (∀ x ∈ live, x ∈ live') ∧
      (∀ i, t.heap.phys.bit i = true → s.heap.phys.bit i = true) ∧
      ((code = codeOk ∧
          ∀ x, t.entry x = if vpn x = vpn addr then paddr ||| flag else s.entry x) ∨
        (code = eNoMem ∧ s.entry addr = 0 ∧ ∀ x, t.entry x = s.entry x)) := by
  obtain ⟨live', L', hinv, hsub, hpml4, hbits, -, hcase⟩ := mapPageP2v_tables hi h
  refine ⟨live', L', hinv, hpml4, hsub, hbits, ?_⟩
  rcases hcase with ⟨hcode, -, hentry⟩ | hnomem
  · exact .inl ⟨hcode, hentry⟩
  · exact .inr hnomem

/-! ## Lookup and update -/

theorem getPteWithAddr_eq (s : State) (h0 : s.pml4 ≠ 0) (x : Nat) :
    getPteWithAddr s x = if tab s.mem s.pml4 (path x) = 0 then 0
      else tab s.mem s.pml4 (path x) + 8 * pdIndex x := by
  have hpdp : tab s.mem s.pml4 [pml4Index x] = frame (s.mem (s.pml4 + 8 * pml4Index x)) := by
    simp [tab, h0]
  rw [tab_path, tab_concat, hpdp]
  simp only [getPteWithAddr]
  split
  · rfl
  · rfl

theorem getPteWithAddr_eq_zero (s : State) (h0 : s.pml4 ≠ 0) (x : Nat) :
    getPteWithAddr s x = 0 ↔ tab s.mem s.pml4 (path x) = 0 := by
  rw [getPteWithAddr_eq s h0]
  split
  case isTrue hz => simp [hz]
  case isFalse hne => omega

theorem State.entry_eq_mem {x : Nat} (h : getPteWithAddr s x ≠ 0) :
    s.entry x = s.mem (getPteWithAddr s x) := if_neg h

/-- An address has in `t` the entry it has in `s`: the same one, with the
same contents, or one that is not present where there was none. -/
structure SameEntry (s t : State) (x : Nat) : Prop where
  found : getPteWithAddr s x ≠ 0 → getPteWithAddr t x = getPteWithAddr s x ∧
    t.mem (getPteWithAddr t x) = s.mem (getPteWithAddr s x)
  absent : getPteWithAddr s x = 0 → getPteWithAddr t x = 0 ∨ t.mem (getPteWithAddr t x) = 0

theorem SameEntry.of_entry {x : Nat} (hs : s.pml4 ≠ 0) (ht : t.pml4 ≠ 0)
    (htab : tab s.mem s.pml4 (path x) ≠ 0 →
      tab t.mem t.pml4 (path x) = tab s.mem s.pml4 (path x))
    (h : t.entry x = s.entry x) : SameEntry s t x := by
  constructor
  · intro hne
    have hptr : getPteWithAddr t x = getPteWithAddr s x := by
      have hpath := htab (mt (getPteWithAddr_eq_zero s hs x).mpr hne)
      rw [getPteWithAddr_eq t ht, getPteWithAddr_eq s hs, hpath]
    refine ⟨hptr, ?_⟩
    rw [← State.entry_eq_mem hne, ← h, State.entry_eq_mem (hptr.trans_ne hne)]
  · intro hz
    by_cases hz' : getPteWithAddr t x = 0
    · exact .inl hz'
    · right
      rw [← State.entry_eq_mem hz', h]
      exact if_pos hz

/-- **Lookup after update**: after a map that returns `OK` the address has the
entry that was stored, and every address of another 2M page has the one it
had; after `E_NOMEM` every address does. -/
theorem mapPageP2v_lookup {paddr vaddr flag code : Nat} (hi : Inv s live L M)
    (h : mapPageP2v fuel s paddr vaddr flag = .ok (code, t)) :
    (∃ live' L', Inv t live' L' M) ∧
    ((code = codeOk ∧ getPteWithAddr t vaddr ≠ 0 ∧
        t.mem (getPteWithAddr t vaddr) = paddr ||| flag ∧
        ∀ x, vpn x ≠ vpn vaddr → SameEntry s t x) ∨
      (code = eNoMem ∧ ∀ x, SameEntry s t x)) := by
  obtain ⟨live', L', hinv, -, -, -, htabs, hcase⟩ := mapPageP2v_tables hi h
  have hs := hi.tree.root_pos
  have ht := hinv.tree.root_pos
  have hsame : ∀ x, t.entry x = s.entry x → SameEntry s t x :=
    fun x => SameEntry.of_entry hs ht (htabs _ (isPath_path x))
  refine ⟨⟨live', L', hinv⟩, ?_⟩
  rcases hcase with ⟨hcode, hdir, hentry⟩ | ⟨hcode, -, hentry⟩
  · have hptr := mt (getPteWithAddr_eq_zero t ht vaddr).mp hdir
    refine .inl ⟨hcode, hptr, ?_, fun x hx => hsame x ?_⟩
    · rw [← State.entry_eq_mem hptr, hentry, if_pos rfl]
    · rw [hentry, if_neg hx]
  · exact .inr ⟨hcode, fun x => hsame x (hentry x)⟩

/-- The memory of three tables, `pml4` at 4K, with one mapped page, at 1G + 2M. -/
def oneMapped (x : Nat) : Nat :=
  if x = 0x1000 then 0x2007 else if x = 0x2008 then 0x3007 else if x = 0x3008 then 0x800083 else 0

theorem oneMapped_pdp {i : Nat} (hi : i < fan) :
    tab oneMapped 0x1000 [i] = if i = 0 then 0x2000 else 0 := by
  change frame (oneMapped (0x1000 + 8 * i)) = _
  simp only [fan] at hi
  by_cases h0 : i = 0
  · subst h0
    rfl
  · rw [if_neg h0]
    simp only [oneMapped]
    rw [if_neg (by omega), if_neg (by omega), if_neg (by omega)]
    rfl

theorem oneMapped_pd {i j : Nat} (hi : i < fan) (hj : j < fan) :
    tab oneMapped 0x1000 [i, j] = if i = 0 ∧ j = 1 then 0x3000 else 0 := by
  change tab oneMapped 0x1000 ([i] ++ [j]) = _
  rw [tab_concat, oneMapped_pdp hi]
  simp only [fan] at hj
  by_cases h0 : i = 0
  · by_cases h1 : j = 1
    · subst h0 h1
      rfl
    · simp only [h0, h1, if_true, and_false, if_false, oneMapped]
      rw [if_neg (by decide), if_neg (by omega), if_neg (by omega), if_neg (by omega)]
      rfl
  · simp [h0]

theorem oneMapped_tab {p : List Nat} (hp : IsPath 2 p)
    (h : tab oneMapped 0x1000 p ≠ 0) :
    p = [] ∨ p = [0] ∨ p = [0, 1] := by
  obtain ⟨hl, hlt⟩ := hp
  match p, hl with
  | [], _ => exact .inl rfl
  | [i], _ =>
    rw [oneMapped_pdp (hlt i (by simp))] at h
    simpa using h
  | [i, j], _ =>
    rw [oneMapped_pd (hlt i (by simp)) (hlt j (by simp))] at h
    simpa using h

theorem oneMapped_tree : Tree oneMapped 0x1000 2 where
  root_pos := by decide
  root_aligned := by decide
  inj := by
    intro p q hp hq hne heq
    have hne' : tab oneMapped 0x1000 q ≠ 0 := heq ▸ hne
    rcases oneMapped_tab hp hne with rfl | rfl | rfl <;>
    rcases oneMapped_tab hq hne' with rfl | rfl | rfl <;>
    first
      | rfl
      | exact absurd heq (by decide)

theorem oneMapped_owned (p : List Nat) (hp : IsPath 2 p)
    (hne : tab oneMapped 0x1000 p ≠ 0) :
    (⟨tab oneMapped 0x1000 p, page⟩ : Range) ∈
      [⟨0x1000, page⟩, ⟨0x2000, page⟩, ⟨0x3000, page⟩] := by
  rcases oneMapped_tab hp hne with rfl | rfl | rfl <;> decide

theorem oneMapped_inv {phys : Phymem.State} (hphys : Phymem.Inv phys) :
    Inv ⟨oneMapped, 0x1000, Kheap.initKheap phys⟩
      [⟨0x1000, page⟩, ⟨0x2000, page⟩, ⟨0x3000, page⟩] [] [] where
  heap := by
    refine { Kheap.inv_initKheap hphys with once := fun b => ?_ }
    have hle : Kheap.freeAt phys b ≤ 1 := by
      rw [Kheap.freeAt]
      split <;> omega
    simp only [cover_cons, cover_nil, Range.has_eq, page]
    change _ + Kheap.freeAt phys b ≤ 1
    by_cases hb : b < pageSize
    · have hfree : Kheap.freeAt phys b = 0 := by
        rw [Kheap.freeAt, Nat.div_eq_of_lt hb, hphys.page0]
        rfl
      rw [hfree]
      split_ifs <;> omega
    · simp only [pageSize] at hb
      rw [if_neg (by omega), if_neg (by omega), if_neg (by omega)]
      omega
  tree := oneMapped_tree
  owned := oneMapped_owned

/-- The page below the mapped one is mapped; the entry of the other stays. -/
theorem mapPageP2v_lookup_below :
    ∃ s t, getPteWithAddr s 0x40000000 ≠ 0 ∧ s.entry 0x40000000 = 0 ∧
      s.entry 0x40200000 = 0x800083 ∧
      mapPageP2v 0 s 0xa00000 0x40000000 (pteP ||| pteW ||| ptePS) = .ok (codeOk, t) ∧
      t.mem (getPteWithAddr t 0x40000000) = 0xa00083 ∧ SameEntry s t 0x40200000 := by
  have hinv := oneMapped_inv (Phymem.inv_init (64 * pageSize))
  have hdir : tab oneMapped 0x1000 (path 0x40000000) ≠ 0 :=
    ne_of_eq_of_ne (oneMapped_pd (by decide) (by decide)) (by decide)
  have hmap : mapPageP2v 0 ⟨oneMapped, 0x1000, Kheap.initKheap (Phymem.initPhyMem _)⟩ 0xa00000
      0x40000000 (pteP ||| pteW ||| ptePS) = _ :=
    mapPageP2v_present hinv.tree.root_pos (by decide) (by decide) hdir
  refine ⟨_, _, by decide, by decide, by decide, hmap, ?_⟩
  obtain ⟨-, ⟨-, -, hentry, hsame⟩ | ⟨hcode, -⟩⟩ := mapPageP2v_lookup hinv hmap
  · exact ⟨hentry, hsame _ (by decide)⟩
  · cases hcode

/-! ## Runs of maps -/

structure Call where
  fuel : Nat
  paddr : Nat
  vaddr : Nat
  flag : Nat
  code : Nat

def Call.Step (s : State) (c : Call) (t : State) : Prop :=
  mapPageP2v c.fuel s c.paddr c.vaddr c.flag = .ok (c.code, t)

def Call.apply (entry : Nat → Nat) (c : Call) (x : Nat) : Nat :=
  if c.code = codeOk ∧ vpn x = vpn c.vaddr then c.paddr ||| c.flag else entry x

/-- **The tables are a map**: an address has the entry that the last call to succeed for its
page stored, or the one it had. -/
theorem maps_refine {tr : List (Taken State Call)} (h : Trace Call.Step s tr t)
    (hi : Inv s live L M) : (∃ live' L', Inv t live' L' M) ∧
      t.entry = (tr.map Taken.label).foldl Call.apply s.entry := by
  induction h generalizing live L with
  | done s => exact ⟨⟨live, L, hi⟩, rfl⟩
  | @step s u t c tr hs _ ih =>
    obtain ⟨live', L', hinv, -, -, -, hcase⟩ := mapPageP2v_spec hi hs
    obtain ⟨hend, hentry⟩ := ih hinv
    have hstep : u.entry = Call.apply s.entry c := by
      funext x
      rcases hcase with ⟨hcode, heq⟩ | ⟨hcode, -, heq⟩
      · simp [Call.apply, hcode, heq]
      · simp [Call.apply, hcode, heq, codeOk, eNoMem]
    rw [hstep] at hentry
    exact ⟨hend, hentry⟩

/-- The page below the mapped one is mapped. -/
theorem maps_refine_below : ∃ s tr t, Trace Call.Step s tr t ∧ s.entry 0x40000000 = 0 ∧
    t.entry 0x40000000 = 0xa00083 := by
  have hinv := oneMapped_inv (Phymem.inv_init (64 * pageSize))
  have hdir : tab oneMapped 0x1000 (path 0x40000000) ≠ 0 :=
    ne_of_eq_of_ne (oneMapped_pd (by decide) (by decide)) (by decide)
  have hmap : Call.Step ⟨oneMapped, 0x1000, Kheap.initKheap (Phymem.initPhyMem _)⟩
      ⟨0, 0xa00000, 0x40000000, 0x83, codeOk⟩ _ :=
    mapPageP2v_present hinv.tree.root_pos (by decide) (by decide) hdir
  have h := Trace.step hmap (.done _)
  refine ⟨_, _, _, h, by decide, ?_⟩
  rw [(maps_refine h hinv).2]
  decide

end Yaos.Pgtable
