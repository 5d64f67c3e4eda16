import Yaos.Kheap.Invariant
import Yaos.Phymem.History

/-!
# Refilling and giving back

When no hole fits, `alloc_kheap_4k` moves one 2M page after another from the
bitmap to the hole list, whatever the size that was asked for. Neighbouring
pages are not joined, so for more than 2M it goes on until the pages or the
descriptors are used up. `free_kheap_4k` does not join holes either: a block
that is given back is a hole of its own, next to the one it was cut from.
-/

namespace Yaos.Kheap

open Yaos.Lib Yaos.Holes
open Yaos.Phymem (pageSize)

variable {s t : State} {live L M : List Range} {fuel size : Nat}

def Serves (L : List Range) (size : Nat) : Prop := ∃ q ∈ L, round4k size ≤ q.size

instance (L : List Range) (size : Nat) : Decidable (Serves L size) :=
  inferInstanceAs (Decidable (∃ q ∈ L, _))

theorem lt_of_not_serves (h : ¬ Serves L size) : ∀ q ∈ L, q.size < round4k size := by
  intro q hq
  by_contra hle
  exact h ⟨q, hq, by omega⟩

/-! ## One round of the search -/

theorem find4k_of_serves (hL : s.heap4k.Reps L) (h : Serves L size) (fuel n : Nat) :
    ∃ p a h' L', find4k fuel (n + 1) s (round4k size) = .ok (some p, s) ∧
      s.heap4k.take 0 p (round4k size) = .ok (a, h') ∧
      cutFirst 0 (round4k size) L = some (a, L') ∧ h'.Reps L' ∧ h'.max = s.heap4k.max := by
  obtain ⟨p, a, h', L', hfit, htake, hcut, hreps, hmax⟩ := hL.firstFit_of_fits 0 h
  refine ⟨p, a, h', L', ?_, htake, hcut, hreps, hmax⟩
  rw [find4k, hfit, ok_bind]

theorem find4k_of_not_serves (hL : s.heap4k.Reps L) (h : ¬ Serves L size) (n : Nat) :
    find4k fuel (n + 1) s (round4k size) = (do
      let (newaddr, phys) ← Phymem.allocPhyPage fuel s.phys
      if newaddr = 0 then .ok (none, { s with phys := phys })
      else do
        let s ← freeKheap4k { s with phys := phys } newaddr pageSize
        find4k fuel n s (round4k size)) := by
  rw [find4k, hL.firstFit_of_none (lt_of_not_serves h), ok_bind]

theorem allocKheap4k_of_serves (hL : s.heap4k.Reps L) (h : Serves L size) (n : Nat) :
    ∃ a h' L', allocKheap4k (n + 1) s size = .ok (some a, { s with heap4k := h' }) ∧
      cutFirst 0 (round4k size) L = some (a, L') ∧ h'.Reps L' ∧ h'.max = s.heap4k.max := by
  obtain ⟨p, a, h', L', hfind, htake, hcut, hreps, hmax⟩ :=
    find4k_of_serves hL h (n + 1) n
  refine ⟨a, h', L', ?_, hcut, hreps, hmax⟩
  rw [allocKheap4k, hfind, ok_bind]
  dsimp only
  rw [htake, ok_bind]

theorem freeKheap4k_of_room (hL : s.heap4k.Reps L) (hroom : s.heap4k.pfree ≠ none)
    (addr size : Nat) (haddr : addr % 0x1000 = 0) (hsize : size % 0x1000 = 0) :
    ∃ h', freeKheap4k s addr size = .ok { s with heap4k := h' } ∧
      h'.Reps (insertRange ⟨addr, size⟩ L) := by
  obtain ⟨h', hadd, hreps, -⟩ := hL.addSorted_of_room hroom addr size
  have hcheck : check (addr % 0x1000 = 0 && size % 0x1000 = 0) = .ok () :=
    check_eq_ok.mpr (by simp [haddr, hsize])
  refine ⟨h', ?_, hreps⟩
  rw [freeKheap4k, hcheck, ok_bind, hadd, ok_bind]

theorem freeKheap4k_cases {addr : Nat} (h : freeKheap4k s addr size = .ok t) :
    s.heap4k.pfree ≠ none ∧ t.phys = s.phys ∧
      ∀ L, s.heap4k.Reps L → t.heap4k.Reps (insertRange ⟨addr, size⟩ L) := by
  obtain ⟨_, -, h⟩ := bind_eq_ok.mp h
  obtain ⟨h', hadd, h⟩ := bind_eq_ok.mp h
  cases h
  refine ⟨fun hfull => ?_, rfl, fun L hL => hL.addSorted hadd⟩
  rw [HoleList.addSorted_of_full hfull] at hadd
  cases hadd

/-! ## When a call ends well -/

/-- How a call should end: with a block of `size` bytes that nothing else owns, at
another address than 0; or with 0, and the holes, the pool and the free pages as
they were. -/
def Ended (s t : State) (live M : List Range) (size : Nat) (p : Option Nat) : Prop :=
  (∃ a L', p = some a ∧ a ≠ 0 ∧ Inv t (⟨a, size⟩ :: live) L' M) ∨
    p.getD 0 = 0 ∧ t.heap4k = s.heap4k ∧ ∀ i, t.phys.bit i = s.phys.bit i

/-- With enough fuel the call returns and ends as it should, and a request that
neither a hole nor a page could serve takes no page. -/
def Graceful (s : State) (live L M : List Range) (size : Nat) : Prop :=
  ∃ n, ∀ fuel ≥ n, ∃ p t, allocKheap4k fuel s size = .ok (p, t) ∧ Ended s t live M size p ∧
    ((∀ q ∈ L, q.size < size) → pageSize < size → ∀ i, t.phys.bit i = s.phys.bit i)

/-- The first hole that fits is not at address 0, which would be taken for a
failure; or none fits and the bitmap gives no page, or one that is large enough and
for which a descriptor is left. A size above 2^64 - 4K is rounded to 0, so that any
hole or page would do: there must be none, or the hole must be at 0. -/
def Supplied (s : State) (L : List Range) (size : Nat) : Prop :=
  if size + 0xfff < 2 ^ 64 then
    match L.find? (fun q => decide (size ≤ q.size)) with
    | some q => q.addr = 0 → size = 0
    | none => s.phys.Dry ∨ s.phys.Ready ∧ s.heap4k.pfree ≠ none ∧ size ≤ pageSize
  else
    match L with
    | [] => s.phys.Dry
    | q :: _ => q.addr = 0

theorem round4k_le_iff (hw : size + 0xfff < 2 ^ 64) {n : Nat} (hn : n % 0x1000 = 0) :
    round4k size ≤ n ↔ size ≤ n := by
  unfold round4k
  split <;> omega

theorem round4k_of_wraps (hsize : size < 2 ^ 64) (hw : ¬ size + 0xfff < 2 ^ 64) :
    round4k size = 0 := by
  unfold round4k
  split <;> omega

theorem Inv.shorten {a m n : Nat} (hi : Inv s (⟨a, n⟩ :: live) L M) (h : m ≤ n) :
    Inv s (⟨a, m⟩ :: live) L M := by
  refine hi.mono fun b => ?_
  have hsplit := Range.has_split a b h
  rw [cover_cons, cover_cons]
  omega

theorem Inv.block_not_hole {q : Range} {n : Nat} (hi : Inv s (⟨q.addr, n⟩ :: live) L M)
    (hn : 0 < n) : q ∉ L := by
  intro hq
  have hone := hi.once q.addr
  have hhole := cover_pos.mpr ⟨q, hq, Nat.le_refl _, Nat.lt_add_of_pos_right (hi.whole q hq).1⟩
  have hblock : 0 < cover (⟨q.addr, n⟩ :: live) q.addr :=
    cover_pos.mpr ⟨_, List.mem_cons_self, Nat.le_refl _, Nat.lt_add_of_pos_right hn⟩
  omega

/-! ### A hole fits -/

theorem serves_of_find {q : Range}
    (h : L.find? (fun q => decide (round4k size ≤ q.size)) = some q) : Serves L size :=
  ⟨q, List.mem_of_find?_eq_some h, by simpa using List.find?_some h⟩

theorem allocKheap4k_first {q : Range} {p : Option Nat} (hi : Inv s live L M)
    (hfind : L.find? (fun q => decide (round4k size ≤ q.size)) = some q)
    (h : allocKheap4k fuel s size = .ok (p, t)) :
    p = some q.addr ∧ t.phys = s.phys ∧ (round4k size = 0 → t.heap4k = s.heap4k) := by
  have hserves := serves_of_find hfind
  cases fuel with
  | zero => cases h
  | succ n =>
    obtain ⟨i, a, h', L', hsearch, htake, hcut, -⟩ := find4k_of_serves hi.heap4k hserves (n + 1) n
    rw [allocKheap4k, hsearch, ok_bind] at h
    dsimp only at h
    rw [htake, ok_bind] at h
    cases h
    obtain ⟨A, q', B, -, hfind', -, rfl, -⟩ := cutFirst_find hcut
    cases hfind.symm.trans hfind'
    refine ⟨rfl, rfl, fun hzero => ?_⟩
    obtain ⟨-, -, -, -, hfit⟩ := find4k_spec hi hsearch
    have hpos := (hi.whole _ (hi.heap4k.firstFit_mem (hfit i rfl))).1
    rw [hzero, HoleList.take_zero hpos] at htake
    exact (congrArg Prod.snd (Except.ok.inj htake)).symm

/-- Such a call ends well if the hole is not at address 0 and the rounding does not
wrap, or if the hole is at address 0 and nothing is taken. -/
theorem ended_iff_of_fits {q : Range} {p : Option Nat} (hi : Inv s live L M) (hsize : size < 2 ^ 64)
    (hfind : L.find? (fun q => decide (round4k size ≤ q.size)) = some q)
    (h : allocKheap4k fuel s size = .ok (p, t)) :
    Ended s t live M size p ↔ if q.addr = 0 then round4k size = 0 else size + 0xfff < 2 ^ 64 := by
  obtain ⟨rfl, hphys, hzero⟩ := allocKheap4k_first hi hfind h
  obtain ⟨⟨L', hi'⟩, -⟩ := hi.alloc4k h
  have hq := List.mem_of_find?_eq_some hfind
  split
  case isTrue h0 =>
    constructor
    · rintro (⟨a, -, ha, hne, -⟩ | ⟨-, hsame, -⟩)
      · exact absurd (Option.some.inj ha ▸ h0) hne
      · by_contra hpos
        obtain rfl := hi'.heap4k.unique (hsame ▸ hi.heap4k)
        exact hi'.block_not_hole (Nat.pos_of_ne_zero hpos) hq
    · intro hnone
      exact .inr ⟨h0, hzero hnone, fun i => by rw [hphys]⟩
  case isFalse h0 =>
    constructor
    · rintro (⟨a, L₁, ha, -, hi₁⟩ | ⟨hzero, -⟩)
      · by_contra hw
        cases ha
        have hsame := hzero (round4k_of_wraps hsize hw)
        obtain rfl := hi₁.heap4k.unique (hsame ▸ hi.heap4k)
        exact hi₁.block_not_hole (by omega) hq
      · exact absurd hzero h0
    · intro hw
      exact .inl ⟨q.addr, L', rfl, h0, hi'.shorten (le_round4k hw)⟩

theorem graceful_iff_of_fits {q : Range} (hi : Inv s live L M) (hsize : size < 2 ^ 64)
    (hfind : L.find? (fun q => decide (round4k size ≤ q.size)) = some q) :
    Graceful s live L M size ↔ if q.addr = 0 then round4k size = 0 else size + 0xfff < 2 ^ 64 := by
  have hserves := serves_of_find hfind
  constructor
  · rintro ⟨n, h⟩
    obtain ⟨p, t, hrun, hended, -⟩ := h n le_rfl
    exact (ended_iff_of_fits hi hsize hfind hrun).mp hended
  · intro hgood
    refine ⟨1, fun fuel hfuel => ?_⟩
    obtain ⟨n, rfl⟩ : ∃ n, fuel = n + 1 := ⟨fuel - 1, by omega⟩
    obtain ⟨a, h', L', hok, -⟩ := allocKheap4k_of_serves hi.heap4k hserves n
    exact ⟨some a, _, hok, (ended_iff_of_fits hi hsize hfind hok).mpr hgood, fun _ _ _ => rfl⟩

/-! ### No hole fits -/

theorem graceful_of_dry (hi : Inv s live L M) (h : s.phys.Dry) (hno : ¬ Serves L size) :
    Graceful s live L M size := by
  obtain ⟨phys, hpage, hbits⟩ := Phymem.allocPhyPage_of_dry hi.phys h
  refine ⟨1, fun fuel hfuel => ⟨none, { s with phys := phys }, ?_, .inr ⟨rfl, rfl, hbits⟩,
    fun _ _ => hbits⟩⟩
  obtain ⟨n, rfl⟩ : ∃ n, fuel = n + 1 := ⟨fuel - 1, by omega⟩
  rw [allocKheap4k, find4k_of_not_serves hi.heap4k hno, hpage]
  rfl

theorem graceful_of_ready (hi : Inv s live L M) (h : s.phys.Ready) (hroom : s.heap4k.pfree ≠ none)
    (hsize : size ≤ pageSize) (hno : ¬ Serves L size) : Graceful s live L M size := by
  obtain ⟨a, phys, ha, hpage⟩ := Phymem.allocPhyPage_of_ready hi.phys h
  refine ⟨2, fun fuel hfuel => ?_⟩
  obtain ⟨n, rfl⟩ : ∃ n, fuel = n + 2 := ⟨fuel - 2, by omega⟩
  have hal : a % 0x1000 = 0 := by
    rcases Phymem.Inv.alloc_page hi.phys (hpage 0) with ⟨h0, -⟩ | ⟨i, -, rfl, -⟩
    · exact absurd h0 ha
    · rw [pageSize]
      omega
  have hw : size + 0xfff < 2 ^ 64 := by
    simp only [pageSize] at hsize
    omega
  -- the page becomes a hole, and the second round finds it
  obtain ⟨h₁, hfree, hreps⟩ := freeKheap4k_of_room (s := { s with phys := phys }) hi.heap4k hroom a
    pageSize hal (by decide)
  have hserves : Serves (insertRange ⟨a, pageSize⟩ L) size :=
    ⟨_, mem_insertRange.mpr (.inl rfl), (round4k_le_iff hw (show pageSize % 0x1000 = 0 by decide)).mpr hsize⟩
  obtain ⟨p, b, h₂, L', hfind, htake, hcut, -⟩ :=
    find4k_of_serves (s := { s with phys := phys, heap4k := h₁ }) hreps hserves (n + 2) n
  have hrun : allocKheap4k (n + 2) s size = .ok (some b, { s with phys := phys, heap4k := h₂ }) := by
    rw [allocKheap4k, find4k_of_not_serves hi.heap4k hno, hpage, ok_bind]
    dsimp only
    rw [if_neg ha, hfree, ok_bind, hfind, ok_bind]
    dsimp only
    rw [htake, ok_bind]
  -- no other hole fits
  have hb : b ≠ 0 := by
    obtain ⟨A, q, B, -, hq, hle, rfl, -⟩ := cutFirst_find hcut
    rcases mem_insertRange.mp (List.mem_of_find?_eq_some hq) with rfl | hqL
    · exact ha
    · exact absurd ⟨q, hqL, hle⟩ hno
  obtain ⟨⟨L₂, hi₂⟩, -⟩ := hi.alloc4k hrun
  exact ⟨some b, _, hrun, .inl ⟨b, L₂, rfl, hb, hi₂.shorten (le_round4k hw)⟩, fun _ hgt => by omega⟩

/-- A call that returned though no hole fitted had no page to take, or took
one, had a descriptor for it and left it taken. -/
theorem allocKheap4k_of_not_serves {p : Option Nat} (hL : s.heap4k.Reps L)
    (hphys : Phymem.Inv s.phys) (hno : ¬ Serves L size)
    (h : allocKheap4k fuel s size = .ok (p, t)) :
    s.phys.Dry ∨ s.phys.Ready ∧ s.heap4k.pfree ≠ none ∧
      ∃ i, s.phys.bit i = true ∧ t.phys.bit i = false := by
  rw [allocKheap4k] at h
  obtain ⟨⟨q, s₁⟩, hfind, h⟩ := bind_eq_ok.mp h
  have ht : t.phys = s₁.phys := by
    cases q with
    | none =>
      cases h
      rfl
    | some q =>
      obtain ⟨_, _, h⟩ := bind_eq_ok.mp h
      cases h
      rfl
  cases fuel with
  | zero => cases hfind
  | succ n =>
    rw [find4k_of_not_serves hL hno] at hfind
    obtain ⟨⟨a, phys⟩, hpage, hfind⟩ := bind_eq_ok.mp hfind
    by_cases hdry : s.phys.Dry
    · exact .inl hdry
    by_cases hready : s.phys.Ready
    · obtain ⟨b, phys', hb, htakes⟩ := Phymem.allocPhyPage_of_ready hphys hready
      rw [htakes n] at hpage
      cases hpage
      rcases Phymem.Inv.alloc_page hphys (htakes n) with ⟨h0, -⟩ | ⟨i, -, -, hbit, hclr⟩
      · exact absurd h0 hb
      · dsimp only at hfind
        rw [if_neg hb] at hfind
        obtain ⟨s₂, hfree, hfind⟩ := bind_eq_ok.mp hfind
        obtain ⟨hroom, hs₂, -⟩ := freeKheap4k_cases hfree
        refine .inr ⟨hready, hroom, i, hbit, ?_⟩
        -- the rounds after this one only take pages
        have hfewer := find4k_bits (hs₂ ▸ Phymem.Inv.alloc hphys (htakes n)) hfind i
        rw [ht, ← Bool.not_eq_true]
        intro hset
        have := hfewer hset
        rw [hs₂, hclr, if_pos rfl] at this
        cases this
    · rw [Phymem.allocPhyPage_of_neither hphys hdry hready] at hpage
      cases hpage

theorem graceful_iff_of_not_fits (hi : Inv s live L M) (hno : ¬ Serves L size)
    (hsmall : ∀ q ∈ L, q.size < size) : Graceful s live L M size ↔
      s.phys.Dry ∨ s.phys.Ready ∧ s.heap4k.pfree ≠ none ∧ size ≤ pageSize := by
  constructor
  · rintro ⟨n, h⟩
    obtain ⟨p, t, hrun, -, hlarge⟩ := h n le_rfl
    rcases allocKheap4k_of_not_serves hi.heap4k hi.phys hno hrun with
      hdry | ⟨hready, hroom, i, hset, hclr⟩
    · exact .inl hdry
    · refine .inr ⟨hready, hroom, ?_⟩
      by_contra hgt
      have hsame := hlarge hsmall (by omega) i
      rw [hset, hclr] at hsame
      cases hsame
  · rintro (hdry | ⟨hready, hroom, hsize⟩)
    · exact graceful_of_dry hi hdry hno
    · exact graceful_of_ready hi hready hroom hsize hno

/-- **Refilling**: a call ends well exactly if the first hole that fits is not at
address 0, or the bitmap has nothing to give, or it gives a page that is large enough
for the request and finds a descriptor. -/
theorem graceful_iff (hi : Inv s live L M) (hsize : size < 2 ^ 64) :
    Graceful s live L M size ↔ Supplied s L size := by
  unfold Supplied
  split
  case isTrue hw =>
    have hround : ∀ q ∈ L, (round4k size ≤ q.size ↔ size ≤ q.size) := fun q hq =>
      round4k_le_iff hw (hi.whole q hq).2.2
    have hsame : L.find? (fun q => decide (size ≤ q.size)) =
        L.find? (fun q => decide (round4k size ≤ q.size)) := by
      rw [← List.head?_filter, ← List.head?_filter,
        List.filter_congr fun q hq => decide_eq_decide.mpr (hround q hq)]
    rw [hsame]
    cases hfind : L.find? (fun q => decide (round4k size ≤ q.size)) with
    | some q =>
      have hzero : round4k size = 0 ↔ size = 0 := by
        rw [← Nat.le_zero, round4k_le_iff hw (by decide), Nat.le_zero]
      rw [graceful_iff_of_fits hi hsize hfind]
      split
      case isTrue h0 => exact hzero.trans ⟨fun h _ => h, fun h => h h0⟩
      case isFalse h0 => exact iff_of_true hw fun h => absurd h h0
    | none =>
      have hno : ∀ q ∈ L, q.size < round4k size := fun q hq =>
        Nat.not_le.mp (by simpa using List.find?_eq_none.mp hfind q hq)
      refine graceful_iff_of_not_fits hi ?_ fun q hq => ?_
      · rintro ⟨q, hq, hle⟩
        exact Nat.not_lt.mpr hle (hno q hq)
      · exact Nat.not_le.mp fun hle => Nat.not_lt.mpr ((hround q hq).mpr hle) (hno q hq)
  case isFalse hw =>
    have hzero := round4k_of_wraps hsize hw
    cases L with
    | nil =>
      have hlarge : ¬ size ≤ pageSize := by
        simp only [pageSize]
        omega
      rw [graceful_iff_of_not_fits hi (by simp [Serves]) (by simp)]
      simp [hlarge]
    | cons q L =>
      have hfind : (q :: L).find? (fun q => decide (round4k size ≤ q.size)) = some q :=
        List.find?_cons_of_pos (by simp [hzero])
      rw [graceful_iff_of_fits hi hsize hfind]
      split
      case isTrue h0 => exact iff_of_true hzero h0
      case isFalse h0 => exact iff_of_false hw h0

/-- The three free pages of a 128M machine, on which no hole is there yet. -/
def threeFree : State :=
  initKheap { Phymem.initPhyMem (64 * pageSize) with pgbits := [0xe0#64, 0#64], pages := 3 }

theorem threeFree_phys :
    Phymem.freePhyPages (Phymem.initPhyMem (64 * pageSize)) (5 * pageSize)
      (3 * pageSize) = .ok threeFree.phys := by
  decide

theorem threeFree_inv : Phymem.Inv threeFree.phys := by
  rcases Phymem.freePhyPages_cases (Phymem.inv_init _) threeFree_phys with
    ⟨h0, -⟩ | ⟨-, -, -, hfreed⟩
  · exact absurd h0 (by decide)
  · exact hfreed.inv

/-- With three free pages a request of 4K takes one of them. -/
theorem graceful_page : Graceful threeFree [] [] [] 0x1000 :=
  (graceful_iff (inv_initKheap threeFree_inv) (by decide)).mpr
    (.inr ⟨⟨by decide, 0, by decide, by decide⟩, by decide, by decide⟩)

/-- With three free pages a request of 4M takes all of them, and fails. -/
theorem refill_takes_all :
    ∃ t, allocKheap4k 5 threeFree 0x400000 = .ok (none, t) ∧ threeFree.phys.pages = 3 ∧
      t.phys.pages = 0 ∧ threeFree.heap4k.pfree = some 0 ∧ t.heap4k.pfree = some 3 :=
  ⟨_, rfl, rfl, rfl, rfl, rfl⟩

/-! ## A block that is given back at once -/

/-- Freeing the block that was just allocated returns, every request that the
holes could serve before the pair can be served after it, and no more
descriptors are in use. -/
def Reusable (t : State) (L : List Range) (size a : Nat) : Prop :=
  ∃ u L', freeKheap4k t a (round4k size) = .ok u ∧ u.heap4k.Reps L' ∧
    (∀ r, Serves L r → Serves L' r) ∧ L'.length ≤ L.length

/-- The first hole that fits has the size of the request. -/
def FitsExactly (L : List Range) (size : Nat) : Prop :=
  ∃ q, L.find? (fun q => decide (round4k size ≤ q.size)) = some q ∧ q.size = round4k size

theorem find4k_longer {n p : Nat} (hL : s.heap4k.Reps L) (hno : ¬ Serves L size)
    (h : find4k fuel n s (round4k size) = .ok (some p, t)) :
    ∃ L', t.heap4k.Reps L' ∧ L.length < L'.length := by
  induction n generalizing s L with
  | zero => cases h
  | succ n ih =>
    rw [find4k_of_not_serves hL hno] at h
    obtain ⟨⟨a, phys⟩, -, h⟩ := bind_eq_ok.mp h
    dsimp only at h
    split at h
    · cases h
    · obtain ⟨s₁, hfree, h⟩ := bind_eq_ok.mp h
      have hreps := (freeKheap4k_cases hfree).2.2 L hL
      have hlen := length_insertRange ⟨a, pageSize⟩ L
      by_cases hserves : Serves (insertRange ⟨a, pageSize⟩ L) size
      · cases n with
        | zero => cases h
        | succ n =>
          obtain ⟨q, -, -, -, hfind, -⟩ := find4k_of_serves hreps hserves fuel n
          rw [hfind] at h
          cases h
          exact ⟨_, hreps, by omega⟩
      · obtain ⟨L', hreps', hlt⟩ := ih hreps hserves h
        exact ⟨L', hreps', by omega⟩

theorem length_cutFirst {least n a : Nat} {L' : List Range}
    (h : cutFirst least n L = some (a, L')) : L.length ≤ L'.length + 1 := by
  obtain ⟨A, q, B, rfl, -, -, -, rfl⟩ := cutFirst_find h
  simp only [List.length_append, List.length_cons]
  split
  · omega
  · rw [List.length_cons]
    omega

theorem allocKheap4k_longer {a : Nat} (hi : Inv s live L M) (hno : ¬ Serves L size)
    (h : allocKheap4k fuel s size = .ok (some a, t)) :
    ∃ L', t.heap4k.Reps L' ∧ L.length ≤ L'.length := by
  rw [allocKheap4k] at h
  obtain ⟨⟨q, s₁⟩, hfind, h⟩ := bind_eq_ok.mp h
  cases q with
  | none => cases h
  | some q =>
    obtain ⟨L₁, hreps, hlt⟩ := find4k_longer hi.heap4k hno hfind
    obtain ⟨-, -, -, -, hfit⟩ := find4k_spec hi hfind
    obtain ⟨⟨b, h'⟩, htake, h⟩ := bind_eq_ok.mp h
    cases h
    obtain ⟨L', hcut, hreps'⟩ := hreps.take (hfit q rfl) htake
    have := length_cutFirst hcut
    exact ⟨L', hreps', by omega⟩

theorem Reusable.length_lt {a : Nat} {L' : List Range} (h : Reusable t L size a)
    (hL' : t.heap4k.Reps L') : L'.length < L.length := by
  obtain ⟨u, L₁, hfree, hreps, -, hle⟩ := h
  have hreps' := (freeKheap4k_cases hfree).2.2 L' hL'
  rw [hreps.unique hreps', length_insertRange] at hle
  exact hle

theorem serves_of_perm {L' : List Range} (h : ∀ x, x ∈ L → x ∈ L') {r : Nat}
    (hs : Serves L r) : Serves L' r := by
  obtain ⟨q, hq, hle⟩ := hs
  exact ⟨q, h q hq, hle⟩

/-- **Giving back**: the pair of calls leaves the heap as good as it was
exactly if the block was a whole hole. -/
theorem reusable_iff {a : Nat} (hi : Inv s live L M)
    (h : allocKheap4k fuel s size = .ok (some a, t)) :
    Reusable t L size a ↔ FitsExactly L size := by
  by_cases hserves : Serves L size
  · cases fuel with
    | zero => cases h
    | succ n =>
      obtain ⟨b, h', L', hok, hcut, hreps, hmax⟩ := allocKheap4k_of_serves hi.heap4k hserves n
      rw [hok] at h
      cases h
      obtain ⟨A, q, B, rfl, hfind, hle, rfl, rfl⟩ := cutFirst_find hcut
      constructor
      · intro hre
        refine ⟨q, hfind, ?_⟩
        -- a remainder would keep its descriptor
        by_contra hne
        have hlt := hre.length_lt hreps
        rw [if_neg (by omega)] at hlt
        simp at hlt
      · rintro ⟨q', hq', heq⟩
        obtain rfl : q = q' := Option.some.inj (hfind.symm.trans hq')
        rw [heq, Nat.sub_self, if_pos le_rfl] at hreps
        have hlen := hi.heap4k.length_le
        have hroom : h'.pfree ≠ none := by
          rw [hreps.pfree_ne_none, hmax]
          simp only [List.length_append, List.length_cons] at hlen ⊢
          omega
        obtain ⟨-, haddr, hsz⟩ := hi.whole q (by simp)
        obtain ⟨h'', hfree, hreps'⟩ := freeKheap4k_of_room (s := { s with heap4k := h' }) hreps
          hroom _ _ haddr (round4k_mod size)
        refine ⟨_, _, hfree, hreps', fun r hr => serves_of_perm (fun x hx => ?_) hr, ?_⟩
        · rw [mem_insertRange]
          simp only [List.mem_append, List.mem_cons] at hx ⊢
          rcases hx with hx | rfl | hx
          · exact .inr (.inl hx)
          · exact .inl (by rw [← heq])
          · exact .inr (.inr hx)
        · rw [length_insertRange]
          simp only [List.length_append, List.length_cons]
          omega
  · obtain ⟨L', hreps, hle⟩ := allocKheap4k_longer hi hserves h
    refine iff_of_false (fun hre => ?_) ?_
    · have := hre.length_lt hreps
      omega
    · rintro ⟨q, hfind, heq⟩
      exact hserves ⟨q, List.mem_of_find?_eq_some hfind, heq.ge⟩

theorem oneHole_inv : ∃ s, freeKheap4k (initKheap (Phymem.initPhyMem 0)) 0x100000 0x3000 = .ok s ∧
    Inv s [] [⟨0x100000, 0x3000⟩] [] := by
  have hstart := inv_initKheap (Phymem.inv_init 0)
  obtain ⟨h', hfree, -⟩ := freeKheap4k_of_room hstart.heap4k (by decide) 0x100000 0x3000
    (by decide) (by decide)
  refine ⟨_, hfree, (hstart.free4k (by decide) (fun b => ?_) hfree).1⟩
  have hbit : freeAt (Phymem.initPhyMem 0) b = 0 := by
    rw [freeAt, Phymem.initPhyMem_bit]
    rfl
  have hle := Range.has_le ⟨0x100000, 0x3000⟩ b
  simp only [cover_nil, initKheap, hbit]
  omega

/-- The heap has one hole of three pages, which is taken and given back. -/
theorem reusable_whole : ∃ s t, freeKheap4k (initKheap (Phymem.initPhyMem 0)) 0x100000 0x3000 = .ok s ∧
    allocKheap4k 1 s 0x3000 = .ok (some 0x100000, t) ∧
    Reusable t [⟨0x100000, 0x3000⟩] 0x3000 0x100000 := by
  obtain ⟨s, hs, hi⟩ := oneHole_inv
  have hserves : Serves [⟨0x100000, 0x3000⟩] 0x3000 := by decide
  obtain ⟨a, h', L', hok, hcut, -⟩ := allocKheap4k_of_serves hi.heap4k hserves 0
  obtain rfl : 0x100000 = a := congrArg Prod.fst (Option.some.inj hcut)
  exact ⟨s, _, hs, hok, (reusable_iff hi hok).mpr ⟨_, rfl, rfl⟩⟩

/-- One page of it is taken and given back: there are two holes then, and the
three pages cannot be had any more. -/
theorem giveBack_splits : ∃ s t u,
    freeKheap4k (initKheap (Phymem.initPhyMem 0)) 0x100000 0x3000 = .ok s ∧
    allocKheap4k 1 s 0x1000 = .ok (some 0x100000, t) ∧ freeKheap4k t 0x100000 0x1000 = .ok u ∧
    u.heap4k.Reps [⟨0x100000, 0x1000⟩, ⟨0x101000, 0x2000⟩] ∧
    ¬ Serves [⟨0x100000, 0x1000⟩, ⟨0x101000, 0x2000⟩] 0x3000 := by
  obtain ⟨s, hs, hi⟩ := oneHole_inv
  have hserves : Serves [⟨0x100000, 0x3000⟩] 0x1000 := by decide
  obtain ⟨a, h', L', hok, hcut, hreps, hmax⟩ := allocKheap4k_of_serves hi.heap4k hserves 0
  obtain ⟨rfl, rfl⟩ := Prod.mk.inj (Option.some.inj hcut)
  have hmax' : s.heap4k.max = 10 := by
    obtain rfl := Except.ok.inj hs
    rfl
  have hroom : h'.pfree ≠ none := by
    rw [hreps.pfree_ne_none, hmax, hmax']
    decide
  obtain ⟨h'', hfree, hreps'⟩ := freeKheap4k_of_room (s := { s with heap4k := h' }) hreps hroom
    0x100000 0x1000 (by decide) (by decide)
  exact ⟨s, _, _, hs, hok, hfree, hreps', by decide⟩

end Yaos.Kheap
