import Mathlib.Algebra.Group.Int.Defs
import Yaos.Multiboot.Iomem
import Yaos.Pgtable.Ioremap

/-!
# The I/O window (`init_page_map` in `arch/x86_64/multiboot.c`)

What the memory map leaves out is taken for device memory and mapped at
`IO_MEM_BASE` plus its address. `init_page_map` walks over the map: a gap of
less than a page, and the part of a longer gap up to its first page boundary,
go through `deal_reverse` to `on_iomem`, which records page numbers; the pages
that follow are mapped at once. The recorded pages are mapped at the end.

`Laid` is what mapping a set of pages does to the window, `Records` is which
pages a range makes `on_iomem` record.
-/

namespace Yaos.Multiboot

open Yaos.Lib Yaos.Pgtable
open Yaos.Phymem (pageSize)

/-! ## The code -/

/-- `if (OK != map_page_p2v(paddr, paddr + IO_MEM_BASE, ..)) panic(..);` -/
def mapIo (fuel : Nat) (pg : Pgtable.State) (paddr : Nat) : Outcome Pgtable.State := do
  let (code, pg) ← mapPageP2v fuel pg paddr (io2v paddr) ioFlags
  if code = codeOk then .ok pg else .error .panic

/-- A round of `remap_iomem`: a `long` is read as `ulong`. -/
def remapPage (fuel : Nat) (pg : Pgtable.State) (n : Int) : Outcome Pgtable.State :=
  let n := (n % 2 ^ 64).toNat
  if 0 < n then mapIo fuel pg (u64 ((n - 1) * pageSize)) else .ok pg

/-- `remap_iomem`. -/
def remapIomem (fuel : Nat) (pg : Pgtable.State) (ioRemapPages : List Int) :
    Outcome Pgtable.State :=
  ioRemapPages.foldlM (remapPage fuel) pg

/-- The loop over the whole pages of a gap. -/
def mapGap (fuel addr : Nat) : Nat → Pgtable.State → Nat → Outcome Pgtable.State
  | 0, _, _ => .error .spin
  | n + 1, pg, haddr =>
      if u64 (haddr + pageSize) < addr then do
        let pg ← mapIo fuel pg haddr
        mapGap fuel addr n pg (u64 (haddr + pageSize))
      else .ok pg

/-- `deal_reverse(addr, size, false)`. It calls itself with smaller sizes
only, and `on_iomem` calls itself once. -/
def defer (v : Reverse) (l : List Int) (addr size : Nat) : Outcome (List Int) := do
  let out ← dealReverse v false (size + 1) addr size
  out.foldlM (fun l p => onIomem (p.range.size + 1) 2 l p.range.addr p.range.size) l

/-- The reserved ranges, the recorded pages and the page tables. -/
structure Boot where
  rev : Reverse
  ioRemapPages : List Int
  pg : Pgtable.State

/-- `if (lastend & (PAGE_SIZE - 1)) deal_reverse(..);` -/
def deferHead (v : Reverse) (l : List Int) (lastend : Nat) : Outcome (List Int) :=
  if lastend % pageSize ≠ 0 then defer v l lastend (pageSize - lastend % pageSize) else .ok l

def gapStart (lastend : Nat) : Nat :=
  if lastend % pageSize ≠ 0 then u64 (lastend + pageSize) / pageSize * pageSize else lastend

/-- The gap from `lastend` to `addr`. -/
def onGap (fuel : Nat) (s : Boot) (lastend addr : Nat) : Outcome Boot :=
  if addr - lastend < pageSize then do
    let l ← defer s.rev s.ioRemapPages lastend (addr - lastend)
    .ok { s with ioRemapPages := l }
  else do
    let l ← deferHead s.rev s.ioRemapPages lastend
    let pg ← mapGap fuel addr (addr + 1) s.pg (gapStart lastend)
    .ok { s with ioRemapPages := l, pg := pg }

/-- An entry of the map, with the gap before it. -/
def onEntry (fuel : Nat) (s : Boot) (lastend : Nat) (r : Range) : Outcome Boot :=
  if lastend < r.addr then onGap fuel s lastend r.addr else .ok s

def scanMap (fuel : Nat) : Nat → Boot → List Range → Outcome Boot
  | _, s, [] => .ok s
  | lastend, s, r :: map => do
      let s ← onEntry fuel s lastend r
      scanMap fuel (u64 (r.addr + r.size)) s map

def reverseLow : Range := ⟨0, 0x10000⟩

/-- `init_page_map`, with the range of the kernel. -/
def initPageMap (fuel : Nat) (s : Boot) (kernel : Range) (map : List Range) : Outcome Boot := do
  let v ← addReverse s.rev reverseLow
  let v ← addReverse v kernel
  let s ← scanMap fuel 0 { s with rev := v } map
  let pg ← remapIomem fuel s.pg s.ioRemapPages
  .ok { s with pg := pg }

/-! ## Pages of the window -/

/-- Some pages were mapped, and no other page of the window. -/
structure Laid (s t : Pgtable.State) (A : Nat → Prop) : Prop where
  hit : ∀ p, A p → p < 2 ^ 27 → t.entry (io2v (p * pageSize)) = p * pageSize ||| ioFlags
  miss : ∀ p < 2 ^ 27, ¬ A p → t.entry (io2v (p * pageSize)) = s.entry (io2v (p * pageSize))

def Sound (s : Pgtable.State) (M : List Range) : Prop := ∃ live L, Pgtable.Inv s live L M

variable {s t u : Pgtable.State} {A B : Nat → Prop} {M : List Range} {fuel : Nat}

theorem Laid.none (s : Pgtable.State) (hA : ∀ p, ¬ A p) : Laid s s A :=
  ⟨fun p hp => absurd hp (hA p), fun _ _ _ => rfl⟩

theorem Laid.congr (h : Laid s t A) (hB : ∀ p, B p ↔ A p) : Laid s t B :=
  ⟨fun p hp => h.hit p ((hB p).mp hp), fun p hlt hp => h.miss p hlt (mt (hB p).mpr hp)⟩

theorem Laid.trans {C : Nat → Prop} (h : Laid s u A) (h' : Laid u t B)
    (hC : ∀ p, C p ↔ A p ∨ B p) : Laid s t C where
  hit p hp hlt := by
    by_cases hB : B p
    · exact h'.hit p hB hlt
    · rw [h'.miss p hlt hB]
      exact h.hit p (((hC p).mp hp).resolve_right hB) hlt
  miss p hlt hp := by
    rw [hC, not_or] at hp
    rw [h'.miss p hlt hp.2, h.miss p hlt hp.1]

theorem vpn_window_inj {p q : Nat} (hp : p < 2 ^ 27) (hq : q < 2 ^ 27)
    (h : vpn (io2v (p * pageSize)) = vpn (io2v (q * pageSize))) : p = q := by
  simp only [vpn, io2v, ioMemBase, pageSize] at h
  omega

theorem mapIo_laid {p : Nat} (hs : Sound s M) (hp : p < 2 ^ 27)
    (h : mapIo fuel s (p * pageSize) = .ok t) : Sound t M ∧ Laid s t (· = p) := by
  obtain ⟨live, L, hi⟩ := hs
  obtain ⟨⟨code, t'⟩, hm, h⟩ := bind_eq_ok.mp h
  dsimp only at h
  split at h
  case isFalse => cases h
  case isTrue hok =>
    cases h
    obtain ⟨live', L', hi', -, -, -, hcase⟩ := mapPageP2v_spec hi hm
    rcases hcase with ⟨-, hentry⟩ | ⟨hno, -⟩
    · refine ⟨⟨live', L', hi'⟩, fun q hq _ => ?_, fun q hlt hq => ?_⟩
      · rw [hentry, hq, if_pos rfl]
      · rw [hentry, if_neg fun heq => hq (vpn_window_inj hlt hp heq)]
    · cases hno.symm.trans hok

theorem mapGap_laid {addr haddr n : Nat} (hs : Sound s M) (hal : haddr % pageSize = 0)
    (hend : addr ≤ 2 ^ 35) (hlt : haddr ≤ 2 ^ 35) (h : mapGap fuel addr n s haddr = .ok t) :
    Sound t M ∧ Laid s t fun p => haddr ≤ p * pageSize ∧ p * pageSize + pageSize < addr := by
  induction n generalizing s haddr with
  | zero => cases h
  | succ n ih =>
    have hnext : u64 (haddr + pageSize) = haddr + pageSize := by
      apply u64_of_lt
      simp only [pageSize]
      omega
    rw [mapGap, hnext] at h
    split at h
    case isTrue hin =>
      obtain ⟨u, hu, h⟩ := bind_eq_ok.mp h
      have hbase : haddr / pageSize * pageSize = haddr :=
        Nat.div_mul_cancel (Nat.dvd_of_mod_eq_zero hal)
      rw [← hbase] at hu
      obtain ⟨hsu, hone⟩ := mapIo_laid hs (by simp only [pageSize]; omega) hu
      obtain ⟨hst, hrest⟩ := ih hsu (by simpa using hal) (by omega) h
      refine ⟨hst, hone.trans hrest fun p => ?_⟩
      simp only [pageSize] at *
      omega
    case isFalse hout =>
      cases h
      refine ⟨hs, Laid.none _ fun p hp => ?_⟩
      omega

theorem remapPage_eq {n : Int} (hn : 0 < n ∧ n ≤ 2 ^ 30 + 1) :
    remapPage fuel s n = mapIo fuel s ((n - 1).toNat * pageSize) := by
  obtain ⟨p, rfl⟩ : ∃ p : Nat, n = p + 1 := ⟨(n - 1).toNat, by omega⟩
  have hword : (((p : Int) + 1) % 2 ^ 64).toNat = p + 1 := by omega
  have hpage : ((p : Int) + 1 - 1).toNat = p := by omega
  have haddr : u64 (p * pageSize) = p * pageSize := by
    apply u64_of_lt
    simp only [pageSize]
    omega
  rw [remapPage, hword, if_pos (Nat.succ_pos p), Nat.add_sub_cancel, haddr, hpage]

theorem remapIomem_laid {l : List Int} (hs : Sound s M) (hl : ∀ n ∈ l, 0 < n ∧ n ≤ 2 ^ 27)
    (h : remapIomem fuel s l = .ok t) : Sound t M ∧ Laid s t fun p => ((p : Int) + 1) ∈ l := by
  rw [remapIomem] at h
  induction l generalizing s with
  | nil =>
    cases h
    exact ⟨hs, Laid.none _ fun p => List.not_mem_nil⟩
  | cons n l ih =>
    obtain ⟨hpos, hle⟩ := hl n List.mem_cons_self
    rw [List.foldlM_cons, remapPage_eq ⟨hpos, by omega⟩] at h
    obtain ⟨u, hu, h⟩ := bind_eq_ok.mp h
    obtain ⟨hsu, hone⟩ := mapIo_laid hs (by omega) hu
    obtain ⟨hst, hrest⟩ := ih hsu (fun m hm => hl m (List.mem_cons_of_mem _ hm)) h
    refine ⟨hst, hone.trans hrest fun q => ?_⟩
    rw [List.mem_cons]
    exact or_congr_left (by omega)

/-! ## Recorded pages -/

/-- A page and a range have bytes in common. -/
def Meets (p : Nat) (r : Range) : Prop :=
  p * pageSize < r.addr + r.size ∧ r.addr < p * pageSize + pageSize

instance (p : Nat) (r : Range) : Decidable (Meets p r) := inferInstanceAs (Decidable (_ ∧ _))

variable {l l' : List Int} {addr size : Nat} {e : Int}

theorem meets_iff {p : Nat} : Meets p ⟨addr, size⟩ ↔ p ∈ pagesOf addr size := by
  rw [Meets, pagesOf, List.mem_range'_1]
  simp only [pageSize]
  omega

theorem onIomem_mem {loops n : Nat} (h : onIomem loops n l addr size = .ok l') (h0 : addr ≠ 0)
    (hpos : 0 < size) (hend : addr + size ≤ 2 ^ 51) (hloops : size / pageSize < loops) (hn : 2 ≤ n) :
    e ∈ l' ↔ e ∈ l ∨ ∃ p : Nat, e = p + 1 ∧ Meets p ⟨addr, size⟩ := by
  rw [onIomem_eq h0 hpos hend hloops hn] at h
  rw [recordAll_mem h (pagesOf_lt hpos hend)]
  simp only [meets_iff, and_comm]

/-! ## What `deal_reverse` passes on -/

/-- A region of `n` bytes that is split moves up by less than `2 * n` and
gets shorter. -/
theorem dealReverse_passed {v : Reverse} {ismem : Bool} {a n B : Nat} {out : List Passed}
    (hv : v.Recorded) (h : dealReverse v ismem fuel a n = .ok out) (hpos : 0 < n)
    (hend : a + n * n + n ≤ B) (hB : B < 2 ^ 63) : ∀ q ∈ out, 0 < q.range.size ∧
      q.range.addr + q.range.size ≤ B ∧ firstHit v.revmem q.range.addr q.range.size = none := by
  induction fuel generalizing a n out with
  | zero => cases h
  | succ fuel ih =>
    have hu : u64 (a + n) = a + n := u64_of_lt (by omega)
    cases hhit : firstHit v.revmem a n with
    | none =>
      rw [dealReverse_clear ismem fuel hhit] at h
      cases h
      intro q hq
      rw [List.mem_singleton.mp hq]
      exact ⟨hpos, by dsimp only; omega, hhit⟩
    | some r =>
      obtain ⟨-, hr, h₁, h₂, -⟩ := firstHit_some hv hhit
      rw [hu] at h₂
      by_cases hfront : r.addr ≤ a
      · by_cases hwhole : a + n ≤ r.addr + r.size
        · rw [dealReverse_whole ismem fuel hv hhit hfront (by omega)] at h
          cases h
          intro q hq
          cases hq
        · rw [dealReverse_front ismem fuel hv hhit hfront (by omega),
            sub64_of_le (by omega) (by omega)] at h
          obtain ⟨m, hm⟩ : ∃ m, n + a = r.addr + r.size + m := ⟨_, (Nat.add_sub_of_le (by omega)).symm⟩
          rw [hm, Nat.add_sub_cancel_left] at h
          have hsq : m * m ≤ n * n := Nat.mul_self_le_mul_self (by omega)
          exact ih h (by omega) (by omega)
      · rw [dealReverse_split ismem fuel hv hhit hfront, sub64_of_le (by omega) (by omega),
          sub64_of_le (by omega) (by omega), u64_of_lt (by omega)] at h
        obtain ⟨low, hlow, h⟩ := bind_eq_ok.mp h
        obtain ⟨high, hhigh, h⟩ := bind_eq_ok.mp h
        cases h
        obtain ⟨d, hd⟩ : ∃ d, r.addr = a + d := ⟨_, (Nat.add_sub_of_le (by omega)).symm⟩
        obtain ⟨m, hm⟩ : ∃ m, n = d + m := ⟨_, (Nat.add_sub_of_le (by omega)).symm⟩
        subst hm
        rw [hd, Nat.add_sub_cancel_left] at hlow
        rw [hd, show d + m + a - (a + d) = m by omega] at hhigh
        have hsq : (d + m) * (d + m) = d * d + 2 * (d * m) + m * m := by
          rw [Nat.add_mul, Nat.mul_add, Nat.mul_add, Nat.mul_comm m d]
          omega
        have hdd : d ≤ d * d := Nat.le_mul_self d
        have hdm : m ≤ d * m := Nat.le_mul_of_pos_left m (by omega)
        intro q hq
        rcases List.mem_append.mp hq with hq | hq
        · exact ih hlow (by omega) (by omega) q hq
        · exact ih hhigh (by omega) (by omega) q hq

/-- The pages that `deal_reverse` makes `on_iomem` record for a range. -/
def Records (v : Reverse) (d : Range) (p : Nat) : Prop :=
  ∃ out, dealReverse v false (d.size + 1) d.addr d.size = .ok out ∧ ∃ q ∈ out, Meets p q.range

/-- Page numbers of the window, counted from 1. -/
def Numbers (l : List Int) : Prop := ∀ n ∈ l, 0 < n ∧ n ≤ 2 ^ 27

def Adds (l l' : List Int) (A : Nat → Prop) : Prop :=
  Numbers l' ∧ ∀ p : Nat, (p : Int) + 1 ∈ l' ↔ (p : Int) + 1 ∈ l ∨ A p

theorem Adds.none (hl : Numbers l) (hA : ∀ p, ¬ A p) : Adds l l A :=
  ⟨hl, fun p => by simp [hA p]⟩

theorem Adds.trans {C : Nat → Prop} {l₁ : List Int} (h : Adds l l₁ A) (h' : Adds l₁ l' B)
    (hC : ∀ p, C p ↔ A p ∨ B p) : Adds l l' C :=
  ⟨h'.1, fun p => by rw [h'.2, h.2, hC, or_assoc]⟩

theorem onIomem_adds (hl : Numbers l) (h : onIomem (size + 1) 2 l addr size = .ok l')
    (h0 : addr ≠ 0) (hpos : 0 < size) (hend : addr + size ≤ 2 ^ 48) :
    Adds l l' fun p => Meets p ⟨addr, size⟩ := by
  have hmem : ∀ e, e ∈ l' ↔ e ∈ l ∨ ∃ p : Nat, e = p + 1 ∧ Meets p ⟨addr, size⟩ := fun e =>
    onIomem_mem h h0 hpos (by omega) (Nat.lt_succ_of_le (Nat.div_le_self _ _)) (Nat.le_refl _)
  refine ⟨fun n hn => ?_, fun p => ?_⟩
  · rcases (hmem n).mp hn with hn | ⟨p, rfl, hp, -⟩
    · exact hl n hn
    · simp only [pageSize] at hp
      omega
  · rw [hmem]
    refine or_congr_right ⟨?_, fun hp => ⟨p, rfl, hp⟩⟩
    rintro ⟨q, hq, hm⟩
    obtain rfl : p = q := by omega
    exact hm

theorem onIomems_adds {out : List Passed} (hl : Numbers l)
    (h : out.foldlM (fun l p => onIomem (p.range.size + 1) 2 l p.range.addr p.range.size) l = .ok l')
    (hout : ∀ q ∈ out, q.range.addr ≠ 0 ∧ 0 < q.range.size ∧
      q.range.addr + q.range.size < 2 ^ 48) :
    Adds l l' fun p => ∃ q ∈ out, Meets p q.range := by
  induction out generalizing l with
  | nil =>
    cases h
    exact .none hl fun p => by simp
  | cons q out ih =>
    rw [List.foldlM_cons] at h
    obtain ⟨l₁, hone, h⟩ := bind_eq_ok.mp h
    obtain ⟨h0, hpos, hend⟩ := hout q List.mem_cons_self
    have hfirst := onIomem_adds hl hone h0 hpos (by omega)
    refine hfirst.trans (ih hfirst.1 h fun q hq => hout q (List.mem_cons_of_mem _ hq)) fun p => ?_
    simp only [List.mem_cons, exists_eq_or_imp]

theorem defer_adds {v : Reverse} (hv : v.Recorded) (hlow : reverseLow ∈ v.revmem)
    (hl : Numbers l) (hpos : 0 < size) (hend : addr + size * size + size < 2 ^ 48)
    (h : defer v l addr size = .ok l') : Adds l l' (Records v ⟨addr, size⟩) := by
  obtain ⟨out, hout, h⟩ := bind_eq_ok.mp h
  have hpassed := dealReverse_passed hv hout hpos (Nat.le_refl _) (by omega)
  have hadds := onIomems_adds hl h fun q hq => by
    obtain ⟨hqpos, hqend, hclear⟩ := hpassed q hq
    refine ⟨fun h0 => ?_, hqpos, by omega⟩
    -- the low 64K are reserved, so `on_iomem` has no range that it ignores
    have hzero : 0 ∈ Range.mk q.range.addr q.range.size := ⟨Nat.le_of_eq h0, Nat.lt_add_left _ hqpos⟩
    exact apart_of_firstHit_none hv.fits (by omega) hclear hzero hlow (by decide)
  refine ⟨hadds.1, fun p => (hadds.2 p).trans (or_congr_right ⟨fun h => ⟨out, hout, h⟩, ?_⟩)⟩
  rintro ⟨out', hout', h⟩
  cases hout.symm.trans hout'
  exact h

/-! ## The gaps -/

/-- The gaps of a memory map, from an address on. -/
def gaps (lastend : Nat) : List Range → List Range
  | [] => []
  | r :: map =>
      (if lastend < r.addr then [⟨lastend, r.addr - lastend⟩] else []) ++ gaps (r.addr + r.size) map

/-- The part of a gap that goes through `deal_reverse`. -/
def deferred (g : Range) : List Range :=
  if g.size < pageSize then [g]
  else if g.addr % pageSize ≠ 0 then [⟨g.addr, pageSize - g.addr % pageSize⟩]
  else []

def Whole (g : Range) (p : Nat) : Prop :=
  pageSize ≤ g.size ∧ g.addr ≤ p * pageSize ∧ p * pageSize + pageSize < g.addr + g.size

variable {b c : Boot} {lastend : Nat}

/-- What a step does to a boot state: some pages are recorded, some are mapped. -/
structure Does (b c : Boot) (M : List Range) (A B : Nat → Prop) : Prop where
  rev : c.rev = b.rev
  adds : Adds b.ioRemapPages c.ioRemapPages A
  sound : Sound c.pg M
  laid : Laid b.pg c.pg B

/-- What the walk over the map relies on. -/
structure Boot.Ready (b : Boot) (M : List Range) : Prop where
  rev : b.rev.Recorded
  low : reverseLow ∈ b.rev.revmem
  numbers : Numbers b.ioRemapPages
  sound : Sound b.pg M

theorem Does.ready (h : Does b c M A B) (hb : b.Ready M) : c.Ready M :=
  ⟨h.rev ▸ hb.rev, h.rev ▸ hb.low, h.adds.1, h.sound⟩

/-- The deferred part of a gap is short enough for `defer_adds`. -/
theorem deferred_short {d g : Range} (hd : d ∈ deferred g) (hpos : 0 < g.size)
    (hend : g.addr + g.size ≤ 2 ^ 35) :
    0 < d.size ∧ d.addr + d.size * d.size + d.size < 2 ^ 48 := by
  have hshort : d.addr = g.addr ∧ 0 < d.size ∧ d.size < pageSize := by
    rw [deferred] at hd
    split at hd
    case isTrue hsmall =>
      rw [List.mem_singleton.mp hd]
      exact ⟨rfl, hpos, hsmall⟩
    case isFalse =>
      split at hd
      case isTrue hlow =>
        rw [List.mem_singleton.mp hd]
        refine ⟨rfl, ?_, ?_⟩ <;> simp only [pageSize] at * <;> omega
      case isFalse => cases hd
  obtain ⟨haddr, hdpos, hlt⟩ := hshort
  have hsq : d.size * d.size ≤ pageSize * pageSize := Nat.mul_self_le_mul_self (by omega)
  simp only [pageSize] at *
  omega

theorem gapStart_spec (hend : lastend ≤ 2 ^ 35) :
    gapStart lastend % pageSize = 0 ∧ lastend ≤ gapStart lastend ∧
      gapStart lastend < lastend + pageSize := by
  rw [gapStart]
  split <;> simp only [u64, pageSize] at * <;> omega

theorem onGap_does (hb : b.Ready M) (hlt : lastend < addr) (hend : addr ≤ 2 ^ 35)
    (h : onGap fuel b lastend addr = .ok c) :
    Does b c M (fun p => ∃ d ∈ deferred ⟨lastend, addr - lastend⟩, Records b.rev d p)
      (Whole ⟨lastend, addr - lastend⟩) := by
  have hshort := fun d hd => deferred_short (d := d) (g := ⟨lastend, addr - lastend⟩) hd
    (by dsimp only; omega) (by dsimp only; omega)
  rw [onGap] at h
  rw [deferred] at hshort ⊢
  dsimp only at hshort ⊢
  split at h
  case isTrue hsmall =>
    obtain ⟨l, hl, h⟩ := bind_eq_ok.mp h
    cases h
    rw [if_pos hsmall] at hshort ⊢
    obtain ⟨hpos, hsq⟩ := hshort _ (List.mem_singleton_self _)
    simp only [List.mem_singleton, exists_eq_left]
    exact ⟨rfl, defer_adds hb.rev hb.low hb.numbers hpos hsq hl, hb.sound,
      Laid.none _ fun p hp => absurd hp.1 (by dsimp only; omega)⟩
  case isFalse hbig =>
    obtain ⟨l, hl, h⟩ := bind_eq_ok.mp h
    obtain ⟨pg, hpg, h⟩ := bind_eq_ok.mp h
    cases h
    obtain ⟨hal, hge, hstart⟩ := gapStart_spec (show lastend ≤ 2 ^ 35 by omega)
    obtain ⟨hsound, hlaid⟩ := mapGap_laid hb.sound hal hend (by omega) hpg
    have hwhole : Laid b.pg pg (Whole ⟨lastend, addr - lastend⟩) := by
      refine hlaid.congr fun p => ?_
      simp only [Whole, pageSize] at *
      omega
    rw [if_neg hbig] at hshort ⊢
    refine ⟨rfl, ?_, hsound, hwhole⟩
    rw [deferHead] at hl
    split at hl
    case isTrue hlow =>
      rw [if_pos hlow] at hshort ⊢
      obtain ⟨hpos, hsq⟩ := hshort _ (List.mem_singleton_self _)
      simp only [List.mem_singleton, exists_eq_left]
      exact defer_adds hb.rev hb.low hb.numbers hpos hsq hl
    case isFalse hlow =>
      rw [if_neg hlow]
      cases hl
      exact .none hb.numbers fun p => by simp

theorem scanMap_does {map : List Range} (hb : b.Ready M)
    (hmap : ∀ r ∈ map, r.addr + r.size ≤ 2 ^ 35) (h : scanMap fuel lastend b map = .ok c) :
    Does b c M (fun p => ∃ g ∈ gaps lastend map, ∃ d ∈ deferred g, Records b.rev d p)
      (fun p => ∃ g ∈ gaps lastend map, Whole g p) := by
  induction map generalizing b lastend with
  | nil =>
    cases h
    exact ⟨rfl, .none hb.numbers fun p => by simp [gaps], hb.sound,
      Laid.none _ fun p => by simp [gaps]⟩
  | cons r map ih =>
    rw [scanMap] at h
    obtain ⟨b₁, hone, h⟩ := bind_eq_ok.mp h
    have hr := hmap r List.mem_cons_self
    have htail := fun q hq => hmap q (List.mem_cons_of_mem r hq)
    rw [u64_of_lt (by omega)] at h
    rw [gaps]
    rw [onEntry] at hone
    split at hone
    case isTrue hgap =>
      have hfirst := onGap_does hb hgap (by omega) hone
      have hrest := ih (hfirst.ready hb) htail h
      rw [hfirst.rev] at hrest
      rw [if_pos hgap]
      simp only [List.cons_append, List.nil_append, List.mem_cons, exists_eq_or_imp]
      exact ⟨hrest.rev.trans hfirst.rev, hfirst.adds.trans hrest.adds fun p => Iff.rfl,
        hrest.sound, hfirst.laid.trans hrest.laid fun p => Iff.rfl⟩
    case isFalse hno =>
      cases hone
      rw [if_neg hno]
      exact ih hb htail h

def Reverse.add (v : Reverse) (r : Range) : Reverse :=
  ⟨v.revmem ++ [r], if v.maxReverseAddr < u64 (r.addr + r.size) then u64 (r.addr + r.size)
    else v.maxReverseAddr⟩

theorem addReverse_eq_ok {v w : Reverse} {r : Range} (h : addReverse v r = .ok w) : w = v.add r := by
  rw [addReverse] at h
  split at h
  case isTrue => cases h
  case isFalse =>
    cases h
    rfl

/-- The reserved ranges of `init_page_map`. -/
def Boot.table (b : Boot) (kernel : Range) : Reverse := (b.rev.add reverseLow).add kernel

/-- The pages of the window that `init_page_map` maps. -/
def Maps (b : Boot) (kernel : Range) (map : List Range) (p : Nat) : Prop :=
  (∃ g ∈ gaps 0 map, Whole g p) ∨ (p : Int) + 1 ∈ b.ioRemapPages ∨
    ∃ g ∈ gaps 0 map, ∃ d ∈ deferred g, Records (b.table kernel) d p

theorem initPageMap_does {kernel : Range} {map : List Range} (hrev : b.rev.Recorded)
    (hk : kernel.addr + kernel.size < 2 ^ 64) (hl : Numbers b.ioRemapPages) (hs : Sound b.pg M)
    (hmap : ∀ r ∈ map, r.addr + r.size ≤ 2 ^ 35) (h : initPageMap fuel b kernel map = .ok c) :
    c.rev = b.table kernel ∧ Sound c.pg M ∧ Laid b.pg c.pg (Maps b kernel map) := by
  obtain ⟨v₁, hv₁, h⟩ := bind_eq_ok.mp h
  obtain ⟨v₂, hv₂, h⟩ := bind_eq_ok.mp h
  obtain ⟨b₁, hscan, h⟩ := bind_eq_ok.mp h
  obtain ⟨pg, hpg, h⟩ := bind_eq_ok.mp h
  cases h
  obtain ⟨hmem₁, hrec₁⟩ := addReverse_cases hv₁ (by decide) hrev
  obtain ⟨hmem₂, hrec₂⟩ := addReverse_cases hv₂ hk hrec₁
  have hv : v₂ = b.table kernel := by
    rw [addReverse_eq_ok hv₂, addReverse_eq_ok hv₁, Boot.table]
  have hready : Boot.Ready { b with rev := v₂ } M := ⟨hrec₂, by simp [hmem₂, hmem₁], hl, hs⟩
  have hdoes := scanMap_does hready hmap hscan
  obtain ⟨hsound, hlaid⟩ := remapIomem_laid hdoes.sound hdoes.adds.1 hpg
  refine ⟨hdoes.rev.trans hv, hsound, hdoes.laid.trans hlaid fun p => ?_⟩
  rw [hdoes.adds.2, Maps, ← hv]

/-! ## Recorded regions -/

/-- A region of device memory, within the page numbers that fit an `int`. -/
def IoRegion (r : Range) : Prop := r.addr ≠ 0 ∧ 0 < r.size ∧ r.addr + r.size ≤ 2 ^ 51

/-- `on_iomem` for one region after the other. -/
def recordRegions (l : List Int) (rs : List Range) : Outcome (List Int) :=
  rs.foldlM (fun l r => onIomem (r.size + 1) 2 l r.addr r.size) l

/-- The physical addresses that `remap_iomem` maps. -/
def remapped (l : List Int) : List Nat := l.map fun n => (n - 1).toNat * pageSize

/-- Page numbers as `on_iomem` records them. -/
def Recorded (l : List Int) : Prop := l.Nodup ∧ ∀ n ∈ l, 0 < n ∧ n ≤ 2 ^ 30 + 1

theorem onIomem_record {r : Range} (h : onIomem (r.size + 1) 2 l r.addr r.size = .ok l')
    (hr : IoRegion r) (hl : Recorded l) :
    Recorded l' ∧ ∀ e, e ∈ l' ↔ e ∈ l ∨ ∃ a ∈ r, e = ((a / pageSize : Nat) : Int) + 1 := by
  obtain ⟨h0, hpos, hend⟩ := hr
  rw [onIomem_eq h0 hpos hend (Nat.lt_succ_of_le (Nat.div_le_self _ _)) (Nat.le_refl _)] at h
  have hlt := pagesOf_lt hpos hend
  have hmem : ∀ e, e ∈ l' ↔ e ∈ l ∨ ∃ a ∈ r, e = ((a / pageSize : Nat) : Int) + 1 := by
    intro e
    rw [recordAll_mem h hlt]
    refine or_congr_right ⟨?_, ?_⟩
    · rintro ⟨p, hp, rfl⟩
      obtain ⟨a, hlow, hhigh, rfl⟩ := (mem_pagesOf hpos).mp hp
      exact ⟨a, ⟨hlow, hhigh⟩, rfl⟩
    · rintro ⟨a, ⟨hlow, hhigh⟩, rfl⟩
      exact ⟨_, (mem_pagesOf hpos).mpr ⟨a, hlow, hhigh, rfl⟩, rfl⟩
  refine ⟨⟨recordAll_nodup h hlt hl.1, fun n hn => ?_⟩, hmem⟩
  rcases (hmem n).mp hn with hn | ⟨a, ⟨-, ha⟩, rfl⟩
  · exact hl.2 n hn
  · simp only [pageSize]
    omega

theorem recordRegions_spec {rs : List Range} (h : recordRegions l rs = .ok l')
    (hrs : ∀ r ∈ rs, IoRegion r) (hl : Recorded l) :
    Recorded l' ∧ ∀ e, e ∈ l' ↔ e ∈ l ∨ ∃ r ∈ rs, ∃ a ∈ r, e = ((a / pageSize : Nat) : Int) + 1 := by
  induction rs generalizing l with
  | nil =>
    cases h
    exact ⟨hl, by simp⟩
  | cons r rs ih =>
    rw [recordRegions, List.foldlM_cons] at h
    obtain ⟨l₁, hone, h⟩ := bind_eq_ok.mp h
    obtain ⟨hr, hrs⟩ := List.forall_mem_cons.mp hrs
    obtain ⟨hl₁, hfirst⟩ := onIomem_record hone hr hl
    obtain ⟨hl', hrest⟩ := ih h hrs hl₁
    refine ⟨hl', fun e => ?_⟩
    rw [hrest, hfirst, or_assoc, List.exists_mem_cons_iff]

theorem remapIomem_eq (hl : ∀ n ∈ l, 0 < n ∧ n ≤ 2 ^ 30 + 1) (s : Pgtable.State) :
    remapIomem fuel s l = (remapped l).foldlM (mapIo fuel) s := by
  rw [remapIomem]
  induction l generalizing s with
  | nil => rfl
  | cons n l ih =>
    obtain ⟨hn, hl⟩ := List.forall_mem_cons.mp hl
    rw [List.foldlM_cons, remapPage_eq hn, remapped, List.map_cons, List.foldlM_cons]
    exact congrArg _ (funext fun s => ih hl s)

theorem nodup_remapped (hl : Recorded l) : (remapped l).Nodup := by
  refine hl.1.map_on fun a ha b hb heq => ?_
  have hpos := (hl.2 a ha).1
  have hpos' := (hl.2 b hb).1
  simp only [pageSize] at heq
  omega

theorem mem_remapped (hl : Recorded l) {x : Nat} :
    x ∈ remapped l ↔ ∃ p : Nat, (p : Int) + 1 ∈ l ∧ x = p * pageSize := by
  rw [remapped, List.mem_map]
  constructor
  · rintro ⟨n, hn, rfl⟩
    have hpos := (hl.2 n hn).1
    refine ⟨(n - 1).toNat, ?_, rfl⟩
    rwa [show ((n - 1).toNat : Int) + 1 = n by omega]
  · rintro ⟨p, hp, rfl⟩
    exact ⟨_, hp, by rw [Int.add_sub_cancel, Int.toNat_natCast]⟩

theorem mem_remapped_regions {rs : List Range} (hrs : ∀ r ∈ rs, IoRegion r)
    (h : recordRegions [] rs = .ok l) {x : Nat} :
    x ∈ remapped l ↔ ∃ r ∈ rs, ∃ a ∈ r, x = a / pageSize * pageSize := by
  obtain ⟨hl, hmem⟩ := recordRegions_spec h hrs ⟨List.nodup_nil, by simp⟩
  rw [mem_remapped hl]
  constructor
  · rintro ⟨p, hp, rfl⟩
    rcases (hmem _).mp hp with hnil | ⟨r, hr, a, ha, heq⟩
    · cases hnil
    · exact ⟨r, hr, a, ha, by rw [show p = a / pageSize by omega]⟩
  · rintro ⟨r, hr, a, ha, rfl⟩
    exact ⟨_, (hmem _).mpr (.inr ⟨r, hr, a, ha, rfl⟩), rfl⟩

/-- With a directory for each page the calls of `map_page_p2v` all return OK. -/
theorem mapIos_of_directories {pages : List Nat} (hs : Sound s M)
    (hpages : ∀ x ∈ pages, x % 0x1000 = 0 ∧ s.Directory (io2v x)) :
    ∃ t, pages.foldlM (mapIo fuel) s = .ok t := by
  induction pages generalizing s with
  | nil => exact ⟨s, rfl⟩
  | cons x pages ih =>
    obtain ⟨⟨hal, hdir⟩, hpages⟩ := List.forall_mem_cons.mp hpages
    obtain ⟨live, L, hi⟩ := hs
    obtain ⟨u, hu⟩ : ∃ u, mapPageP2v fuel s x (io2v x) ioFlags = .ok (codeOk, u) :=
      ⟨_, mapPageP2v_present hi.tree.root_pos hal (by decide) hdir⟩
    obtain ⟨live', L', hi', -⟩ := mapPageP2v_spec hi hu
    have hone : mapIo fuel s x = .ok u := by
      rw [mapIo, hu]
      rfl
    rw [List.foldlM_cons, hone, ok_bind]
    exact ih ⟨live', L', hi'⟩ fun y hy => ⟨(hpages y hy).1, directory_kept hi hu (hpages y hy).2⟩

/-- What `remap_iomem` does to the tables after the regions have been recorded. With
the directories there it does not panic; and a page of the window is translated to
itself afterwards if it holds a byte of a region, and as before if not. Above 2^48
the addresses of the window come round. -/
def Remaps (rs : List Range) (l : List Int) : Prop :=
  ∀ fuel pg M, Sound pg M →
    ((∀ r ∈ rs, ∀ a ∈ r, pg.Directory (io2v (a / pageSize * pageSize))) →
      ∃ t, remapIomem fuel pg l = .ok t) ∧
    ((∀ r ∈ rs, r.addr + r.size ≤ 2 ^ 48) → ∀ t, remapIomem fuel pg l = .ok t →
      Sound t M ∧ Laid pg t fun p => ∃ r ∈ rs, ∃ a ∈ r, p = a / pageSize)

theorem remaps_of_recorded {rs : List Range} (hrs : ∀ r ∈ rs, IoRegion r)
    (h : recordRegions [] rs = .ok l) : Remaps rs l := by
  intro fuel pg M hs
  obtain ⟨hl, hmem⟩ := recordRegions_spec h hrs ⟨List.nodup_nil, by simp⟩
  refine ⟨fun hdir => ?_, fun hend t ht => ?_⟩
  · rw [remapIomem_eq hl.2]
    refine mapIos_of_directories hs fun x hx => ?_
    obtain ⟨r, hr, a, ha, rfl⟩ := (mem_remapped_regions hrs h).mp hx
    refine ⟨?_, hdir r hr a ha⟩
    simp only [pageSize]
    omega
  · have hnumbers : Numbers l := by
      intro n hn
      rcases (hmem n).mp hn with hnil | ⟨r, hr, a, ⟨-, ha⟩, rfl⟩
      · cases hnil
      · have := hend r hr
        simp only [pageSize]
        omega
    obtain ⟨hst, hlaid⟩ := remapIomem_laid hs hnumbers ht
    refine ⟨hst, hlaid.congr fun p => ?_⟩
    rw [hmem]
    constructor
    · rintro ⟨r, hr, a, ha, rfl⟩
      exact .inr ⟨r, hr, a, ha, rfl⟩
    · rintro (hnil | ⟨r, hr, a, ha, heq⟩)
      · cases hnil
      · exact ⟨r, hr, a, ha, by omega⟩

/-- **The pages of a region are recorded**, each once; those of the recorded regions
are what `map_page_p2v` is called for at the end, and what is mapped by it. -/
theorem on_iomem_exact :
    (∀ (l : List Int) (addr size : Nat), addr ≠ 0 → 0 < size → addr + size ≤ 2 ^ 51 → l.Nodup →
      Room l (pagesOf addr size) → ∃ l' : List Int, l'.Nodup ∧
        (∀ loops depth, size / pageSize < loops → 2 ≤ depth →
          onIomem loops depth l addr size = .ok l') ∧
        ∀ e, e ∈ l' ↔ e ∈ l ∨ ∃ a, addr ≤ a ∧ a < addr + size ∧ e = ((a / pageSize : Nat) : Int) + 1) ∧
    ∀ (rs : List Range) (l : List Int), (∀ r ∈ rs, IoRegion r) → recordRegions [] rs = .ok l →
      ∃ pages : List Nat, pages.Nodup ∧
        (∀ x, x ∈ pages ↔ ∃ r ∈ rs, ∃ a ∈ r, x = a / pageSize * pageSize) ∧
        (∀ fuel pg, remapIomem fuel pg l = pages.foldlM (mapIo fuel) pg) ∧ Remaps rs l := by
  constructor
  · intro l addr size h0 hpos hend hl hroom
    have hlt := pagesOf_lt hpos hend
    obtain ⟨l', hrecord⟩ := recordAll_ok hlt nodup_pagesOf hroom
    refine ⟨l', recordAll_nodup hrecord hlt hl, fun loops depth hloops hdepth => ?_, fun e => ?_⟩
    · rw [onIomem_eq h0 hpos hend hloops hdepth, hrecord]
    · rw [recordAll_mem hrecord hlt]
      simp only [mem_pagesOf hpos]
      refine or_congr_right ⟨?_, ?_⟩
      · rintro ⟨p, ⟨a, hlow, hhigh, rfl⟩, rfl⟩
        exact ⟨a, hlow, hhigh, rfl⟩
      · rintro ⟨a, hlow, hhigh, rfl⟩
        exact ⟨_, ⟨a, hlow, hhigh, rfl⟩, rfl⟩
  · intro rs l hrs h
    obtain ⟨hl, -⟩ := recordRegions_spec h hrs ⟨List.nodup_nil, by simp⟩
    exact ⟨remapped l, nodup_remapped hl, fun x => mem_remapped_regions hrs h,
      fun fuel pg => remapIomem_eq hl.2 pg, remaps_of_recorded hrs h⟩

/-- A region of 3 pages that begins and ends inside a page, with its first page
recorded already, then `remap_iomem` for two regions. -/
theorem on_iomem_exact_unaligned :
    (∃ l' : List Int, l'.Nodup ∧
      (∀ loops depth, 0x400000 / pageSize < loops → 2 ≤ depth →
        onIomem loops depth [0x7f7] 0xfec01000 0x400000 = .ok l') ∧
      ∀ e, e ∈ l' ↔ e ∈ [0x7f7] ∨ ∃ a, 0xfec01000 ≤ a ∧ a < 0xfec01000 + 0x400000 ∧
        e = ((a / pageSize : Nat) : Int) + 1) ∧
    ∃ pages : List Nat, pages.Nodup ∧
      (∀ x, x ∈ pages ↔ ∃ r ∈ [Range.mk 0xfec00000 0x1000, Range.mk 0xfee00000 0x1000], ∃ a ∈ r,
        x = a / pageSize * pageSize) ∧
      (∀ fuel pg, remapIomem fuel pg [0x7f7, 0x7f8] = pages.foldlM (mapIo fuel) pg) ∧
      Remaps [⟨0xfec00000, 0x1000⟩, ⟨0xfee00000, 0x1000⟩] [0x7f7, 0x7f8] := by
  constructor
  · exact on_iomem_exact.1 [0x7f7] 0xfec01000 0x400000 (by decide) (by decide) (by decide) (by decide)
      (by decide)
  · exact on_iomem_exact.2 [⟨0xfec00000, 0x1000⟩, ⟨0xfee00000, 0x1000⟩] [0x7f7, 0x7f8]
      (by simp [IoRegion]) (by decide)

end Yaos.Multiboot
