import Mathlib.Algebra.Group.Nat.Defs
import Yaos.Lib.Outcome
import Yaos.Lib.Range

/-!
# Reserved memory (`arch/x86_64/multiboot.c`)

`add_reverse` records ranges that must not be handed out, and
`deal_reverse` cuts them out of a region of the memory map before it
passes the rest to `on_mem` or `on_iomem`. The handlers do not touch the
table, so `dealReverse` returns the list of their calls, in order.

Addresses are `u64`, and so is all arithmetic on them. When the reserved
range lies inside the region, the second recursive call should start at
its end; the code starts it at `rev_start + size`, past the end of the
region. `NoSplit` says that this branch is not taken.
-/

namespace Yaos.Multiboot

open Yaos.Lib

/-- `u64` arithmetic. -/
def u64 (n : Nat) : Nat := n % 2 ^ 64

/-- `a - b` as `u64`. -/
def sub64 (a b : Nat) : Nat := u64 (a + (2 ^ 64 - u64 b))

theorem u64_of_lt {n : Nat} (h : n < 2 ^ 64) : u64 n = n := Nat.mod_eq_of_lt h

theorem sub64_of_le {a b : Nat} (h : b ≤ a) (ha : a < 2 ^ 64) : sub64 a b = a - b := by
  simp only [sub64, u64]
  omega

/-- `revmem`, `reversed_nr` (its length) and `max_reverse_addr`. -/
structure Reverse where
  revmem : List Range
  maxReverseAddr : Nat

def Reverse.empty : Reverse := ⟨[], 0⟩

/-- `MAX_REVERSE`. -/
def maxReverse : Nat := 10

/-- `add_reverse`. -/
def addReverse (v : Reverse) (r : Range) : Outcome Reverse :=
  if maxReverse ≤ v.revmem.length then .error .panic
  else
    let stop := u64 (r.addr + r.size)
    .ok ⟨v.revmem ++ [r], if v.maxReverseAddr < stop then stop else v.maxReverseAddr⟩

/-- A call of `on_mem` (`ismem`) or `on_iomem`. -/
structure Passed where
  ismem : Bool
  range : Range
  deriving DecidableEq

/-- The loop of `deal_reverse`: the first entry that neither `continue`
skips. -/
def firstHit (l : List Range) (addr size : Nat) : Option Range :=
  l.find? fun r => decide (¬ u64 (r.addr + r.size) ≤ addr ∧ ¬ u64 (addr + size) ≤ r.addr)

/-- `deal_reverse`. -/
def dealReverse (v : Reverse) (ismem : Bool) : Nat → Nat → Nat → Outcome (List Passed)
  | 0, _, _ => .error .spin
  | fuel + 1, addr, size =>
      if v.maxReverseAddr < addr then .ok [⟨ismem, addr, size⟩]
      else match firstHit v.revmem addr size with
        | none => .ok [⟨ismem, addr, size⟩]
        | some r =>
            let stop := u64 (r.addr + r.size)
            if r.addr ≤ addr ∧ u64 (addr + size) ≤ stop then .ok []
            else if r.addr ≤ addr then
              dealReverse v ismem fuel stop (sub64 (size + addr) stop)
            else do
              check (addr ≤ r.addr)
              let low ← dealReverse v ismem fuel addr (sub64 r.addr addr)
              let high ← dealReverse v ismem fuel (u64 (r.addr + size)) (sub64 (size + addr) r.addr)
              .ok (low ++ high)

/-! ## The table -/

/-- A table of ranges that do not wrap, none beyond `max_reverse_addr`. -/
structure Reverse.Recorded (v : Reverse) : Prop where
  fits : ∀ r ∈ v.revmem, r.addr + r.size < 2 ^ 64
  bound : ∀ r ∈ v.revmem, r.addr + r.size ≤ v.maxReverseAddr

theorem Reverse.recorded_empty : Reverse.empty.Recorded where
  fits := by simp [Reverse.empty]
  bound := by simp [Reverse.empty]

theorem addReverse_cases {v w : Reverse} {r : Range} (h : addReverse v r = .ok w)
    (hr : r.addr + r.size < 2 ^ 64) (hv : v.Recorded) :
    w.revmem = v.revmem ++ [r] ∧ w.Recorded := by
  unfold addReverse at h
  split at h
  next => cases h
  next =>
    cases h
    refine ⟨rfl, fun q hq => ?_, fun q hq => ?_⟩
    · rcases List.mem_append.mp hq with hq | hq
      · exact hv.fits q hq
      · rw [List.mem_singleton.mp hq]
        exact hr
    · have hu := u64_of_lt hr
      dsimp only
      rcases List.mem_append.mp hq with hq | hq
      · have := hv.bound q hq
        split <;> omega
      · rw [List.mem_singleton.mp hq]
        split <;> omega

theorem addReverse_records {rs : List Range} {v w : Reverse}
    (h : rs.foldlM addReverse v = .ok w) (hrs : ∀ r ∈ rs, r.addr + r.size < 2 ^ 64)
    (hv : v.Recorded) : w.revmem = v.revmem ++ rs ∧ w.Recorded := by
  induction rs generalizing v with
  | nil =>
    cases h
    exact ⟨by simp, hv⟩
  | cons r rs ih =>
    rw [List.foldlM_cons] at h
    obtain ⟨v', hv', h⟩ := bind_eq_ok.mp h
    obtain ⟨hmem, hrec⟩ := addReverse_cases hv' (hrs r List.mem_cons_self) hv
    obtain ⟨h₁, h₂⟩ := ih h (fun q hq => hrs q (List.mem_cons_of_mem r hq)) hrec
    exact ⟨by simp [h₁, hmem], h₂⟩

/-! ## One round -/

section Round

variable {v : Reverse} {addr size : Nat} {r : Range}

theorem firstHit_some (hv : v.Recorded) (h : firstHit v.revmem addr size = some r) :
    r ∈ v.revmem ∧ r.addr + r.size < 2 ^ 64 ∧ addr < r.addr + r.size ∧
      r.addr < u64 (addr + size) ∧ ¬ v.maxReverseAddr < addr := by
  have hr := List.mem_of_find?_eq_some h
  have hp := List.find?_some h
  have hb := hv.bound r hr
  simp only [decide_eq_true_eq, u64_of_lt (hv.fits r hr)] at hp
  exact ⟨hr, hv.fits r hr, by omega, by omega, by omega⟩

theorem dealReverse_clear (ismem : Bool) (fuel : Nat)
    (h : firstHit v.revmem addr size = none) :
    dealReverse v ismem (fuel + 1) addr size = .ok [⟨ismem, addr, size⟩] := by
  simp [dealReverse, h]

theorem dealReverse_whole (ismem : Bool) (fuel : Nat) (hv : v.Recorded)
    (h : firstHit v.revmem addr size = some r) (h₁ : r.addr ≤ addr)
    (h₂ : u64 (addr + size) ≤ r.addr + r.size) :
    dealReverse v ismem (fuel + 1) addr size = .ok [] := by
  obtain ⟨_, hr, _, _, hmax⟩ := firstHit_some hv h
  simp [dealReverse, h, hmax, u64_of_lt hr, h₁, h₂]

theorem dealReverse_front (ismem : Bool) (fuel : Nat) (hv : v.Recorded)
    (h : firstHit v.revmem addr size = some r) (h₁ : r.addr ≤ addr)
    (h₂ : ¬ u64 (addr + size) ≤ r.addr + r.size) :
    dealReverse v ismem (fuel + 1) addr size =
      dealReverse v ismem fuel (r.addr + r.size) (sub64 (size + addr) (r.addr + r.size)) := by
  obtain ⟨_, hr, _, _, hmax⟩ := firstHit_some hv h
  simp [dealReverse, h, hmax, u64_of_lt hr, h₁, h₂]

theorem dealReverse_split (ismem : Bool) (fuel : Nat) (hv : v.Recorded)
    (h : firstHit v.revmem addr size = some r) (h₁ : ¬ r.addr ≤ addr) :
    dealReverse v ismem (fuel + 1) addr size = (do
      let low ← dealReverse v ismem fuel addr (sub64 r.addr addr)
      let high ← dealReverse v ismem fuel (u64 (r.addr + size)) (sub64 (size + addr) r.addr)
      .ok (low ++ high)) := by
  obtain ⟨_, hr, _, _, hmax⟩ := firstHit_some hv h
  have hle : addr ≤ r.addr := by omega
  simp [dealReverse, h, hmax, h₁, hle, check]

/-- **Termination.** Every recursive call is on a smaller size, also where
the region wraps round. -/
theorem dealReverse_terminates (ismem : Bool) (hv : v.Recorded)
    (ha : addr < 2 ^ 64) (hs : size < 2 ^ 64) :
    ∃ out, ∀ fuel, size < fuel → dealReverse v ismem fuel addr size = .ok out := by
  induction size using Nat.strongRecOn generalizing addr with
  | ind size ih =>
    -- every call unfolds once: peel the first unit of fuel
    suffices ∃ out, ∀ fuel, size ≤ fuel → dealReverse v ismem (fuel + 1) addr size = .ok out by
      obtain ⟨out, hout⟩ := this
      refine ⟨out, fun fuel hf => ?_⟩
      obtain ⟨fuel, rfl⟩ := Nat.exists_eq_add_one_of_ne_zero (by omega : fuel ≠ 0)
      exact hout fuel (by omega)
    cases hhit : firstHit v.revmem addr size with
    | none => exact ⟨_, fun fuel _ => dealReverse_clear ismem fuel hhit⟩
    | some r =>
      obtain ⟨_, hr, h₁, h₂, _⟩ := firstHit_some hv hhit
      simp only [u64] at h₂
      by_cases hfront : r.addr ≤ addr
      · by_cases hwhole : u64 (addr + size) ≤ r.addr + r.size
        · exact ⟨_, fun fuel _ => dealReverse_whole ismem fuel hv hhit hfront hwhole⟩
        have hlt : sub64 (size + addr) (r.addr + r.size) < size := by
          simp only [sub64, u64] at *
          omega
        obtain ⟨out, hout⟩ := ih _ hlt hr (by omega)
        refine ⟨out, fun fuel hf => ?_⟩
        rw [dealReverse_front ismem fuel hv hhit hfront hwhole]
        exact hout fuel (by omega)
      · have hlow : sub64 r.addr addr < size := by
          simp only [sub64, u64]
          omega
        have hhigh : sub64 (size + addr) r.addr < size := by
          simp only [sub64, u64]
          omega
        have hw : u64 (r.addr + size) < 2 ^ 64 := Nat.mod_lt _ (by omega)
        obtain ⟨low, hl⟩ := ih _ hlow ha (by omega)
        obtain ⟨high, hh⟩ := ih _ hhigh hw (by omega)
        refine ⟨low ++ high, fun fuel hf => ?_⟩
        rw [dealReverse_split ismem fuel hv hhit hfront, hl fuel (by omega), ok_bind,
          hh fuel (by omega), ok_bind]

end Round

/-! ## What is passed on -/

/-- Every reserved range that the cutting meets, in recorded order, begins
at or before the part of the region that is left. -/
inductive NoSplit (rs : List Range) : Nat → Nat → Prop where
  | clear {a n : Nat} : firstHit rs a n = none → NoSplit rs a n
  | whole {a n : Nat} {r : Range} : firstHit rs a n = some r → r.addr ≤ a →
      a + n ≤ r.addr + r.size → NoSplit rs a n
  | front {a n : Nat} {r : Range} : firstHit rs a n = some r → r.addr ≤ a →
      r.addr + r.size < a + n → NoSplit rs (r.addr + r.size) (a + n - (r.addr + r.size)) →
      NoSplit rs a n

/-- The ranges passed on are pairwise disjoint and are the region without
the reserved bytes. -/
structure Exact (rs : List Range) (a n : Nat) (out : List Range) : Prop where
  disjoint : out.Pairwise Range.Apart
  union : ∀ b, (∃ r ∈ out, b ∈ r) ↔ b ∈ Range.mk a n ∧ ∀ r ∈ rs, b ∉ r

theorem apart_of_firstHit_none {rs : List Range} {a n : Nat}
    (hrs : ∀ r ∈ rs, r.addr + r.size < 2 ^ 64) (h : a + n < 2 ^ 64)
    (hnone : firstHit rs a n = none) {b : Nat} (hb : b ∈ Range.mk a n) {r : Range}
    (hr : r ∈ rs) : b ∉ r := by
  have hp := List.find?_eq_none.mp hnone r hr
  simp only [decide_eq_true_eq, u64_of_lt (hrs r hr), u64_of_lt h] at hp
  rw [Range.mem_def] at *
  dsimp only at hb
  omega

theorem exact_clear {rs : List Range} {a n : Nat} (hrs : ∀ r ∈ rs, r.addr + r.size < 2 ^ 64)
    (h : a + n < 2 ^ 64) (hnone : firstHit rs a n = none) : Exact rs a n [⟨a, n⟩] where
  disjoint := List.pairwise_singleton _ _
  union b := by
    simp only [List.mem_singleton, exists_eq_left]
    exact ⟨fun hb => ⟨hb, fun r hr => apart_of_firstHit_none hrs h hnone hb hr⟩, fun hb => hb.1⟩

theorem exact_whole {rs : List Range} {a n : Nat} {r : Range} (hr : r ∈ rs) (h₁ : r.addr ≤ a)
    (h₂ : a + n ≤ r.addr + r.size) : Exact rs a n [] where
  disjoint := .nil
  union b := by
    simp only [List.not_mem_nil, false_and, exists_false, false_iff, not_and, not_forall]
    intro hb
    refine ⟨r, hr, fun hn => hn ?_⟩
    rw [Range.mem_def] at *
    dsimp only at hb
    omega

theorem exact_front {rs : List Range} {a n : Nat} {r : Range} {out : List Range} (hr : r ∈ rs)
    (h₁ : r.addr ≤ a) (h₂ : a < r.addr + r.size) (h₃ : r.addr + r.size ≤ a + n) :
    Exact rs (r.addr + r.size) (a + n - (r.addr + r.size)) out ↔ Exact rs a n out := by
  have hcut : ∀ b, (b ∈ Range.mk (r.addr + r.size) (a + n - (r.addr + r.size)) ∧
      ∀ q ∈ rs, b ∉ q) ↔ (b ∈ Range.mk a n ∧ ∀ q ∈ rs, b ∉ q) := by
    intro b
    refine and_congr_left fun hb => ?_
    have hbr := hb r hr
    simp only [Range.mem_def] at *
    omega
  constructor
  · rintro ⟨hd, hu⟩
    exact ⟨hd, fun b => (hu b).trans (hcut b)⟩
  · rintro ⟨hd, hu⟩
    exact ⟨hd, fun b => (hu b).trans (hcut b).symm⟩

section PassedOn

variable {v : Reverse} {ismem : Bool} {a n fuel : Nat} {out : List Passed}

theorem dealReverse_ismem (hv : v.Recorded) (h : dealReverse v ismem fuel a n = .ok out) :
    ∀ p ∈ out, p.ismem = ismem := by
  induction fuel generalizing a n out with
  | zero => cases h
  | succ fuel ih =>
    cases hhit : firstHit v.revmem a n with
    | none =>
      rw [dealReverse_clear ismem fuel hhit] at h
      cases h
      simp
    | some r =>
      by_cases hfront : r.addr ≤ a
      · by_cases hwhole : u64 (a + n) ≤ r.addr + r.size
        · rw [dealReverse_whole ismem fuel hv hhit hfront hwhole] at h
          cases h
          simp
        · rw [dealReverse_front ismem fuel hv hhit hfront hwhole] at h
          exact ih h
      · rw [dealReverse_split ismem fuel hv hhit hfront] at h
        obtain ⟨low, hlow, h⟩ := bind_eq_ok.mp h
        obtain ⟨high, hhigh, h⟩ := bind_eq_ok.mp h
        cases h
        intro p hp
        rcases List.mem_append.mp hp with hp | hp
        · exact ih hlow p hp
        · exact ih hhigh p hp

theorem NoSplit.exact (h : NoSplit v.revmem a n) (hv : v.Recorded) (hw : a + n < 2 ^ 64)
    (hd : dealReverse v ismem fuel a n = .ok out) : Exact v.revmem a n (out.map (·.range)) := by
  induction h generalizing fuel with
  | clear hhit =>
    cases fuel with
    | zero => cases hd
    | succ fuel =>
      rw [dealReverse_clear ismem fuel hhit] at hd
      cases hd
      exact exact_clear hv.fits hw hhit
  | whole hhit h₁ h₂ =>
    cases fuel with
    | zero => cases hd
    | succ fuel =>
      rw [dealReverse_whole ismem fuel hv hhit h₁ (by rwa [u64_of_lt hw])] at hd
      cases hd
      exact exact_whole (firstHit_some hv hhit).1 h₁ h₂
  | @front a n r hhit h₁ h₂ _ ih =>
    cases fuel with
    | zero => cases hd
    | succ fuel =>
      obtain ⟨hr, _, h₃, _⟩ := firstHit_some hv hhit
      rw [dealReverse_front ismem fuel hv hhit h₁ (by rw [u64_of_lt hw]; omega),
        sub64_of_le (by omega) (by omega), Nat.add_comm n a] at hd
      exact (exact_front hr h₁ h₃ (by omega)).mp (ih (by omega) hd)

/-- When nothing is reserved in the `n` bytes after the region, a split
passes on bytes from there. -/
theorem Exact.noSplit (hv : v.Recorded) (hw : a + 2 * n < 2 ^ 64)
    (hfree : ∀ r ∈ v.revmem, r.addr + r.size ≤ a + n ∨ a + 2 * n ≤ r.addr)
    (hd : dealReverse v ismem fuel a n = .ok out)
    (he : Exact v.revmem a n (out.map (·.range))) : NoSplit v.revmem a n := by
  induction fuel generalizing a n out with
  | zero => cases hd
  | succ fuel ih =>
    have hu : u64 (a + n) = a + n := u64_of_lt (by omega)
    cases hhit : firstHit v.revmem a n with
    | none => exact .clear hhit
    | some r =>
      obtain ⟨hr, _, h₁, h₂, _⟩ := firstHit_some hv hhit
      by_cases hfront : r.addr ≤ a
      · by_cases hwhole : a + n ≤ r.addr + r.size
        · exact .whole hhit hfront hwhole
        · rw [dealReverse_front ismem fuel hv hhit hfront (by rwa [hu]),
            sub64_of_le (by omega) (by omega), Nat.add_comm n a] at hd
          refine .front hhit hfront (by omega) (ih (by omega) (fun q hq => ?_) hd
            ((exact_front hr hfront h₁ (by omega)).mpr he))
          have := hfree q hq
          omega
      · exfalso
        rw [hu] at h₂
        rw [dealReverse_split ismem fuel hv hhit hfront, sub64_of_le (by omega) (by omega),
          sub64_of_le (by omega) (by omega), u64_of_lt (by omega)] at hd
        obtain ⟨low, _, hd⟩ := bind_eq_ok.mp hd
        obtain ⟨high, hhigh, hd⟩ := bind_eq_ok.mp hd
        cases hd
        have hclear : firstHit v.revmem (r.addr + n) (n + a - r.addr) = none := by
          refine List.find?_eq_none.mpr fun q hq => ?_
          have := hfree q hq
          simp only [decide_eq_true_eq, u64_of_lt (hv.fits q hq),
            u64_of_lt (by omega : r.addr + n + (n + a - r.addr) < 2 ^ 64)]
          omega
        cases fuel with
        | zero => cases hhigh
        | succ fuel =>
          rw [dealReverse_clear ismem fuel hclear] at hhigh
          cases hhigh
          -- the first byte of the second part lies past the region
          have hin := (he.union (r.addr + n)).mp ⟨⟨r.addr + n, n + a - r.addr⟩, by simp, by
            rw [Range.mem_def]
            dsimp only
            omega⟩
          have hin := hin.1
          rw [Range.mem_def] at hin
          dsimp only at hin
          omega

end PassedOn

/-- **Cutting out the reserved ranges.** `deal_reverse` always terminates.
What it passes on is exactly the region without the reserved bytes when no
split is needed, and only then, unless what lies past the region is
reserved as well. -/
theorem dealReverse_exact_iff {rs : List Range} {v : Reverse}
    (hrec : rs.foldlM addReverse Reverse.empty = .ok v)
    (hrs : ∀ r ∈ rs, r.addr + r.size < 2 ^ 64) (ismem : Bool) {a n : Nat}
    (hw : a + n < 2 ^ 64) :
    ∃ out, (∀ fuel, n < fuel → dealReverse v ismem fuel a n = .ok out) ∧
      (∀ p ∈ out, p.ismem = ismem) ∧
      (NoSplit rs a n → Exact rs a n (out.map (·.range))) ∧
      (a + 2 * n < 2 ^ 64 →
        (∀ r ∈ rs, r.addr + r.size ≤ a + n ∨ a + 2 * n ≤ r.addr) →
        Exact rs a n (out.map (·.range)) → NoSplit rs a n) := by
  obtain ⟨hmem, hv⟩ := addReverse_records hrec hrs Reverse.recorded_empty
  have hmem : v.revmem = rs := by simpa [Reverse.empty] using hmem
  subst hmem
  obtain ⟨out, hout⟩ := dealReverse_terminates ismem hv (by omega : a < 2 ^ 64)
    (by omega : n < 2 ^ 64)
  have hd := hout (n + 1) (by omega)
  exact ⟨out, hout, dealReverse_ismem hv hd, fun h => h.exact hv hw hd,
    fun hw' hfree he => Exact.noSplit hv hw' hfree hd he⟩

/-- The low 64K and a kernel image that ends inside the region. -/
theorem dealReverse_exact_iff_kernel :
    ∃ v out, [Range.mk 0 0x10000, ⟨0x100000, 0x80000⟩].foldlM addReverse Reverse.empty = .ok v ∧
      dealReverse v true 0x200000 0x100000 0x100000 = .ok out ∧
      Exact [⟨0, 0x10000⟩, ⟨0x100000, 0x80000⟩] 0x100000 0x100000 (out.map (·.range)) := by
  have hrec : [Range.mk 0 0x10000, ⟨0x100000, 0x80000⟩].foldlM addReverse Reverse.empty
      = .ok ⟨_, _⟩ := rfl
  obtain ⟨out, hout, _, hexact, _⟩ := dealReverse_exact_iff hrec (by decide) true
    (by decide : 0x100000 + 0x100000 < 2 ^ 64)
  exact ⟨_, out, hrec, hout _ (by decide),
    hexact (.front rfl (by decide) (by decide) (.clear (by decide)))⟩

/-- A kernel image at 1M inside a region of 16M from 0: the memory above
the image is lost, and the 15M past the region are passed on instead. -/
theorem dealReverse_splits_wrong :
    ∃ v, [Range.mk 0x100000 0x80000].foldlM addReverse Reverse.empty = .ok v ∧
      dealReverse v true 3 0 0x1000000 =
        .ok [⟨true, 0, 0x100000⟩, ⟨true, 0x1100000, 0xf00000⟩] ∧
      ¬ Exact [⟨0x100000, 0x80000⟩] 0 0x1000000 [⟨0, 0x100000⟩, ⟨0x1100000, 0xf00000⟩] := by
  refine ⟨_, rfl, by decide, fun he => ?_⟩
  have hin := ((he.union 0x1100000).mp ⟨⟨0x1100000, 0xf00000⟩, by decide, by decide⟩).1
  exact absurd hin (by decide)

end Yaos.Multiboot
