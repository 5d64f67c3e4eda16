import Yaos.Multiboot.Memory

/-!
# The pages of I/O memory (`add_map`, `on_iomem`)

`on_iomem` treats the head of a region, its whole pages and its tail apart. It
comes to the same as one `add_map` for each page that has a byte of the region,
in order.
-/

namespace Yaos.Multiboot

open Yaos.Lib
open Yaos.Phymem (pageSize)

variable {l l' : List Int} {addr size p n depth loops : Nat} {ps : List Nat} {e : Int}

/-! ## `add_map` -/

/-- `add_map` for a list of pages, which it counts from 1. -/
def recordAll (l : List Int) (ps : List Nat) : Outcome (List Int) :=
  ps.foldlM (fun l p => addMap l (p + 1)) l

/-- There is room for the pages that are new. -/
def Room (l : List Int) (ps : List Nat) : Prop :=
  l.length + (ps.filter fun p : Nat => (p : Int) + 1 ∉ l).length ≤ maxIoRemaps

instance : Decidable (Room l ps) := inferInstanceAs (Decidable (_ ≤ _))

theorem addMap_eq (hn : n < 2 ^ 31) : addMap l n =
    if (n : Int) ∈ l then .ok l
    else if maxIoRemaps ≤ l.length then .error .panic
    else .ok (l ++ [(n : Int)]) := by
  have hb : Int.bmod n (2 ^ 32) = n := by
    rw [Int.bmod_eq_of_le (by omega) (by omega)]
  rw [addMap, hb]

theorem addMap_mem (h : addMap l n = .ok l') (hn : n < 2 ^ 31) : e ∈ l' ↔ e ∈ l ∨ e = n := by
  rw [addMap_eq hn] at h
  split at h
  next hin =>
    cases h
    exact ⟨.inl, fun h => h.elim id fun heq => heq ▸ hin⟩
  next =>
    split at h
    next => cases h
    next =>
      cases h
      simp

theorem addMap_nodup (h : addMap l n = .ok l') (hn : n < 2 ^ 31) (hl : l.Nodup) : l'.Nodup := by
  rw [addMap_eq hn] at h
  split at h
  next =>
    cases h
    exact hl
  next hnot =>
    split at h
    next => cases h
    next =>
      cases h
      rw [List.nodup_append]
      refine ⟨hl, List.nodup_singleton _, fun a ha b hb => ?_⟩
      rw [List.mem_singleton] at hb
      rintro rfl
      exact hnot (hb ▸ ha)

theorem recordAll_cons : recordAll l (p :: ps) = addMap l (p + 1) >>= fun l => recordAll l ps :=
  List.foldlM_cons

theorem recordAll_mem (h : recordAll l ps = .ok l') (hps : ∀ p ∈ ps, p + 1 < 2 ^ 31) :
    e ∈ l' ↔ e ∈ l ∨ ∃ p ∈ ps, e = (p : Int) + 1 := by
  induction ps generalizing l with
  | nil =>
    cases h
    simp
  | cons p ps ih =>
    rw [recordAll_cons] at h
    obtain ⟨l₁, hone, h⟩ := bind_eq_ok.mp h
    obtain ⟨hp, hps⟩ := List.forall_mem_cons.mp hps
    rw [ih h hps, addMap_mem hone hp, or_assoc, List.exists_mem_cons_iff, Int.natCast_add, Int.cast_ofNat_Int]

theorem recordAll_nodup (h : recordAll l ps = .ok l') (hps : ∀ p ∈ ps, p + 1 < 2 ^ 31) (hl : l.Nodup) :
    l'.Nodup := by
  induction ps generalizing l with
  | nil =>
    cases h
    exact hl
  | cons p ps ih =>
    rw [recordAll_cons] at h
    obtain ⟨l₁, hone, h⟩ := bind_eq_ok.mp h
    obtain ⟨hp, hps⟩ := List.forall_mem_cons.mp hps
    exact ih h hps (addMap_nodup hone hp hl)

theorem recordAll_ok (hps : ∀ p ∈ ps, p + 1 < 2 ^ 31) (hnodup : ps.Nodup) (hroom : Room l ps) :
    ∃ l', recordAll l ps = .ok l' := by
  induction ps generalizing l with
  | nil => exact ⟨l, rfl⟩
  | cons p ps ih =>
    obtain ⟨hp, hps⟩ := List.forall_mem_cons.mp hps
    obtain ⟨hnot, hnodup⟩ := List.nodup_cons.mp hnodup
    rw [recordAll_cons, addMap_eq hp]
    rw [Room, List.filter_cons] at hroom
    split
    next hin =>
      rw [if_neg (by simpa using hin)] at hroom
      exact ih hps hnodup hroom
    next hnew =>
      rw [if_pos (by simpa using hnew), List.length_cons] at hroom
      rw [if_neg (by omega)]
      -- the other new pages are the same
      have hfilter : (ps.filter fun q : Nat => (q : Int) + 1 ∉ l ++ [((p + 1 : Nat) : Int)]) =
          ps.filter fun q : Nat => (q : Int) + 1 ∉ l := by
        refine List.filter_congr fun q hq => ?_
        have hne : q ≠ p := fun heq => hnot (heq ▸ hq)
        have hint : (q : Int) ≠ p := by omega
        simp [hint]
      refine ih hps hnodup ?_
      rw [Room, hfilter, List.length_append, List.length_singleton]
      omega

/-! ## `on_iomem` -/

/-- The pages that have a byte of the region. -/
def pagesOf (addr size : Nat) : List Nat :=
  List.range' (addr / pageSize) ((addr % pageSize + size + (pageSize - 1)) / pageSize)

theorem mem_pagesOf (hpos : 0 < size) :
    p ∈ pagesOf addr size ↔ ∃ a, addr ≤ a ∧ a < addr + size ∧ p = a / pageSize := by
  rw [pagesOf, List.mem_range'_1]
  constructor
  · rintro ⟨hlow, hhigh⟩
    by_cases hp : p = addr / pageSize
    · exact ⟨addr, Nat.le_refl _, by omega, hp⟩
    · simp only [pageSize] at *
      exact ⟨p * 0x200000, by omega, by omega, by omega⟩
  · rintro ⟨a, hlow, hhigh, rfl⟩
    simp only [pageSize] at *
    omega

theorem nodup_pagesOf : (pagesOf addr size).Nodup := List.nodup_range'

theorem pagesOf_lt (hpos : 0 < size) (hend : addr + size ≤ 2 ^ 51) : ∀ p ∈ pagesOf addr size, p + 1 < 2 ^ 31 := by
  intro p hp
  obtain ⟨a, -, ha, rfl⟩ := (mem_pagesOf hpos).mp hp
  simp only [pageSize]
  omega

theorem pagesOf_one (hpos : 0 < size) (hsize : addr % pageSize + size ≤ pageSize) :
    pagesOf addr size = [addr / pageSize] := by
  have hone : (addr % pageSize + size + (pageSize - 1)) / pageSize = 1 := by
    simp only [pageSize] at *
    omega
  rw [pagesOf, hone]
  rfl

theorem pagesOf_cons (hsize : pageSize ≤ addr % pageSize + size) : pagesOf addr size =
    addr / pageSize :: pagesOf (addr + (pageSize - addr % pageSize)) (size - (pageSize - addr % pageSize)) := by
  have hnext : (addr + (pageSize - addr % pageSize)) / pageSize = addr / pageSize + 1 := by
    simp only [pageSize] at *
    omega
  have hcount : (addr % pageSize + size + (pageSize - 1)) / pageSize =
      ((addr + (pageSize - addr % pageSize)) % pageSize + (size - (pageSize - addr % pageSize)) +
        (pageSize - 1)) / pageSize + 1 := by
    simp only [pageSize] at *
    omega
  rw [pagesOf, pagesOf, hcount, hnext, List.range'_succ]

theorem mapPages_eq (hal : addr % pageSize = 0) (hend : addr + size ≤ 2 ^ 51)
    (hn : size / pageSize < n) : mapPages n l addr size = recordAll l (pagesOf addr size) := by
  induction n generalizing l addr size with
  | zero => exact absurd hn (Nat.not_lt_zero _)
  | succ n ih =>
    have hcons := @pagesOf_cons addr size
    have hone := @pagesOf_one addr size
    rw [hal, Nat.zero_add] at hcons hone
    rw [Nat.sub_zero] at hcons
    rw [mapPages]
    split
    next hbig =>
      have hlt : addr + pageSize < 2 ^ 64 := by omega
      have hpos : 0 < pageSize := by decide
      rw [hcons hbig, recordAll_cons, u64_of_lt hlt]
      have hrest : (size - pageSize) / pageSize < n := by
        rw [Nat.div_eq_sub_div hpos hbig] at hn
        omega
      exact congrArg _ (funext fun l => ih (by simpa using hal) (by omega) hrest)
    next hsmall =>
      split
      next h0 =>
        subst h0
        have hnil : pagesOf addr 0 = [] := by
          rw [pagesOf, hal]
          rfl
        rw [hnil]
        rfl
      next h0 =>
        rw [hone (by omega) (by omega), recordAll_cons]
        exact (bind_pure _).symm

/-- **`on_iomem` records the pages of the region.** -/
theorem onIomem_eq (h0 : addr ≠ 0) (hpos : 0 < size) (hend : addr + size ≤ 2 ^ 51)
    (hloops : size / pageSize < loops) (hdepth : 2 ≤ depth) :
    onIomem loops depth l addr size = recordAll l (pagesOf addr size) := by
  -- the call for an address on a page boundary does not call again
  have haligned : ∀ {d l addr size}, addr ≠ 0 → addr % pageSize = 0 → addr + size ≤ 2 ^ 51 →
      size / pageSize < loops → onIomem loops (d + 1) l addr size = recordAll l (pagesOf addr size) := by
    intro d l addr size h0 hal hend hloops
    rw [onIomem, if_neg h0, if_neg (not_not.mpr hal)]
    exact mapPages_eq hal hend hloops
  obtain ⟨d, rfl⟩ : ∃ d, depth = d + 1 + 1 := ⟨depth - 2, by omega⟩
  by_cases hlow : addr % pageSize = 0
  · exact haligned h0 hlow hend hloops
  · have hpage : u64 (addr + pageSize - 1) / pageSize = addr / pageSize + 1 := by
      simp only [u64, pageSize] at *
      omega
    have hnext : u64 (addr + (pageSize - addr % pageSize)) = addr + (pageSize - addr % pageSize) := by
      simp only [u64, pageSize] at *
      omega
    rw [onIomem, if_neg h0, if_pos hlow, hpage]
    dsimp only
    rw [hnext]
    by_cases hin : size ≤ pageSize - addr % pageSize
    · have hlt : addr % pageSize < pageSize := Nat.mod_lt _ (by decide)
      rw [pagesOf_one hpos (by omega), recordAll_cons]
      simp only [if_pos hin]
      rfl
    · rw [pagesOf_cons (by omega), recordAll_cons]
      simp only [if_neg hin]
      refine congrArg _ (funext fun l => haligned ?_ ?_ ?_ ?_)
      all_goals
        simp only [pageSize] at *
        omega

end Yaos.Multiboot
