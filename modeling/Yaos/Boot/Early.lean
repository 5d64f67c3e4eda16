import Yaos.Boot.Handout

/-!
# The heap before the memory map

All the heap has up to `init_e820` is 64K behind the kernel image. `Ready`
says so: whatever ranges lie outside the kernel, the heap may be joined to
them as blocks in use, next to its own blocks and the static page tables.
-/

namespace Yaos.Boot

open Yaos.Lib Yaos.Multiboot Yaos.Kheap
open Yaos.Phymem (pageSize)

def Image.range (img : Image) : Range := ⟨kernelStart, img.kernelEnd - kernelStart⟩

/-- Ranges that share no byte with each other or with the kernel. -/
structure Outside (img : Image) (out : List Range) : Prop where
  once : ∀ b, cover out b ≤ 1
  apart : ∀ b ∈ img.range, cover out b = 0

/-- The heap together with its blocks, for any memory outside the kernel. -/
structure Joined (img : Image) (heap : Kheap.State) (blocks L M : List Range) : Prop where
  tables : ∀ t ∈ img.tables, (⟨t, Radix.page⟩ : Range) ∈ blocks
  inv : ∀ out, Outside img out → Kheap.Inv heap (blocks ++ out) L M

/-- The heap when `init_e820` begins. -/
def Ready (img : Image) (heap : Kheap.State) : Prop := ∃ blocks L M, Joined img heap blocks L M

theorem outside_nil (img : Image) : Outside img [] := ⟨fun _ => by simp, fun _ _ => rfl⟩

/-- Ready heaps from a statement for each list of outside ranges: the holes
do not depend on the list. -/
theorem ready_of_inv {img : Image} {heap : Kheap.State} (blocks : List Range)
    (ht : ∀ t ∈ img.tables, (⟨t, Radix.page⟩ : Range) ∈ blocks)
    (h : ∀ out, Outside img out → ∃ L M, Kheap.Inv heap (blocks ++ out) L M) : Ready img heap := by
  obtain ⟨L, M, hi⟩ := h [] (outside_nil img)
  refine ⟨blocks, L, M, ht, fun out hout => ?_⟩
  obtain ⟨L', M', hi'⟩ := h out hout
  rw [hi.heap4k.unique hi'.heap4k, hi.small.unique hi'.small]
  exact hi'

/-! ## The first calls -/

variable {img : Image} {heap heap' : Kheap.State} {fuel : Nat}

theorem bssEnd_pos (img : Image) : kernelStart + Radix.page ≤ img.bssEnd := by
  have := img.inside img.pml4 (by simp [Statics.tables])
  omega

def Image.tablePages (img : Image) : List Range := img.tables.map fun t => ⟨t, Radix.page⟩

theorem tablePages_once (img : Image) (b : Nat) : cover img.tablePages b ≤ 1 := by
  refine pairwise_apart_iff.mp ?_ b
  refine List.pairwise_map.mpr (img.distinct.imp_of_mem fun {t u} ht hu hne => ?_)
  intro x hx hy
  have h₁ := img.aligned t ht
  have h₂ := img.aligned u hu
  simp only [Range.mem_def, Radix.page] at *
  omega

theorem tablePages_inside (img : Image) (b : Nat) (h : 0 < cover img.tablePages b) :
    kernelStart ≤ b ∧ b < img.bssEnd := by
  obtain ⟨r, hr, hb⟩ := cover_pos.mp h
  obtain ⟨t, ht, rfl⟩ := List.mem_map.mp hr
  have := img.inside t ht
  rw [Range.mem_def] at hb
  dsimp only at hb
  omega

theorem freeAt_init (m b : Nat) : freeAt (Phymem.initPhyMem m) b = 0 := by
  rw [freeAt, Phymem.initPhyMem_bit]
  rfl

theorem initBss_inv {out : List Range} (hout : Outside img out)
    (h : initBss img (initKheap (Phymem.initPhyMem 0)) = .ok heap) :
    ∃ L M, Kheap.Inv heap (img.tablePages ++ out) L M := by
  have hpos := bssEnd_pos img
  -- tables, first heap and the outside share no byte
  have hsum : ∀ b, Range.has ⟨img.bssEnd, initHeapSize⟩ b +
      (cover img.tablePages b + cover out b) ≤ 1 := by
    intro b
    have hone := tablePages_once img b
    have hin := tablePages_inside img b
    have hout₁ := hout.once b
    have hout₂ := hout.apart b
    have hmem : b ∈ img.range ↔ kernelStart ≤ b ∧ b < img.bssEnd + initHeapSize := by
      rw [Range.mem_def, Image.range, Image.kernelEnd]
      dsimp only
      omega
    rw [hmem] at hout₂
    rw [Range.has_eq]
    split <;> omega
  have hstart : Kheap.Inv (initKheap (Phymem.initPhyMem 0)) (img.tablePages ++ out) [] [] := by
    refine { inv_initKheap (Phymem.inv_init 0) with once := fun b => ?_ }
    have := hsum b
    have hbit : freeAt (initKheap (Phymem.initPhyMem 0)).phys b = 0 := freeAt_init 0 b
    rw [hbit, cover_append, cover_nil]
    omega
  refine ⟨_, [], (hstart.free4k (by decide) (fun b => ?_) h).1⟩
  have hone := hsum b
  have hbit : freeAt (initKheap (Phymem.initPhyMem 0)).phys b = 0 := freeAt_init 0 b
  rw [hbit, cover_append, cover_nil]
  omega

/-- The blocks after `kalloc(size)` returned `p`. -/
def handed (size : Nat) (p : Option Nat) (blocks : List Range) : List Range :=
  hand (if size < maxSmallHeap then size else round4k size) p blocks

theorem kalloc_inv {size : Nat} {p : Option Nat} {blocks out L M : List Range}
    (hi : Kheap.Inv heap (blocks ++ out) L M) (h : kalloc fuel heap size = .ok (p, heap')) :
    ∃ L' M', Kheap.Inv heap' (handed size p blocks ++ out) L' M' := by
  have happend : ∀ n, hand n p (blocks ++ out) = hand n p blocks ++ out := by
    intro n
    cases p <;> rfl
  rw [kalloc] at h
  rw [handed]
  split at h
  next hsmall =>
    obtain ⟨L', M', hi'⟩ := hi.allocSmall h
    rw [if_pos hsmall, ← happend]
    exact ⟨L', M', hi'⟩
  next hlarge =>
    obtain ⟨⟨L', hi'⟩, -⟩ := hi.alloc4k h
    rw [if_neg hlarge, ← happend]
    exact ⟨L', M, hi'⟩

theorem mem_handed {size : Nat} {p : Option Nat} {blocks : List Range} {r : Range}
    (h : r ∈ blocks) : r ∈ handed size p blocks := by
  cases p with
  | none => exact h
  | some a => exact List.mem_cons_of_mem _ h

/-- **Early boot** leaves a heap that has only memory of the kernel. -/
theorem early_ready {map : List Entry} {length : Nat} (h : early fuel img map length = .ok heap) :
    Ready img heap := by
  obtain ⟨heap₁, h₁, h⟩ := bind_eq_ok.mp h
  obtain ⟨heap₂, h₂, h₃⟩ := bind_eq_ok.mp h
  obtain ⟨⟨p, heap₂'⟩, hp, h₂⟩ := bind_eq_ok.mp h₂
  obtain ⟨⟨q, heap₃⟩, hq, h₃⟩ := bind_eq_ok.mp h₃
  dsimp only at h₂
  split at h₂
  · cases h₂
  cases h₂
  cases h₃
  refine ready_of_inv
    (handed (maxPhyAddr map / pageSize / 8 + 8) q (handed length p img.tablePages))
    (fun t ht => ?_) fun out hout => ?_
  · exact mem_handed (mem_handed (List.mem_map_of_mem ht))
  · obtain ⟨L₁, M₁, hi₁⟩ := initBss_inv hout h₁
    obtain ⟨L₂, M₂, hi₂⟩ := kalloc_inv hi₁ hp
    obtain ⟨L₃, M₃, hi₃⟩ := kalloc_inv hi₂ hq
    -- the new bitmap is empty
    refine ⟨L₃, M₃, { hi₃ with phys := Phymem.inv_init _, once := fun b => ?_ }⟩
    have := hi₃.once b
    rw [freeAt_init]
    omega

/-! ## What a ready heap has -/

variable {blocks L M : List Range}

theorem Joined.shaped (h : Joined img heap blocks L M) : Shaped heap L M :=
  have hi := h.inv [] (outside_nil img)
  ⟨hi.heap4k, hi.small, hi.phys⟩

theorem Joined.inside (h : Joined img heap blocks L M) {b : Nat} (hb : b ∉ img.range) :
    cover L b + cover M b + cover blocks b + freeAt heap.phys b = 0 := by
  have hout : Outside img [⟨b, 1⟩] := by
    refine ⟨fun x => ?_, fun x hx => ?_⟩
    · rw [cover_cons, cover_nil]
      exact Range.has_le _ _
    · rw [cover_cons, cover_nil, Nat.add_zero, Range.has_eq, if_neg]
      intro hand
      have heq : x = b := by omega
      exact hb (heq ▸ hx)
  have honce := (h.inv _ hout).once b
  rw [cover_append, cover_cons, cover_nil, Range.has_eq, if_pos ⟨Nat.le_refl b, by omega⟩] at honce
  omega

theorem Joined.free_inside (h : Joined img heap blocks L M) {b : Nat} (hb : Free heap b) :
    b ∈ img.range := by
  by_contra hno
  have := h.inside hno
  rw [h.shaped.free_iff, freeCount] at hb
  omega

/-- **`init_e820`** over a separate map keeps the heap's memory apart. -/
theorem Joined.initE820 {map : List Entry} {l : List Int} (h : Joined img heap blocks L M)
    (hsep : Separate img map) (hrun : initE820 fuel img heap map = .ok (heap', l)) :
    ∃ L' M', Kheap.Inv heap' blocks L' M' := by
  obtain ⟨v, passed, calls, hr, hrec, hpassed, hcalls, hhandled⟩ := initE820_calls hrun
  have hcover := dealMap_cover hr hrec hsep.noSplit hpassed
  have hout : Outside img (memRanges passed) := by
    refine ⟨fun b => ?_, fun b hb => ?_⟩
    · have := pairwise_apart_iff.mp hsep.apart b
      have := (hcover b).1
      omega
    · exact (hcover b).2 img.range (by simp [reserved, Image.range]) hb
  -- the pieces of the regions take their place
  have hi : Kheap.Inv heap (calls.map Release.range ++ blocks) L M := by
    refine (h.inv _ hout).mono fun b => ?_
    have := hhandled.inside b
    rw [cover_append, cover_append]
    omega
  exact releases_inv hi hhandled.pos hcalls

end Yaos.Boot
