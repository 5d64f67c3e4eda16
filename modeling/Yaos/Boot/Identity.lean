import Yaos.Boot.Early
import Yaos.Boot.LowTables

/-!
# Is free memory mapped?

After `init_e820` and `init_pgtable` every free byte should be mapped to
itself. It is if it lies below 2G or on a page that the loop of `init_pml4`
maps: not on the last page above 4G, where the loop stops one page early,
and not between 2G and 4G, where the `int` of the static entries overflows
(undefined in C, wrapped here). The loop can only be relied on if the heap it
takes its tables from holds no memory twice (`Fits.noSplit`).
-/

namespace Yaos.Boot

open Yaos.Lib Yaos.Multiboot Yaos.Pgtable
open Yaos.Phymem (pageSize)

variable {img : Image} {fuel max : Nat} {s t : State} {map : List Entry}

def AllIdentity (s : State) : Prop := ∀ b, Free s.heap b → Identity s b

/-- Every byte that is free before `init_e820` or that it frees is on a page
that `init_pml4` maps to itself. -/
def AllMapped (img : Image) (heap : Kheap.State) (map : List Entry) : Prop :=
  ∀ b, Free heap b ∨ Released img map b → Mapped (maxPhyMemAddr map) (b / pageSize)

/-- The condition on the map. Above 4G `init_pml4` takes its tables from the
heap, and no reserved range may begin inside a usable entry: `deal_reverse`
then frees memory twice, so that a table may be taken for another one. -/
structure Fits (img : Image) (heap : Kheap.State) (map : List Entry) : Prop where
  mapped : AllMapped img heap map
  noSplit : number4G < maxPhyMemAddr map →
    ∀ e ∈ map, e.ismem = true → NoSplit (reserved img) e.addr e.size

/-- Two 4K holes below 2G for each gigabyte above 4G, before `init_e820` or
from it. -/
def Enough (img : Image) (heap : Kheap.State) (map : List Entry) : Prop :=
  ∃ S : Finset Nat, (∀ p ∈ S, p < 2 ^ 19 ∧
      ((∃ L, heap.heap4k.Reps L ∧ 0 < cover L (p * Radix.page)) ∨
        HoleReleased img map (p * Radix.page))) ∧
    2 * (gigs (maxPhyMemAddr map / pageSize) - gigs 2048) ≤ S.card

theorem initPml4_cases (h : initPml4 fuel img s max = .ok t) :
    (max ≤ number4G ∧ t = img.static s) ∨
      (number4G < max ∧ mapAbove fuel max fuel (img.static s) number4G = .ok t) := by
  obtain ⟨_, _, h⟩ := bind_eq_ok.mp h
  obtain ⟨_, _, h⟩ := bind_eq_ok.mp h
  obtain ⟨_, _, h⟩ := bind_eq_ok.mp h
  dsimp only at h
  split at h
  next hlt => exact .inr ⟨hlt, h⟩
  next hle =>
    cases h
    exact .inl ⟨Nat.le_of_not_lt hle, rfl⟩

theorem raise_le {m n : Nat} {e : Entry} (h : m ≤ n) (he : e.addr + e.size ≤ n)
    (hn : n < 2 ^ 64) : raise m e ≤ n := by
  rw [raise, u64_of_lt (by omega)]
  split <;> omega

theorem maxPhyMemAddr_le (map : List Entry) : maxPhyMemAddr map ≤ 2 ^ 52 := by
  have hfold : ∀ (l : List Entry) (m : Nat), m ≤ 2 ^ 52 → l.foldl raise m ≤ 2 ^ 52 := by
    intro l
    induction l with
    | nil => exact fun m hm => hm
    | cons e l ih => exact fun m hm => ih _ (raise_le hm e.fits (by decide))
  exact hfold _ 0 (Nat.zero_le _)

/-! ## Up to 4G -/

theorem identity_low {b : Nat} (hmax : max ≤ number4G) (hb : b < 2 ^ 63) :
    Identity (img.static s) b ↔ Mapped max (b / pageSize) := by
  refine identity_iff img hb (.inl ⟨rfl, fun n hn hlt _ => ?_⟩)
  have hle : (2048 + 1) * pageSize ≤ (n + 1) * pageSize :=
    Nat.mul_le_mul_right _ (by omega)
  simp only [number4G, pageSize] at *
  omega

/-! ## Above 4G -/

theorem static_inv {blocks L M : List Range} (hi : Kheap.Inv s.heap blocks L M)
    (ht : ∀ t ∈ img.tables, (⟨t, Radix.page⟩ : Range) ∈ blocks) :
    Pgtable.Inv (img.static s) blocks L M where
  heap := hi
  tree := tree_filled img
  owned := by
    intro p hp hne
    have htab : Radix.tab (img.static s).mem (img.static s).pml4 p = _ := tab_filled img hp
    rw [htab] at hne ⊢
    cases hpa : tableOf p with
    | none => simp [hpa] at hne
    | some a => exact ht _ (img.table_mem (tableOf_lt hpa))

theorem mapAbove_static {blocks L M : List Range} (hmax : max < 2 ^ 63)
    (hi : Kheap.Inv s.heap blocks L M)
    (ht : ∀ t ∈ img.tables, (⟨t, Radix.page⟩ : Range) ∈ blocks)
    (h : mapAbove fuel max fuel (img.static s) number4G = .ok t) :
    (∃ blocks' L', Pgtable.Inv t blocks' L' M ∧ ∀ x ∈ blocks, x ∈ blocks') ∧
      ∀ b < 2 ^ 63, Identity t b ↔ Mapped max (b / pageSize) := by
  have hpages : number4G = 2048 * pageSize := rfl
  rw [hpages] at h
  obtain ⟨blocks', L', hinv, hsub, hentry⟩ :=
    mapAbove_spec hmax (by decide) (static_inv hi ht) h
  exact ⟨⟨blocks', L', hinv, hsub⟩, fun b hb => identity_iff img hb (hentry b)⟩

/-- The loop frees nothing: a byte that is not free may be joined to the
blocks in use. -/
theorem mapAbove_free {blocks L M : List Range} (hmax : max < 2 ^ 63)
    (hi : Kheap.Inv s.heap blocks L M)
    (ht : ∀ t ∈ img.tables, (⟨t, Radix.page⟩ : Range) ∈ blocks)
    (h : mapAbove fuel max fuel (img.static s) number4G = .ok t) {b : Nat}
    (hb : Free t.heap b) : Free s.heap b := by
  by_contra hno
  have hs : Shaped s.heap L M := ⟨hi.heap4k, hi.small, hi.phys⟩
  rw [hs.free_iff, freeCount] at hno
  obtain ⟨used, hused, hsub, r, hr, hbr⟩ : ∃ used, Kheap.Inv s.heap used L M ∧
      (∀ x ∈ blocks, x ∈ used) ∧ ∃ r ∈ used, b ∈ r := by
    by_cases hc : cover blocks b = 0
    · refine ⟨⟨b, 1⟩ :: blocks, { hi with once := fun x => ?_ },
        fun x hx => List.mem_cons_of_mem _ hx, ⟨b, 1⟩, List.mem_cons_self, Nat.le_refl b, by simp⟩
      have honce := hi.once x
      rw [cover_cons, Range.has_eq]
      split
      next hx =>
        have heq : x = b := by omega
        subst heq
        omega
      next => omega
    · obtain ⟨r, hr, hbr⟩ := cover_pos.mp (Nat.pos_of_ne_zero hc)
      exact ⟨blocks, hi, fun x hx => hx, r, hr, hbr⟩
  obtain ⟨⟨used', L', hinv, hsub'⟩, -⟩ :=
    mapAbove_static hmax hused (fun t htm => hsub _ (ht t htm)) h
  have hpos := cover_pos.mpr ⟨r, hsub' r hr, hbr⟩
  have honce := hinv.heap.once b
  have ht' : Shaped t.heap L' M := ⟨hinv.heap.heap4k, hinv.heap.small, hinv.heap.phys⟩
  rw [ht'.free_iff, freeCount] at hb
  omega

theorem mapAbove_kept {blocks L M : List Range} {S : Finset Nat} (hmax : max < 2 ^ 63)
    (hi : Kheap.Inv s.heap blocks L M)
    (ht : ∀ t ∈ img.tables, (⟨t, Radix.page⟩ : Range) ∈ blocks) (hS : Low L S)
    (hcard : 2 * (gigs (max / pageSize) - gigs 2048) ≤ S.card)
    (h : mapAbove fuel max fuel (img.static s) number4G = .ok t) {b : Nat} (hb : 2 ^ 31 ≤ b)
    (hfree : Free s.heap b) : Free t.heap b := by
  have hpages : number4G = 2048 * pageSize := rfl
  rw [hpages] at h
  obtain ⟨L', S', hspent⟩ := mapAbove_low hmax (by decide) (static_inv hi ht) hS hcard
    (fun hne => absurd rfl hne) h
  have hsmall : t.heap.small = s.heap.small := hspent.small
  have hphys : t.heap.phys = s.heap.phys := hspent.phys
  have hs : Shaped s.heap L M := ⟨hi.heap4k, hi.small, hi.phys⟩
  have ht' : Shaped t.heap L' M := ⟨hspent.reps, hsmall ▸ hi.small, hphys ▸ hi.phys⟩
  have hhigh := hspent.high b hb
  rw [hs.free_iff, freeCount] at hfree
  rw [ht'.free_iff, freeCount, hphys]
  omega

/-- Below `2 ^ 48` no page shares the entry of a page below 2G. -/
theorem mapped_low {b : Nat} (hmax : max ≤ 2 ^ 48) (hb : b < 2 ^ 31) :
    Mapped max (b / pageSize) := by
  refine ⟨.inl (Nat.div_lt_of_lt_mul hb), fun hin => ?_⟩
  have hlt := hin.2
  simp only [pageSize] at hlt
  omega

/-! ## Both -/

/-- **Free memory is mapped** to itself after `init_e820` and `init_pgtable`,
for entries that do not overlap, if the map meets the condition. Only if, where
the tables of `init_pml4` do not use up the memory that it leaves out: up to 4G
it allocates none, above it takes them from the lowest holes. -/
theorem identity_if_mapped {length : Nat} {heap : Kheap.State} {mem : Nat → Nat}
    (hearly : early fuel img map length = .ok heap)
    (hrun : initMemory fuel img heap mem map = .ok s) :
    ((map.map Entry.range).Pairwise Range.Apart → Fits img heap map → AllIdentity s) ∧
      (maxPhyMemAddr map ≤ number4G ∨
          maxPhyMemAddr map ≤ 2 ^ 48 ∧ Separate img map ∧ Enough img heap map →
        (AllIdentity s ↔ Fits img heap map)) := by
  obtain ⟨⟨heap', l⟩, he820, hpml4⟩ := bind_eq_ok.mp hrun
  obtain ⟨blocks, L, M, hjoined⟩ := early_ready hearly
  obtain ⟨-, hfree, hreleased⟩ := initE820_free hjoined.shaped he820
  have hmax : maxPhyMemAddr map < 2 ^ 63 := by
    have := maxPhyMemAddr_le map
    omega
  -- what is free is an address of memory
  have hlt : ∀ b, Free heap' b → b < 2 ^ 63 := by
    intro b hb
    rcases (hfree b).mp hb with hb | hb
    · have hin := (hjoined.free_inside hb).2
      have := img.low
      simp only [Image.range, Image.kernelEnd, initHeapSize, kernelStart] at hin
      omega
    · have := hreleased b hb
      omega
  rcases initPml4_cases hpml4 with ⟨hle, rfl⟩ | ⟨hgt, hloop⟩
  · have hiff : AllIdentity (img.static ⟨mem, img.pml4, heap'⟩) ↔ AllMapped img heap map := by
      refine forall_congr' fun b => ?_
      rw [← hfree b]
      exact ⟨fun h hb => (identity_low hle (hlt b hb)).mp (h hb),
        fun h hb => (identity_low hle (hlt b hb)).mpr (h hb)⟩
    exact ⟨fun _ hfits => hiff.mpr hfits.mapped, fun _ =>
      ⟨fun h => ⟨hiff.mp h, fun hgt => absurd hgt (Nat.not_lt_of_le hle)⟩,
        fun hfits => hiff.mpr hfits.mapped⟩⟩
  · have hif : Separate img map → AllMapped img heap map → AllIdentity s := by
      intro hsep hmapped b hb
      obtain ⟨L', M', hi⟩ := hjoined.initE820 hsep he820
      have hb' : Free heap' b := mapAbove_free hmax hi hjoined.tables hloop hb
      exact ((mapAbove_static hmax hi hjoined.tables hloop).2 b (hlt b hb')).mpr
        (hmapped b ((hfree b).mp hb'))
    refine ⟨fun hapart hfits => hif ⟨hapart, hfits.noSplit hgt⟩ hfits.mapped, ?_⟩
    rintro (hle | ⟨h48, hsep, S, hS, hcard⟩)
    · exact absurd hle (Nat.not_le_of_lt hgt)
    refine ⟨fun hall => ⟨fun b hb => ?_, fun _ => hsep.noSplit⟩, fun hfits => hif hsep hfits.mapped⟩
    rcases Nat.lt_or_ge b (2 ^ 31) with hlow | hhigh
    · exact mapped_low h48 hlow
    · obtain ⟨L', M', hi⟩ := hjoined.initE820 hsep he820
      obtain ⟨L'', hL'', hholes⟩ := initE820_holes hjoined.shaped.heap4k he820
      rw [hL''.unique hi.heap4k] at hholes
      have hlow : Low L' S := by
        intro p hp
        obtain ⟨hp19, hor⟩ := hS p hp
        refine ⟨hp19, hholes _ (hor.imp_left ?_)⟩
        rintro ⟨L₀, hL₀, hpos⟩
        rwa [hL₀.unique hjoined.shaped.heap4k] at hpos
      have hb' := (hfree b).mpr hb
      have hkept := mapAbove_kept hmax hi hjoined.tables hlow hcard hloop hhigh hb'
      exact ((mapAbove_static hmax hi hjoined.tables hloop).2 b (hlt b hb')).mp (hall b hkept)

def smallImage : Image where
  pml4 := 0x110000
  firstPdp := 0x111000
  firstPd := 0x112000
  secondPd := 0x113000
  thirdPd := 0x114000
  fourthPd := 0x115000
  bssEnd := 0x200000
  aligned := by decide
  distinct := by decide
  inside := by decide
  low := by decide

theorem onePage_fits {n : Nat} (h : n < 2 ^ 30) :
    n * pageSize + pageSize ≤ 2 ^ 52 := by
  simp only [pageSize]
  omega

def onePage (n : Nat) (h : n < 2 ^ 30) : List Entry :=
  [⟨n * pageSize, pageSize, true, onePage_fits h⟩]

theorem onePage_released {n b : Nat} {h : n < 2 ^ 30}
    (hhit : firstHit (reserved smallImage) (n * pageSize) pageSize = none)
    (hb : Released smallImage (onePage n h) b) : b < (n + 1) * pageSize := by
  obtain ⟨e, he, -, q, hq, hfreed⟩ := hb
  rw [List.mem_singleton.mp he] at hq
  have hrange := (Reaches.of_none (v := ⟨reserved smallImage, 0⟩) hhit).mp hq
  have hlt := hfreed.2.1
  have hwhole : pageSize / 0x1000 * 0x1000 = pageSize := by decide
  rw [hrange, hwhole] at hlt
  rw [Nat.succ_mul]
  exact hlt

/-- A page at 4M. -/
theorem identity_if_mapped_4M :
    ∃ heap s, early 4 smallImage (onePage 2 (by decide)) 24 = .ok heap ∧
      initMemory 4 smallImage heap (fun _ => 0) (onePage 2 (by decide)) = .ok s ∧
      AllIdentity s := by
  obtain ⟨heap, s, hearly, hrun⟩ : ∃ heap s,
      early 4 smallImage (onePage 2 (by decide)) 24 = .ok heap ∧
      initMemory 4 smallImage heap (fun _ => 0) (onePage 2 (by decide)) = .ok s :=
    ⟨_, _, rfl, rfl⟩
  have hmax : maxPhyMemAddr (onePage 2 (by decide)) ≤ number4G := by decide
  refine ⟨heap, s, hearly, hrun, (identity_if_mapped hearly hrun).1 (List.pairwise_singleton _ _)
    ⟨fun b hb => ?_, fun hgt => absurd hgt (Nat.not_lt_of_le hmax)⟩⟩
  obtain ⟨blocks, L, M, hjoined⟩ := early_ready hearly
  have hlt : b < 0x600000 := by
    rcases hb with hb | hb
    · exact Nat.lt_trans (hjoined.free_inside hb).2 (by decide)
    · exact onePage_released (by decide) hb
  have hpage : b / pageSize < 1024 := by
    simp only [pageSize]
    omega
  refine ⟨.inl hpage, fun hin => ?_⟩
  have hlow := hin.2
  simp only [number4G, pageSize] at *
  omega

/-- A page at 4G is the last page of memory: it is free in the bitmap, but
the loop maps nothing. -/
theorem last_page_not_mapped :
    ∃ heap s, early 4 smallImage (onePage 2048 (by decide)) 24 = .ok heap ∧
      initMemory 4 smallImage heap (fun _ => 0) (onePage 2048 (by decide)) = .ok s ∧
      Free s.heap 0x100000000 ∧ s.entry 0x100000000 = 0 ∧ ¬ Identity s 0x100000000 := by
  obtain ⟨heap, s, hearly, hrun, hbit⟩ : ∃ heap s,
      early 4 smallImage (onePage 2048 (by decide)) 24 = .ok heap ∧
      initMemory 4 smallImage heap (fun _ => 0) (onePage 2048 (by decide)) = .ok s ∧
      s.heap.phys.bit 2048 = true := ⟨_, _, rfl, rfl, by rfl⟩
  refine ⟨heap, s, hearly, hrun, ?_⟩
  obtain ⟨⟨heap', l⟩, he820, hpml4⟩ := bind_eq_ok.mp hrun
  obtain ⟨blocks, L, M, hjoined⟩ := early_ready hearly
  obtain ⟨⟨L', M', hshape⟩, -, -⟩ := initE820_free hjoined.shaped he820
  rcases initPml4_cases hpml4 with ⟨hle, -⟩ | ⟨-, hloop⟩
  · exact absurd hle (by decide)
  · rw [mapAbove, if_neg (by decide)] at hloop
    cases hloop
    refine ⟨(hshape.free_iff _).mpr ?_, ?_, ?_⟩
    · have hone : Kheap.freeAt heap'.phys 0x100000000 = 1 := if_pos hbit
      rw [freeCount, hone]
      omega
    · rw [static_entry, if_neg (by decide)]
    · rw [identity_static smallImage (by decide) rfl]
      decide

end Yaos.Boot
