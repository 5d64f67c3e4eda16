import Yaos.Lib.Seg
import Yaos.Slub.Model

/-!
# Size classes and the objects of a page

Which class a size goes to, and what `slub_add_page` makes of a page: a list
of the objects that begin in it. For a class whose size divides the page
they tile it. The classes of 96 and 192 bytes do not divide it; their last
object sticks out.
-/

namespace Yaos.Slub

open Yaos.Lib Function

/-- The bytes a block of the given size has. -/
def room (size : Nat) : Nat :=
  match kmallocSlab size with
  | .index i => if size ≤ kmallocMaxCacheSize then kmallocInfoSize i else newsize size
  | _ => newsize size

def slabIndex (size : Nat) : Nat :=
  match kmallocSlab size with
  | .index i => i
  | _ => 0

/-- Sizes whose class tiles a page: not 65 to 96, nor 129 to 192. -/
def Tiles (size : Nat) : Prop := ¬ (64 < size ∧ size ≤ 96) ∧ ¬ (128 < size ∧ size ≤ 192)

instance (size : Nat) : Decidable (Tiles size) := inferInstanceAs (Decidable (_ ∧ _))

theorem kmallocSlab_small {size : Nat} (h0 : 0 < size) (h : size ≤ kmallocMaxCacheSize) :
    kmallocSlab size = .index (slabIndex size) := by
  simp only [kmallocMaxCacheSize] at h
  have hmax : ¬ size > kmallocMaxSize := by
    simp only [kmallocMaxSize]
    omega
  unfold slabIndex kmallocSlab
  rw [if_neg hmax]
  split
  · rw [if_neg (by omega)]
  · rfl

theorem slabIndex_table {size : Nat} (h0 : 0 < size) (h : size ≤ 192) :
    slabIndex size = sizeIndex.getD (sizeIndexElem size) 0 := by
  have hmax : ¬ size > kmallocMaxSize := by
    simp only [kmallocMaxSize]
    omega
  simp only [slabIndex, kmallocSlab, if_neg hmax, if_pos h, if_neg (by omega : ¬ size = 0)]

theorem slabIndex_fls {size : Nat} (h0 : 192 < size) (h : size ≤ kmallocMaxCacheSize) :
    slabIndex size = Nat.log2 (size - 1) + 1 := by
  simp only [kmallocMaxCacheSize] at h
  have hmax : ¬ size > kmallocMaxSize := by
    simp only [kmallocMaxSize]
    omega
  have hmod : (size - 1) % 2 ^ 32 = size - 1 := Nat.mod_eq_of_lt (by omega)
  simp only [slabIndex, kmallocSlab, if_neg hmax, if_neg (by omega : ¬ size ≤ 192), fls, hmod,
    if_neg (by omega : ¬ size - 1 = 0)]

/-- A class that tiles a page has a power of two from 8 to 4096 as its size. -/
theorem kmallocInfoSize_pow {i : Nat} (h₁ : 3 ≤ i) (h₂ : i ≤ 12) : kmallocInfoSize i = 2 ^ i := by
  have : ∀ i < 13, 3 ≤ i → kmallocInfoSize i = 2 ^ i := by decide
  exact this i (by omega) h₁

/-- **Best class**: it holds the size. -/
theorem slabIndex_spec {size : Nat} (h0 : 0 < size) (h : size ≤ kmallocMaxCacheSize) :
    size ≤ kmallocInfoSize (slabIndex size) ∧ 1 ≤ slabIndex size ∧ slabIndex size ≤ 12 ∧
      (Tiles size → 3 ≤ slabIndex size) := by
  by_cases hsmall : size ≤ 192
  · rw [slabIndex_table h0 hsmall]
    -- the table has an element for each multiple of 8
    have htable : ∀ e < 24, 8 * (e + 1) ≤ kmallocInfoSize (sizeIndex.getD e 0) ∧
        1 ≤ sizeIndex.getD e 0 ∧ sizeIndex.getD e 0 ≤ 12 ∧
        (e < 8 ∨ 12 ≤ e ∧ e < 16 → 3 ≤ sizeIndex.getD e 0) := by
      decide
    have he : sizeIndexElem size = (size - 1) / 8 := rfl
    obtain ⟨h₁, h₂, h₃, h₄⟩ := htable (sizeIndexElem size) (by omega)
    exact ⟨by omega, h₂, h₃, fun ht => h₄ (by unfold Tiles at ht; omega)⟩
  · rw [slabIndex_fls (by omega) h]
    simp only [kmallocMaxCacheSize] at h
    have hlow : 7 ≤ Nat.log2 (size - 1) := (Nat.le_log2 (by omega)).mpr (by omega)
    have hhigh : Nat.log2 (size - 1) < 12 := (Nat.log2_lt (by omega)).mpr (by omega)
    have hlt : size - 1 < 2 ^ (Nat.log2 (size - 1) + 1) :=
      (Nat.log2_lt (by omega)).mp (Nat.lt_succ_self _)
    rw [kmallocInfoSize_pow (by omega) (by omega)]
    exact ⟨by omega, by omega, by omega, fun _ => by omega⟩

theorem room_small {size : Nat} (h0 : 0 < size) (h : size ≤ kmallocMaxCacheSize) :
    room size = kmallocInfoSize (slabIndex size) := by
  rw [room, kmallocSlab_small h0 h]
  exact if_pos h

theorem room_large {size : Nat} (h : kmallocMaxCacheSize < size) : room size = newsize size := by
  rw [room]
  split
  · rw [if_neg (by omega)]
  · rfl

theorem le_room {size : Nat} (h0 : 0 < size) (h : kmallocMaxCacheSize < size → size + 0xfff < 2 ^ 64) :
    size ≤ room size := by
  by_cases hs : size ≤ kmallocMaxCacheSize
  · rw [room_small h0 hs]
    exact (slabIndex_spec h0 hs).1
  · have hlt := h (by omega)
    rw [room_large (by omega), newsize, page4k]
    omega

/-! ## The objects of a page -/

/-- A pointer that may be `NULL`. -/
def ptr (p : Nat) : Option Nat := if p = 0 then none else some p

/-- The link in the first word of a free object. -/
def next (mem : Nat → Nat) (p : Nat) : Option Nat := ptr (mem p)

/-- `k` objects from `p` on. -/
def objects (size p k : Nat) : List Nat := (List.range k).map fun i => p + i * size

theorem objects_succ (size p k : Nat) :
    objects size p (k + 1) = p :: objects size (p + size) k := by
  simp only [objects, List.range_succ_eq_map, List.map_cons, List.map_map, Nat.zero_mul,
    Nat.add_zero, List.cons.injEq, true_and]
  refine List.map_congr_left fun i _ => ?_
  simp only [Function.comp, Nat.succ_mul]
  omega

theorem mem_objects {size p k x : Nat} : x ∈ objects size p k ↔ ∃ i < k, x = p + i * size := by
  simp only [objects, List.mem_map, List.mem_range, eq_comm]

theorem cover_objects (size p k b : Nat) :
    cover ((objects size p k).map fun a => ⟨a, size⟩) b = Range.has ⟨p, k * size⟩ b := by
  induction k generalizing p with
  | zero => simp [objects]
  | succ k ih =>
    rw [objects_succ, List.map_cons, cover_cons, ih, Nat.succ_mul,
      Range.has_split p b (Nat.le_add_left size (k * size)), Nat.add_sub_cancel]

/-- The loop of `slub_add_page` over the `k + 1` objects that begin before
`pend`, with the link of the last one: they become a list in front of `h`. -/
theorem linkObjects_spec {size h n k p pend : Nat} (mem : Nat → Nat) (hs : 0 < size) (hp : p ≠ 0)
    (hlast : p + k * size < pend) (hend : pend ≤ p + (k + 1) * size) (hn : k < n) :
    ∃ mem' last, linkObjects size pend n mem p = .ok (mem', last) ∧
      Seg (next (update mem' last h)) (some p) (objects size p (k + 1)) (ptr h) ∧
      ∀ x, x ∉ objects size p (k + 1) → update mem' last h x = mem x := by
  induction k generalizing n p mem with
  | zero =>
    obtain ⟨m, rfl⟩ : ∃ m, n = m + 1 := ⟨n - 1, by omega⟩
    refine ⟨mem, p, ?_, ?_, ?_⟩
    · rw [linkObjects, if_neg (by omega)]
    · rw [objects_succ]
      refine .cons ?_
      have hnext : next (update mem p h) p = ptr h := by simp [next]
      rw [hnext]
      exact .nil _
    · intro x hx
      rw [objects_succ, List.mem_cons, not_or] at hx
      exact update_of_ne hx.1 _ _
  | succ k ih =>
    obtain ⟨m, rfl⟩ : ∃ m, n = m + 1 := ⟨n - 1, by omega⟩
    have hmul : (k + 1 + 1) * size = (k + 1) * size + size := Nat.succ_mul _ _
    have hmul' : (k + 1) * size = k * size + size := Nat.succ_mul _ _
    obtain ⟨mem', last, hlink, hseg, hframe⟩ :=
      ih (n := m) (p := p + size) (update mem p (p + size)) (by omega) (by omega)
        (by omega) (by omega)
    -- the first object is not among the others
    have hfirst : p ∉ objects size (p + size) (k + 1) := by
      rw [mem_objects]
      rintro ⟨i, -, hi⟩
      have := Nat.zero_le (i * size)
      omega
    refine ⟨mem', last, ?_, ?_, ?_⟩
    · rw [linkObjects, if_pos (by omega)]
      exact hlink
    · rw [objects_succ]
      refine .cons ?_
      have hnext : next (update mem' last h) p = some (p + size) := by
        rw [next, hframe p hfirst, update_self, ptr, if_neg (by omega)]
      rw [hnext]
      exact hseg
    · intro x hx
      rw [objects_succ, List.mem_cons, not_or] at hx
      rw [hframe x hx.2, update_of_ne hx.1]

/-! ## Adding a page -/

/-- The number of objects that begin in a page. -/
def begun (size : Nat) : Nat := (page4k + size - 1) / size

theorem begun_bounds {size : Nat} (hs : 0 < size) :
    (begun size - 1) * size < page4k ∧ page4k ≤ begun size * size ∧ 0 < begun size := by
  have hdiv := Nat.div_add_mod (page4k + size - 1) size
  have hmod := Nat.mod_lt (page4k + size - 1) hs
  have hcomm : begun size * size = size * ((page4k + size - 1) / size) := Nat.mul_comm _ _
  have hpage : page4k = 4096 := rfl
  have hpos : 0 < begun size := Nat.div_pos (by omega) hs
  have hsub : (begun size - 1) * size = begun size * size - size := Nat.sub_one_mul _ _
  have hle : size ≤ begun size * size := Nat.le_mul_of_pos_left _ hpos
  exact ⟨by omega, by omega, hpos⟩

theorem objects_begun {size page a : Nat} (hs : 0 < size) (ha : a ∈ objects size page (begun size)) :
    a ∈ (⟨page, page4k⟩ : Range) := by
  obtain ⟨i, hi, rfl⟩ := mem_objects.mp ha
  have hbegin := (begun_bounds hs).1
  have hle : i * size ≤ (begun size - 1) * size := Nat.mul_le_mul_right _ (by omega)
  rw [Range.mem_def]
  dsimp only
  omega

/-- `slub_add_page` puts the objects that begin in the page in front of the
free list. -/
theorem slubAddPage_list {s : State} {cpu idx page : Nat} {old : List Nat}
    (hs : 0 < (s.cache cpu idx).size) (hidx : (s.cache cpu idx).idx < 16) (hp : page ≠ 0)
    (hold : Chain (next s.mem) (ptr (s.cache cpu idx).freehead) old)
    (hnew : ∀ a ∈ old, a ∉ (⟨page, page4k⟩ : Range)) :
    ∃ mem, slubAddPage s cpu idx page = .ok (true,
        ((({ s with mem := mem } : State).setHead cpu idx page).mark (page / page4k)
          (s.cache cpu idx).idx), some ⟨page, page4k⟩) ∧
      Chain (next mem) (some page)
        (objects (s.cache cpu idx).size page (begun (s.cache cpu idx).size) ++ old) ∧
      ∀ x, x ∉ (⟨page, page4k⟩ : Range) → mem x = s.mem x := by
  obtain ⟨hbegin, hstop, hpos⟩ := begun_bounds hs
  have hsucc := Nat.sub_add_cancel hpos
  -- at most one object for each byte of the page
  have hfew : begun (s.cache cpu idx).size - 1 < page4k :=
    Nat.lt_of_le_of_lt (Nat.le_mul_of_pos_right _ hs) hbegin
  obtain ⟨mem', last, hlink, hseg, hframe⟩ :=
    linkObjects_spec (h := (s.cache cpu idx).freehead) s.mem hs hp
      (Nat.add_lt_add_left hbegin page) (by rw [hsucc]; exact Nat.add_le_add_left hstop page) hfew
  rw [hsucc] at hseg hframe
  have hkeep : ∀ x, x ∉ (⟨page, page4k⟩ : Range) →
      update mem' last (s.cache cpu idx).freehead x = s.mem x :=
    fun x hx => hframe x fun hmem => hx (objects_begun hs hmem)
  refine ⟨update mem' last (s.cache cpu idx).freehead, ?_, ?_, hkeep⟩
  · simp [slubAddPage, hp, hlink, hidx, check]
  · -- the loop does not write to the objects of the old list
    refine hseg.append (hold.frame fun a ha => ?_)
    rw [next, next, hkeep a (hnew a ha)]

/-- The objects at multiples of `size` that lie inside the page. -/
def wholeObjects (size page : Nat) : List Nat :=
  (objects size page page4k).filter fun a => a + size ≤ page + page4k

def Whole (size a : Nat) : Prop := a % page4k + size ≤ page4k

/-- The page is carved as it should be: its whole objects in ascending order
before the old list, none past the end of its page, none on another. -/
structure Carved (s : State) (cpu idx page : Nat) (old : List Nat) : Prop where
  list : Chain (next s.mem) (ptr (s.cache cpu idx).freehead)
    (wholeObjects (s.cache cpu idx).size page ++ old)
  whole : (∀ a ∈ old, Whole (s.cache cpu idx).size a) →
    ∀ a ∈ wholeObjects (s.cache cpu idx).size page ++ old, Whole (s.cache cpu idx).size a
  apart : (∀ a ∈ old, Whole (s.cache cpu idx).size a) →
    (old.map fun a => Range.mk a (s.cache cpu idx).size).Pairwise Range.Apart →
    ((wholeObjects (s.cache cpu idx).size page ++ old).map fun a =>
      Range.mk a (s.cache cpu idx).size).Pairwise Range.Apart

theorem wholeObjects_eq {size : Nat} (page : Nat) (hs : 0 < size) :
    wholeObjects size page = objects size page (page4k / size) := by
  have hle : page4k / size ≤ page4k := Nat.div_le_self _ _
  have hsplit : page4k = page4k / size + (page4k - page4k / size) := by omega
  -- the `i`-th object is whole for `i` below the quotient
  have hiff : ∀ i, page + i * size + size ≤ page + page4k ↔ i < page4k / size := by
    intro i
    rw [← Nat.succ_le_iff, Nat.le_div_iff_mul_le hs, Nat.succ_mul]
    omega
  rw [wholeObjects, objects, List.filter_map, hsplit, List.range_add, ← hsplit,
    List.filter_append, List.filter_eq_self.mpr, List.filter_eq_nil_iff.mpr, List.append_nil]
  · rfl
  · intro x hx
    obtain ⟨j, -, rfl⟩ := List.mem_map.mp hx
    simp only [Function.comp, decide_eq_true_eq, hiff]
    omega
  · intro i hi
    simp only [Function.comp, decide_eq_true_eq, hiff]
    exact List.mem_range.mp hi

theorem begun_eq_iff {size : Nat} (hs : 0 < size) :
    begun size = page4k / size ↔ page4k % size = 0 := by
  obtain ⟨hbegin, hstop, hpos⟩ := begun_bounds hs
  have hdiv := Nat.div_add_mod page4k size
  have hmod := Nat.mod_lt page4k hs
  rw [Nat.mul_comm] at hdiv
  constructor
  · intro heq
    rw [heq] at hstop
    omega
  · intro hzero
    have hsub : (begun size - 1) * size = begun size * size - size := Nat.sub_one_mul _ _
    refine Nat.le_antisymm (Nat.le_of_not_lt fun hlt => ?_) (Nat.le_of_not_lt fun hlt => ?_)
    · have := Nat.mul_le_mul_right size (Nat.le_sub_one_of_lt hlt)
      omega
    · have := Nat.mul_le_mul_right size (Nat.succ_le_of_lt hlt)
      rw [Nat.succ_mul] at this
      omega

theorem tiles_page {i : Nat} (h₁ : 3 ≤ i) (h₂ : i ≤ 12) :
    ∃ k, begun (kmallocInfoSize i) = k + 1 ∧ (k + 1) * kmallocInfoSize i = page4k := by
  have hpow : 2 ^ (12 - i) * 2 ^ i = page4k := by
    rw [← Nat.pow_add, Nat.sub_add_cancel h₂]
    rfl
  have hpos : 0 < kmallocInfoSize i := kmallocInfoSize_pow h₁ h₂ ▸ Nat.two_pow_pos i
  have hdvd : page4k % kmallocInfoSize i = 0 := by
    rw [kmallocInfoSize_pow h₁ h₂, ← hpow]
    exact Nat.mul_mod_left _ _
  have hbegun := (begun_bounds hpos).2.2
  refine ⟨begun (kmallocInfoSize i) - 1, (Nat.sub_add_cancel hbegun).symm, ?_⟩
  rw [Nat.sub_add_cancel hbegun, (begun_eq_iff hpos).mpr hdvd]
  exact Nat.div_mul_cancel (Nat.dvd_of_mod_eq_zero hdvd)

theorem objects_whole {size page a : Nat}
    (ha : a ∈ objects size page (page4k / size)) :
    a + size ≤ page + page4k ∧ page ≤ a := by
  obtain ⟨i, hi, rfl⟩ := mem_objects.mp ha
  have hmul := Nat.mul_le_mul_right size (Nat.succ_le_of_lt hi)
  have hdiv := Nat.div_mul_le_self page4k size
  rw [Nat.succ_mul] at hmul
  omega

/-- A whole object that does not begin in the page has no byte in it. -/
theorem Whole.not_mem_page {size a b page : Nat} (hw : Whole size a) (hpage : page % page4k = 0)
    (ha : a ∉ (⟨page, page4k⟩ : Range)) (hb : b ∈ (⟨a, size⟩ : Range)) :
    b ∉ (⟨page, page4k⟩ : Range) := by
  simp only [Range.mem_def, Whole, page4k] at *
  omega

theorem Carved.of_dvd {s : State} {cpu idx page : Nat} {old : List Nat}
    (hs : 0 < (s.cache cpu idx).size) (hpage : page % page4k = 0)
    (hnew : ∀ a ∈ old, a ∉ (⟨page, page4k⟩ : Range))
    (hlist : Chain (next s.mem) (ptr (s.cache cpu idx).freehead)
      (wholeObjects (s.cache cpu idx).size page ++ old)) : Carved s cpu idx page old := by
  refine ⟨hlist, fun hold a ha => ?_, fun hold hap => ?_⟩
  · rw [wholeObjects_eq page hs] at ha
    rcases List.mem_append.mp ha with ha | ha
    · have := objects_whole ha
      simp only [Whole, page4k] at *
      omega
    · exact hold a ha
  · refine pairwise_apart_iff.mpr fun b => ?_
    have hold₁ := pairwise_apart_iff.mp hap b
    rw [wholeObjects_eq page hs, List.map_append, cover_append, cover_objects]
    by_cases hb : b ∈ (⟨page, page4k⟩ : Range)
    · -- only a new object can have the byte
      have hzero : cover (old.map fun a => Range.mk a (s.cache cpu idx).size) b = 0 := by
        refine cover_eq_zero.mpr fun r hr hbr => ?_
        obtain ⟨a, ha, rfl⟩ := List.mem_map.mp hr
        exact (hold a ha).not_mem_page hpage (hnew a ha) hbr hb
      have := Range.has_le ⟨page, page4k / (s.cache cpu idx).size * (s.cache cpu idx).size⟩ b
      omega
    · have hzero : Range.has ⟨page, page4k / (s.cache cpu idx).size * (s.cache cpu idx).size⟩ b
          = 0 := by
        refine if_neg fun hmem => hb ?_
        have := Nat.div_mul_le_self page4k (s.cache cpu idx).size
        simp only [Range.mem_def] at *
        omega
      omega

/-- **Carving a page**: `slub_add_page` links the objects it should exactly
for the object sizes that divide the page. -/
theorem slubAddPage_carves_iff {s : State} {cpu idx page : Nat} {old : List Nat}
    (hlow : 8 ≤ (s.cache cpu idx).size)
    (hidx : (s.cache cpu idx).idx < 16) (hp : page ≠ 0) (hpage : page % page4k = 0)
    (hold : Chain (next s.mem) (ptr (s.cache cpu idx).freehead) old)
    (hnew : ∀ a ∈ old, a ∉ (⟨page, page4k⟩ : Range)) :
    ∃ s', slubAddPage s cpu idx page = .ok (true, s', some ⟨page, page4k⟩) ∧
      (s'.cache cpu idx).size = (s.cache cpu idx).size ∧
      (Carved s' cpu idx page old ↔ page4k % (s.cache cpu idx).size = 0) := by
  have hs : 0 < (s.cache cpu idx).size := by omega
  obtain ⟨mem, hadd, hlist, -⟩ := slubAddPage_list hs hidx hp hold hnew
  obtain ⟨s', hs', hhead, hsize, hmem⟩ : ∃ s', s' = ((({ s with mem := mem } : State).setHead cpu idx
      page).mark (page / page4k) (s.cache cpu idx).idx) ∧ (s'.cache cpu idx).freehead = page ∧
      (s'.cache cpu idx).size = (s.cache cpu idx).size ∧ s'.mem = mem :=
    ⟨_, rfl, by simp [State.setHead], by simp [State.setHead], rfl⟩
  rw [← hs'] at hadd
  rw [← hmem] at hlist
  have hptr : ptr (s'.cache cpu idx).freehead = some page := by rw [hhead, ptr, if_neg hp]
  refine ⟨s', hadd, hsize, fun hcarved => ?_, fun hdvd => ?_⟩
  · -- there is one list, so the lengths agree
    have hlist' := hcarved.list
    rw [hptr, hsize, wholeObjects_eq page hs] at hlist'
    have hlen := congrArg List.length (Chain.unique hlist hlist')
    simp only [objects, List.length_append, List.length_map, List.length_range] at hlen
    exact (begun_eq_iff hs).mp (by omega)
  · refine Carved.of_dvd (hsize ▸ hs) hpage hnew ?_
    rw [hptr, hsize, wholeObjects_eq page hs, ← (begun_eq_iff hs).mpr hdvd]
    exact hlist

/-- The first page of the 2048-byte class. -/
theorem slubAddPage_carves_2048 :
    ∃ s', slubAddPage (initSlub 1 fun _ => 0) 0 11 0x10000 =
        .ok (true, s', some ⟨0x10000, page4k⟩) ∧ Carved s' 0 11 0x10000 [] := by
  have hold : Chain (next (initSlub 1 fun _ => 0).mem)
      (ptr ((initSlub 1 fun _ => 0).cache 0 11).freehead) [] := .nil none
  obtain ⟨s', hadd, -, hiff⟩ := slubAddPage_carves_iff (by decide) (by decide)
    (by decide : 0x10000 ≠ 0) (by decide) hold (by simp)
  exact ⟨s', hadd, hiff.mpr (by decide)⟩

/-- The first page of the 96-byte class: its 43rd object, at offset 4032, is
on the free list and ends 32 bytes past the page. -/
theorem slubAddPage_sticks_out :
    ∃ s', slubAddPage (initSlub 1 fun _ => 0) 0 1 0x10000 =
        .ok (true, s', some ⟨0x10000, page4k⟩) ∧ (s'.cache 0 1).size = 96 ∧
      Chain (next s'.mem) (ptr (s'.cache 0 1).freehead) (objects 96 0x10000 43) ∧
      0x10fc0 ∈ objects 96 0x10000 43 ∧ ¬ Whole 96 0x10fc0 ∧ ¬ Carved s' 0 1 0x10000 [] := by
  have hold : Chain (next (initSlub 1 fun _ => 0).mem)
      (ptr ((initSlub 1 fun _ => 0).cache 0 1).freehead) [] := .nil none
  obtain ⟨mem, hadd, hlist, -⟩ := slubAddPage_list (by decide) (by decide)
    (by decide : 0x10000 ≠ 0) hold (by simp)
  refine ⟨_, hadd, rfl, hlist, by decide, by unfold Whole; decide, fun hcarved => ?_⟩
  -- 43 objects are linked, 42 are whole
  have hlen : (objects 96 0x10000 43 ++ []).length = (wholeObjects 96 0x10000 ++ []).length :=
    congrArg List.length (Chain.unique hlist hcarved.list)
  rw [wholeObjects_eq _ (by decide)] at hlen
  revert hlen
  decide

end Yaos.Slub
