import Yaos.Slub.History

/-!
# What the tag of a page says of its blocks

`get_cache_from_addr` reads the class of a small block from the tag of the
page in which the block begins. A tag is or-ed to when its page joins a
class or a large block and is never cleared, so a page that comes back from
the heap still has its old one. `Op.Fits` is the condition under which the
new tag comes out right: the old one has no bit that the class has not.

`Marked` speaks of the addresses at which blocks and free objects begin, not
of the bytes they have, so it also holds of classes that do not tile a page.
-/

namespace Yaos.Slub

open Yaos.Lib Function

/-- The tag of the first page of a block: its class, or `LARGE_IDX`. -/
def kind (size : Nat) : Nat :=
  if size ≤ kmallocMaxCacheSize then slabIndex size else largeIdx

/-- How many free objects begin at an address. -/
def freeCount (cpus : Nat) (FL : Lists) (a : Nat) : Nat :=
  ∑ x ∈ Finset.range cpus ×ˢ Finset.range 16, (FL x).count a

/-- A page that joins a class has an old tag that the class's covers, the
size of a large block does not wrap, and a caller's write leaves the links
of free objects alone. -/
def Op.Fits (w : World) : Op → Prop
  | .malloc cpu size answer =>
      (0 < size → size ≤ kmallocMaxCacheSize →
        (w.slub.cache cpu (slabIndex size)).freehead = 0 → answer ≠ 0 →
        w.slub.tag answer ||| slabIndex size = slabIndex size) ∧
      (kmallocMaxCacheSize < size → size + 0xfff < 2 ^ 64)
  | .mfree _ _ => True
  | .mfreeZero _ => True
  | .write mem => ∀ cpu < w.slub.cpus, ∀ i < 16, ∀ a, w.slub.OnList cpu i a →
      mem a = w.slub.mem a

/-- The invariant: free objects and live blocks begin at different addresses
of slub's own, in pages with the right tag. -/
structure Marked (w : World) (FL : Lists) : Prop extends Listed w.slub FL where
  bits : ∀ x, w.slub.pageBits x < 16
  low : ∀ a, w.own a = true → page4k ≤ a
  free : ∀ cpu < w.slub.cpus, ∀ i < 16, ∀ a ∈ FL (cpu, i),
    1 ≤ i ∧ i ≤ 12 ∧ w.own a = true ∧ w.slub.tag a = i
  live : ∀ b ∈ w.live, 0 < b.size ∧ w.own b.addr = true ∧ w.slub.tag b.addr = kind b.size ∧
    (kmallocMaxCacheSize < b.size → b.addr % page4k = 0)
  once : ∀ a, (w.live.map Block.addr).count a + freeCount w.slub.cpus FL a ≤ 1

variable {w w' : World} {FL : Lists} {cpu i : Nat}

/-! ## Tags -/

theorem State.mark_pageBits (s : State) (offset idx x : Nat) :
    (s.mark offset idx).pageBits x =
      if x = offset then s.pageBits x ||| idx else s.pageBits x := by
  simp only [State.mark, update_apply]
  split
  case isTrue heq => rw [heq]
  case isFalse => rfl

theorem markNext_pageBits (n : Nat) (s : State) (offset x : Nat) :
    (markNext n s offset).pageBits x =
      if offset ≤ x ∧ x < offset + n then s.pageBits x ||| largeNext else s.pageBits x := by
  induction n generalizing s offset with
  | zero => rw [if_neg (by omega), markNext]
  | succ n ih =>
    rw [markNext, ih, State.mark_pageBits]
    by_cases hx : x = offset
    · rw [if_neg (by omega), if_pos hx, if_pos (by omega)]
    · rw [if_neg hx]
      by_cases hin : offset + 1 ≤ x ∧ x < offset + 1 + n
      · rw [if_pos hin, if_pos (by omega)]
      · rw [if_neg hin, if_neg (by omega)]

theorem newsize_whole (size : Nat) : newsize size / page4k * page4k = newsize size := by
  rw [newsize, Nat.mul_div_cancel _ (by decide)]

theorem newsize_pages {size : Nat} (h : kmallocMaxCacheSize < size) (hwrap : size + 0xfff < 2 ^ 64) :
    1 < newsize size / page4k := by
  rw [newsize, Nat.mul_div_cancel _ (by decide), Nat.mod_eq_of_lt hwrap]
  simp only [kmallocMaxCacheSize, page4k] at *
  omega

theorem kind_small {size : Nat} (h : size ≤ kmallocMaxCacheSize) : kind size = slabIndex size :=
  if_pos h

theorem kind_large {size : Nat} (h : kmallocMaxCacheSize < size) : kind size = largeIdx :=
  if_neg (Nat.not_le_of_lt h)

/-- The tags after `__kmalloc_large`: `LARGE_IDX` or-ed to the first page,
`LARGE_NEXT` to the others, and nothing to a page outside. -/
theorem kmallocLarge_pageBits (s : State) (size : Nat) {answer : Nat} (ha : answer ≠ 0)
    (hal : answer % page4k = 0) (hpages : 0 < newsize size / page4k) (x : Nat) :
    (kmallocLarge s size answer).2.1.pageBits x =
      if x = answer / page4k then s.pageBits x ||| largeIdx
      else if answer / page4k < x ∧ x < answer / page4k + newsize size / page4k then
        s.pageBits x ||| largeNext
      else s.pageBits x := by
  have hcount : (answer + newsize size) / page4k - (answer / page4k + 1) =
      newsize size / page4k - 1 := by
    have := newsize_whole size
    simp only [page4k] at *
    omega
  rw [kmallocLarge, if_neg ha]
  dsimp only
  rw [hcount, markNext_pageBits, State.mark_pageBits]
  by_cases hx : x = answer / page4k
  · rw [if_neg (by omega), if_pos hx, if_pos hx]
  · rw [if_neg hx, if_neg hx]
    by_cases hin : answer / page4k < x ∧ x < answer / page4k + newsize size / page4k
    · rw [if_pos (by omega), if_pos hin]
    · rw [if_neg (by omega), if_neg hin]

theorem kmallocLarge_tag (s : State) (size : Nat) {answer a : Nat} (ha : answer ≠ 0)
    (hal : answer % page4k = 0) (hpages : 0 < newsize size / page4k)
    (hout : a ∉ (⟨answer, newsize size⟩ : Range)) :
    (kmallocLarge s size answer).2.1.tag a = s.tag a := by
  rw [← newsize_whole, Range.mem_blocks (by decide) hal] at hout
  rw [State.tag, kmallocLarge_pageBits s size ha hal hpages, if_neg (by omega), if_neg (by omega),
    State.tag]

/-! ## Addresses -/

theorem count_le_freeCount {cpus : Nat} (hc : cpu < cpus) (hi : i < 16) (FL : Lists) (a : Nat) :
    (FL (cpu, i)).count a ≤ freeCount cpus FL a :=
  Finset.single_le_sum (f := fun x => (FL x).count a) (fun _ _ => Nat.zero_le _) (mem_index hc hi)

theorem freeCount_update {cpus : Nat} (hc : cpu < cpus) (hi : i < 16) (FL : Lists) (l : List Nat)
    (a : Nat) :
    freeCount cpus (update FL (cpu, i) l) a + (FL (cpu, i)).count a =
      freeCount cpus FL a + l.count a :=
  sum_lists_update hc hi (fun _ l => l.count a) FL l

theorem Marked.none_of_not_own (h : Marked w FL) {a : Nat} (ha : w.own a = false) :
    (w.live.map Block.addr).count a = 0 ∧ freeCount w.slub.cpus FL a = 0 := by
  constructor
  · refine List.count_eq_zero.mpr fun hmem => ?_
    obtain ⟨b, hb, rfl⟩ := List.mem_map.mp hmem
    rw [(h.live b hb).2.1] at ha
    cases ha
  · refine Finset.sum_eq_zero fun x hx => List.count_eq_zero.mpr fun hmem => ?_
    obtain ⟨hc, hi⟩ := Finset.mem_product.mp hx
    obtain ⟨-, -, hown, -⟩ := h.free x.1 (Finset.mem_range.mp hc) x.2 (Finset.mem_range.mp hi) a hmem
    rw [hown] at ha
    cases ha

theorem Marked.live_not_free (h : Marked w FL) {b : Block} (hb : b ∈ w.live) (hc : cpu < w.slub.cpus)
    (hi : i < 16) : b.addr ∉ FL (cpu, i) := by
  intro hmem
  have hlive := List.count_pos_iff.mpr (List.mem_map_of_mem (f := Block.addr) hb)
  have hfree := List.count_pos_iff.mpr hmem
  have hle := count_le_freeCount hc hi FL b.addr
  have honce := h.once b.addr
  omega

theorem Marked.relist {s' : State} {own' : Nat → Bool} {live' : List Block} {p : Nat} {l : List Nat}
    (h : Marked w FL) (hcpus : s'.cpus = w.slub.cpus)
    (hcache : s'.cache = (w.slub.setHead cpu i p).cache)
    (hframe : ∀ a, w.own a = true → a ∉ w.live.map Block.addr → s'.mem a = w.slub.mem a)
    (hlist : Chain (next s'.mem) (ptr p) l) (hbits : ∀ x, s'.pageBits x < 16)
    (hlow : ∀ a, own' a = true → page4k ≤ a)
    (hkeep : ∀ a, w.own a = true → own' a = true ∧ s'.tag a = w.slub.tag a)
    (hfree : ∀ a ∈ l, 1 ≤ i ∧ i ≤ 12 ∧ own' a = true ∧ s'.tag a = i)
    (hlive : ∀ b ∈ live', 0 < b.size ∧ own' b.addr = true ∧ s'.tag b.addr = kind b.size ∧
      (kmallocMaxCacheSize < b.size → b.addr % page4k = 0))
    (honce : ∀ a, (live'.map Block.addr).count a +
      freeCount w.slub.cpus (update FL (cpu, i) l) a ≤ 1) :
    Marked ⟨s', own', live'⟩ (update FL (cpu, i) l) := by
  refine ⟨h.toListed.relist hcpus hcache ?_ hlist, hbits, hlow, ?_, hlive, ?_⟩
  · intro cpu' hc' i' hi' _ a ha
    refine hframe a (h.free cpu' hc' i' hi' a ha).2.2.1 fun hmem => ?_
    obtain ⟨b, hb, rfl⟩ := List.mem_map.mp hmem
    exact h.live_not_free hb hc' hi' ha
  · intro cpu' hc' i' hi' a ha
    by_cases heq : (cpu', i') = (cpu, i)
    · rw [heq, update_self] at ha
      exact (Prod.mk.inj heq).2 ▸ hfree a ha
    · rw [update_of_ne heq] at ha
      obtain ⟨h₁, h₂, hown, htag⟩ := h.free cpu' (hcpus ▸ hc') i' hi' a ha
      obtain ⟨hown', htag'⟩ := hkeep a hown
      exact ⟨h₁, h₂, hown', htag'.trans htag⟩
  · intro a
    dsimp only
    rw [hcpus]
    exact honce a

/-! ## Allocating -/

theorem Marked.pop {a size : Nat} {l : List Nat} (h : Marked w FL) (hc : cpu < w.slub.cpus)
    (hl : FL (cpu, slabIndex size) = a :: l) (h0 : 0 < size) (hsize : size ≤ kmallocMaxCacheSize) :
    Marked ⟨w.slub.setHead cpu (slabIndex size) (w.slub.mem a), w.own, ⟨a, size⟩ :: w.live⟩
      (update FL (cpu, slabIndex size) l) := by
  have hi : slabIndex size < 16 := by
    have := (slabIndex_spec h0 hsize).2.2.1
    omega
  have hchain := h.lists cpu hc _ hi
  rw [hl] at hchain
  have hobjs := h.free cpu hc _ hi
  rw [hl] at hobjs
  refine h.relist rfl rfl (fun _ _ _ => rfl) hchain.tail h.bits h.low (fun a ha => ⟨ha, rfl⟩)
    (fun a ha => hobjs a (List.mem_cons_of_mem _ ha)) ?_ ?_
  · intro b hb
    rcases List.mem_cons.mp hb with rfl | hb
    · obtain ⟨-, -, hown, htag⟩ := hobjs a List.mem_cons_self
      exact ⟨h0, hown, htag.trans (kind_small hsize).symm, fun hlarge => absurd hsize (Nat.not_le_of_lt hlarge)⟩
    · exact h.live b hb
  · -- the address moves from the list to the live blocks
    intro x
    have hupd := freeCount_update hc hi FL l x
    have honce := h.once x
    rw [hl, List.count_cons] at hupd
    rw [List.map_cons, List.count_cons]
    dsimp only at *
    omega

theorem nodup_objects {size : Nat} (p k : Nat) (hs : 0 < size) : (objects size p k).Nodup := by
  refine List.Nodup.map (fun i j hij => ?_) List.nodup_range
  exact Nat.eq_of_mul_eq_mul_right hs (Nat.add_left_cancel hij)

theorem Marked.slubAddPage {answer : Nat} {s' : State} (h : Marked w FL) (hc : cpu < w.slub.cpus)
    (h₁ : 1 ≤ i) (h₂ : i ≤ 12) (hempty : FL (cpu, i) = [])
    (hfresh : w.Fresh (some ⟨answer, page4k⟩)) (hfit : w.slub.tag answer ||| i = i)
    (hadd : Slub.slubAddPage w.slub cpu i answer = .ok (true, s', some ⟨answer, page4k⟩)) :
    s'.cpus = w.slub.cpus ∧ (s'.cache cpu i).freehead = answer ∧
      ∃ l, Marked ⟨s', obtained w.own (some ⟨answer, page4k⟩), w.live⟩
        (update FL (cpu, i) (answer :: l)) := by
  have hi : i < 16 := by omega
  obtain ⟨hidx, hsize⟩ := h.caches cpu hc i h₁ h₂
  obtain ⟨h0, hal, hown⟩ := hfresh _ rfl
  dsimp only at h0 hal
  have hpos := kmallocInfoSize_pos h₁ h₂
  have hhead := h.lists cpu hc i hi
  rw [hempty] at hhead
  obtain ⟨mem, hadd', hlist, hframe⟩ := slubAddPage_list (hsize ▸ hpos) (hidx.trans_lt hi) h0 hhead
    (by simp)
  rw [hadd] at hadd'
  cases hadd'
  obtain ⟨-, -, hbegun⟩ := begun_bounds hpos
  rw [hsize, List.append_nil] at hlist
  -- what slub owned before is in another page
  have hout : ∀ a, w.own a = true → a ∉ (⟨answer, page4k⟩ : Range) := by
    intro a ha hmem
    rw [hown a hmem] at ha
    cases ha
  obtain ⟨l, hl⟩ : ∃ l, objects (kmallocInfoSize i) answer (begun (kmallocInfoSize i)) =
      answer :: l := ⟨_, by rw [← Nat.sub_add_cancel hbegun, objects_succ]⟩
  have hin : ∀ a ∈ answer :: l, a ∈ (⟨answer, page4k⟩ : Range) :=
    fun a ha => objects_begun hpos (hl ▸ ha)
  have hnodup : (answer :: l).Nodup := hl ▸ nodup_objects _ _ hpos
  rw [hl] at hlist
  refine ⟨rfl, by simp [State.setHead], l, h.relist (p := answer) rfl rfl ?_ ?_ ?_ ?_ ?_ ?_ ?_ ?_⟩
  · exact fun a ha _ => hframe a (hout a ha)
  · rw [ptr, if_neg h0]
    exact hlist
  · intro x
    rw [State.mark_pageBits]
    split
    case isTrue => exact Nat.or_lt_two_pow (n := 4) (h.bits x) (hidx.trans_lt hi)
    case isFalse => exact h.bits x
  · exact low_obtained h.low (Fresh.low h0 hal)
  · intro a ha
    refine ⟨obtained_of_own _ ha, ?_⟩
    rw [State.tag, State.mark_pageBits, if_neg fun heq => hout a ha ((Range.mem_block (by decide) hal).mpr heq)]
    rfl
  · intro a ha
    have hpage := (Range.mem_block (by decide) hal).mp (hin a ha)
    refine ⟨h₁, h₂, obtained_of_mem (hin a ha), ?_⟩
    rw [State.tag, State.mark_pageBits, if_pos hpage, hpage, hidx]
    exact hfit
  · intro b hb
    obtain ⟨hsize', hown', htag, halign⟩ := h.live b hb
    refine ⟨hsize', obtained_of_own _ hown', ?_, halign⟩
    rw [State.tag, State.mark_pageBits,
      if_neg fun heq => hout _ hown' ((Range.mem_block (by decide) hal).mpr heq)]
    exact htag
  · -- the new objects begin where nothing did
    intro a
    have hupd := freeCount_update hc hi FL (answer :: l) a
    have honce := h.once a
    rw [hempty, List.count_nil] at hupd
    by_cases ha : a ∈ answer :: l
    · obtain ⟨hzero, hfree⟩ := h.none_of_not_own (hown a (hin a ha))
      have := List.nodup_iff_count_le_one.mp hnodup a
      omega
    · have := List.count_eq_zero.mpr ha
      omega

theorem Marked.kmalloc {size answer v : Nat} {s' : State} {got : Option Range} (h : Marked w FL)
    (hc : cpu < w.slub.cpus) (hsize : size ≤ kmallocMaxCacheSize)
    (hfit : 0 < size → (w.slub.cache cpu (slabIndex size)).freehead = 0 → answer ≠ 0 →
      w.slub.tag answer ||| slabIndex size = slabIndex size)
    (hrun : Slub.kmalloc w.slub cpu size answer = .ok (v, s', got)) (hfresh : w.Fresh got) :
    ∃ FL', Marked ⟨s', obtained w.own got, w.hand v size⟩ FL' := by
  rcases kmalloc_cases hsize hrun with ⟨hnone, rfl, rfl⟩ | ⟨hpos, hv, hcase⟩
  · rw [World.hand_none hnone]
    exact ⟨FL, h⟩
  obtain ⟨-, h₁, h₂, -⟩ := slabIndex_spec hpos hsize
  have hi : slabIndex size < 16 := by omega
  rw [World.hand_some hv hpos]
  rcases hcase with ⟨hhead, ha, rfl, s₁, hadd, rfl, rfl⟩ | ⟨rfl, rfl, rfl⟩
  · obtain ⟨hcpus, hfirst, l, hmarked⟩ :=
      h.slubAddPage hc h₁ h₂ (h.toListed.empty hc hi hhead) hfresh (hfit hpos hhead ha) hadd
    rw [hfirst]
    exact ⟨_, hmarked.pop (hcpus ▸ hc) (update_self _ _ _) hpos hsize⟩
  · obtain ⟨l, hl⟩ := h.toListed.head_cons hc hi hv
    exact ⟨_, h.pop hc hl hpos hsize⟩

theorem or_largeIdx {t : Nat} (h : t < 16) : t ||| largeIdx = largeIdx := by
  have : ∀ t < 16, t ||| largeIdx = largeIdx := by decide
  exact this t h

theorem Marked.kmallocLarge {size : Nat} (answer : Nat) (h : Marked w FL) (hsize : kmallocMaxCacheSize < size)
    (hwrap : size + 0xfff < 2 ^ 64) (hfresh : w.Fresh (Slub.kmallocLarge w.slub size answer).2.2) :
    Marked ⟨(Slub.kmallocLarge w.slub size answer).2.1,
      obtained w.own (Slub.kmallocLarge w.slub size answer).2.2,
      w.hand (Slub.kmallocLarge w.slub size answer).1 size⟩ FL := by
  have hpages := newsize_pages hsize hwrap
  by_cases ha : answer = 0
  · rw [Slub.kmallocLarge, if_pos ha]
    exact h
  have hbits := kmallocLarge_pageBits w.slub size ha
  have htags := fun a => kmallocLarge_tag w.slub size (a := a) ha
  have hstate : ∃ t, Slub.kmallocLarge w.slub size answer =
      (answer, t, some ⟨answer, newsize size⟩) ∧ t.cpus = w.slub.cpus ∧ t.cache = w.slub.cache ∧
      t.mem = w.slub.mem := ⟨_, if_neg ha, by simp, by simp, by simp⟩
  obtain ⟨t, heq, hcpus, hcache, hmem⟩ := hstate
  rw [heq] at hfresh hbits htags ⊢
  obtain ⟨h0, hal, hown⟩ := hfresh _ rfl
  dsimp only at h0 hal hbits htags ⊢
  replace hbits := hbits hal (by omega)
  -- what slub owned before is in other pages
  have hkeep : ∀ a, w.own a = true → t.tag a = w.slub.tag a := by
    intro a hown'
    refine htags a hal (by omega) fun hmem => ?_
    rw [hown a hmem] at hown'
    cases hown'
  have hfirst : answer ∈ (⟨answer, newsize size⟩ : Range) := by
    have := newsize_whole size
    simp only [Range.mem_def, page4k] at *
    omega
  rw [World.hand_some ha (by omega)]
  constructor
  case toListed =>
    refine ⟨?_, ?_, ?_⟩
    · rw [hcpus, hcache]
      exact h.caches
    · rw [hcpus, hcache]
      exact h.large
    · rw [hcpus, hcache, hmem]
      exact h.lists
  case bits =>
    intro x
    dsimp only
    rw [hbits]
    split
    · exact Nat.or_lt_two_pow (n := 4) (h.bits x) (by decide)
    split
    · exact Nat.or_lt_two_pow (n := 4) (h.bits x) (by decide)
    · exact h.bits x
  case low => exact low_obtained h.low (Fresh.low h0 hal)
  case free =>
    dsimp only
    rw [hcpus]
    intro cpu hc i hi a hfree
    obtain ⟨h₁, h₂, hown', htag⟩ := h.free cpu hc i hi a hfree
    exact ⟨h₁, h₂, obtained_of_own _ hown', (hkeep a hown').trans htag⟩
  case live =>
    intro b hb
    dsimp only at hb ⊢
    rcases List.mem_cons.mp hb with rfl | hb
    · refine ⟨by dsimp only; omega, obtained_of_mem hfirst, ?_, fun _ => hal⟩
      rw [State.tag, hbits, if_pos rfl, or_largeIdx (h.bits _), kind_large hsize]
    · obtain ⟨hpos, hown', htag, halign⟩ := h.live b hb
      exact ⟨hpos, obtained_of_own _ hown', (hkeep _ hown').trans htag, halign⟩
  case once =>
    intro a
    dsimp only
    rw [hcpus, List.map_cons, List.count_cons]
    have honce := h.once a
    dsimp only
    split
    case isTrue haddr =>
      obtain ⟨hzero, hfree⟩ := h.none_of_not_own (hown a (beq_iff_eq.mp haddr ▸ hfirst))
      omega
    case isFalse => omega

/-! ## Freeing -/

/-- The state after a block is put on a free list. -/
def State.pushed (s : State) (cpu idx p : Nat) : State :=
  ({ s with mem := update s.mem p (s.cache cpu idx).freehead } : State).setHead cpu idx p

theorem Marked.addr_ne_zeroSizePtr {b : Block} (h : Marked w FL) (hb : b ∈ w.live) :
    b.addr ≠ zeroSizePtr := by
  have hhigh := h.low _ (h.live b hb).2.1
  simp only [page4k, zeroSizePtr] at *
  omega

/-- `slub_mfree` of a live small block puts it on the list of its class. -/
theorem Marked.slubMfree_small {b : Block} (h : Marked w FL) (hb : b ∈ w.live)
    (hsize : b.size ≤ kmallocMaxCacheSize) (hc : cpu < w.slub.cpus) (fuel : Nat) :
    slubMfree fuel w.slub cpu b.addr =
      .ok (w.slub.pushed cpu (slabIndex b.size) b.addr, none) := by
  obtain ⟨hpos, -, htag, -⟩ := h.live b hb
  rw [kind_small hsize] at htag
  obtain ⟨-, h₁, h₂, -⟩ := slabIndex_spec hpos hsize
  have hidx : (w.slub.cache cpu (slabIndex b.size)).idx ≠ largeIdx := by
    rw [(h.caches cpu hc _ h₁ h₂).1, largeIdx]
    omega
  rw [slubMfree, kmfree, if_neg (h.addr_ne_zeroSizePtr hb)]
  dsimp only
  rw [htag, if_neg hidx]
  rfl

/-- `slub_mfree` of a live large block goes by the tags. -/
theorem Marked.slubMfree_large {b : Block} (h : Marked w FL) (hb : b ∈ w.live)
    (hsize : kmallocMaxCacheSize < b.size) (hc : cpu < w.slub.cpus) (fuel : Nat) :
    slubMfree fuel w.slub cpu b.addr = (do
      let size ← largeSize w.slub fuel (b.addr / page4k) 0
      .ok (w.slub, some ⟨b.addr, size⟩)) := by
  rw [slubMfree, kmfree, if_neg (h.addr_ne_zeroSizePtr hb)]
  dsimp only
  rw [(h.live b hb).2.2.1, kind_large hsize, h.large cpu hc, if_pos rfl]

theorem count_live_erase {live : List Block} {b : Block} (hb : b ∈ live) (a : Nat) :
    ((live.erase b).map Block.addr).count a + (if b.addr = a then 1 else 0) =
      (live.map Block.addr).count a := by
  have hperm := ((List.perm_cons_erase hb).map Block.addr).count_eq a
  rw [hperm, List.map_cons, List.count_cons]
  simp

/-- A live small block becomes the head of a free list of its class. -/
theorem Marked.push {b : Block} (h : Marked w FL) (hc : cpu < w.slub.cpus) (hb : b ∈ w.live)
    (hsize : b.size ≤ kmallocMaxCacheSize) :
    Marked ⟨w.slub.pushed cpu (slabIndex b.size) b.addr, w.own, w.live.erase b⟩
      (update FL (cpu, slabIndex b.size) (b.addr :: FL (cpu, slabIndex b.size))) := by
  obtain ⟨hpos, hown, htag, -⟩ := h.live b hb
  obtain ⟨-, h₁, h₂, -⟩ := slabIndex_spec hpos hsize
  have hi : slabIndex b.size < 16 := by omega
  have hhigh := h.low _ hown
  have hnot := h.live_not_free hb hc hi
  rw [kind_small hsize] at htag
  refine h.relist (p := b.addr) rfl rfl ?_ ?_ h.bits h.low (fun a ha => ⟨ha, rfl⟩) ?_ ?_ ?_
  · intro a _ hlive
    have hne : a ≠ b.addr := by
      rintro rfl
      exact hlive (List.mem_map_of_mem hb)
    exact update_of_ne hne _ _
  · have hhead : ptr b.addr = some b.addr := by
      rw [ptr, if_neg]
      simp only [page4k] at hhigh
      omega
    rw [hhead]
    refine .cons ?_
    have hnext : next (update w.slub.mem b.addr
        (w.slub.cache cpu (slabIndex b.size)).freehead) b.addr =
        ptr (w.slub.cache cpu (slabIndex b.size)).freehead := by simp [next]
    refine hnext ▸ (h.lists cpu hc _ hi).frame fun a ha => ?_
    have hne : a ≠ b.addr := by
      rintro rfl
      exact hnot ha
    exact congrArg ptr (update_of_ne hne _ _)
  · intro a ha
    rcases List.mem_cons.mp ha with rfl | ha
    · exact ⟨h₁, h₂, hown, htag⟩
    · exact h.free cpu hc _ hi a ha
  · exact fun c hcm => h.live c (List.mem_of_mem_erase hcm)
  · -- the address moves from the live blocks to the list
    intro a
    have hupd := freeCount_update hc hi FL (b.addr :: FL (cpu, slabIndex b.size)) a
    have honce := h.once a
    have hlive := count_live_erase hb a
    rw [List.count_cons] at hupd
    simp only [beq_iff_eq] at hupd
    omega

/-- A large block, however long its tags say it is: what goes back to the heap
is pages in which nothing else begins. -/
theorem Marked.giveBack {b : Block} {n : Nat} (h : Marked w FL) (hb : b ∈ w.live)
    (hsize : kmallocMaxCacheSize < b.size)
    (hnext : ∀ j, 0 < j → j < n → w.slub.pageBits (b.addr / page4k + j) = largeNext) :
    Marked ⟨w.slub, givenBack w.own (some ⟨b.addr, n * page4k⟩), w.live.erase b⟩ FL := by
  obtain ⟨hpos, hown, htag, halign⟩ := h.live b hb
  have hal := halign hsize
  rw [kind_large hsize] at htag
  -- a page of the range is tagged `LARGE_IDX` if it is the first one, else `LARGE_NEXT`
  have hrange : ∀ a ∈ (⟨b.addr, n * page4k⟩ : Range),
      a / page4k = b.addr / page4k ∨ w.slub.tag a = largeNext := by
    intro a ha
    rw [Range.mem_blocks (by decide) hal] at ha
    by_cases hfirst : a / page4k = b.addr / page4k
    · exact .inl hfirst
    · have heq : a / page4k = b.addr / page4k + (a / page4k - b.addr / page4k) := by omega
      refine .inr ?_
      rw [State.tag, heq]
      exact hnext _ (by omega) (by omega)
  have hkeep : ∀ a, w.own a = true → a ∉ (⟨b.addr, n * page4k⟩ : Range) →
      givenBack w.own (some ⟨b.addr, n * page4k⟩) a = true := by
    intro a ha hnot
    simp [givenBack, ha, hnot]
  refine ⟨h.toListed, h.bits, low_givenBack h.low (some ⟨b.addr, n * page4k⟩), ?_, ?_, ?_⟩
  · intro cpu hc i hi a ha
    obtain ⟨h₁, h₂, hown', htag'⟩ := h.free cpu hc i hi a ha
    refine ⟨h₁, h₂, hkeep a hown' fun hmem => ?_, htag'⟩
    rcases hrange a hmem with hpage | hlarge
    · rw [State.tag, hpage] at htag'
      rw [State.tag, htag', largeIdx] at htag
      omega
    · rw [htag', largeNext] at hlarge
      omega
  · intro c hcm
    dsimp only at hcm
    have hcl := List.mem_of_mem_erase hcm
    obtain ⟨hpos', hown', htag', halign'⟩ := h.live c hcl
    refine ⟨hpos', hkeep _ hown' fun hmem => ?_, htag', halign'⟩
    by_cases hs : c.size ≤ kmallocMaxCacheSize
    · rw [kind_small hs] at htag'
      have h₂ := (slabIndex_spec hpos' hs).2.2.1
      rcases hrange _ hmem with hpage | hlarge
      · rw [State.tag, hpage] at htag'
        rw [State.tag, htag', largeIdx] at htag
        omega
      · rw [htag', largeNext] at hlarge
        omega
    · have hlarge := Nat.lt_of_not_le hs
      rw [kind_large hlarge] at htag'
      rcases hrange _ hmem with hpage | hnext'
      · -- two large blocks would begin at one address
        have haddr : c.addr = b.addr := by
          have := halign' hlarge
          simp only [page4k] at *
          omega
        have hcount := count_live_erase hb b.addr
        have hc₁ := List.count_pos_iff.mpr (List.mem_map_of_mem (f := Block.addr) hcm)
        have honce := h.once b.addr
        rw [haddr] at hc₁
        rw [if_pos rfl] at hcount
        omega
      · rw [htag'] at hnext'
        cases hnext'
  · intro a
    have honce := h.once a
    have hlive := count_live_erase hb a
    dsimp only
    omega

theorem Marked.slubMfree {fuel : Nat} {b : Block} {s' : State} {given : Option Range}
    (h : Marked w FL) (hc : cpu < w.slub.cpus) (hb : b ∈ w.live)
    (hrun : Slub.slubMfree fuel w.slub cpu b.addr = .ok (s', given)) :
    ∃ FL', Marked ⟨s', givenBack w.own given, w.live.erase b⟩ FL' := by
  by_cases hs : b.size ≤ kmallocMaxCacheSize
  · rw [h.slubMfree_small hb hs hc] at hrun
    cases hrun
    exact ⟨_, h.push hc hb hs⟩
  · have hlarge := Nat.lt_of_not_le hs
    rw [h.slubMfree_large hb hlarge hc] at hrun
    obtain ⟨r, hr, hrun⟩ := bind_eq_ok.mp hrun
    cases hrun
    obtain ⟨n, -, rfl, hnext, -⟩ := largeSize_pages hr
    rw [Nat.zero_add]
    exact ⟨FL, h.giveBack hb hlarge hnext⟩

/-! ## Runs -/

theorem Listed.write {s : State} {mem : Nat → Nat} (h : Listed s FL)
    (hmem : ∀ cpu < s.cpus, ∀ i < 16, ∀ a, s.OnList cpu i a → mem a = s.mem a) :
    Listed { s with mem := mem } FL := by
  refine ⟨h.caches, h.large, fun cpu hc i hi => ?_⟩
  have hchain := h.lists cpu hc i hi
  refine hchain.frame fun a ha => ?_
  obtain ⟨l₁, l₂, hl⟩ := List.append_of_mem ha
  rw [hl] at hchain
  exact congrArg ptr (hmem cpu hc i hi a ⟨l₁, hchain.split_at.1⟩)

theorem Marked.step {op : Op} (h : ∃ FL, Marked w FL) (hg : op.Fits w) (hs : Step w op w') :
    ∃ FL, Marked w' FL := by
  obtain ⟨FL, hm⟩ := h
  refine hs.keep (fun w => ∃ FL, Marked w FL) ⟨FL, hm⟩ ?_ ?_ ?_ ?_
  · intro cpu size answer v s' got hop hsize hrun hfresh
    subst hop
    have hlarge := hm.kmallocLarge answer hsize (hg.2 hsize) (by rw [hrun]; exact hfresh)
    rw [hrun] at hlarge
    exact ⟨FL, hlarge⟩
  · intro cpu size answer v s' got hop hc hsize hrun hfresh
    subst hop
    exact hm.kmalloc hc hsize (fun h0 => hg.1 h0 hsize) hrun hfresh
  · intro cpu b fuel s' given _ hc hb hrun
    exact hm.slubMfree hc hb hrun
  · intro mem hop _
    subst hop
    exact ⟨FL, hm.toListed.write hg, hm.bits, hm.low, hm.free, hm.live, hm.once⟩

/-- The cache that `get_cache_from_addr` returns for a live small block is the
one of its class, and `slub_mfree` puts the block on the free list there and
gives nothing back to the heap. -/
structure Classed (w : World) : Prop where
  cache : ∀ b ∈ w.live, b.size ≤ kmallocMaxCacheSize → w.slub.tag b.addr = slabIndex b.size
  freed : ∀ b ∈ w.live, b.size ≤ kmallocMaxCacheSize → ∀ cpu < w.slub.cpus, ∀ fuel,
    slubMfree fuel w.slub cpu b.addr =
      .ok (w.slub.pushed cpu (slabIndex b.size) b.addr, none)

theorem Marked.classed (h : Marked w FL) : Classed w where
  cache b hb hsize := (h.live b hb).2.2.1.trans (kind_small hsize)
  freed _ hb hsize _ hc fuel := h.slubMfree_small hb hsize hc fuel

theorem initSlub_marked (cpus : Nat) (mem : Nat → Nat) {own : Nat → Bool}
    (hlow : ∀ b, own b = true → page4k ≤ b) : Marked ⟨initSlub cpus mem, own, []⟩ fun _ => [] where
  toListed := initSlub_listed cpus mem
  bits _ := (by decide : 0 < 16)
  low := hlow
  free cpu _ i _ a ha := by cases ha
  live b hb := by cases hb
  once a := by simp [freeCount]

/-- **Small blocks keep their class**: along any run from the initialised
state in which every page that joins a class has an old tag that fits, no
large size wraps and no caller overwrites the link of a free object, in
every state visited the tag of a small block is its class. -/
theorem classed_while_fits {cpus : Nat} {mem : Nat → Nat} {own : Nat → Bool}
    {tr : List (Taken World Op)} (hlow : ∀ b, own b = true → page4k ≤ b)
    (h : Trace Step ⟨initSlub cpus mem, own, []⟩ tr w) (hg : ∀ x ∈ tr, x.label.Fits x.pre) :
    Classed w ∧ ∀ x ∈ tr, Classed x.pre ∧ Classed x.post := by
  obtain ⟨⟨_, hend⟩, hall⟩ := h.invariant (fun w => ∃ FL, Marked w FL)
    (fun w op => op.Fits w) Marked.step ⟨_, initSlub_marked cpus mem hlow⟩ hg
  refine ⟨hend.classed, fun x hx => ?_⟩
  obtain ⟨⟨_, hpre⟩, ⟨_, hpost⟩⟩ := hall x hx
  exact ⟨hpre.classed, hpost.classed⟩

/-- A block of 2048 bytes and one of 96, from two pages. -/
theorem classed_while_fits_two :
    ∃ tr w, Trace Step ⟨initSlub 1 fun _ => 0, fun _ => false, []⟩ tr w ∧
      tr.map Taken.label = [.malloc 0 2048 0x10000, .mfree 0 ⟨0x10000, 2048⟩,
        .malloc 0 96 0x11000] ∧ w.live = [⟨0x11000, 96⟩] ∧ Classed w := by
  obtain ⟨tr, w, h, hlabels, hlive, hg⟩ : ∃ tr w,
      Trace Step ⟨initSlub 1 fun _ => 0, fun _ => false, []⟩ tr w ∧
      tr.map Taken.label = [.malloc 0 2048 0x10000, .mfree 0 ⟨0x10000, 2048⟩,
        .malloc 0 96 0x11000] ∧ w.live = [⟨0x11000, 96⟩] ∧ ∀ x ∈ tr, x.label.Fits x.pre := by
    refine ⟨_, ⟨_, _, _⟩,
      .step (a := Op.malloc 0 2048 0x10000) (t := ⟨_, _, _⟩)
        ⟨by decide, by decide, _, _, rfl, World.fresh_some (by decide) (by decide) (by simp), rfl, rfl⟩
      (.step (a := Op.mfree 0 ⟨0x10000, 2048⟩) (t := ⟨_, _, _⟩)
        ⟨by decide, by decide, 1, _, rfl, rfl, rfl⟩
      (.step (a := Op.malloc 0 96 0x11000) (t := ⟨_, _, _⟩)
        ⟨by decide, by decide, _, _, rfl, ?_, rfl, rfl⟩ (.done _))), rfl, rfl, ?_⟩
    · rintro r ⟨⟩
      refine ⟨by decide, by decide, fun b hb => ?_⟩
      show (false || decide (b ∈ (⟨0x10000, page4k⟩ : Range))) = false
      simp only [Range.mem_def, page4k, Bool.false_or, decide_eq_false_iff_not] at *
      omega
    · simp only [List.forall_mem_cons, List.not_mem_nil, false_imp_iff, implies_true, and_true]
      exact ⟨⟨fun _ _ _ _ => rfl, by decide⟩, trivial, ⟨fun _ _ _ _ => rfl, by decide⟩⟩
  exact ⟨tr, w, h, hlabels, hlive, (classed_while_fits (by simp) h hg).1⟩

/-- A block of 8192 bytes is freed, and its first page comes back for objects
of 2048 bytes: the old tag hides the class, and `slub_mfree` of the small
block gives two pages back to the heap. -/
theorem stale_tag_hides_class :
    ∃ tr w, Trace Step ⟨initSlub 1 fun _ => 0, fun _ => false, []⟩ tr w ∧
      tr.map Taken.label = [.malloc 0 8192 0x10000, .mfree 0 ⟨0x10000, 8192⟩,
        .malloc 0 2048 0x10000] ∧ w.live = [⟨0x10000, 2048⟩] ∧ slabIndex 2048 = 11 ∧
      w.slub.tag 0x10000 = largeIdx ∧
      (slubMfree 3 w.slub 0 0x10000).map Prod.snd = .ok (some ⟨0x10000, 0x2000⟩) ∧ ¬ Classed w := by
  refine ⟨_, ⟨_, _, [⟨0x10000, 2048⟩]⟩,
    .step (a := Op.malloc 0 8192 0x10000) (t := ⟨_, _, _⟩)
      ⟨by decide, by decide, _, _, rfl, World.fresh_some (by decide) (by decide) (by simp), rfl,
        rfl⟩
    (.step (a := Op.mfree 0 ⟨0x10000, 8192⟩) (t := ⟨_, fun _ => false, _⟩)
      ⟨by decide, by decide, 3, _, rfl, (givenBack_obtained _ (by decide)).symm, rfl⟩
    (.step (a := Op.malloc 0 2048 0x10000) (t := ⟨_, _, _⟩)
      ⟨by decide, by decide, _, _, rfl, World.fresh_some (by decide) (by decide) (by simp), rfl,
        rfl⟩ (.done _))), rfl, rfl, by decide, rfl, rfl, ?_⟩
  intro h
  have htag := h.cache ⟨0x10000, 2048⟩ List.mem_cons_self (by decide)
  revert htag
  decide

end Yaos.Slub
