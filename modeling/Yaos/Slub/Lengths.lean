import Yaos.Slub.Tags

/-!
# How long a large block is

`slub_mfree` does not know the size of a large block: it counts the pages
tagged `LARGE_NEXT` behind the first one. The count is right if each of the
block's other pages came out as `LARGE_NEXT` when it was allocated, and the
page behind the block is not tagged so. `Op.Ends` asks for both of the tags
found at allocation; from then on no call changes them, because a call that
tags the page behind a block makes it the first page of another block or a
page of a class.
-/

namespace Yaos.Slub

open Yaos.Lib

/-- The pages found for a large block have no tag bit that `LARGE_NEXT` has
not, and the page behind them is not tagged `LARGE_NEXT`. -/
def Op.Ends (w : World) : Op → Prop
  | .malloc _ size answer => kmallocMaxCacheSize < size → answer ≠ 0 →
      (∀ j, 0 < j → j < newsize size / page4k →
        w.slub.pageBits (answer / page4k + j) ||| largeNext = largeNext) ∧
      w.slub.pageBits (answer / page4k + newsize size / page4k) ≠ largeNext
  | _ => True

/-- The tags say where a large block ends. -/
structure Ended (s : State) (b : Block) : Prop where
  nowrap : b.size + 0xfff < 2 ^ 64
  inner : ∀ j, 0 < j → j < newsize b.size / page4k →
    s.pageBits (b.addr / page4k + j) = largeNext
  behind : s.pageBits (b.addr / page4k + newsize b.size / page4k) ≠ largeNext

def largeRanges (live : List Block) : List Range :=
  (live.filter fun b => kmallocMaxCacheSize < b.size).map fun b => ⟨b.addr, newsize b.size⟩

/-- The invariant: the tags say where each large block ends, and large blocks
share no byte. -/
structure Spaced (w : World) (FL : Lists) : Prop extends Marked w FL where
  ended : ∀ b ∈ w.live, kmallocMaxCacheSize < b.size → Ended w.slub b
  covered : ∀ x, cover (largeRanges w.live) x ≤ if w.own x = true then 1 else 0

/-- No byte of page `x` is slub's. -/
def World.Unowned (w : World) (x : Nat) : Prop := ∀ a, a / page4k = x → w.own a = false

variable {w w' : World} {FL FL' : Lists} {cpu : Nat}

theorem largeRanges_small {b : Block} (live : List Block) (h : b.size ≤ kmallocMaxCacheSize) :
    largeRanges (b :: live) = largeRanges live := by
  rw [largeRanges, List.filter_cons_of_neg (by simpa using h), largeRanges]

theorem largeRanges_large {b : Block} (live : List Block) (h : kmallocMaxCacheSize < b.size) :
    largeRanges (b :: live) = ⟨b.addr, newsize b.size⟩ :: largeRanges live := by
  rw [largeRanges, List.filter_cons_of_pos (by simpa using h), List.map_cons, largeRanges]

theorem cover_largeRanges_erase {live : List Block} {b : Block} (hb : b ∈ live) (x : Nat) :
    cover (largeRanges (b :: live.erase b)) x = cover (largeRanges live) x :=
  cover_perm (((List.perm_cons_erase hb).symm.filter _).map _) x

theorem Spaced.owned {b : Block} (h : Spaced w FL) (hb : b ∈ w.live)
    (hsize : kmallocMaxCacheSize < b.size) {x : Nat}
    (hx : x ∈ (⟨b.addr, newsize b.size⟩ : Range)) : w.own x = true := by
  have hcov := h.covered x
  rw [← cover_largeRanges_erase hb, largeRanges_large _ hsize, cover_cons] at hcov
  have hone := Range.has_pos.mpr hx
  by_contra hno
  rw [if_neg hno] at hcov
  omega

theorem Spaced.not_unowned {b : Block} (h : Spaced w FL) (hb : b ∈ w.live)
    (hsize : kmallocMaxCacheSize < b.size) {j : Nat} (hj : j < newsize b.size / page4k) :
    ¬ w.Unowned (b.addr / page4k + j) := by
  intro hun
  have hal := (h.live b hb).2.2.2 hsize
  have hdiv : (b.addr / page4k + j) * page4k / page4k = b.addr / page4k + j :=
    Nat.mul_div_cancel _ (by decide)
  have hmem : (b.addr / page4k + j) * page4k ∈ (⟨b.addr, newsize b.size⟩ : Range) := by
    rw [← newsize_whole, Range.mem_blocks (by decide) hal, hdiv]
    omega
  have hown := h.owned hb hsize hmem
  rw [hun _ hdiv] at hown
  cases hown

/-- What a step has to show: a large block is an old one or its tags say
where it ends, and a tag that changed is one of an unowned page, which is
not `LARGE_NEXT` now or has an unowned page before it. -/
theorem Spaced.of_marked (h : Spaced w FL) (h' : Marked w' FL')
    (hlive : ∀ b ∈ w'.live, kmallocMaxCacheSize < b.size → b ∈ w.live ∨ Ended w'.slub b)
    (htags : ∀ x, w'.slub.pageBits x = w.slub.pageBits x ∨
      w.Unowned x ∧ (w'.slub.pageBits x ≠ largeNext ∨ ∃ y, y + 1 = x ∧ w.Unowned y))
    (hcov : ∀ x, cover (largeRanges w'.live) x ≤ if w'.own x = true then 1 else 0) :
    Spaced w' FL' := by
  refine ⟨h', fun b hb hsize => ?_, hcov⟩
  rcases hlive b hb hsize with hold | hnew
  · obtain ⟨hwrap, hinner, hbehind⟩ := h.ended b hold hsize
    have hpages := newsize_pages hsize hwrap
    refine ⟨hwrap, fun j hj hjn => ?_, ?_⟩
    · rcases htags (b.addr / page4k + j) with hsame | ⟨hun, -⟩
      · exact hsame.trans (hinner j hj hjn)
      · exact absurd hun (h.not_unowned hold hsize hjn)
    · rcases htags (b.addr / page4k + newsize b.size / page4k) with hsame | ⟨-, hne | ⟨y, hy, hun⟩⟩
      · exact hsame ▸ hbehind
      · exact hne
      · -- the page before is the last one of the block
        have hlast : y = b.addr / page4k + (newsize b.size / page4k - 1) := by omega
        exact absurd (hlast ▸ hun) (h.not_unowned hold hsize (by omega))
  · exact hnew

/-! ## Steps -/

theorem slubAddPage_pageBits {s s' : State} {cpu idx answer : Nat} {got : Option Range}
    (h : slubAddPage s cpu idx answer = .ok (true, s', got)) :
    s'.pageBits = (s.mark (answer / page4k) (s.cache cpu idx).idx).pageBits := by
  rw [slubAddPage] at h
  split at h
  · cases h
  · obtain ⟨_, -, h⟩ := bind_eq_ok.mp h
    obtain ⟨_, -, h⟩ := bind_eq_ok.mp h
    cases h
    rfl

theorem covered_obtained {own : Nat → Bool} {got : Option Range} {n x : Nat}
    (h : n ≤ if own x = true then 1 else 0) :
    n ≤ if obtained own got x = true then 1 else 0 := by
  by_cases hown : own x = true
  · rw [if_pos hown] at h
    rwa [if_pos (obtained_of_own got hown)]
  · rw [if_neg hown] at h
    omega

theorem unowned_of_fresh {p n x : Nat} (hal : p % page4k = 0)
    (hfresh : ∀ b ∈ (⟨p, n * page4k⟩ : Range), w.own b = false) (h₁ : p / page4k ≤ x)
    (h₂ : x < p / page4k + n) : w.Unowned x := by
  intro a ha
  exact hfresh a ((Range.mem_blocks (by decide) hal).mpr (by omega))

theorem Spaced.kmalloc {size answer v : Nat} {s' : State} {got : Option Range} (h : Spaced w FL)
    (hc : cpu < w.slub.cpus) (hsize : size ≤ kmallocMaxCacheSize)
    (hfit : 0 < size → (w.slub.cache cpu (slabIndex size)).freehead = 0 → answer ≠ 0 →
      w.slub.tag answer ||| slabIndex size = slabIndex size)
    (hrun : Slub.kmalloc w.slub cpu size answer = .ok (v, s', got)) (hfresh : w.Fresh got) :
    ∃ FL', Spaced ⟨s', obtained w.own got, w.hand v size⟩ FL' := by
  obtain ⟨FL', h'⟩ := h.toMarked.kmalloc hc hsize hfit hrun hfresh
  -- the block is a small one
  have hranges : largeRanges (w.hand v size) = largeRanges w.live := by
    unfold World.hand
    split
    · rfl
    · exact largeRanges_small _ hsize
  refine ⟨FL', h.of_marked h' ?_ ?_ ?_⟩
  · intro b hb hlarge
    dsimp only at hb
    unfold World.hand at hb
    split at hb
    · exact .inl hb
    · rcases List.mem_cons.mp hb with rfl | hb
      · exact absurd hsize (Nat.not_le_of_lt hlarge)
      · exact .inl hb
  · intro x
    rcases kmalloc_cases hsize hrun with ⟨-, rfl, -⟩ | ⟨hpos, -, hcase⟩
    · exact .inl rfl
    rcases hcase with ⟨hhead, ha, rfl, s₁, hadd, -, rfl⟩ | ⟨-, -, rfl⟩
    · obtain ⟨-, h₁, h₂, -⟩ := slabIndex_spec hpos hsize
      obtain ⟨h0, hal, hown⟩ := hfresh _ rfl
      show s₁.pageBits x = _ ∨ _ ∧ (s₁.pageBits x ≠ _ ∨ _)
      rw [slubAddPage_pageBits hadd, State.mark_pageBits, (h.caches cpu hc _ h₁ h₂).1]
      by_cases hx : x = answer / page4k
      · rw [if_pos hx]
        refine .inr ⟨?_, .inl ?_⟩
        · exact fun a ha => hown a ((Range.mem_block (by decide) hal).mpr (ha.trans hx))
        · have hnew := hfit hpos hhead ha
          rw [State.tag, ← hx] at hnew
          rw [hnew, largeNext]
          omega
      · rw [if_neg hx]
        exact .inl rfl
    · exact .inl rfl
  · intro x
    dsimp only
    rw [hranges]
    exact covered_obtained (h.covered x)

theorem Spaced.kmallocLarge {size answer v : Nat} {s' : State} {got : Option Range}
    (h : Spaced w FL) (hsize : kmallocMaxCacheSize < size) (hwrap : size + 0xfff < 2 ^ 64)
    (hends : answer ≠ 0 →
      (∀ j, 0 < j → j < newsize size / page4k →
        w.slub.pageBits (answer / page4k + j) ||| largeNext = largeNext) ∧
      w.slub.pageBits (answer / page4k + newsize size / page4k) ≠ largeNext)
    (hrun : Slub.kmallocLarge w.slub size answer = (v, s', got)) (hfresh : w.Fresh got) :
    Spaced ⟨s', obtained w.own got, w.hand v size⟩ FL := by
  have h' := h.toMarked.kmallocLarge answer hsize hwrap (by rw [hrun]; exact hfresh)
  rw [hrun] at h'
  by_cases ha : answer = 0
  · rw [Slub.kmallocLarge, if_pos ha] at hrun
    cases hrun
    exact h
  obtain ⟨hinner, hbehind⟩ := hends ha
  have hpages := newsize_pages hsize hwrap
  have hbits := kmallocLarge_pageBits w.slub size ha
  rw [hrun] at hbits
  rw [Slub.kmallocLarge, if_neg ha] at hrun
  obtain ⟨rfl, -, rfl⟩ := hrun
  obtain ⟨h0, hal, hown⟩ := hfresh _ rfl
  dsimp only at h0 hal hbits
  replace hbits := hbits hal (by omega)
  have hown' : ∀ b ∈ (⟨answer, newsize size / page4k * page4k⟩ : Range), w.own b = false := by
    rw [newsize_whole]
    exact hown
  rw [World.hand_some ha (by omega)] at h' ⊢
  refine h.of_marked h' ?_ ?_ ?_
  · intro b hb hlarge
    rcases List.mem_cons.mp hb with rfl | hb
    · refine .inr ⟨hwrap, fun j hj hjn => ?_, ?_⟩
      · dsimp only at hjn ⊢
        rw [hbits, if_neg (by omega), if_pos (by omega)]
        exact hinner j hj hjn
      · dsimp only
        rw [hbits, if_neg (by omega), if_neg (by omega)]
        exact hbehind
    · exact .inl hb
  · intro x
    dsimp only
    rw [hbits]
    by_cases hx : x = answer / page4k
    · rw [if_pos hx, or_largeIdx (h.bits x)]
      exact .inr ⟨unowned_of_fresh hal hown' (by omega) (by omega), .inl (by decide)⟩
    · rw [if_neg hx]
      by_cases hin : answer / page4k < x ∧ x < answer / page4k + newsize size / page4k
      · -- an inner page has the page before it in the block too
        refine .inr ⟨unowned_of_fresh hal hown' (by omega) hin.2, .inr
          ⟨x - 1, Nat.sub_add_cancel (Nat.one_le_of_lt hin.1), ?_⟩⟩
        exact unowned_of_fresh hal hown' (by omega) (by omega)
      · rw [if_neg hin]
        exact .inl rfl
  · intro x
    dsimp only
    rw [largeRanges_large _ hsize, cover_cons]
    exact owned_obtained hown (h.covered x)

theorem largeSize_of_tags {s : State} {fuel offset n : Nat} (size : Nat) (hn : 0 < n)
    (hfuel : n ≤ fuel) (hnext : ∀ j, 0 < j → j < n → s.pageBits (offset + j) = largeNext)
    (hend : s.pageBits (offset + n) ≠ largeNext) :
    largeSize s fuel offset size = .ok (size + n * page4k) := by
  induction n generalizing fuel offset size with
  | zero => omega
  | succ n ih =>
    obtain ⟨fuel, rfl⟩ : ∃ m, fuel = m + 1 := ⟨fuel - 1, by omega⟩
    rw [largeSize]
    by_cases hone : n = 0
    · subst hone
      rw [if_neg hend, Nat.zero_add, Nat.one_mul]
    · rw [if_pos (hnext 1 (by decide) (by omega)), ih _ (by omega) (by omega), Nat.succ_mul]
      · exact congrArg _ (by omega)
      · intro j hj hjn
        rw [Nat.add_assoc, Nat.add_comm 1 j]
        exact hnext (j + 1) (by omega) (by omega)
      · rw [Nat.add_assoc, Nat.add_comm 1 n]
        exact hend

/-- `slub_mfree` of a live large block gives back its pages. -/
theorem Spaced.slubMfree_large {b : Block} (h : Spaced w FL) (hb : b ∈ w.live)
    (hsize : kmallocMaxCacheSize < b.size) (hc : cpu < w.slub.cpus) {fuel : Nat}
    (hfuel : newsize b.size / page4k ≤ fuel) :
    Slub.slubMfree fuel w.slub cpu b.addr = .ok (w.slub, some ⟨b.addr, newsize b.size⟩) := by
  obtain ⟨hwrap, hinner, hbehind⟩ := h.ended b hb hsize
  have hpages := newsize_pages hsize hwrap
  rw [h.toMarked.slubMfree_large hb hsize hc,
    largeSize_of_tags 0 (by omega) hfuel hinner hbehind, Nat.zero_add, newsize_whole]
  rfl

theorem Spaced.slubMfree_given {b : Block} {fuel : Nat} {s' : State} {given : Option Range}
    (h : Spaced w FL) (hb : b ∈ w.live) (hsize : kmallocMaxCacheSize < b.size)
    (hc : cpu < w.slub.cpus) (hrun : Slub.slubMfree fuel w.slub cpu b.addr = .ok (s', given)) :
    s' = w.slub ∧ given = some ⟨b.addr, newsize b.size⟩ := by
  obtain ⟨hwrap, hinner, hbehind⟩ := h.ended b hb hsize
  have hpages := newsize_pages hsize hwrap
  rw [h.toMarked.slubMfree_large hb hsize hc] at hrun
  obtain ⟨r, hr, hrun⟩ := bind_eq_ok.mp hrun
  cases hrun
  have hlen := largeSize_eq (by omega) hinner hbehind hr
  rw [Nat.zero_add, newsize_whole] at hlen
  exact ⟨rfl, by rw [hlen]⟩

theorem Spaced.slubMfree {fuel : Nat} {b : Block} {s' : State} {given : Option Range}
    (h : Spaced w FL) (hc : cpu < w.slub.cpus) (hb : b ∈ w.live)
    (hrun : Slub.slubMfree fuel w.slub cpu b.addr = .ok (s', given)) :
    ∃ FL', Spaced ⟨s', givenBack w.own given, w.live.erase b⟩ FL' := by
  obtain ⟨FL', h'⟩ := h.toMarked.slubMfree hc hb hrun
  have hold : ∀ c ∈ w.live.erase b, kmallocMaxCacheSize < c.size → c ∈ w.live ∨ Ended s' c :=
    fun c hcm _ => .inl (List.mem_of_mem_erase hcm)
  by_cases hs : b.size ≤ kmallocMaxCacheSize
  · rw [h.slubMfree_small hb hs hc] at hrun
    cases hrun
    refine ⟨FL', h.of_marked h' hold (fun x => .inl rfl) fun x => ?_⟩
    have hcov := h.covered x
    rw [← cover_largeRanges_erase hb, largeRanges_small _ hs] at hcov
    exact hcov
  · have hlarge := Nat.lt_of_not_le hs
    obtain ⟨rfl, rfl⟩ := h.slubMfree_given hb hlarge hc hrun
    refine ⟨FL', h.of_marked h' hold (fun x => .inl rfl) fun x => ?_⟩
    have hcov := h.covered x
    rw [← cover_largeRanges_erase hb, largeRanges_large _ hlarge, cover_cons] at hcov
    exact owned_givenBack hcov

/-! ## Runs -/

theorem Spaced.step {op : Op} (h : ∃ FL, Spaced w FL) (hg : op.Fits w ∧ op.Ends w)
    (hs : Step w op w') : ∃ FL, Spaced w' FL := by
  obtain ⟨FL, hsp⟩ := h
  obtain ⟨hfits, hends⟩ := hg
  refine hs.keep (fun w => ∃ FL, Spaced w FL) ⟨FL, hsp⟩ ?_ ?_ ?_ ?_
  · intro cpu size answer v s' got hop hsize hrun hfresh
    subst hop
    exact ⟨FL, hsp.kmallocLarge hsize (hfits.2 hsize) (hends hsize) hrun hfresh⟩
  · intro cpu size answer v s' got hop hc hsize hrun hfresh
    subst hop
    exact hsp.kmalloc hc hsize (fun h0 => hfits.1 h0 hsize) hrun hfresh
  · intro cpu b fuel s' given _ hc hb hrun
    exact hsp.slubMfree hc hb hrun
  · intro mem hop _
    subst hop
    obtain ⟨hlisted, hbits, hlow, hfree, hlive, honce⟩ := hsp.toMarked
    exact ⟨FL, ⟨hlisted.write hfits, hbits, hlow, hfree, hlive, honce⟩,
      fun b hb hsize => ⟨(hsp.ended b hb hsize).nowrap, (hsp.ended b hb hsize).inner,
        (hsp.ended b hb hsize).behind⟩, hsp.covered⟩

/-- The range of a large block: its size rounded up to whole pages. -/
def Block.rounded (b : Block) : Range := ⟨b.addr, (b.size + 0xfff) / page4k * page4k⟩

/-- `slub_mfree` of a live large block returns, and gives back to the heap its
range and nothing else. -/
def Sized (w : World) : Prop :=
  ∀ b ∈ w.live, kmallocMaxCacheSize < b.size → ∀ cpu < w.slub.cpus,
    (∃ fuel s', slubMfree fuel w.slub cpu b.addr = .ok (s', some b.rounded)) ∧
    ∀ fuel s' given, slubMfree fuel w.slub cpu b.addr = .ok (s', given) → given = some b.rounded

theorem Spaced.sized (h : Spaced w FL) : Sized w := by
  intro b hb hsize cpu hc
  have hrounded : (⟨b.addr, newsize b.size⟩ : Range) = b.rounded := by
    rw [newsize, Nat.mod_eq_of_lt (h.ended b hb hsize).nowrap, Block.rounded]
  rw [← hrounded]
  refine ⟨⟨_, _, h.slubMfree_large hb hsize hc (Nat.le_refl _)⟩, fun fuel s' given hrun => ?_⟩
  exact (h.slubMfree_given hb hsize hc hrun).2

theorem initSlub_spaced (cpus : Nat) (mem : Nat → Nat) {own : Nat → Bool}
    (hlow : ∀ b, own b = true → page4k ≤ b) : Spaced ⟨initSlub cpus mem, own, []⟩ fun _ => [] where
  toMarked := initSlub_marked cpus mem hlow
  ended b hb := by cases hb
  covered x := Nat.zero_le _

/-- **Large blocks keep their length**: along any run from the initialised
state whose steps fit and whose large blocks find pages with tags that end
them, `slub_mfree` would give back exactly the range of any live large block
in every state visited. -/
theorem sized_while_ends {cpus : Nat} {mem : Nat → Nat} {own : Nat → Bool}
    {tr : List (Taken World Op)} (hlow : ∀ b, own b = true → page4k ≤ b)
    (h : Trace Step ⟨initSlub cpus mem, own, []⟩ tr w)
    (hg : ∀ x ∈ tr, x.label.Fits x.pre ∧ x.label.Ends x.pre) :
    Sized w ∧ ∀ x ∈ tr, Sized x.pre ∧ Sized x.post := by
  obtain ⟨⟨_, hend⟩, hall⟩ := h.invariant (fun w => ∃ FL, Spaced w FL)
    (fun w op => op.Fits w ∧ op.Ends w) Spaced.step ⟨_, initSlub_spaced cpus mem hlow⟩ hg
  refine ⟨hend.sized, fun x hx => ?_⟩
  obtain ⟨⟨_, hpre⟩, ⟨_, hpost⟩⟩ := hall x hx
  exact ⟨hpre.sized, hpost.sized⟩

/-- The first block of 8192 bytes. -/
theorem sized_while_ends_first :
    ∃ tr w, Trace Step ⟨initSlub 1 fun _ => 0, fun _ => false, []⟩ tr w ∧
      tr.map Taken.label = [.malloc 0 8192 0x10000] ∧ w.live = [⟨0x10000, 8192⟩] ∧ Sized w := by
  obtain ⟨tr, w, h, hlabels, hlive, hg⟩ : ∃ tr w,
      Trace Step ⟨initSlub 1 fun _ => 0, fun _ => false, []⟩ tr w ∧
      tr.map Taken.label = [.malloc 0 8192 0x10000] ∧ w.live = [⟨0x10000, 8192⟩] ∧
      ∀ x ∈ tr, x.label.Fits x.pre ∧ x.label.Ends x.pre := by
    refine ⟨_, ⟨_, _, _⟩,
      .step (a := Op.malloc 0 8192 0x10000) (t := ⟨_, _, _⟩)
        ⟨by decide, by decide, _, _, rfl, World.fresh_some (by decide) (by decide) (by simp), rfl,
          rfl⟩ (.done _), rfl, rfl, ?_⟩
    simp only [List.forall_mem_cons, List.not_mem_nil, false_imp_iff, implies_true, and_true]
    exact ⟨⟨fun _ _ _ _ => rfl, by decide⟩, fun _ _ => ⟨fun _ _ _ => Nat.zero_or _, by decide⟩⟩
  exact ⟨tr, w, h, hlabels, hlive, (sized_while_ends (by simp) h hg).1⟩

/-- A block of three pages is freed and the next one gets its first two: the
third page is still tagged `LARGE_NEXT`, and `slub_mfree` gives back a page
that is not slub's. -/
theorem stale_tag_lengthens :
    ∃ tr w, Trace Step ⟨initSlub 1 fun _ => 0, fun _ => false, []⟩ tr w ∧
      tr.map Taken.label = [.malloc 0 0x3000 0x10000, .mfree 0 ⟨0x10000, 0x3000⟩,
        .malloc 0 0x2000 0x10000] ∧ w.live = [⟨0x10000, 0x2000⟩] ∧ w.own 0x12000 = false ∧
      (slubMfree 4 w.slub 0 0x10000).map Prod.snd = .ok (some ⟨0x10000, 0x3000⟩) ∧ ¬ Sized w := by
  refine ⟨_, ⟨_, _, [⟨0x10000, 0x2000⟩]⟩,
    .step (a := Op.malloc 0 0x3000 0x10000) (t := ⟨_, _, _⟩)
      ⟨by decide, by decide, _, _, rfl, World.fresh_some (by decide) (by decide) (by simp), rfl,
        rfl⟩
    (.step (a := Op.mfree 0 ⟨0x10000, 0x3000⟩) (t := ⟨_, fun _ => false, _⟩)
      ⟨by decide, by decide, 4, _, rfl, (givenBack_obtained _ (by decide)).symm, rfl⟩
    (.step (a := Op.malloc 0 0x2000 0x10000) (t := ⟨_, _, _⟩)
      ⟨by decide, by decide, _, _, rfl, World.fresh_some (by decide) (by decide) (by simp), rfl,
        rfl⟩ (.done _))), rfl, rfl, rfl, rfl, ?_⟩
  intro h
  have hgiven := (h ⟨0x10000, 0x2000⟩ List.mem_cons_self (by decide) 0 (by decide)).2 4 _ _ rfl
  revert hgiven
  decide

end Yaos.Slub
