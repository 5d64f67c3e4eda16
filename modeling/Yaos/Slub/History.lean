import Yaos.Lib.Run
import Yaos.Slub.Calls

/-!
# Any sequence of slub calls

Calls of `slub_malloc` and `slub_mfree` on any CPU, with callers that write
to their blocks, and to memory that is not slub's, in between.

The tags of a page are only or-ed to. A page that was part of a large block
and comes back from the heap for small objects keeps the old tag, and
`slub_mfree` of such an object gives the whole page back while its other
objects stay on a free list.
-/

namespace Yaos.Slub

open Yaos.Lib

/-- What can happen; `answer` is what the heap would return. -/
inductive Op where
  | malloc (cpu size answer : Nat)
  | mfree (cpu : Nat) (b : Block)
  | mfreeZero (cpu : Nat)
  | write (mem : Nat → Nat)

/-- One step: a call that returned, or a write to memory slub does not use. -/
def Step (w : World) (op : Op) (w' : World) : Prop :=
  match op with
  | .malloc cpu size answer =>
      cpu < w.slub.cpus ∧ size < 2 ^ 64 ∧
      ∃ v got, slubMalloc w.slub cpu size answer = .ok (v, w'.slub, got) ∧ w.Fresh got ∧
        w'.own = obtained w.own got ∧ w'.live = w.hand v size
  | .mfree cpu b =>
      cpu < w.slub.cpus ∧ b ∈ w.live ∧
      ∃ fuel given, slubMfree fuel w.slub cpu b.addr = .ok (w'.slub, given) ∧
        w'.own = givenBack w.own given ∧ w'.live = w.live.erase b
  | .mfreeZero cpu =>
      ∃ fuel given, slubMfree fuel w.slub cpu zeroSizePtr = .ok (w'.slub, given) ∧
        w'.own = givenBack w.own given ∧ w'.live = w.live
  | .write mem =>
      (∀ a, w.own a = true → (∀ b ∈ w.live, a ∉ b.range) → mem a = w.slub.mem a) ∧
      w' = { w with slub := { w.slub with mem := mem } }

/-- The object is on the free list of the cache. -/
def State.OnList (s : State) (cpu i a : Nat) : Prop :=
  ∃ l, Seg (next s.mem) (ptr (s.cache cpu i).freehead) l (some a)

/-- Every live block has the bytes asked for, all of them slub's own, and
shares none with another block or with a free object. -/
structure Sound (w : World) : Prop where
  fits : ∀ b ∈ w.live, b.size ≤ room b.size
  owned : ∀ b ∈ w.live, ∀ x ∈ b.range, w.own x = true
  apart : (w.live.map Block.range).Pairwise Range.Apart
  free : ∀ b ∈ w.live, ∀ cpu < w.slub.cpus, ∀ i < 16, ∀ a, w.slub.OnList cpu i a →
    b.range.Apart ⟨a, (w.slub.cache cpu i).size⟩

/-- A size whose class tiles a page and whose rounding does not wrap; a
block whose pages are tagged as what it is. -/
def Op.Admitted (w : World) : Op → Prop
  | .malloc _ size _ => Tiles size ∧ (kmallocMaxCacheSize < size → size + 0xfff < 2 ^ 64)
  | .mfree _ b => Tagged w.slub b
  | .mfreeZero _ => True
  | .write _ => True

variable {w w' : World} {FL : Lists}

/-! ## Steps -/

/-- What a property of the world has to show of each call to hold after a
step; a call that frees `ZERO_SIZE_PTR` changes nothing. -/
theorem Step.keep {op : Op} (P : World → Prop) (hs : Step w op w') (hzero : P w)
    (hlarge : ∀ cpu size answer v s' got, op = .malloc cpu size answer →
      kmallocMaxCacheSize < size → kmallocLarge w.slub size answer = (v, s', got) →
      w.Fresh got → P ⟨s', obtained w.own got, w.hand v size⟩)
    (hsmall : ∀ cpu size answer v s' got, op = .malloc cpu size answer → cpu < w.slub.cpus →
      size ≤ kmallocMaxCacheSize → kmalloc w.slub cpu size answer = .ok (v, s', got) →
      w.Fresh got → P ⟨s', obtained w.own got, w.hand v size⟩)
    (hfree : ∀ cpu b fuel s' given, op = .mfree cpu b → cpu < w.slub.cpus → b ∈ w.live →
      slubMfree fuel w.slub cpu b.addr = .ok (s', given) →
      P ⟨s', givenBack w.own given, w.live.erase b⟩)
    (hwrite : ∀ mem, op = .write mem →
      (∀ a, w.own a = true → (∀ b ∈ w.live, a ∉ b.range) → mem a = w.slub.mem a) →
      P { w with slub := { w.slub with mem := mem } }) : P w' := by
  obtain ⟨s', own', live'⟩ := w'
  cases op with
  | malloc cpu size answer =>
    obtain ⟨hc, -, v, got, hrun, hfresh, hown, hlive⟩ := hs
    dsimp only at hrun hown hlive
    subst hown hlive
    rcases slubMalloc_cases hrun with ⟨hsize, hrun⟩ | ⟨hsize, hrun⟩
    · exact hlarge cpu size answer v s' got rfl hsize hrun hfresh
    · exact hsmall cpu size answer v s' got rfl hc hsize hrun hfresh
  | mfree cpu b =>
    obtain ⟨hc, hb, fuel, given, hrun, hown, hlive⟩ := hs
    dsimp only at hrun hown hlive
    subst hown hlive
    exact hfree cpu b fuel s' given rfl hc hb hrun
  | mfreeZero cpu =>
    obtain ⟨fuel, given, hrun, hown, hlive⟩ := hs
    dsimp only at hrun hown hlive
    cases hrun
    subst hown hlive
    exact hzero
  | write mem =>
    obtain ⟨hmem, heq⟩ := hs
    rw [heq]
    exact hwrite mem rfl hmem

theorem Inv.write {mem : Nat → Nat} (h : Inv w FL)
    (hmem : ∀ a, w.own a = true → (∀ b ∈ w.live, a ∉ b.range) → mem a = w.slub.mem a) :
    Inv { w with slub := { w.slub with mem := mem } } FL := by
  refine ⟨h.caches, h.large, ?_, h.classes, h.low, h.blocks, h.once⟩
  intro cpu hc i hi
  refine (h.lists cpu hc i hi).frame fun a ha => ?_
  obtain ⟨hown, hlive⟩ := h.free_owned hc hi ha
  exact congrArg ptr (hmem a hown hlive)

theorem Inv.step {op : Op} (h : ∃ FL, Inv w FL) (hg : op.Admitted w) (hs : Step w op w') :
    ∃ FL, Inv w' FL := by
  obtain ⟨FL, hinv⟩ := h
  refine hs.keep (fun w => ∃ FL, Inv w FL) ⟨FL, hinv⟩ ?_ ?_ ?_ ?_
  · intro cpu size answer v s' got hop hsize hrun hfresh
    subst hop
    have hlarge := hinv.kmallocLarge answer hsize (hg.2 hsize) (by rw [hrun]; exact hfresh)
    rw [hrun] at hlarge
    exact ⟨FL, hlarge⟩
  · intro cpu size answer v s' got hop hc hsize hrun hfresh
    subst hop
    exact hinv.kmalloc hc hsize hg.1 hrun hfresh
  · intro cpu b fuel s' given hop hc hb hrun
    subst hop
    exact hinv.slubMfree hc hb hg hrun
  · intro mem _ hmem
    exact ⟨FL, hinv.write hmem⟩

theorem Inv.sound (h : Inv w FL) : Sound w where
  fits b hb := (h.blocks b hb).2.1
  owned b hb x hx := h.live_owned hb hx
  apart := by
    refine pairwise_apart_iff.mpr fun b => ?_
    have honce := h.once b
    split at honce <;> omega
  free := by
    intro b hb cpu hc i hi a ⟨l, hl⟩ x hx hxa
    have ha := (h.lists cpu hc i hi).mem_of_seg hl
    obtain ⟨h₁, h₂⟩ := h.classes (cpu, i) (List.ne_nil_of_mem ha)
    rw [(h.caches cpu hc i (by omega) h₂).2] at hxa
    -- the byte would be in a live block and in a free object
    have hlive := cover_live_erase hb x
    have hfree := has_le_freeCover hc hi ha x
    have hb₁ := Range.has_pos.mpr hx
    have ha₁ := Range.has_pos.mpr hxa
    have honce := h.once x
    split at honce <;> omega

theorem initSlub_inv (cpus : Nat) (mem : Nat → Nat) {own : Nat → Bool}
    (hlow : ∀ b, own b = true → page4k ≤ b) : Inv ⟨initSlub cpus mem, own, []⟩ fun _ => [] where
  caches := (initSlub_listed cpus mem).caches
  large := (initSlub_listed cpus mem).large
  lists := (initSlub_listed cpus mem).lists
  classes x hx := absurd rfl hx
  low := hlow
  blocks b hb := by cases hb
  once b := by simp [freeCover, objectRanges]

/-! ## Runs -/

/-- **Slub is sound while tags are right**: along any run from the
initialised state whose calls ask for sizes that tile a page or for large
ones that do not wrap, and free blocks whose tags are right, every state
visited is sound. -/
theorem slub_sound_while_tagged {cpus : Nat} {mem : Nat → Nat} {own : Nat → Bool}
    {tr : List (Taken World Op)} (hlow : ∀ b, own b = true → page4k ≤ b)
    (h : Trace Step ⟨initSlub cpus mem, own, []⟩ tr w)
    (hg : ∀ x ∈ tr, x.label.Admitted x.pre) :
    Sound w ∧ ∀ x ∈ tr, Sound x.pre ∧ Sound x.post := by
  obtain ⟨⟨_, hend⟩, hall⟩ := h.invariant (fun w => ∃ FL, Inv w FL)
    (fun w op => op.Admitted w) Inv.step ⟨_, initSlub_inv cpus mem hlow⟩ hg
  refine ⟨hend.sound, fun x hx => ?_⟩
  obtain ⟨⟨_, hpre⟩, ⟨_, hpost⟩⟩ := hall x hx
  exact ⟨hpre.sound, hpost.sound⟩

/-- A block of 2048 bytes is allocated and freed. -/
theorem slub_sound_while_tagged_one :
    ∃ tr w, Trace Step ⟨initSlub 1 fun _ => 0, fun _ => false, []⟩ tr w ∧
      tr.map Taken.label = [.malloc 0 2048 0x10000, .mfree 0 ⟨0x10000, 2048⟩] ∧ Sound w := by
  obtain ⟨tr, w, h, hlabels, hg⟩ : ∃ tr w,
      Trace Step ⟨initSlub 1 fun _ => 0, fun _ => false, []⟩ tr w ∧
      tr.map Taken.label = [.malloc 0 2048 0x10000, .mfree 0 ⟨0x10000, 2048⟩] ∧
      ∀ x ∈ tr, x.label.Admitted x.pre := by
    refine ⟨_, ⟨_, _, _⟩,
      .step (a := Op.malloc 0 2048 0x10000) (t := ⟨_, _, _⟩)
        ⟨by decide, by decide, _, _, rfl, World.fresh_some (by decide) (by decide) (by simp), rfl, rfl⟩
      (.step (a := Op.mfree 0 ⟨0x10000, 2048⟩) (t := ⟨_, _, _⟩)
        ⟨by decide, by decide, 1, _, rfl, rfl, rfl⟩ (.done _)), rfl, ?_⟩
    simp only [List.forall_mem_cons, List.not_mem_nil, false_imp_iff, implies_true, and_true]
    exact ⟨⟨by decide, by decide⟩, (tagged_small (by decide)).mpr rfl⟩
  exact ⟨tr, w, h, hlabels, (slub_sound_while_tagged (by simp) h hg).1⟩

/-- The first page of a freed block of 8192 bytes comes back for objects of
2048 bytes with its tag unchanged. Freeing one of them gives back two pages,
and the next block is not slub's memory. -/
theorem stale_tag_breaks :
    ∃ tr w, Trace Step ⟨initSlub 1 fun _ => 0, fun _ => false, []⟩ tr w ∧
      tr.map Taken.label =
        [.malloc 0 8192 0x10000, .mfree 0 ⟨0x10000, 8192⟩, .malloc 0 2048 0x10000,
          .mfree 0 ⟨0x10000, 2048⟩, .malloc 0 2048 0] ∧
      w.live = [⟨0x10800, 2048⟩] ∧ w.own 0x10800 = false ∧ ¬ Sound w := by
  refine ⟨_, ⟨_, fun _ => false, [⟨0x10800, 2048⟩]⟩,
    .step (a := Op.malloc 0 8192 0x10000) (t := ⟨_, _, _⟩)
      ⟨by decide, by decide, _, _, rfl, World.fresh_some (by decide) (by decide) (by simp), rfl,
        rfl⟩
    (.step (a := Op.mfree 0 ⟨0x10000, 8192⟩) (t := ⟨_, fun _ => false, _⟩)
      ⟨by decide, by decide, 3, _, rfl, (givenBack_obtained _ (by decide)).symm, rfl⟩
    (.step (a := Op.malloc 0 2048 0x10000) (t := ⟨_, _, _⟩)
      ⟨by decide, by decide, _, _, rfl, World.fresh_some (by decide) (by decide) (by simp), rfl,
        rfl⟩
    (.step (a := Op.mfree 0 ⟨0x10000, 2048⟩) (t := ⟨_, fun _ => false, _⟩)
      ⟨by decide, by decide, 3, _, rfl, (givenBack_obtained _ (by decide)).symm, rfl⟩
    (.step (a := Op.malloc 0 2048 0) (t := ⟨_, _, _⟩)
      ⟨by decide, by decide, _, _, rfl, World.fresh_none, rfl, rfl⟩ (.done _))))),
    rfl, rfl, rfl, ?_⟩
  intro h
  have hown := h.owned ⟨0x10800, 2048⟩ List.mem_cons_self 0x10800 (by decide)
  cases hown

end Yaos.Slub
