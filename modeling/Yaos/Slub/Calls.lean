import Yaos.Slub.Invariant

/-!
# What the calls do to the sum

Allocating a small object pops a list, adding a page to it first if it is
empty; freeing one pushes. A large block comes from the heap and goes back
to it. Freeing trusts the tag of the page: `Tagged` is what it needs.
-/

namespace Yaos.Slub

open Yaos.Lib Function

variable {w : World} {FL : Lists} {cpu i : Nat}

/-- The heap gives whole pages that slub does not hold. -/
def World.Fresh (w : World) (got : Option Range) : Prop :=
  ∀ r, got = some r → r.addr ≠ 0 ∧ r.addr % page4k = 0 ∧ ∀ b ∈ r, w.own b = false

/-- The live blocks after `slub_malloc(size)` returned `v`. -/
def World.hand (w : World) (v size : Nat) : List Block :=
  if v = 0 ∨ size = 0 then w.live else ⟨v, size⟩ :: w.live

/-- The tags say of a live block what it is: for a small one its class, for
a large one where it ends. -/
def Tagged (s : State) (b : Block) : Prop :=
  if b.size ≤ kmallocMaxCacheSize then s.tag b.addr = slabIndex b.size
  else s.tag b.addr = largeIdx ∧
    (∀ j, 0 < j → j < newsize b.size / page4k →
      s.pageBits (b.addr / page4k + j) = largeNext) ∧
    s.pageBits (b.addr / page4k + newsize b.size / page4k) ≠ largeNext

theorem World.fresh_some {r : Range} (h0 : r.addr ≠ 0) (hal : r.addr % page4k = 0)
    (hown : ∀ b, w.own b = false) : w.Fresh (some r) := by
  intro q hq
  cases hq
  exact ⟨h0, hal, fun b _ => hown b⟩

theorem World.fresh_none : w.Fresh none := by
  intro r hr
  cases hr

theorem givenBack_obtained (a : Nat) {n m : Nat} (h : n ≤ m) :
    givenBack (obtained (fun _ => false) (some ⟨a, n⟩)) (some ⟨a, m⟩) = fun _ => false := by
  funext b
  simp only [givenBack, obtained, Bool.false_or, Range.mem_def, Bool.and_eq_false_iff,
    decide_eq_false_iff_not, Bool.not_eq_false', decide_eq_true_eq]
  omega

theorem tagged_small {s : State} {b : Block} (h : b.size ≤ kmallocMaxCacheSize) :
    Tagged s b ↔ s.tag b.addr = slabIndex b.size := by
  rw [Tagged, if_pos h]

theorem obtained_of_own {own : Nat → Bool} {b : Nat} (got : Option Range) (h : own b = true) :
    obtained own got b = true := by
  cases got <;> simp [obtained, h]

theorem obtained_of_mem {own : Nat → Bool} {r : Range} {b : Nat} (h : b ∈ r) :
    obtained own (some r) b = true := by
  simp [obtained, h]

theorem low_obtained {own : Nat → Bool} {r : Range} (hlow : ∀ b, own b = true → page4k ≤ b)
    (hr : page4k ≤ r.addr) (b : Nat) (hb : obtained own (some r) b = true) : page4k ≤ b := by
  simp only [obtained, Bool.or_eq_true, decide_eq_true_eq, Range.mem_def] at hb
  rcases hb with hb | hb
  · exact hlow b hb
  · omega

theorem low_givenBack {own : Nat → Bool} (hlow : ∀ b, own b = true → page4k ≤ b)
    (r : Option Range) (b : Nat) (hb : givenBack own r b = true) : page4k ≤ b := by
  cases r with
  | none => exact hlow b hb
  | some r =>
    simp only [givenBack, Bool.and_eq_true] at hb
    exact hlow b hb.1

theorem owned_obtained {own : Nat → Bool} {r : Range} {n b : Nat}
    (hfresh : ∀ b ∈ r, own b = false) (h : n ≤ if own b = true then 1 else 0) :
    r.has b + n ≤ if obtained own (some r) b = true then 1 else 0 := by
  by_cases hb : b ∈ r
  · have hown := hfresh b hb
    rw [hown] at h
    have := r.has_le b
    rw [if_pos (obtained_of_mem hb)]
    simp only [Bool.false_eq_true, if_false] at h
    omega
  · have hsame : obtained own (some r) b = own b := by simp [obtained, hb]
    have hzero : r.has b = 0 := if_neg hb
    rw [hsame]
    omega

theorem owned_givenBack {own : Nat → Bool} {r : Range} {n b : Nat}
    (h : r.has b + n ≤ if own b = true then 1 else 0) :
    n ≤ if givenBack own (some r) b = true then 1 else 0 := by
  by_cases hb : b ∈ r
  · have hone := Range.has_pos.mpr hb
    split at h <;> omega
  · have hsame : givenBack own (some r) b = own b := by simp [givenBack, hb]
    rw [hsame]
    omega

theorem Fresh.low {r : Range} (h0 : r.addr ≠ 0) (hal : r.addr % page4k = 0) : page4k ≤ r.addr := by
  simp only [page4k] at *
  omega

/-! ## Small objects -/

theorem Inv.pop {a size : Nat} {l : List Nat} (h : Inv w FL) (hc : cpu < w.slub.cpus)
    (hi : i < 16) (hl : FL (cpu, i) = a :: l)
    (hsize : 0 < size ∧ size ≤ room size ∧ Tiles size) (hroom : room size = kmallocInfoSize i) :
    Inv ⟨w.slub.setHead cpu i (w.slub.mem a), w.own, ⟨a, size⟩ :: w.live⟩
      (update FL (cpu, i) l) := by
  have hchain := h.lists cpu hc i hi
  rw [hl] at hchain
  refine h.relist (p := w.slub.mem a) (by rfl) (by rfl) ?_ ?_ ?_ ?_ ?_ ?_
  · intro _ _ _ _ _ _ _
    rfl
  · exact hchain.tail
  · intro _
    exact h.classes (cpu, i) (by simp [hl])
  · exact h.low
  · intro b hb
    rcases List.mem_cons.mp hb with rfl | hb
    · exact hsize
    · exact h.blocks b hb
  · -- the object moves from the list to the live blocks
    intro b
    have hupd := freeCover_update hc hi FL l b
    have honce := h.once b
    have hrange : Block.range ⟨a, size⟩ = ⟨a, kmallocInfoSize i⟩ := by rw [Block.range, hroom]
    rw [hl, objectRanges_cons, cover_cons] at hupd
    rw [List.map_cons, cover_cons, hrange]
    omega

theorem Inv.push {b : Block} (h : Inv w FL) (hc : cpu < w.slub.cpus) (hb : b ∈ w.live)
    (h₁ : 3 ≤ i) (h₂ : i ≤ 12) (hroom : room b.size = kmallocInfoSize i) :
    Inv ⟨({ w.slub with mem := update w.slub.mem b.addr (w.slub.cache cpu i).freehead }
        : State).setHead cpu i b.addr, w.own, w.live.erase b⟩
      (update FL (cpu, i) (b.addr :: FL (cpu, i))) := by
  have hi : i < 16 := by omega
  -- no free object begins where the block does
  have hne : ∀ cpu' < w.slub.cpus, ∀ i' < 16, ∀ a ∈ FL (cpu', i'), a ≠ b.addr := by
    intro cpu' hc' i' hi' a ha heq
    subst heq
    exact (h.free_owned hc' hi' ha).2 b hb (h.addr_mem hb)
  have hhigh := h.addr_high hb
  refine h.relist (p := b.addr) (by rfl) (by rfl) ?_ ?_ ?_ ?_ ?_ ?_
  · intro cpu' hc' i' hi' _ a ha
    exact update_of_ne (hne cpu' hc' i' hi' a ha) _ _
  · have hhead : ptr b.addr = some b.addr := by
      rw [ptr, if_neg]
      simp only [page4k] at hhigh
      omega
    rw [hhead]
    refine .cons ?_
    have hnext : next (update w.slub.mem b.addr (w.slub.cache cpu i).freehead) b.addr =
        ptr (w.slub.cache cpu i).freehead := by simp [next]
    refine hnext ▸ (h.lists cpu hc i hi).frame fun a ha => ?_
    rw [next, next]
    exact congrArg ptr (update_of_ne (hne cpu hc i hi a ha) _ _)
  · exact fun _ => ⟨h₁, h₂⟩
  · exact h.low
  · exact fun c hcm => h.blocks c (List.mem_of_mem_erase hcm)
  · -- the block moves from the live blocks to the list
    intro x
    have hupd := freeCover_update hc hi FL (b.addr :: FL (cpu, i)) x
    have honce := h.once x
    have hx := cover_live_erase hb x
    have hrange : b.range = ⟨b.addr, kmallocInfoSize i⟩ := by rw [Block.range, hroom]
    rw [objectRanges_cons, cover_cons] at hupd
    rw [hrange] at hx
    omega

/-- The state after `slub_add_page`, with the memory its loop leaves. -/
def State.added (s : State) (cpu i answer : Nat) (mem : Nat → Nat) : State :=
  (({ s with mem := mem } : State).setHead cpu i answer).mark (answer / page4k) i

theorem slubAddPage_spec {answer : Nat} (h : Inv w FL) (hc : cpu < w.slub.cpus) (h₁ : 3 ≤ i)
    (h₂ : i ≤ 12) (hempty : FL (cpu, i) = []) (hfresh : w.Fresh (some ⟨answer, page4k⟩)) :
    ∃ s' l, slubAddPage w.slub cpu i answer = .ok (true, s', some ⟨answer, page4k⟩) ∧
      s'.cpus = w.slub.cpus ∧ (s'.cache cpu i).freehead = answer ∧
      Inv ⟨s', obtained w.own (some ⟨answer, page4k⟩), w.live⟩
        (update FL (cpu, i) (answer :: l)) := by
  have hi : i < 16 := by omega
  obtain ⟨hidx, hsize⟩ := h.caches cpu hc i (by omega) h₂
  obtain ⟨h0, hal, hown⟩ := hfresh _ rfl
  dsimp only at h0 hal
  obtain ⟨k, hk⟩ := tiles_page h₁ h₂
  have hpos := kmallocInfoSize_pos (i := i) (by omega) h₂
  have hhead := h.lists cpu hc i hi
  rw [hempty] at hhead
  obtain ⟨mem, hadd, hlist, hframe⟩ := slubAddPage_list (hsize ▸ hpos) (hidx.trans_lt hi) h0
    hhead (by simp)
  rw [hsize, hk.1, objects_succ, List.append_nil] at hlist
  have hown' : ∀ a, w.own a = true → a ∉ (⟨answer, page4k⟩ : Range) := by
    intro a ha hmem
    rw [hown a hmem] at ha
    cases ha
  refine ⟨w.slub.added cpu i answer mem,
    objects (kmallocInfoSize i) (answer + kmallocInfoSize i) k, ?_, rfl, ?_, ?_⟩
  · rw [hadd, hidx]
    rfl
  · simp [State.added, State.mark, State.setHead]
  · refine h.relist (p := answer) (by rfl) (by rfl) ?_ ?_ ?_ ?_ ?_ ?_
    · intro cpu' hc' i' hi' _ a ha
      exact hframe a (hown' a (h.free_owned hc' hi' ha).1)
    · rw [ptr, if_neg h0]
      exact hlist
    · exact fun _ => ⟨h₁, h₂⟩
    · exact low_obtained h.low (Fresh.low h0 hal)
    · exact h.blocks
    · intro b
      have hupd := freeCover_update hc hi FL
        (answer :: objects (kmallocInfoSize i) (answer + kmallocInfoSize i) k) b
      have hcover := cover_objects (kmallocInfoSize i) answer (k + 1) b
      rw [hk.2, objects_succ] at hcover
      have hsum := owned_obtained (b := b) hown (h.once b)
      rw [hempty] at hupd
      simp only [objectRanges, List.map_nil, cover_nil] at hupd
      omega

theorem slubAddPage_got {s s' : State} {answer : Nat} {ok : Bool} {got : Option Range}
    (h : slubAddPage s cpu i answer = .ok (ok, s', got)) (ha : answer ≠ 0) :
    ok = true ∧ got = some ⟨answer, page4k⟩ := by
  rw [slubAddPage, if_neg ha] at h
  obtain ⟨_, -, h⟩ := bind_eq_ok.mp h
  obtain ⟨_, -, h⟩ := bind_eq_ok.mp h
  cases h
  exact ⟨rfl, rfl⟩

/-- What `__kmalloc` can do: no block, the head of a new page, or the head of
the list. -/
theorem kmalloc_cases {s s' : State} {size answer v : Nat} {got : Option Range}
    (hsize : size ≤ kmallocMaxCacheSize) (h : Slub.kmalloc s cpu size answer = .ok (v, s', got)) :
    (v = 0 ∨ size = 0) ∧ s' = s ∧ got = none ∨
    0 < size ∧ v ≠ 0 ∧
      ((s.cache cpu (slabIndex size)).freehead = 0 ∧ answer ≠ 0 ∧
        got = some ⟨answer, page4k⟩ ∧
        (∃ s₁, slubAddPage s cpu (slabIndex size) answer = .ok (true, s₁, got) ∧
          v = (s₁.cache cpu (slabIndex size)).freehead ∧
          s' = s₁.setHead cpu (slabIndex size) (s₁.mem v)) ∨
      v = (s.cache cpu (slabIndex size)).freehead ∧ got = none ∧
        s' = s.setHead cpu (slabIndex size) (s.mem v)) := by
  by_cases h0 : size = 0
  · -- `ZERO_SIZE_PTR`
    subst h0
    cases h
    exact .inl ⟨.inr rfl, rfl, rfl⟩
  have hpos : 0 < size := Nat.pos_of_ne_zero h0
  rw [Slub.kmalloc, kmallocSlab_small hpos hsize] at h
  dsimp only at h
  by_cases hhead : (s.cache cpu (slabIndex size)).freehead = 0
  · rw [if_pos hhead] at h
    by_cases ha : answer = 0
    · -- no memory
      rw [slubAddPage, if_pos ha] at h
      cases h
      exact .inl ⟨.inl rfl, rfl, rfl⟩
    · obtain ⟨⟨ok, s₁, got₁⟩, hadd, h⟩ := bind_eq_ok.mp h
      obtain ⟨rfl, rfl⟩ := slubAddPage_got hadd ha
      obtain ⟨_, hne, h⟩ := bind_eq_ok.mp h
      cases h
      refine .inr ⟨hpos, ?_, .inl ⟨hhead, ha, rfl, s₁, hadd, rfl, rfl⟩⟩
      simpa [check] using hne
  · rw [if_neg hhead] at h
    cases h
    exact .inr ⟨hpos, hhead, .inr ⟨rfl, rfl, rfl⟩⟩

theorem World.hand_none {v size : Nat} (h : v = 0 ∨ size = 0) : w.hand v size = w.live := if_pos h

theorem World.hand_some {v size : Nat} (hv : v ≠ 0) (h0 : 0 < size) :
    w.hand v size = ⟨v, size⟩ :: w.live :=
  if_neg (not_or.mpr ⟨hv, by omega⟩)

theorem Inv.kmalloc {size answer v : Nat} {s' : State} {got : Option Range} (h : Inv w FL)
    (hc : cpu < w.slub.cpus) (hsize : size ≤ kmallocMaxCacheSize) (ht : Tiles size)
    (hrun : Slub.kmalloc w.slub cpu size answer = .ok (v, s', got)) (hfresh : w.Fresh got) :
    ∃ FL', Inv ⟨s', obtained w.own got, w.hand v size⟩ FL' := by
  rcases kmalloc_cases hsize hrun with ⟨hnone, rfl, rfl⟩ | ⟨hpos, hv, hcase⟩
  · rw [World.hand_none hnone]
    exact ⟨FL, h⟩
  obtain ⟨hle, h₁, h₂, h₃⟩ := slabIndex_spec hpos hsize
  have hi : slabIndex size < 16 := by omega
  have hroom := room_small hpos hsize
  have hblock : 0 < size ∧ size ≤ room size ∧ Tiles size := ⟨hpos, by omega, ht⟩
  rw [World.hand_some hv hpos]
  rcases hcase with ⟨hhead, ha, rfl, s₁, hadd, rfl, rfl⟩ | ⟨rfl, rfl, rfl⟩
  · obtain ⟨s₂, l, hadd', hcpus, hfirst, hinv⟩ :=
      slubAddPage_spec h hc (h₃ ht) h₂ (h.listed.empty hc hi hhead) hfresh
    rw [hadd] at hadd'
    cases hadd'
    rw [hfirst]
    exact ⟨_, hinv.pop (hcpus ▸ hc) hi (update_self _ _ _) hblock hroom⟩
  · obtain ⟨l, hl⟩ := h.listed.head_cons hc hi hv
    exact ⟨_, h.pop hc hi hl hblock hroom⟩

/-! ## Large blocks -/

theorem Inv.kmallocLarge {size : Nat} (answer : Nat) (h : Inv w FL) (hsize : kmallocMaxCacheSize < size)
    (hwrap : size + 0xfff < 2 ^ 64) (hfresh : w.Fresh (Slub.kmallocLarge w.slub size answer).2.2) :
    Inv ⟨(Slub.kmallocLarge w.slub size answer).2.1,
      obtained w.own (Slub.kmallocLarge w.slub size answer).2.2,
      w.hand (Slub.kmallocLarge w.slub size answer).1 size⟩ FL := by
  have hpos : 0 < size := by omega
  have hfit := le_room hpos fun _ => hwrap
  have ht : Tiles size := by
    simp only [kmallocMaxCacheSize] at hsize
    unfold Tiles
    omega
  rw [Slub.kmallocLarge] at hfresh ⊢
  by_cases ha : answer = 0
  · rw [if_pos ha]
    exact h
  · rw [if_neg ha] at hfresh ⊢
    obtain ⟨h0, hal, hown⟩ := hfresh _ rfl
    have hand : w.hand answer size = ⟨answer, size⟩ :: w.live :=
      if_neg (not_or.mpr ⟨ha, by omega⟩)
    -- tags are the only part of the state that changes
    constructor
    case caches => simpa using h.caches
    case large => simpa using h.large
    case lists => simpa using h.lists
    case classes => exact h.classes
    case low => exact low_obtained h.low (Fresh.low h0 hal)
    case blocks =>
      intro b hb
      dsimp only at hb
      rw [hand] at hb
      rcases List.mem_cons.mp hb with rfl | hb
      · exact ⟨hpos, hfit, ht⟩
      · exact h.blocks b hb
    case once =>
      intro b
      have hsum := owned_obtained (b := b) hown (h.once b)
      have hrange : Block.range ⟨answer, size⟩ = ⟨answer, newsize size⟩ := by
        rw [Block.range, room_large hsize]
      dsimp only
      rw [hand, List.map_cons, cover_cons, hrange, markNext_cpus]
      exact (Nat.add_assoc _ _ _).trans_le hsum

theorem slubMalloc_cases {s s' : State} {size answer v : Nat} {got : Option Range}
    (h : slubMalloc s cpu size answer = .ok (v, s', got)) :
    kmallocMaxCacheSize < size ∧ Slub.kmallocLarge s size answer = (v, s', got) ∨
      size ≤ kmallocMaxCacheSize ∧ Slub.kmalloc s cpu size answer = .ok (v, s', got) := by
  rw [slubMalloc] at h
  split at h
  case isTrue hlarge => exact .inl ⟨hlarge, Except.ok.inj h⟩
  case isFalse hsmall => exact .inr ⟨Nat.le_of_not_lt hsmall, h⟩

/-- The loop goes over the pages tagged `LARGE_NEXT` behind the first one. -/
theorem largeSize_pages {s : State} {fuel offset size r : Nat}
    (h : largeSize s fuel offset size = .ok r) :
    ∃ n, 0 < n ∧ r = size + n * page4k ∧
      (∀ j, 0 < j → j < n → s.pageBits (offset + j) = largeNext) ∧
      s.pageBits (offset + n) ≠ largeNext := by
  induction fuel generalizing offset size with
  | zero => cases h
  | succ fuel ih =>
    rw [largeSize] at h
    split at h
    case isTrue hnext =>
      obtain ⟨n, hn, hr, hpages, hend⟩ := ih h
      refine ⟨n + 1, by omega, by rw [hr, Nat.succ_mul]; omega, fun j hj hjn => ?_, ?_⟩
      · by_cases hone : j = 1
        · exact hone ▸ hnext
        · have hj' : offset + j = offset + 1 + (j - 1) := by omega
          exact hj' ▸ hpages (j - 1) (by omega) (by omega)
      · exact (Nat.add_right_comm offset 1 n) ▸ hend
    case isFalse hend =>
      cases h
      exact ⟨1, by decide, by omega, fun j hj hj1 => by omega, hend⟩

theorem largeSize_eq {s : State} {fuel offset n size r : Nat} (hn : 0 < n)
    (hnext : ∀ j, 0 < j → j < n → s.pageBits (offset + j) = largeNext)
    (hend : s.pageBits (offset + n) ≠ largeNext) (h : largeSize s fuel offset size = .ok r) :
    r = size + n * page4k := by
  obtain ⟨m, hm, hr, hpages, hstop⟩ := largeSize_pages h
  -- each stops where the other one does
  have hmn : m = n := by
    rcases Nat.lt_trichotomy m n with hlt | heq | hlt
    · exact absurd (hnext m hm hlt) hstop
    · exact heq
    · exact absurd (hpages n hn hlt) hend
  rw [hr, hmn]

/-! ## Freeing -/

theorem Inv.slubMfree {fuel : Nat} {b : Block} {s' : State} {given : Option Range} (h : Inv w FL)
    (hc : cpu < w.slub.cpus) (hb : b ∈ w.live) (htag : Tagged w.slub b)
    (hrun : Slub.slubMfree fuel w.slub cpu b.addr = .ok (s', given)) :
    ∃ FL', Inv ⟨s', givenBack w.own given, w.live.erase b⟩ FL' := by
  have hhigh := h.addr_high hb
  obtain ⟨hpos, hfit, ht⟩ := h.blocks b hb
  have hne : b.addr ≠ zeroSizePtr := by
    simp only [page4k, zeroSizePtr] at *
    omega
  rw [Slub.slubMfree, kmfree, if_neg hne] at hrun
  dsimp only at hrun
  by_cases hs : b.size ≤ kmallocMaxCacheSize
  · rw [tagged_small hs] at htag
    obtain ⟨-, h₁, h₂, h₃⟩ := slabIndex_spec hpos hs
    have hidx := (h.caches cpu hc _ h₁ h₂).1
    rw [htag, hidx, if_neg (by simp only [largeIdx]; omega)] at hrun
    cases hrun
    exact ⟨_, h.push hc hb (h₃ ht) h₂ (room_small hpos hs)⟩
  · rw [Tagged, if_neg hs] at htag
    obtain ⟨hfirst, hnext, hend⟩ := htag
    rw [hfirst, h.large cpu hc, if_pos rfl] at hrun
    obtain ⟨r, hr, hrun⟩ := bind_eq_ok.mp hrun
    cases hrun
    -- the block is as long as its tags say
    have hroom := room_large (Nat.lt_of_not_le hs)
    have hwhole : newsize b.size / page4k * page4k = newsize b.size := by
      rw [newsize, Nat.mul_div_cancel _ (by decide)]
    have hn : 0 < newsize b.size / page4k := by
      refine Nat.div_pos ?_ (by decide)
      simp only [kmallocMaxCacheSize, page4k] at *
      omega
    have hlen := largeSize_eq hn hnext hend hr
    rw [Nat.zero_add, hwhole, ← hroom] at hlen
    subst hlen
    refine ⟨FL, h.caches, h.large, h.lists, h.classes,
      low_givenBack h.low (some ⟨b.addr, room b.size⟩), ?_, ?_⟩
    · exact fun c hcm => h.blocks c (List.mem_of_mem_erase hcm)
    · intro x
      have hsum := cover_live_erase hb x
      have honce := h.once x
      refine owned_givenBack ?_
      have hrange : (⟨b.addr, room b.size⟩ : Range) = b.range := rfl
      dsimp only
      rw [hrange]
      omega

end Yaos.Slub
