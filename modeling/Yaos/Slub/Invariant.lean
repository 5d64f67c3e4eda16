import Mathlib.Algebra.BigOperators.Group.Finset.Basic
import Mathlib.Algebra.Order.BigOperators.Group.Finset
import Yaos.Slub.Objects

/-!
# Who owns a byte of slub memory

The world is slub's state, the bytes it obtained from the 4K heap and has
not given back, and the live blocks. `Inv` is one sum for each byte: it is
in at most one live block or free object, and in none if slub does not own
it. Each operation moves a range from one term of the sum to another.
-/

namespace Yaos.Slub

open Yaos.Lib Function

/-- A block that `slub_malloc` returned for `size` bytes. -/
structure Block where
  addr : Nat
  size : Nat
  deriving DecidableEq

def Block.range (b : Block) : Range := ⟨b.addr, room b.size⟩

/-- Slub, the bytes it holds of the heap, and the live blocks. -/
structure World where
  slub : State
  own : Nat → Bool
  live : List Block

/-- What slub owns after it obtained a range, or none. -/
def obtained (own : Nat → Bool) : Option Range → Nat → Bool
  | none, b => own b
  | some r, b => own b || decide (b ∈ r)

/-- What slub owns after it gave a range back, or none. -/
def givenBack (own : Nat → Bool) : Option Range → Nat → Bool
  | none, b => own b
  | some r, b => own b && !decide (b ∈ r)

abbrev Lists := Nat × Nat → List Nat

/-- The objects of a list of one class. -/
def objectRanges (i : Nat) (l : List Nat) : List Range := l.map fun a => ⟨a, kmallocInfoSize i⟩

/-- How many free objects a byte is in. -/
def freeCover (cpus : Nat) (FL : Lists) (b : Nat) : Nat :=
  ∑ x ∈ Finset.range cpus ×ˢ Finset.range 16, cover (objectRanges x.2 (FL x)) b

/-- The caches as they were created, with the free lists. -/
structure Listed (s : State) (FL : Lists) : Prop where
  caches : ∀ cpu < s.cpus, ∀ i, 1 ≤ i → i ≤ 12 →
    (s.cache cpu i).idx = i ∧ (s.cache cpu i).size = kmallocInfoSize i
  large : ∀ cpu < s.cpus, (s.cache cpu largeIdx).idx = largeIdx
  lists : ∀ cpu < s.cpus, ∀ i < 16,
    Chain (next s.mem) (ptr (s.cache cpu i).freehead) (FL (cpu, i))

structure Inv (w : World) (FL : Lists) : Prop where
  caches : ∀ cpu < w.slub.cpus, ∀ i, 1 ≤ i → i ≤ 12 →
    (w.slub.cache cpu i).idx = i ∧ (w.slub.cache cpu i).size = kmallocInfoSize i
  large : ∀ cpu < w.slub.cpus, (w.slub.cache cpu largeIdx).idx = largeIdx
  lists : ∀ cpu < w.slub.cpus, ∀ i < 16,
    Chain (next w.slub.mem) (ptr (w.slub.cache cpu i).freehead) (FL (cpu, i))
  classes : ∀ x, FL x ≠ [] → 3 ≤ x.2 ∧ x.2 ≤ 12
  low : ∀ b, w.own b = true → page4k ≤ b
  blocks : ∀ b ∈ w.live, 0 < b.size ∧ b.size ≤ room b.size ∧ Tiles b.size
  once : ∀ b, cover (w.live.map Block.range) b + freeCover w.slub.cpus FL b ≤
    if w.own b = true then 1 else 0

/-! ## The sum -/

variable {w : World} {FL : Lists} {cpu i : Nat}

theorem mem_index {cpus : Nat} (hc : cpu < cpus) (hi : i < 16) :
    (cpu, i) ∈ Finset.range cpus ×ˢ Finset.range 16 := by
  simp [hc, hi]

@[simp] theorem objectRanges_cons (i a : Nat) (l : List Nat) :
    objectRanges i (a :: l) = ⟨a, kmallocInfoSize i⟩ :: objectRanges i l := rfl

theorem sum_lists_update {cpus : Nat} (hc : cpu < cpus) (hi : i < 16)
    (f : Nat × Nat → List Nat → Nat) (FL : Lists) (l : List Nat) :
    ∑ x ∈ Finset.range cpus ×ˢ Finset.range 16, f x (update FL (cpu, i) l x) +
        f (cpu, i) (FL (cpu, i)) =
      ∑ x ∈ Finset.range cpus ×ˢ Finset.range 16, f x (FL x) + f (cpu, i) l := by
  have hx := mem_index hc hi
  rw [← Finset.add_sum_erase _ _ hx, ← Finset.add_sum_erase _ _ hx]
  have hrest : ∑ y ∈ (Finset.range cpus ×ˢ Finset.range 16).erase (cpu, i),
      f y (update FL (cpu, i) l y) =
      ∑ y ∈ (Finset.range cpus ×ˢ Finset.range 16).erase (cpu, i), f y (FL y) := by
    refine Finset.sum_congr rfl fun y hy => ?_
    rw [update_of_ne (Finset.ne_of_mem_erase hy)]
  rw [hrest, update_self]
  omega

theorem freeCover_update {cpus : Nat} (hc : cpu < cpus) (hi : i < 16) (FL : Lists) (l : List Nat)
    (b : Nat) :
    freeCover cpus (update FL (cpu, i) l) b + cover (objectRanges i (FL (cpu, i))) b =
      freeCover cpus FL b + cover (objectRanges i l) b :=
  sum_lists_update hc hi (fun x l => cover (objectRanges x.2 l) b) FL l

theorem has_le_freeCover (hc : cpu < w.slub.cpus) (hi : i < 16) {a : Nat} (ha : a ∈ FL (cpu, i))
    (b : Nat) : Range.has ⟨a, kmallocInfoSize i⟩ b ≤ freeCover w.slub.cpus FL b := by
  have hone : Range.has ⟨a, kmallocInfoSize i⟩ b ≤ cover (objectRanges i (FL (cpu, i))) b :=
    has_le_cover (List.mem_map_of_mem (f := fun a => (⟨a, kmallocInfoSize i⟩ : Range)) ha) b
  have hsum : cover (objectRanges i (FL (cpu, i))) b ≤ freeCover w.slub.cpus FL b :=
    Finset.single_le_sum (f := fun x => cover (objectRanges x.2 (FL x)) b)
      (fun _ _ => Nat.zero_le _) (mem_index hc hi)
  omega

theorem kmallocInfoSize_pos (h₁ : 1 ≤ i) (h₂ : i ≤ 12) : 0 < kmallocInfoSize i := by
  have : ∀ i < 13, 1 ≤ i → 0 < kmallocInfoSize i := by decide
  exact this i (by omega) h₁

/-- The first byte of a free object is owned, and in no live block. -/
theorem Inv.free_owned (h : Inv w FL) (hc : cpu < w.slub.cpus) (hi : i < 16) {a : Nat}
    (ha : a ∈ FL (cpu, i)) : w.own a = true ∧ ∀ b ∈ w.live, a ∉ b.range := by
  obtain ⟨h₁, h₂⟩ := h.classes (cpu, i) (List.ne_nil_of_mem ha)
  have hfree := has_le_freeCover hc hi ha a
  have hin : Range.has ⟨a, kmallocInfoSize i⟩ a = 1 := by
    have := kmallocInfoSize_pos (i := i) (by omega) h₂
    rw [Range.has_eq, if_pos ⟨Nat.le_refl _, by omega⟩]
  have honce := h.once a
  constructor
  · by_contra hno
    rw [if_neg hno] at honce
    omega
  · intro b hb hmem
    have hlive := has_le_cover (List.mem_map_of_mem (f := Block.range) hb) a
    have : 0 < b.range.has a := Range.has_pos.mpr hmem
    split at honce <;> omega

theorem cover_live_erase {live : List Block} {b : Block} (hb : b ∈ live) (x : Nat) :
    b.range.has x + cover ((live.erase b).map Block.range) x = cover (live.map Block.range) x := by
  rw [← cover_cons, ← List.map_cons]
  exact (((List.perm_cons_erase hb).map _).map _).symm.sum_eq

theorem Inv.live_owned (h : Inv w FL) {b : Block} (hb : b ∈ w.live) {x : Nat} (hx : x ∈ b.range) :
    w.own x = true := by
  have honce := h.once x
  have hsum := cover_live_erase hb x
  have hone := Range.has_pos.mpr hx
  by_contra hno
  rw [if_neg hno] at honce
  omega

theorem Inv.addr_mem (h : Inv w FL) {b : Block} (hb : b ∈ w.live) : b.addr ∈ b.range := by
  have := h.blocks b hb
  refine ⟨Nat.le_refl _, ?_⟩
  simp only [Block.range]
  omega

theorem Inv.addr_high (h : Inv w FL) {b : Block} (hb : b ∈ w.live) : page4k ≤ b.addr :=
  h.low _ (h.live_owned hb (h.addr_mem hb))

/-! ## One list changes -/

/-- The memory of the other lists is as before, and the new list is linked. -/
theorem Listed.relist {s s' : State} {p : Nat} {l : List Nat} (h : Listed s FL)
    (hcpus : s'.cpus = s.cpus) (hcache : s'.cache = (s.setHead cpu i p).cache)
    (hframe : ∀ cpu' < s.cpus, ∀ i' < 16, (cpu', i') ≠ (cpu, i) →
      ∀ a ∈ FL (cpu', i'), s'.mem a = s.mem a)
    (hlist : Chain (next s'.mem) (ptr p) l) : Listed s' (update FL (cpu, i) l) := by
  -- `freehead` is the only field written
  have hfields : ∀ cpu' i', (s'.cache cpu' i').idx = (s.cache cpu' i').idx ∧
      (s'.cache cpu' i').size = (s.cache cpu' i').size := by
    intro cpu' i'
    rw [hcache, State.setHead_cache]
    split
    · rename_i heq
      obtain ⟨rfl, rfl⟩ := heq
      exact ⟨rfl, rfl⟩
    · exact ⟨rfl, rfl⟩
  constructor
  case caches =>
    intro cpu' hc' i' h₁ h₂
    obtain ⟨hidx, hsize⟩ := hfields cpu' i'
    rw [hidx, hsize]
    exact h.caches cpu' (hcpus ▸ hc') i' h₁ h₂
  case large =>
    intro cpu' hc'
    exact (hfields cpu' largeIdx).1.trans (h.large cpu' (hcpus ▸ hc'))
  case lists =>
    intro cpu' hc' i' hi'
    rw [hcache, State.setHead_cache]
    by_cases heq : (cpu', i') = (cpu, i)
    · rw [heq, update_self, if_pos (Prod.mk.inj heq)]
      exact hlist
    · rw [update_of_ne heq, if_neg fun hand => heq (Prod.ext hand.1 hand.2)]
      refine (h.lists cpu' (hcpus ▸ hc') i' hi').frame fun a ha => ?_
      rw [next, next, hframe cpu' (hcpus ▸ hc') i' hi' heq a ha]

theorem initSlub_listed (cpus : Nat) (mem : Nat → Nat) :
    Listed (initSlub cpus mem) fun _ => [] where
  caches cpu _ i h₁ h₂ := by simp [initSlub, createKmallocCaches, h₁, h₂]
  large cpu _ := rfl
  lists cpu _ i _ := by
    have hhead : (createKmallocCaches i).freehead = 0 := by
      unfold createKmallocCaches
      split <;> rfl
    simp only [initSlub, hhead]
    exact .nil _

theorem Listed.empty {s : State} (h : Listed s FL) (hc : cpu < s.cpus) (hi : i < 16)
    (hp : (s.cache cpu i).freehead = 0) : FL (cpu, i) = [] := by
  have hchain := h.lists cpu hc i hi
  rw [hp] at hchain
  exact hchain.nil_of_none

/-- The first object of a list whose head is not `NULL`. -/
theorem Listed.head_cons {s : State} (h : Listed s FL) (hc : cpu < s.cpus) (hi : i < 16)
    (hp : (s.cache cpu i).freehead ≠ 0) : ∃ l, FL (cpu, i) = (s.cache cpu i).freehead :: l := by
  have hchain := h.lists cpu hc i hi
  rw [ptr, if_neg hp] at hchain
  obtain ⟨l, hl, -⟩ := hchain.eq_cons
  exact ⟨l, hl⟩

theorem Inv.listed (h : Inv w FL) : Listed w.slub FL := ⟨h.caches, h.large, h.lists⟩

/-- What an operation on one free list has to show: the memory of the other
lists is as before, the new list is linked, and the sum still holds. -/
theorem Inv.relist {s' : State} {own' : Nat → Bool} {live' : List Block} {p : Nat} {l : List Nat}
    (h : Inv w FL) (hcpus : s'.cpus = w.slub.cpus)
    (hcache : s'.cache = (w.slub.setHead cpu i p).cache)
    (hframe : ∀ cpu' < w.slub.cpus, ∀ i' < 16, (cpu', i') ≠ (cpu, i) →
      ∀ a ∈ FL (cpu', i'), s'.mem a = w.slub.mem a)
    (hlist : Chain (next s'.mem) (ptr p) l) (hclass : l ≠ [] → 3 ≤ i ∧ i ≤ 12)
    (hlow : ∀ b, own' b = true → page4k ≤ b)
    (hblocks : ∀ b ∈ live', 0 < b.size ∧ b.size ≤ room b.size ∧ Tiles b.size)
    (honce : ∀ b, cover (live'.map Block.range) b +
      freeCover w.slub.cpus (update FL (cpu, i) l) b ≤ if own' b = true then 1 else 0) :
    Inv ⟨s', own', live'⟩ (update FL (cpu, i) l) := by
  have hlisted := h.listed.relist hcpus hcache hframe hlist
  refine ⟨hlisted.caches, hlisted.large, hlisted.lists, ?_, hlow, hblocks, ?_⟩
  · intro x hx
    by_cases heq : x = (cpu, i)
    · subst heq
      rw [update_self] at hx
      exact hclass hx
    · rw [update_of_ne heq] at hx
      exact h.classes x hx
  · intro b
    dsimp only
    rw [hcpus]
    exact honce b

end Yaos.Slub
