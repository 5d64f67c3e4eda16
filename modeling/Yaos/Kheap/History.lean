import Yaos.Kheap.Refill

/-!
# Any interleaving of heap calls

The heap together with the blocks its callers hold. A caller may give a
block up (`release`); only then can its range come back through
`free_kheap_4k`, which must be called on memory that nothing else owns.
-/

namespace Yaos.Kheap

open Yaos.Lib Yaos.Holes
open Yaos.Phymem (pageSize)

structure World where
  heap : State
  live : List Range

inductive Op where
  | free4k (addr size : Nat)
  | alloc4k (size : Nat)
  | allocSmall (size : Nat)
  | kalloc (size : Nat)
  | release (r : Range)

structure Call where
  op : Op
  result : Option Nat

/-- The bytes a block of each call has. -/
def Op.bytes : Op → Nat
  | .free4k _ _ => 0
  | .alloc4k size => round4k size
  | .allocSmall size => size
  | .kalloc size => if size < maxSmallHeap then size else round4k size
  | .release _ => 0

def Op.request : Op → Nat
  | .free4k _ _ => 0
  | .alloc4k size => size
  | .allocSmall size => size
  | .kalloc size => size
  | .release _ => 0

/-- The call is served by `alloc_kheap_4k`. -/
def Op.Is4k : Op → Prop
  | .alloc4k _ => True
  | .kalloc size => ¬ size < maxSmallHeap
  | _ => False

/-- Nothing that is free or live overlaps the range. -/
def World.Untouched (w : World) (r : Range) : Prop :=
  ∃ L M, w.heap.heap4k.Reps L ∧ w.heap.small.Reps M ∧
    (∀ q ∈ L ++ M ++ w.live, r.Apart q) ∧
    ∀ i, w.heap.phys.bit i = true → r.Apart ⟨pageSize * i, pageSize⟩

/-- One step: a call that returned, on arguments its caller may use. -/
def Step (w : World) (c : Call) (w' : World) : Prop :=
  match c.op with
  | .free4k addr size =>
      addr % 0x1000 = 0 ∧ size % 0x1000 = 0 ∧ 0 < size ∧ w.Untouched ⟨addr, size⟩ ∧
      freeKheap4k w.heap addr size = .ok w'.heap ∧ c.result = none ∧ w'.live = w.live
  | .alloc4k size =>
      size + 0xfff < 2 ^ 64 ∧
      (∃ fuel, allocKheap4k fuel w.heap size = .ok (c.result, w'.heap)) ∧
      w'.live = hand c.op.bytes c.result w.live
  | .allocSmall size =>
      (∃ fuel, allocKheapSmall fuel w.heap size = .ok (c.result, w'.heap)) ∧
      w'.live = hand c.op.bytes c.result w.live
  | .kalloc size =>
      size + 0xfff < 2 ^ 64 ∧
      (∃ fuel, kalloc fuel w.heap size = .ok (c.result, w'.heap)) ∧
      w'.live = hand c.op.bytes c.result w.live
  | .release r =>
      r ∈ w.live ∧ w'.heap = w.heap ∧ c.result = none ∧ w'.live = w.live.erase r

/-- The state of the heap and of its blocks between calls. -/
structure WellFormed (w : World) (l f m g : List Nat) (L M : List Range) : Prop where
  /-- every descriptor is on exactly one of its hole list and its pool -/
  nodes4k : Shape w.heap.heap4k l f ∧ l.map w.heap.heap4k.range = L
  nodesSmall : Shape w.heap.small m g ∧ m.map w.heap.small.range = M
  sorted : L.Pairwise fun r q => r.addr < q.addr
  whole : ∀ q ∈ L, 0 < q.size ∧ q.addr % 0x1000 = 0 ∧ q.size % 0x1000 = 0
  holesApart : L.Pairwise Range.Apart
  liveApart : w.live.Pairwise Range.Apart
  liveHoles : ∀ r ∈ w.live, ∀ q ∈ L ++ M, r.Apart q
  livePages : ∀ r ∈ w.live, ∀ i, w.heap.phys.bit i = true →
    r.Apart ⟨pageSize * i, pageSize⟩

/-- What a call hands out: a block of at least the bytes asked for, which
is live from now on; for a 4K block, from the lowest hole that fits. -/
def Served (w : World) (c : Call) (w' : World) : Prop :=
  ∀ a, c.result = some a →
    (∃ n, c.op.request ≤ n ∧ w'.live = ⟨a, n⟩ :: w.live) ∧
    (c.op.Is4k → ∃ L, w.heap.heap4k.Reps L ∧ Lowest w.heap L (round4k c.op.request) a)

/-- A request that some hole fits is served, from the lowest of these holes. -/
def TakesLowest (s : State) : Prop :=
  ∀ L size n, s.heap4k.Reps L → size + 0xfff < 2 ^ 64 → (∃ q ∈ L, size ≤ q.size) →
    ∃ a t, allocKheap4k (n + 1) s size = .ok (some a, t) ∧
      (∃ q ∈ L, size ≤ q.size ∧ a = q.addr) ∧ ∀ x ∈ L, size ≤ x.size → a ≤ x.addr

/-! ## Steps -/

theorem cover_erase_le (r : Range) (live : List Range) (b : Nat) :
    cover (live.erase r) b ≤ cover live b := by
  induction live with
  | nil => simp
  | cons q live ih =>
    by_cases hq : q = r
    · subst hq
      simp
    · rw [List.erase_cons_tail (by simpa using hq), cover_cons, cover_cons]
      omega

theorem Inv.untouched {w : World} {L M : List Range} {r : Range} (hi : Inv w.heap w.live L M)
    (h : w.Untouched r) (b : Nat) :
    r.has b + (cover L b + cover M b + cover w.live b + freeAt w.heap.phys b) ≤ 1 := by
  obtain ⟨L', M', hL, hM, hap, hpages⟩ := h
  obtain rfl := hL.unique hi.heap4k
  obtain rfl := hM.unique hi.small
  by_cases hb : b ∈ r
  · have hzero : cover (L' ++ M' ++ w.live) b = 0 := cover_eq_zero.mpr fun q hq => hap q hq b hb
    have hfree : freeAt w.heap.phys b = 0 := by
      refine if_neg fun hbit => hpages _ hbit b hb ?_
      have := Nat.div_add_mod b pageSize
      have := Nat.mod_lt b (by decide : 0 < pageSize)
      rw [Range.mem_def]
      dsimp only
      omega
    have := r.has_le b
    simp only [cover_append] at hzero
    omega
  · have hr : r.has b = 0 := if_neg hb
    have := hi.once b
    omega

theorem hand_some {n a : Nat} {p : Option Nat} {live live' : List Range}
    (h : live' = hand n p live) (hp : p = some a) : live' = ⟨a, n⟩ :: live := by
  rw [h, hp]
  rfl

theorem Inv.step {w w' : World} {c : Call} (h : ∃ L M, Inv w.heap w.live L M)
    (hs : Step w c w') : (∃ L M, Inv w'.heap w'.live L M) ∧ Served w c w' := by
  obtain ⟨L, M, hi⟩ := h
  obtain ⟨op, result⟩ := c
  cases op with
  | free4k addr size =>
    obtain ⟨_, _, hpos, hun, hfree, hres, hlive⟩ := hs
    obtain ⟨hi', _, _⟩ := hi.free4k hpos (hi.untouched hun) hfree
    rw [hlive]
    exact ⟨⟨_, M, hi'⟩, fun a ha => by rw [hres] at ha; cases ha⟩
  | alloc4k size =>
    obtain ⟨hw, ⟨fuel, hcall⟩, hlive⟩ := hs
    obtain ⟨⟨L', hi'⟩, hlow⟩ := hi.alloc4k hcall
    refine ⟨⟨L', M, hlive ▸ hi'⟩, fun a ha => ⟨⟨_, le_round4k hw, hand_some hlive ha⟩, ?_⟩⟩
    exact fun _ => ⟨L, hi.heap4k, hlow a ha⟩
  | allocSmall size =>
    obtain ⟨⟨fuel, hcall⟩, hlive⟩ := hs
    refine ⟨hlive ▸ hi.allocSmall hcall, fun a ha => ⟨⟨_, Nat.le_refl _, hand_some hlive ha⟩, ?_⟩⟩
    exact False.elim
  | kalloc size =>
    obtain ⟨hw, ⟨fuel, hcall⟩, hlive⟩ := hs
    by_cases hsmall : size < maxSmallHeap
    · rw [kalloc, if_pos hsmall] at hcall
      simp only [Op.bytes, if_pos hsmall] at hlive
      refine ⟨hlive ▸ hi.allocSmall hcall, fun a ha => ⟨⟨_, Nat.le_refl _, hand_some hlive ha⟩, ?_⟩⟩
      exact fun h4k => absurd hsmall h4k
    · rw [kalloc, if_neg hsmall] at hcall
      simp only [Op.bytes, if_neg hsmall] at hlive
      obtain ⟨⟨L', hi'⟩, hlow⟩ := hi.alloc4k hcall
      refine ⟨⟨L', M, hlive ▸ hi'⟩, fun a ha => ⟨⟨_, le_round4k hw, hand_some hlive ha⟩, ?_⟩⟩
      exact fun _ => ⟨L, hi.heap4k, hlow a ha⟩
  | release r =>
    obtain ⟨_, hheap, hres, hlive⟩ := hs
    rw [hheap, hlive]
    exact ⟨⟨L, M, hi.mono (cover_erase_le r w.live)⟩, fun a ha => by rw [hres] at ha; cases ha⟩

theorem Inv.takesLowest {s : State} {live L M : List Range} (hi : Inv s live L M) :
    TakesLowest s := by
  intro L' size n hL' hw hfits
  obtain rfl := hL'.unique hi.heap4k
  have hround : ∀ q ∈ L', (round4k size ≤ q.size ↔ size ≤ q.size) := fun q hq =>
    round4k_le_iff hw (hi.whole q hq).2.2
  obtain ⟨q, hq, hle⟩ := hfits
  obtain ⟨a, h', L₁, hok, hcut, -⟩ :=
    allocKheap4k_of_serves hi.heap4k ⟨q, hq, (hround q hq).mpr hle⟩ n
  obtain ⟨⟨r, hr, hfit, ha⟩, hlow⟩ := cutFirst_lowest hcut hi.ordered
  exact ⟨a, _, hok, ⟨r, hr, (hround r hr).mp hfit, ha⟩, fun x hx hx' => hlow x hx ((hround x hx).mpr hx')⟩

theorem Inv.wellFormed {w : World} {L M : List Range} (hi : Inv w.heap w.live L M) :
    ∃ l f m g, WellFormed w l f m g L M := by
  obtain ⟨l, f, hs, hl⟩ := hi.heap4k
  obtain ⟨m, g, hs', hm⟩ := hi.small
  refine ⟨l, f, m, g, ⟨hs, hl⟩, ⟨hs', hm⟩, ?_, hi.whole, ?_, ?_, ?_, ?_⟩
  · refine hi.ordered.imp_of_mem fun {r q} hr _ hle => ?_
    have := (hi.whole r hr).1
    omega
  · exact hi.ordered.imp fun {r q} hle => Range.apart_of_le hle
  · refine pairwise_apart_iff.mpr fun b => ?_
    have := hi.once b
    omega
  · intro r hr q hq
    refine apart_of_cover (fun b => ?_) hr hq
    have := hi.once b
    rw [cover_append]
    omega
  · intro r hr i hbit b hbr hbi
    have h₁ := cover_pos.mpr ⟨r, hr, hbr⟩
    have h₂ : freeAt w.heap.phys b = 1 := by
      rw [Range.mem_def] at hbi
      have : b / pageSize = i := by
        rw [Nat.div_eq_iff (by decide)]
        simp only [pageSize] at hbi ⊢
        omega
      exact if_pos (by rw [this]; exact hbit)
    have := hi.once b
    omega

/-- **The early heap.** After any interleaving of calls that return, the 4K
holes are sorted, non-empty, aligned and disjoint, every descriptor is on
one list, the live blocks are disjoint from each other and from everything
free, every block was served from the lowest hole that fits, and in every state on
the way a request that some hole fits would have been served from the lowest. -/
theorem kheap_wellFormed {phys : Phymem.State} {tr : List (Taken World Call)} {w : World}
    (hphys : Phymem.Inv phys) (h : Trace Step ⟨initKheap phys, []⟩ tr w) :
    (∃ l f m g L M, WellFormed w l f m g L M) ∧ TakesLowest w.heap ∧
      ∀ x ∈ tr, Served x.pre x.label x.post ∧ TakesLowest x.pre.heap := by
  have hrun := h.always (fun w => ∃ L M, Inv w.heap w.live L M)
    (fun hi hs => (Inv.step hi hs).1) ⟨[], [], inv_initKheap hphys⟩
  obtain ⟨L, M, hi⟩ := hrun.1
  obtain ⟨l, f, m, g, hwf⟩ := hi.wellFormed
  refine ⟨⟨l, f, m, g, L, M, hwf⟩, hi.takesLowest, fun x hx => ?_⟩
  obtain ⟨⟨L₁, M₁, hi₁⟩, -⟩ := hrun.2 x hx
  exact ⟨(Inv.step ⟨L₁, M₁, hi₁⟩ (h.taken x hx)).2, hi₁.takesLowest⟩

/-- Three pages at 1M are given to the heap; a 4K block and a small block,
refilled from the second page, are taken from them. -/
theorem kheap_wellFormed_run :
    ∃ tr w, Trace Step ⟨initKheap (Phymem.initPhyMem 0), []⟩ tr w ∧
      w.live = [⟨0x101000, 100⟩, ⟨0x100000, 0x1000⟩] ∧
      (∃ l f m g L M, WellFormed w l f m g L M) ∧ TakesLowest w.heap := by
  have huntouched : World.Untouched ⟨initKheap (Phymem.initPhyMem 0), []⟩ ⟨0x100000, 0x3000⟩ :=
    ⟨[], [], reps_init (by decide), reps_init (by decide), by simp, fun i hi => by
      rw [show (initKheap (Phymem.initPhyMem 0)).phys.bit i = false from
        Phymem.initPhyMem_bit 0 i] at hi
      cases hi⟩
  have htr : Trace Step ⟨initKheap (Phymem.initPhyMem 0), []⟩
      [⟨_, ⟨.free4k 0x100000 0x3000, none⟩, ⟨_, []⟩⟩,
        ⟨_, ⟨.alloc4k 0x1000, some 0x100000⟩, ⟨_, [⟨0x100000, 0x1000⟩]⟩⟩,
        ⟨_, ⟨.kalloc 100, some 0x101000⟩, ⟨_, [⟨0x101000, 100⟩, ⟨0x100000, 0x1000⟩]⟩⟩] _ :=
    .step ⟨rfl, rfl, by decide, huntouched, rfl, rfl, rfl⟩
      (.step ⟨by decide, ⟨1, rfl⟩, rfl⟩ (.step ⟨by decide, ⟨2, rfl⟩, rfl⟩ (.done _)))
  obtain ⟨hwf, hlow, -⟩ := kheap_wellFormed (Phymem.inv_init 0) htr
  exact ⟨_, _, htr, rfl, hwf, hlow⟩

end Yaos.Kheap
