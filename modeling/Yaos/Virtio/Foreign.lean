import Yaos.Virtio.History

/-!
# Used elements of a device that is not trusted

The device may write any 32-bit `id` into a used element. For the descriptor
`virtio_from_queue` takes `id % num`, for the pointer that belongs to it `id`
itself. The two agree for `id < num` only; a larger `id` that is a head in
flight modulo `num` releases the chain, and reads and clears a word behind the
array of pointers.
-/

namespace Yaos.Virtio

open Yaos.Lib Function

/-- The `id` of the next used element. -/
def Queue.nextId (q : Queue) : Nat := (q.usedRing q.lastUsed).id

/-- The descriptors that the loop of `virtio_from_queue` reads. -/
def walkIndices (desc : Nat → Desc) : Nat → Nat → List Nat
  | 0, _ => []
  | fuel + 1, i =>
      i :: if (desc i).flags.next then walkIndices desc fuel (desc i).next else []

/-- The indices into `desc` of a call that takes the next used element. -/
def Queue.descIndices (q : Queue) : List Nat :=
  q.freeTail :: walkIndices (q.tailTo (q.nextId % q.num)).desc q.num (q.nextId % q.num)

/-- Its indices into `data`. -/
def Queue.dataIndices (q : Queue) : List Nat := [q.nextId % q.num, q.nextId]

/-- A call that returned `x` released the chain of one request in flight,
which is in flight no more, and returned and cleared the pointer of the same
request; and it read and wrote inside the arrays. -/
structure Answers (q q' : Queue) (F : List Nat) (C : List (List Nat)) (x : Nat × Nat) : Prop where
  request : ∃ h r, h :: r ∈ C ∧ x.1 = q.data h ∧ q'.data = update q.data h 0 ∧
    Ring q' (F ++ h :: r) (C.erase (h :: r))
  inside : ∀ j ∈ q.descIndices ++ q.dataIndices, j < q.num

/-- There is no element to take, or its `id` is a descriptor, or the call is
stopped by one of its assertions: nothing is in flight there, or no descriptor
is free. -/
def Queue.Tame (q : Queue) : Prop :=
  ¬ q.Visible ∨ q.nextId < q.num ∨ q.data (q.nextId % q.num) = 0 ∨ q.freeNum = 0

variable {dev dev' : Device} {F : Nat → List Nat} {C : Nat → List (List Nat)} {k : Nat}

theorem walkIndices_subset {desc : Nat → Desc} {n i : Nat} {c : List Nat}
    (h : Chain (cont desc) (some i) c) : walkIndices desc n i ⊆ c := by
  induction n generalizing i c with
  | zero => simp [walkIndices]
  | succ n ih =>
    obtain ⟨r, rfl, hr⟩ := Chain.eq_cons h
    rw [walkIndices]
    intro j hj
    rcases List.mem_cons.mp hj with rfl | hj
    · exact List.mem_cons_self
    · split at hj
      case isTrue hnext =>
        have hc : cont desc i = some (desc i).next := by simp [cont, hnext]
        rw [hc] at hr
        exact List.mem_cons_of_mem i (ih hr hj)
      case isFalse => cases hj

/-- The call on an element whose head is in flight, with a free descriptor. -/
theorem Orderly.take {u i : Nat} (h : Orderly dev F C) (hk : k < dev.numQueues)
    (hv : (dev.queues k).Visible) (hid : (dev.queues k).nextId = u)
    (hi : u % (dev.queues k).num = i) (hdata : (dev.queues k).data i ≠ 0)
    (hfree : (dev.queues k).freeNum ≠ 0) :
    ∃ r ts D z, Released dev F C k i r ts D z ∧ i :: r ∈ C k ∧
      virtioFromQueue dev k = .ok (some ((dev.queues k).data u,
        ((dev.queues k).usedRing (dev.queues k).lastUsed).len), { dev with
        indirect := ts
        queues := update dev.queues k
          ((dev.queues k).reclaimed D u z (i :: r).length) }) := by
  obtain ⟨r, ts, D, z, hr, hrel⟩ := h.release hk hdata (Nat.pos_of_ne_zero hfree)
  exact ⟨r, ts, D, z, hrel, hr, virtioFromQueue_eq hk hv hid hi hdata hrel.tail hrel.walk hrel.last
    hrel.count⟩

theorem Orderly.taken (h : Orderly dev F C) (hk : k < dev.numQueues) {x : Nat × Nat}
    (hrun : virtioFromQueue dev k = .ok (some x, dev')) :
    (dev.queues k).Visible ∧
      (dev.queues k).data ((dev.queues k).nextId % (dev.queues k).num) ≠ 0 ∧
      (dev.queues k).freeNum ≠ 0 := by
  have hv : (dev.queues k).Visible := by
    by_contra hv
    rw [virtioFromQueue_none hk hv] at hrun
    cases hrun
  have hv' : ¬ (dev.queues k).lastUsed = (dev.queues k).usedIdx % (dev.queues k).num := hv
  obtain ⟨_, -, hrun⟩ := bind_eq_ok.mp hrun
  dsimp only at hrun
  rw [if_neg hv'] at hrun
  obtain ⟨_, hdata, hrun⟩ := bind_eq_ok.mp hrun
  obtain ⟨_, htail, -⟩ := bind_eq_ok.mp hrun
  rw [check_eq_ok, decide_eq_true_eq] at hdata
  refine ⟨hv, hdata, fun hzero => ?_⟩
  have hoff := (h.rings k hk).full hzero
  rw [check_eq_ok] at htail
  rw [hoff] at htail
  cases htail

/-- **Used elements**: a call that returns a request answers one that is in
flight, inside the arrays, exactly if the `id` is below `num`, or the call
does not get so far. -/
theorem answers_iff (h : Orderly dev F C) (hk : k < dev.numQueues) :
    (∀ x dev', virtioFromQueue dev k = .ok (some x, dev') →
      Answers (dev.queues k) (dev'.queues k) (F k) (C k) x) ↔ (dev.queues k).Tame := by
  have hring := h.rings k hk
  constructor
  · intro hall
    by_contra htame
    simp only [Queue.Tame, not_or, not_not] at htame
    obtain ⟨hv, hid, hdata, hfree⟩ := htame
    obtain ⟨r, ts, D, z, -, -, hrun⟩ := h.take hk hv rfl rfl hdata hfree
    exact hid ((hall _ _ hrun).inside _ (by simp [Queue.dataIndices]))
  · intro htame x dev' hrun
    obtain ⟨hv, hdata, hfree⟩ := h.taken hk hrun
    have hid : (dev.queues k).nextId < (dev.queues k).num := by
      rcases htame with hno | hid | hno | hno
      · exact absurd hv hno
      · exact hid
      · exact absurd hno hdata
      · exact absurd hno hfree
    have hmod := Nat.mod_eq_of_lt hid
    rw [hmod] at hdata
    obtain ⟨r, ts, D, z, hrel, hr, hrun'⟩ := h.take hk hv rfl hmod hdata hfree
    rw [hrun'] at hrun
    cases hrun
    refine ⟨⟨_, r, hr, rfl, ?_, ?_⟩, fun j hj => ?_⟩
    · dsimp only
      rw [update_self]
      rfl
    · dsimp only
      rw [update_self]
      exact hrel.ring
    · -- the tail of the free list, the chain, and the `id`
      rw [Queue.descIndices, Queue.dataIndices, hmod] at hj
      rcases List.mem_append.mp hj with hj | hj
      · rcases List.mem_cons.mp hj with rfl | hj
        · have hF : F k ≠ [] := by
            intro hnil
            exact hfree (by rw [← hring.count, hnil, List.length_nil])
          exact hring.mem_lt (List.mem_append_left _ (hring.tail_mem hF))
        · exact hring.mem_lt (List.mem_append_right _
            (List.mem_flatten.mpr ⟨_, hr, walkIndices_subset hrel.chain hj⟩))
      · simp only [List.mem_cons, List.not_mem_nil, or_false, or_self] at hj
        rwa [hj]

/-- The device writes a used element into queue 0. -/
def Device.publish (dev : Device) (id len : Nat) : Device :=
  { dev with queues := update dev.queues 0 ((dev.queues 0).complete id len) }

/-- A queue of two descriptors with a request of one buffer. -/
def oneRequest : Device :=
  (virtioToQueue smallDevice.dev 0 [⟨0x5000, 64⟩] 7).toOption.getD smallDevice.dev

theorem oneRequest_orderly :
    virtioToQueue smallDevice.dev 0 [⟨0x5000, 64⟩] 7 = .ok oneRequest ∧
      ∃ F C, Orderly (oneRequest.publish 0 64) F C := by
  obtain ⟨F₀, C₀, hboot⟩ := smallDevice_boot.good
  have hsubmit : Step smallDevice (.submit 0 [⟨0x5000, 64⟩] 7) ⟨oneRequest, fun _ => []⟩ :=
    ⟨⟨by decide, by simp, by decide⟩, rfl, rfl⟩
  obtain ⟨F, C, hone⟩ := hboot.step hsubmit ⟨by decide, .inl (by decide)⟩
  have hpublish : Step ⟨oneRequest, fun _ => []⟩ (.complete 0 0 64)
      ⟨oneRequest.publish 0 64, update (fun _ => []) 0 [0]⟩ :=
    ⟨⟨by decide, by decide, by simp⟩, rfl, rfl⟩
  obtain ⟨F, C, hgood⟩ := hone.step hpublish trivial
  exact ⟨rfl, F, C, hgood.orderly⟩

/-- The request at descriptor 0 of two is returned as `id` 0. -/
theorem answers_published :
    ∃ F C, ∀ x dev', virtioFromQueue (oneRequest.publish 0 64) 0 = .ok (some x, dev') →
      Answers ((oneRequest.publish 0 64).queues 0) (dev'.queues 0) F C x := by
  obtain ⟨-, F, C, h⟩ := oneRequest_orderly
  exact ⟨F 0, C 0, (answers_iff h (by decide)).mpr (.inr (.inl (by decide)))⟩

/-- Returned as `id` 2, its descriptor is free again, the caller gets what
stands behind the array, and the pointer 7 stays in it. -/
theorem foreign_id_loses_pointer :
    ∃ dev', virtioFromQueue (oneRequest.publish 2 64) 0 =
        .ok (some ((oneRequest.queues 0).data 2, 64), dev') ∧
      (oneRequest.queues 0).num = 2 ∧ (oneRequest.queues 0).data 0 = 7 ∧
      (dev'.queues 0).freeNum = 2 ∧ (dev'.queues 0).data 0 = 7 :=
  ⟨_, rfl, rfl, rfl, rfl, rfl⟩

end Yaos.Virtio
