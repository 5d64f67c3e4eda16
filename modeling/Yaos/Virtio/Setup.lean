import Mathlib.Data.Nat.Bitwise
import Yaos.Errno
import Yaos.Virtio.Model

/-!
# Setting up the queues of a device (`libs/libvirtio/virtio.c`)

`virtio_alloc_queues` asks the device for the size of each queue and takes a
ring and an array of pointers for it. The error path of `init_phys_queues`
calls `free_phys_queue` once for each queue before the failing one, but on the
failing one, whose `vaddr` is still null; and `virtio_alloc_queues` returns
whether there was an error, not which.

The answers of the device and of the allocators are arguments. A size of 0
passes the test for a power of two.
-/

namespace Yaos.Virtio.Setup

open Yaos.Lib Function

/-- `PAGE_SIZE_4K`. -/
def pageSize4k : Nat := 0x1000

/-- `struct virtio_queue`; `ring` is what `init_phys_queue` makes of the ring,
the free list and the pointers. -/
structure PhysQueue where
  vaddr : Nat
  paddr : Nat
  page : Nat
  num : Nat
  ringSize : Nat
  data : Nat
  ring : Option Queue

/-- A queue that `memset` has cleared. -/
def PhysQueue.cleared : PhysQueue := ⟨0, 0, 0, 0, 0, 0, none⟩

/-- The fields of the device record that are written here; a null pointer to
the queues is `none`. -/
structure Dev where
  numQueues : Nat
  queues : Option (Nat → PhysQueue)

/-- The answers from outside: of `yaos_malloc` for the array of queues, of the
device for the size of queue `i`, and of `yaos_heap_alloc_4k` for its ring and
for its pointers. -/
structure Supply where
  malloc : Nat
  sizes : Nat → UInt16
  rings : Nat → Nat
  cookies : Nat → Nat

/-- `vring_size`. -/
def vringSize (num align : Nat) : Nat :=
  (16 * num + 2 * (3 + num) + align - 1) / align * align + 2 * 3 + 8 * num

/-- `alloc_phys_queue` on queue `i`. -/
def allocPhysQueue (e : Supply) (i : Nat) (q : PhysQueue) : Outcome (Int × PhysQueue) :=
  let q := { q with ringSize := vringSize q.num pageSize4k, vaddr := e.rings i }
  if q.vaddr = 0 then .ok (enomem, q)
  else do
    let q := { q with paddr := q.vaddr, data := e.cookies i }
    check (8 * q.num < pageSize4k)
    if q.data = 0 then .error .panic else .ok (0, q)

/-- `init_phys_queue` on the record. -/
def PhysQueue.init (q : PhysQueue) : PhysQueue :=
  { q with
    page := q.paddr / pageSize4k % 2 ^ 32
    ring := some { initPhysQueue q.num with freeTail := u16 (q.num + (2 ^ 16 - 1)) } }

/-- `free_phys_queue`. -/
def freePhysQueue (q : PhysQueue) : Outcome PhysQueue := do
  check (q.vaddr ≠ 0)
  .ok { q with vaddr := 0, paddr := 0, num := 0, data := 0 }

/-- The error path, with `n` calls left: which queues are released. -/
def freePhysQueues (i : Nat) : Nat → (Nat → PhysQueue) → Outcome (List Nat)
  | 0, _ => .ok []
  | n + 1, qs => do
      let q ← freePhysQueue (qs i)
      let freed ← freePhysQueues i n (update qs i q)
      .ok (i :: freed)

/-- `init_phys_queues` from queue `i` on, with `n` queues left: the result,
the queues, and which of them the error path released. -/
def initPhysQueues (e : Supply) :
    Nat → Nat → (Nat → PhysQueue) → Outcome (Int × (Nat → PhysQueue) × List Nat)
  | 0, _, qs => .ok (0, qs, [])
  | n + 1, i, qs =>
      let q := { qs i with num := (e.sizes i).toNat }
      if q.num &&& (q.num - 1) ≠ 0 then do
        let freed ← freePhysQueues i i (update qs i q)
        .ok (einval, qs, freed)
      else do
        let (r, q) ← allocPhysQueue e i q
        if r ≠ 0 then do
          let freed ← freePhysQueues i i (update qs i q)
          .ok (r, qs, freed)
        else initPhysQueues e n (i + 1) (update qs i q.init)

/-- `virtio_alloc_queues`: the result, the device, and which queues were
released. -/
def virtioAllocQueues (e : Supply) (dev : Dev) (numQueues : Int) : Outcome (Int × Dev × List Nat) :=
  if numQueues < 0 ∨ 256 < numQueues then .ok (einval, dev, [])
  else
    let n := numQueues.toNat
    if e.malloc = 0 then .ok (enomem, ⟨n, none⟩, [])
    else do
      let (r, qs, freed) ← initPhysQueues e n 0 fun _ => .cleared
      -- `r = init_phys_queues(dev) != OK`
      if r ≠ 0 then .ok (1, ⟨n, none⟩, freed)
      else .ok (0, ⟨n, some qs⟩, freed)

/-! ## What the call is for -/

/-- The size that the device reports for queue `i` is a positive power of
two. -/
def Supply.Sized (e : Supply) (i : Nat) : Prop := ∃ k, (e.sizes i).toNat = 2 ^ k

/-- Both allocations for queue `i` succeed. -/
def Supply.Backed (e : Supply) (i : Nat) : Prop := e.rings i ≠ 0 ∧ e.cookies i ≠ 0

/-- The step that fails: how many queues were set up before it, and its
code. -/
inductive Fails (e : Supply) (numQueues : Int) : Nat → Int → Prop where
  | range : numQueues < 0 ∨ 256 < numQueues → Fails e numQueues 0 einval
  | malloc : ¬ (numQueues < 0 ∨ 256 < numQueues) → e.malloc = 0 → Fails e numQueues 0 enomem
  | size {i : Nat} : (i : Int) < numQueues → (∀ j < i, e.Sized j ∧ e.Backed j) → ¬ e.Sized i →
      Fails e numQueues i einval
  | memory {i : Nat} : (i : Int) < numQueues → (∀ j < i, e.Sized j ∧ e.Backed j) → e.Sized i →
      ¬ e.Backed i → Fails e numQueues i enomem

/-- Queue `i` has the size that was reported, a ring, all of whose descriptors
are free, and an array for the pointers. -/
structure SetUp (e : Supply) (i : Nat) (q : PhysQueue) : Prop where
  num : q.num = (e.sizes i).toNat
  sized : e.Sized i
  vaddr : q.vaddr = e.rings i
  data : q.data = e.cookies i
  backed : e.Backed i
  page : q.page = q.paddr / pageSize4k % 2 ^ 32 ∧ q.paddr = q.vaddr
  ring : q.ring = some (initPhysQueue q.num)

/-- The call returns; if the result is `OK` every queue is set up, otherwise
it is the code of the step that failed, each queue before that one has been
released once, and the pointer to the queues is null. -/
def Sound (e : Supply) (dev : Dev) (numQueues : Int) : Prop :=
  ∃ r dev' freed, virtioAllocQueues e dev numQueues = .ok (r, dev', freed) ∧
    (r = 0 ∧ (∃ qs, dev'.queues = some qs ∧ ∀ i : Nat, (i : Int) < numQueues → SetUp e i (qs i)) ∨
      r ≠ 0 ∧ (∃ i, Fails e numQueues i r ∧ freed.Perm (List.range i)) ∧ dev'.queues = none)

/-- The number is out of range and the pointer was null before, or there is no
memory for the array, or no step fails and no size is above 256. -/
def Smooth (e : Supply) (dev : Dev) (numQueues : Int) : Prop :=
  ((numQueues < 0 ∨ 256 < numQueues) ∧ dev.queues = none) ∨
  (¬ (numQueues < 0 ∨ 256 < numQueues) ∧ (e.malloc = 0 ∨
    ∀ i : Nat, (i : Int) < numQueues → e.Sized i ∧ e.Backed i ∧ (e.sizes i).toNat < 512))

variable {e : Supply} {dev : Dev} {numQueues : Int}

/-! ## Lemmas -/

/-- `x & (x - 1)` tests for a power of two. -/
theorem and_pred_eq_zero {x : Nat} (hx : 0 < x) : x &&& (x - 1) = 0 ↔ ∃ k, x = 2 ^ k := by
  induction x using Nat.strongRecOn with
  | ind x ih =>
    have hdiv : (x &&& (x - 1)) / 2 = x / 2 &&& (x - 1) / 2 := Nat.and_div_two
    -- one of the two is even
    have hmod : (x &&& (x - 1)) % 2 = 0 := by
      have hbits := Nat.and_mod_two_pow (a := x) (b := x - 1) (n := 1)
      rcases Nat.mod_two_eq_zero_or_one x with h | h
      · simpa [h] using hbits
      · have h' : (x - 1) % 2 = 0 := by omega
        simpa [h, h'] using hbits
    have hhalf : x &&& (x - 1) = 0 ↔ x / 2 &&& (x - 1) / 2 = 0 := by omega
    rw [hhalf]
    rcases Nat.mod_two_eq_zero_or_one x with h | h
    · have hpred : (x - 1) / 2 = x / 2 - 1 := by omega
      rw [hpred, ih (x / 2) (by omega) (by omega)]
      constructor
      · rintro ⟨k, hk⟩
        exact ⟨k + 1, by rw [Nat.pow_succ, ← hk]; omega⟩
      · rintro ⟨k, hk⟩
        cases k with
        | zero => omega
        | succ k => exact ⟨k, by rw [hk, Nat.pow_succ]; omega⟩
    · have hpred : (x - 1) / 2 = x / 2 := by omega
      rw [hpred, Nat.and_self]
      constructor
      · intro h0
        exact ⟨0, by omega⟩
      · rintro ⟨k, hk⟩
        cases k with
        | zero => omega
        | succ k =>
          rw [hk, Nat.pow_succ] at h
          omega

theorem Supply.Sized.pos {i : Nat} (h : e.Sized i) : 0 < (e.sizes i).toNat := by
  obtain ⟨k, hk⟩ := h
  rw [hk]
  exact Nat.two_pow_pos k

theorem Supply.Sized.test {i : Nat} (h : e.Sized i) :
    (e.sizes i).toNat &&& ((e.sizes i).toNat - 1) = 0 :=
  (and_pred_eq_zero h.pos).mpr h

/-- Queue `i` when it has been set up. -/
def made (e : Supply) (i : Nat) : PhysQueue :=
  ({ vaddr := e.rings i, paddr := e.rings i, page := 0, num := (e.sizes i).toNat
     ringSize := vringSize (e.sizes i).toNat pageSize4k, data := e.cookies i, ring := none } :
    PhysQueue).init

theorem made_setUp {i : Nat} (hs : e.Sized i) (hb : e.Backed i) : SetUp e i (made e i) where
  num := rfl
  sized := hs
  vaddr := rfl
  data := rfl
  backed := hb
  page := ⟨rfl, rfl⟩
  ring := by
    have hlt := (e.sizes i).toNat_lt
    have hpos := hs.pos
    have htail : u16 ((e.sizes i).toNat + (2 ^ 16 - 1)) = (e.sizes i).toNat - 1 := by
      rw [u16]
      omega
    show some { initPhysQueue (e.sizes i).toNat with
      freeTail := u16 ((e.sizes i).toNat + (2 ^ 16 - 1)) } = some (initPhysQueue (e.sizes i).toNat)
    rw [htail]
    rfl

theorem initPhysQueues_succ {n i : Nat} {qs : Nat → PhysQueue} (hq : qs i = .cleared)
    (htest : (e.sizes i).toNat &&& ((e.sizes i).toNat - 1) = 0) (hb : e.Backed i)
    (hsmall : (e.sizes i).toNat < 512) :
    initPhysQueues e (n + 1) i qs = initPhysQueues e n (i + 1) (update qs i (made e i)) := by
  have hcheck : check (8 * (e.sizes i).toNat < pageSize4k) = .ok () :=
    check_eq_ok.mpr (decide_eq_true (by rw [pageSize4k]; omega))
  rw [initPhysQueues]
  dsimp only
  rw [if_neg (not_not.mpr htest), allocPhysQueue]
  dsimp only
  rw [if_neg hb.1, hcheck, ok_bind, if_neg hb.2, ok_bind]
  dsimp only
  rw [if_neg (not_not.mpr rfl), hq]
  rfl

theorem initPhysQueues_cases {n i : Nat} {qs qs' : Nat → PhysQueue} {freed : List Nat}
    (h : initPhysQueues e (n + 1) i qs = .ok (0, qs', freed)) :
    (e.sizes i).toNat &&& ((e.sizes i).toNat - 1) = 0 ∧ e.Backed i ∧ (e.sizes i).toNat < 512 := by
  rw [initPhysQueues] at h
  dsimp only at h
  split at h
  · obtain ⟨_, -, h⟩ := bind_eq_ok.mp h
    cases h
  case isFalse htest =>
    obtain ⟨⟨r, q⟩, halloc, h⟩ := bind_eq_ok.mp h
    refine ⟨not_not.mp htest, ?_⟩
    rw [allocPhysQueue] at halloc
    dsimp only at halloc
    split at halloc
    · -- no ring: the error path is taken
      cases halloc
      dsimp only at h
      rw [if_pos (by decide)] at h
      obtain ⟨_, -, h⟩ := bind_eq_ok.mp h
      cases h
    case isFalse hring =>
      obtain ⟨_, hcheck, halloc⟩ := bind_eq_ok.mp halloc
      split at halloc
      · cases halloc
      case isFalse hdata =>
        rw [check_eq_ok, decide_eq_true_eq, pageSize4k] at hcheck
        exact ⟨⟨hring, hdata⟩, by omega⟩

/-- The loop succeeds exactly on sizes that pass the test, with memory for
all of them; the queues are then as `made`. -/
theorem initPhysQueues_ok {n i : Nat} {qs qs' : Nat → PhysQueue} {freed : List Nat}
    (hqs : ∀ j, i ≤ j → qs j = .cleared) (h : initPhysQueues e n i qs = .ok (0, qs', freed)) :
    (∀ j < i, qs' j = qs j) ∧ ∀ j, i ≤ j → j < i + n →
      qs' j = made e j ∧ e.Backed j ∧ (e.sizes j).toNat < 512 := by
  induction n generalizing i qs with
  | zero =>
    cases h
    exact ⟨fun _ _ => rfl, fun j h₁ h₂ => absurd h₂ (by omega)⟩
  | succ n ih =>
    obtain ⟨htest, hb, hsmall⟩ := initPhysQueues_cases h
    rw [initPhysQueues_succ (hqs i le_rfl) htest hb hsmall] at h
    obtain ⟨hbefore, hall⟩ := ih (fun j hj => by
      rw [update_of_ne (by omega)]
      exact hqs j (by omega)) h
    refine ⟨fun j hj => ?_, fun j h₁ h₂ => ?_⟩
    · rw [hbefore j (by omega), update_of_ne (by omega)]
    · rcases Nat.eq_or_lt_of_le h₁ with rfl | hlt
      · rw [hbefore i (by omega), update_self]
        exact ⟨rfl, hb, hsmall⟩
      · exact hall j hlt (by omega)

theorem initPhysQueues_of_good {n i : Nat} {qs : Nat → PhysQueue}
    (hqs : ∀ j, i ≤ j → qs j = .cleared)
    (hgood : ∀ j, i ≤ j → j < i + n → e.Sized j ∧ e.Backed j ∧ (e.sizes j).toNat < 512) :
    ∃ qs', initPhysQueues e n i qs = .ok (0, qs', []) := by
  induction n generalizing i qs with
  | zero => exact ⟨qs, rfl⟩
  | succ n ih =>
    obtain ⟨hs, hb, hsmall⟩ := hgood i le_rfl (by omega)
    rw [initPhysQueues_succ (hqs i le_rfl) hs.test hb hsmall]
    refine ih (fun j hj => ?_) fun j h₁ h₂ => hgood j (by omega) (by omega)
    rw [update_of_ne (by omega)]
    exact hqs j (by omega)

/-! ## The calls that end well -/

theorem Fails.code {i : Nat} {r : Int} (h : Fails e numQueues i r) : r = einval ∨ r = enomem := by
  cases h with
  | range _ => exact .inl rfl
  | malloc _ _ => exact .inr rfl
  | size _ _ _ => exact .inl rfl
  | memory _ _ _ _ => exact .inr rfl

theorem virtioAllocQueues_inRange (hin : ¬ (numQueues < 0 ∨ 256 < numQueues))
    (hm : e.malloc ≠ 0) :
    virtioAllocQueues e dev numQueues = (do
      let (r, qs, freed) ← initPhysQueues e numQueues.toNat 0 fun _ => .cleared
      if r ≠ 0 then .ok (1, ⟨numQueues.toNat, none⟩, freed)
      else .ok (0, ⟨numQueues.toNat, some qs⟩, freed)) := by
  rw [virtioAllocQueues, if_neg hin]
  dsimp only
  rw [if_neg hm]

theorem smooth_of_sound (h : Sound e dev numQueues) : Smooth e dev numQueues := by
  obtain ⟨r, dev', freed, hrun, hres⟩ := h
  by_cases hout : numQueues < 0 ∨ 256 < numQueues
  · -- nothing is written
    rw [virtioAllocQueues, if_pos hout] at hrun
    cases hrun
    rcases hres with ⟨h0, -⟩ | ⟨-, -, hnull⟩
    · exact absurd h0 (by decide)
    · exact .inl ⟨hout, hnull⟩
  · refine .inr ⟨hout, ?_⟩
    by_cases hm : e.malloc = 0
    · exact .inl hm
    refine .inr fun i hi => ?_
    rw [virtioAllocQueues_inRange hout hm] at hrun
    obtain ⟨⟨r₀, qs, freed₀⟩, hloop, hrun⟩ := bind_eq_ok.mp hrun
    dsimp only at hrun
    split at hrun
    · -- an error is returned as 1, which is no error code
      cases hrun
      rcases hres with ⟨h1, -⟩ | ⟨-, ⟨j, hfail, -⟩, -⟩
      · exact absurd h1 (by decide)
      · rcases hfail.code with h1 | h1
        · exact absurd h1 (by decide)
        · exact absurd h1 (by decide)
    case isFalse hr =>
      obtain rfl : r₀ = 0 := not_not.mp hr
      cases hrun
      rcases hres with ⟨-, qs', hqs, hup⟩ | ⟨hne, -⟩
      · obtain ⟨-, hall⟩ := initPhysQueues_ok (fun _ _ => rfl) hloop
        obtain ⟨-, hb, hsmall⟩ := hall i (Nat.zero_le i) (by omega)
        exact ⟨(hup i hi).sized, hb, hsmall⟩
      · exact absurd rfl hne

theorem sound_of_smooth (h : Smooth e dev numQueues) : Sound e dev numQueues := by
  rcases h with ⟨hout, hnull⟩ | ⟨hin, h⟩
  · refine ⟨einval, dev, [], ?_, .inr ⟨by decide, ⟨0, .range hout, .refl _⟩, hnull⟩⟩
    rw [virtioAllocQueues, if_pos hout]
  · by_cases hm : e.malloc = 0
    · refine ⟨enomem, ⟨numQueues.toNat, none⟩, [], ?_,
        .inr ⟨by decide, ⟨0, .malloc hin hm, .refl _⟩, rfl⟩⟩
      rw [virtioAllocQueues, if_neg hin]
      dsimp only
      rw [if_pos hm]
    have hgood := h.resolve_left hm
    obtain ⟨qs, hloop⟩ := initPhysQueues_of_good (n := numQueues.toNat) (i := 0)
      (fun _ _ => rfl) fun j _ hj => hgood j (by omega)
    refine ⟨0, ⟨numQueues.toNat, some qs⟩, [], ?_, .inl ⟨rfl, qs, rfl, fun i hi => ?_⟩⟩
    · rw [virtioAllocQueues_inRange hin hm, hloop, ok_bind]
      rfl
    · obtain ⟨-, hall⟩ := initPhysQueues_ok (fun _ _ => rfl) hloop
      obtain ⟨heq, hb, -⟩ := hall i (Nat.zero_le i) (by omega)
      rw [heq]
      exact made_setUp (hgood i hi).1 hb

/-- **Setting up** ends as it should exactly if the number of queues is out of
range (and the pointer to them was null), or there is no memory for the array,
or nothing at all fails and no queue has more than 256 descriptors. -/
theorem sound_iff (e : Supply) (dev : Dev) (numQueues : Int) :
    Sound e dev numQueues ↔ Smooth e dev numQueues :=
  ⟨smooth_of_sound, sound_of_smooth⟩

/-- A device with a queue of 256 and one of 3 descriptors: the error path
fails its assertion. With the 3 in the first queue, the result is 1. -/
theorem bad_size_asserts :
    virtioAllocQueues ⟨0x1000, fun i => if i = 0 then 256 else 3, fun i => 0x10000 * (i + 1),
      fun i => 0x8000 + 0x1000 * i⟩ ⟨0, none⟩ 2 = .error .assert ∧
    virtioAllocQueues ⟨0x1000, fun _ => 3, fun i => 0x10000 * (i + 1),
      fun i => 0x8000 + 0x1000 * i⟩ ⟨0, none⟩ 2 = .ok (1, ⟨2, none⟩, []) :=
  ⟨rfl, rfl⟩

end Yaos.Virtio.Setup
