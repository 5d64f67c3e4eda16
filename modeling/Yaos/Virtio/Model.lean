import Mathlib.Algebra.Group.Nat.Defs
import Mathlib.Logic.Function.Basic
import Yaos.Lib.Outcome

/-!
# Virtio queues (`libs/libvirtio/virtio.c`)

The split ring as the driver keeps it: the unused descriptors are linked
through the `next` fields of the ring itself, are taken at `free_head` and
come back at `free_tail`. A request takes a chain of descriptors, or one
descriptor that points at an indirect table.

Left out: memory barriers, the notification (`kick_queue`), and the ABI
of the ring in memory. An array of descriptors is a function; that no
index leaves the ring is part of what is proved. A walk along `next`
longer than the ring has met a descriptor twice and never ends.
-/

namespace Yaos.Virtio

open Yaos.Lib Function

/-- The bits of `flags` in use: `VRING_DESC_F_NEXT`, `_WRITE`, `_INDIRECT`. -/
structure Flags where
  next : Bool
  write : Bool
  indirect : Bool
  deriving DecidableEq

/-- `flags = VRING_DESC_F_NEXT`. -/
def Flags.onlyNext : Flags := ⟨true, false, false⟩

/-- `flags = VRING_DESC_F_INDIRECT`. -/
def Flags.onlyIndirect : Flags := ⟨false, false, true⟩

/-- `struct vring_desc`. -/
structure Desc where
  addr : Nat
  len : Nat
  flags : Flags
  next : Nat

/-- `struct indirect_desc_table`. -/
structure Table where
  inUse : Bool
  descs : List Desc
  paddr : Nat

/-- `struct addr_size`: the low bit of the address asks for `WRITE`. -/
structure AddrSize where
  vpAddr : Nat
  vpSize : Nat

/-- `struct vring_used_elem`. -/
structure UsedElem where
  id : Nat
  len : Nat

/-- `struct virtio_queue` with its rings; `data` holds pointers, `0` is
`NULL`. -/
structure Queue where
  num : Nat
  desc : Nat → Desc
  availRing : Nat → Nat
  availIdx : Nat
  usedRing : Nat → UsedElem
  usedIdx : Nat
  freeNum : Nat
  freeHead : Nat
  freeTail : Nat
  lastUsed : Nat
  data : Nat → Nat

/-- The queues of a device and the indirect tables they share. -/
structure Device where
  queues : Nat → Queue
  numQueues : Nat
  threads : Int
  indirect : List Table

/-- `u16` arithmetic. -/
def u16 (n : Nat) : Nat := n % 2 ^ 16

def Queue.upd (q : Queue) (i : Nat) (f : Desc → Desc) : Queue :=
  { q with desc := update q.desc i (f (q.desc i)) }

/-- `init_phys_queue`. -/
def initPhysQueue (num : Nat) : Queue where
  num := num
  desc i := ⟨0, 0, .onlyNext, (i + 1) &&& (num - 1)⟩
  availRing _ := 0
  availIdx := 0
  usedRing _ := ⟨0, 0⟩
  usedIdx := 0
  freeNum := num
  freeHead := 0
  freeTail := num - 1
  lastUsed := 0
  data _ := 0

/-- `use_vring_desc`. -/
def useVringDesc (d : Desc) (b : AddrSize) : Desc :=
  { d with
    addr := b.vpAddr / 2 * 2
    len := b.vpSize % 2 ^ 32
    flags := ⟨true, b.vpAddr % 2 = 1, false⟩ }

/-- `flags &= ~VRING_DESC_F_NEXT`. -/
def Desc.last (d : Desc) : Desc := { d with flags := { d.flags with next := false } }

/-! ## Submitting -/

/-- The loop of `set_direct_descriptors` and the flag of its last
descriptor: the ring, and where the walk along `next` ends. -/
def useDirect : Queue → Nat → List AddrSize → Outcome (Queue × Nat)
  | _, _, [] => .error .assert
  | q, i, [b] => do
      check (q.desc i).flags.next
      .ok (q.upd i fun d => (useVringDesc d b).last, (q.desc i).next)
  | q, i, b :: bs => do
      check (q.desc i).flags.next
      useDirect (q.upd i fun d => useVringDesc d b) (q.desc i).next bs

/-- `set_direct_descriptors`. -/
def setDirectDescriptors (q : Queue) (bufs : List AddrSize) : Outcome Queue := do
  let (q, i) ← useDirect q q.freeHead bufs
  .ok { q with freeNum := u16 (q.freeNum + (2 ^ 16 - u16 bufs.length)), freeHead := i }

/-- The descriptors of an indirect table, filled from left to right; a
table is one 4K page. -/
def fillTable : List Desc → Nat → List AddrSize → Outcome (List Desc)
  | _, _, [] => .error .assert
  | [], _, _ :: _ => .error .fault
  | d :: ds, i, [b] => .ok ({ (useVringDesc d b).last with next := u16 (i + 1) } :: ds)
  | d :: ds, i, b :: bs => do
      let ds ← fillTable ds (i + 1) bs
      .ok ({ useVringDesc d b with next := u16 (i + 1) } :: ds)

def takeTable (bufs : List AddrSize) : List Table → Outcome (Nat × List Table)
  | [] => .error .panic
  | t :: ts =>
      if t.inUse then do
        let (a, ts) ← takeTable bufs ts
        .ok (a, t :: ts)
      else do
        let descs ← fillTable t.descs 0 bufs
        .ok (t.paddr, { t with inUse := true, descs := descs } :: ts)

/-- A descriptor that points at an indirect table of `num` entries. -/
def Desc.toTable (d : Desc) (paddr num : Nat) : Desc :=
  { d with flags := .onlyIndirect, addr := paddr, len := num * 16 % 2 ^ 32 }

/-- The one descriptor that `set_indirect_descriptors` takes from the ring. -/
def Queue.useIndirect (q : Queue) (paddr num : Nat) : Queue :=
  { q.upd q.freeHead fun d => d.toTable paddr num with
    freeNum := u16 (q.freeNum + (2 ^ 16 - 1))
    freeHead := (q.desc q.freeHead).next }

/-- `set_indirect_descriptors`. -/
def setIndirectDescriptors (ts : List Table) (q : Queue) (bufs : List AddrSize) :
    Outcome (List Table × Queue) := do
  check (!ts.isEmpty)
  let (paddr, ts) ← takeTable bufs ts
  .ok (ts, q.useIndirect paddr bufs.length)

/-- The rest of `virtio_to_queue`: the head is offered to the device and
the caller's pointer kept for it. -/
def Queue.offer (q : Queue) (first data : Nat) : Queue :=
  { q with
    availRing := update q.availRing (q.availIdx % q.num) first
    data := update q.data first data
    availIdx := u16 (q.availIdx + 1) }

/-- `virtio_to_queue`. -/
def virtioToQueue (dev : Device) (qidx : Nat) (bufs : List AddrSize) (data : Nat) :
    Outcome Device := do
  check (qidx ≤ dev.numQueues)
  if data = 0 then .error .panic
  else do
    let q := dev.queues qidx
    let left : Int := (q.freeNum : Int) - Int.bmod bufs.length (2 ^ 32)
    let (ts, q') ← if left < dev.threads then setIndirectDescriptors dev.indirect q bufs
      else do
        let q' ← setDirectDescriptors q bufs
        .ok (dev.indirect, q')
    .ok { dev with
      indirect := ts
      queues := update dev.queues qidx (q'.offer q.freeHead data) }

/-! ## Completing -/

/-- The table with the given address is marked unused. -/
def clearTable (paddr : Nat) : List Table → Outcome (List Table)
  | [] => .error .panic
  | t :: ts =>
      if t.paddr = paddr then do
        check t.inUse
        .ok ({ t with inUse := false } :: ts)
      else do
        let ts ← clearTable paddr ts
        .ok (t :: ts)

/-- `clear_indirect_table`. -/
def clearIndirectTable (ts : List Table) (q : Queue) (i : Nat) :
    Outcome (List Table × Queue) := do
  check (0 < (q.desc i).len)
  check (q.desc i).flags.indirect
  let ts ← clearTable (q.desc i).addr ts
  .ok (ts, q.upd i fun d => { d with flags := { d.flags with indirect := false }, len := 0 })

/-- `if (vd->flags & VRING_DESC_F_INDIRECT) clear_indirect_table(dev, vd);` -/
def clearIfIndirect (ts : List Table) (q : Queue) (i : Nat) : Outcome (List Table × Queue) :=
  if (q.desc i).flags.indirect then clearIndirectTable ts q i else .ok (ts, q)

/-- The walk to the last descriptor of a returned chain, and how many
there were. -/
def walk : Nat → List Table → Queue → Nat → Nat → Outcome (List Table × Queue × Nat × Nat)
  | 0, _, _, _, _ => .error .spin
  | fuel + 1, ts, q, idx, count => do
      let (ts, q') ← clearIfIndirect ts q idx
      if (q.desc idx).flags.next then walk fuel ts q' (q'.desc idx).next (count + 1)
      else .ok (ts, q', idx, count + 1)

/-- The chain that ends in `idx` becomes the tail of the free list. -/
def Queue.append (q : Queue) (idx count : Nat) : Queue :=
  { q.upd idx fun d => { d with next := q.freeHead, flags := .onlyNext } with
    freeTail := idx
    freeNum := u16 (q.freeNum + count) }

/-- `virtio_from_queue`: the pointer and the length of the next returned
request, `none` for `-1`. -/
def virtioFromQueue (dev : Device) (qidx : Nat) : Outcome (Option (Nat × Nat) × Device) := do
  check (qidx < dev.numQueues)
  let q := dev.queues qidx
  if q.lastUsed = q.usedIdx % q.num then .ok (none, dev)
  else do
    let uel := q.usedRing q.lastUsed
    let q := { q with lastUsed := (q.lastUsed + 1) % q.num }
    let idx := uel.id % q.num
    check (q.data idx ≠ 0)
    check (q.desc q.freeTail).flags.next
    let q := q.upd q.freeTail fun d => { d with next := idx }
    let (ts, q, idx, count) ← walk q.num dev.indirect q idx 0
    check (!(q.desc idx).flags.next)
    let q := q.append idx count
    check (q.freeNum ≤ q.num)
    .ok (some (q.data uel.id, uel.len), { dev with
      indirect := ts
      queues := update dev.queues qidx
        { q with data := update q.data uel.id 0 } })

/-- The device returns the request at `head`: the next used element. -/
def Queue.complete (q : Queue) (head len : Nat) : Queue :=
  { q with
    usedRing := update q.usedRing (q.usedIdx % q.num) ⟨head, len⟩
    usedIdx := u16 (q.usedIdx + 1) }

/-! ## Field lemmas -/

theorem Queue.upd_desc (q : Queue) (i j : Nat) (f : Desc → Desc) :
    (q.upd i f).desc j = if j = i then f (q.desc j) else q.desc j := by
  by_cases h : j = i
  · subst h
    simp [Queue.upd]
  · simp [Queue.upd, h]

@[simp] theorem Queue.upd_self (q : Queue) (i : Nat) (f : Desc → Desc) :
    (q.upd i f).desc i = f (q.desc i) := by
  simp [Queue.upd_desc]

theorem Queue.upd_ne (q : Queue) {i j : Nat} (h : j ≠ i) (f : Desc → Desc) :
    (q.upd i f).desc j = q.desc j := by
  rw [Queue.upd_desc, if_neg h]

end Yaos.Virtio
