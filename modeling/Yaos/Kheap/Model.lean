import Mathlib.Algebra.Group.Nat.Defs
import Yaos.Holes.Model
import Yaos.Phymem.Model

/-!
# The early kernel heap (`kernel/kheap.c`)

Two hole lists: ranges of whole 4K pages, sorted by address and refilled
from the physical page bitmap, and small ranges, refilled a 4K page at a
time from the first list. Allocations only; a range comes back through
`free_kheap_4k`.

`return (void *)0` is `none`; a block is `some` address, also if a hole at
address 0 was given to the heap and the caller cannot tell the two apart.
`fuel` bounds the search of `alloc_phy_page` and the number of refills.
-/

namespace Yaos.Kheap

open Yaos.Lib Yaos.Holes

/-- `MAX_HEAP_HOLE`. -/
def maxHeapHole : Nat := 10

/-- `MAX_SMALL_HOLE`. -/
def maxSmallHole : Nat := 100

/-- `MAX_SMALL_HEAP`. -/
def maxSmallHeap : Nat := 2048

/-- The two hole lists, and the page bitmap they are refilled from. -/
structure State where
  heap4k : HoleList
  small : HoleList
  phys : Phymem.State

/-- `init_kheap`. -/
def initKheap (phys : Phymem.State) : State :=
  ⟨HoleList.init maxHeapHole, HoleList.init maxSmallHole, phys⟩

/-- `free_kheap_4k`. -/
def freeKheap4k (s : State) (addr size : Nat) : Outcome State := do
  check (addr % 0x1000 = 0 && size % 0x1000 = 0)
  let h ← s.heap4k.addSorted addr size
  .ok { s with heap4k := h }

/-- `if (size & 0xfff) size = (size & ~0xfff) + 0x1000;` -/
def round4k (size : Nat) : Nat :=
  if size % 0x1000 ≠ 0 then (size / 0x1000 * 0x1000 + 0x1000) % 2 ^ 64 else size

/-- The search of `alloc_kheap_4k`, which adds a physical page to the holes
for as long as none fits. -/
def find4k (fuel : Nat) : Nat → State → Nat → Outcome (Option Nat × State)
  | 0, _, _ => .error .spin
  | n + 1, s, size => do
      let found ← s.heap4k.firstFit size s.heap4k.max s.heap4k.phead
      match found with
      | some p => .ok (some p, s)
      | none => do
          let (newaddr, phys) ← Phymem.allocPhyPage fuel s.phys
          if newaddr = 0 then .ok (none, { s with phys := phys })
          else do
            let s ← freeKheap4k { s with phys := phys } newaddr Phymem.pageSize
            find4k fuel n s size

/-- `alloc_kheap_4k`. -/
def allocKheap4k (fuel : Nat) (s : State) (size : Nat) : Outcome (Option Nat × State) := do
  let (p, s) ← find4k fuel fuel s (round4k size)
  match p with
  | none => .ok (none, s)
  | some p => do
      let (a, h) ← s.heap4k.take 0 p (round4k size)
      .ok (some a, { s with heap4k := h })

/-- `free_kheap_small`. -/
def freeKheapSmall (s : State) (addr size : Nat) : Outcome State := do
  check (addr % 0x1000 = 0 && size % 0x1000 = 0)
  let h ← s.small.addFront addr size
  .ok { s with small := h }

/-- The search of `alloc_kheap_small`. -/
def findSmall (fuel : Nat) : Nat → State → Nat → Outcome (Option Nat × State)
  | 0, _, _ => .error .spin
  | n + 1, s, size => do
      let found ← s.small.firstFit size s.small.max s.small.phead
      match found with
      | some p => .ok (some p, s)
      | none => do
          let (block, s) ← allocKheap4k fuel s 0x1000
          let newaddr := block.getD 0
          if newaddr = 0 then .ok (none, s)
          else do
            let s ← freeKheapSmall s newaddr 0x1000
            findSmall fuel n s size

/-- `alloc_kheap_small`: a hole left with 16 bytes or less is dropped. -/
def allocKheapSmall (fuel : Nat) (s : State) (size : Nat) : Outcome (Option Nat × State) := do
  check (size < 0x1000)
  let (p, s) ← findSmall fuel fuel s size
  match p with
  | none => .ok (none, s)
  | some p => do
      let (a, h) ← s.small.take 16 p size
      .ok (some a, { s with small := h })

/-- `kalloc`. -/
def kalloc (fuel : Nat) (s : State) (size : Nat) : Outcome (Option Nat × State) :=
  if size < maxSmallHeap then allocKheapSmall fuel s size else allocKheap4k fuel s size

end Yaos.Kheap
