import Yaos.Kheap.Model
import Yaos.Multiboot.Reverse

/-!
# What becomes of a region (`arch/x86_64/multiboot.c`)

`on_mem` cuts usable memory into pieces for the small heap, the 4K heap and
the page bitmap, `on_iomem` records the pages of other regions. Neither
reads what its calls change, so `onMem` returns the list of its calls in
order, and `release` makes them.

A piece for a heap is dropped if it does not end below
`__max_phy_mem_addr`; pages for the bitmap are not checked.
-/

namespace Yaos.Multiboot

open Yaos.Lib
open Yaos.Phymem (pageSize)

/-- A call of `free_kheap_small`, `free_kheap_4k` or `free_phy_pages`. -/
inductive Release where
  | small (r : Range)
  | heap4k (r : Range)
  | pages (r : Range)
  deriving DecidableEq

/-- `if (addr + size < __max_phy_mem_addr) free_kheap_4k(addr, size);` -/
def freeBelow (max addr size : Nat) : List Release :=
  if u64 (addr + size) < max then [.heap4k ⟨addr, size⟩] else []

/-- `on_mem`, with `__max_phy_mem_addr`. -/
def onMem (max : Nat) : Nat → Nat → Nat → Outcome (List Release)
  | 0, _, _ => .error .spin
  | fuel + 1, addr, size =>
      let low4k := addr % 0x1000
      if low4k ≠ 0 then do
        let low4ksize := 0x1000 - low4k
        -- a region inside one 4K page is freed whole, and then once more
        let whole := if size ≤ low4ksize ∧ u64 (addr + size) < max
          then [Release.small ⟨addr, size⟩] else []
        let rest ← onMem max fuel (u64 (addr + low4ksize)) (sub64 size low4ksize)
        .ok (whole ++ .small ⟨addr, low4ksize⟩ :: rest)
      else
        let size := size / 0x1000 * 0x1000
        if size = 0 then .ok []
        else if size < pageSize then .ok (freeBelow max addr size)
        else
          let low := addr % pageSize
          if low ≠ 0 then
            let lowsize := pageSize - low
            if size ≤ lowsize then .ok (freeBelow max addr size)
            else do
              let rest ← onMem max fuel (u64 (addr + lowsize)) (size - lowsize)
              .ok (freeBelow max addr lowsize ++ rest)
          else
            let npg := size / pageSize
            let tail := size % pageSize
            .ok (.pages ⟨addr, npg * pageSize⟩ ::
              if tail = 0 then [] else freeBelow max (u64 (addr + npg * pageSize)) tail)

def release (s : Kheap.State) : Release → Outcome Kheap.State
  | .small r => Kheap.freeKheapSmall s r.addr r.size
  | .heap4k r => Kheap.freeKheap4k s r.addr r.size
  | .pages r => do
      let phys ← Phymem.freePhyPages s.phys r.addr r.size
      .ok { s with phys := phys }

/-! ## I/O memory -/

/-- `MAX_IO_REMAPS`. -/
def maxIoRemaps : Nat := 2000

/-- `add_map`: the page number is passed as an `int`. -/
def addMap (ioRemapPages : List Int) (pg : Nat) : Outcome (List Int) :=
  let pg := Int.bmod pg (2 ^ 32)
  if pg ∈ ioRemapPages then .ok ioRemapPages
  else if maxIoRemaps ≤ ioRemapPages.length then .error .panic
  else .ok (ioRemapPages ++ [pg])

/-- The end of `on_iomem`, for an address on a page boundary. -/
def mapPages : Nat → List Int → Nat → Nat → Outcome (List Int)
  | 0, _, _, _ => .error .spin
  | fuel + 1, l, addr, size =>
      if pageSize ≤ size then do
        let l ← addMap l (addr / pageSize + 1)
        mapPages fuel l (u64 (addr + pageSize)) (size - pageSize)
      else if size = 0 then .ok l
      else addMap l (addr / pageSize + 1)

/-- `on_iomem`. -/
def onIomem (loops : Nat) : Nat → List Int → Nat → Nat → Outcome (List Int)
  | 0, _, _, _ => .error .spin
  | fuel + 1, l, addr, size =>
      let low := addr % pageSize
      if addr = 0 then .ok l
      else if low ≠ 0 then do
        let lowsize := pageSize - low
        let l ← addMap l (u64 (addr + pageSize - 1) / pageSize)
        if size ≤ lowsize then .ok l
        else onIomem loops fuel l (u64 (addr + lowsize)) (size - lowsize)
      else mapPages loops l addr size

/-- `if (ismem) on_mem(addr, size); else on_iomem(addr, size);` -/
def handle (max fuel : Nat) (s : Kheap.State × List Int) (p : Passed) :
    Outcome (Kheap.State × List Int) :=
  if p.ismem then do
    let calls ← onMem max fuel p.range.addr p.range.size
    let heap ← calls.foldlM release s.1
    .ok (heap, s.2)
  else do
    let l ← onIomem fuel fuel s.2 p.range.addr p.range.size
    .ok (s.1, l)

end Yaos.Multiboot
