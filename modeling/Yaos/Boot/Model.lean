import Yaos.Multiboot.Memory
import Yaos.Pgtable.Model

/-!
# Setting up memory (`bp_main` up to `init_pgtable`)

The first calls of `bp_main` that concern memory: `init_kheap` and
`init_bss` give the heap its first 64K behind the kernel image,
`init_bootload` and `init_phy_mem` allocate from it (`early`); `init_e820`
hands out the memory map, `init_pgtable` builds the page tables
(`initMemory`).

The page directories of the first 4G are static and filled with
`(i + k * PD_PER_PTE) * PAGE_SIZE | ..`, an `int`. From 2G on it overflows,
which C leaves undefined; the model wraps in two's complement, and the
conversion to `u64` extends the sign.

Left out: `init_bootload` reads the memory map twice, and `init_e820` and
it compute totals that are only printed; the placement of the bitmap in
memory; `cr3`.
-/

namespace Yaos.Boot

open Yaos.Lib Yaos.Multiboot Yaos.Pgtable Function
open Yaos.Phymem (pageSize)

/-- `__kernel_start`. -/
def kernelStart : Nat := 0x100000

/-- `init_heap_size`. -/
def initHeapSize : Nat := 0x10000

/-- `reverse_low_size`. -/
def reverseLowSize : Nat := 0x10000

/-- `NUMBER_4G`. -/
def number4G : Nat := 0x100000000

/-- `IOAPIC_BASE`. -/
def ioapicBase : Nat := 0xFEC00000

structure Statics where
  pml4 : Nat
  firstPdp : Nat
  firstPd : Nat
  secondPd : Nat
  thirdPd : Nat
  fourthPd : Nat

def Statics.tables (t : Statics) : List Nat :=
  [t.pml4, t.firstPdp, t.firstPd, t.secondPd, t.thirdPd, t.fourthPd]

/-- A kernel image: its tables are distinct pages of it. `mboot_bss_end` is
a `u32`. -/
structure Image extends Statics where
  bssEnd : Nat
  aligned : ∀ t ∈ toStatics.tables, t % Radix.page = 0
  distinct : toStatics.tables.Nodup
  inside : ∀ t ∈ toStatics.tables, kernelStart ≤ t ∧ t + Radix.page ≤ bssEnd
  low : bssEnd < 2 ^ 32

/-- `__kernel_end`, after `init_bss`. -/
def Image.kernelEnd (img : Image) : Nat := img.bssEnd + initHeapSize

/-- `memory_map_t`: a region, and whether its type is 1. Physical addresses
have at most 52 bits. -/
structure Entry where
  addr : Nat
  size : Nat
  ismem : Bool
  fits : addr + size ≤ 2 ^ 52

def Entry.range (e : Entry) : Range := ⟨e.addr, e.size⟩

/-! ## Before the memory map is handed out -/

/-- `if (addr + msize > maxaddr) maxaddr = addr + msize;` -/
def raise (maxaddr : Nat) (e : Entry) : Nat :=
  if maxaddr < u64 (e.addr + e.size) then u64 (e.addr + e.size) else maxaddr

/-- `__max_phy_addr`. -/
def maxPhyAddr (map : List Entry) : Nat := map.foldl raise 0

/-- `__max_phy_mem_addr`. -/
def maxPhyMemAddr (map : List Entry) : Nat := (map.filter (·.ismem)).foldl raise 0

/-- `init_bss`. -/
def initBss (img : Image) (heap : Kheap.State) : Outcome Kheap.State :=
  Kheap.freeKheap4k heap img.bssEnd initHeapSize

/-- `init_bootload`, for a memory map of `length` bytes. -/
def initBootload (fuel : Nat) (heap : Kheap.State) (length : Nat) : Outcome Kheap.State := do
  let (pe820, heap) ← Kheap.kalloc fuel heap length
  if pe820.getD 0 = 0 then .error .panic else .ok heap

/-- `init_phy_mem`. -/
def initPhyMem (fuel : Nat) (heap : Kheap.State) (map : List Entry) : Outcome Kheap.State := do
  let (_, heap) ← Kheap.kalloc fuel heap (maxPhyAddr map / pageSize / 8 + 8)
  .ok { heap with phys := Phymem.initPhyMem (maxPhyAddr map) }

/-- The heap before `init_e820`. The bitmap has no page until
`init_phy_mem`. -/
def early (fuel : Nat) (img : Image) (map : List Entry) (length : Nat) : Outcome Kheap.State := do
  let heap ← initBss img (Kheap.initKheap (Phymem.initPhyMem 0))
  let heap ← initBootload fuel heap length
  initPhyMem fuel heap map

/-! ## `init_e820` -/

/-- The ranges `init_e820` reserves. -/
def reserved (img : Image) : List Range :=
  [⟨0, reverseLowSize⟩, ⟨kernelStart, img.kernelEnd - kernelStart⟩]

/-- The calls of `on_mem` and `on_iomem` for the whole map. -/
def dealMap (fuel : Nat) (v : Reverse) : List Entry → Outcome (List Passed)
  | [] => .ok []
  | e :: map => do
      let passed ← dealReverse v e.ismem fuel e.addr e.size
      let rest ← dealMap fuel v map
      .ok (passed ++ rest)

/-- `init_e820`: the heap, and the recorded I/O pages. -/
def initE820 (fuel : Nat) (img : Image) (heap : Kheap.State) (map : List Entry) :
    Outcome (Kheap.State × List Int) := do
  let v ← (reserved img).foldlM addReverse Reverse.empty
  let l ← addMap [] (ioapicBase / pageSize + 1)
  let passed ← dealMap fuel v map
  passed.foldlM (handle (maxPhyMemAddr map) fuel) (heap, l)

/-! ## `init_pgtable` -/

/-- `n * PAGE_SIZE | PTE_PS | PTE_W | PTE_P`, stored in a `u64`. -/
def pde (n : Nat) : Nat :=
  ((BitVec.ofNat 32 (n * pageSize) ||| BitVec.ofNat 32 (ptePS ||| pteW ||| pteP)).signExtend 64).toNat

/-- One round of the loop over `i`. -/
def Statics.setPdes (t : Statics) (mem : Nat → Nat) (i : Nat) : Nat → Nat :=
  let mem := update mem (t.firstPd + 8 * i) (pde i)
  let mem := update mem (t.secondPd + 8 * i) (pde (i + 512))
  let mem := update mem (t.thirdPd + 8 * i) (pde (i + 2 * 512))
  update mem (t.fourthPd + 8 * i) (pde (i + 3 * 512))

/-- The first `n` rounds. -/
def Statics.fillPds (t : Statics) : Nat → (Nat → Nat) → Nat → Nat
  | 0, mem => mem
  | n + 1, mem => t.setPdes (t.fillPds n mem) n

def link (t : Nat) : Nat := t ||| pteP ||| pteW

/-- The entries of `pml4` and `first_pdp`. -/
def Statics.linkPds (t : Statics) (mem : Nat → Nat) : Nat → Nat :=
  let mem := Radix.clear (Radix.clear mem t.pml4) t.firstPdp
  let mem := update mem (t.pml4 + 8 * 0) (link t.firstPdp)
  let mem := update mem (t.firstPdp + 8 * 0) (link t.firstPd)
  let mem := update mem (t.firstPdp + 8 * 1) (link t.secondPd)
  let mem := update mem (t.firstPdp + 8 * 2) (link t.thirdPd)
  update mem (t.firstPdp + 8 * 3) (link t.fourthPd)

/-- `for (; addr + PAGE_SIZE < __max_phy_mem_addr; addr += PAGE_SIZE)`. -/
def mapAbove (fuel max : Nat) : Nat → State → Nat → Outcome State
  | 0, _, _ => .error .spin
  | n + 1, s, addr =>
      if u64 (addr + pageSize) < max then do
        let (code, s) ← mapPageP2v fuel s addr addr (ptePS ||| pteP ||| pteW)
        if code ≠ codeOk then .error .panic
        else mapAbove fuel max n s (u64 (addr + pageSize))
      else .ok s

/-- `init_pml4`. -/
def initPml4 (fuel : Nat) (img : Image) (s : State) (max : Nat) : Outcome State := do
  check (img.pml4 % 0x1000 = 0)
  check (img.firstPdp % 0x1000 = 0)
  check (img.firstPd % 0x1000 = 0)
  let s := { s with pml4 := img.pml4, mem := img.fillPds 512 (img.linkPds s.mem) }
  if number4G < max then mapAbove fuel max fuel s number4G else .ok s

/-- `init_e820` and `init_pgtable`. -/
def initMemory (fuel : Nat) (img : Image) (heap : Kheap.State) (mem : Nat → Nat)
    (map : List Entry) : Outcome State := do
  let (heap, _) ← initE820 fuel img heap map
  initPml4 fuel img ⟨mem, img.pml4, heap⟩ (maxPhyMemAddr map)

end Yaos.Boot
