import Yaos.Kheap.Model
import Yaos.Lib.Radix

/-!
# Page tables (`arch/x86_64/pgtable.c`)

Three levels of tables above 2M pages: `pml4`, page directory pointers,
page directories. Tables are pages of memory, addressed as the kernel does
(physical and virtual address agree below the linear range), and a missing
one is taken from the 4K heap. `mem a` is the 8-byte word at `a`.

Addresses and words are natural numbers below `2 ^ 64`; `x & ~0xfff` is
`Radix.frame x`.
-/

namespace Yaos.Pgtable

open Yaos.Lib

/-- `OK`. -/
def codeOk : Nat := 0

/-- `E_NOMEM`. -/
def eNoMem : Nat := 1

/-- `PTE_P`. -/
def pteP : Nat := 0x001

/-- `PTE_W`. -/
def pteW : Nat := 0x002

/-- `PTE_U`. -/
def pteU : Nat := 0x004

/-- `PTE_PS`. -/
def ptePS : Nat := 0x080

/-- Memory, the address of the static `pml4`, and the heap. -/
structure State where
  mem : Nat → Nat
  pml4 : Nat
  heap : Kheap.State

def State.setPhys (s : State) (phys : Phymem.State) : State :=
  { s with heap := { s.heap with phys := phys } }

/-- `(vaddr >> PML4_SHIFT) & (PML4_NR - 1)`. -/
def pml4Index (vaddr : Nat) : Nat := vaddr / 2 ^ 39 % 512

/-- `(vaddr >> PDP_SHIFT) & (PML4_PER_PDP - 1)`. -/
def pdpIndex (vaddr : Nat) : Nat := vaddr / 2 ^ 30 % 512

/-- `(vaddr >> PD_SHIFT) & (PD_PER_PTE - 1)`. -/
def pdIndex (vaddr : Nat) : Nat := vaddr / 2 ^ 21 % 512

/-- The table that the word at `slot` points at; a missing one is taken
from the heap, cleared and linked. `none` for `return E_NOMEM`. -/
def tableAt (fuel : Nat) (s : State) (slot : Nat) : Outcome (Option Nat × State) :=
  if Radix.frame (s.mem slot) ≠ 0 then .ok (some (Radix.frame (s.mem slot)), s)
  else do
    let (block, heap) ← Kheap.allocKheap4k fuel s.heap 4096
    let p := block.getD 0
    check (p % 0x1000 = 0)
    if p = 0 then .ok (none, { s with heap := heap })
    else .ok (some p, { s with
      heap := heap
      mem := Function.update (Radix.clear s.mem p) slot (p ||| pteP ||| pteW ||| pteU) })

/-- `map_page_p2v`. -/
def mapPageP2v (fuel : Nat) (s : State) (paddr vaddr flag : Nat) : Outcome (Nat × State) := do
  check (paddr % 0x1000 = 0)
  check (Radix.frame flag = 0)
  let (pdp, s) ← tableAt fuel s (s.pml4 + 8 * pml4Index vaddr)
  match pdp with
  | none => .ok (eNoMem, s)
  | some pdp => do
      let (pd, s) ← tableAt fuel s (pdp + 8 * pdpIndex vaddr)
      match pd with
      | none => .ok (eNoMem, s)
      | some pd => .ok (codeOk, { s with
          mem := Function.update s.mem (pd + 8 * pdIndex vaddr) (paddr ||| flag) })

/-- `map_page_p2v_rw`. -/
def mapPageP2vRw (fuel : Nat) (s : State) (paddr vaddr : Nat) : Outcome (Nat × State) :=
  mapPageP2v fuel s paddr vaddr (pteP ||| pteW ||| ptePS)

/-- `get_pte_with_addr`, with `pml4` in `cr3`: the address of the page
directory entry, `0` if there is no directory. -/
def getPteWithAddr (s : State) (addr : Nat) : Nat :=
  let pdp := Radix.frame (s.mem (s.pml4 + 8 * pml4Index addr))
  if pdp = 0 then 0
  else
    let pd := Radix.frame (s.mem (pdp + 8 * pdpIndex addr))
    if pd = 0 then 0 else pd + 8 * pdIndex addr

/-- The entry that the hardware walk reaches for an address, `0` if it
reaches none. -/
def State.entry (s : State) (addr : Nat) : Nat :=
  if getPteWithAddr s addr = 0 then 0 else s.mem (getPteWithAddr s addr)

end Yaos.Pgtable
