import Yaos.Pgtable.Model

/-!
# Virtual memory of the kernel (`kernel/vm.c`)

Linear addresses come from a hole list like the heap's, physical pages
from the bitmap, and each page is mapped as it is taken. `0` is the null
pointer in every result. `spin_vm` is kept as a flag: `alloc_linear`
returns without releasing it when no hole fits, and whoever locks it then
spins.

The loops count in `ulong`; `fuel` bounds them, as it bounds the searches
of the allocators they call.
-/

namespace Yaos.Vm

open Yaos.Lib Yaos.Holes
open Yaos.Phymem (pageSize)

/-- `MAX_LINEAR_HOLE`. -/
def maxLinearHole : Nat := 10

/-- The linear holes, the lock, and the page tables. -/
structure State where
  linear : HoleList
  locked : Bool
  pg : Pgtable.State

def State.phys (s : State) : Phymem.State := s.pg.heap.phys

def State.setPhys (s : State) (phys : Phymem.State) : State :=
  { s with pg := s.pg.setPhys phys }

/-- `spin_lock(&spin_vm)`. -/
def State.lock (s : State) : Outcome State :=
  if s.locked then .error .spin else .ok { s with locked := true }

/-- `free_linear`. -/
def freeLinear (s : State) (addr size : Nat) : Outcome State := do
  check (addr % pageSize = 0 && size % pageSize = 0)
  if s.linear.pfree = none then .error .panic
  else do
    let s ← s.lock
    let h ← s.linear.addSorted addr size
    .ok { s with linear := h, locked := false }

/-- `if (size & PAGE_MASK) size = (size & ~PAGE_MASK) + PAGE_SIZE;` -/
def roundPage (size : Nat) : Nat :=
  if size % pageSize ≠ 0 then (size / pageSize * pageSize + pageSize) % 2 ^ 64 else size

/-- `alloc_linear`. -/
def allocLinear (s : State) (size : Nat) : Outcome (Nat × State) := do
  let s ← s.lock
  let found ← s.linear.firstFit (roundPage size) s.linear.max s.linear.phead
  match found with
  | none => .ok (0, s)
  | some p => do
      let (pret, h) ← s.linear.take 0 p (roundPage size)
      .ok (pret, { s with linear := h, locked := false })

/-- `free_vm_page`: the address is not advanced. -/
def freeVmPage (addr size : Nat) : Nat → State → Nat → Outcome State
  | 0, _, _ => .error .spin
  | n + 1, s, phsize =>
      if phsize ≤ size then do
        let pte := Pgtable.getPteWithAddr s.pg addr
        if pte = 0 then .error .panic
        else do
          let phys ← Phymem.freePhyOnePage s.phys (s.pg.mem pte / pageSize * pageSize)
          freeVmPage addr size n (s.setPhys phys) ((phsize + pageSize) % 2 ^ 64)
      else .ok s

/-- `free_vm`. -/
def freeVm (fuel : Nat) (s : State) (addr size : Nat) : Outcome State := do
  let s ← freeVmPage addr size fuel s 0
  freeLinear s addr size

/-- The loop of `alloc_vm`: whether every page was there. -/
def allocVmLoop (fuel size : Nat) : Nat → State → Nat → Nat → Outcome (Bool × State)
  | 0, _, _, _ => .error .spin
  | n + 1, s, addr, phsize =>
      if phsize ≤ size then do
        let (pg, phys) ← Phymem.allocPhyPage fuel s.phys
        let s := s.setPhys phys
        if pg = 0 then
          if phsize ≠ 0 then do
            let s ← freeVmPage addr phsize fuel s 0
            let s ← freeLinear s addr size
            .ok (false, s)
          else .ok (false, s)
        else do
          -- the return value is not looked at
          let (_, pgt) ← Pgtable.mapPageP2vRw fuel s.pg pg addr
          allocVmLoop fuel size n { s with pg := pgt } ((addr + pageSize) % 2 ^ 64)
            ((phsize + pageSize) % 2 ^ 64)
      else .ok (true, s)

/-- `alloc_vm`. -/
def allocVm (fuel : Nat) (s : State) (size : Nat) : Outcome (Nat × State) := do
  let (p, s) ← allocLinear s size
  if p = 0 then .ok (0, s)
  else do
    let (all, s) ← allocVmLoop fuel size fuel s p 0
    .ok (if all then p else 0, s)

/-- `free_vm_stack`. -/
def freeVmStack (fuel : Nat) (s : State) (addr size : Nat) : Outcome State := do
  let s ← freeVmPage addr size fuel s 0
  freeLinear s ((addr + 2 ^ 64 - pageSize) % 2 ^ 64) ((size + pageSize) % 2 ^ 64)

/-- `alloc_vm_stack`: the loop is that of `alloc_vm`, from the second page
of the range on. -/
def allocVmStack (fuel : Nat) (s : State) (size : Nat) : Outcome (Nat × State) := do
  let (p, s) ← allocLinear s ((size + pageSize) % 2 ^ 64)
  if p = 0 then .ok (0, s)
  else do
    let (all, s) ← allocVmLoop fuel size fuel s ((p + pageSize) % 2 ^ 64) 0
    .ok (if all then (p + pageSize) % 2 ^ 64 else 0, s)

inductive Kind where
  | plain
  | stack
  deriving DecidableEq

/-- `alloc_vm` or `alloc_vm_stack`. -/
def Kind.alloc : Kind → Nat → State → Nat → Outcome (Nat × State)
  | .plain => allocVm
  | .stack => allocVmStack

/-- `free_vm` or `free_vm_stack`. -/
def Kind.free : Kind → Nat → State → Nat → Nat → Outcome State
  | .plain => freeVm
  | .stack => freeVmStack

/-- What is asked of `alloc_linear`. -/
def Kind.request : Kind → Nat → Nat
  | .plain, size => size
  | .stack, size => (size + pageSize) % 2 ^ 64

/-- Where the loop begins in the range that starts at `p`. -/
def Kind.base : Kind → Nat → Nat
  | .plain, p => p
  | .stack, p => (p + pageSize) % 2 ^ 64

theorem Kind.alloc_eq (k : Kind) (fuel : Nat) (s : State) (size : Nat) :
    k.alloc fuel s size = (do
      let (p, s) ← allocLinear s (k.request size)
      if p = 0 then .ok (0, s)
      else do
        let (all, s) ← allocVmLoop fuel size fuel s (k.base p) 0
        .ok (if all then k.base p else 0, s)) := by
  cases k <;> rfl

/-- `init_vm`. -/
def initVm (pg : Pgtable.State) (addr size : Nat) : Outcome State :=
  freeLinear ⟨HoleList.init maxLinearHole, false, pg⟩ addr size

end Yaos.Vm
