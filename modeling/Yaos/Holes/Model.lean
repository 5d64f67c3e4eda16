import Mathlib.Logic.Function.Basic
import Yaos.Lib.Outcome
import Yaos.Lib.Range
import Yaos.Lib.Seg

/-!
# Hole lists

`kernel/kheap.c` keeps two lists of free ranges and `kernel/vm.c` a third,
with the same code: a static array of descriptors, each on the list of
holes (`phead`) or in the pool of unused descriptors (`pfree`), linked
through `pnext`. The three lists differ in how a hole is inserted (sorted
by address, or at the front), and in the remainder that is dropped.

A walk along a list takes one step for each descriptor it visits; there
are `max` of them, so a longer walk has met one twice and never ends.
-/

namespace Yaos.Holes

open Yaos.Lib

/-- `struct kheap_t` and `struct linear_t`. -/
structure Node where
  addr : Nat
  size : Nat
  orginSize : Nat
  pnext : Option Nat

/-- An array of `max` descriptors with its two lists. -/
structure HoleList where
  node : Nat → Node
  phead : Option Nat
  pfree : Option Nat
  max : Nat

def HoleList.upd (h : HoleList) (i : Nat) (f : Node → Node) : HoleList :=
  { h with node := Function.update h.node i (f (h.node i)) }

/-- The `pnext` links. -/
def HoleList.next (h : HoleList) (i : Nat) : Option Nat := (h.node i).pnext

/-- All descriptors in the pool, as `init_kheap` and `init_vm` leave them. -/
def HoleList.init (max : Nat) : HoleList where
  node i := ⟨0, 0, 0, if i + 1 < max then some (i + 1) else none⟩
  phead := none
  pfree := some 0
  max := max

/-- Take the first descriptor `p` from the pool and fill it in. -/
def HoleList.fill (h : HoleList) (p addr size : Nat) : HoleList :=
  { h.upd p fun x => { x with addr := addr, orginSize := size, size := size } with
    pfree := h.next p }

/-- `p = pfree` and the panic on an empty pool. -/
def HoleList.pop (h : HoleList) (addr size : Nat) : Outcome (Nat × HoleList) :=
  match h.pfree with
  | none => .error .panic
  | some p => .ok (p, h.fill p addr size)

/-- Link descriptor `p` in front of the list. -/
def HoleList.push (h : HoleList) (p : Nat) : HoleList :=
  { h.upd p fun x => { x with pnext := h.phead } with phead := some p }

/-- `while (ph->pnext && ph->pnext->addr < p->addr) ph = ph->pnext;` -/
def HoleList.seek (h : HoleList) (addr : Nat) : Nat → Nat → Outcome Nat
  | 0, _ => .error .spin
  | k + 1, ph =>
      match h.next ph with
      | none => .ok ph
      | some q => if (h.node q).addr < addr then h.seek addr k q else .ok ph

def HoleList.link (h : HoleList) (p : Nat) : Outcome HoleList :=
  match h.phead with
  | none => .ok (h.push p)
  | some q =>
      if (h.node p).addr < (h.node q).addr then .ok (h.push p)
      else do
        let ph ← h.seek (h.node p).addr h.max q
        let h := h.upd p fun x => { x with pnext := h.next ph }
        .ok (h.upd ph fun x => { x with pnext := some p })

def HoleList.addSorted (h : HoleList) (addr size : Nat) : Outcome HoleList := do
  let (p, h) ← h.pop addr size
  h.link p

def HoleList.addFront (h : HoleList) (addr size : Nat) : Outcome HoleList := do
  let (p, h) ← h.pop addr size
  .ok (h.push p)

/-- `while (p && p->size < size) p = p->pnext;` -/
def HoleList.firstFit (h : HoleList) (size : Nat) : Nat → Option Nat → Outcome (Option Nat)
  | _, none => .ok none
  | 0, some _ => .error .spin
  | k + 1, some p =>
      if (h.node p).size < size then h.firstFit size k (h.next p) else .ok (some p)

/-- `while (ptr->pnext && ptr->pnext != p) ptr = ptr->pnext;` and the panic
after it. -/
def HoleList.before (h : HoleList) (p : Nat) : Nat → Nat → Outcome Nat
  | 0, _ => .error .spin
  | k + 1, ptr =>
      match h.next ptr with
      | none => .error .panic
      | some q => if q = p then .ok ptr else h.before p k q

/-- Take `p` off the list of holes: the three branches of the source. -/
def HoleList.unlink (h : HoleList) (p : Nat) : Outcome HoleList :=
  match h.phead with
  | none => .error .fault
  | some ptr =>
      if ptr = p then .ok { h with phead := h.next ptr }
      else if h.next ptr = some p then .ok (h.upd ptr fun x => { x with pnext := h.next p })
      else do
        let ptr ← h.before p h.max ptr
        .ok (h.upd ptr fun x => { x with pnext := h.next p })

/-- Put `p` back in the pool. -/
def HoleList.drop (h : HoleList) (p : Nat) : HoleList :=
  { h.upd p fun x => { x with pnext := h.pfree } with pfree := some p }

/-- Take `size` bytes from the front of hole `p`; a hole with no more than
`least` bytes left is given up. -/
def HoleList.take (h : HoleList) (least p size : Nat) : Outcome (Nat × HoleList) := do
  let h := h.upd p fun x => { x with size := x.size - size }
  let h ← if (h.node p).size ≤ least then do
      let h ← h.unlink p
      .ok (h.drop p)
    else .ok h
  .ok ((h.node p).addr, h.upd p fun x => { x with addr := x.addr + size })

/-! ## Field lemmas -/

theorem HoleList.upd_node (h : HoleList) (i j : Nat) (f : Node → Node) :
    (h.upd i f).node j = if j = i then f (h.node j) else h.node j := by
  by_cases hj : j = i
  · subst hj
    simp [HoleList.upd]
  · simp [HoleList.upd, hj]

@[simp] theorem HoleList.upd_self (h : HoleList) (i : Nat) (f : Node → Node) :
    (h.upd i f).node i = f (h.node i) := by
  simp [HoleList.upd_node]

theorem HoleList.upd_ne (h : HoleList) {i j : Nat} (hj : j ≠ i) (f : Node → Node) :
    (h.upd i f).node j = h.node j := by
  rw [HoleList.upd_node, if_neg hj]

theorem HoleList.fill_ne (h : HoleList) {p j : Nat} (hj : j ≠ p) (addr size : Nat) :
    (h.fill p addr size).node j = h.node j := by
  simp [HoleList.fill, HoleList.upd_ne h hj]

theorem HoleList.push_ne (h : HoleList) {p j : Nat} (hj : j ≠ p) :
    (h.push p).node j = h.node j := by
  simp [HoleList.push, HoleList.upd_ne h hj]

theorem HoleList.drop_ne (h : HoleList) {p j : Nat} (hj : j ≠ p) :
    (h.drop p).node j = h.node j := by
  simp [HoleList.drop, HoleList.upd_ne h hj]

end Yaos.Holes
