import Mathlib.Logic.Function.Basic
import Yaos.Kheap.Model
import Yaos.Phymem.History

/-!
# Pages for modules (`include/yaoscall/page.h`, `kernel/yaos_page.c`)

A module calls the kernel through a table of pointers, by number. The
pointers have no type: the callee takes its parameters from the argument
registers, whatever the caller meant. `yaos_page_free` asks for the entry of
`page_alloc`, so the address it passes is taken as a size.
-/

namespace Yaos.Yaoscall

open Yaos.Lib Function
open Yaos.Phymem (pageSize)

inductive Id where
  | yaoscall
  | pageAlloc
  | pageFree
  | heapAlloc
  | heapFree
  | malloc
  | mfree
  | maxPhysicalMem
  deriving DecidableEq

/-- What an entry of the table points to. -/
inductive Func where
  | dummy
  | dummy1
  | heapAlloc4k
  | heapFree4k
  | pageAlloc
  | pageFree
  | maxPhymem
  deriving DecidableEq

/-- `pyaoscall_table`. -/
abbrev Table := Id → Func

/-- The entries that `DECLARE_YAOSCALL` makes. -/
def declared : List (Id × Func) :=
  [(.yaoscall, .dummy1), (.yaoscall, .dummy), (.heapAlloc, .heapAlloc4k), (.heapFree, .heapFree4k),
    (.pageAlloc, .pageAlloc), (.pageFree, .pageFree), (.maxPhysicalMem, .maxPhymem)]

/-- `init_yaoscall`, for the entries in the order they have been linked in. -/
def initYaoscall (data : List (Id × Func)) : Table :=
  data.foldl (fun table e => update table e.1 e.2) fun _ => .dummy

/-- `ret_t`. -/
structure Ret where
  v : Nat
  e : Int

/-- The heap with its page bitmap, and `__max_phy_mem_addr`. -/
structure State where
  heap : Kheap.State
  maxPhyMemAddr : Nat

def State.phys (s : State) : Phymem.State := s.heap.phys

def State.setPhys (s : State) (phys : Phymem.State) : State :=
  { s with heap := { s.heap with phys := phys } }

/-- `heap_alloc_4k`. -/
def heapAlloc4k (fuel : Nat) (s : State) (size : Nat) : Outcome (Ret × State) := do
  check (size % 0x1000 = 0)
  let (p, heap) ← Kheap.allocKheap4k fuel s.heap size
  .ok (⟨p.getD 0, 0⟩, { s with heap := heap })

/-- `heap_free_4k`. -/
def heapFree4k (s : State) (addr size : Nat) : Outcome (Ret × State) := do
  check (size % 0x1000 = 0 && addr % 0x1000 = 0)
  let heap ← Kheap.freeKheap4k s.heap addr size
  .ok (⟨0, 0⟩, { s with heap := heap })

/-- `page_alloc`. -/
def pageAlloc (fuel : Nat) (s : State) (size : Nat) : Outcome (Ret × State) := do
  check (size = pageSize)
  let (v, phys) ← Phymem.allocPhyPage fuel s.phys
  .ok (⟨v, if v = 0 then -2 else 0⟩, s.setPhys phys)

/-- `page_free`. -/
def pageFree (s : State) (addr size : Nat) : Outcome (Ret × State) := do
  let phys ← Phymem.freePhyPages s.phys addr size
  .ok (⟨0, 0⟩, s.setPhys phys)

/-- A call of a function, with what the two argument registers hold. -/
def call (fuel : Nat) (s : State) (arg1 arg2 : Nat) : Func → Outcome (Ret × State)
  | .dummy => .ok (⟨0, -1⟩, s)
  | .dummy1 => .ok (⟨0, -1⟩, s)
  | .heapAlloc4k => heapAlloc4k fuel s arg1
  | .heapFree4k => heapFree4k s arg1 arg2
  | .pageAlloc => pageAlloc fuel s arg1
  | .pageFree => pageFree s arg1 arg2
  | .maxPhymem => .ok (⟨s.maxPhyMemAddr, 0⟩, s)

/-- `yaos_page_alloc`. Nothing is known of the second register. -/
def yaosPageAlloc (table : Table) (fuel : Nat) (s : State) (size rsi : Nat) : Outcome (Nat × State) := do
  let (ret, s) ← call fuel s size rsi (table .pageAlloc)
  .ok (ret.v, s)

/-- `yaos_page_free`. -/
def yaosPageFree (table : Table) (fuel : Nat) (s : State) (addr size : Nat) : Outcome State := do
  let (_, s) ← call fuel s addr size (table .pageAlloc)
  .ok s

/-! ## The table -/

theorem foldl_update_of_notMem {id : Id} {data : List (Id × Func)} (h : ∀ f, (id, f) ∉ data)
    (table : Table) : data.foldl (fun table e => update table e.1 e.2) table id = table id := by
  induction data generalizing table with
  | nil => rfl
  | cons e data ih =>
    have hne : id ≠ e.1 := fun heq => h e.2 (heq ▸ List.mem_cons_self)
    rw [List.foldl_cons, ih (fun f hf => h f (List.mem_cons_of_mem _ hf)), update_of_ne hne]

/-- An entry with a number of its own is found, wherever it was linked. -/
theorem initYaoscall_eq {id : Id} {f : Func} {data : List (Id × Func)} (hmem : (id, f) ∈ data)
    (hone : ∀ g, (id, g) ∈ data → g = f) : initYaoscall data id = f := by
  unfold initYaoscall
  generalize (fun _ => Func.dummy : Table) = table
  induction data generalizing table with
  | nil => cases hmem
  | cons e data ih =>
    rw [List.foldl_cons]
    by_cases hlater : (id, f) ∈ data
    · exact ih hlater (fun g hg => hone g (List.mem_cons_of_mem _ hg)) _
    · obtain rfl : (id, f) = e := (List.mem_cons.mp hmem).resolve_right hlater
      rw [foldl_update_of_notMem, update_self]
      intro g hg
      rw [hone g (List.mem_cons_of_mem _ hg)] at hg
      exact hlater hg

theorem initYaoscall_pageAlloc {data : List (Id × Func)} (h : data.Perm declared) :
    initYaoscall data .pageAlloc = .pageAlloc := by
  refine initYaoscall_eq (h.mem_iff.mpr (by decide)) fun g hg => ?_
  have := h.mem_iff.mp hg
  simpa [declared] using this

/-! ## Freeing a page -/

theorem call_pageAlloc {fuel : Nat} {s t : State} {arg1 arg2 : Nat} {ret : Ret}
    (h : call fuel s arg1 arg2 .pageAlloc = .ok (ret, t)) :
    Phymem.allocPhyPage fuel s.phys = .ok (ret.v, t.phys) := by
  rw [call, pageAlloc] at h
  obtain ⟨-, -, h⟩ := bind_eq_ok.mp h
  obtain ⟨⟨v, phys⟩, htake, h⟩ := bind_eq_ok.mp h
  cases h
  exact htake

theorem yaosPageAlloc_ok {data : List (Id × Func)} (hdata : data.Perm declared) {fuel : Nat}
    {s t : State} {size rsi a : Nat}
    (h : yaosPageAlloc (initYaoscall data) fuel s size rsi = .ok (a, t)) :
    Phymem.allocPhyPage fuel s.phys = .ok (a, t.phys) := by
  rw [yaosPageAlloc, initYaoscall_pageAlloc hdata] at h
  obtain ⟨⟨ret, t⟩, hcall, h⟩ := bind_eq_ok.mp h
  cases h
  exact call_pageAlloc hcall

theorem yaosPageFree_ok {data : List (Id × Func)} (hdata : data.Perm declared) {fuel : Nat}
    {s t : State} {addr size : Nat}
    (h : yaosPageFree (initYaoscall data) fuel s addr size = .ok t) :
    ∃ v, Phymem.allocPhyPage fuel s.phys = .ok (v, t.phys) := by
  rw [yaosPageFree, initYaoscall_pageAlloc hdata] at h
  obtain ⟨⟨ret, t⟩, hcall, h⟩ := bind_eq_ok.mp h
  cases h
  exact ⟨ret.v, call_pageAlloc hcall⟩

theorem bit_of_alloc {s t : Phymem.State} {fuel a i : Nat} (hi : Phymem.Inv s)
    (h : Phymem.allocPhyPage fuel s = .ok (a, t)) (hbit : s.bit i = false) : t.bit i = false := by
  obtain ⟨-, hsame⟩ | ⟨j, -, -, -, hclr⟩ := Phymem.Inv.alloc_page hi h
  · rw [hsame i, hbit]
  · rw [hclr i, hbit]
    split <;> rfl

/-- **A page is never given back.** The address is not the size of a page and
`page_alloc` stops, or it is, and a page is taken. -/
theorem yaosPageFree_never {data : List (Id × Func)} (hdata : data.Perm declared) {s t : State}
    (hi : Phymem.Inv s.phys) {fuel rsi a : Nat}
    (halloc : yaosPageAlloc (initYaoscall data) fuel s pageSize rsi = .ok (a, t)) (ha : a ≠ 0) :
    ¬ ∃ fuel u, yaosPageFree (initYaoscall data) fuel t a pageSize = .ok u ∧
      ∀ i, u.phys.bit i = if i = a / pageSize then true else t.phys.bit i := by
  rintro ⟨fuel', u, hfree, hbits⟩
  have htake := yaosPageAlloc_ok hdata halloc
  obtain ⟨v, htake'⟩ := yaosPageFree_ok hdata hfree
  obtain ⟨h0, -⟩ | ⟨i, -, rfl, -, hclr⟩ := Phymem.Inv.alloc_page hi htake
  · exact ha h0
  · -- the bit of the page is clear after the first call, and the second sets none
    have hgone : t.phys.bit i = false := by rw [hclr i, if_pos rfl]
    have hstill := bit_of_alloc (Phymem.Inv.alloc hi htake) htake' hgone
    have hself := hbits i
    rw [Nat.mul_div_cancel_left _ (by decide), if_pos rfl, hstill] at hself
    cases hself

def emptyHeap (phys : Phymem.State) : State := ⟨Kheap.initKheap phys, phys.maxPhyAddr⟩

/-- Page 5 is obtained and not given back. -/
theorem yaosPageFree_never_page5 :
    (∃ t, yaosPageAlloc (initYaoscall declared) 1 (emptyHeap (Phymem.onePageFree 5)) pageSize 0 =
      .ok (5 * pageSize, t)) ∧
    ∀ t, yaosPageAlloc (initYaoscall declared) 1 (emptyHeap (Phymem.onePageFree 5)) pageSize 0 =
        .ok (5 * pageSize, t) →
      ¬ ∃ fuel u, yaosPageFree (initYaoscall declared) fuel t (5 * pageSize) pageSize =
          .ok u ∧ ∀ i, u.phys.bit i =
            if i = 5 * pageSize / pageSize then true else t.phys.bit i := by
  have hinv : Phymem.Inv (Phymem.onePageFree 5) := by
    have htr : Trace Phymem.Step (Phymem.initPhyMem (64 * pageSize))
        [⟨Phymem.initPhyMem (64 * pageSize), .freeOne (5 * pageSize),
          Phymem.onePageFree 5⟩] (Phymem.onePageFree 5) :=
      .step (show Phymem.freePhyOnePage (Phymem.initPhyMem (64 * pageSize))
        (5 * pageSize) = .ok (Phymem.onePageFree 5) by decide) (.done _)
    exact Phymem.Inv.trace htr
  refine ⟨⟨_, rfl⟩, fun t ht => ?_⟩
  exact yaosPageFree_never (s := emptyHeap (Phymem.onePageFree 5)) (List.Perm.refl _) hinv ht (by decide)

/-- The call to free page 5 ends in the assertion of `page_alloc`. -/
theorem yaosPageFree_asserts :
    ∃ t, yaosPageAlloc (initYaoscall declared) 1 (emptyHeap (Phymem.onePageFree 5)) pageSize 0 =
        .ok (5 * pageSize, t) ∧
      ∀ fuel, yaosPageFree (initYaoscall declared) fuel t (5 * pageSize) pageSize =
        .error .assert :=
  ⟨_, rfl, fun _ => rfl⟩

end Yaos.Yaoscall
