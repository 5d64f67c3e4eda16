import Mathlib.Algebra.Group.Nat.Defs
import Mathlib.Logic.Function.Basic
import Yaos.Lib.Outcome
import Yaos.Lib.Range

/-!
# The slub allocator (`module/mm/slub.c`)

Small objects come from caches, one set for each CPU, whose free objects
are linked through their first word; larger blocks are whole 4K pages of
the heap. How a block is freed is read from a 4-bit tag of its page.

`page_bits` holds two tags a byte; a tag is only ever or-ed to, which does
not touch its neighbour, so `pageBits` is the tag of each page. `mem a` is
the word at `a`. The answer of `yaos_heap_alloc_4k` is an argument, `0` if
it has no memory; the ranges obtained and given back are returned.

Left out: names and `page`, which nothing reads, and the debug prints.
The array of caches has 13 elements, so `LARGE_NEXT` and `LARGE_IDX` are
initialised and read beyond its end; here they are elements 14 and 15.
-/

namespace Yaos.Slub

open Yaos.Lib Function

/-- `PAGE_4K_SIZE`. -/
def page4k : Nat := 0x1000

/-- `LARGE_IDX`. -/
def largeIdx : Nat := 15

/-- `LARGE_NEXT`. -/
def largeNext : Nat := 14

/-- `ZERO_SIZE_PTR`. -/
def zeroSizePtr : Nat := 16

/-- `KMALLOC_MAX_CACHE_SIZE`. -/
def kmallocMaxCacheSize : Nat := 0x1000

/-- `KMALLOC_MAX_SIZE`. -/
def kmallocMaxSize : Nat := 2 ^ 23

/-- `struct kmem_cache`; `freehead` is `0` for `NULL`. -/
structure Cache where
  idx : Nat
  size : Nat
  freehead : Nat
  deriving DecidableEq

/-- The caches of each CPU, the page tags, and memory. -/
structure State where
  cpus : Nat
  cache : Nat → Nat → Cache
  pageBits : Nat → Nat
  mem : Nat → Nat

/-- `size_index`. -/
def sizeIndex : List Nat :=
  [3, 4, 5, 5, 6, 6, 6, 6, 1, 1, 1, 1, 7, 7, 7, 7, 2, 2, 2, 2, 2, 2, 2, 2]

/-- The sizes of `kmalloc_info`. -/
def kmallocInfo : List Nat :=
  [0, 96, 192, 8, 16, 32, 64, 128, 256, 512, 1024, 2048, 4096, 8192, 16384, 32768, 65536, 131072,
    262144, 524288, 1048576, 2097152, 4194304, 8388608, 16777216, 33554432, 67108864]

/-- `kmalloc_info[idx].size`. -/
def kmallocInfoSize (idx : Nat) : Nat := kmallocInfo.getD idx 0

/-- `fls(int)`: the position of the highest set bit, counted from 1. -/
def fls (x : Nat) : Nat := if x % 2 ^ 32 = 0 then 0 else Nat.log2 (x % 2 ^ 32) + 1

/-- `size_index_elem`. -/
def sizeIndexElem (bytes : Nat) : Nat := (bytes - 1) / 8

/-- What `kmalloc_slab` returns: `NULL`, `ZERO_SIZE_PTR` or a cache. -/
inductive Slab where
  | null
  | zeroSize
  | index (i : Nat)
  deriving DecidableEq

/-- `kmalloc_slab`. -/
def kmallocSlab (size : Nat) : Slab :=
  if size > kmallocMaxSize then .null
  else if size ≤ 192 then
    if size = 0 then .zeroSize else .index (sizeIndex.getD (sizeIndexElem size) 0)
  else .index (fls (size - 1))

/-- The tag of the page of an address. -/
def State.tag (s : State) (addr : Nat) : Nat := s.pageBits (addr / page4k)

/-- `page_bits[..] |= idx` for page number `offset`. -/
def State.mark (s : State) (offset idx : Nat) : State :=
  { s with pageBits := update s.pageBits offset (s.pageBits offset ||| idx) }

/-- Write `freehead` of a cache. -/
def State.setHead (s : State) (cpu idx p : Nat) : State :=
  { s with
    cache := update s.cache cpu
      (update (s.cache cpu) idx { s.cache cpu idx with freehead := p }) }

/-! ## Freeing -/

/-- The loop over the tags of a large block, to the first page that is not
`LARGE_NEXT`. -/
def largeSize (s : State) : Nat → Nat → Nat → Outcome Nat
  | 0, _, _ => .error .spin
  | n + 1, offset, size =>
      if s.pageBits (offset + 1) = largeNext then largeSize s n (offset + 1) (size + page4k)
      else .ok (size + page4k)

/-- `__kmfree`: with the range that goes back to the heap. -/
def kmfree (fuel : Nat) (s : State) (cpu p : Nat) : Outcome (State × Option Range) :=
  if p = zeroSizePtr then .ok (s, none)
  else
    let c := s.cache cpu (s.tag p)
    if c.idx = largeIdx then do
      let size ← largeSize s fuel (p / page4k) 0
      .ok (s, some ⟨p, size⟩)
    else
      .ok (({ s with mem := update s.mem p c.freehead } : State).setHead cpu (s.tag p) p,
        none)

/-- `slub_mfree`. -/
def slubMfree (fuel : Nat) (s : State) (cpu p : Nat) : Outcome (State × Option Range) :=
  kmfree fuel s cpu p

/-! ## Allocating -/

/-- `while (pnext < pend)`: the objects of a page are linked; the last one
is returned. -/
def linkObjects (size pend : Nat) : Nat → (Nat → Nat) → Nat → Outcome ((Nat → Nat) × Nat)
  | 0, _, _ => .error .spin
  | n + 1, mem, pfree =>
      if pfree + size < pend then
        linkObjects size pend n (update mem pfree (pfree + size)) (pfree + size)
      else .ok (mem, pfree)

/-- `slub_add_page`. -/
def slubAddPage (s : State) (cpu idx answer : Nat) : Outcome (Bool × State × Option Range) :=
  if answer = 0 then .ok (false, s, none)
  else do
    let c := s.cache cpu idx
    let (mem, pfree) ← linkObjects c.size (answer + page4k) page4k s.mem answer
    let s := { s with mem := update mem pfree c.freehead }
    let s := s.setHead cpu idx answer
    check (c.idx < 16)
    .ok (true, s.mark (answer / page4k) c.idx, some ⟨answer, page4k⟩)

/-- `__kmalloc`. -/
def kmalloc (s : State) (cpu size answer : Nat) : Outcome (Nat × State × Option Range) :=
  match kmallocSlab size with
  | .zeroSize => .ok (zeroSizePtr, s, none)
  | .null => .ok (0, s, none)
  | .index i =>
      if (s.cache cpu i).freehead = 0 then do
        let (ok, s, got) ← slubAddPage s cpu i answer
        if !ok then .ok (0, s, none)
        else do
          let pfree := (s.cache cpu i).freehead
          check (pfree ≠ 0)
          .ok (pfree, s.setHead cpu i (s.mem pfree), got)
      else
        let pfree := (s.cache cpu i).freehead
        .ok (pfree, s.setHead cpu i (s.mem pfree), none)

/-- `(size + PAGE_4K_MASK) & ~PAGE_4K_MASK`. -/
def newsize (size : Nat) : Nat := (size + 0xfff) % 2 ^ 64 / page4k * page4k

/-- The second loop of `__kmalloc_large`: `n` more pages are tagged. -/
def markNext : Nat → State → Nat → State
  | 0, s, _ => s
  | n + 1, s, offset => markNext n (s.mark offset largeNext) (offset + 1)

/-- `__kmalloc_large`. -/
def kmallocLarge (s : State) (size answer : Nat) : Nat × State × Option Range :=
  if answer = 0 then (0, s, none)
  else
    let offset := answer / page4k
    let s := s.mark offset largeIdx
    (answer, markNext ((answer + newsize size) / page4k - (offset + 1)) s (offset + 1),
      some ⟨answer, newsize size⟩)

/-- `slub_malloc`. -/
def slubMalloc (s : State) (cpu size answer : Nat) : Outcome (Nat × State × Option Range) :=
  if size > kmallocMaxCacheSize then .ok (kmallocLarge s size answer)
  else kmalloc s cpu size answer

/-! ## Initialisation -/

/-- `new_kmalloc_cache` for each index that `create_kmalloc_caches` names;
the others stay zero. -/
def createKmallocCaches (idx : Nat) : Cache :=
  if (1 ≤ idx ∧ idx ≤ 12) ∨ idx = largeIdx ∨ idx = largeNext then ⟨idx, kmallocInfoSize idx, 0⟩
  else ⟨0, 0, 0⟩

/-- `init_slub_bp` and `init_slub_ap` on every CPU. -/
def initSlub (cpus : Nat) (mem : Nat → Nat) : State where
  cpus := cpus
  cache _ idx := createKmallocCaches idx
  pageBits _ := 0
  mem := mem

/-! ## Field lemmas -/

theorem State.setHead_cache (s : State) (cpu idx p cpu' idx' : Nat) :
    (s.setHead cpu idx p).cache cpu' idx' =
      if cpu' = cpu ∧ idx' = idx then { s.cache cpu idx with freehead := p }
      else s.cache cpu' idx' := by
  by_cases hc : cpu' = cpu
  · subst hc
    by_cases hi : idx' = idx
    · subst hi
      simp [State.setHead]
    · simp [State.setHead, hi]
  · simp [State.setHead, hc]

@[simp] theorem State.mark_cache (s : State) (offset idx : Nat) :
    (s.mark offset idx).cache = s.cache := rfl

@[simp] theorem State.mark_mem (s : State) (offset idx : Nat) :
    (s.mark offset idx).mem = s.mem := rfl

@[simp] theorem State.mark_cpus (s : State) (offset idx : Nat) :
    (s.mark offset idx).cpus = s.cpus := rfl

@[simp] theorem markNext_cache (n : Nat) (s : State) (offset : Nat) :
    (markNext n s offset).cache = s.cache := by
  induction n generalizing s offset with
  | zero => rfl
  | succ n ih => rw [markNext, ih, State.mark_cache]

@[simp] theorem markNext_mem (n : Nat) (s : State) (offset : Nat) :
    (markNext n s offset).mem = s.mem := by
  induction n generalizing s offset with
  | zero => rfl
  | succ n ih => rw [markNext, ih, State.mark_mem]

@[simp] theorem markNext_cpus (n : Nat) (s : State) (offset : Nat) :
    (markNext n s offset).cpus = s.cpus := by
  induction n generalizing s offset with
  | zero => rfl
  | succ n ih => rw [markNext, ih, State.mark_cpus]

end Yaos.Slub
