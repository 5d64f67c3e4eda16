import Yaos.Errno
import Yaos.Kheap.History
import Yaos.Kthread.Model

/-!
# The stacks of per-CPU threads (`kernel/smp.c`, `kernel/kthread.c`)

`smp_create_thread` takes a stack of less than a 2M page from the 4K heap.
It stores the end of the block in `stack_addr`, while
`thread_switch_first` takes `stack_addr` for the beginning, as
`alloc_vm_stack` returns it. So the stack lies behind its block, and inside
it only where the rounding to 4K leaves as much again.

The answer of `alloc_vm_stack` is an argument.
-/

namespace Yaos.Smp

open Yaos.Lib
open Yaos.Phymem (pageSize)

/-- `THREAD_PERCPU`. -/
def threadPercpu : BitVec 32 := 1#32

/-- `struct smp_percpu_thread`. -/
structure PercpuThread where
  stackSize : Nat
  lvl : Nat

/-- `struct thread_struct`, with the fields that only creation sets. -/
structure Thread extends Kthread.Thread Nat where
  stackAddr : Nat
  stackSize : Nat
  onCpu : Nat
  realParent : Nat

/-- A `thread_struct` of zeros. -/
def zeroThread : Thread := ⟨⟨none, 0, 0#32, .init, none⟩, 0, 0, 0, 0⟩

/-- `create_thread_oncpu`. -/
def createThreadOncpu (answer : Nat) (p : Thread) (oncpu : Nat) : Int × Thread :=
  if p.stackAddr = 0 then
    if answer = 0 then (enomem, p)
    else (0, { p with stackAddr := answer, state := .ready, onCpu := oncpu })
  else (0, { p with state := .ready, onCpu := oncpu })

/-- What `smp_create_thread` does with the stack: its result and the thread,
before `resume_thread`. -/
def smpCreateThread (fuel : Nat) (heap : Kheap.State) (old : Thread) (ht : PercpuThread)
    (cpu current answer : Nat) : Outcome (Int × Thread × Kheap.State) :=
  let p := { old with stackAddr := 0, stackSize := ht.stackSize, flag := threadPercpu }
  if p.stackSize < pageSize then do
    let (block, heap) ← Kheap.allocKheap4k fuel heap p.stackSize
    let addr := block.getD 0
    if addr = 0 then .ok (enomem, p, heap)
    else .ok (finish { p with stackAddr := (addr + p.stackSize) % 2 ^ 64 } heap)
  else .ok (finish p heap)
where
  finish (p : Thread) (heap : Kheap.State) : Int × Thread × Kheap.State :=
    let (ret, p) := createThreadOncpu answer p cpu
    if ret ≠ 0 then (ret, p, heap)
    else (0, { p with realParent := current, lvl := ht.lvl }, heap)

/-- The stack pointer that `thread_switch_first` loads. -/
def threadSwitchFirst (max : Nat) (mapped : Nat → Bool) (p : Thread) : Outcome Nat := do
  let stackPoint := (p.stackAddr + p.stackSize + (2 ^ 64 - 8)) % 2 ^ 64
  check (stackPoint ≠ 0)
  check (stackPoint < max || mapped stackPoint)
  .ok stackPoint

/-! ## Runs -/

/-- A thread that runs: its request, the block that `alloc_kheap_4k`
returned for it, and the stack that ends 8 bytes above its first stack
pointer. -/
structure Created where
  ht : PercpuThread
  block : Range
  stack : Range

/-- The heap, the live blocks and the threads. -/
structure World extends Kheap.World where
  threads : List Created

inductive Op where
  | heap (c : Kheap.Call)
  | create (ht : PercpuThread) (cpu : Nat)

/-- One step: a heap call that does not give up a thread's block, or a
thread that is created and started on its stack, or for which there is no
memory. The heap lies 4M below the end of the address space at least. -/
def Step (w : World) (op : Op) (w' : World) : Prop :=
  match op with
  | .heap c => Kheap.Step w.toWorld c w'.toWorld ∧ w'.threads = w.threads ∧
      ∀ r, c.op = .release r → ∀ th ∈ w.threads, th.block ≠ r
  | .create ht cpu => ht.stackSize < pageSize ∧
      ∃ fuel old current answer code p block,
        Kheap.allocKheap4k fuel w.heap ht.stackSize = .ok (block, w'.heap) ∧
        smpCreateThread fuel w.heap old ht cpu current answer = .ok (code, p, w'.heap) ∧
        (code ≠ 0 ∧ w'.live = w.live ∧ w'.threads = w.threads ∨
          ∃ addr max mapped sp, code = 0 ∧ block = some addr ∧ addr + 2 * pageSize ≤ 2 ^ 64 ∧
            threadSwitchFirst max mapped p = .ok sp ∧
            w'.live = ⟨addr, Kheap.round4k ht.stackSize⟩ :: w.live ∧
            w'.threads = ⟨ht, ⟨addr, Kheap.round4k ht.stackSize⟩,
              ⟨sp + 8 - ht.stackSize, ht.stackSize⟩⟩ :: w.threads)

def Created.Inside (th : Created) : Prop := ∀ b ∈ th.stack, b ∈ th.block

/-- The stacks do not overlap each other or any other live block. -/
def World.StacksApart (w : World) : Prop :=
  (w.threads.map Created.stack).Pairwise Range.Apart ∧
    ∃ rest, w.live.Perm (w.threads.map Created.block ++ rest) ∧
      ∀ th ∈ w.threads, ∀ r ∈ rest, th.stack.Apart r

/-- The invariant: the blocks of threads are live, and the stack begins
where the request for the block ends. -/
structure Inv (w : World) : Prop where
  heap : ∃ L M, Kheap.Inv w.heap w.live L M
  live : ∃ rest, w.live.Perm (w.threads.map Created.block ++ rest)
  stack : ∀ th ∈ w.threads, th.stack = ⟨th.block.addr + th.ht.stackSize, th.ht.stackSize⟩
  block : ∀ th ∈ w.threads, th.block.size = Kheap.round4k th.ht.stackSize ∧
    th.ht.stackSize < pageSize

/-! ## Creation -/

section Creation

variable {fuel cpu current answer addr : Nat} {heap heap' : Kheap.State} {old p : Thread}
  {ht : PercpuThread}

/-- A thread with a block from the heap gets the end of the request as its
`stack_addr`. -/
theorem smpCreateThread_eq (hsize : ht.stackSize < pageSize)
    (haddr : addr + 2 * pageSize ≤ 2 ^ 64) (hne : addr ≠ 0)
    (hblock : Kheap.allocKheap4k fuel heap ht.stackSize = .ok (some addr, heap')) :
    smpCreateThread fuel heap old ht cpu current answer = .ok (0, { old with
      stackAddr := addr + ht.stackSize, stackSize := ht.stackSize, flag := threadPercpu
      lvl := ht.lvl, state := .ready, onCpu := cpu, realParent := current }, heap') := by
  have hwrap : (addr + ht.stackSize) % 2 ^ 64 = addr + ht.stackSize := by
    refine Nat.mod_eq_of_lt ?_
    simp only [pageSize] at hsize haddr
    omega
  have hpos : addr + ht.stackSize ≠ 0 := by omega
  rw [smpCreateThread]
  dsimp only
  rw [if_pos hsize, hblock, ok_bind]
  dsimp only [Option.getD_some]
  rw [if_neg hne, hwrap, smpCreateThread.finish, createThreadOncpu]
  dsimp only
  rw [if_neg hpos]
  rfl

theorem smpCreateThread_block (hsize : ht.stackSize < pageSize)
    (haddr : addr + 2 * pageSize ≤ 2 ^ 64)
    (hblock : Kheap.allocKheap4k fuel heap ht.stackSize = .ok (some addr, heap'))
    (h : smpCreateThread fuel heap old ht cpu current answer = .ok (0, p, heap')) :
    addr ≠ 0 ∧ p.stackAddr = addr + ht.stackSize ∧ p.stackSize = ht.stackSize := by
  by_cases hne : addr = 0
  · unfold smpCreateThread at h
    dsimp only at h
    rw [if_pos hsize, hblock, ok_bind] at h
    dsimp only [Option.getD_some] at h
    rw [if_pos hne] at h
    cases h
  · cases (smpCreateThread_eq hsize haddr hne hblock).symm.trans h
    exact ⟨hne, rfl, rfl⟩

theorem threadSwitchFirst_eq {max sp : Nat} {mapped : Nat → Bool}
    (h : threadSwitchFirst max mapped p = .ok sp) :
    sp = (p.stackAddr + p.stackSize + (2 ^ 64 - 8)) % 2 ^ 64 := by
  obtain ⟨_, _, h⟩ := bind_eq_ok.mp h
  obtain ⟨_, _, h⟩ := bind_eq_ok.mp h
  exact (Except.ok.inj h).symm

theorem threadSwitchFirst_ok {max sp : Nat} {mapped : Nat → Bool}
    (hsp : p.stackAddr + p.stackSize = sp + 8) (hne : sp ≠ 0) (hmax : sp < max)
    (hw : sp < 2 ^ 64) : threadSwitchFirst max mapped p = .ok sp := by
  have heq : (p.stackAddr + p.stackSize + (2 ^ 64 - 8)) % 2 ^ 64 = sp := by omega
  rw [threadSwitchFirst, heq, decide_eq_true hne, decide_eq_true hmax]
  rfl

theorem stack_eq {max sp : Nat} {mapped : Nat → Bool} (hsize : ht.stackSize < pageSize)
    (haddr : addr + 2 * pageSize ≤ 2 ^ 64) (halign : addr % 0x1000 = 0)
    (hblock : Kheap.allocKheap4k fuel heap ht.stackSize = .ok (some addr, heap'))
    (h : smpCreateThread fuel heap old ht cpu current answer = .ok (0, p, heap'))
    (hsp : threadSwitchFirst max mapped p = .ok sp) :
    sp + 8 - ht.stackSize = addr + ht.stackSize := by
  obtain ⟨hne, hstack, hlen⟩ := smpCreateThread_block hsize haddr hblock h
  have hsp := threadSwitchFirst_eq hsp
  rw [hstack, hlen] at hsp
  simp only [pageSize] at hsize haddr
  omega

theorem Lowest.aligned {s : Kheap.State} {live L M : List Range} {n a : Nat}
    (hi : Kheap.Inv s live L M) (h : Kheap.Lowest s L n a) : a % 0x1000 = 0 := by
  rcases h with ⟨⟨q, hq, -, rfl⟩, -⟩ | ⟨-, -, i, -, rfl⟩
  · exact (hi.whole q hq).2.1
  · rw [pageSize]
    omega

end Creation

/-! ## Steps -/

theorem Inv.heapCall {w w' : World} {c : Kheap.Call} (hi : Inv w)
    (h : Kheap.Step w.toWorld c w'.toWorld) (hth : w'.threads = w.threads)
    (hrel : ∀ r, c.op = .release r → ∀ th ∈ w.threads, th.block ≠ r) : Inv w' := by
  obtain ⟨rest, hrest⟩ := hi.live
  refine ⟨(Kheap.Inv.step hi.heap h).1, ?_, hth ▸ hi.stack, hth ▸ hi.block⟩
  rw [hth]
  have hhand : ∀ n p, w'.live = Kheap.hand n p w.live →
      ∃ rest, w'.live.Perm (w.threads.map Created.block ++ rest) := by
    intro n p hlive
    rw [hlive]
    cases p with
    | none => exact ⟨rest, hrest⟩
    | some a => exact ⟨⟨a, n⟩ :: rest, (hrest.cons _).trans List.perm_middle.symm⟩
  obtain ⟨op, result⟩ := c
  cases op with
  | free4k addr size => exact ⟨rest, by rw [h.2.2.2.2.2.2]; exact hrest⟩
  | alloc4k size => exact hhand _ _ h.2.2
  | allocSmall size => exact hhand _ _ h.2
  | kalloc size => exact hhand _ _ h.2.2
  | release r =>
    have hnot : r ∉ w.threads.map Created.block := by
      intro hr
      obtain ⟨th, hth, heq⟩ := List.mem_map.mp hr
      exact hrel r rfl th hth heq
    refine ⟨rest.erase r, ?_⟩
    rw [h.2.2.2, ← List.erase_append_right _ hnot]
    exact hrest.erase r

theorem Inv.create {w w' : World} {ht : PercpuThread} {cpu : Nat} (hi : Inv w)
    (h : Step w (.create ht cpu) w') : Inv w' := by
  obtain ⟨hsize, fuel, old, current, answer, code, p, block, hblock, hcreate, hcase⟩ := h
  obtain ⟨L, M, hheap⟩ := hi.heap
  obtain ⟨rest, hrest⟩ := hi.live
  obtain ⟨⟨L', hheap'⟩, hlow⟩ := hheap.alloc4k hblock
  rcases hcase with ⟨-, hlive, hth⟩ | ⟨addr, max, mapped, sp, rfl, rfl, haddr, hsp, hlive, hth⟩
  · have hold : ∀ b, cover w'.live b ≤
        cover (Kheap.hand (Kheap.round4k ht.stackSize) block w.live) b := by
      intro b
      rw [hlive]
      cases block with
      | none => exact Nat.le_refl _
      | some a =>
        rw [Kheap.hand, cover_cons]
        omega
    exact ⟨⟨L', M, hheap'.mono hold⟩, ⟨rest, by rw [hth, hlive]; exact hrest⟩,
      hth ▸ hi.stack, hth ▸ hi.block⟩
  · have hstack := stack_eq hsize haddr (Lowest.aligned hheap (hlow addr rfl)) hblock hcreate hsp
    refine ⟨⟨L', M, hlive ▸ hheap'⟩, ⟨rest, ?_⟩, ?_, ?_⟩
    · rw [hlive, hth]
      exact hrest.cons _
    · rw [hth]
      intro th hmem
      rcases List.mem_cons.mp hmem with rfl | hmem
      · rw [hstack]
      · exact hi.stack th hmem
    · rw [hth]
      intro th hmem
      rcases List.mem_cons.mp hmem with rfl | hmem
      · exact ⟨rfl, hsize⟩
      · exact hi.block th hmem

theorem Inv.step {w w' : World} {op : Op} (hi : Inv w) (h : Step w op w') : Inv w' := by
  cases op with
  | heap c => exact hi.heapCall h.1 h.2.1 h.2.2
  | create ht cpu => exact hi.create h

/-! ## The stacks -/

/-- A block has room for the request twice only if it is half a page at
most. -/
theorem two_mul_le_round4k {n : Nat} (h : n < pageSize) :
    2 * n ≤ Kheap.round4k n ↔ n ≤ 2048 := by
  simp only [pageSize] at h
  rw [Kheap.round4k]
  split <;> omega

theorem Inv.inside_iff {w : World} (hi : Inv w) {th : Created} (hth : th ∈ w.threads) :
    th.Inside ↔ th.ht.stackSize ≤ 2048 := by
  obtain ⟨hblock, hsize⟩ := hi.block th hth
  rw [← two_mul_le_round4k hsize, Created.Inside, hi.stack th hth, ← hblock]
  simp only [Range.mem_def]
  constructor
  · intro h
    by_cases h0 : th.ht.stackSize = 0
    · omega
    · have := h (th.block.addr + th.ht.stackSize + th.ht.stackSize - 1) (by omega)
      omega
  · intro h b hb
    omega

theorem Inv.stacksApart {w : World} (hi : Inv w) (h : ∀ th ∈ w.threads, th.Inside) :
    w.StacksApart := by
  obtain ⟨L, M, hheap⟩ := hi.heap
  obtain ⟨rest, hrest⟩ := hi.live
  have hlive : (w.threads.map Created.block ++ rest).Pairwise Range.Apart := by
    refine pairwise_apart_iff.mpr fun b => ?_
    have honce := hheap.once b
    have hcover := cover_perm hrest b
    omega
  obtain ⟨hblocks, -, hother⟩ := List.pairwise_append.mp hlive
  refine ⟨?_, rest, hrest, fun th hth r hr => ?_⟩
  · rw [List.pairwise_map] at hblocks ⊢
    refine hblocks.imp_of_mem fun {th th'} hth hth' hap b hb hb' => ?_
    exact hap b (h th hth b hb) (h th' hth' b hb')
  · exact fun b hb => hother th.block (List.mem_map_of_mem hth) r hr b (h th hth b hb)

/-- **A thread's stack lies in its block** exactly if it has 2048 bytes at
most; if all have, no stack overlaps another or any other live block. -/
theorem stacks_inside_iff {phys : Phymem.State} {tr : List (Taken World Op)} {w : World}
    (hphys : Phymem.Inv phys) (h : Trace Step ⟨⟨Kheap.initKheap phys, []⟩, []⟩ tr w) :
    (∀ th ∈ w.threads, th.Inside ↔ th.ht.stackSize ≤ 2048) ∧
      ((∀ th ∈ w.threads, th.ht.stackSize ≤ 2048) → w.StacksApart) := by
  have hi : Inv w := (h.always Inv (fun hi hs => hi.step hs)
    ⟨⟨[], [], Kheap.inv_initKheap hphys⟩, ⟨[], List.Perm.refl _⟩, by simp, by simp⟩).1
  exact ⟨fun th hth => hi.inside_iff hth, fun hall =>
    hi.stacksApart fun th hth => (hi.inside_iff hth).mpr (hall th hth)⟩

theorem give_six_pages : ∃ heap, Step ⟨⟨Kheap.initKheap (Phymem.initPhyMem 0), []⟩, []⟩
    (.heap ⟨.free4k 0x100000 0x6000, none⟩) ⟨⟨heap, []⟩, []⟩ ∧
      Kheap.freeKheap4k (Kheap.initKheap (Phymem.initPhyMem 0)) 0x100000 0x6000 = .ok heap := by
  have huntouched : Kheap.World.Untouched ⟨Kheap.initKheap (Phymem.initPhyMem 0), []⟩
      ⟨0x100000, 0x6000⟩ :=
    ⟨[], [], Holes.reps_init (by decide), Holes.reps_init (by decide), by simp, fun i hi => by
      rw [show (Kheap.initKheap (Phymem.initPhyMem 0)).phys.bit i = false from
        Phymem.initPhyMem_bit 0 i] at hi
      cases hi⟩
  exact ⟨_, ⟨⟨rfl, rfl, by decide, huntouched, rfl, rfl, rfl⟩, rfl, by simp⟩, rfl⟩

/-- A thread with a stack of 1K. -/
theorem stacks_inside_1k : ∃ tr w,
    Trace Step ⟨⟨Kheap.initKheap (Phymem.initPhyMem 0), []⟩, []⟩ tr w ∧
      w.threads = [⟨⟨1024, 128⟩, ⟨0x100000, 0x1000⟩, ⟨0x100400, 1024⟩⟩] ∧ w.StacksApart := by
  obtain ⟨heap, hstep, hheap⟩ := give_six_pages
  cases hheap
  have htr : Trace Step ⟨⟨Kheap.initKheap (Phymem.initPhyMem 0), []⟩, []⟩ _
      ⟨⟨_, [⟨0x100000, 0x1000⟩]⟩, [⟨⟨1024, 128⟩, ⟨0x100000, 0x1000⟩, ⟨0x100400, 1024⟩⟩]⟩ :=
    .step hstep (.step (a := Op.create ⟨1024, 128⟩ 0) ⟨by decide, 9,
      zeroThread, 0, 0, 0, _, _, rfl,
      smpCreateThread_eq (by decide) (by decide) (by decide) rfl,
      .inr ⟨0x100000, 0x80000000, fun _ => false, 0x1007f8, rfl, rfl, by decide,
        threadSwitchFirst_ok rfl (by decide) (by decide) (by decide), rfl, rfl⟩⟩
      (.done _))
  exact ⟨_, _, htr, rfl, (stacks_inside_iff (Phymem.inv_init 0) htr).2 (by simp)⟩

/-- The tasklet thread with its `TASKLET_STACK_SIZE` of 0x2000: the next
block of the heap is part of its stack. -/
theorem stacks_inside_tasklet : ∃ tr w th r,
    Trace Step ⟨⟨Kheap.initKheap (Phymem.initPhyMem 0), []⟩, []⟩ tr w ∧
      w.threads = [th] ∧ w.live = [r, th.block] ∧ ¬ th.Inside ∧ ¬ th.stack.Apart r := by
  obtain ⟨heap, hstep, hheap⟩ := give_six_pages
  cases hheap
  have htr : Trace Step ⟨⟨Kheap.initKheap (Phymem.initPhyMem 0), []⟩, []⟩ _
      ⟨⟨_, [⟨0x102000, 0x1000⟩, ⟨0x100000, 0x2000⟩]⟩,
        [⟨⟨0x2000, 128⟩, ⟨0x100000, 0x2000⟩, ⟨0x102000, 0x2000⟩⟩]⟩ :=
    .step hstep (.step (a := Op.create ⟨0x2000, 128⟩ 0) (t := ⟨⟨_, [⟨0x100000, 0x2000⟩]⟩,
        [⟨⟨0x2000, 128⟩, ⟨0x100000, 0x2000⟩, ⟨0x102000, 0x2000⟩⟩]⟩) ⟨by decide, 9,
      zeroThread, 0, 0, 0, _, _, rfl,
      smpCreateThread_eq (by decide) (by decide) (by decide) rfl,
      .inr ⟨0x100000, 0x80000000, fun _ => false, 0x103ff8, rfl, rfl, by decide,
        threadSwitchFirst_ok rfl (by decide) (by decide) (by decide), rfl, rfl⟩⟩
      (.step (a := Op.heap ⟨.alloc4k 0x1000, some 0x102000⟩)
        (t := ⟨⟨_, [⟨0x102000, 0x1000⟩, ⟨0x100000, 0x2000⟩]⟩,
          [⟨⟨0x2000, 128⟩, ⟨0x100000, 0x2000⟩, ⟨0x102000, 0x2000⟩⟩]⟩)
        ⟨⟨by decide, ⟨9, rfl⟩, rfl⟩, rfl, by simp⟩ (.done _)))
  refine ⟨_, _, _, _, htr, rfl, rfl, fun h => ?_, fun h => ?_⟩
  · exact absurd (h 0x102000 (by simp [Range.mem_def])) (by simp [Range.mem_def])
  · exact absurd (h 0x102000 (by simp [Range.mem_def])) (by simp [Range.mem_def])

end Yaos.Smp
