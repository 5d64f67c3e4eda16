import Yaos.Kheap.Model

/-!
# The processors (`arch/x86_64/acpi.c`, `arch/x86_64/pm64.c`)

`acpi_config_smp` walks the MADT and calls `init_cpu` for every enabled
local APIC, which makes a per-CPU area and puts it into the next free slot
of `cpu_base`. `bootup_aps` starts the other processors one by one; each
finds its own area in `bootup_cpu_ap` and sets the `status` in it, for
which `bootup_aps` waits.

Of a per-CPU area only `the_cpu` is kept, as a record at the area's base
address. A null pointer in `cpu_base` is `none`; `base_to_cpu` makes of it
an address in low memory that is no per-CPU area.
-/

namespace Yaos.Smp

open Yaos.Lib

/-- `MAX_CPUS`, the size of `cpu_base`. -/
def maxCpus : Nat := 1024

/-- `CPU_RUNNING`. -/
def cpuRunning : Nat := 1

/-- `IO2V`. -/
def io2v (addr : Nat) : Nat := (addr + 0xfffffff800000000) % 2 ^ 64

/-- `struct cpu`; `apicId` is a field of its `arch_cpu`. -/
structure Cpu where
  percpuBase : Nat
  apicId : Nat
  cpu : Nat
  status : Nat

/-- The processors; `image` is `the_cpu` in `__per_cpu_load`, of which every
area is a copy. -/
structure State where
  heap : Kheap.State
  image : Cpu
  nrCpu : Nat
  cpuBase : Nat → Option Nat
  cpu : Nat → Cpu
  ismp : Bool
  lapicBase : Nat
  ioapicid : Nat

/-! ## The MADT -/

/-- `struct acpi_madt`: the length in its header, the physical address of
the local APIC and the bytes from `table` on. -/
structure Madt where
  length : Nat
  lapicAddrPhys : Nat
  table : Nat → UInt8

/-- `sizeof(struct acpi_madt)`. -/
def Madt.header : Nat := 44

/-- `e - madt->table`. -/
def Madt.size (m : Madt) : Nat := m.length - Madt.header

def Madt.u8 (m : Madt) (p : Nat) : Nat := (m.table p).toNat

/-- A `uint32` of the table. -/
def Madt.u32 (m : Madt) (p : Nat) : Nat :=
  m.u8 p + 2 ^ 8 * m.u8 (p + 1) + 2 ^ 16 * m.u8 (p + 2) + 2 ^ 24 * m.u8 (p + 3)

/-- The enabled local APIC that an entry at `p` of `len` bytes describes. -/
def Madt.lapic (m : Madt) (p len : Nat) : Option Nat :=
  if len < 8 then none
  else if m.u32 (p + 4) % 2 = 0 then none
  else some (m.u8 (p + 3))

/-- `init_cpu`, with the size of a per-CPU area. A failure of `new_percpu`
is noticed after the area has been filled. -/
def initCpu (fuel size : Nat) (s : State) (apicid : Nat) : Outcome State := do
  let (block, heap) ← Kheap.kalloc fuel s.heap size
  let ptr := block.getD 0
  if maxCpus < apicid ∨ ptr = 0 then .error .panic
  else if maxCpus ≤ s.nrCpu then .error .fault
  else .ok { s with
    heap := heap
    cpuBase := Function.update s.cpuBase s.nrCpu (some ptr)
    cpu := Function.update s.cpu ptr
      { s.image with percpuBase := ptr, apicId := apicid, cpu := s.nrCpu }
    nrCpu := s.nrCpu + 1 }

/-- One entry of the table; `nioapic` counts the I/O APICs. -/
def entry (fuel size : Nat) (m : Madt) (p len : Nat) (nioapic : Nat) (s : State) :
    Outcome (Nat × State) :=
  match m.u8 p with
  | 0 =>
      match m.lapic p len with
      | none => .ok (nioapic, s)
      | some apicid => do
          let s ← initCpu fuel size s apicid
          .ok (nioapic, s)
  | 1 =>
      if len < 12 then .ok (nioapic, s)
      else if nioapic = 0 then .ok (nioapic + 1, { s with ioapicid := m.u8 (p + 2) })
      else .ok (nioapic + 1, s)
  | _ => .ok (nioapic, s)

/-- The loop of `acpi_config_smp`; an entry of no bytes is read for ever. -/
def scan (fuel size : Nat) (m : Madt) : Nat → Nat → Nat → State → Outcome State
  | 0, _, _, _ => .error .spin
  | n + 1, p, nioapic, s =>
      if p < m.size then
        if m.size - p < 2 then .ok s
        else
          let len := m.u8 (p + 1)
          if m.size - p < len then .ok s
          else do
            let (nioapic, s) ← entry fuel size m p len nioapic s
            scan fuel size m n (p + len) nioapic s
      else .ok s

/-- `acpi_config_smp`. -/
def acpiConfigSmp (fuel size : Nat) (s : State) (madt : Option Madt) : Outcome (Int × State) :=
  match madt with
  | none => .ok (-1, s)
  | some m =>
      if m.length < Madt.header then .ok (-1, s)
      else do
        let s ← scan fuel size m fuel 0 0 s
        if s.nrCpu = 0 then .ok (-1, s)
        else .ok (0, { s with ismp := true, lapicBase := io2v m.lapicAddrPhys })

/-! ## Starting the processors -/

/-- Write the `status` of an area. -/
def State.setStatus (s : State) (base status : Nat) : State :=
  { s with cpu := Function.update s.cpu base { s.cpu base with status := status } }

/-- `bootup_cpu`. -/
def bootupCpu (s : State) (base : Nat) : Outcome State := do
  check ((s.cpu base).percpuBase ≠ 0)
  .ok (s.setStatus base cpuRunning)

/-- `bootup_cpu_ap`, on the processor with this APIC id. -/
def bootupCpuAp (s : State) (apicid : Nat) : Outcome State :=
  match s.cpuBase apicid with
  | none => .error .fault
  | some base => bootupCpu s base

/-- The loop body of `bootup_aps`, on the processor with APIC id `own`:
`lapic_start_ap` makes the processor run `bootup_cpu_ap`. -/
def startAp (own : Nat) (s : State) (i : Nat) : Outcome State :=
  match s.cpuBase i with
  | none => .error .fault
  | some p =>
      if (s.cpu p).apicId = own then .ok s
      else do
        let s ← bootupCpuAp (s.setStatus p 0) (s.cpu p).apicId
        -- `while (p->status == 0) ;`
        if (s.cpu p).status = 0 then .error .spin else .ok s

/-- `bootup_aps`. -/
def bootupAps (own : Nat) (s : State) : Outcome State :=
  (List.range s.nrCpu).foldlM (startAp own) s

end Yaos.Smp
