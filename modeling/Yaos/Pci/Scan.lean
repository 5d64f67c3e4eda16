import Mathlib.Algebra.Group.Nat.Defs
import Yaos.Lib.Outcome

/-!
# The PCI scan (`arch/x86_64/pci.c`)

`init_pci` reads the ids of the functions it finds into the table `pci_bsf`, and
`find_pci` looks a device up there. There are 256 buses with 32 slots of 8
functions; the loops of `init_pci` end one before the last of each. The table
has `MAX_PCI` entries, and nothing keeps the scan from writing behind it.

A function is read through two ports: its address goes to one, the word comes
from the other. What the host bridge does with them is in `Topology.word`.
-/

namespace Yaos.Pci

open Yaos.Lib

/-! ## The machine -/

/-- The words of the configuration space of a function. One without a vendor
id is not there. -/
structure Function where
  word : Nat → UInt16
  present : word 0 ≠ 0xffff

def Function.vid (fn : Function) : UInt16 := fn.word 0

def Function.did (fn : Function) : UInt16 := fn.word 2

/-- The functions at a bus, slot and number. -/
abbrev Topology := Nat → Nat → Nat → Option Function

/-- `PCI_CONFIG_ADDRESS_ENABLE`. -/
def configAddressEnable : Nat := 0x80000000

/-- `PCI_CONFIG_DATA`. -/
def configData : Nat := 0xcfc

/-- The word at a data port, with this value in the address port. -/
def Topology.word (top : Topology) (address port : Nat) : UInt16 :=
  if address / 2 ^ 31 % 2 = 0 then 0xffff
  else
    match top (address / 2 ^ 16 % 2 ^ 8) (address / 2 ^ 11 % 2 ^ 5) (address / 2 ^ 8 % 2 ^ 3) with
    | none => 0xffff
    | some fn => fn.word (address % 2 ^ 8 / 4 * 4 + (port - configData))

/-! ## `asm/pci.h` -/

/-- `build_config_address`. -/
def buildConfigAddress (bus slot func offset : Nat) : Nat :=
  bus <<< 16 ||| slot <<< 11 ||| func <<< 8 ||| offset / 4 * 4

/-- `read_pci_config_word`. -/
def readPciConfigWord (top : Topology) (bus slot func offset : Nat) : UInt16 :=
  top.word (configAddressEnable ||| buildConfigAddress bus slot func offset) (configData + offset / 2 % 2 * 2)

/-! ## `pci.c` -/

/-- `MAX_PCI`. -/
def maxPci : Nat := 128

/-- `struct pci_bsf`. -/
structure Bsf where
  vid : UInt16
  did : UInt16
  b : Nat
  s : Nat
  f : Nat

/-- The body of the innermost loop, with the first `nr_pci` entries of `pci_bsf`. -/
def probe (top : Topology) (b s : Nat) (bsf : List Bsf) (f : Nat) : Outcome (List Bsf) :=
  let vid := readPciConfigWord top b s f 0
  let did := readPciConfigWord top b s f 2
  if vid ≠ 0xffff then
    if bsf.length < maxPci then .ok (bsf ++ [⟨vid, did, b, s, f⟩]) else .error .fault
  else .ok bsf

/-- `init_pci`. -/
def initPci (top : Topology) : Outcome (List Bsf) :=
  (List.range 255).foldlM (fun bsf b =>
    (List.range 31).foldlM (fun bsf s => (List.range 7).foldlM (probe top b s) bsf) bsf) []

/-- What `find_pci` reads and writes of a `struct pci_device`. -/
structure Device where
  vendorId : UInt16
  deviceId : UInt16
  bus : Nat
  device : Nat
  func : Nat

/-- `find_pci`. -/
def findPci : List Bsf → Device → Bool × Device
  | [], pci => (false, pci)
  | e :: bsf, pci =>
      if e.vid = pci.vendorId ∧ e.did = pci.deviceId then
        (true, { pci with bus := e.b, device := e.s, func := e.f })
      else findPci bsf pci

/-! ## Reading -/

variable {top : Topology} {b s f : Nat} {e : Bsf} {bsf : List Bsf} {vid did : UInt16}

theorem buildConfigAddress_eq {offset : Nat} (hs : s < 32) (hf : f < 8) (ho : offset < 4) :
    buildConfigAddress b s f offset = 2 ^ 16 * b + 2 ^ 11 * s + 2 ^ 8 * f := by
  have hslot : 2 ^ 16 * b ||| 2 ^ 11 * s = 2 ^ 16 * b + 2 ^ 11 * s :=
    (Nat.two_pow_add_eq_or_of_lt (by omega) b).symm
  have hfunc : 2 ^ 11 * (2 ^ 5 * b + s) ||| 2 ^ 8 * f = 2 ^ 11 * (2 ^ 5 * b + s) + 2 ^ 8 * f :=
    (Nat.two_pow_add_eq_or_of_lt (by omega) _).symm
  have hdir : 2 ^ 16 * b + 2 ^ 11 * s = 2 ^ 11 * (2 ^ 5 * b + s) := by omega
  rw [buildConfigAddress, Nat.shiftLeft_eq, Nat.shiftLeft_eq, Nat.shiftLeft_eq, Nat.mul_comm b,
    Nat.mul_comm s, Nat.mul_comm f, hslot, hdir, hfunc, show offset / 4 * 4 = 0 by omega, Nat.or_zero]

theorem readPciConfigWord_eq {offset : Nat} (hb : b < 256) (hs : s < 32) (hf : f < 8)
    (ho : offset = 0 ∨ offset = 2) :
    readPciConfigWord top b s f offset = (top b s f).elim 0xffff (·.word offset) := by
  have haddr : configAddressEnable ||| buildConfigAddress b s f offset =
      2 ^ 31 + (2 ^ 16 * b + 2 ^ 11 * s + 2 ^ 8 * f) := by
    rw [buildConfigAddress_eq hs hf (by omega)]
    have hor := Nat.two_pow_add_eq_or_of_lt
      (show 2 ^ 16 * b + 2 ^ 11 * s + 2 ^ 8 * f < 2 ^ 31 by omega) 1
    exact hor.symm
  have hport : configData + offset / 2 % 2 * 2 - configData = offset := by omega
  rw [readPciConfigWord, Topology.word, haddr, hport, if_neg (by omega)]
  generalize hA : 2 ^ 31 + (2 ^ 16 * b + 2 ^ 11 * s + 2 ^ 8 * f) = A
  rw [show A / 2 ^ 16 % 2 ^ 8 = b by omega, show A / 2 ^ 11 % 2 ^ 5 = s by omega,
    show A / 2 ^ 8 % 2 ^ 3 = f by omega, show A % 2 ^ 8 / 4 * 4 + offset = offset by omega]
  cases top b s f with
  | none => rfl
  | some fn => rfl

/-! ## The table -/

def entry (top : Topology) (b s f : Nat) : List Bsf :=
  (top b s f).elim [] fun fn => [⟨fn.vid, fn.did, b, s, f⟩]

/-- The entries for the functions that the loops reach. -/
def scanned (top : Topology) : List Bsf :=
  (List.range 255).flatMap fun b => (List.range 31).flatMap fun s => (List.range 7).flatMap (entry top b s)

theorem probe_eq (hb : b < 256) (hs : s < 32) (hf : f < 8) (hbsf : bsf.length ≤ maxPci) :
    probe top b s bsf f = pushAll maxPci bsf (entry top b s f) := by
  rw [probe, readPciConfigWord_eq hb hs hf (.inl rfl), readPciConfigWord_eq hb hs hf (.inr rfl), entry,
    pushAll]
  cases top b s f with
  | none =>
    simp only [Option.elim_none, List.append_nil]
    rw [if_pos hbsf]
    exact if_neg fun hne => hne rfl
  | some fn =>
    refine (if_pos fn.present).trans ?_
    simp only [List.length_append]
    rfl

theorem initPci_eq (top : Topology) : initPci top = pushAll maxPci [] (scanned top) := by
  refine foldlM_pushAll (fun bsf b hb hbsf => ?_) (Nat.zero_le _)
  refine foldlM_pushAll (fun bsf s hs hbsf => ?_) hbsf
  refine foldlM_pushAll (fun bsf f hf hbsf => ?_) hbsf
  rw [List.mem_range] at hb hs hf
  exact probe_eq (by omega) (by omega) (by omega) hbsf

def Topology.HasIds (top : Topology) (vid did : UInt16) (b s f : Nat) : Prop :=
  b < 256 ∧ s < 32 ∧ f < 8 ∧ ∃ fn, top b s f = some fn ∧ fn.vid = vid ∧ fn.did = did

theorem mem_scanned : e ∈ scanned top ↔
    e.b < 255 ∧ e.s < 31 ∧ e.f < 7 ∧ top.HasIds e.vid e.did e.b e.s e.f := by
  simp only [scanned, List.mem_flatMap, List.mem_range, entry]
  constructor
  · rintro ⟨b, hb, s, hs, f, hf, he⟩
    cases hfn : top b s f with
    | none =>
      rw [hfn] at he
      cases he
    | some fn =>
      rw [hfn] at he
      cases List.mem_singleton.mp he
      exact ⟨hb, hs, hf, Nat.lt_succ_of_lt hb, Nat.lt_succ_of_lt hs, Nat.lt_succ_of_lt hf, fn, hfn, rfl,
        rfl⟩
  · rintro ⟨hb, hs, hf, -, -, -, fn, hfn, hvid, hdid⟩
    refine ⟨e.b, hb, e.s, hs, e.f, hf, ?_⟩
    rw [hfn, Option.elim_some, hvid, hdid]
    exact List.mem_singleton_self _

/-- What `find_pci` returns is the first entry with the ids. -/
theorem findPci_cases (bsf : List Bsf) (pci : Device) :
    (findPci bsf pci = (false, pci) ∧ ∀ e ∈ bsf, ¬ (e.vid = pci.vendorId ∧ e.did = pci.deviceId)) ∨
    ∃ e ∈ bsf, e.vid = pci.vendorId ∧ e.did = pci.deviceId ∧
      findPci bsf pci = (true, { pci with bus := e.b, device := e.s, func := e.f }) := by
  induction bsf with
  | nil => exact .inl ⟨rfl, by simp⟩
  | cons e bsf ih =>
    rw [findPci]
    split
    next hids => exact .inr ⟨e, List.mem_cons_self, hids.1, hids.2, rfl⟩
    next hids =>
      rcases ih with ⟨heq, hnone⟩ | ⟨e', hmem, hvid, hdid, heq⟩
      · exact .inl ⟨heq, List.forall_mem_cons.mpr ⟨hids, hnone⟩⟩
      · exact .inr ⟨e', List.mem_cons_of_mem e hmem, hvid, hdid, heq⟩

def Finds (top : Topology) (bsf : List Bsf) : Prop :=
  ∀ pci : Device, ((findPci bsf pci).1 = true ↔ ∃ b s f, top.HasIds pci.vendorId pci.deviceId b s f) ∧
    ((findPci bsf pci).1 = true → top.HasIds pci.vendorId pci.deviceId (findPci bsf pci).2.bus
      (findPci bsf pci).2.device (findPci bsf pci).2.func)

/-- The ids of every function are those of one that the loops reach. -/
def Reached (top : Topology) : Prop :=
  ∀ b s f vid did, top.HasIds vid did b s f →
    ∃ b' s' f', b' < 255 ∧ s' < 31 ∧ f' < 7 ∧ top.HasIds vid did b' s' f'

theorem finds_scanned_iff : Finds top (scanned top) ↔ Reached top := by
  constructor
  · intro hfinds b s f vid did hids
    have htrue := (hfinds ⟨vid, did, 0, 0, 0⟩).1.mpr ⟨b, s, f, hids⟩
    rcases findPci_cases (scanned top) ⟨vid, did, 0, 0, 0⟩ with ⟨heq, -⟩ | ⟨e, he, rfl, rfl, -⟩
    · rw [heq] at htrue
      cases htrue
    · obtain ⟨hb, hs, hf, hhas⟩ := mem_scanned.mp he
      exact ⟨e.b, e.s, e.f, hb, hs, hf, hhas⟩
  · intro hreach pci
    rcases findPci_cases (scanned top) pci with ⟨heq, hnone⟩ | ⟨e, he, hvid, hdid, heq⟩
    · rw [heq]
      refine ⟨iff_of_false (by simp) ?_, fun hbad => by cases hbad⟩
      rintro ⟨b, s, f, hids⟩
      obtain ⟨b', s', f', hb, hs, hf, hids'⟩ := hreach b s f _ _ hids
      exact hnone ⟨_, _, b', s', f'⟩ (mem_scanned.mpr ⟨hb, hs, hf, hids'⟩) ⟨rfl, rfl⟩
    · obtain ⟨-, -, -, hids⟩ := mem_scanned.mp he
      rw [hvid, hdid] at hids
      rw [heq]
      exact ⟨iff_of_true rfl ⟨e.b, e.s, e.f, hids⟩, fun _ => hids⟩

/-- **The scan finds what is there** exactly if the ids of all functions are to be
found where its loops come to, at no more than `MAX_PCI` functions. -/
theorem scan_finds_iff (top : Topology) : (∃ bsf, initPci top = .ok bsf ∧ Finds top bsf) ↔
    (scanned top).length ≤ maxPci ∧ Reached top := by
  rw [initPci_eq, pushAll, List.nil_append, ← finds_scanned_iff]
  constructor
  · rintro ⟨bsf, heq, hfinds⟩
    split at heq
    next hfits =>
      cases heq
      exact ⟨hfits, hfinds⟩
    next => cases heq
  · rintro ⟨hfits, hfinds⟩
    exact ⟨scanned top, if_pos hfits, hfinds⟩

/-- The LPC controller of a machine with an ICH9. -/
def lpc : Function := ⟨fun n => if n = 0 then 0x8086 else 0x2918, by decide⟩

/-- It is in the last slot of the first bus. -/
def lastSlot : Topology := fun b s f => if b = 0 ∧ s = 31 ∧ f = 0 then some lpc else none

/-- `find_pci` does not find a function in the last slot of a bus. -/
theorem last_slot_missed : lastSlot.HasIds 0x8086 0x2918 0 31 0 ∧
    ¬ ∃ bsf, initPci lastSlot = .ok bsf ∧ Finds lastSlot bsf := by
  have hids : lastSlot.HasIds 0x8086 0x2918 0 31 0 :=
    ⟨by decide, by decide, by decide, lpc, rfl, rfl, rfl⟩
  refine ⟨hids, ?_⟩
  rintro ⟨bsf, heq, hfinds⟩
  rw [initPci_eq, pushAll, List.nil_append] at heq
  split at heq
  next =>
    rw [← Except.ok.inj heq] at hfinds
    obtain ⟨b, s, f, -, hs, -, -, -, -, fn, hfn, -⟩ := finds_scanned_iff.mp hfinds _ _ _ _ _ hids
    rw [lastSlot] at hfn
    split at hfn
    next hat => omega
    next => cases hfn
  next => cases heq

end Yaos.Pci
