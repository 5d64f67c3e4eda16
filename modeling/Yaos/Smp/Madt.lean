import Yaos.Smp.Bases

/-!
# Malformed tables

The loop of `acpi_config_smp` checks that an entry fits the table, so it reads
nothing behind it, but not that an entry has the two bytes of its own header:
one of no bytes is read for ever, and behind one of a single byte the loop goes
on in the middle of an entry.

`Madt.calls` is the loop with every read checked against the end of the table
and with the calls of `init_cpu` recorded; `scan_calls` says that `scan` makes
these calls.
-/

namespace Yaos.Smp

open Yaos.Lib

/-! ## The loop, read by read -/

def Madt.byte (m : Madt) (p : Nat) : Outcome Nat :=
  if p < m.size then .ok (m.u8 p) else .error .fault

/-- A `uint32` of the table. -/
def Madt.word (m : Madt) (p : Nat) : Outcome Nat := do
  let b₀ ← m.byte p
  let b₁ ← m.byte (p + 1)
  let b₂ ← m.byte (p + 2)
  let b₃ ← m.byte (p + 3)
  .ok (b₀ + 2 ^ 8 * b₁ + 2 ^ 16 * b₂ + 2 ^ 24 * b₃)

/-- The `switch`: the argument of `init_cpu`, if it is called. -/
def Madt.call (m : Madt) (p len : Nat) : Outcome (Option Nat) := do
  let type ← m.byte p
  match type with
  | 0 =>
      if len < 8 then .ok none
      else do
        let flags ← m.word (p + 4)
        if flags % 2 = 0 then .ok none
        else do
          let apicid ← m.byte (p + 3)
          .ok (some apicid)
  | 1 =>
      if len < 12 then .ok none
      else do
        -- the message prints them
        let _ ← m.word (p + 4)
        let _ ← m.byte (p + 2)
        let _ ← m.word (p + 8)
        .ok none
  | _ => .ok none

/-- The loop: the calls of `init_cpu` that it makes. -/
def Madt.calls (m : Madt) : Nat → Nat → Outcome (List Nat)
  | 0, _ => .error .spin
  | n + 1, p =>
      if p < m.size then
        if m.size - p < 2 then .ok []
        else do
          let len ← m.byte (p + 1)
          if m.size - p < len then .ok []
          else do
            let apicid ← m.call p len
            let rest ← m.calls n (p + len)
            .ok (apicid.toList ++ rest)
      else .ok []

variable {m : Madt} {n p : Nat} {cs : List Nat}

/-! ## Entries -/

/-- The length in the entry at `p`. -/
def Madt.len (m : Madt) (p : Nat) : Nat := m.u8 (p + 1)

/-- The loop takes what is at `p` for an entry. -/
def Madt.Fits (m : Madt) (p : Nat) : Prop := p + 2 ≤ m.size ∧ p + m.len p ≤ m.size

instance : Decidable (m.Fits p) := inferInstanceAs (Decidable (_ ∧ _))

/-- The entry has at least the two bytes of its header. -/
def Madt.WellFormed (m : Madt) (p : Nat) : Prop := m.Fits p ∧ 2 ≤ m.len p

instance : Decidable (m.WellFormed p) := inferInstanceAs (Decidable (_ ∧ _))

theorem byte_eq (h : p < m.size) : m.byte p = .ok (m.u8 p) := if_pos h

theorem word_eq (h : p + 3 < m.size) : m.word p = .ok (m.u32 p) := by
  rw [Madt.word, byte_eq (by omega), byte_eq (by omega), byte_eq (by omega), byte_eq h]
  rfl

theorem call_eq (h : m.Fits p) : m.call p (m.len p) = .ok (m.enabled (p, m.len p)) := by
  obtain ⟨htwo, hlen⟩ := h
  rw [Madt.call, byte_eq (by omega), ok_bind]
  split
  next htype =>
    have hen : m.enabled (p, m.len p) = m.lapic p (m.len p) := if_pos htype
    rw [hen, Madt.lapic]
    split
    next => rfl
    next hlong =>
      rw [word_eq (by omega), ok_bind]
      split
      next => rfl
      next => rw [byte_eq (by omega), ok_bind]
  next htype =>
    have hen : m.enabled (p, m.len p) = none := if_neg (by dsimp only; rw [htype]; decide)
    rw [hen]
    split
    next => rfl
    next hlong =>
      rw [word_eq (by omega), ok_bind, byte_eq (by omega), ok_bind, word_eq (by omega), ok_bind]
  next htype _ =>
    have hen : m.enabled (p, m.len p) = none := if_neg htype
    rw [hen]

theorem calls_of_fits (h : m.Fits p) : m.calls (n + 1) p = (do
    let rest ← m.calls n (p + m.len p)
    .ok ((m.enabled (p, m.len p)).toList ++ rest)) := by
  have htwo := h.1
  have hlen := h.2
  have hcall := call_eq h
  rw [Madt.calls, if_pos (by omega), if_neg (by omega), byte_eq (by omega), ok_bind]
  rw [Madt.len] at hlen hcall ⊢
  rw [if_neg (by omega), hcall, ok_bind]

theorem calls_of_not_fits (h : ¬ m.Fits p) : m.calls (n + 1) p = .ok [] := by
  rw [Madt.calls]
  split
  next hp =>
    split
    next => rfl
    next htwo =>
      rw [byte_eq (by omega), ok_bind, if_pos]
      rw [Madt.Fits, Madt.len] at h
      omega
  next => rfl

/-- The longest sequence of well-formed entries from `p` on: where each is and
how long. -/
def Madt.wellFormed (m : Madt) : Nat → Nat → List (Nat × Nat)
  | 0, _ => []
  | k + 1, p => if m.WellFormed p then (p, m.len p) :: m.wellFormed k (p + m.len p) else []

def Madt.wellFormedEnd (m : Madt) : Nat → Nat → Nat
  | 0, p => p
  | k + 1, p => if m.WellFormed p then m.wellFormedEnd k (p + m.len p) else p

/-- The loop ends when it goes on from `p`, and calls nothing: it comes to no
entry of no bytes, and to no enabled local APIC. -/
inductive Madt.Quiet (m : Madt) : Nat → Prop where
  | stop {p : Nat} : ¬ m.Fits p → Quiet m p
  | skip {p : Nat} : m.Fits p → m.enabled (p, m.len p) = none → Quiet m (p + m.len p) → Quiet m p

theorem quiet_iff : m.Quiet p ↔ ∃ n, m.calls n p = .ok [] := by
  constructor
  · intro h
    induction h with
    | stop hfits => exact ⟨1, calls_of_not_fits hfits⟩
    | skip hfits hnone _ ih =>
      obtain ⟨n, hn⟩ := ih
      refine ⟨n + 1, ?_⟩
      rw [calls_of_fits hfits, hn, hnone]
      rfl
  · rintro ⟨n, hn⟩
    induction n generalizing p with
    | zero => cases hn
    | succ n ih =>
      by_cases hfits : m.Fits p
      · rw [calls_of_fits hfits] at hn
        obtain ⟨rest, hrest, hn⟩ := bind_eq_ok.mp hn
        obtain ⟨hnone, rfl⟩ := List.append_eq_nil_iff.mp (Except.ok.inj hn)
        exact .skip hfits (Option.toList_eq_nil_iff.mp hnone) (ih hrest)
      · exact .stop hfits

theorem calls_wellFormed_iff : ∀ k p : Nat,
    (∃ n, m.calls n p = .ok ((m.wellFormed k p).filterMap m.enabled)) ↔ m.Quiet (m.wellFormedEnd k p) := by
  intro k
  induction k with
  | zero => exact fun p => quiet_iff.symm
  | succ k ih =>
    intro p
    rw [Madt.wellFormed, Madt.wellFormedEnd]
    split
    next hwf =>
      have hcons : ((p, m.len p) :: m.wellFormed k (p + m.len p)).filterMap m.enabled =
          (m.enabled (p, m.len p)).toList ++ (m.wellFormed k (p + m.len p)).filterMap m.enabled := by
        rw [List.filterMap_cons]
        cases m.enabled (p, m.len p) <;> rfl
      rw [← ih, hcons]
      constructor
      · rintro ⟨n, hn⟩
        cases n with
        | zero => cases hn
        | succ n =>
          rw [calls_of_fits hwf.1] at hn
          obtain ⟨rest, hrest, hn⟩ := bind_eq_ok.mp hn
          exact ⟨n, by rw [hrest, List.append_cancel_left (Except.ok.inj hn)]⟩
      · rintro ⟨n, hn⟩
        refine ⟨n + 1, ?_⟩
        rw [calls_of_fits hwf.1, hn]
        rfl
    next => exact quiet_iff.symm

theorem wellFormedEnd_not : ∀ k p : Nat, m.size ≤ p + k → ¬ m.WellFormed (m.wellFormedEnd k p) := by
  intro k
  induction k with
  | zero =>
    rintro p hp ⟨hfits, -⟩
    have htwo := hfits.1
    rw [Madt.wellFormedEnd] at htwo
    omega
  | succ k ih =>
    intro p hp
    rw [Madt.wellFormedEnd]
    split
    next hwf =>
      have htwo := hwf.2
      exact ih _ (by omega)
    next hwf => exact hwf

/-! ## The calls of `scan` -/

section Scan

variable {fuel size k : Nat} {s : State}

/-- All but the id of the I/O APIC. -/
def State.sansIoapic (s : State) : State := { s with ioapicid := 0 }

theorem initCpu_sansIoapic (a : Nat) :
    initCpu fuel size s.sansIoapic a = (initCpu fuel size s a).map State.sansIoapic := by
  rw [initCpu, initCpu, show s.sansIoapic.heap = s.heap from rfl]
  cases Kheap.kalloc fuel s.heap size with
  | error e => rfl
  | ok r =>
    obtain ⟨block, heap⟩ := r
    rw [ok_bind, ok_bind]
    dsimp only
    by_cases hpanic : maxCpus < a ∨ block.getD 0 = 0
    · rw [if_pos hpanic, if_pos hpanic]
      rfl
    · rw [if_neg hpanic, if_neg hpanic]
      by_cases hfull : maxCpus ≤ s.nrCpu
      · rw [if_pos hfull]
        exact if_pos hfull
      · rw [if_neg hfull]
        exact if_neg hfull

/-- An entry calls `init_cpu`, or changes no more than the id of the I/O APIC. -/
theorem entry_eq : match m.enabled (p, m.len p) with
    | none => ∃ k' t, entry fuel size m p (m.len p) k s = .ok (k', t) ∧ t.sansIoapic = s.sansIoapic
    | some a => entry fuel size m p (m.len p) k s = (do
        let t ← initCpu fuel size s a
        .ok (k, t)) := by
  rw [Madt.enabled, entry]
  split
  next hnone =>
    split
    next htype =>
      rw [if_pos htype] at hnone
      dsimp only at hnone
      rw [hnone]
      exact ⟨k, s, rfl, rfl⟩
    next =>
      split
      next => exact ⟨k, s, rfl, rfl⟩
      next =>
        split
        next => exact ⟨k + 1, _, rfl, rfl⟩
        next => exact ⟨k + 1, s, rfl, rfl⟩
    next => exact ⟨k, s, rfl, rfl⟩
  next a hsome =>
    split at hsome
    next htype =>
      dsimp only at htype hsome
      rw [htype, hsome]
      rfl
    next => cases hsome

theorem scan_calls (hcs : m.calls n p = .ok cs) :
    (scan fuel size m n p k s).map State.sansIoapic =
      cs.foldlM (initCpu fuel size) s.sansIoapic := by
  induction n generalizing p k s cs with
  | zero => cases hcs
  | succ n ih =>
    by_cases hfits : m.Fits p
    · have htwo := hfits.1
      have hlen := hfits.2
      rw [calls_of_fits hfits] at hcs
      obtain ⟨rest, hrest, hcs⟩ := bind_eq_ok.mp hcs
      cases hcs
      have hentry : scan fuel size m (n + 1) p k s =
          (entry fuel size m p (m.len p) k s >>= fun x => scan fuel size m n (p + m.len p) x.1 x.2) := by
        rw [Madt.len] at hlen ⊢
        rw [scan, if_pos (by omega), if_neg (by omega)]
        exact if_neg (by omega)
      have hcases := @entry_eq m p fuel size k s
      rw [hentry]
      cases hen : m.enabled (p, m.len p) with
      | none =>
        rw [hen] at hcases
        obtain ⟨k', t, heq, hsame⟩ := hcases
        rw [heq, ok_bind]
        exact (ih hrest).trans (by rw [hsame]; rfl)
      | some a =>
        rw [hen] at hcases
        rw [hcases, Option.toList_some, List.singleton_append, List.foldlM_cons, initCpu_sansIoapic]
        cases initCpu fuel size s a with
        | error e => rfl
        | ok t => exact ih hrest
    · rw [calls_of_not_fits hfits] at hcs
      cases hcs
      have hend : scan fuel size m (n + 1) p k s = .ok s := by
        rw [Madt.Fits, Madt.len] at hfits
        rw [scan]
        split
        next =>
          split
          next => rfl
          next => exact if_pos (by omega)
        next => rfl
      rw [hend]
      rfl

end Scan

/-- The loop ends without a read outside the table, and has called `init_cpu` once
for each enabled local APIC among the well-formed entries, in their order. -/
def Madt.Served (m : Madt) : Prop :=
  ∃ n, m.calls n 0 = .ok ((m.wellFormed m.size 0).filterMap m.enabled)

/-- **The loop does what it should** exactly if behind the well-formed entries,
where an entry of less than two bytes may follow, it comes to no entry of no
bytes and to no enabled local APIC. -/
theorem madt_served_iff (m : Madt) : m.Served ↔ m.Quiet (m.wellFormedEnd m.size 0) :=
  calls_wellFormed_iff m.size 0

/-- A table with an entry of no bytes. -/
def emptyEntry : Madt := ⟨Madt.header + 2, 0xfee00000, fun _ => 0⟩

/-- An entry of no bytes is read for ever, and the loop never ends. -/
theorem empty_entry_spins : Madt.header ≤ emptyEntry.length ∧
    (∀ n, emptyEntry.calls n 0 = .error .spin) ∧ ¬ emptyEntry.Served := by
  have hspin : ∀ n, emptyEntry.calls n 0 = .error .spin := by
    intro n
    induction n with
    | zero => rfl
    | succ n ih =>
      have hfits : emptyEntry.Fits 0 := by decide
      have hzero : 0 + emptyEntry.len 0 = 0 := by decide
      rw [calls_of_fits hfits, hzero, ih]
      rfl
  refine ⟨by decide, hspin, ?_⟩
  rintro ⟨n, hn⟩
  rw [hspin] at hn
  cases hn

end Yaos.Smp
