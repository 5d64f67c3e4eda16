import Mathlib.Data.Nat.Digits.Lemmas

/-! Numerals in ASCII: what a text of digits stands for, and that the digits of a
number, written the most significant first and after any zeros, stand for it. -/
namespace Yaos.Lib

/-- The value of a digit, in either case. -/
def digitValue (c : UInt8) : Option Nat :=
  if 0x30 ≤ c ∧ c ≤ 0x39 then some (c.toNat - 0x30)
  else if 0x41 ≤ c ∧ c ≤ 0x46 then some (c.toNat - 0x37)
  else if 0x61 ≤ c ∧ c ≤ 0x66 then some (c.toNat - 0x57)
  else none

/-- One more digit after those that stand for `v`. -/
def readDigit (base v : Nat) (c : UInt8) : Option Nat :=
  (digitValue c).bind fun d => if d < base then some (v * base + d) else none

/-- The number that a text stands for. No text is no numeral. -/
def parse (base : Nat) (text : List UInt8) : Option Nat :=
  if text = [] then none else text.foldlM (readDigit base) 0

/-- The digits of a number, the least significant first; zero has one. -/
def numeral (base v : Nat) : List Nat := if v = 0 then [0] else Nat.digits base v

def digitCount (base v : Nat) : Nat := Nat.log base v + 1

variable {base v d : Nat}

theorem length_numeral (hbase : 1 < base) : (numeral base v).length = digitCount base v := by
  rw [numeral, digitCount]
  split
  · rename_i h
    rw [h, Nat.log_zero_right]
    rfl
  · rename_i h
    exact Nat.length_digits base v hbase h

theorem ofDigits_numeral : Nat.ofDigits base (numeral base v) = v := by
  rw [numeral]
  split
  · rename_i h
    rw [h, Nat.ofDigits_singleton]
  · exact Nat.ofDigits_digits base v

theorem lt_of_mem_numeral (hbase : 1 < base) (hd : d ∈ numeral base v) : d < base := by
  rw [numeral] at hd
  split at hd
  · rw [List.mem_singleton.mp hd]
    exact Nat.zero_lt_of_lt hbase
  · exact Nat.digits_lt_base hbase hd

section Text

variable {char : Nat → UInt8} {ds : List Nat}

theorem readDigit_eq {c : UInt8} (hc : digitValue c = some d) (hd : d < base) :
    readDigit base v c = some (v * base + d) := by
  rw [readDigit, hc, Option.bind_some, if_pos hd]

theorem foldlM_readDigit (hchar : ∀ d < base, digitValue (char d) = some d) (hds : ∀ d ∈ ds, d < base) :
    (ds.map char).reverse.foldlM (readDigit base) 0 = some (Nat.ofDigits base ds) := by
  induction ds with
  | nil => rfl
  | cons d ds ih =>
    have hd : d < base := hds d List.mem_cons_self
    rw [List.map_cons, List.reverse_cons, List.foldlM_append,
      ih fun e he => hds e (List.mem_cons_of_mem d he), Nat.ofDigits_cons]
    rw [Option.bind_eq_bind, Option.bind_some, List.foldlM_cons, readDigit_eq (hchar d hd) hd,
      Option.bind_eq_bind, Option.bind_some, List.foldlM_nil, Nat.mul_comm base, Nat.add_comm]
    rfl

theorem foldlM_zeros (hbase : 0 < base) (n : Nat) :
    (List.replicate n 0x30).foldlM (readDigit base) 0 = some 0 := by
  induction n with
  | zero => rfl
  | succ n ih =>
    rw [List.replicate_succ, List.foldlM_cons, readDigit_eq (d := 0) rfl hbase,
      Nat.zero_mul]
    exact ih

/-- **A number's digits after any zeros stand for it.** -/
theorem parse_numeral (hbase : 1 < base) (hchar : ∀ d < base, digitValue (char d) = some d) (n v : Nat) :
    parse base (List.replicate n 0x30 ++ ((numeral base v).map char).reverse) = some v := by
  have hne : List.replicate n 0x30 ++ ((numeral base v).map char).reverse ≠ [] := by
    intro h
    have := congrArg List.length h
    rw [List.length_append, List.length_reverse, List.length_map, length_numeral hbase] at this
    simp [digitCount] at this
  rw [parse, if_neg hne, List.foldlM_append, foldlM_zeros (Nat.zero_lt_of_lt hbase), Option.bind_eq_bind,
    Option.bind_some, foldlM_readDigit hchar fun d hd => lt_of_mem_numeral hbase hd, ofDigits_numeral]

end Text

end Yaos.Lib
