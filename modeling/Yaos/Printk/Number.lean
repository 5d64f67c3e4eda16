import Mathlib.Data.List.GetD
import Mathlib.Tactic.SplitIfs
import Yaos.Lib.Numeral
import Yaos.Lib.Outcome

/-!
# Numbers as text (`number` of `kernel/printk.c`)

`size` is what is left of the field: the sign, the SPECIAL characters and the
digits are taken off it before anything is written, and each of the three loops
that pad takes one more off than it writes. An `int` is an `Int32`, a `long` an
`Int64`; both wrap round, so that `-num` of the most negative `long` is itself,
and its digits are right because they are those of an `unsigned long`.
-/

namespace Yaos.Printk

open Yaos.Lib

theorem toInt_sub_of_fits {a b : Int32} (hle : -2 ^ 31 ≤ a.toInt - b.toInt)
    (hlt : a.toInt - b.toInt < 2 ^ 31) : (a - b).toInt = a.toInt - b.toInt := by
  rw [Int32.toInt_sub]
  exact Int.bmod_eq_of_le_mul_two (by omega) (by omega)

theorem toInt_pred {a : Int32} (h : -2 ^ 31 < a.toInt) : (a - 1).toInt = a.toInt - 1 := by
  have := a.toInt_lt
  have hone : (1 : Int32).toInt = 1 := rfl
  rw [toInt_sub_of_fits (by omega) (by omega), hone]

/-! ## The code -/

/-- The flags in `type`. -/
structure Flags where
  zeropad : Bool
  sign : Bool
  plus : Bool
  space : Bool
  left : Bool
  small : Bool
  special : Bool
  deriving DecidableEq, Repr

def byte (c : Char) : UInt8 := c.toUInt8

/-- `digits`. -/
def digits : List UInt8 := "0123456789ABCDEF".toList.map byte

/-- `digits[r] | locase`. -/
def digitChar (lower : UInt8) (r : Nat) : UInt8 := digits.getD r 0 ||| lower

/-- `while (num != 0) tmp[i++] = ...`, with `room` bytes left in `tmp`. -/
def digitLoop (base : UInt64) (lower : UInt8) : Nat → Int64 → Outcome (List UInt8)
  | 0, num => if num = 0 then .ok [] else .error .fault
  | room + 1, num =>
      if num = 0 then .ok []
      else do
        let tmp ← digitLoop base lower room (num.toUInt64 / base).toInt64
        .ok (digitChar lower (num.toUInt64 % base).toNat :: tmp)

/-- `while (low < size--) *str++ = c;`: what is written, and `size` after it. -/
def downLoop (low : Int32) (c : UInt8) (size : Int32) : List UInt8 × Int32 :=
  if low < size then
    let (text, size) := downLoop low c (size - 1)
    (c :: text, size)
  else ([], size - 1)
termination_by (size.toInt - low.toInt).toNat
decreasing_by
  rename_i hlt
  have hlt : low.toInt < size.toInt := Int32.lt_iff_toInt_lt.mp hlt
  have := low.le_toInt
  rw [toInt_pred (by omega)]
  omega

/-- `while (size-- > 0) *str++ = c;` -/
def padLoop (c : UInt8) (size : Int32) : List UInt8 × Int32 := downLoop 0 c size

/-- `while (i < precision--) *str++ = '0';` -/
def zeroLoop (i precision : Int32) : List UInt8 := (downLoop i (byte '0') precision).1

/-- `while (i-- > 0) *str++ = tmp[i];` -/
def digitsOut (tmp : List UInt8) : Nat → List UInt8
  | 0 => []
  | i + 1 => tmp.getD i 0 :: digitsOut tmp i

/-- `sign`, if one is due. -/
def signChar (type : Flags) (num : Int64) : Option UInt8 :=
  if type.sign then
    if num < 0 then some (byte '-')
    else if type.plus then some (byte '+')
    else if type.space then some (byte ' ')
    else none
  else none

def specialChars (type : Flags) (base : Int32) (lower : UInt8) : List UInt8 :=
  if type.special then
    if base = 8 then [byte '0']
    else if base = 16 then [byte '0', byte 'X' ||| lower]
    else []
  else []

/-- `size` without the sign and what SPECIAL writes. -/
def sizeLeft (type : Flags) (num : Int64) (base size : Int32) : Int32 :=
  let size := if (signChar type num).isSome then size - 1 else size
  if type.special then
    if base = 16 then size - 2
    else if base = 8 then size - 1
    else size
  else size

/-- What the three loops write around the sign and what SPECIAL writes, `head`, and
the digits, `body`. -/
def padAround (type : Flags) (size : Int32) (head body : List UInt8) : List UInt8 :=
  let zeropad := type.zeropad && !type.left
  let c := if zeropad then byte '0' else byte ' '
  let (blanks, size) := if zeropad || type.left then ([], size) else padLoop (byte ' ') size
  let (fill, size) := if type.left then ([], size) else padLoop c size
  let (rest, _) := padLoop (byte ' ') size
  blanks ++ head ++ fill ++ body ++ rest

/-- `locase`. -/
def locase (type : Flags) : UInt8 := if type.small then 0x20 else 0

/-- The digits in `tmp`, which has 66 bytes. -/
def digitsIn (lower : UInt8) (base : Int32) (num : Int64) : Outcome (List UInt8) :=
  if num = 0 then .ok [byte '0'] else digitLoop base.toUInt32.toUInt64 lower 66 num

/-- `number`; `none` is the null pointer. -/
def number (num : Int64) (base size precision : Int32) (type : Flags) :
    Outcome (Option (List UInt8)) :=
  if base < 2 ∨ 16 < base then .ok none
  else do
    let head := (signChar type num).toList ++ specialChars type base (locase type)
    let size := sizeLeft type num base size
    let num := if type.sign ∧ num < 0 then -num else num
    let tmp ← digitsIn (locase type) base num
    let i := tmp.length
    let precision := if precision < Int32.ofNat i then Int32.ofNat i else precision
    .ok (some (padAround type (size - precision) head
      (zeroLoop (Int32.ofNat i) precision ++ digitsOut tmp i)))

/-! ## The loops -/

variable {c lower : UInt8} {size precision : Int32} {type : Flags} {num : Int64} {base : Int32}

theorem downLoop_eq (low : Int32) (c : UInt8) (size : Int32) : downLoop low c size =
    (List.replicate (size.toInt - low.toInt).toNat c, if low < size then low - 1 else size - 1) := by
  fun_induction downLoop low c size with
  | case1 size hlt text rest heq ih =>
    have hlt' : low.toInt < size.toInt := Int32.lt_iff_toInt_lt.mp hlt
    have hpred : (size - 1).toInt = size.toInt - 1 := by
      have := low.le_toInt
      exact toInt_pred (by omega)
    obtain ⟨htext, hrest⟩ := Prod.mk.inj (heq.symm.trans ih)
    have hcount : (size.toInt - low.toInt).toNat = ((size - 1).toInt - low.toInt).toNat + 1 := by omega
    rw [htext, hrest, if_pos hlt, hcount, List.replicate_succ]
    split_ifs with hmore
    · rfl
    · -- the last round
      have hlow : size - 1 = low := by
        have hmore : ¬ low.toInt < (size - 1).toInt := fun h => hmore (Int32.lt_iff_toInt_lt.mpr h)
        exact Int32.toInt_inj.mp (by omega)
      rw [hlow]
  | case2 size hlt =>
    have hlt' : ¬ low.toInt < size.toInt := fun h => hlt (Int32.lt_iff_toInt_lt.mpr h)
    rw [if_neg hlt, Int.toNat_of_nonpos (by omega), List.replicate_zero]

theorem downLoop_text (low : Int32) (c : UInt8) (size : Int32) :
    (downLoop low c size).1 = List.replicate (size.toInt - low.toInt).toNat c := by
  rw [downLoop_eq]

theorem padLoop_text (c : UInt8) (size : Int32) : (padLoop c size).1 = List.replicate size.toInt.toNat c := by
  rw [padLoop, downLoop_text]
  exact congrArg (fun n : Int => List.replicate n.toNat c) (Int.sub_zero size.toInt)

theorem padLoop_nil (h : size.toInt ≤ 0) : (padLoop c size).1 = [] := by
  rw [padLoop_text, Int.toNat_of_nonpos h, List.replicate_zero]

/-- What a loop leaves of `size`, which is more than it was taken off. -/
theorem padLoop_rest (h : -2 ^ 31 < size.toInt) : (padLoop c size).2.toInt = min size.toInt 0 - 1 := by
  rw [padLoop, downLoop_eq]
  split_ifs with hpos
  · have hpos : 0 < size.toInt := Int32.lt_iff_toInt_lt.mp hpos
    rw [Int.min_eq_right (Int.le_of_lt hpos)]
    rfl
  · have hpos : ¬ 0 < size.toInt := fun h => hpos (Int32.lt_iff_toInt_lt.mpr h)
    rw [Int.min_eq_left (Int.not_lt.mp hpos)]
    exact toInt_pred h

theorem digitsOut_append (tmp more : List UInt8) {i : Nat} (hi : i ≤ tmp.length) :
    digitsOut (tmp ++ more) i = digitsOut tmp i := by
  induction i with
  | zero => rfl
  | succ i ih => rw [digitsOut, digitsOut, List.getD_append _ _ _ _ hi, ih (Nat.le_of_succ_le hi)]

theorem digitsOut_eq (tmp : List UInt8) : digitsOut tmp tmp.length = tmp.reverse := by
  induction tmp using List.reverseRecOn with
  | nil => rfl
  | append_singleton tmp c ih =>
    rw [List.length_append, List.length_singleton, digitsOut, digitsOut_append tmp [c] (Nat.le_refl _), ih,
      List.reverse_append]
    simp

/-! ## The digits -/

theorem digitValue_digitChar (type : Flags) {d : Nat} (hd : d < 16) :
    digitValue (digitChar (locase type) d) = some d := by
  rw [locase]
  split_ifs
  all_goals
    revert d
    decide

theorem toNat_eq_zero {num : Int64} : num.toUInt64.toNat = 0 ↔ num = 0 := by
  constructor
  · intro h
    have h : num.toUInt64 = 0 := UInt64.toNat_inj.mp h
    rw [← num.toInt64_toUInt64, h]
    rfl
  · rintro rfl
    rfl

/-- **The digits of an `unsigned long`**, for which `tmp` is large enough. -/
theorem digitLoop_eq {b : UInt64} (hb : 1 < b.toNat) (room : Nat) (num : Int64)
    (hroom : num.toUInt64.toNat < 2 ^ room) :
    digitLoop b lower room num = .ok ((Nat.digits b.toNat num.toUInt64.toNat).map (digitChar lower)) := by
  induction room generalizing num with
  | zero =>
    have hzero : num.toUInt64.toNat = 0 := by omega
    rw [digitLoop, if_pos (toNat_eq_zero.mp hzero), hzero, Nat.digits_zero, List.map_nil]
  | succ room ih =>
    rw [digitLoop]
    split_ifs with hnum
    · rw [toNat_eq_zero.mpr hnum, Nat.digits_zero, List.map_nil]
    · have hpos : 0 < num.toUInt64.toNat := Nat.pos_of_ne_zero fun h => hnum (toNat_eq_zero.mp h)
      have hrest : (num.toUInt64 / b).toNat < 2 ^ room := by
        rw [UInt64.toNat_div]
        refine Nat.div_lt_of_lt_mul (Nat.lt_of_lt_of_le hroom ?_)
        rw [Nat.pow_succ, Nat.mul_comm]
        exact Nat.mul_le_mul_right _ hb
      rw [ih _ (by rwa [UInt64.toUInt64_toInt64]), ok_bind, UInt64.toUInt64_toInt64, UInt64.toNat_div,
        UInt64.toNat_mod, Nat.digits_def' hb hpos, List.map_cons]

theorem toInt_eq (num : Int64) : num.toInt =
    if 2 * num.toUInt64.toNat < 2 ^ 64 then (num.toUInt64.toNat : Int) else num.toUInt64.toNat - 2 ^ 64 :=
  BitVec.toInt_eq_toNat_cond num.toBitVec

theorem natAbs_of_neg (h : num < 0) : num.toInt.natAbs = (-num).toUInt64.toNat := by
  have h : num.toInt < 0 := Int64.lt_iff_toInt_lt.mp h
  have heq := toInt_eq num
  have := num.toUInt64.toNat_lt
  rw [Int64.toUInt64_neg, UInt64.toNat_neg]
  split_ifs at heq
  · omega
  · rw [UInt64.size, Nat.mod_eq_of_lt (by omega)]
    omega

theorem natAbs_of_not_neg (h : ¬ num < 0) : num.toInt.natAbs = num.toUInt64.toNat := by
  have h : ¬ num.toInt < 0 := fun hneg => h (Int64.lt_iff_toInt_lt.mpr hneg)
  have heq := toInt_eq num
  have := num.toUInt64.toNat_lt
  split_ifs at heq
  · omega
  · omega

/-- The value that is written: the magnitude of a signed number. -/
def magnitude (type : Flags) (num : Int64) : Nat :=
  if type.sign then num.toInt.natAbs else num.toUInt64.toNat

theorem toNat_eq_magnitude (type : Flags) (num : Int64) :
    (if type.sign ∧ num < 0 then -num else num).toUInt64.toNat = magnitude type num := by
  rw [magnitude]
  by_cases hsign : type.sign
  · rw [if_pos hsign]
    by_cases hneg : num < 0
    · rw [if_pos ⟨hsign, hneg⟩, natAbs_of_neg hneg]
    · rw [if_neg fun h => hneg h.2, natAbs_of_not_neg hneg]
  · rw [if_neg hsign, if_neg fun h => hsign h.1]

/-- The digits as they are in `tmp`. -/
def tmpDigits (type : Flags) (base : Int32) (num : Int64) : List UInt8 :=
  (numeral base.toInt.toNat (magnitude type num)).map (digitChar (locase type))

/-- A base that `number` takes. -/
structure Base (base : Int32) : Prop where
  ge : 2 ≤ base.toInt
  le : base.toInt ≤ 16

theorem Base.toNat (h : Base base) : base.toUInt32.toUInt64.toNat = base.toInt.toNat := by
  have hle : 0 ≤ base := Int32.le_iff_toInt_le.mpr (Int.le_trans (by decide) h.ge)
  rw [UInt32.toNat_toUInt64, Int32.toNat_toUInt32_of_le hle]
  rfl

theorem digitsIn_eq (h : Base base) (type : Flags) (num : Int64) :
    digitsIn (locase type) base (if type.sign ∧ num < 0 then -num else num) =
      .ok (tmpDigits type base num) := by
  have hval := toNat_eq_magnitude type num
  have hb : 1 < base.toUInt32.toUInt64.toNat := by
    rw [h.toNat]
    have := h.ge
    omega
  rw [digitsIn, tmpDigits, numeral]
  by_cases hzero : (if type.sign ∧ num < 0 then -num else num) = 0
  · rw [if_pos hzero, if_pos (hval ▸ toNat_eq_zero.mpr hzero), List.map_singleton, locase]
    split_ifs
    all_goals rfl
  · have hne : magnitude type num ≠ 0 := fun h => hzero (toNat_eq_zero.mp (hval.trans h))
    rw [if_neg hzero, if_neg hne, digitLoop_eq hb, hval, h.toNat]
    exact Nat.lt_trans (UInt64.toNat_lt _) (by decide)

/-- `precision` after it has been raised to the number of digits. -/
def raised (type : Flags) (base : Int32) (num : Int64) (precision : Int32) : Int32 :=
  let i := Int32.ofNat (tmpDigits type base num).length
  if precision < i then i else precision

/-- What `number` writes. -/
def numberText (num : Int64) (base size precision : Int32) (type : Flags) : List UInt8 :=
  padAround type (sizeLeft type num base size - raised type base num precision)
    ((signChar type num).toList ++ specialChars type base (locase type))
    (zeroLoop (Int32.ofNat (tmpDigits type base num).length) (raised type base num precision) ++
      (tmpDigits type base num).reverse)

/-- **`number` returns** for every field and precision. -/
theorem number_eq (h : Base base) (num : Int64) (size precision : Int32) (type : Flags) :
    number num base size precision type = .ok (some (numberText num base size precision type)) := by
  have hbase : ¬ (base < 2 ∨ 16 < base) := by
    rintro (hlt | hlt)
    · exact absurd h.ge (Int.not_le.mpr (Int32.lt_iff_toInt_lt.mp hlt))
    · exact absurd h.le (Int.not_le.mpr (Int32.lt_iff_toInt_lt.mp hlt))
  rw [number, if_neg hbase]
  dsimp only
  rw [digitsIn_eq h, ok_bind, digitsOut_eq]
  rfl

/-! ## The layout -/

/-- The sign that is due: none without SIGN; with it a minus before a negative
number, and before any other a plus with PLUS, or else a blank with SPACE. -/
inductive Sign (type : Flags) (num : Int64) : List UInt8 → Prop where
  | minus : type.sign → num.toInt < 0 → Sign type num [byte '-']
  | plus : type.sign → 0 ≤ num.toInt → type.plus → Sign type num [byte '+']
  | space : type.sign → 0 ≤ num.toInt → ¬ type.plus → type.space → Sign type num [byte ' ']
  | none : (type.sign → 0 ≤ num.toInt ∧ ¬ type.plus ∧ ¬ type.space) → Sign type num []

/-- What SPECIAL asks for: a `0` in base 8, and `0X` or, with SMALL, `0x` in base 16. -/
inductive Radix (type : Flags) (base : Int32) : List UInt8 → Prop where
  | octal : type.special → base.toInt = 8 → Radix type base [byte '0']
  | hex : type.special → base.toInt = 16 → ¬ type.small → Radix type base [byte '0', byte 'X']
  | hexSmall : type.special → base.toInt = 16 → type.small → Radix type base [byte '0', byte 'x']
  | none : (type.special → base.toInt ≠ 8 ∧ base.toInt ≠ 16) → Radix type base []

def signWidth (type : Flags) (num : Int64) : Nat :=
  if type.sign ∧ (num.toInt < 0 ∨ type.plus ∨ type.space) then 1 else 0

def radixWidth (type : Flags) (base : Int32) : Nat :=
  if type.special then if base.toInt = 16 then 2 else if base.toInt = 8 then 1 else 0 else 0

/-- The width without padding: the sign, what SPECIAL asks for, and the digits. -/
def bareWidth (num : Int64) (base precision : Int32) (type : Flags) : Int :=
  signWidth type num + radixWidth type base +
    max (digitCount base.toInt.toNat (magnitude type num) : Int) precision.toInt

/-- No `int` overflows: `size` goes below zero by what the field is too small, and
once more in each loop that pads. -/
def Fits (num : Int64) (base size precision : Int32) (type : Flags) : Prop :=
  -2 ^ 31 + (if type.left then 1 else if type.zeropad then 2 else 3) ≤
    size.toInt - bareWidth num base precision type

instance (num : Int64) (base size precision : Int32) (type : Flags) :
    Decidable (Fits num base size precision type) := inferInstanceAs (Decidable (_ ≤ _))

/-- What `number` should write: blanks, the sign, what SPECIAL asks for, digits that
are read back as the value, and blanks, which make up the width together. -/
structure Renders (num : Int64) (base size precision : Int32) (type : Flags) (text : List UInt8) :
    Prop where
  length : text.length = max size.toInt (bareWidth num base precision type)
  parts : ∃ before sign radix digits after, Sign type num sign ∧ Radix type base radix ∧
    text = List.replicate before (byte ' ') ++ sign ++ radix ++ digits ++
      List.replicate after (byte ' ') ∧
    parse base.toInt.toNat digits = some (magnitude type num) ∧
    if type.left then before = 0 else after = 0

theorem sign_signChar (type : Flags) (num : Int64) : Sign type num (signChar type num).toList := by
  have hneg : num < 0 ↔ num.toInt < 0 := Int64.lt_iff_toInt_lt
  rw [signChar]
  split_ifs with hsign hlt hplus hspace
  · exact .minus hsign (hneg.mp hlt)
  · exact .plus hsign (Int.not_lt.mp fun h => hlt (hneg.mpr h)) hplus
  · exact .space hsign (Int.not_lt.mp fun h => hlt (hneg.mpr h)) hplus hspace
  · exact .none fun _ => ⟨Int.not_lt.mp fun h => hlt (hneg.mpr h), hplus, hspace⟩
  · exact .none fun h => absurd h hsign

theorem radix_specialChars (type : Flags) (base : Int32) :
    Radix type base (specialChars type base (locase type)) := by
  have h8 : base = 8 ↔ base.toInt = 8 := Int32.toInt_inj.symm
  have h16 : base = 16 ↔ base.toInt = 16 := Int32.toInt_inj.symm
  rw [specialChars, locase]
  split_ifs with hspecial hbase hbase' hsmall
  · exact .octal hspecial (h8.mp hbase)
  · exact .hexSmall hspecial (h16.mp hbase') hsmall
  · exact .hex hspecial (h16.mp hbase') hsmall
  · exact .none fun _ => ⟨fun h => hbase (h8.mpr h), fun h => hbase' (h16.mpr h)⟩
  · exact .none fun h => absurd h hspecial

theorem Sign.length {text : List UInt8} (h : Sign type num text) :
    text.length = signWidth type num := by
  rw [signWidth]
  cases h with
  | minus hsign hneg => rw [if_pos ⟨hsign, .inl hneg⟩, List.length_singleton]
  | plus hsign _ hplus => rw [if_pos ⟨hsign, .inr (.inl hplus)⟩, List.length_singleton]
  | space hsign _ _ hspace => rw [if_pos ⟨hsign, .inr (.inr hspace)⟩, List.length_singleton]
  | none hno =>
    rw [if_neg, List.length_nil]
    rintro ⟨hsign, hneg | hplus | hspace⟩
    · exact Int.not_lt.mpr (hno hsign).1 hneg
    · exact (hno hsign).2.1 hplus
    · exact (hno hsign).2.2 hspace

theorem Radix.length {text : List UInt8} (h : Radix type base text) :
    text.length = radixWidth type base := by
  rw [radixWidth]
  cases h with
  | octal hspecial hbase => simp [hspecial, hbase]
  | hex hspecial hbase | hexSmall hspecial hbase => simp [hspecial, hbase]
  | none hno =>
    split_ifs with hspecial h16 h8
    · exact absurd h16 (hno hspecial).2
    · exact absurd h8 (hno hspecial).1
    · rfl
    · rfl

theorem length_tmpDigits (h : Base base) (type : Flags) (num : Int64) :
    (tmpDigits type base num).length = digitCount base.toInt.toNat (magnitude type num) := by
  have := h.ge
  rw [tmpDigits, List.length_map, length_numeral (by omega)]

theorem digitCount_le (h : Base base) (type : Flags) (num : Int64) :
    digitCount base.toInt.toNat (magnitude type num) ≤ 64 := by
  have hlt : magnitude type num < 2 ^ 64 := by
    rw [← toNat_eq_magnitude]
    exact UInt64.toNat_lt _
  have hbase : 2 ≤ base.toInt.toNat := by
    have := h.ge
    omega
  exact Nat.log_lt_of_lt_pow' (by decide) (Nat.lt_of_lt_of_le hlt (Nat.pow_le_pow_left hbase 64))

theorem toInt_ofNat_length (h : Base base) (type : Flags) (num : Int64) :
    (Int32.ofNat (tmpDigits type base num).length).toInt =
      digitCount base.toInt.toNat (magnitude type num) := by
  have := digitCount_le h type num
  rw [length_tmpDigits h, Int32.toInt_ofNat_of_lt (by omega)]

theorem raised_eq (h : Base base) (type : Flags) (num : Int64) (precision : Int32) :
    (raised type base num precision).toInt =
      max (digitCount base.toInt.toNat (magnitude type num) : Int) precision.toInt := by
  have hi := toInt_ofNat_length h type num
  rw [raised, ← hi]
  split_ifs with hlt
  · rw [Int.max_eq_left (Int.le_of_lt (Int32.lt_iff_toInt_lt.mp hlt))]
  · rw [Int.max_eq_right (Int.not_lt.mp fun h => hlt (Int32.lt_iff_toInt_lt.mpr h))]

theorem sizeLeft_eq (type : Flags) (num : Int64) (base size : Int32)
    (h : -2 ^ 31 ≤ size.toInt - signWidth type num - radixWidth type base) :
    (sizeLeft type num base size).toInt =
      size.toInt - signWidth type num - radixWidth type base := by
  rw [← (sign_signChar type num).length, ← (radix_specialChars type base).length] at h ⊢
  have hlt := size.toInt_lt
  have hsign : (if (signChar type num).isSome then size - 1 else size).toInt =
      size.toInt - (signChar type num).toList.length := by
    cases hchar : signChar type num with
    | none => exact (Int.sub_zero _).symm
    | some c =>
      rw [hchar, Option.toList_some, List.length_singleton] at h
      exact toInt_pred (by omega)
  rw [sizeLeft]
  generalize (if (signChar type num).isSome then size - 1 else size) = size' at hsign
  rw [← hsign] at h ⊢
  have hlt := size'.toInt_lt
  rw [specialChars] at h ⊢
  split_ifs at h ⊢ with hspecial h16 h8
  · rw [h16] at h8
    cases h8
  · have htwo : (2 : Int32).toInt = 2 := rfl
    rw [List.length_cons, List.length_singleton] at h ⊢
    rw [toInt_sub_of_fits (by omega) (by omega), htwo]
    rfl
  · rw [List.length_singleton] at h ⊢
    exact toInt_pred (by omega)
  · exact (Int.sub_zero _).symm
  · exact (Int.sub_zero _).symm

/-- **The padding**, of which there is some on one side only. -/
theorem padAround_eq (hsize : -2 ^ 31 + (if type.left then 1 else if type.zeropad then 2 else 3) ≤ size.toInt)
    (head body : List UInt8) : padAround type size head body =
      if type.left then head ++ body ++ List.replicate size.toInt.toNat (byte ' ')
      else if type.zeropad then head ++ List.replicate size.toInt.toNat (byte '0') ++ body
      else List.replicate size.toInt.toNat (byte ' ') ++ head ++ body := by
  rw [padAround]
  cases hleft : type.left with
  | true => simp [padLoop_text, -Int32.toNat_toInt]
  | false =>
    rw [hleft] at hsize
    cases hzeropad : type.zeropad with
    | true =>
      have hsize : -2 ^ 31 + 2 ≤ size.toInt := by rwa [hzeropad] at hsize
      have hrest := padLoop_rest (c := byte '0') (show -2 ^ 31 < size.toInt by omega)
      have hnil := padLoop_nil (c := byte ' ') (show (padLoop (byte '0') size).2.toInt ≤ 0 by omega)
      simp [hnil, padLoop_text, -Int32.toNat_toInt]
    | false =>
      have hsize : -2 ^ 31 + 3 ≤ size.toInt := by rwa [hzeropad] at hsize
      have hrest := padLoop_rest (c := byte ' ') (show -2 ^ 31 < size.toInt by omega)
      have hnil := padLoop_nil (c := byte ' ') (show (padLoop (byte ' ') size).2.toInt ≤ 0 by omega)
      have hrest' := padLoop_rest (c := byte ' ')
        (show -2 ^ 31 < (padLoop (byte ' ') size).2.toInt by omega)
      have hnil' := padLoop_nil (c := byte ' ')
        (show (padLoop (byte ' ') (padLoop (byte ' ') size).2).2.toInt ≤ 0 by omega)
      simp [hnil, hnil', padLoop_text, -Int32.toNat_toInt]

theorem Fits.lt (h : Fits num base size precision type) :
    -2 ^ 31 < size.toInt - bareWidth num base precision type := by
  rw [Fits] at h
  split_ifs at h
  all_goals omega

theorem Fits.left_eq (hbase : Base base) (h : Fits num base size precision type) :
    (sizeLeft type num base size - raised type base num precision).toInt =
      size.toInt - bareWidth num base precision type := by
  have hlt := size.toInt_lt
  have hfits := h.lt
  rw [bareWidth] at hfits ⊢
  have hpos : (0 : Int) < digitCount base.toInt.toNat (magnitude type num) :=
    Int.natCast_pos.mpr (Nat.succ_pos _)
  have hleft := sizeLeft_eq type num base size (by omega)
  have hwidth := raised_eq hbase type num precision
  rw [toInt_sub_of_fits, hleft, hwidth]
  all_goals omega

theorem parse_digits (h : Base base) (type : Flags) (num : Int64) (n : Nat) :
    parse base.toInt.toNat (List.replicate n (byte '0') ++ (tmpDigits type base num).reverse) =
      some (magnitude type num) := by
  have hge := h.ge
  have hle := h.le
  exact parse_numeral (by omega) (fun d hd => digitValue_digitChar type (by omega)) n _

theorem renders_of_parts (h : Base base) {text : List UInt8} (before zeros after : Nat)
    (htext : text = List.replicate before (byte ' ') ++ (signChar type num).toList ++
      specialChars type base (locase type) ++
      (List.replicate zeros (byte '0') ++ (tmpDigits type base num).reverse) ++
      List.replicate after (byte ' '))
    (hwidth : (before + zeros + after : Int) + signWidth type num + radixWidth type base +
      digitCount base.toInt.toNat (magnitude type num) =
        max size.toInt (bareWidth num base precision type))
    (hside : if type.left then before = 0 else after = 0) :
    Renders num base size precision type text where
  length := by
    rw [htext, ← hwidth]
    simp only [List.length_append, List.length_replicate, List.length_reverse, length_tmpDigits h,
      (sign_signChar type num).length, (radix_specialChars type base).length]
    omega
  parts := ⟨before, _, _, _, after, sign_signChar type num, radix_specialChars type base, htext,
    parse_digits h type num zeros, hside⟩

theorem renders_numberText (hbase : Base base) (hfits : Fits num base size precision type) :
    Renders num base size precision type (numberText num base size precision type) := by
  rw [numberText]
  have hleft := hfits.left_eq hbase
  have hraised := raised_eq hbase type num precision
  have hcount := toInt_ofNat_length hbase type num
  rw [padAround_eq (by rw [hleft]; exact hfits), hleft, zeroLoop, downLoop_text, hraised, hcount]
  generalize hzeros : (max (digitCount base.toInt.toNat (magnitude type num) : Int) precision.toInt -
    digitCount base.toInt.toNat (magnitude type num)).toNat = zeros
  generalize hpad : (size.toInt - bareWidth num base precision type).toNat = pad
  have hwidth : (pad + zeros : Int) + signWidth type num + radixWidth type base +
      digitCount base.toInt.toNat (magnitude type num) = max size.toInt (bareWidth num base precision type) := by
    rw [← hpad, ← hzeros, bareWidth]
    omega
  cases hl : type.left with
  | true =>
    refine renders_of_parts hbase 0 zeros pad ?_ (by omega) (by rw [hl]; rfl)
    simp
  | false =>
    cases hz : type.zeropad with
    | true =>
      refine renders_of_parts hbase 0 (pad + zeros) 0 ?_ (by omega) (by rw [hl]; rfl)
      simp [← List.replicate_append_replicate]
    | false =>
      refine renders_of_parts hbase pad zeros 0 ?_ (by omega) (by rw [hl]; rfl)
      simp

/-- **A number is written as it should be**: in the width asked for, the sign and the
prefix that are due, and digits that parse back to the value. -/
theorem number_renders (num : Int64) (base size precision : Int32) (type : Flags) (hbase : Base base)
    (hfits : Fits num base size precision type) :
    ∃ text, number num base size precision type = .ok (some text) ∧
      Renders num base size precision type text :=
  ⟨_, number_eq hbase num size precision type, renders_numberText hbase hfits⟩

/-- `%025ld` of the most negative `long`. -/
theorem number_renders_least :
    ∃ text, number (-0x8000000000000000) 10 25 (-1) ⟨true, true, false, false, false, false, false⟩ =
        .ok (some text) ∧
      Renders (-0x8000000000000000) 10 25 (-1) ⟨true, true, false, false, false, false, false⟩ text :=
  number_renders _ 10 25 (-1) _ ⟨by decide, by decide⟩ (by decide)

end Yaos.Printk
