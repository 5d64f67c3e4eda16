import Yaos.Printk.Number

/-!
# Formats (`vsprintf` of `kernel/printk.c`)

The format is scanned by position. A conversion is a `%` with flags, a width, a
precision and a qualifier, each of them possibly missing, and one more character;
where the format ends inside one, a `%` is written and the position is stepped
back, to be on the terminator after the loop's own step. A read after the
terminator is a fault, so that a run without one has made no such read.
-/

namespace Yaos.Printk

open Yaos.Lib

/-! ## The code -/

/-- `*fmt`; the characters are followed by the terminator. -/
def fetch (fmt : List UInt8) (pos : Nat) : Outcome UInt8 :=
  match fmt[pos]? with
  | some c => .ok c
  | none => if pos = fmt.length then .ok 0 else .error .fault

/-- The words that `va_arg` takes one after the other, and the memory that those
of them that are pointers point to. -/
structure Args where
  word : Nat → UInt64
  mem : UInt64 → UInt8

/-- `va_arg(args, int)`. -/
def Args.int (args : Args) (arg : Nat) : Int32 := (args.word arg).toUInt32.toInt32

/-- `isdigit`. -/
def isdigit (c : UInt8) : Bool := byte '0' ≤ c && c ≤ byte '9'

/-- `skip_atoi`. -/
def skipAtoi (fmt : List UInt8) : Nat → Nat → Int32 → Outcome (Nat × Int32)
  | 0, _, _ => .error .spin
  | fuel + 1, pos, i => do
      let c ← fetch fmt pos
      if isdigit c then skipAtoi fmt fuel (pos + 1) (i * 10 + Int32.ofNat c.toNat - 48)
      else .ok (pos, i)

/-- What the scanner has found of a conversion, and how far it is. -/
structure Conversion where
  pos : Nat
  arg : Nat
  flags : Flags
  fieldWidth : Int32
  precision : Int32
  qualifier : Option UInt8

def setFlag (c : UInt8) (flags : Flags) : Option Flags :=
  if c = byte '-' then some { flags with left := true }
  else if c = byte '+' then some { flags with plus := true }
  else if c = byte ' ' then some { flags with space := true }
  else if c = byte '#' then some { flags with special := true }
  else if c = byte '0' then some { flags with zeropad := true }
  else none

/-- `repeat:` and the `goto`s to it. -/
def getFlags (fmt : List UInt8) : Nat → Conversion → Outcome Conversion
  | 0, _ => .error .spin
  | fuel + 1, s => do
      let pos := s.pos + 1
      let c ← fetch fmt pos
      match setFlag c s.flags with
      | some flags => getFlags fmt fuel { s with pos := pos, flags := flags }
      | none => .ok { s with pos := pos }

def getWidth (fmt : List UInt8) (args : Args) (fuel : Nat) (s : Conversion) : Outcome Conversion := do
  let c ← fetch fmt s.pos
  if isdigit c then do
    let (pos, width) ← skipAtoi fmt fuel s.pos 0
    .ok { s with pos := pos, fieldWidth := width }
  else if c = byte '*' then
    let width := args.int s.arg
    let s := { s with pos := s.pos + 1, arg := s.arg + 1 }
    if width < 0 then .ok { s with fieldWidth := -width, flags := { s.flags with left := true } }
    else .ok { s with fieldWidth := width }
  else .ok { s with fieldWidth := -1 }

/-- The precision, which is not below zero if there is one. -/
def getPrecision (fmt : List UInt8) (args : Args) (fuel : Nat) (s : Conversion) : Outcome Conversion := do
  let c ← fetch fmt s.pos
  if c = byte '.' then do
    let c ← fetch fmt (s.pos + 1)
    if isdigit c then do
      let (pos, precision) ← skipAtoi fmt fuel (s.pos + 1) 0
      .ok { s with pos := pos, precision := if precision < 0 then 0 else precision }
    else if c = byte '*' then
      let precision := args.int s.arg
      .ok { s with pos := s.pos + 2, arg := s.arg + 1, precision := if precision < 0 then 0 else precision }
    else .ok { s with pos := s.pos + 1, precision := 0 }
  else .ok { s with precision := -1 }

def isQualifier (c : UInt8) : Bool := c = byte 'h' || c = byte 'l' || c = byte 'L'

def getQualifier (fmt : List UInt8) (s : Conversion) : Outcome Conversion := do
  let c ← fetch fmt s.pos
  if isQualifier c then .ok { s with pos := s.pos + 1, qualifier := some c }
  else .ok { s with qualifier := none }

/-- From the `%` at `pos` to the character that says what is converted. -/
def scan (fmt : List UInt8) (args : Args) (fuel pos arg : Nat) : Outcome Conversion := do
  let s ← getFlags fmt fuel ⟨pos, arg, ⟨false, false, false, false, false, false, false⟩, -1, -1, none⟩
  let s ← getWidth fmt args fuel s
  let s ← getPrecision fmt args fuel s
  getQualifier fmt s

/-- What `%n` stores. -/
inductive Store where
  | int (ip : UInt64) (value : Int32)
  | long (ip : UInt64) (value : Int64)

/-- What a conversion writes and stores, and the argument after it. -/
structure Emit where
  text : List UInt8
  arg : Nat
  stores : List Store

/-- `while (--field_width > 0) *str++ = ' ';` -/
def fieldLoop (width : Int32) : List UInt8 × Int32 :=
  if 0 < width - 1 then
    let (text, width) := fieldLoop (width - 1)
    (byte ' ' :: text, width)
  else ([], width - 1)
termination_by (width - 1).toInt.toNat
decreasing_by
  rename_i hpos
  have hpos : 0 < (width - 1).toInt := Int32.lt_iff_toInt_lt.mp hpos
  rw [toInt_pred (by omega)]
  omega

/-- `case 'c'`. -/
def convertChar (args : Args) (s : Conversion) : Emit :=
  let (blanks, width) := if s.flags.left then ([], s.fieldWidth) else fieldLoop s.fieldWidth
  let (rest, _) := fieldLoop width
  ⟨blanks ++ [(args.word s.arg).toUInt8] ++ rest, s.arg + 1, []⟩

/-- `strnlen`. -/
def strnlen (mem : UInt64 → UInt8) (es maxlen : UInt64) : UInt64 :=
  if mem es ≠ 0 ∧ maxlen ≠ 0 then strnlen mem (es + 1) (maxlen - 1) + 1 else 0
termination_by maxlen.toNat
decreasing_by
  rename_i h
  have hpos : maxlen.toNat ≠ 0 := fun hzero => h.2 (UInt64.toNat_inj.mp hzero)
  have hle : 1 ≤ maxlen := UInt64.le_iff_toNat_le.mpr (Nat.pos_of_ne_zero hpos)
  have hone : (1 : UInt64).toNat = 1 := rfl
  rw [UInt64.toNat_sub_of_le _ _ hle, hone]
  omega

/-- `for (i = 0; i < len; ++i) *str++ = *s++;` -/
def copyLoop (mem : UInt64 → UInt8) (s : UInt64) (i len : Int32) : List UInt8 :=
  if i < len then mem s :: copyLoop mem (s + 1) (i + 1) len else []
termination_by (len.toInt - i.toInt).toNat
decreasing_by
  rename_i hlt
  have hlt : i.toInt < len.toInt := Int32.lt_iff_toInt_lt.mp hlt
  have := len.toInt_lt
  have := i.le_toInt
  have hsucc : (i + 1).toInt = i.toInt + 1 := by
    rw [Int32.toInt_add]
    exact Int.bmod_eq_of_le_mul_two (by change -_ ≤ (i.toInt + 1) * 2; omega)
      (by change (i.toInt + 1) * 2 < _; omega)
  omega

/-- `case 's'`. -/
def convertString (args : Args) (s : Conversion) : Emit :=
  let ptr := args.word s.arg
  let len := (strnlen args.mem ptr s.precision.toInt64.toUInt64).toUInt32.toInt32
  let (blanks, width) :=
    if s.flags.left then ([], s.fieldWidth) else downLoop len (byte ' ') s.fieldWidth
  let (rest, _) := downLoop len (byte ' ') width
  ⟨blanks ++ copyLoop args.mem ptr 0 len ++ rest, s.arg + 1, []⟩

/-- `case 'n'`, after `count` characters. -/
def convertCount (args : Args) (count : Nat) (s : Conversion) : Emit :=
  let ip := args.word s.arg
  ⟨[], s.arg + 1,
    [if s.qualifier = some (byte 'l') then .long ip (Int64.ofNat count) else .int ip (Int32.ofNat count)]⟩

/-- A call of `number`; a null pointer as `str` faults at the next character. -/
def convertNumber (num : Int64) (base : Int32) (s : Conversion) : Outcome Emit := do
  match ← number num base s.fieldWidth s.precision s.flags with
  | some text => .ok ⟨text, s.arg + 1, []⟩
  | none => .error .fault

/-- `case 'p'`. -/
def convertPointer (args : Args) (s : Conversion) : Outcome Emit :=
  let num := (args.word s.arg).toInt64
  if s.fieldWidth = -1 then
    convertNumber num 16 { s with fieldWidth := 16, flags := { s.flags with zeropad := true } }
  else convertNumber num 16 s

def convertInteger (args : Args) (base : Int32) (s : Conversion) : Outcome Emit :=
  let word := args.word s.arg
  let num :=
    if s.qualifier = some (byte 'l') then word.toInt64
    else if s.qualifier = some (byte 'h') then
      if s.flags.sign then word.toUInt16.toInt16.toInt64 else word.toUInt16.toUInt64.toInt64
    else if s.flags.sign then word.toUInt32.toInt32.toInt64
    else word.toUInt32.toUInt64.toInt64
  convertNumber num base s

/-- The second switch, on the character `c`. -/
def convert (args : Args) (count : Nat) (s : Conversion) (c : UInt8) : Outcome Emit :=
  if c = byte 'c' then .ok (convertChar args s)
  else if c = byte 's' then .ok (convertString args s)
  else if c = byte 'p' then convertPointer args s
  else if c = byte 'n' then .ok (convertCount args count s)
  else if c = byte '%' then .ok ⟨[byte '%'], s.arg, []⟩
  else if c = byte 'o' then convertInteger args 8 s
  else if c = byte 'x' then convertInteger args 16 { s with flags := { s.flags with small := true } }
  else if c = byte 'X' then convertInteger args 16 s
  else if c = byte 'd' || c = byte 'i' then
    convertInteger args 10 { s with flags := { s.flags with sign := true } }
  else if c = byte 'u' then convertInteger args 10 s
  else if c ≠ 0 then .ok ⟨[byte '%', c], s.arg, []⟩
  else .ok ⟨[byte '%'], s.arg, []⟩

/-- The text before the terminator, what `%n` has stored, and the return value. -/
structure Printed where
  text : List UInt8
  stores : List Store
  value : Int32

/-- The loop of `vsprintf`. -/
def printLoop (fmt : List UInt8) (args : Args) :
    Nat → Nat → Nat → List UInt8 → List Store → Outcome Printed
  | 0, _, _, _, _ => .error .spin
  | fuel + 1, pos, arg, text, stores => do
      let c ← fetch fmt pos
      if c = 0 then .ok ⟨text, stores, Int32.ofNat text.length⟩
      else if c ≠ byte '%' then printLoop fmt args fuel (pos + 1) arg (text ++ [c]) stores
      else do
        let s ← scan fmt args fuel pos arg
        let c ← fetch fmt s.pos
        let e ← convert args text.length s c
        -- `--fmt` at the terminator, then the loop's own `++fmt`
        let pos := if c = 0 then s.pos - 1 else s.pos
        printLoop fmt args fuel (pos + 1) e.arg (text ++ e.text) (stores ++ e.stores)

/-- `vsprintf`. -/
def vsprintf (fuel : Nat) (fmt : List UInt8) (args : Args) : Outcome Printed :=
  printLoop fmt args fuel 0 0 [] []

/-! ## What should be printed -/

/-- The characters of `setFlag`. -/
def isFlag (c : UInt8) : Bool :=
  c = byte '-' || c = byte '+' || c = byte ' ' || c = byte '#' || c = byte '0'

/-- The format after a number or a `*`. -/
def afterAmount : List UInt8 → List UInt8
  | [] => []
  | c :: l => if c = byte '*' then l else (c :: l).dropWhile isdigit

def afterPrecision : List UInt8 → List UInt8
  | [] => []
  | c :: l => if c = byte '.' then afterAmount l else c :: l

def afterQualifier : List UInt8 → List UInt8
  | [] => []
  | c :: l => if isQualifier c then l else c :: l

/-- The format after a conversion, of which the `%` has been taken. -/
def afterConversion (l : List UInt8) : List UInt8 :=
  (afterQualifier (afterPrecision (afterAmount (l.dropWhile isFlag)))).tail

/-- A text for a format: what is not in a conversion is copied, in order. -/
inductive Prints : List UInt8 → List UInt8 → Prop where
  | nil : Prints [] []
  | char {c : UInt8} {l text : List UInt8} (h : c ≠ byte '%') (rest : Prints l text) :
      Prints (c :: l) (c :: text)
  | conversion {l text : List UInt8} (piece : List UInt8) (rest : Prints (afterConversion l) text) :
      Prints (byte '%' :: l) (piece ++ text)

/-! ## The scanner -/

/-- `pos` is on the first of the characters `l`, or on the terminator after none. -/
structure At (fmt : List UInt8) (pos : Nat) (l : List UInt8) : Prop where
  le : pos ≤ fmt.length
  rest : fmt.drop pos = l

variable {fmt l : List UInt8} {pos fuel : Nat} {c : UInt8} {args : Args}

theorem At.fetch_nil (h : At fmt pos []) : fetch fmt pos = .ok 0 := by
  have hlen : fmt.length ≤ pos := List.drop_eq_nil_iff.mp h.rest
  rw [fetch, List.getElem?_eq_none hlen]
  exact if_pos (Nat.le_antisymm h.le hlen)

theorem At.fetch_cons (h : At fmt pos (c :: l)) : fetch fmt pos = .ok c := by
  have hget : fmt[pos]? = some c := by
    rw [← List.head?_drop, h.rest]
    rfl
  rw [fetch, hget]

theorem At.next (h : At fmt pos (c :: l)) : At fmt (pos + 1) l where
  le := by
    have := congrArg List.length h.rest
    rw [List.length_drop, List.length_cons] at this
    omega
  rest := by rw [← List.tail_drop, h.rest, List.tail_cons]

theorem At.mem (h : At fmt pos (c :: l)) : c ∈ fmt := by
  have hmem : c ∈ fmt.drop pos := by
    rw [h.rest]
    exact List.mem_cons_self
  exact List.mem_of_mem_drop hmem

theorem skipAtoi_spec (h : At fmt pos l) (i : Int32) :
    ∃ p n, At fmt p (l.dropWhile isdigit) ∧
      ∀ fuel, l.length < fuel → skipAtoi fmt fuel pos i = .ok (p, n) := by
  induction l generalizing pos i with
  | nil =>
    refine ⟨pos, i, h, fun fuel hfuel => ?_⟩
    obtain ⟨f, rfl⟩ := Nat.exists_eq_add_one_of_ne_zero (Nat.ne_zero_of_lt hfuel)
    rw [skipAtoi, h.fetch_nil]
    rfl
  | cons c l ih =>
    cases hc : isdigit c with
    | true =>
      obtain ⟨p, n, hp, hskip⟩ := ih h.next (i * 10 + Int32.ofNat c.toNat - 48)
      rw [List.dropWhile_cons_of_pos hc]
      refine ⟨p, n, hp, fun fuel hfuel => ?_⟩
      obtain ⟨f, rfl⟩ := Nat.exists_eq_add_one_of_ne_zero (Nat.ne_zero_of_lt hfuel)
      rw [skipAtoi, h.fetch_cons, ok_bind, if_pos hc]
      exact hskip f (Nat.lt_of_succ_lt_succ hfuel)
    | false =>
      have hc' : ¬ isdigit c = true := Bool.not_eq_true _ ▸ hc
      rw [List.dropWhile_cons_of_neg hc']
      refine ⟨pos, i, h, fun fuel hfuel => ?_⟩
      obtain ⟨f, rfl⟩ := Nat.exists_eq_add_one_of_ne_zero (Nat.ne_zero_of_lt hfuel)
      rw [skipAtoi, h.fetch_cons, ok_bind, if_neg hc']

theorem setFlag_none (hc : ¬ isFlag c) (flags : Flags) : setFlag c flags = none := by
  simp only [isFlag, Bool.or_eq_true, decide_eq_true_eq, not_or] at hc
  obtain ⟨⟨⟨⟨hminus, hplus⟩, hspace⟩, hspecial⟩, hzero⟩ := hc
  rw [setFlag, if_neg hminus, if_neg hplus, if_neg hspace, if_neg hspecial, if_neg hzero]

theorem setFlag_some (hc : isFlag c) (flags : Flags) : ∃ f, setFlag c flags = some f := by
  rw [setFlag]
  split_ifs with hminus hplus hspace hspecial hzero
  · exact ⟨_, rfl⟩
  · exact ⟨_, rfl⟩
  · exact ⟨_, rfl⟩
  · exact ⟨_, rfl⟩
  · exact ⟨_, rfl⟩
  · simp [isFlag, hminus, hplus, hspace, hspecial, hzero] at hc

theorem getFlags_spec (s : Conversion) (h : At fmt (s.pos + 1) l) :
    ∃ t : Conversion, At fmt t.pos (l.dropWhile isFlag) ∧
      ∀ fuel, l.length < fuel → getFlags fmt fuel s = .ok t := by
  induction l generalizing s with
  | nil =>
    refine ⟨{ s with pos := s.pos + 1 }, h, fun fuel hfuel => ?_⟩
    obtain ⟨f, rfl⟩ := Nat.exists_eq_add_one_of_ne_zero (Nat.ne_zero_of_lt hfuel)
    rw [getFlags, h.fetch_nil]
    rfl
  | cons c l ih =>
    by_cases hc : isFlag c
    · obtain ⟨flags, hflags⟩ := setFlag_some hc s.flags
      obtain ⟨t, ht, hget⟩ := ih { s with pos := s.pos + 1, flags := flags } h.next
      rw [List.dropWhile_cons_of_pos hc]
      refine ⟨t, ht, fun fuel hfuel => ?_⟩
      obtain ⟨f, rfl⟩ := Nat.exists_eq_add_one_of_ne_zero (Nat.ne_zero_of_lt hfuel)
      rw [getFlags, h.fetch_cons, ok_bind, hflags]
      exact hget f (Nat.lt_of_succ_lt_succ hfuel)
    · rw [List.dropWhile_cons_of_neg hc]
      refine ⟨{ s with pos := s.pos + 1 }, h, fun fuel hfuel => ?_⟩
      obtain ⟨f, rfl⟩ := Nat.exists_eq_add_one_of_ne_zero (Nat.ne_zero_of_lt hfuel)
      rw [getFlags, h.fetch_cons, ok_bind, setFlag_none hc]

/-- **A number, a `*` or neither**, as the width and the precision can be. -/
theorem amount_cases (h : At fmt pos l) : ∃ c, fetch fmt pos = .ok c ∧
    ((isdigit c = true ∧ ∃ p n, At fmt p (afterAmount l) ∧
        ∀ fuel, l.length < fuel → skipAtoi fmt fuel pos 0 = .ok (p, n)) ∨
      (¬ isdigit c = true ∧ c = byte '*' ∧ At fmt (pos + 1) (afterAmount l)) ∨
      ¬ isdigit c = true ∧ c ≠ byte '*' ∧ At fmt pos (afterAmount l)) := by
  cases l with
  | nil => exact ⟨0, h.fetch_nil, .inr (.inr ⟨by decide, by decide, h⟩)⟩
  | cons c l =>
    refine ⟨c, h.fetch_cons, ?_⟩
    rw [afterAmount]
    by_cases hstar : c = byte '*'
    · rw [if_pos hstar]
      exact .inr (.inl ⟨by rw [hstar]; decide, hstar, h.next⟩)
    · rw [if_neg hstar]
      by_cases hdigit : isdigit c = true
      · exact .inl ⟨hdigit, skipAtoi_spec h 0⟩
      · rw [List.dropWhile_cons_of_neg hdigit]
        exact .inr (.inr ⟨hdigit, hstar, h⟩)

theorem getWidth_spec (args : Args) (s : Conversion) (h : At fmt s.pos l) :
    ∃ t : Conversion, At fmt t.pos (afterAmount l) ∧
      ∀ fuel, l.length < fuel → getWidth fmt args fuel s = .ok t := by
  obtain ⟨c, hc, ⟨hdigit, p, n, hp, hskip⟩ | ⟨hdigit, hstar, hnext⟩ | ⟨hdigit, hstar, hsame⟩⟩ :=
    amount_cases h
  · refine ⟨{ s with pos := p, fieldWidth := n }, hp, fun fuel hfuel => ?_⟩
    rw [getWidth, hc, ok_bind, if_pos hdigit, hskip fuel hfuel]
    rfl
  · by_cases hneg : args.int s.arg < 0
    · let flags := { s.flags with left := true }
      refine ⟨⟨s.pos + 1, s.arg + 1, flags, -args.int s.arg, s.precision, s.qualifier⟩, hnext,
        fun fuel hfuel => ?_⟩
      rw [getWidth, hc, ok_bind, if_neg hdigit, if_pos hstar]
      exact if_pos hneg
    · refine ⟨⟨s.pos + 1, s.arg + 1, s.flags, args.int s.arg, s.precision, s.qualifier⟩, hnext,
        fun fuel hfuel => ?_⟩
      rw [getWidth, hc, ok_bind, if_neg hdigit, if_pos hstar]
      exact if_neg hneg
  · refine ⟨{ s with fieldWidth := -1 }, hsame, fun fuel hfuel => ?_⟩
    rw [getWidth, hc, ok_bind, if_neg hdigit, if_neg hstar]

theorem getPrecision_spec (args : Args) (s : Conversion) (h : At fmt s.pos l) :
    ∃ t : Conversion, At fmt t.pos (afterPrecision l) ∧
      ∀ fuel, l.length < fuel → getPrecision fmt args fuel s = .ok t := by
  cases l with
  | nil =>
    refine ⟨{ s with precision := -1 }, h, fun fuel hfuel => ?_⟩
    rw [getPrecision, h.fetch_nil]
    rfl
  | cons c l =>
    rw [afterPrecision]
    by_cases hdot : c = byte '.'
    swap
    · rw [if_neg hdot]
      refine ⟨{ s with precision := -1 }, h, fun fuel hfuel => ?_⟩
      rw [getPrecision, h.fetch_cons, ok_bind, if_neg hdot]
    rw [if_pos hdot]
    obtain ⟨c', hc', ⟨hdigit, p, n, hp, hskip⟩ | ⟨hdigit, hstar, hnext⟩ | ⟨hdigit, hstar, hsame⟩⟩ :=
      amount_cases h.next
    · refine ⟨{ s with pos := p, precision := if n < 0 then 0 else n }, hp, fun fuel hfuel => ?_⟩
      rw [getPrecision, h.fetch_cons, ok_bind, if_pos hdot, hc', ok_bind, if_pos hdigit,
        hskip fuel (Nat.lt_of_succ_lt hfuel)]
      rfl
    · let n := args.int s.arg
      refine ⟨{ s with pos := s.pos + 2, arg := s.arg + 1, precision := if n < 0 then 0 else n },
        hnext, fun fuel hfuel => ?_⟩
      rw [getPrecision, h.fetch_cons, ok_bind, if_pos hdot, hc', ok_bind, if_neg hdigit, if_pos hstar]
    · refine ⟨{ s with pos := s.pos + 1, precision := 0 }, hsame, fun fuel hfuel => ?_⟩
      rw [getPrecision, h.fetch_cons, ok_bind, if_pos hdot, hc', ok_bind, if_neg hdigit, if_neg hstar]

theorem getQualifier_spec (s : Conversion) (h : At fmt s.pos l) :
    ∃ t : Conversion, At fmt t.pos (afterQualifier l) ∧ getQualifier fmt s = .ok t := by
  cases l with
  | nil =>
    refine ⟨{ s with qualifier := none }, h, ?_⟩
    rw [getQualifier, h.fetch_nil]
    rfl
  | cons c l =>
    rw [afterQualifier]
    by_cases hc : isQualifier c
    · refine ⟨{ s with pos := s.pos + 1, qualifier := some c }, ?_, ?_⟩
      · rw [if_pos hc]
        exact h.next
      · rw [getQualifier, h.fetch_cons, ok_bind, if_pos hc]
    · refine ⟨{ s with qualifier := none }, ?_, ?_⟩
      · rw [if_neg hc]
        exact h
      · rw [getQualifier, h.fetch_cons, ok_bind, if_neg hc]

theorem convertNumber_spec {base : Int32} (h : Base base) (num : Int64) (s : Conversion) :
    convertNumber num base s =
      .ok ⟨numberText num base s.fieldWidth s.precision s.flags, s.arg + 1, []⟩ := by
  rw [convertNumber, number_eq h]
  rfl

theorem convertInteger_spec (args : Args) {base : Int32} (h : Base base) (s : Conversion) :
    ∃ e, convertInteger args base s = .ok e :=
  ⟨_, convertNumber_spec h _ s⟩

theorem convertPointer_spec (args : Args) (s : Conversion) : ∃ e, convertPointer args s = .ok e :=
  have h16 : Base 16 := ⟨by decide, by decide⟩
  exists_ite_ok ⟨_, convertNumber_spec h16 _ _⟩ ⟨_, convertNumber_spec h16 _ _⟩

theorem convert_spec (args : Args) (count : Nat) (s : Conversion) (c : UInt8) :
    ∃ e, convert args count s c = .ok e := by
  have h8 : Base 8 := ⟨by decide, by decide⟩
  have h10 : Base 10 := ⟨by decide, by decide⟩
  have h16 : Base 16 := ⟨by decide, by decide⟩
  rw [convert]
  refine exists_ite_ok ⟨_, rfl⟩ ?_
  refine exists_ite_ok ⟨_, rfl⟩ ?_
  refine exists_ite_ok (convertPointer_spec args s) ?_
  refine exists_ite_ok ⟨_, rfl⟩ ?_
  refine exists_ite_ok ⟨_, rfl⟩ ?_
  refine exists_ite_ok (convertInteger_spec args h8 s) ?_
  refine exists_ite_ok (convertInteger_spec args h16 _) ?_
  refine exists_ite_ok (convertInteger_spec args h16 s) ?_
  refine exists_ite_ok (convertInteger_spec args h10 _) ?_
  refine exists_ite_ok (convertInteger_spec args h10 s) ?_
  exact exists_ite_ok ⟨_, rfl⟩ ⟨_, rfl⟩

theorem length_afterAmount (l : List UInt8) : (afterAmount l).length ≤ l.length := by
  cases l with
  | nil => exact Nat.le_refl 0
  | cons c l =>
    rw [afterAmount]
    split
    · exact Nat.le_succ _
    · exact (List.dropWhile_suffix _).length_le

theorem length_afterPrecision (l : List UInt8) : (afterPrecision l).length ≤ l.length := by
  cases l with
  | nil => exact Nat.le_refl 0
  | cons c l =>
    rw [afterPrecision]
    split
    · exact Nat.le_succ_of_le (length_afterAmount l)
    · exact Nat.le_refl _

theorem length_afterQualifier (l : List UInt8) : (afterQualifier l).length ≤ l.length := by
  cases l with
  | nil => exact Nat.le_refl 0
  | cons c l =>
    rw [afterQualifier]
    split
    · exact Nat.le_succ _
    · exact Nat.le_refl _

theorem length_afterConversion (l : List UInt8) : (afterConversion l).length ≤ l.length := by
  have hflags : (l.dropWhile isFlag).length ≤ l.length := (List.dropWhile_suffix _).length_le
  have hamount := length_afterAmount (l.dropWhile isFlag)
  have hprecision := length_afterPrecision (afterAmount (l.dropWhile isFlag))
  have hqualifier := length_afterQualifier (afterPrecision (afterAmount (l.dropWhile isFlag)))
  rw [afterConversion, List.length_tail]
  omega

theorem scan_spec (args : Args) (arg : Nat) (h : At fmt (pos + 1) l) :
    ∃ s : Conversion, At fmt s.pos (afterQualifier (afterPrecision (afterAmount (l.dropWhile isFlag)))) ∧
      ∀ fuel, l.length < fuel → scan fmt args fuel pos arg = .ok s := by
  have hflags : (l.dropWhile isFlag).length ≤ l.length := (List.dropWhile_suffix _).length_le
  have hamount := length_afterAmount (l.dropWhile isFlag)
  obtain ⟨s₁, h₁, hgetFlags⟩ := getFlags_spec
    ⟨pos, arg, ⟨false, false, false, false, false, false, false⟩, -1, -1, none⟩ h
  obtain ⟨s₂, h₂, hgetWidth⟩ := getWidth_spec args s₁ h₁
  obtain ⟨s₃, h₃, hgetPrecision⟩ := getPrecision_spec args s₂ h₂
  obtain ⟨s₄, h₄, hgetQualifier⟩ := getQualifier_spec s₃ h₃
  refine ⟨s₄, h₄, fun fuel hfuel => ?_⟩
  rw [scan, hgetFlags fuel hfuel, ok_bind, hgetWidth fuel (by omega), ok_bind,
    hgetPrecision fuel (by omega), ok_bind, hgetQualifier]

/-! ## The loop -/

/-- After a conversion the position is on what follows it; at the terminator it is
stepped back first. -/
theorem At.resume (h : At fmt pos l) (hpos : 0 < fmt.length) (h0 : 0 ∉ fmt) :
    ∃ c, fetch fmt pos = .ok c ∧ At fmt ((if c = 0 then pos - 1 else pos) + 1) l.tail := by
  cases l with
  | nil =>
    have hend : fmt.length ≤ pos := List.drop_eq_nil_iff.mp h.rest
    refine ⟨0, h.fetch_nil, ?_⟩
    rw [if_pos rfl, Nat.sub_add_cancel (Nat.lt_of_lt_of_le hpos hend)]
    exact h
  | cons c l =>
    refine ⟨c, h.fetch_cons, ?_⟩
    rw [if_neg fun hc : c = 0 => h0 (hc ▸ h.mem)]
    exact h.next

/-- **The loop from a position on** writes a text for what is left of the format. -/
theorem printLoop_spec (h0 : 0 ∉ fmt) (args : Args) (h : At fmt pos l) (arg : Nat) (text : List UInt8)
    (stores : List Store) :
    ∃ more stores', Prints l more ∧ ∀ fuel, l.length < fuel →
      printLoop fmt args fuel pos arg text stores =
        .ok ⟨text ++ more, stores', Int32.ofNat (text ++ more).length⟩ := by
  induction hn : l.length using Nat.strongRecOn generalizing l pos arg text stores with
  | ind n ih =>
    cases l with
    | nil =>
      refine ⟨[], stores, .nil, fun fuel hfuel => ?_⟩
      obtain ⟨f, rfl⟩ := Nat.exists_eq_add_one_of_ne_zero (Nat.ne_zero_of_lt hfuel)
      rw [printLoop, h.fetch_nil, ok_bind, if_pos rfl, List.append_nil]
    | cons c l =>
      have hc : c ≠ 0 := fun hc => h0 (hc ▸ h.mem)
      rw [List.length_cons] at hn
      by_cases hpercent : c = byte '%'
      · subst hpercent
        obtain ⟨s, hs, hscan⟩ := scan_spec args arg h.next
        obtain ⟨c, hfetch, hresume⟩ := hs.resume (List.length_pos_of_mem h.mem) h0
        obtain ⟨e, he⟩ := convert_spec args text.length s c
        have hlen := length_afterConversion l
        obtain ⟨more, stores', hmore, hrun⟩ := ih (afterConversion l).length (by omega) hresume e.arg
          (text ++ e.text) (stores ++ e.stores) rfl
        refine ⟨e.text ++ more, stores', .conversion e.text hmore, fun fuel hfuel => ?_⟩
        obtain ⟨f, rfl⟩ := Nat.exists_eq_add_one_of_ne_zero (Nat.ne_zero_of_lt hfuel)
        rw [printLoop, h.fetch_cons, ok_bind, if_neg hc, if_neg (not_not.mpr rfl), hscan f (by omega),
          ok_bind, hfetch, ok_bind, he, ok_bind, ← List.append_assoc]
        exact hrun f (by omega)
      · obtain ⟨more, stores', hmore, hrun⟩ := ih l.length (by omega) h.next arg (text ++ [c]) stores rfl
        refine ⟨c :: more, stores', .char hpercent hmore, fun fuel hfuel => ?_⟩
        obtain ⟨f, rfl⟩ := Nat.exists_eq_add_one_of_ne_zero (Nat.ne_zero_of_lt hfuel)
        rw [printLoop, h.fetch_cons, ok_bind, if_neg hc, if_pos hpercent, List.append_cons text c more]
        exact hrun f (by omega)

/-- **A format is printed** whatever it and the arguments are: the run ends without
a read after the terminator, and returns the number of characters before the
terminator of the text exactly if an `int` can hold it. -/
theorem vsprintf_prints (fmt : List UInt8) (hfmt : 0 ∉ fmt) (args : Args) :
    ∃ r, (∀ fuel, fmt.length < fuel → vsprintf fuel fmt args = .ok r) ∧ Prints fmt r.text ∧
      (r.value.toInt = r.text.length ↔ r.text.length < 2 ^ 31) := by
  obtain ⟨text, stores, hprints, hrun⟩ := printLoop_spec hfmt args ⟨Nat.zero_le _, rfl⟩ 0 [] []
  refine ⟨_, hrun, hprints, fun hvalue => ?_, fun hlt => Int32.toInt_ofNat_of_lt hlt⟩
  refine Int.ofNat_lt.mp ?_
  rw [← hvalue]
  exact Int32.toInt_lt _

/-- A format that ends after a qualifier. -/
theorem vsprintf_prints_truncated :
    ∃ r, (∀ fuel, ("a%-5.l".toList.map byte).length < fuel →
        vsprintf fuel ("a%-5.l".toList.map byte) ⟨fun _ => 0, fun _ => 0⟩ = .ok r) ∧
      Prints ("a%-5.l".toList.map byte) r.text ∧
      (r.value.toInt = r.text.length ↔ r.text.length < 2 ^ 31) :=
  vsprintf_prints _ (by decide) _

/-- `x%*d`. -/
def wideFormat : List UInt8 := [byte 'x', byte '%', byte '*', byte 'd']

def wideArgs : Args := ⟨fun arg => if arg = 0 then 0x7fffffff else 1, fun _ => 0⟩

/-- The flags of `%d`. -/
def signFlags : Flags := ⟨false, true, false, false, false, false, false⟩

theorem vsprintf_wide : vsprintf 5 wideFormat wideArgs =
    .ok ⟨byte 'x' :: numberText 1 10 0x7fffffff (-1) signFlags, [],
      Int32.ofNat (byte 'x' :: numberText 1 10 0x7fffffff (-1) signFlags).length⟩ := by
  have hscan : scan wideFormat wideArgs 3 1 0 =
      .ok ⟨3, 1, ⟨false, false, false, false, false, false, false⟩, 0x7fffffff, -1, none⟩ := rfl
  have hconvert : convert wideArgs 1
      ⟨3, 1, ⟨false, false, false, false, false, false, false⟩, 0x7fffffff, -1, none⟩ (byte 'd') =
      .ok ⟨numberText 1 10 0x7fffffff (-1) signFlags, 2, []⟩ :=
    convertNumber_spec ⟨by decide, by decide⟩ 1 _
  have hx : fetch wideFormat 0 = .ok (byte 'x') := rfl
  have hpercent : fetch wideFormat 1 = .ok (byte '%') := rfl
  have hd : fetch wideFormat 3 = .ok (byte 'd') := rfl
  have hend : fetch wideFormat 4 = .ok 0 := rfl
  rw [vsprintf, printLoop, hx, ok_bind, if_neg (by decide), if_pos (by decide), printLoop, hpercent,
    ok_bind, if_neg (by decide), if_neg (by decide), hscan, ok_bind, hd, ok_bind]
  simp only [List.nil_append, List.length_singleton, hconvert, ok_bind]
  rw [if_neg (by decide), printLoop, hend, ok_bind, if_pos rfl]
  rfl

theorem length_wide : (numberText 1 10 0x7fffffff (-1) signFlags).length = 0x7fffffff := by
  have hrenders : Renders 1 10 0x7fffffff (-1) signFlags _ :=
    renders_numberText ⟨by decide, by decide⟩ (by decide)
  have hwidth : max (0x7fffffff : Int32).toInt (bareWidth 1 10 (-1) signFlags) = 0x7fffffff := by decide
  exact Int.ofNat.inj (hrenders.length.trans hwidth)

/-- 2^31 characters are written, and -2^31 is returned. -/
theorem vsprintf_value_wraps : ∃ r, vsprintf 5 wideFormat wideArgs = .ok r ∧
    r.text.length = 2 ^ 31 ∧ r.value.toInt = -2 ^ 31 := by
  refine ⟨_, vsprintf_wide, ?_, ?_⟩
  · rw [List.length_cons, length_wide]
    rfl
  · rw [List.length_cons, length_wide]
    decide

end Yaos.Printk
