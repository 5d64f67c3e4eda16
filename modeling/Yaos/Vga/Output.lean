import Mathlib.Logic.Function.Basic
import Mathlib.Tactic.SplitIfs

/-!
# Text on the screen (`arch/x86_64/vgaoutput.c`)

`vga_puts_color` scrolls before a character if the row is past `max_ypos`, which
is the number of rows and not the last of them. So row 25 is written behind the
buffer, and only after it, with the row at 26, is there a scroll by one row, to
row 24. `Follows` relates the screen to the text laid out on a page without end:
of the rows of the page after row 24 the screen shows every other one.
-/

namespace Yaos.Vga

open Function

/-! ## The code -/

/-- A character that has been written, and the cell it has become. -/
structure Put where
  attributeByte : UInt8
  char : UInt8
  value : UInt16

/-- The cells from `VGABASE` on, the cursor, the cells that have been read or
written, and the characters that have been written. -/
structure Screen where
  mem : Nat → UInt16
  ypos : Nat
  xpos : Nat
  log : List Nat
  puts : List Put

/-- `max_ypos`. -/
def maxYpos : Nat := 25

/-- `max_xpos`. -/
def maxXpos : Nat := 80

/-- `writew`, at `VGABASE + 2 * cell`. -/
def writew (s : Screen) (value : UInt16) (cell : Nat) : Screen :=
  { s with mem := update s.mem cell value, log := cell :: s.log }

/-- `writew(readw(source), target)`. -/
def copyCell (s : Screen) (source target : Nat) : Screen :=
  writew { s with log := source :: s.log } (s.mem source) target

/-- `n` rounds of the loop that copies row `k` to row `j`. -/
def copyRow (s : Screen) (k j : Nat) : Nat → Screen
  | 0 => s
  | i + 1 => copyCell (copyRow s k j i) (maxXpos * k + i) (maxXpos * j + i)

/-- `n` rounds of the loop over the rows. -/
def copyRows (s : Screen) : Nat → Screen
  | 0 => s
  | j + 1 => copyRow (copyRows s j) (j + 1) j maxXpos

/-- `n` rounds of the loop that blanks row `j`. -/
def blankRow (s : Screen) (j : Nat) : Nat → Screen
  | 0 => s
  | i + 1 => writew (blankRow s j i) 0x720 (maxXpos * j + i)

def scroll (s : Screen) : Screen :=
  { blankRow (copyRows s (maxYpos - 1)) (maxYpos - 1) maxXpos with ypos := maxYpos - 1 }

/-- `(attribute_byte << 8) | (unsigned short)c`, where `c` is a signed `char`. -/
def cellValue (attributeByte c : UInt8) : UInt16 :=
  attributeByte.toUInt16 <<< 8 ||| c.toInt8.toInt16.toUInt16

/-- The part of the loop after the scroll. -/
def place (attributeByte : UInt8) (s : Screen) (c : UInt8) : Screen :=
  if c = 0x0a then { s with xpos := 0, ypos := s.ypos + 1 }
  else if c = 0x0d then s
  else
    let value := cellValue attributeByte c
    let t := writew s value (maxXpos * s.ypos + s.xpos)
    let t := { t with puts := ⟨attributeByte, c, value⟩ :: t.puts }
    if maxXpos ≤ s.xpos + 1 then { t with xpos := 0, ypos := s.ypos + 1 }
    else { t with xpos := s.xpos + 1 }

def putc (attributeByte : UInt8) (s : Screen) (c : UInt8) : Screen :=
  place attributeByte (if maxYpos < s.ypos then scroll s else s) c

/-- The arguments of a call; `str` ends at its first zero, or with the list. -/
structure Call where
  back : UInt8
  fore : UInt8
  str : List UInt8

/-- `attribute_byte`. -/
def Call.attributeByte (call : Call) : UInt8 := call.back <<< 4 ||| call.fore &&& 0x0f

def Call.chars (call : Call) : List UInt8 := call.str.takeWhile (· ≠ 0)

/-- `vga_puts_color`. -/
def vgaPutsColor (s : Screen) (call : Call) : Screen := call.chars.foldl (putc call.attributeByte) s

/-- Calls one after the other, on a screen with the cursor at its start. -/
def run (mem : Nat → UInt16) (calls : List Call) : Screen := calls.foldl vgaPutsColor ⟨mem, 0, 0, [], []⟩

/-! ## The page -/

structure Printed where
  row : Nat
  attributeByte : UInt8
  char : UInt8

/-- A page without end, the place of the next character, the row of the last one
(on which it depends how often the screen has been scrolled), and what has been
printed. -/
structure Page where
  cells : Nat → Nat → UInt16
  row : Nat
  col : Nat
  last : Nat
  printed : List Printed

/-- A cell with the attribute in its high byte and the character in its low byte. -/
def cellOf (attributeByte c : UInt8) : UInt16 := UInt16.ofNat (attributeByte.toNat * 256 + c.toNat)

/-- The next character: a new row at a newline, and after column 79. -/
def Page.putc (attributeByte : UInt8) (p : Page) (c : UInt8) : Page :=
  if c = 0x0a then { p with last := p.row, row := p.row + 1, col := 0 }
  else if c = 0x0d then { p with last := p.row }
  else
    { cells := update p.cells p.row
        (update (p.cells p.row) p.col (cellOf attributeByte c))
      row := if 80 ≤ p.col + 1 then p.row + 1 else p.row
      col := if 80 ≤ p.col + 1 then 0 else p.col + 1
      last := p.row
      printed := ⟨p.row, attributeByte, c⟩ :: p.printed }

/-- What is on the screen at first is on the page at its start; it is blank below. -/
def Page.start (mem : Nat → UInt16) : Page :=
  ⟨fun row col => if row < 25 then mem (80 * row + col) else 0x720, 0, 0, 0, []⟩

def layOut (mem : Nat → UInt16) (calls : List Call) : Page :=
  calls.foldl (fun p call => call.chars.foldl (Page.putc call.attributeByte) p) (Page.start mem)

/-- No access has been outside the 80 x 25 cells. -/
def Screen.Inside (s : Screen) : Prop := ∀ cell ∈ s.log, cell < 2000

/-- The attribute and the character of each cell written. -/
def Screen.Exact (s : Screen) : Prop := ∀ p ∈ s.puts, p.value = cellOf p.attributeByte p.char

/-- The screen shows the rows of the page from `top` on. -/
def Shows (s : Screen) (p : Page) (top : Nat) : Prop :=
  ∀ j < 25, ∀ i < 80, s.mem (80 * j + i) = p.cells (top + j) i

/-- What is expected of the calls. A newline, and a character in column 79, begins a
row of the text, which is among the last 25 before anything is written in it. -/
def PutsRight (mem : Nat → UInt16) (calls : List Call) : Prop :=
  (run mem calls).Inside ∧ (run mem calls).Exact ∧
    Shows (run mem calls) (layOut mem calls) ((layOut mem calls).row - 24)

/-! ## The cells -/

theorem toNat_signExtended (c : UInt8) :
    c.toInt8.toInt16.toUInt16.toNat = if c < 0x80 then c.toNat else 255 * 256 + c.toNat := by
  have hext : c.toInt8.toInt16.toUInt16.toNat = (c.toBitVec.signExtend 16).toNat := rfl
  have hlt : c < 0x80 ↔ c.toNat < 128 := UInt8.lt_iff_toNat_lt
  have hmsb : c.toBitVec.msb = decide (128 ≤ c.toNat) := BitVec.msb_eq_decide _
  have := c.toNat_lt
  rw [hext, BitVec.toNat_signExtend, BitVec.toNat_setWidth, hmsb, UInt8.toNat_toBitVec,
    Nat.mod_eq_of_lt (by omega)]
  simp only [hlt, decide_eq_true_eq]
  split_ifs
  all_goals omega

theorem or_low (a b : Nat) (hb : b < 256) : a * 256 ||| b = a * 256 + b := by
  have := Nat.shiftLeft_add_eq_or_of_lt (i := 8) hb a
  rw [Nat.shiftLeft_eq] at this
  exact this.symm

theorem or_full (a : UInt8) : a.toNat ||| 255 = 255 := by
  have h := congrArg BitVec.toNat (BitVec.or_allOnes (x := a.toBitVec))
  rw [BitVec.toNat_or, BitVec.toNat_allOnes] at h
  exact h

theorem toNat_cellValue (a c : UInt8) :
    (cellValue a c).toNat = (if c < 0x80 then a.toNat else 255) * 256 + c.toNat := by
  have ha := a.toNat_lt
  have hc := c.toNat_lt
  have hshift : (a.toUInt16 <<< 8).toNat = a.toNat * 256 := by
    rw [UInt16.toNat_shiftLeft, UInt8.toNat_toUInt16, Nat.shiftLeft_eq]
    exact Nat.mod_eq_of_lt (by change a.toNat * 256 < _; omega)
  rw [cellValue, UInt16.toNat_or, hshift, toNat_signExtended]
  split_ifs
  · exact or_low _ _ hc
  · have hfull : a.toNat * 256 ||| 255 * 256 = 255 * 256 := by
      have h := Nat.shiftLeft_or_distrib (a := a.toNat) (b := 255) (i := 8)
      rw [or_full, Nat.shiftLeft_eq, Nat.shiftLeft_eq] at h
      exact h.symm
    rw [← or_low 255 _ hc, ← Nat.or_assoc, hfull]

theorem cellValue_eq_iff (a c : UInt8) : cellValue a c = cellOf a c ↔ c < 0x80 ∨ a = 0xff := by
  have ha := a.toNat_lt
  have hc := c.toNat_lt
  have hof : (cellOf a c).toNat = a.toNat * 256 + c.toNat :=
    UInt16.toNat_ofNat_of_lt' (by change _ < 65536; omega)
  have hfull : a = 0xff ↔ a.toNat = 255 := UInt8.toNat_inj.symm
  rw [← UInt16.toNat_inj, toNat_cellValue, hof, hfull]
  split_ifs with hlow
  · exact iff_of_true rfl (.inl hlow)
  · constructor
    · intro h
      exact .inr (by omega)
    · rintro (h | h)
      · exact absurd h hlow
      · rw [h]

/-! ## The scroll -/

/-- What the loops of the scroll leave as it is. -/
structure Keeps (s t : Screen) : Prop where
  xpos : t.xpos = s.xpos
  puts : t.puts = s.puts
  inside : t.Inside ↔ s.Inside

variable {s t u : Screen} {p : Page} {j k n : Nat} {a c : UInt8}

theorem Keeps.refl (s : Screen) : Keeps s s := ⟨rfl, rfl, .rfl⟩

theorem Keeps.trans (h : Keeps s t) (h' : Keeps t u) : Keeps s u :=
  ⟨h'.xpos.trans h.xpos, h'.puts.trans h.puts, h'.inside.trans h.inside⟩

theorem inside_cons (s : Screen) (cell : Nat) (mem : Nat → UInt16) :
    Screen.Inside { s with mem := mem, log := cell :: s.log } ↔ cell < 2000 ∧ s.Inside :=
  List.forall_mem_cons

theorem writew_keeps (value : UInt16) {cell : Nat} (h : cell < 2000) : Keeps s (writew s value cell) :=
  ⟨rfl, rfl, (inside_cons s cell _).trans (and_iff_right h)⟩

theorem copyCell_keeps {source target : Nat} (hs : source < 2000) (ht : target < 2000) :
    Keeps s (copyCell s source target) := by
  have hread : Keeps s { s with log := source :: s.log } :=
    ⟨rfl, rfl, (inside_cons s source s.mem).trans (and_iff_right hs)⟩
  exact hread.trans (writew_keeps (s.mem source) ht)

theorem copyRow_keeps (hj : j < 24) (hn : n ≤ 80) : Keeps s (copyRow s (j + 1) j n) := by
  induction n with
  | zero => exact .refl s
  | succ n ih =>
    refine (ih (by omega)).trans (copyCell_keeps ?_ ?_)
    all_goals
      rw [maxXpos]
      omega

theorem copyRow_mem (hn : n ≤ 80) (cell : Nat) : (copyRow s (j + 1) j n).mem cell =
    if 80 * j ≤ cell ∧ cell < 80 * j + n then s.mem (cell + 80) else s.mem cell := by
  induction n generalizing cell with
  | zero => rw [copyRow, if_neg (by omega)]
  | succ n ih =>
    have hsource : maxXpos * (j + 1) + n = maxXpos * j + n + 80 := by rw [maxXpos]; omega
    rw [copyRow, copyCell, writew]
    dsimp only
    rw [update_apply, ih (by omega), ih (by omega), hsource, maxXpos]
    split_ifs with htarget
    all_goals first | omega | rfl | rw [htarget]

theorem copyRows_keeps (hn : n ≤ 24) : Keeps s (copyRows s n) := by
  induction n with
  | zero => exact .refl s
  | succ n ih => exact (ih (by omega)).trans (copyRow_keeps (by omega) (Nat.le_refl _))

theorem copyRows_mem (n cell : Nat) : (copyRows s n).mem cell =
    if cell < 80 * n then s.mem (cell + 80) else s.mem cell := by
  induction n generalizing cell with
  | zero => rfl
  | succ n ih =>
    rw [copyRows, maxXpos, copyRow_mem (Nat.le_refl 80), ih, ih]
    split_ifs
    all_goals first | omega | rfl

theorem blankRow_keeps (hj : j < 25) (hn : n ≤ 80) : Keeps s (blankRow s j n) := by
  induction n with
  | zero => exact .refl s
  | succ n ih =>
    refine (ih (by omega)).trans (writew_keeps _ ?_)
    rw [maxXpos]
    omega

theorem blankRow_mem (n cell : Nat) : (blankRow s j n).mem cell =
    if 80 * j ≤ cell ∧ cell < 80 * j + n then 0x720 else s.mem cell := by
  induction n generalizing cell with
  | zero => rw [blankRow, if_neg (by omega)]
  | succ n ih =>
    rw [blankRow, writew]
    dsimp only
    rw [update_apply, ih, maxXpos]
    split_ifs
    all_goals first | omega | rfl

theorem setYpos_keeps (s : Screen) (ypos : Nat) : Keeps s { s with ypos := ypos } := ⟨rfl, rfl, .rfl⟩

theorem scroll_keeps (s : Screen) : Keeps s (scroll s) := by
  have hrows : Keeps s (copyRows s (maxYpos - 1)) := copyRows_keeps (by decide)
  have hblank := hrows.trans (blankRow_keeps (j := maxYpos - 1) (n := maxXpos) (by decide) (by decide))
  exact hblank.trans (setYpos_keeps _ _)

/-- **A scroll** moves every row up by one and blanks the last. -/
theorem scroll_mem (s : Screen) {j i : Nat} (hj : j < 25) (hi : i < 80) :
    (scroll s).mem (80 * j + i) = if j < 24 then s.mem (80 * (j + 1) + i) else 0x720 := by
  have hnext : 80 * (j + 1) + i = 80 * j + i + 80 := by omega
  rw [scroll]
  dsimp only
  rw [blankRow_mem, copyRows_mem, maxYpos, maxXpos, hnext]
  split_ifs
  all_goals first | omega | rfl

/-! ## The screen follows the page -/

/-- The row of the page that is the `k`-th to have come on the screen: after row 24
every other one is left out. -/
def line (k : Nat) : Nat := if k ≤ 24 then k else 2 * k - 24

def Page.scrolls (p : Page) : Nat := (p.last - 24) / 2

/-- A row of the page that is behind the buffer when it is written. -/
def Lost (row : Nat) : Prop := 25 ≤ row ∧ row % 2 = 1

/-- A character that does not change the attribute of its cell. -/
def Plain (q : Printed) : Prop := q.char < 0x80 ∨ q.attributeByte = 0xff

/-- **The screen and the page**, after the same characters. -/
structure Follows (s : Screen) (p : Page) : Prop where
  xpos : s.xpos = p.col
  col_lt : p.col < 80
  ypos : s.ypos + 2 * p.scrolls = p.row
  row : p.row = p.last ∨ p.row = p.last + 1 ∧ p.col = 0
  blank : ∀ r i, 25 ≤ r → p.row < r ∨ p.row = r ∧ p.col ≤ i → p.cells r i = 0x720
  inside : s.Inside ↔ ∀ q ∈ p.printed, ¬ Lost q.row
  exact : s.Exact ↔ ∀ q ∈ p.printed, Plain q
  mem : s.Exact → ∀ j < 25, ∀ i < 80, s.mem (80 * j + i) = p.cells (line (p.scrolls + j)) i

theorem scrolls_start (mem : Nat → UInt16) : (Page.start mem).scrolls = 0 :=
  Nat.div_eq_of_lt (by change 0 - 24 < 2; omega)

theorem Follows.start (mem : Nat → UInt16) : Follows ⟨mem, 0, 0, [], []⟩ (Page.start mem) where
  xpos := rfl
  col_lt := Nat.zero_lt_succ 79
  ypos := by rw [scrolls_start]; rfl
  row := .inl rfl
  blank r i hr _ := if_neg (Nat.not_lt.mpr hr)
  inside := iff_of_true (fun _ h => nomatch h) (fun _ h => nomatch h)
  exact := iff_of_true (fun _ h => nomatch h) (fun _ h => nomatch h)
  mem _ j hj i _ := by
    have hline : line ((Page.start mem).scrolls + j) = j := by
      rw [line, scrolls_start, if_pos (by omega), Nat.zero_add]
    rw [hline]
    exact (if_pos hj).symm

theorem exact_congr (h : t.puts = s.puts) : t.Exact ↔ s.Exact := by
  rw [Screen.Exact, Screen.Exact, h]

/-- Where the next character is put, after the scroll. -/
structure Ready (s : Screen) (p : Page) : Prop extends Follows s p where
  last : p.last = p.row
  low : s.ypos ≤ 25

theorem Follows.begun (h : Follows s p) (hlow : 25 < s.ypos) :
    p.col = 0 ∧ p.row = 26 + 2 * p.scrolls ∧ (p.row - 24) / 2 = p.scrolls + 1 := by
  have hrow := h.row
  have hypos := h.ypos
  rw [Page.scrolls] at *
  omega

/-- What the screen shows after a scroll: the row it brings is still blank. -/
theorem Follows.scroll_mem (h : Follows s p) (hlow : 25 < s.ypos) (hexact : (scroll s).Exact) {i : Nat}
    (hj : j < 25) (hi : i < 80) :
    (scroll s).mem (80 * j + i) = p.cells (line (p.scrolls + 1 + j)) i := by
  obtain ⟨hcol, hrow, -⟩ := h.begun hlow
  rw [Vga.scroll_mem s hj hi]
  by_cases hlast : j < 24
  · have hcount : p.scrolls + 1 + j = p.scrolls + (j + 1) := by omega
    have hexact : s.Exact := (exact_congr (scroll_keeps s).puts).mp hexact
    rw [if_pos hlast, h.mem hexact (j + 1) (by omega) i hi, hcount]
  · have hline : line (p.scrolls + 1 + j) = p.row := by
      rw [line, if_neg (by omega)]
      omega
    rw [if_neg hlast, hline]
    exact (h.blank p.row i (by omega) (.inr ⟨rfl, by omega⟩)).symm

theorem Follows.scroll (h : Follows s p) (hlow : 25 < s.ypos) :
    Ready (scroll s) { p with last := p.row } := by
  obtain ⟨-, hrow, hnext⟩ := h.begun hlow
  have hscrolls : Page.scrolls { p with last := p.row } = p.scrolls + 1 := hnext
  have hkeeps := scroll_keeps s
  exact
    { xpos := hkeeps.xpos.trans h.xpos
      col_lt := h.col_lt
      ypos := by
        rw [hscrolls]
        change 24 + 2 * (p.scrolls + 1) = p.row
        omega
      row := .inl rfl
      blank := h.blank
      inside := hkeeps.inside.trans h.inside
      exact := (exact_congr hkeeps.puts).trans h.exact
      mem := by
        intro hexact j hj i hi
        rw [hscrolls]
        exact h.scroll_mem hlow hexact hj hi
      last := rfl
      low := Nat.le_succ 24 }

theorem Follows.stay (h : Follows s p) (hlow : s.ypos ≤ 25) : Ready s { p with last := p.row } := by
  have hscrolls : Page.scrolls { p with last := p.row } = p.scrolls := by
    have hrow := h.row
    have hypos := h.ypos
    rw [Page.scrolls] at *
    change (p.row - 24) / 2 = (p.last - 24) / 2
    omega
  exact
    { xpos := h.xpos
      col_lt := h.col_lt
      ypos := by
        rw [hscrolls]
        exact h.ypos
      row := .inl rfl
      blank := h.blank
      inside := h.inside
      exact := h.exact
      mem := by
        rw [hscrolls]
        exact h.mem
      last := rfl
      low := hlow }

/-- **The scroll**, if there is one, brings the row of the next character on the screen. -/
theorem Follows.ready (h : Follows s p) :
    Ready (if maxYpos < s.ypos then Vga.scroll s else s) { p with last := p.row } := by
  by_cases hlow : maxYpos < s.ypos
  · rw [if_pos hlow]
    exact h.scroll hlow
  · rw [if_neg hlow]
    exact h.stay (Nat.not_lt.mp hlow)

theorem Ready.row_eq (h : Ready s p) : s.ypos + 2 * ((p.row - 24) / 2) = p.row := by
  have := h.ypos
  rwa [Page.scrolls, h.last] at this

theorem Ready.line_eq_row (h : Ready s p) (hj : j < 25) : line (p.scrolls + j) = p.row ↔ j = s.ypos := by
  have := h.row_eq
  rw [line, Page.scrolls, h.last]
  split_ifs
  all_goals omega

theorem Ready.lost_iff (h : Ready s p) : ¬ Lost p.row ↔ maxXpos * s.ypos + s.xpos < 2000 := by
  have := h.row_eq
  have := h.low
  have := h.col_lt
  rw [Lost, maxXpos, h.xpos]
  omega

/-- The screen after a character has been written, with the cursor as it was. -/
def written (a : UInt8) (s : Screen) (c : UInt8) : Screen :=
  { writew s (cellValue a c) (maxXpos * s.ypos + s.xpos) with
    puts := ⟨a, c, cellValue a c⟩ :: s.puts }

theorem Ready.written_inside (h : Ready s p) (a c : UInt8) : (written a s c).Inside ↔
    ∀ q ∈ (⟨p.row, a, c⟩ :: p.printed : List Printed), ¬ Lost q.row := by
  rw [List.forall_mem_cons, h.lost_iff, ← h.inside]
  exact List.forall_mem_cons

theorem Ready.written_exact (h : Ready s p) (a c : UInt8) : (written a s c).Exact ↔
    ∀ q ∈ (⟨p.row, a, c⟩ :: p.printed : List Printed), Plain q := by
  rw [List.forall_mem_cons, ← h.exact, Plain, ← cellValue_eq_iff]
  exact List.forall_mem_cons

theorem Ready.written_mem (h : Ready s p) (hexact : (written a s c).Exact) {i : Nat} (hj : j < 25)
    (hi : i < 80) : (written a s c).mem (80 * j + i) =
      update p.cells p.row (update (p.cells p.row) p.col (cellOf a c))
        (line (p.scrolls + j)) i := by
  obtain ⟨hvalue, hrest⟩ := List.forall_mem_cons.mp hexact
  have hcol := h.col_lt
  have hxpos := h.xpos
  have hmem : (written a s c).mem (80 * j + i) =
      if 80 * j + i = maxXpos * s.ypos + s.xpos then cellValue a c else s.mem (80 * j + i) :=
    update_apply _ _ _ _
  rw [hmem, maxXpos]
  by_cases hrow : j = s.ypos
  · rw [(h.line_eq_row hj).mpr hrow, update_self, update_apply]
    by_cases hcell : i = p.col
    · rw [if_pos (by omega), if_pos hcell]
      exact hvalue
    · rw [if_neg (by omega), if_neg hcell, h.mem hrest j hj i hi, (h.line_eq_row hj).mpr hrow]
  · have hne : line (p.scrolls + j) ≠ p.row := fun heq => hrow ((h.line_eq_row hj).mp heq)
    rw [if_neg (by omega), update_of_ne hne, h.mem hrest j hj i hi]

theorem Ready.written_blank (h : Ready s p) (a c : UInt8) {r i : Nat} (hr : 25 ≤ r)
    (hafter : p.row < r ∨ p.row = r ∧ p.col + 1 ≤ i) :
    update p.cells p.row (update (p.cells p.row) p.col (cellOf a c)) r i = 0x720 := by
  by_cases hrow : r = p.row
  · have hcol : i ≠ p.col := by omega
    rw [hrow, update_self, update_of_ne hcol]
    exact h.blank p.row i (by omega) (.inr ⟨rfl, by omega⟩)
  · rw [update_of_ne hrow]
    exact h.blank r i hr (.inl (by omega))

/-- A page on which the last character is in the row where this one is put. -/
theorem Ready.scrolls_eq (h : Ready s p) (cells : Nat → Nat → UInt16) (row col : Nat)
    (printed : List Printed) : Page.scrolls ⟨cells, row, col, p.row, printed⟩ = p.scrolls := by
  rw [Page.scrolls, Page.scrolls, h.last]

theorem Ready.newline (h : Ready s p) :
    Follows { s with xpos := 0, ypos := s.ypos + 1 } ⟨p.cells, p.row + 1, 0, p.row, p.printed⟩ where
  xpos := rfl
  col_lt := Nat.zero_lt_succ 79
  ypos := by
    have := h.ypos
    rw [h.scrolls_eq]
    change s.ypos + 1 + 2 * p.scrolls = p.row + 1
    omega
  row := .inr ⟨rfl, rfl⟩
  blank r i hr hafter := by
    change p.row + 1 < r ∨ p.row + 1 = r ∧ 0 ≤ i at hafter
    exact h.blank r i hr (.inl (by omega))
  inside := h.inside
  exact := h.exact
  mem := by
    rw [h.scrolls_eq]
    exact h.mem

theorem Ready.advance (h : Ready s p) (a c : UInt8) (hcol : p.col + 1 < 80) :
    Follows { written a s c with xpos := s.xpos + 1 }
      ⟨update p.cells p.row (update (p.cells p.row) p.col (cellOf a c)), p.row,
        p.col + 1, p.row, ⟨p.row, a, c⟩ :: p.printed⟩ where
  xpos := congrArg (· + 1) h.xpos
  col_lt := hcol
  ypos := by
    rw [h.scrolls_eq]
    exact h.ypos
  row := .inl rfl
  blank r i hr hafter := h.written_blank a c hr hafter
  inside := h.written_inside a c
  exact := h.written_exact a c
  mem hexact j hj i hi := by
    rw [h.scrolls_eq]
    exact h.written_mem hexact hj hi

theorem Ready.wrap (h : Ready s p) (a c : UInt8) :
    Follows { written a s c with xpos := 0, ypos := s.ypos + 1 }
      ⟨update p.cells p.row (update (p.cells p.row) p.col (cellOf a c)), p.row + 1,
        0, p.row, ⟨p.row, a, c⟩ :: p.printed⟩ where
  xpos := rfl
  col_lt := Nat.zero_lt_succ 79
  ypos := by
    have := h.ypos
    rw [h.scrolls_eq]
    change s.ypos + 1 + 2 * p.scrolls = p.row + 1
    omega
  row := .inr ⟨rfl, rfl⟩
  blank r i hr hafter := by
    change p.row + 1 < r ∨ p.row + 1 = r ∧ 0 ≤ i at hafter
    exact h.written_blank a c hr (.inl (by omega))
  inside := h.written_inside a c
  exact := h.written_exact a c
  mem hexact j hj i hi := by
    rw [h.scrolls_eq]
    exact h.written_mem hexact hj hi

/-- **One character.** -/
theorem Ready.place (h : Ready s p) (a c : UInt8) : Follows (place a s c) (p.putc a c) := by
  rw [Vga.place, Page.putc]
  by_cases hnewline : c = 0x0a
  · rw [if_pos hnewline, if_pos hnewline]
    exact h.newline
  rw [if_neg hnewline, if_neg hnewline]
  by_cases hreturn : c = 0x0d
  · have hpage : { p with last := p.row } = p :=
      congrArg (fun last => { p with last := last }) h.last.symm
    rw [if_pos hreturn, if_pos hreturn, hpage]
    exact h.toFollows
  rw [if_neg hreturn, if_neg hreturn]
  dsimp only
  by_cases hwrap : 80 ≤ p.col + 1
  · have hxpos : maxXpos ≤ s.xpos + 1 := h.xpos ▸ hwrap
    rw [if_pos hwrap, if_pos hwrap, if_pos hxpos]
    exact h.wrap a c
  · have hxpos : ¬ maxXpos ≤ s.xpos + 1 := h.xpos ▸ hwrap
    rw [if_neg hwrap, if_neg hwrap, if_neg hxpos]
    exact h.advance a c (by omega)

theorem Follows.putc (h : Follows s p) (a c : UInt8) : Follows (putc a s c) (p.putc a c) :=
  h.ready.place a c

/-- **A whole run.** -/
theorem follows (mem : Nat → UInt16) (calls : List Call) : Follows (run mem calls) (layOut mem calls) :=
  List.foldl_rel (Follows.start mem) fun call _ _ _ h =>
    List.foldl_rel h fun c _ _ _ h => h.putc call.attributeByte c

/-- **The rows are right** exactly if no character is in a row that is behind the
buffer, none has changed its attribute, and the rows that have come on the screen
look like the last rows of the page, the one that has been begun included. -/
theorem puts_right_iff (mem : Nat → UInt16) (calls : List Call) :
    PutsRight mem calls ↔
      (∀ q ∈ (layOut mem calls).printed, ¬ Lost q.row) ∧ (∀ q ∈ (layOut mem calls).printed, Plain q) ∧
      ∀ j < 25, ∀ i < 80, (layOut mem calls).cells (line ((layOut mem calls).scrolls + j)) i =
        (layOut mem calls).cells ((layOut mem calls).row - 24 + j) i := by
  have h := follows mem calls
  rw [PutsRight, h.inside, ← h.exact]
  refine and_congr_right fun _ => and_congr_right fun hexact => ?_
  refine forall₂_congr fun j hj => forall₂_congr fun i hi => ?_
  rw [h.mem hexact j hj i hi]

def blank : Nat → UInt16 := fun _ => 0x720

/-- Twenty-five newlines and an `a`, in the colours of `vga_puts`. -/
def bottom : Call := ⟨0, 7, List.replicate 25 0x0a ++ [0x61]⟩

/-- The `a` is written behind the buffer and does not come on the screen, where it
should be at the start of the last row. -/
theorem bottom_row_lost : 2000 ∈ (run blank [bottom]).log ∧
    (run blank [bottom]).mem (80 * 24) = 0x720 ∧ (layOut blank [bottom]).cells 25 0 = 0x761 ∧
    ¬ PutsRight blank [bottom] := by
  have hlog : 2000 ∈ (run blank [bottom]).log := by decide +kernel
  refine ⟨hlog, by decide +kernel, by decide +kernel, fun hright => ?_⟩
  exact absurd (hright.1 2000 hlog) (Nat.lt_irrefl 2000)

/-! ## How far the code goes -/

/-- The cursor is two rows below the screen at most; behind the first of them the memory is
as it was. -/
structure Near (mem : Nat → UInt16) (s : Screen) : Prop where
  ypos : s.ypos ≤ 26
  xpos : s.xpos < 80
  mem : ∀ cell, 2080 ≤ cell → s.mem cell = mem cell

variable {mem : Nat → UInt16}

theorem Near.scroll (h : Near mem s) : Near mem (scroll s) := by
  refine ⟨Nat.le_add_right 24 2, ?_, fun cell hcell => ?_⟩
  · rw [(scroll_keeps s).xpos]
    exact h.xpos
  · rw [← h.mem cell hcell, Vga.scroll]
    dsimp only
    rw [blankRow_mem, copyRows_mem, maxYpos, maxXpos, if_neg (by omega), if_neg (by omega)]

theorem Near.place (h : Near mem s) (hy : s.ypos ≤ 25) (a c : UInt8) : Near mem (place a s c) := by
  have hx := h.xpos
  have hput (v : UInt16) (cell : Nat) (hcell : 2080 ≤ cell) :
      update s.mem (80 * s.ypos + s.xpos) v cell = mem cell := by
    rw [update_of_ne (by omega), h.mem cell hcell]
  rw [Vga.place]
  dsimp only
  split_ifs with _ _ hwrap
  · exact ⟨Nat.succ_le_succ hy, Nat.succ_pos 79, h.mem⟩
  · exact h
  · exact ⟨Nat.succ_le_succ hy, Nat.succ_pos 79, hput _⟩
  · exact ⟨h.ypos, Nat.lt_of_not_le hwrap, hput _⟩

/-- **One row behind the buffer** is the most that any calls overwrite. -/
theorem puts_near (calls : List Call) : Near mem (run mem calls) := by
  refine List.foldlRecOn calls _ ⟨Nat.zero_le _, Nat.succ_pos 79, fun _ _ => rfl⟩ ?_
  refine fun s hs call _ => List.foldlRecOn _ _ hs fun s hs c _ => ?_
  rw [putc]
  split
  · exact hs.scroll.place (Nat.le_succ 24) _ c
  · exact hs.place (Nat.le_of_not_lt ‹_›) _ c

end Yaos.Vga
