import Mathlib.Logic.Function.Iterate
import Mathlib.Tactic.Ext

/-! The Gregorian calendar, day by day. A date carries that it exists; `next`
is the day after. Counting is iterating `next`: every date from the beginning of
a year on is some number of days after it, and a later date is more days after
it. A quantity that grows by one with each day is therefore a count of days. -/
namespace Yaos.Lib

open Function

/-- Leap years: every fourth, but of the centuries only every fourth. -/
def Leap (year : Nat) : Prop := year % 4 = 0 ∧ (year % 100 ≠ 0 ∨ year % 400 = 0)

instance (year : Nat) : Decidable (Leap year) := inferInstanceAs (Decidable (_ ∧ _))

def monthLength (year month : Nat) : Nat :=
  if month = 2 then if Leap year then 29 else 28
  else if month = 4 ∨ month = 6 ∨ month = 9 ∨ month = 11 then 30
  else 31

theorem monthLength_cases (year month : Nat) :
    month = 2 ∧ Leap year ∧ monthLength year month = 29 ∨
    month = 2 ∧ ¬ Leap year ∧ monthLength year month = 28 ∨
    (month = 4 ∨ month = 6 ∨ month = 9 ∨ month = 11) ∧ monthLength year month = 30 ∨
    (month ≠ 2 ∧ month ≠ 4 ∧ month ≠ 6 ∧ month ≠ 9 ∧ month ≠ 11) ∧ monthLength year month = 31 := by
  unfold monthLength
  split
  next hfeb =>
    split
    next hleap => exact .inl ⟨hfeb, hleap, rfl⟩
    next hleap => exact .inr (.inl ⟨hfeb, hleap, rfl⟩)
  next hfeb =>
    split
    next hshort => exact .inr (.inr (.inl ⟨hshort, rfl⟩))
    next hlong => exact .inr (.inr (.inr ⟨by omega, rfl⟩))

theorem monthLength_bounds (year month : Nat) :
    28 ≤ monthLength year month ∧ monthLength year month ≤ 31 := by
  have := monthLength_cases year month
  omega

@[ext] structure Date where
  year : Nat
  month : Nat
  day : Nat
  month_pos : 1 ≤ month
  month_le : month ≤ 12
  day_pos : 1 ≤ day
  day_le : day ≤ monthLength year month

namespace Date

def first (year month : Nat) (hpos : 1 ≤ month) (hle : month ≤ 12) : Date where
  year := year
  month := month
  day := 1
  month_pos := hpos
  month_le := hle
  day_pos := Nat.le_refl 1
  day_le := Nat.le_trans (by decide) (monthLength_bounds year month).1

def next (d : Date) : Date :=
  if h : d.day < monthLength d.year d.month then
    { d with day := d.day + 1, day_pos := Nat.le_add_left 1 d.day, day_le := h }
  else if h' : d.month < 12 then first d.year (d.month + 1) (Nat.le_add_left 1 d.month) h'
  else first (d.year + 1) 1 (by decide) (by decide)

/-- The parts of a date, the longest first. -/
def fields (d : Date) : List Nat := [d.year, d.month, d.day]

/-- What the day after is: in the month, in the next one, or in the next year. -/
theorem next_cases (d : Date) :
    d.next.fields = [d.year, d.month, d.day + 1] ∧ d.day < monthLength d.year d.month ∨
    d.next.fields = [d.year, d.month + 1, 1] ∧ d.day = monthLength d.year d.month ∧ d.month < 12 ∨
    d.next.fields = [d.year + 1, 1, 1] ∧ d.day = monthLength d.year d.month ∧ d.month = 12 := by
  have hday := d.day_le
  have hmonth := d.month_le
  unfold next
  split
  next h => exact .inl ⟨rfl, h⟩
  next h =>
    split
    next h' => exact .inr (.inl ⟨rfl, by omega, h'⟩)
    next h' => exact .inr (.inr ⟨rfl, by omega, by omega⟩)

theorem ext_fields {d e : Date} (h : d.fields = e.fields) : d = e := by
  simp only [fields, List.cons.injEq, and_true] at h
  exact Date.ext h.1 h.2.1 h.2.2

def Before (d e : Date) : Prop :=
  d.year < e.year ∨ d.year = e.year ∧ (d.month < e.month ∨ d.month = e.month ∧ d.day < e.day)

instance (d e : Date) : Decidable (d.Before e) := inferInstanceAs (Decidable (_ ∨ _))

theorem Before.trans {d e f : Date} (h : d.Before e) (h' : e.Before f) : d.Before f := by
  rw [Before] at *
  omega

theorem before_next (d : Date) : d.Before d.next := by
  have hcases := d.next_cases
  simp only [fields, List.cons.injEq, and_true] at hcases
  rw [Before]
  omega

theorem not_before_of_iterate (d : Date) (n : Nat) : ¬ (next^[n] d).Before d := by
  induction n with
  | zero =>
    rw [iterate_zero_apply, Before]
    omega
  | succ n ih =>
    rw [iterate_succ_apply']
    intro h
    exact ih ((before_next _).trans h)

/-- Every date but the first of the year 0 is the day after another one. -/
theorem exists_next_eq (d : Date) (h : 0 < d.year) : ∃ e : Date, e.next = d := by
  obtain ⟨year, month, day, hpos, hle, hday, hdays⟩ := d
  dsimp only at h
  by_cases h1 : day = 1
  · subst h1
    by_cases h2 : month = 1
    · subst h2
      -- the last day of the year before
      refine ⟨⟨year - 1, 12, 31, by decide, by decide, by decide, Nat.le_refl 31⟩, ext_fields ?_⟩
      show [year - 1 + 1, 1, 1] = [year, 1, 1]
      rw [Nat.sub_add_cancel h]
    · have hlen := monthLength_bounds year (month - 1)
      refine ⟨⟨year, month - 1, monthLength year (month - 1), by omega, by omega, by omega,
        Nat.le_refl _⟩, ?_⟩
      rw [next, dif_neg (Nat.lt_irrefl _), dif_pos (by dsimp only; omega)]
      refine ext_fields ?_
      show [year, month - 1 + 1, 1] = [year, month, 1]
      rw [Nat.sub_add_cancel hpos]
  · refine ⟨⟨year, month, day - 1, hpos, hle, by omega, by omega⟩, ?_⟩
    rw [next, dif_pos (by dsimp only; omega)]
    refine ext_fields ?_
    show [year, month, day - 1 + 1] = [year, month, day]
    rw [Nat.sub_add_cancel hday]

def newYear (year : Nat) : Date := first year 1 (by decide) (by decide)

/-- **Every date from a year on** is some days after its beginning. -/
theorem exists_iterate {year : Nat} (hpos : 0 < year) (d : Date) (h : year ≤ d.year) :
    ∃ n, next^[n] (newYear year) = d := by
  -- along the dates, which go down from a date to the day before
  induction hm : d.year * 400 + d.month * 31 + d.day using Nat.strongRecOn generalizing d with
  | _ m ih =>
    subst hm
    by_cases hfirst : d = newYear year
    · exact ⟨0, hfirst.symm⟩
    obtain ⟨e, rfl⟩ := d.exists_next_eq (by omega)
    have hdays := monthLength_bounds e.year e.month
    have hmonth := e.month_pos
    have hcases := e.next_cases
    simp only [fields, List.cons.injEq, and_true] at hcases
    have hyear : year ≤ e.year := by
      by_contra hlt
      refine hfirst (ext_fields ?_)
      have hnext : e.next.year = year ∧ e.next.month = 1 ∧ e.next.day = 1 := by omega
      simp [fields, newYear, first, hnext]
    obtain ⟨n, hn⟩ := ih _ (by omega) e hyear rfl
    exact ⟨n + 1, by rw [iterate_succ_apply', hn]⟩

/-- **Later dates are more days away.** -/
theorem lt_of_before {d e f : Date} {m n : Nat} (hd : next^[m] f = d) (he : next^[n] f = e)
    (h : d.Before e) : m < n := by
  by_contra hle
  obtain ⟨k, rfl⟩ : ∃ k, m = k + n := ⟨m - n, by omega⟩
  rw [iterate_add_apply, he] at hd
  exact not_before_of_iterate e k (hd ▸ h)

/-- **What grows by one each day counts the days.** -/
theorem count_iterate {count : Date → Int} (hnext : ∀ d : Date, count d.next = count d + 1)
    (d : Date) (n : Nat) : count (next^[n] d) = count d + n := by
  induction n with
  | zero => exact (Int.add_zero _).symm
  | succ n ih =>
    rw [iterate_succ_apply', hnext, ih]
    omega

end Date

end Yaos.Lib
