import Mathlib.Algebra.Group.Nat.Defs
import Yaos.Lib.Gregorian

/-!
# `mktime64` (`kernel/timer.c`)

Seconds since 1970 from a date and a time of day, in unsigned arithmetic of 32
and 64 bits. The year is taken to begin in March, so that the leap day comes
last. `dayCount` is the same formula without bounds; it grows by one from each
day to the next.
-/

namespace Yaos.Timer

open Yaos.Lib

/-- `1..12 -> 11,12,1..10`: the month and the year, `unsigned int`. -/
def rotate (mon0 year0 : UInt32) : UInt32 × UInt32 :=
  let mon := mon0 - 2
  if mon.toInt32 ≤ 0 then (mon + 12, year0 - 1) else (mon, year0)

/-- `mktime64`. `time64_t` is `unsigned long`. -/
def mktime64 (year0 mon0 day hour min sec : UInt32) : UInt64 :=
  let (mon, year) := rotate mon0 year0
  ((((year / 4 - year / 100 + year / 400 + 367 * mon / 12 + day).toUInt64 +
    (year * 365).toUInt64 - 719499) * 24 + hour.toUInt64) * 60 + min.toUInt64) * 60 + sec.toUInt64

/-- The days of the formula, for years and months that begin in March. -/
def marchDays (year mon day : Int) : Int :=
  year / 4 - year / 100 + year / 400 + 367 * mon / 12 + day + year * 365

def dayCount (d : Date) : Int :=
  if d.month ≤ 2 then marchDays (d.year - 1) (d.month + 10) d.day
  else marchDays d.year (d.month - 2) d.day

/-- **One day more.** -/
theorem dayCount_next (d : Date) : dayCount d.next = dayCount d + 1 := by
  have hcases := d.next_cases
  have hlen := monthLength_cases d.year d.month
  have hmonth := d.month_pos
  simp only [Date.fields, List.cons.injEq, and_true] at hcases
  unfold Leap at hlen
  unfold dayCount marchDays
  rcases hcases with ⟨⟨hy, hm, hd⟩, hlt⟩ | ⟨⟨hy, hm, hd⟩, hlast, hlt⟩ | ⟨⟨hy, hm, hd⟩, hlast, hlt⟩
  · rw [hy, hm, hd]
    split <;> omega
  · rw [hy, hm, hd, hlast]
    split
    next h1 =>
      rw [if_pos (by omega)]
      omega
    next h1 =>
      split
      next h2 =>
        -- from February to March
        have h2 : d.month = 2 := by omega
        rw [h2] at hlen ⊢
        omega
      next h2 =>
        -- one of the lengths in `367 * mon / 12`
        have hmonths : d.month = 3 ∨ d.month = 4 ∨ d.month = 5 ∨ d.month = 6 ∨ d.month = 7 ∨
            d.month = 8 ∨ d.month = 9 ∨ d.month = 10 ∨ d.month = 11 := by
          omega
        rcases hmonths with hm | hm | hm | hm | hm | hm | hm | hm | hm
        all_goals
          rw [hm] at hlen ⊢
          omega
  · rw [hy, hm, hd, hlast, if_pos (by decide), if_neg (by omega)]
    omega

/-! ## The machine's arithmetic -/

variable {year mon day hour min sec n : Nat}

theorem rotate_eq (hpos : 1 ≤ mon) (hle : mon ≤ 12) (hyear : 1 ≤ year) :
    rotate (UInt32.ofNat mon) (UInt32.ofNat year) =
      if mon ≤ 2 then (UInt32.ofNat (mon + 10), UInt32.ofNat (year - 1))
      else (UInt32.ofNat (mon - 2), UInt32.ofNat year) := by
  -- `mon - 2` wraps for January, and the comparison is signed
  have hmon : ∀ m ≤ 12, 1 ≤ m → ((UInt32.ofNat m - 2).toInt32 ≤ 0 ↔ m ≤ 2) ∧
      (m ≤ 2 → UInt32.ofNat m - 2 + 12 = UInt32.ofNat (m + 10)) ∧
      (2 < m → UInt32.ofNat m - 2 = UInt32.ofNat (m - 2)) := by
    decide
  obtain ⟨hiff, hlow, hhigh⟩ := hmon mon hle hpos
  simp only [rotate, hiff]
  split
  next h2 =>
    rw [hlow h2, UInt32.ofNat_sub hyear]
    rfl
  next h2 => rw [hhigh (by omega)]

theorem days32_eq (hyear : year ≤ 11767033) (hmon : mon ≤ 12) :
    UInt32.ofNat year / 4 - UInt32.ofNat year / 100 + UInt32.ofNat year / 400 +
        367 * UInt32.ofNat mon / 12 + UInt32.ofNat day =
      UInt32.ofNat (year / 4 - year / 100 + year / 400 + 367 * mon / 12 + day) := by
  have hlt : year < 2 ^ 32 := by omega
  rw [UInt32.ofNat_add, UInt32.ofNat_add, UInt32.ofNat_add, UInt32.ofNat_sub (by omega),
    UInt32.ofNat_div hlt (by decide), UInt32.ofNat_div hlt (by decide),
    UInt32.ofNat_div hlt (by decide), UInt32.ofNat_div (by omega) (by decide), UInt32.ofNat_mul]
  rfl

theorem toUInt64_ofNat_lt (h : n < 2 ^ 32) : (UInt32.ofNat n).toUInt64 = UInt64.ofNat n :=
  UInt32.toUInt64_ofNat' h

/-- **The seconds**, from the days of the formula. The last year is the last one
for which `365 * year` fits 32 bits. -/
theorem seconds_eq (hyear : year ≤ 11767033) (hmon : mon ≤ 12) (hday : day ≤ 31) (hhour : hour < 24)
    (hmin : min < 60) (hsec : sec < 60) (hdays : marchDays year mon day = 719499 + n) :
    (((((UInt32.ofNat year / 4 - UInt32.ofNat year / 100 + UInt32.ofNat year / 400 +
        367 * UInt32.ofNat mon / 12 + UInt32.ofNat day).toUInt64 +
      (UInt32.ofNat year * 365).toUInt64 - 719499) * 24 + (UInt32.ofNat hour).toUInt64) * 60 +
        (UInt32.ofNat min).toUInt64) * 60 + (UInt32.ofNat sec).toUInt64).toNat =
      86400 * n + 3600 * hour + 60 * min + sec := by
  have hsum : year / 4 - year / 100 + year / 400 + 367 * mon / 12 + day + year * 365 = n + 719499 := by
    unfold marchDays at hdays
    omega
  have hmul : UInt32.ofNat year * 365 = UInt32.ofNat (year * 365) := (UInt32.ofNat_mul year 365).symm
  have hwide : UInt64.ofNat (year / 4 - year / 100 + year / 400 + 367 * mon / 12 + day) +
      UInt64.ofNat (year * 365) - 719499 = UInt64.ofNat n := by
    rw [← UInt64.ofNat_add, hsum, UInt64.ofNat_add]
    exact UInt64.add_sub_cancel _ _
  rw [days32_eq hyear hmon, hmul, toUInt64_ofNat_lt (by omega), toUInt64_ofNat_lt (by omega),
    toUInt64_ofNat_lt (by omega), toUInt64_ofNat_lt (by omega), toUInt64_ofNat_lt (by omega), hwide]
  have hseconds : ((UInt64.ofNat n * 24 + UInt64.ofNat hour) * 60 + UInt64.ofNat min) * 60 +
      UInt64.ofNat sec = UInt64.ofNat (((n * 24 + hour) * 60 + min) * 60 + sec) := by
    rw [UInt64.ofNat_add, UInt64.ofNat_mul, UInt64.ofNat_add, UInt64.ofNat_mul, UInt64.ofNat_add,
      UInt64.ofNat_mul]
    rfl
  rw [hseconds, UInt64.toNat_ofNat_of_lt' (show _ < 2 ^ 64 by omega)]
  omega

/-! ## Dates and times -/

structure Moment where
  date : Date
  hour : Nat
  min : Nat
  sec : Nat
  hour_lt : hour < 24
  min_lt : min < 60
  sec_lt : sec < 60

def Moment.Before (t u : Moment) : Prop :=
  t.date.Before u.date ∨ t.date = u.date ∧
    (t.hour < u.hour ∨ t.hour = u.hour ∧ (t.min < u.min ∨ t.min = u.min ∧ t.sec < u.sec))

/-- `mktime64` for a moment. -/
def Moment.mktime64 (t : Moment) : UInt64 :=
  Timer.mktime64 (.ofNat t.date.year) (.ofNat t.date.month) (.ofNat t.date.day) (.ofNat t.hour)
    (.ofNat t.min) (.ofNat t.sec)

/-- The years for which the formula has room. -/
def Moment.InRange (t : Moment) : Prop := 1970 ≤ t.date.year ∧ t.date.year ≤ 11767033

instance (t : Moment) : Decidable t.InRange := inferInstanceAs (Decidable (_ ∧ _))

theorem dayCount_iterate (n : Nat) : dayCount (Date.next^[n] (Date.newYear 1970)) = 719499 + n := by
  have hstart : dayCount (Date.newYear 1970) = 719499 := by decide
  rw [Date.count_iterate dayCount_next, hstart]

theorem mktime64_iterate {t : Moment} (ht : t.InRange) (hn : Date.next^[n] (Date.newYear 1970) = t.date) :
    t.mktime64.toNat = 86400 * n + 3600 * t.hour + 60 * t.min + t.sec := by
  obtain ⟨hlow, hhigh⟩ := ht
  have hcount := dayCount_iterate n
  have hday := t.date.day_le
  have hdays := monthLength_bounds t.date.year t.date.month
  have hmon := t.date.month_pos
  have hmons := t.date.month_le
  rw [hn, dayCount] at hcount
  rw [Moment.mktime64, Timer.mktime64, rotate_eq hmon hmons (by omega)]
  split at hcount
  next h2 =>
    rw [if_pos h2]
    refine seconds_eq (by omega) (by omega) (by omega) t.hour_lt t.min_lt t.sec_lt ?_
    rw [← hcount]
    congr 1
    omega
  next h2 =>
    rw [if_neg h2]
    refine seconds_eq (by omega) (by omega) (by omega) t.hour_lt t.min_lt t.sec_lt ?_
    rw [← hcount]
    congr 1
    omega

/-- **`mktime64` counts the seconds** since 1970, and later moments have more. -/
theorem mktime64_exact (t : Moment) (ht : t.InRange) :
    (∃ n, Date.next^[n] (Date.newYear 1970) = t.date ∧
      t.mktime64.toNat = 86400 * n + 3600 * t.hour + 60 * t.min + t.sec) ∧
    ∀ u : Moment, u.InRange → t.Before u → t.mktime64 < u.mktime64 := by
  obtain ⟨n, hn⟩ := Date.exists_iterate (by decide) t.date ht.1
  refine ⟨⟨n, hn, mktime64_iterate ht hn⟩, fun u hu hlt => ?_⟩
  have hhour := t.hour_lt
  have hmin := t.min_lt
  have hsec := t.sec_lt
  rw [UInt64.lt_iff_toNat_lt, mktime64_iterate ht hn]
  rcases hlt with hdate | ⟨hdate, htime⟩
  · obtain ⟨m, hm⟩ := Date.exists_iterate (by decide) u.date hu.1
    have hnm := Date.lt_of_before hn hm hdate
    rw [mktime64_iterate hu hm]
    omega
  · rw [mktime64_iterate hu (hn.trans hdate)]
    omega

def leapDay : Moment :=
  ⟨⟨2000, 2, 29, by decide, by decide, by decide, by decide⟩, 23, 59, 59, by decide, by decide, by decide⟩

def dayLater : Moment := { leapDay with date := leapDay.date.next }

theorem mktime64_exact_leap_day :
    (∃ n, Date.next^[n] (Date.newYear 1970) = leapDay.date ∧
      leapDay.mktime64.toNat = 86400 * n + 3600 * 23 + 60 * 59 + 59) ∧
    leapDay.mktime64 < dayLater.mktime64 :=
  have hexact := mktime64_exact leapDay (by decide)
  ⟨hexact.1, hexact.2 dayLater (by decide) (.inl (by decide))⟩

end Yaos.Timer
