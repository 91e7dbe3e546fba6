import Mathlib
import Rivet.Core
import Rivet.Support.Calendar

/-!
# The real-time clock

`riv_rtc_to_epoch` of `rtc.h` counts the leap days before a year by three shifted
divisions, and adds the one of the year itself once February is over.  This is the
number of days that the calendar takes to reach the date.
-/

namespace Rivet.Rtc

open Gregorian

/-- `riv_rtc_time`; the conversion does not read the weekday. -/
structure RivRtcTime where
  year : RivU16
  month : RivU8
  day : RivU8
  hour : RivU8
  minute : RivU8
  second : RivU8
  deriving DecidableEq

def daysPerMonth : List ℤ := [31, 28, 31, 30, 31, 30, 31, 31, 30, 31, 30, 31]

/-- `riv_rtc_to_epoch`.  The year has 16 bits, so that no step leaves the range of
`riv_i64`. -/
def rivRtcToEpoch (t : RivRtcTime) : ℤ :=
  let y : ℤ := t.year.toNat
  let years := y - 1970
  let days := years * 365 + (years + 1).tdiv 4 - (years + 69).tdiv 100 + (years + 369).tdiv 400
  let days := days + (daysPerMonth.take (t.month.toNat - 1)).sum
  let days :=
    if 2 < t.month.toNat ∧ ((y % 4 = 0 ∧ y % 100 ≠ 0) ∨ y % 400 = 0) then days + 1 else days
  let days := days + (t.day.toNat - 1)
  ((days * 24 + t.hour.toNat) * 60 + t.minute.toNat) * 60 + t.second.toNat

variable {t u : RivRtcTime} {d : Date}

def RivRtcTime.date (t : RivRtcTime) : Date := ⟨t.year.toNat, t.month.toNat, t.day.toNat⟩

/-- A time of day on a day of the calendar, from 1970 on. -/
structure RivRtcTime.Valid (t : RivRtcTime) : Prop where
  date : t.date.Valid
  year : 1970 ≤ t.year.toNat
  hour : t.hour.toNat < 24
  minute : t.minute.toNat < 60
  second : t.second.toNat < 60

def RivRtcTime.secondOfDay (t : RivRtcTime) : ℕ :=
  (t.hour.toNat * 60 + t.minute.toNat) * 60 + t.second.toNat

/-- The fields in calendar order: those of the date before those of the time of day. -/
def RivRtcTime.fields (t : RivRtcTime) : List ℕ ×ₗ List ℕ :=
  toLex (t.date.fields, [t.hour.toNat, t.minute.toNat, t.second.toNat])

/-! ## Counting days -/

def daysBefore (m : ℕ) : ℤ := (daysPerMonth.take (m - 1)).sum

/-- The days that `riv_rtc_to_epoch` counts up to a date. -/
def daysTo (d : Date) : ℤ :=
  (d.year - 1970) * 365 + ((d.year : ℤ) - 1969) / 4 - ((d.year : ℤ) - 1901) / 100 +
    ((d.year : ℤ) - 1601) / 400 + daysBefore d.month +
    (if 2 < d.month ∧ IsLeap d.year then (1 : ℤ) else 0) + (d.day - 1)

theorem daysBefore_succ {m : ℕ} (hlow : 1 ≤ m) (hlt : m < 12) (y : ℕ) :
    daysBefore (m + 1) + (if 2 < m + 1 ∧ IsLeap y then 1 else 0) =
      daysBefore m + (if 2 < m ∧ IsLeap y then 1 else 0) + monthLength y m := by
  by_cases hleap : IsLeap y
  · simp only [hleap, and_true, monthLength]
    interval_cases m <;> decide
  · simp only [hleap, and_false, monthLength]
    interval_cases m <;> decide

theorem leapDays_succ {y : ℤ} (n : ℕ) (hy : y = n) :
    (y + 1 - 1969) / 4 - (y + 1 - 1901) / 100 + (y + 1 - 1601) / 400 =
      (y - 1969) / 4 - (y - 1901) / 100 + (y - 1601) / 400 + if IsLeap n then 1 else 0 := by
  unfold IsLeap
  split_ifs <;> omega

theorem daysTo_next (h : d.Valid) : daysTo d.next = daysTo d + 1 := by
  obtain ⟨y, m, k⟩ := d
  obtain ⟨hlow, hhigh, -, hk⟩ := h
  unfold Date.next
  split_ifs with hday hmonth
  · simp only [daysTo, Nat.cast_add, Nat.cast_one]
    omega
  · have hmonths := daysBefore_succ hlow hmonth y
    grind [daysTo, Nat.cast_one, Nat.le_antisymm]
  have hdec : m = 12 := Nat.le_antisymm hhigh (Nat.le_of_not_lt hmonth)
  subst hdec
  have hlast : k = 31 := Nat.le_antisymm hk (Nat.le_of_not_lt hday)
  have hleap := leapDays_succ y rfl
  have hyear : daysBefore 12 = 334 := rfl
  have hjan : daysBefore 1 = 0 := rfl
  simp only [daysTo, hyear, hjan, hlast, Nat.cast_add, Nat.cast_one, Nat.cast_ofNat]
  simp only [show ¬2 < 1 by decide, show 2 < 12 by decide, false_and, true_and, if_false]
  omega

theorem daysTo_dayAfter (n : ℕ) : daysTo (dayAfter 1970 n) = n := by
  induction n with
  | zero => rfl
  | succ n ih =>
    rw [dayAfter_succ, daysTo_next (valid_dayAfter 1970 n), ih, Nat.cast_add, Nat.cast_one]

theorem rivRtcToEpoch_eq (hyear : 1970 ≤ t.year.toNat) :
    rivRtcToEpoch t = 86400 * daysTo t.date + t.secondOfDay := by
  have hleap : ((t.year.toNat : ℤ) % 4 = 0 ∧ (t.year.toNat : ℤ) % 100 ≠ 0) ∨
      (t.year.toNat : ℤ) % 400 = 0 ↔ IsLeap t.year.toNat := by
    unfold IsLeap
    omega
  have hshift : ∀ k : ℤ, 0 ≤ k → ∀ n : ℤ,
      ((t.year.toNat : ℤ) - 1970 + k).tdiv n = (t.year.toNat - (1970 - k)) / n := by grind
  simp only [rivRtcToEpoch, hleap, hshift 1 (by decide), hshift 69 (by decide),
    hshift 369 (by decide), daysTo, daysBefore, RivRtcTime.date, RivRtcTime.secondOfDay]
  by_cases hfeb : 2 < t.month.toNat ∧ IsLeap t.year.toNat
  · grind
  · simp only [hfeb, if_false]
    push_cast
    ring

theorem epoch_eq (ht : t.Valid) :
    ∃ n, dayAfter 1970 n = t.date ∧ rivRtcToEpoch t = 86400 * n + t.secondOfDay := by
  obtain ⟨n, hn⟩ := ht.date.exists_dayAfter ht.year
  refine ⟨n, hn, ?_⟩
  rw [rivRtcToEpoch_eq ht.year, ← hn, daysTo_dayAfter]

theorem epoch_lt (ht : t.Valid) (hu : u.Valid) (hlt : t.fields < u.fields) :
    rivRtcToEpoch t < rivRtcToEpoch u := by
  obtain ⟨n, hn, htime⟩ := epoch_eq ht
  obtain ⟨k, hk, huse⟩ := epoch_eq hu
  have hdays : n < k ∨ n = k ∧ t.secondOfDay < u.secondOfDay := by
    rcases Prod.Lex.toLex_lt_toLex.mp hlt with hdate | ⟨hdate, htime⟩
    · rw [← hn, ← hk] at hdate
      exact .inl ((strictMono_dayAfter 1970).lt_iff_lt.mp hdate)
    rw [← hn, ← hk] at hdate
    refine .inr ⟨(strictMono_dayAfter 1970).injective hdate, ?_⟩
    simp only [List.cons_lt_cons_iff, List.not_lt_nil, and_false, or_false] at htime
    have := ht.minute
    have := ht.second
    unfold RivRtcTime.secondOfDay
    omega
  have hday : t.secondOfDay < 86400 := by
    have := ht.hour
    have := ht.minute
    have := ht.second
    unfold RivRtcTime.secondOfDay
    omega
  omega

/-- `riv_rtc_to_epoch` counts the seconds since 1970: it is strictly increasing in
calendar order, and a day later is 86400 seconds later. -/
theorem rtc_epoch_exact (ht : t.Valid) :
    (∃ n, dayAfter 1970 n = t.date ∧ rivRtcToEpoch t = 86400 * n + t.secondOfDay) ∧
      (∀ u : RivRtcTime, u.Valid → t.fields < u.fields → rivRtcToEpoch t < rivRtcToEpoch u) ∧
      ∀ u : RivRtcTime, u.Valid → u.date = t.date.next → u.secondOfDay = t.secondOfDay →
        rivRtcToEpoch u = rivRtcToEpoch t + 86400 := by
  refine ⟨epoch_eq ht, fun u hu => epoch_lt ht hu, ?_⟩
  intro u hu hdate hsecond
  rw [rivRtcToEpoch_eq ht.year, rivRtcToEpoch_eq hu.year, hdate, daysTo_next ht.date, hsecond]
  ring

theorem rtc_epoch_exact_2026 : (∃ n, dayAfter 1970 n = ⟨2026, 11, 17⟩ ∧
      rivRtcToEpoch ⟨2026, 11, 17, 12, 30, 15⟩ = 86400 * n + 45015) ∧
      rivRtcToEpoch ⟨2026, 11, 18, 12, 30, 15⟩ =
        rivRtcToEpoch ⟨2026, 11, 17, 12, 30, 15⟩ + 86400 := by
  obtain ⟨hdays, -, hnext⟩ := @rtc_epoch_exact ⟨2026, 11, 17, 12, 30, 15⟩
    ⟨by decide, by decide, by decide, by decide, by decide⟩
  refine ⟨hdays, hnext _ ⟨?_, ?_, ?_, ?_, ?_⟩ rfl rfl⟩ <;> decide

end Rivet.Rtc
