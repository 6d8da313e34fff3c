import Mathlib.Order.Monotone.Basic
import Scaffold.Calendar

/-!
The calendar as one day after the other. A date is found by arithmetic on a count of days, in years
that start in March; the rules of the calendar are the lengths of the months and the leap years.
Main statements: each day has the date that follows the one of the day before by these rules
(`ofDays_succ`), and so dates are in the order of the days (`before_ofDays`).
-/

namespace Scaffold.Date

/-- Every fourth year but for the centuries, and of these every fourth. -/
def isLeapYear (year : Int) : Bool :=
  year % 4 = 0 ∧ (year % 100 ≠ 0 ∨ year % 400 = 0)

def monthLength (year : Int) (month : Nat) : Nat :=
  if month = 2 then (if isLeapYear year then 29 else 28)
  else if month = 4 ∨ month = 6 ∨ month = 9 ∨ month = 11 then 30
  else 31

/-- The date of the day after. -/
def next (d : Date) : Date :=
  if d.day < monthLength d.year d.month then { d with day := d.day + 1 }
  else if d.month < 12 then ⟨d.year, d.month + 1, 1⟩
  else ⟨d.year + 1, 1, 1⟩

def Before (a b : Date) : Prop :=
  a.year < b.year ∨ a.year = b.year ∧ (a.month < b.month ∨ a.month = b.month ∧ a.day < b.day)

structure IsValid (d : Date) : Prop where
  month : 1 ≤ d.month ∧ d.month ≤ 12
  day : 1 ≤ d.day ∧ d.day ≤ monthLength d.year d.month

/-! ## Years from March to February -/

/-- Days from the first of March of the year 0 to that of another year. -/
def yearStart (year : Int) : Int := 365 * year + year / 4 - year / 100 + year / 400

/-- Days from the first of March to the first of the month that comes so many months later. -/
def monthStart (month : Nat) : Nat := (153 * month + 2) / 5

/-- The date of a day and a month that are counted from 0, the month from March on. -/
def ofMarch (year : Int) (month day : Nat) : Date :=
  ⟨if month < 10 then year else year + 1, if month < 10 then month + 3 else month - 9, day + 1⟩

/-- Where a day stands in its year, for a count from the first of March of the year 0. -/
structure Stands (count y : Int) (m d : Nat) : Prop where
  count : count = yearStart y + monthStart m + d
  month : m ≤ 11
  day : d < monthLength (ofMarch y m d).year (ofMarch y m d).month

variable {count y : Int} {m d : Nat}

theorem le_monthLength (y : Int) (month : Nat) : 28 ≤ monthLength y month := by
  unfold monthLength
  repeat' split
  all_goals omega

theorem monthLength_le (y : Int) (month : Nat) : monthLength y month ≤ 31 := by
  unfold monthLength
  repeat' split
  all_goals omega

theorem monthLength_february (y : Int) : monthLength y 2 ≤ 29 := by
  rw [monthLength, if_pos rfl]
  split <;> omega

theorem yearStart_succ (y : Int) :
    yearStart (y + 1) = yearStart y + 337 + monthLength (y + 1) 2 := by
  simp only [yearStart, monthLength, isLeapYear, if_true, decide_eq_true_eq]
  split <;> omega

theorem monthStart_succ (y : Int) (d : Nat) (h : m < 11) :
    monthStart (m + 1) = monthStart m +
      monthLength (ofMarch y m d).year (ofMarch y m d).month := by
  have hmonths : ∀ m < 11, monthStart (m + 1) =
      monthStart m + monthLength 1 (if m < 10 then m + 3 else m - 9) := by decide
  have hyears : ∀ month ≠ 2, monthLength (ofMarch y m d).year month = monthLength 1 month := by
    intro month hmonth
    rw [monthLength, monthLength, if_neg hmonth, if_neg hmonth]
  have hfebruary : (ofMarch y m d).month ≠ 2 := by
    simp only [ofMarch]
    split <;> omega
  rw [hyears _ hfebruary]
  exact hmonths m h

/-- The days of one year are all before those of the next. -/
theorem Stands.within (h : Stands count y m d) :
    yearStart y ≤ count ∧ count < yearStart (y + 1) ∧ monthStart m + d < monthStart (m + 1) := by
  obtain ⟨rfl, hmonth, hday⟩ := h
  rcases Nat.lt_or_eq_of_le hmonth with hlt | rfl
  · have hlast : monthStart (m + 1) ≤ 337 := by
      simp only [monthStart]
      omega
    have hlength := monthStart_succ y d hlt
    have hyear := yearStart_succ y
    omega
  · have hstart : monthStart 11 = 337 ∧ monthStart (11 + 1) = 367 := by decide
    have hyear := yearStart_succ y
    have hlength := monthLength_february (y + 1)
    change d < monthLength (y + 1) 2 at hday
    omega

/-! ## The cycle of 400 years -/

/-- The year of a cycle that a day of it lies in. -/
def yearOfCycle (day : Nat) : Nat := (day - day / 1460 + day / 36524 - day / 146096) / 365

theorem yearOfCycle_mono : Monotone yearOfCycle := by
  refine monotone_nat_of_le_succ fun day => Nat.div_le_div_right ?_
  omega

theorem yearOfCycle_eq {k day : Nat} (hk : k < 400) (hlo : yearStart k ≤ day)
    (hhi : day < yearStart (k + 1)) : yearOfCycle day = k := by
  -- Between the ends of a year it is enough that the formula never decreases.
  have hends : ∀ k : Nat, k < 400 → yearOfCycle (yearStart k).toNat = k ∧
      yearOfCycle ((yearStart (k + 1)).toNat - 1) = k := by decide +kernel
  obtain ⟨hfirst, hlast⟩ := hends k hk
  have hge : yearOfCycle (yearStart k).toNat ≤ yearOfCycle day := yearOfCycle_mono (by omega)
  have hle : yearOfCycle day ≤ yearOfCycle ((yearStart (k + 1)).toNat - 1) :=
    yearOfCycle_mono (by omega)
  omega

theorem yearStart_cycle (cycle : Int) (k : Nat) :
    yearStart (400 * cycle + k) = 146097 * cycle + yearStart k := by
  simp only [yearStart]
  omega

theorem exists_cycle (y : Int) : ∃ (cycle : Int) (k : Nat), k < 400 ∧ y = 400 * cycle + k :=
  ⟨y / 400, (y % 400).toNat, by omega, by omega⟩

/-- The arithmetic finds the place of the day. -/
theorem ofDays_eq {days : Int} (h : Stands (days + 719468) y m d) :
    ofDays days = ofMarch y m d := by
  obtain ⟨hlo, hhi, hmonth⟩ := h.within
  have hcount := h.count
  obtain ⟨cycle, k, hk, rfl⟩ := exists_cycle y
  have hstart := yearStart_cycle cycle k
  have hend := yearStart_cycle cycle (k + 1)
  have hcycle : 0 ≤ yearStart k ∧ yearStart (k + 1) ≤ 146097 := by
    simp only [yearStart]
    omega
  obtain ⟨day, hday⟩ : ∃ day : Nat, (day : Int) = yearStart k + monthStart m + d :=
    ⟨(yearStart k + monthStart m + d).toNat, by omega⟩
  push_cast [← Int.add_assoc] at hend
  have hdiv : (days + 719468) / 146097 = cycle := by omega
  have hmod : ((days + 719468) % 146097).toNat = day := by omega
  have hyear : yearOfCycle day = k := yearOfCycle_eq hk (by omega) (by omega)
  have hdayOfYear : day - (365 * k + k / 4 - k / 100) = monthStart m + d := by
    simp only [yearStart] at hday
    omega
  have hmarch : (5 * (monthStart m + d) + 2) / 153 = m := by
    simp only [monthStart] at hmonth ⊢
    omega
  rw [yearOfCycle] at hyear
  simp only [ofDays, hdiv, hmod, hyear, hdayOfYear, hmarch, ofMarch, Date.mk.injEq, true_and]
  have hmonths := h.month
  constructor
  · split <;> split <;> omega
  · simp only [monthStart]
    omega

/-! ## Day after day -/

theorem ofMarch_succ (y : Int) (d : Nat) (h : m < 11) : ofMarch y (m + 1) 0 =
    if (ofMarch y m d).month < 12 then ⟨(ofMarch y m d).year, (ofMarch y m d).month + 1, 1⟩
    else ⟨(ofMarch y m d).year + 1, 1, 1⟩ := by
  rcases Nat.lt_trichotomy m 9 with hlt | rfl | hgt
  · simp [ofMarch, show m < 10 by omega, show m + 1 < 10 by omega, show m + 3 < 12 by omega]
  · rfl
  · obtain rfl : m = 10 := by omega
    rfl

/-- A month goes on, or the next one starts, or the next year. -/
theorem Stands.next (h : Stands count y m d) : ∃ y' m' d', Stands (count + 1) y' m' d' ∧
    ofMarch y' m' d' = (ofMarch y m d).next := by
  obtain ⟨hcount, hmonth, hday⟩ := h
  by_cases hlast : (ofMarch y m d).day < monthLength (ofMarch y m d).year (ofMarch y m d).month
  · refine ⟨y, m, d + 1, ⟨?_, hmonth, hlast⟩, ?_⟩
    · push_cast
      omega
    · rw [Date.next, if_pos hlast]
      rfl
  · have hlength : monthLength (ofMarch y m d).year (ofMarch y m d).month = d + 1 :=
      Nat.le_antisymm (Nat.not_lt.mp hlast) hday
    rw [Date.next, if_neg hlast]
    rcases Nat.lt_or_eq_of_le hmonth with hlt | rfl
    · have hstart := monthStart_succ y d hlt
      rw [hlength] at hstart
      refine ⟨y, m + 1, 0, ⟨?_, hlt, ?_⟩, ofMarch_succ y d hlt⟩
      · push_cast
        omega
      · exact Nat.lt_of_lt_of_le (by decide) (le_monthLength _ _)
    · have hstart := yearStart_succ y
      change monthLength (y + 1) 2 = d + 1 at hlength
      rw [hlength] at hstart
      have hends : monthStart 11 = 337 ∧ monthStart 0 = 0 := by decide
      refine ⟨y + 1, 0, 0, ⟨?_, by omega, ?_⟩, rfl⟩
      · push_cast
        omega
      · exact Nat.lt_of_lt_of_le (by decide) (le_monthLength _ _)

theorem exists_stands (count : Int) : ∃ y m d, Stands count y m d := by
  obtain ⟨cycle, n, rfl⟩ : ∃ (cycle : Int) (n : Nat), count = 146097 * cycle + n :=
    ⟨count / 146097, (count % 146097).toNat, by omega⟩
  induction n with
  | zero =>
    have hstart := yearStart_cycle cycle 0
    have hends : monthStart 0 = 0 ∧ yearStart 0 = 0 := by decide
    refine ⟨400 * cycle, 0, 0, ?_, by omega, ?_⟩
    · push_cast at hstart ⊢
      simpa [hends] using hstart.symm
    · exact Nat.lt_of_lt_of_le (by decide) (le_monthLength _ _)
  | succ n ih =>
    obtain ⟨y, m, d, h⟩ := ih
    obtain ⟨y', m', d', h', _⟩ := h.next
    exact ⟨y', m', d', by push_cast; rwa [← Int.add_assoc]⟩

/-- Each day has the date after that of the day before. -/
theorem ofDays_succ (days : Int) : ofDays (days + 1) = (ofDays days).next := by
  obtain ⟨y, m, d, h⟩ := exists_stands (days + 719468)
  obtain ⟨y', m', d', h', hnext⟩ := h.next
  rw [ofDays_eq h, ← hnext]
  refine ofDays_eq ?_
  rwa [Int.add_right_comm]

example : ofDays 0 = ⟨1970, 1, 1⟩ := by decide

theorem isValid_ofDays (days : Int) : (ofDays days).IsValid := by
  obtain ⟨y, m, d, h⟩ := exists_stands (days + 719468)
  rw [ofDays_eq h]
  have hmonth := h.month
  refine ⟨?_, Nat.succ_pos d, h.day⟩
  simp only [ofMarch]
  split <;> omega

/-! ## The order of dates -/

variable {a b c : Date}

theorem Before.trans (hab : a.Before b) (hbc : b.Before c) : a.Before c := by
  unfold Before at *
  omega

theorem before_next (d : Date) : d.Before d.next := by
  unfold next
  split
  · exact .inr ⟨rfl, .inr ⟨rfl, Nat.lt_succ_self _⟩⟩
  · split
    · exact .inr ⟨rfl, .inl (Nat.lt_succ_self _)⟩
    · exact .inl (Int.lt_succ _)

/-- Later days have later dates. -/
theorem before_ofDays {days days' : Int} (h : days < days') :
    (ofDays days).Before (ofDays days') := by
  obtain ⟨n, rfl⟩ : ∃ n : Nat, days' = days + 1 + n := ⟨(days' - days - 1).toNat, by omega⟩
  induction n with
  | zero =>
    rw [Int.natCast_zero, Int.add_zero, ofDays_succ]
    exact before_next _
  | succ n ih =>
    rw [Int.natCast_succ, ← Int.add_assoc, ofDays_succ]
    exact (ih (by omega)).trans (before_next _)

end Scaffold.Date
