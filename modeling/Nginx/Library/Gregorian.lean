import Mathlib

-- The proleptic Gregorian calendar: dates, the days between them, and Gauss' count of days in years that begin in March
namespace Gregorian

def IsLeap (year : Nat) : Prop := year % 4 = 0 ∧ (year % 100 ≠ 0 ∨ year % 400 = 0)

instance (year : Nat) : Decidable (IsLeap year) := inferInstanceAs (Decidable (_ ∧ _))

def yearDays (year : Nat) : Nat := if IsLeap year then 366 else 365

-- Months are counted from 1 on.
def monthDays (year month : Nat) : Nat :=
  if month = 2 then if IsLeap year then 29 else 28
  else if month = 4 ∨ month = 6 ∨ month = 9 ∨ month = 11 then 30
  else 31

structure Valid (year month day : Nat) : Prop where
  month_pos : 1 ≤ month
  month_le : month ≤ 12
  day_pos : 1 ≤ day
  day_le : day ≤ monthDays year month

-- The days from January 1 of the year base on
def dayNumber (base year month day : Nat) : Nat :=
  ((List.range' base (year - base)).map yearDays).sum + ((List.range' 1 (month - 1)).map (monthDays year)).sum + (day - 1)

-- The days from March 1 of the year 0 to March 1 of a year, and those before a month of this year; March is 1.
def marchDays (year : Nat) : Nat := 365 * year + year / 4 - year / 100 + year / 400

def monthStart (month : Nat) : Nat := 367 * month / 12 - 30

theorem marchDays_succ (year : Nat) : marchDays (year + 1) = marchDays year + yearDays (year + 1) := by
  have hle : year / 100 ≤ year / 4 := Nat.div_le_div_left (by decide) (by decide)
  rw [marchDays, marchDays, yearDays, Nat.succ_div, Nat.succ_div, Nat.succ_div]
  by_cases h4 : 4 ∣ year + 1
  · by_cases h100 : 100 ∣ year + 1
    · by_cases h400 : 400 ∣ year + 1
      · have hleap : IsLeap (year + 1) := ⟨Nat.mod_eq_zero_of_dvd h4, Or.inr (Nat.mod_eq_zero_of_dvd h400)⟩
        rw [if_pos h4, if_pos h100, if_pos h400, if_pos hleap]
        omega
      · have hleap : ¬IsLeap (year + 1) := by
          rintro ⟨-, h | h⟩
          · exact h (Nat.mod_eq_zero_of_dvd h100)
          · exact h400 (Nat.dvd_of_mod_eq_zero h)
        rw [if_pos h4, if_pos h100, if_neg h400, if_neg hleap]
        omega
    · have h400 : ¬400 ∣ year + 1 := fun h => h100 (Nat.dvd_trans (by decide) h)
      have hleap : IsLeap (year + 1) := ⟨Nat.mod_eq_zero_of_dvd h4, Or.inl fun h => h100 (Nat.dvd_of_mod_eq_zero h)⟩
      rw [if_pos h4, if_neg h100, if_neg h400, if_pos hleap]
      omega
  · have h100 : ¬100 ∣ year + 1 := fun h => h4 (Nat.dvd_trans (by decide) h)
    have h400 : ¬400 ∣ year + 1 := fun h => h4 (Nat.dvd_trans (by decide) h)
    have hleap : ¬IsLeap (year + 1) := fun h => h4 (Nat.dvd_of_mod_eq_zero h.1)
    rw [if_neg h4, if_neg h100, if_neg h400, if_neg hleap]
    omega

theorem marchDays_bounds (year : Nat) :
    400 * marchDays year ≤ 146097 * year + 396 ∧ 146097 * year ≤ 400 * marchDays year + 699 := by
  simp only [marchDays]
  omega

-- The quotient by the mean length of a year is the year of a day, or one more.
theorem marchYear_estimate {days year : Nat} (h : year = (days + 2) * 400 / 146097) (hpos : 0 < year) :
    marchDays (year - 1) ≤ days ∧ days < marchDays (year + 1) := by
  obtain ⟨hhigh, -⟩ := marchDays_bounds (year - 1)
  obtain ⟨-, hlow⟩ := marchDays_bounds (year + 1)
  omega

theorem years_sum {base : Nat} (hbase : 0 < base) (n : Nat) :
    ((List.range' base n).map yearDays).sum + marchDays (base - 1) = marchDays (base + n - 1) := by
  induction n with
  | zero => simp
  | succ n ih =>
      have hyear : base + (n + 1) - 1 = base + n - 1 + 1 := by omega
      have hsame : base + n - 1 + 1 = base + n := by omega
      rw [List.range'_concat, List.map_append, List.sum_append, hyear, marchDays_succ, ← ih, hsame]
      simp
      omega

-- The months before a month make up the days from March, less those of the year before.
theorem months_sum (year : Nat) {month : Nat} (hpos : 1 ≤ month) (hle : month ≤ 12) :
    ((List.range' 1 (month - 1)).map (monthDays year)).sum + 306 =
      if month ≤ 2 then monthStart (month + 10) else monthStart (month - 2) + yearDays year := by
  interval_cases month <;> simp [List.range', monthDays, monthStart, yearDays] <;> split <;> rfl

-- The year and the month of a date when years begin in March
def marchYear (year month : Nat) : Nat := if month ≤ 2 then year - 1 else year

def marchMonth (month : Nat) : Nat := if month ≤ 2 then month + 10 else month - 2

theorem dayNumber_march {base year month day : Nat} (hbase : 0 < base) (hyear : base ≤ year) (hpos : 1 ≤ month) (hle : month ≤ 12)
    (hday : 1 ≤ day) :
    dayNumber base year month day + marchDays (base - 1) + 306 + 1 =
      marchDays (marchYear year month) + monthStart (marchMonth month) + day := by
  have hyears := years_sum hbase (year - base)
  have hmonths := months_sum year hpos hle
  have hsame : base + (year - base) - 1 = year - 1 := by omega
  have hsucc := marchDays_succ (year - 1)
  have hyear' : year - 1 + 1 = year := by omega
  rw [hsame] at hyears
  rw [hyear'] at hsucc
  rw [dayNumber, marchYear, marchMonth]
  split
  next h =>
      rw [if_pos h] at hmonths
      omega
  next h =>
      rw [if_neg h] at hmonths
      omega

end Gregorian
