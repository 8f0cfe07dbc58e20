import Experimint.Lib.Calendar

/-!
# Day numbers

The closed form by which the keeper turns a date into days since 1970-01-01, on 64-bit integers: the
year is taken to start in March, so that a leap day is the last of its year, and the divisions
truncate.  An operation that overflows panics in the dev profile and wraps in the release profile.

* `daysFromCivil_date` — where nothing overflows, the result counts the days of the calendar.
* `daysFromCivil_of_dev` — what the dev profile computes, every profile does.
* `countsOn_dev_iff` — the days from which the count advances by one to the next.
-/

set_option autoImplicit false

namespace Experimint.AmmPriceKeeper

def I64_MIN : Int := -9223372036854775808

def I64_MAX : Int := 9223372036854775807

/-- The result of a checked operation on 64-bit integers; `none` where it overflows. -/
def checked (n : Int) : Option Int := if I64_MIN ≤ n ∧ n ≤ I64_MAX then some n else none

inductive Profile
  | dev
  | release
deriving DecidableEq

/-- The result of an operation on 64-bit integers; `none` is a panic. -/
def i64 : Profile → Int → Option Int
  | .dev, n => checked n
  | .release, n => some (n.bmod (2 ^ 64))

/-- Days since 1970-01-01; `none` is a panic. -/
def daysFromCivil (profile : Profile) (year month day : Int) : Option Int := do
  let i64 := i64 profile
  let year ← i64 (if month ≤ 2 then year - 1 else year)
  let dividend ← i64 (if 0 ≤ year then year else year - 399)
  let era := dividend.tdiv 400
  let eraYears ← i64 (era * 400)
  let yearOfEra ← i64 (year - eraYears)
  let monthOfYear ← i64 (month + if 2 < month then -3 else 9)
  let scaled ← i64 (153 * monthOfYear)
  let scaled ← i64 (scaled + 2)
  let dayOfYear ← i64 (scaled.tdiv 5 + day)
  let dayOfYear ← i64 (dayOfYear - 1)
  let dayOfEra ← i64 (yearOfEra * 365)
  let dayOfEra ← i64 (dayOfEra + yearOfEra.tdiv 4)
  let dayOfEra ← i64 (dayOfEra - yearOfEra.tdiv 100)
  let dayOfEra ← i64 (dayOfEra + dayOfYear)
  let eraDays ← i64 (era * 146097)
  let days ← i64 (eraDays + dayOfEra)
  i64 (days - 719468)

def isLeapYear (year : Int) : Bool :=
  (year.tmod 4 == 0 && year.tmod 100 != 0) || year.tmod 400 == 0

def daysInMonth (year month : Int) : Int :=
  if month = 1 ∨ month = 3 ∨ month = 5 ∨ month = 7 ∨ month = 8 ∨ month = 10 ∨ month = 12 then 31
  else if month = 4 ∨ month = 6 ∨ month = 9 ∨ month = 11 then 30
  else if month = 2 ∧ isLeapYear year then 29
  else if month = 2 then 28
  else 0

theorem isLeapYear_iff (year : Int) : isLeapYear year = true ↔ IsLeap year := by
  simp [isLeapYear, IsLeap, Int.dvd_iff_tmod_eq_zero]

theorem daysInMonth_eq {year month : Int} (hlow : 1 ≤ month) (hhigh : month ≤ 12) :
    daysInMonth year month = monthLength year month := by
  unfold daysInMonth monthLength
  by_cases hleap : IsLeap year
  · simp only [(isLeapYear_iff year).2 hleap, if_pos hleap]
    interval_cases month <;> rfl
  · have hnot : isLeapYear year = false := by
      rw [← Bool.not_eq_true, isLeapYear_iff]
      exact hleap
    simp only [hnot, if_neg hleap]
    interval_cases month <;> rfl

/-- Fits a 64-bit signed integer. -/
def Fits (n : Int) : Prop := I64_MIN ≤ n ∧ n ≤ I64_MAX

theorem checked_eq_some {n m : Int} : checked n = some m ↔ Fits n ∧ n = m := by
  unfold checked Fits
  split
  · rename_i h
    simp [h]
  · rename_i h
    simp [h]

theorem checked_of_fits {n : Int} (h : Fits n) : checked n = some n := if_pos h

theorem i64_dev_eq_some {n m : Int} : i64 .dev n = some m ↔ Fits n ∧ n = m := checked_eq_some

theorem i64_dev_bind_eq_some {n m : Int} {f : Int → Option Int} :
    (i64 .dev n).bind f = some m ↔ Fits n ∧ f n = some m := by
  simp only [Option.bind_eq_some_iff, i64_dev_eq_some, and_assoc, exists_and_left, exists_eq_left']

/-- What does not panic in the dev profile has the same result in every profile. -/
theorem i64_of_dev {profile : Profile} {n m : Int} (h : i64 .dev n = some m) :
    i64 profile n = some m := by
  cases profile with
  | dev => exact h
  | release =>
    obtain ⟨hfits, rfl⟩ := i64_dev_eq_some.1 h
    unfold Fits I64_MIN I64_MAX at hfits
    exact congrArg some (Int.bmod_eq_of_le (by omega) (by omega))

theorem i64_bind_of_dev {profile : Profile} {n m : Int} {f g : Int → Option Int}
    (h : (i64 .dev n).bind f = some m) (hrest : ∀ x, f x = some m → g x = some m) :
    (i64 profile n).bind g = some m := by
  obtain ⟨hfits, hf⟩ := i64_dev_bind_eq_some.1 h
  rw [i64_of_dev (i64_dev_eq_some.2 ⟨hfits, rfl⟩), Option.bind_some]
  exact hrest n hf

theorem daysFromCivil_of_dev {profile : Profile} {year month day n : Int}
    (h : daysFromCivil .dev year month day = some n) :
    daysFromCivil profile year month day = some n := by
  unfold daysFromCivil at h ⊢
  -- one bind for each operation
  refine i64_bind_of_dev h fun _ h => i64_bind_of_dev h fun _ h => i64_bind_of_dev h fun _ h => ?_
  refine i64_bind_of_dev h fun _ h => i64_bind_of_dev h fun _ h => i64_bind_of_dev h fun _ h => ?_
  refine i64_bind_of_dev h fun _ h => i64_bind_of_dev h fun _ h => i64_bind_of_dev h fun _ h => ?_
  refine i64_bind_of_dev h fun _ h => i64_bind_of_dev h fun _ h => i64_bind_of_dev h fun _ h => ?_
  refine i64_bind_of_dev h fun _ h => i64_bind_of_dev h fun _ h => i64_bind_of_dev h fun _ h => ?_
  exact i64_of_dev h

/-- The dividend is chosen so that the truncating division rounds down. -/
theorem era_eq (year : Int) : (if 0 ≤ year then year else year - 399).tdiv 400 = year / 400 := by
  split
  · rename_i hpos
    exact Int.tdiv_eq_ediv_of_nonneg hpos
  · rename_i hneg
    have hswap : year - 399 = -(399 - year) := by omega
    rw [hswap, Int.neg_tdiv, Int.tdiv_eq_ediv_of_nonneg (by omega)]
    omega

/-- The year that starts in March. -/
def marchYear (year month : Int) : Int := if month ≤ 2 then year - 1 else year

/-- The month of that year, from zero. -/
def marchMonth (month : Int) : Int := month + if 2 < month then -3 else 9

/-- Days of a cycle of 400 years before one of its years. -/
def cycleStart (yearOfEra : Int) : Int := yearOfEra * 365 + yearOfEra / 4 - yearOfEra / 100

theorem cycleStart_eq (year : Int) :
    year / 400 * 146097 + cycleStart (year - year / 400 * 400) = yearStart (year + 1) := by
  unfold cycleStart yearStart
  omega

theorem marchMonth_mem {month : Int} (hlow : 1 ≤ month) (hhigh : month ≤ 12) :
    0 ≤ marchMonth month ∧ marchMonth month ≤ 11 := by
  unfold marchMonth
  split <;> omega

/-- **Counting from March agrees with the calendar**: a leap day is the last of its year. -/
theorem marchYear_number {year month : Int} (hlow : 1 ≤ month) (hhigh : month ≤ 12) :
    yearStart (marchYear year month + 1) + (153 * marchMonth month + 2) / 5 - 306 =
      yearStart year + monthStart year month := by
  have hsucc := yearStart_succ year
  have hself : yearStart (year - 1 + 1) = yearStart year := by rw [Int.sub_add_cancel]
  unfold marchYear marchMonth monthStart
  unfold yearLength at hsucc
  by_cases hleap : IsLeap year
  · simp only [if_pos hleap] at hsucc ⊢
    interval_cases month <;> norm_num <;> omega
  · simp only [if_neg hleap] at hsucc ⊢
    interval_cases month <;> norm_num <;> omega

/-- **Where the computation does not panic, its result is the number of days counted from March**;
it panics only where the year or the sums of the last two operations leave the range. -/
theorem daysFromCivil_eq_some_iff {year month day n : Int} (hlow : 1 ≤ month) (hhigh : month ≤ 12)
    (hday : 1 ≤ day ∧ day ≤ 31) :
    daysFromCivil .dev year month day = some n ↔
      n = yearStart year + monthStart year month + day - 719163 ∧ I64_MIN ≤ n ∧
        n + 719468 ≤ I64_MAX := by
  have hmonth := marchMonth_mem hlow hhigh
  have hyoe : 0 ≤ marchYear year month - marchYear year month / 400 * 400 := by omega
  have hfour := Int.tdiv_eq_ediv_of_nonneg (b := 4) hyoe
  have hhundred := Int.tdiv_eq_ediv_of_nonneg (b := 100) hyoe
  have hfive : (153 * marchMonth month + 2).tdiv 5 = (153 * marchMonth month + 2) / 5 :=
    Int.tdiv_eq_ediv_of_nonneg (by omega)
  have hera := era_eq (marchYear year month)
  have hnumber := @marchYear_number year month hlow hhigh
  have hcycle := cycleStart_eq (marchYear year month)
  unfold cycleStart at hcycle
  have hfoldYear : (if month ≤ 2 then year - 1 else year) = marchYear year month := rfl
  have hfoldMonth : (month + if 2 < month then -3 else 9) = marchMonth month := rfl
  unfold daysFromCivil
  simp only [Option.bind_eq_bind, i64_dev_bind_eq_some, i64_dev_eq_some, hfoldYear, hfoldMonth,
    hera, hfour, hhundred, hfive]
  generalize marchYear year month = Y at *
  generalize marchMonth month = M at *
  unfold Fits I64_MIN I64_MAX
  omega

/-- 1970-01-01. -/
def epoch : Date := ⟨1970, 1, 1, by decide, by decide⟩

/-- The first and the last day whose number is computed without overflow. -/
def firstDay : Date := ⟨-25252734927764585, 6, 7, by decide, by decide⟩

def lastDay : Date := ⟨25252734927766554, 9, 25, by decide, by decide⟩

theorem epoch_number : epoch.number = 719163 := by decide

theorem firstDay_number : firstDay.number = I64_MIN + 719163 := by decide

theorem lastDay_number : lastDay.number = I64_MAX - 305 := by decide

/-- **The day number counts the days from the epoch**, where it is computed. -/
theorem daysFromCivil_date (d : Date) (n : Int) :
    daysFromCivil .dev d.year d.month d.day = some n ↔
      n = d.number - epoch.number ∧ ¬ d.Before firstDay ∧ ¬ lastDay.Before d := by
  have hday := d.day_mem
  have hlength := monthLength_le d.year d.month
  rw [daysFromCivil_eq_some_iff d.month_mem.1 d.month_mem.2 ⟨hday.1, by omega⟩,
    ← Date.number_lt_iff, ← Date.number_lt_iff, firstDay_number, lastDay_number, epoch_number]
  unfold Date.number
  omega

/-- Both a day and the day after it are numbered, one apart. -/
def CountsOn (profile : Profile) (d : Date) : Prop :=
  ∃ n, daysFromCivil profile d.year d.month d.day = some n ∧
    daysFromCivil profile d.next.year d.next.month d.next.day = some (n + 1)

theorem countsOn_of_dev {profile : Profile} {d : Date} (h : CountsOn .dev d) :
    CountsOn profile d := by
  obtain ⟨n, hn, hnext⟩ := h
  exact ⟨n, daysFromCivil_of_dev hn, daysFromCivil_of_dev hnext⟩

theorem countsOn_dev_iff (d : Date) :
    CountsOn .dev d ↔ ¬ d.Before firstDay ∧ d.Before lastDay := by
  have hnext := d.number_next
  unfold CountsOn
  simp only [daysFromCivil_date, ← Date.number_lt_iff]
  constructor
  · rintro ⟨n, ⟨-, hfirst, -⟩, -, -, hlast⟩
    exact ⟨hfirst, by omega⟩
  · rintro ⟨hfirst, hlast⟩
    exact ⟨d.number - epoch.number, ⟨rfl, hfirst, by omega⟩, by omega, by omega, by omega⟩

end Experimint.AmmPriceKeeper
