import Mathlib.Tactic.IntervalCases

/-!
# The proleptic Gregorian calendar

Dates of every year, positive or not, with the day that follows each.  `Date.number` counts days:
the following day has the following number (`number_next`), and of two dates the earlier one has the
smaller number (`number_lt_iff`), so a function that agrees with it on one date and steps by one
from each date to the next agrees with it everywhere.
-/

set_option autoImplicit false

namespace Experimint

def IsLeap (year : Int) : Prop := 4 ∣ year ∧ ¬ 100 ∣ year ∨ 400 ∣ year

instance decidableIsLeap (year : Int) : Decidable (IsLeap year) :=
  inferInstanceAs (Decidable (4 ∣ year ∧ ¬ 100 ∣ year ∨ 400 ∣ year))

def monthLength (year month : Int) : Int :=
  if month = 2 then if IsLeap year then 29 else 28
  else if month = 4 ∨ month = 6 ∨ month = 9 ∨ month = 11 then 30
  else 31

theorem monthLength_le (year month : Int) : monthLength year month ≤ 31 := by
  unfold monthLength
  split
  · split <;> omega
  · split <;> omega

theorem monthLength_pos (year month : Int) : 1 ≤ monthLength year month := by
  unfold monthLength
  split
  · split <;> omega
  · split <;> omega

/-- A day of the calendar. -/
@[ext] structure Date where
  year : Int
  month : Int
  day : Int
  month_mem : 1 ≤ month ∧ month ≤ 12
  day_mem : 1 ≤ day ∧ day ≤ monthLength year month
deriving DecidableEq

namespace Date

/-- The following day. -/
def next (d : Date) : Date :=
  if hday : d.day < monthLength d.year d.month then
    ⟨d.year, d.month, d.day + 1, d.month_mem, by have := d.day_mem; omega⟩
  else if hmonth : d.month < 12 then
    ⟨d.year, d.month + 1, 1, by have := d.month_mem; omega, Int.le_refl 1, monthLength_pos _ _⟩
  else ⟨d.year + 1, 1, 1, by omega, Int.le_refl 1, monthLength_pos _ _⟩

/-- Years before months before days. -/
def Before (d e : Date) : Prop :=
  d.year < e.year ∨
    d.year = e.year ∧ (d.month < e.month ∨ d.month = e.month ∧ d.day < e.day)

instance (d e : Date) : Decidable (d.Before e) := inferInstanceAs (Decidable (_ ∨ _))

end Date

/-! ## Counting days -/

/-- Days before a year, from the start of year 1. -/
def yearStart (year : Int) : Int :=
  365 * (year - 1) + (year - 1) / 4 - (year - 1) / 100 + (year - 1) / 400

def yearLength (year : Int) : Int := if IsLeap year then 366 else 365

/-- Days of a year before a month. -/
def monthStart (year month : Int) : Int :=
  (367 * month - 362) / 12 + if month ≤ 2 then 0 else if IsLeap year then -1 else -2

theorem yearStart_succ (year : Int) : yearStart (year + 1) = yearStart year + yearLength year := by
  unfold yearStart yearLength
  by_cases hleap : IsLeap year
  · rw [if_pos hleap]
    unfold IsLeap at hleap
    omega
  · rw [if_neg hleap]
    unfold IsLeap at hleap
    omega

theorem monthStart_succ (year : Int) {month : Int} (hlow : 1 ≤ month) (hhigh : month < 12) :
    monthStart year (month + 1) = monthStart year month + monthLength year month := by
  unfold monthStart monthLength
  by_cases hleap : IsLeap year
  · simp only [if_pos hleap]
    interval_cases month <;> decide
  · simp only [if_neg hleap]
    interval_cases month <;> decide

theorem monthStart_one (year : Int) : monthStart year 1 = 0 := by
  unfold monthStart
  rw [if_pos (by decide)]
  decide

theorem monthStart_december (year : Int) : monthStart year 12 + 31 = yearLength year := by
  unfold monthStart yearLength
  rw [if_neg (by decide)]
  split <;> decide

/-- The number of a day. -/
def Date.number (d : Date) : Int := yearStart d.year + monthStart d.year d.month + d.day

/-- **The following day has the following number.** -/
theorem Date.number_next (d : Date) : d.next.number = d.number + 1 := by
  have hday := d.day_mem
  have hmonth := d.month_mem
  unfold Date.next Date.number
  split
  · dsimp only
    omega
  rename_i hlast
  have hend : d.day = monthLength d.year d.month := by omega
  split
  · rename_i hnot
    have hstart := monthStart_succ d.year hmonth.1 hnot
    dsimp only
    omega
  · have hdecember : d.month = 12 := by omega
    have hlength : monthLength d.year 12 = 31 := rfl
    have hyear := monthStart_december d.year
    have hnext := yearStart_succ d.year
    have hjanuary := monthStart_one (d.year + 1)
    rw [hdecember] at hend ⊢
    dsimp only
    omega

/-! ## Order -/

theorem yearStart_mono {year year' : Int} (h : year ≤ year') :
    yearStart year ≤ yearStart year' := by
  unfold yearStart
  omega

theorem monthStart_lt (year : Int) {month month' : Int} (hlow : 1 ≤ month)
    (hlt : month < month') (hhigh : month' ≤ 12) :
    monthStart year month + monthLength year month ≤ monthStart year month' := by
  rw [← monthStart_succ year hlow (by omega)]
  unfold monthStart
  by_cases hleap : IsLeap year
  · simp only [if_pos hleap]
    split <;> split <;> omega
  · simp only [if_neg hleap]
    split <;> split <;> omega

/-- A day is in its year. -/
theorem Date.number_mem (d : Date) :
    yearStart d.year < d.number ∧ d.number ≤ yearStart (d.year + 1) := by
  have hday := d.day_mem
  have hmonth := d.month_mem
  have hjanuary := monthStart_one d.year
  have hdecember := monthStart_december d.year
  have hlength : monthLength d.year 12 = 31 := rfl
  rw [yearStart_succ]
  unfold Date.number
  have hstart : 0 ≤ monthStart d.year d.month := by
    by_cases hone : d.month = 1
    · rw [hone, hjanuary]
    · have := monthStart_lt d.year (Int.le_refl 1) (by omega) hmonth.2
      have := monthLength_pos d.year 1
      omega
  have hend : monthStart d.year d.month + monthLength d.year d.month ≤ yearLength d.year := by
    by_cases htwelve : d.month = 12
    · rw [htwelve]
      omega
    · have := monthStart_lt d.year hmonth.1 (by omega) (Int.le_refl 12)
      omega
  omega

theorem Date.number_lt {d e : Date} (h : d.Before e) : d.number < e.number := by
  have hd := d.number_mem
  have he := e.number_mem
  rcases h with hyear | ⟨hyear, hmonth | ⟨hmonth, hday⟩⟩
  · have hmono : yearStart (d.year + 1) ≤ yearStart e.year := yearStart_mono (by omega)
    omega
  · have hstart := monthStart_lt e.year d.month_mem.1 hmonth e.month_mem.2
    have hdlast := d.day_mem.2
    have hefirst := e.day_mem.1
    unfold Date.number
    rw [hyear] at hdlast ⊢
    omega
  · unfold Date.number
    rw [hyear, hmonth]
    omega

theorem Date.before_trichotomy (d e : Date) : d.Before e ∨ d = e ∨ e.Before d := by
  unfold Date.Before
  by_cases heq : d.year = e.year ∧ d.month = e.month ∧ d.day = e.day
  · exact .inr (.inl (Date.ext heq.1 heq.2.1 heq.2.2))
  · omega

/-- **The earlier of two days has the smaller number.** -/
theorem Date.number_lt_iff {d e : Date} : d.number < e.number ↔ d.Before e := by
  refine ⟨fun h => ?_, Date.number_lt⟩
  rcases d.before_trichotomy e with hbefore | rfl | hafter
  · exact hbefore
  · omega
  · have := Date.number_lt hafter
    omega

end Experimint
