import Mathlib.Algebra.GroupWithZero.Nat
import Mathlib.Order.Basic
import Mathlib.Order.Bounds.Defs

/-!
# Bisection

The largest value of an interval at which a monotone test has not yet turned true, found by halving
the interval.  The result has been probed, or nothing has (`bisect_probed`); for a monotone test and
enough steps it is the largest (`bisect_largest`).  In bounded unsigned arithmetic the same loop
stays in range and takes one pass per binary digit of the interval (`checkedBisect_eq_bisect`).
-/

set_option autoImplicit false

namespace Experimint

/-- The loop over `[low, high]`; `best` is the last value that has not passed. -/
def bisect (passed : Nat → Bool) : (fuel low high best : Nat) → Nat
  | 0, _, _, best => best
  | fuel + 1, low, high, best =>
    if low ≤ high then
      let mid := low + (high - low) / 2
      if passed mid then bisect passed fuel low (mid - 1) best
      else bisect passed fuel (mid + 1) high mid
    else best

variable {passed : Nat → Bool}

theorem bisect_probed (passed : Nat → Bool) (fuel low high best : Nat) :
    bisect passed fuel low high best = best ∨
      (low ≤ bisect passed fuel low high best ∧ bisect passed fuel low high best ≤ high ∧
        passed (bisect passed fuel low high best) = false) := by
  induction fuel generalizing low high best with
  | zero => exact .inl rfl
  | succ fuel ih =>
    unfold bisect
    split
    · dsimp only
      split
      · rcases ih low (low + (high - low) / 2 - 1) best with h | ⟨h₁, h₂, h₃⟩
        · exact .inl h
        · exact .inr ⟨h₁, by omega, h₃⟩
      · rename_i hmid
        rcases ih (low + (high - low) / 2 + 1) high (low + (high - low) / 2) with h | ⟨h₁, h₂, h₃⟩
        · rw [h]
          exact .inr ⟨by omega, by omega, by simpa using hmid⟩
        · exact .inr ⟨by omega, h₂, h₃⟩
    · exact .inl rfl

/-- Nothing above the result has not passed. -/
theorem passed_of_bisect_lt (hmono : ∀ a b, a ≤ b → passed a = true → passed b = true)
    (fuel low high best : Nat) (hfuel : high + 1 - low ≤ fuel) (n : Nat) (hn : n ≤ high)
    (hlt : bisect passed fuel low high best < n) (hlow : low ≤ n) : passed n = true := by
  -- the interval shrinks with the fuel; below `low` nothing is left to find
  induction fuel generalizing low high best with
  | zero => omega
  | succ fuel ih =>
    unfold bisect at hlt
    rw [if_pos (by omega)] at hlt
    dsimp only at hlt
    split at hlt
    · rename_i hmid
      by_cases hle : n ≤ low + (high - low) / 2 - 1
      · exact ih low _ best (by omega) hle hlt hlow
      · exact hmono _ _ (by omega) hmid
    · rename_i hmid
      by_cases hle : low + (high - low) / 2 + 1 ≤ n
      · exact ih _ high _ (by omega) hn hlt hle
      · rcases bisect_probed passed fuel (low + (high - low) / 2 + 1) high
          (low + (high - low) / 2) with h | ⟨h₁, -, -⟩ <;> omega

/-- **The result is the largest value that has not passed**, if there is one. -/
theorem bisect_largest (hmono : ∀ a b, a ≤ b → passed a = true → passed b = true)
    {high n : Nat} (hn : 1 ≤ n) (hle : n ≤ high) (hnot : passed n = false) :
    IsGreatest {m | 1 ≤ m ∧ m ≤ high ∧ passed m = false} (bisect passed high 1 high 0) := by
  have hbest : n ≤ bisect passed high 1 high 0 := by
    by_contra hlt
    have hpassed := passed_of_bisect_lt hmono high 1 high 0 (by omega) n hle (by omega) hn
    rw [hnot] at hpassed
    cases hpassed
  refine ⟨?_, ?_⟩
  · rcases bisect_probed passed high 1 high 0 with h | h
    · omega
    · exact h
  · rintro m ⟨hm, hmle, hmnot⟩
    by_contra hlt
    have hpassed := passed_of_bisect_lt hmono high 1 high 0 (by omega) m hmle (by omega) hm
    rw [hmnot] at hpassed
    cases hpassed

/-- Where every value has passed there is nothing to find. -/
theorem bisect_eq_zero {high : Nat} (hall : ∀ n, 1 ≤ n → n ≤ high → passed n = true) :
    bisect passed high 1 high 0 = 0 := by
  rcases bisect_probed passed high 1 high 0 with h | ⟨hpos, hle, hnot⟩
  · exact h
  · rw [hall _ hpos hle] at hnot
    cases hnot

/-! ## In bounded arithmetic -/

def boundedAdd (max a b : Nat) : Option Nat := if a + b ≤ max then some (a + b) else none

def boundedSub (a b : Nat) : Option Nat := if b ≤ a then some (a - b) else none

theorem boundedAdd_of_le {max a b : Nat} (h : a + b ≤ max) : boundedAdd max a b = some (a + b) :=
  if_pos h

theorem boundedSub_of_le {a b : Nat} (h : b ≤ a) : boundedSub a b = some (a - b) := if_pos h

/-- The loop on unsigned integers up to `max`, for at most `passes` passes.  `none` if an operation
leaves the range, or if the loop is not done by then. -/
def checkedBisect (max : Nat) (passed : Nat → Bool) : (passes low high best : Nat) → Option Nat
  | 0, low, high, best => if low ≤ high then none else some best
  | passes + 1, low, high, best =>
    if low ≤ high then do
      let width ← boundedSub high low
      let mid ← boundedAdd max low (width / 2)
      if passed mid then
        let high ← boundedSub mid 1
        checkedBisect max passed passes low high best
      else
        let low ← boundedAdd max mid 1
        checkedBisect max passed passes low high mid
    else some best

theorem bisect_done {low high : Nat} (fuel best : Nat) (h : ¬ low ≤ high) :
    bisect passed fuel low high best = best := by
  cases fuel with
  | zero => rfl
  | succ fuel => rw [bisect, if_neg h]

/-- One pass stays in range: the middle is at least one and below the bound. -/
theorem checkedBisect_pass {max low high : Nat} (passes best : Nat) (hlow : 1 ≤ low)
    (hmax : high < max) (hle : low ≤ high) :
    checkedBisect max passed (passes + 1) low high best =
      if passed (low + (high - low) / 2) then
        checkedBisect max passed passes low (low + (high - low) / 2 - 1) best
      else
        checkedBisect max passed passes (low + (high - low) / 2 + 1) high
          (low + (high - low) / 2) := by
  have hmid : low + (high - low) / 2 ≤ max := by omega
  have hpred : 1 ≤ low + (high - low) / 2 := by omega
  have hsucc : low + (high - low) / 2 + 1 ≤ max := by omega
  rw [checkedBisect, if_pos hle]
  simp only [boundedSub_of_le hle, boundedAdd_of_le hmid, boundedSub_of_le hpred,
    boundedAdd_of_le hsucc, Option.bind_eq_bind, Option.bind_some]

/-- **The loop in bounded arithmetic never leaves its range, and ends after as many passes as the
length of the interval has binary digits.** -/
theorem checkedBisect_eq_bisect {max low high best fuel passes : Nat} (hlow : 1 ≤ low)
    (hmax : high < max) (hfuel : high + 1 - low ≤ fuel) (hpasses : high + 1 - low < 2 ^ passes) :
    checkedBisect max passed passes low high best = some (bisect passed fuel low high best) := by
  -- each pass leaves less than half of the interval
  induction passes generalizing low high best fuel with
  | zero =>
    have hdone : ¬ low ≤ high := by omega
    rw [checkedBisect, if_neg hdone, bisect_done fuel best hdone]
  | succ passes ih =>
    by_cases hle : low ≤ high
    · obtain ⟨fuel, rfl⟩ : ∃ n, fuel = n + 1 := ⟨fuel - 1, by omega⟩
      rw [Nat.pow_succ] at hpasses
      rw [checkedBisect_pass passes best hlow hmax hle, bisect, if_pos hle]
      dsimp only
      split
      · exact ih hlow (by omega) (by omega) (by omega)
      · exact ih (by omega) hmax (by omega) (by omega)
    · rw [checkedBisect, if_neg hle, bisect_done fuel best hle]

end Experimint
