import Mathlib.Algebra.BigOperators.Group.List.Basic
import Mathlib.Algebra.GroupWithZero.Nat

/-!
# 64-bit amounts

A 64-bit unsigned amount is a natural number with its bound.  Saturating operations are total;
where the exact result fits they agree with the natural operations, which `raw_satAdd` and
`raw_satSub` leave to arithmetic on naturals.
-/

set_option autoImplicit false

namespace Experimint

/-- Largest 64-bit unsigned integer. -/
def U64_MAX : Nat := 18446744073709551615

/-- Unsigned 64-bit quantity. -/
@[ext] structure U64 where
  raw : Nat
  le_max : raw ≤ U64_MAX
deriving DecidableEq

namespace U64

instance : Inhabited U64 := ⟨⟨0, Nat.zero_le _⟩⟩

/-- The quantity nearest to `n` from below the bound. -/
def clamp (n : Nat) : U64 := ⟨min n U64_MAX, Nat.min_le_right _ _⟩

def zero : U64 := ⟨0, Nat.zero_le _⟩

def satAdd (a b : U64) : U64 := clamp (a.raw + b.raw)

def satSub (a b : U64) : U64 := ⟨a.raw - b.raw, Nat.le_trans (Nat.sub_le _ _) a.le_max⟩

/-- Checked conversion. -/
def tryFrom (n : Nat) : Option U64 := if h : n ≤ U64_MAX then some ⟨n, h⟩ else none

def checkedAdd (a b : U64) : Option U64 := tryFrom (a.raw + b.raw)

/-- The smaller of two quantities. -/
def least (a b : U64) : U64 := if a.raw ≤ b.raw then a else b

@[simp] theorem raw_clamp (n : Nat) : (clamp n).raw = min n U64_MAX := rfl

@[simp] theorem raw_zero : zero.raw = 0 := rfl

theorem raw_satAdd (a b : U64) : (satAdd a b).raw = min (a.raw + b.raw) U64_MAX := rfl

@[simp] theorem raw_satSub (a b : U64) : (satSub a b).raw = a.raw - b.raw := rfl

theorem raw_satAdd_of_le {a b : U64} (h : a.raw + b.raw ≤ U64_MAX) :
    (satAdd a b).raw = a.raw + b.raw :=
  Nat.min_eq_left h

theorem raw_satAdd_le (a b : U64) : (satAdd a b).raw ≤ a.raw + b.raw := Nat.min_le_left _ _

theorem le_raw_satAdd (a b : U64) : a.raw ≤ (satAdd a b).raw := by
  have := a.le_max
  rw [raw_satAdd]
  exact Nat.le_min.2 ⟨by omega, this⟩

theorem raw_least (a b : U64) : (least a b).raw = min a.raw b.raw := by
  unfold least
  split
  · rename_i h; exact (Nat.min_eq_left h).symm
  · rename_i h; exact (Nat.min_eq_right (by omega)).symm

theorem tryFrom_eq_some {n : Nat} {a : U64} (h : tryFrom n = some a) : a.raw = n := by
  unfold tryFrom at h
  split at h
  · cases h; rfl
  · cases h

theorem tryFrom_raw (a : U64) : tryFrom a.raw = some a := by
  unfold tryFrom
  rw [dif_pos a.le_max]

theorem tryFrom_of_le {n : Nat} (h : n ≤ U64_MAX) : tryFrom n = some ⟨n, h⟩ := dif_pos h

theorem tryFrom_of_lt {n : Nat} (h : U64_MAX < n) : tryFrom n = none := dif_neg (Nat.not_le.2 h)

/-- Running total with saturation. -/
def satSum (l : List U64) : U64 := l.foldl satAdd zero

theorem raw_foldl_satAdd_of_le {l : List U64} {a : U64}
    (h : a.raw + (l.map raw).sum ≤ U64_MAX) :
    (l.foldl satAdd a).raw = a.raw + (l.map raw).sum := by
  induction l generalizing a with
  | nil => simp
  | cons x xs ih =>
    rw [List.map_cons, List.sum_cons] at h
    have hx : (satAdd a x).raw = a.raw + x.raw := raw_satAdd_of_le (by omega)
    rw [List.foldl_cons, ih (by omega), hx, List.map_cons, List.sum_cons]
    omega

theorem raw_satSum_of_le {l : List U64} (h : (l.map raw).sum ≤ U64_MAX) :
    (satSum l).raw = (l.map raw).sum := by
  have hsum := raw_foldl_satAdd_of_le (l := l) (a := zero) (by simpa using h)
  rwa [raw_zero, Nat.zero_add] at hsum

theorem raw_satSum_le (l : List U64) : (satSum l).raw ≤ (l.map raw).sum := by
  suffices h : ∀ a : U64, (l.foldl satAdd a).raw ≤ a.raw + (l.map raw).sum by
    simpa [satSum] using h zero
  induction l with
  | nil => intro a; simp
  | cons x xs ih =>
    intro a
    have := ih (satAdd a x)
    have := raw_satAdd_le a x
    rw [List.foldl_cons, List.map_cons, List.sum_cons]
    omega

/-- A quantity is covered by the running total when it is covered by the exact one. -/
theorem le_raw_satSum_iff {l : List U64} {n : Nat} (hn : n ≤ U64_MAX) :
    n ≤ (satSum l).raw ↔ n ≤ (l.map raw).sum := by
  refine ⟨fun h => Nat.le_trans h (raw_satSum_le l), ?_⟩
  suffices h : ∀ a : U64, n ≤ a.raw + (l.map raw).sum → n ≤ (l.foldl satAdd a).raw by
    intro hle
    exact h zero (by simpa using hle)
  induction l with
  | nil => intro a; simp
  | cons x xs ih =>
    intro a hle
    rw [List.map_cons, List.sum_cons] at hle
    rw [List.foldl_cons]
    apply ih
    rw [raw_satAdd]
    omega

end U64

end Experimint
