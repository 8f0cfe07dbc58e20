import Mathlib.Data.List.Range

/-!
# The first hit in a range

The least number of `lo, …, hi - 1` that passes a test, and how a search of the range is cut into
searches of its pieces.
-/

set_option autoImplicit false

namespace Experimint

variable {p : Nat → Bool} {lo mid hi t : Nat}

def firstHit (p : Nat → Bool) (lo hi : Nat) : Option Nat := (List.range' lo (hi - lo)).find? p

theorem firstHit_eq_none_iff :
    firstHit p lo hi = none ↔ ∀ s, lo ≤ s → s < hi → p s = false := by
  unfold firstHit
  rw [List.find?_eq_none]
  constructor
  · intro h s hlo hhi
    exact Bool.eq_false_iff.2 (h s (List.mem_range'_1.2 ⟨hlo, by omega⟩))
  · intro h s hs
    obtain ⟨hlo, hhi⟩ := List.mem_range'_1.1 hs
    exact Bool.eq_false_iff.1 (h s hlo (by omega))

theorem firstHit_empty (h : hi ≤ lo) : firstHit p lo hi = none :=
  firstHit_eq_none_iff.2 fun s hlo hhi => absurd hhi (by omega)

theorem firstHit_of_lt (h : lo < hi) :
    firstHit p lo hi = if p lo then some lo else firstHit p (lo + 1) hi := by
  have hlen : hi - lo = (hi - (lo + 1)) + 1 := by omega
  unfold firstHit
  rw [hlen, List.range'_succ, List.find?_cons]
  cases p lo <;> rfl

theorem firstHit_add_succ {n : Nat} :
    firstHit p lo (lo + (n + 1)) = if p lo then some lo else firstHit p (lo + 1) (lo + 1 + n) := by
  rw [firstHit_of_lt (by omega), Nat.add_right_comm, Nat.add_assoc]

theorem firstHit_split (hlo : lo ≤ mid) (hhi : mid ≤ hi) :
    firstHit p lo hi = (firstHit p lo mid).or (firstHit p mid hi) := by
  have hlen : hi - lo = (mid - lo) + (hi - mid) := by omega
  have hmid : lo + (mid - lo) = mid := by omega
  unfold firstHit
  rw [hlen, ← List.range'_append_1, hmid, List.find?_append]

/-- A hit is in the range, and nothing before it is one. -/
theorem firstHit_eq_some_iff :
    firstHit p lo hi = some t ↔
      lo ≤ t ∧ t < hi ∧ p t = true ∧ ∀ s, lo ≤ s → s < t → p s = false := by
  constructor
  · intro h
    have hmem := List.mem_range'_1.1 (List.mem_of_find?_eq_some h)
    have hhit : p t = true := List.find?_some h
    have hbound : t < hi := by omega
    refine ⟨hmem.1, hbound, hhit, ?_⟩
    -- Cut at `t`: a hit in the first piece would have been returned.
    rw [firstHit_split hmem.1 hbound.le] at h
    cases hfirst : firstHit p lo t with
    | none => exact firstHit_eq_none_iff.1 hfirst
    | some s =>
      rw [hfirst] at h
      cases h
      have hself := List.mem_range'_1.1 (List.mem_of_find?_eq_some hfirst)
      omega
  · rintro ⟨hlo, hhi, hhit, hbefore⟩
    rw [firstHit_split hlo hhi.le, firstHit_eq_none_iff.2 hbefore, firstHit_of_lt hhi, if_pos hhit]
    rfl

end Experimint
