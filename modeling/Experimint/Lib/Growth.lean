import Mathlib.Data.List.Chain
import Mathlib.Tactic.Ring

/-!
# Growth along a chain

A quantity that grows by a fixed factor along a list, between a lower and an upper bound, bounds the
list's length.
-/

set_option autoImplicit false

namespace Experimint

variable {α : Type} {f : α → Nat} {a b lo hi n : Nat} {l : List α}

/-- The factor accumulates along the list. -/
theorem pow_mul_le_of_isChain (hchain : l.IsChain fun x y => a * f x ≤ b * f y) (i : Nat)
    (hi : i < l.length) : a ^ i * f (l.get ⟨0, by omega⟩) ≤ b ^ i * f (l.get ⟨i, hi⟩) := by
  induction i with
  | zero => simp
  | succ i ih =>
    have hlink : a * f (l.get ⟨i, by omega⟩) ≤ b * f (l.get ⟨i + 1, hi⟩) :=
      List.isChain_iff_getElem.1 hchain i hi
    calc a ^ (i + 1) * f (l.get ⟨0, by omega⟩)
        = a * (a ^ i * f (l.get ⟨0, by omega⟩)) := by ring
      _ ≤ a * (b ^ i * f (l.get ⟨i, by omega⟩)) := Nat.mul_le_mul_left _ (ih (by omega))
      _ = b ^ i * (a * f (l.get ⟨i, by omega⟩)) := by ring
      _ ≤ b ^ i * (b * f (l.get ⟨i + 1, hi⟩)) := Nat.mul_le_mul_left _ hlink
      _ = b ^ (i + 1) * f (l.get ⟨i + 1, hi⟩) := by ring

/-- **After `n` steps the quantity would have left its bounds.** -/
theorem length_le_of_growth (f : α → Nat) (a b lo hi : Nat) (hn : 0 < n)
    (hgrowth : hi * b ^ n < lo * a ^ n)
    (hchain : l.IsChain fun x y => lo ≤ f x ∧ a * f x ≤ b * f y ∧ f y ≤ hi) : l.length ≤ n := by
  by_contra hlong
  have hlinks := List.isChain_iff_getElem.1 hchain
  have hfirst : lo ≤ f (l.get ⟨0, by omega⟩) := (hlinks 0 (by omega)).1
  have hlast : f (l.get ⟨n, by omega⟩) ≤ hi := by
    obtain ⟨m, rfl⟩ := Nat.exists_eq_add_one.2 hn
    exact (hlinks m (by omega)).2.2
  have hpow := pow_mul_le_of_isChain (hchain.imp fun _ _ h => h.2.1) n (by omega)
  have hle : lo * a ^ n ≤ hi * b ^ n :=
    calc lo * a ^ n ≤ f (l.get ⟨0, by omega⟩) * a ^ n := Nat.mul_le_mul_right _ hfirst
      _ = a ^ n * f (l.get ⟨0, by omega⟩) := Nat.mul_comm _ _
      _ ≤ b ^ n * f (l.get ⟨n, by omega⟩) := hpow
      _ ≤ b ^ n * hi := Nat.mul_le_mul_left _ hlast
      _ = hi * b ^ n := Nat.mul_comm _ _
  omega

end Experimint
