import Mathlib.Data.Nat.Find

/-!
# Scans that stop after a gap

A scan walks the naturals from zero and stops after `gap` indices in a row that miss.  It counts the
misses since the last hit; the indices it visits are those below the first point where the count
reaches `gap`, which are those with no run of `gap` misses below them.

* `missesBefore` — the counter of the scan.
* `withinGap_iff` — the visited indices by runs of misses, and by the counter.
* `exists_stopsAt` — a scan with finitely many hits stops.
-/

set_option autoImplicit false

namespace Experimint

variable {used : Nat → Bool} {gap : Nat}

/-- Misses since the last hit, after the indices below `n`. -/
def missesBefore (used : Nat → Bool) : Nat → Nat
  | 0 => 0
  | n + 1 => if used n then 0 else missesBefore used n + 1

/-- Every run of misses below `i` is shorter than `gap`. -/
def WithinGap (used : Nat → Bool) (gap i : Nat) : Prop :=
  ∀ a b, a ≤ b → b ≤ i → (∀ k, a ≤ k → k < b → used k = false) → b - a < gap

theorem missesBefore_le (used : Nat → Bool) (n : Nat) : missesBefore used n ≤ n := by
  induction n with
  | zero => exact Nat.le_refl _
  | succ n ih =>
    unfold missesBefore
    split
    · exact Nat.zero_le _
    · omega

/-- The counted indices are misses. -/
theorem unused_of_missesBefore {n k : Nat} (hlo : n - missesBefore used n ≤ k) (hhi : k < n) :
    used k = false := by
  induction n with
  | zero => omega
  | succ n ih =>
    unfold missesBefore at hlo
    split at hlo
    · omega
    · rename_i hmiss
      rcases Nat.lt_or_eq_of_le (Nat.le_of_lt_succ hhi) with hlt | rfl
      · exact ih (by omega) hlt
      · exact Bool.eq_false_iff.2 hmiss

/-- A run of misses is counted in full at its end. -/
theorem le_missesBefore {a b : Nat} (hrun : ∀ k, a ≤ k → k < b → used k = false) :
    b - a ≤ missesBefore used b := by
  induction b with
  | zero => omega
  | succ b ih =>
    rcases Nat.lt_or_ge b a with hlt | hge
    · omega
    · have hmiss : ¬used b = true := by
        rw [hrun b hge (Nat.lt_succ_self b)]
        exact Bool.false_ne_true
      have hle := ih fun k hlo hhi => hrun k hlo (Nat.lt_succ_of_lt hhi)
      unfold missesBefore
      rw [if_neg hmiss]
      omega

theorem withinGap_iff {i : Nat} :
    WithinGap used gap i ↔ ∀ n, n ≤ i → missesBefore used n < gap := by
  constructor
  · intro h n hn
    have hle := missesBefore_le used n
    have hrun := h (n - missesBefore used n) n (Nat.sub_le _ _) hn fun k hlo hhi =>
      unused_of_missesBefore hlo hhi
    omega
  · intro h a b _ hbi hrun
    have hle := le_missesBefore hrun
    have hlt := h b hbi
    omega

/-- The scan visits the indices below `n` and stops there. -/
structure StopsAt (used : Nat → Bool) (gap n : Nat) : Prop where
  stops : gap ≤ missesBefore used n
  before : ∀ m, m < n → missesBefore used m < gap

/-- The visited indices are those no gap lies below. -/
theorem StopsAt.withinGap_iff {n i : Nat} (h : StopsAt used gap n) :
    WithinGap used gap i ↔ i < n := by
  rw [Experimint.withinGap_iff]
  constructor
  · intro hall
    by_contra hge
    have hlt := hall n (by omega)
    have hstop := h.stops
    omega
  · intro hlt m hm
    exact h.before m (by omega)

theorem missesBefore_after {N : Nat} (hfinite : ∀ k, N ≤ k → used k = false) (gap : Nat) :
    gap ≤ missesBefore used (N + gap) := by
  have hle : N + gap - N ≤ missesBefore used (N + gap) :=
    le_missesBefore fun k hlo _ => hfinite k hlo
  omega

/-- With finitely many hits, a scan stops. -/
theorem exists_stopsAt {N : Nat} (hfinite : ∀ k, N ≤ k → used k = false) (gap : Nat) :
    ∃ n, StopsAt used gap n := by
  have hex : ∃ n, gap ≤ missesBefore used n := ⟨_, missesBefore_after hfinite gap⟩
  refine ⟨Nat.find hex, Nat.find_spec hex, ?_⟩
  intro m hm
  exact Nat.lt_of_not_le (Nat.find_min hex hm)

end Experimint
