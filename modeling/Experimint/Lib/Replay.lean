import Mathlib.Data.List.Basic
import Experimint.Lib.Run

/-!
# Replicas of a log

Replicas of a deterministic system process the items of one log in order; an item that is rejected
leaves no trace.  So the state of a replica is a function of how far it has come.

* `stateAt` — the state after the first `k` items.
* `run_stateAt` — from one position to a later one there is a run of accepted items.
-/

set_option autoImplicit false

namespace Experimint

variable {σ ι ο : Type}

/-- Processes one item. -/
def absorb (step : σ → ι → Option (ο × σ)) (s : σ) (i : ι) : σ :=
  match step s i with
  | some (_, s') => s'
  | none => s

/-- The state after the first `k` items of the log. -/
def stateAt (step : σ → ι → Option (ο × σ)) (s₀ : σ) (log : List ι) (k : Nat) : σ :=
  (log.take k).foldl (absorb step) s₀

variable {step : σ → ι → Option (ο × σ)} {s₀ s s' : σ} {log : List ι} {i : ι} {k : Nat}

theorem absorb_eq_of_some {o : ο} (h : step s i = some (o, s')) : absorb step s i = s' := by
  rw [absorb, h]

theorem absorb_eq_of_none (h : step s i = none) : absorb step s i = s := by
  rw [absorb, h]

theorem absorb_cases (step : σ → ι → Option (ο × σ)) (s : σ) (i : ι) :
    step s i = none ∧ absorb step s i = s ∨ ∃ o, step s i = some (o, absorb step s i) := by
  cases h : step s i with
  | none => exact .inl ⟨rfl, absorb_eq_of_none h⟩
  | some r => exact .inr ⟨r.1, by rw [absorb_eq_of_some h]⟩

@[simp] theorem stateAt_zero : stateAt step s₀ log 0 = s₀ := rfl

theorem stateAt_succ (h : log[k]? = some i) :
    stateAt step s₀ log (k + 1) = absorb step (stateAt step s₀ log k) i := by
  unfold stateAt
  rw [List.take_add_one, h, List.foldl_append]
  rfl

theorem stateAt_of_length_le (h : log.length ≤ k) :
    stateAt step s₀ log k = stateAt step s₀ log log.length := by
  unfold stateAt
  rw [List.take_of_length_le h, List.take_length]

/-- **Between two positions there is a run of accepted items.** -/
theorem run_stateAt (step : σ → ι → Option (ο × σ)) (s₀ : σ) (log : List ι) {j k : Nat}
    (hjk : j ≤ k) :
    ∃ tr, Run (Steps step) (stateAt step s₀ log j) tr (stateAt step s₀ log k) := by
  induction hjk with
  | refl => exact ⟨[], .start⟩
  | @step k _ ih =>
    obtain ⟨tr, run⟩ := ih
    cases hi : log[k]? with
    | none =>
      have hlen := List.getElem?_eq_none_iff.1 hi
      rw [stateAt_of_length_le (Nat.le_succ_of_le hlen), ← stateAt_of_length_le hlen]
      exact ⟨tr, run⟩
    | some i =>
      rw [stateAt_succ hi]
      rcases absorb_cases step (stateAt step s₀ log k) i with ⟨-, heq⟩ | ⟨o, hstep⟩
      · rw [heq]
        exact ⟨tr, run⟩
      · exact ⟨_, run.next hstep⟩

end Experimint
