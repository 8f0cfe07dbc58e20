import Mathlib.Logic.Basic

/-!
# Runs of a guarded transition system

`R s i o s'` says that from `s` the item `i` is accepted, answers `o` and leads to `s'`.  A run
records the accepted items with their answers, newest first, so a history argument is an induction
on the trace and every state on the way is the end of a shorter run.

* `Run.invariant` is the induction rule for state invariants.
* `Run.historyInvariant` is the rule for invariants that relate the state to the trace.
* `Run.append` composes runs, and `Run.simulate` matches them with runs of another system.
* `guarded` restricts a deterministic system to the items that meet a condition.
* `Run.of_exec` turns an executed list of items into a run of a deterministic system, and
  `Run.exists_of_exec` one whose outcome was tested.
-/

set_option autoImplicit false

namespace Experimint

variable {σ ι ο : Type}

/-- States reachable from `s₀`, with the trace of accepted items, newest first. -/
inductive Run (R : σ → ι → ο → σ → Prop) (s₀ : σ) : List (ι × ο) → σ → Prop
  | start : Run R s₀ [] s₀
  | next {tr : List (ι × ο)} {s s' : σ} {i : ι} {o : ο} :
      Run R s₀ tr s → R s i o s' → Run R s₀ ((i, o) :: tr) s'

namespace Run

variable {R : σ → ι → ο → σ → Prop} {s₀ s : σ} {tr : List (ι × ο)}

/-- An invariant of the trace and the state that every accepted item preserves holds at the end of
every run. -/
theorem historyInvariant {P : List (ι × ο) → σ → Prop} (h0 : P [] s₀)
    (hstep : ∀ tr s i o s', P tr s → R s i o s' → P ((i, o) :: tr) s') (h : Run R s₀ tr s) :
    P tr s := by
  induction h with
  | start => exact h0
  | next _ hR ih => exact hstep _ _ _ _ _ ih hR

/-- A state invariant that every accepted item preserves holds in every reachable state. -/
theorem invariant {P : σ → Prop} (h0 : P s₀) (hstep : ∀ s i o s', P s → R s i o s' → P s')
    (h : Run R s₀ tr s) : P s :=
  historyInvariant (P := fun _ s => P s) h0 (fun _ _ _ _ _ hP hR => hstep _ _ _ _ hP hR) h

/-- Runs compose. -/
theorem append {s' : σ} {tr' : List (ι × ο)} (h : Run R s₀ tr s) (h' : Run R s tr' s') :
    Run R s₀ (tr' ++ tr) s' :=
  historyInvariant (P := fun tr' s' => Run R s₀ (tr' ++ tr) s') h
    (fun _ _ _ _ _ hP hR => hP.next hR) h'

/-- Forward simulation: where every step from related states is matched by steps of the other
system, possibly none, every run is matched by a run that ends in a related state. -/
theorem simulate {τ κ π : Type} {A : τ → κ → π → τ → Prop} {t₀ : τ}
    {Rel : List (ι × ο) → σ → List (κ × π) → τ → Prop} (h0 : Rel [] s₀ [] t₀)
    (hstep : ∀ tr s tr' t i o s', Run A t₀ tr' t → Rel tr s tr' t → R s i o s' →
      ∃ tr'' t', Run A t tr'' t' ∧ Rel ((i, o) :: tr) s' (tr'' ++ tr') t')
    (h : Run R s₀ tr s) : ∃ tr' t, Run A t₀ tr' t ∧ Rel tr s tr' t := by
  induction h with
  | start => exact ⟨[], t₀, .start, h0⟩
  | next _ hR ih =>
    obtain ⟨tr', t, hrun, hrel⟩ := ih
    obtain ⟨tr'', t', hmore, hrel'⟩ := hstep _ _ _ _ _ _ _ hrun hrel hR
    exact ⟨tr'' ++ tr', t', hrun.append hmore, hrel'⟩

end Run

/-! ## Deterministic systems -/

/-- Relation of a deterministic system, whose rejections are `none`. -/
def Steps (step : σ → ι → Option (ο × σ)) (s : σ) (i : ι) (o : ο) (s' : σ) : Prop :=
  step s i = some (o, s')

/-- The system restricted to items that meet a condition in the state they arrive in. -/
def guarded (p : σ → ι → Bool) (step : σ → ι → Option (ο × σ)) (s : σ) (i : ι) :
    Option (ο × σ) :=
  if p s i then step s i else none

theorem steps_guarded {p : σ → ι → Bool} {step : σ → ι → Option (ο × σ)} {s s' : σ} {i : ι}
    {o : ο} : Steps (guarded p step) s i o s' ↔ p s i = true ∧ Steps step s i o s' := by
  unfold Steps guarded
  by_cases h : p s i = true
  · rw [if_pos h]
    exact ⟨fun hs => ⟨h, hs⟩, And.right⟩
  · rw [if_neg h]
    exact ⟨nofun, fun hs => absurd hs.1 h⟩

/-- Executes items in order on top of the trace `tr`; `none` as soon as one is rejected. -/
def exec (step : σ → ι → Option (ο × σ)) (tr : List (ι × ο)) (s : σ) :
    List ι → Option (List (ι × ο) × σ)
  | [] => some (tr, s)
  | i :: is =>
    match step s i with
    | none => none
    | some (o, s') => exec step ((i, o) :: tr) s' is

namespace Run

variable {step : σ → ι → Option (ο × σ)} {s₀ s s' : σ} {tr tr' : List (ι × ο)}

theorem of_exec {is : List ι} (h : Run (Steps step) s₀ tr s)
    (he : exec step tr s is = some (tr', s')) : Run (Steps step) s₀ tr' s' := by
  induction is generalizing tr s with
  | nil => cases he; exact h
  | cons i is ih =>
    rw [exec] at he
    split at he
    · cases he
    · rename_i o s'' hs
      exact ih (h.next hs) he

theorem of_guarded {p : σ → ι → Bool} (h : Run (Steps (guarded p step)) s₀ tr s) :
    Run (Steps step) s₀ tr s :=
  historyInvariant (P := fun tr s => Run (Steps step) s₀ tr s) .start
    (fun _ _ _ _ _ hP hR => hP.next (steps_guarded.1 hR).2) h

/-- The run of an accepted list of items. -/
theorem of_isSome {is : List ι} (h : (exec step [] s₀ is).isSome) :
    Run (Steps step) s₀ ((exec step [] s₀ is).get h).1 ((exec step [] s₀ is).get h).2 :=
  of_exec .start (Option.some_get h).symm

/-- An accepted list of items whose trace and end satisfy `P`. -/
theorem exists_of_exec (step : σ → ι → Option (ο × σ)) (s₀ : σ) (is : List ι)
    (P : List (ι × ο) → σ → Bool) (h : (exec step [] s₀ is).any (fun r => P r.1 r.2) = true) :
    ∃ tr s, Run (Steps step) s₀ tr s ∧ P tr s = true := by
  cases he : exec step [] s₀ is with
  | none =>
    rw [he] at h
    cases h
  | some r =>
    rw [he] at h
    exact ⟨r.1, r.2, of_exec .start he, h⟩

end Run

end Experimint
