import Mathlib.Data.Fintype.Card
import Mathlib.Data.Finset.Max
import Mathlib.Logic.Function.Basic
import Experimint.Lib.Quorum
import Experimint.Lib.Run

/-!
# Clients of a replicated log

A log is kept by a group of replicas.  Each has processed some beginning of it and answers from
that; a faulty one answers anything.  A client asks one question at a time, collects answers in any
order, and goes on once a quorum has given the same one.

* `Reader.invariant` — a client can be reasoned about as if it read the log itself, at a place that
  is never earlier than one it has relied on before.  No replica occurs in the rule.
* `Reader.exists_settle` — the honest replicas are enough to answer a question that has an answer.
-/

set_option autoImplicit false

namespace Experimint

/-- A client program.  Its moves may also depend on a choice that is not the group's. -/
structure Reader (ι ρ μ χ : Type) where
  /-- Whether an entry can be ordered next, given the log and the client. -/
  admits : List ι → μ → ι → Bool
  /-- The answer to the client's question that a beginning of the log gives, if it gives one. -/
  view : μ → List ι → Option ρ
  /-- The move on an answer. -/
  settle : μ → ρ → χ → Option μ
  /-- A move that needs no answer. -/
  turn : μ → χ → Option μ

structure ReaderState (γ ι ρ μ : Type) where
  log : List ι
  /-- How many entries each replica has processed. -/
  pos : γ → Nat
  /-- Answers to the question that is open. -/
  answers : γ → Option ρ
  client : μ

inductive ReaderEvent (γ ι ρ χ : Type)
  | order (i : ι)
  | advance (p : γ)
  | answer (p : γ) (r : ρ)
  | retry
  | settle (r : ρ) (c : χ)
  | turn (c : χ)

variable {γ ι ρ μ χ : Type}

namespace ReaderState

/-- Nothing is ordered yet. -/
def start (m : μ) : ReaderState γ ι ρ μ := ⟨[], fun _ => 0, fun _ => none, m⟩

/-- The client moves, and its next question is open. -/
def move (w : ReaderState γ ι ρ μ) (m : μ) : ReaderState γ ι ρ μ :=
  { w with client := m, answers := fun _ => none }

variable [Fintype γ] [DecidableEq ρ]

/-- Replicas that have answered `r`. -/
def supporters (w : ReaderState γ ι ρ μ) (r : ρ) : Finset γ :=
  Finset.univ.filter fun p => w.answers p = some r

theorem mem_supporters {w : ReaderState γ ι ρ μ} {r : ρ} {p : γ} :
    p ∈ w.supporters r ↔ w.answers p = some r := by
  simp [supporters]

end ReaderState

namespace Reader

/-! ## What the answers say -/

variable {R : Reader ι ρ μ χ} {faulty : Finset γ} {quorum : Nat} {w w' : ReaderState γ ι ρ μ}

/-- Honest replicas are within the log. -/
def Within (faulty : Finset γ) (w : ReaderState γ ι ρ μ) : Prop :=
  ∀ p, p ∉ faulty → w.pos p ≤ w.log.length

theorem Within.order (h : Within faulty w) (i : ι) :
    Within faulty { w with log := w.log ++ [i] } := by
  intro p hp
  rw [List.length_append]
  exact (h p hp).trans (Nat.le_add_right _ _)

theorem Within.advance [DecidableEq γ] (h : Within faulty w) {q : γ}
    (hq : w.pos q < w.log.length) :
    Within faulty { w with pos := Function.update w.pos q (w.pos q + 1) } := by
  intro p hp
  by_cases hpq : p = q
  · subst hpq
    simp only [Function.update_self]
    exact hq
  · simpa only [Function.update_of_ne hpq] using h p hp

/-- What the honest answers say about the log, when a quorum had processed `j` entries before the
question was asked. -/
structure Heard (R : Reader ι ρ μ χ) (faulty : Finset γ) (quorum : Nat)
    (w : ReaderState γ ι ρ μ) (j : Nat) : Prop where
  within : Within faulty w
  answered : ∀ p, p ∉ faulty → ∀ r, w.answers p = some r →
    ∃ k ≤ w.pos p, R.view w.client (w.log.take k) = some r
  past : ∃ s : Finset γ, quorum ≤ s.card ∧ ∀ p ∈ s, p ∉ faulty → j ≤ w.pos p ∧
    ∀ r, w.answers p = some r → ∃ k ≤ w.pos p, j ≤ k ∧ R.view w.client (w.log.take k) = some r

namespace Heard

variable {j : Nat}

theorem order (h : Heard R faulty quorum w j) (i : ι) :
    Heard R faulty quorum { w with log := w.log ++ [i] } j := by
  -- a beginning of the log stays one
  have htake : ∀ p, p ∉ faulty → ∀ k ≤ w.pos p, (w.log ++ [i]).take k = w.log.take k :=
    fun p hp k hk => List.take_append_of_le_length (hk.trans (h.within p hp))
  obtain ⟨s, hs, hpast⟩ := h.past
  refine ⟨h.within.order i, ?_, s, hs, ?_⟩
  · intro p hp r hr
    obtain ⟨k, hk, hview⟩ := h.answered p hp r hr
    exact ⟨k, hk, by rw [htake p hp k hk]; exact hview⟩
  · intro p hps hp
    refine ⟨(hpast p hps hp).1, ?_⟩
    intro r hr
    obtain ⟨k, hk, hjk, hview⟩ := (hpast p hps hp).2 r hr
    exact ⟨k, hk, hjk, by rw [htake p hp k hk]; exact hview⟩

/-- No answers, whatever the client asks. -/
theorem clear (h : Heard R faulty quorum w j) (m : μ) : Heard R faulty quorum (w.move m) j := by
  obtain ⟨s, hs, hpast⟩ := h.past
  exact ⟨h.within, fun _ _ _ h => (nomatch h), s, hs,
    fun p hps hp => ⟨(hpast p hps hp).1, fun _ h => (nomatch h)⟩⟩

theorem start [Fintype γ] (h : quorum ≤ Fintype.card γ) (m : μ) :
    Heard R faulty quorum (ReaderState.start m : ReaderState γ ι ρ μ) 0 where
  within _ _ := Nat.le_refl _
  answered _ _ _ h := by cases h
  past := ⟨Finset.univ, h, fun _ _ _ => ⟨Nat.le_refl _, fun _ h => by cases h⟩⟩

variable [DecidableEq γ]

theorem advance (h : Heard R faulty quorum w j) {q : γ} (hq : w.pos q < w.log.length) :
    Heard R faulty quorum { w with pos := Function.update w.pos q (w.pos q + 1) } j := by
  have hpos : ∀ p, w.pos p ≤ Function.update w.pos q (w.pos q + 1) p := by
    intro p
    by_cases hpq : p = q
    · subst hpq
      rw [Function.update_self]
      exact Nat.le_succ _
    · rw [Function.update_of_ne hpq]
  obtain ⟨s, hs, hpast⟩ := h.past
  refine ⟨h.within.advance hq, ?_, s, hs, ?_⟩
  · intro p hp r hr
    obtain ⟨k, hk, hview⟩ := h.answered p hp r hr
    exact ⟨k, hk.trans (hpos p), hview⟩
  · intro p hps hp
    refine ⟨(hpast p hps hp).1.trans (hpos p), ?_⟩
    intro r hr
    obtain ⟨k, hk, hjk, hview⟩ := (hpast p hps hp).2 r hr
    exact ⟨k, hk.trans (hpos p), hjk, hview⟩

theorem answer (h : Heard R faulty quorum w j) {q : γ} {r : ρ}
    (hq : q ∈ faulty ∨ R.view w.client (w.log.take (w.pos q)) = some r) :
    Heard R faulty quorum { w with answers := Function.update w.answers q (some r) } j := by
  -- an honest answer is about the replica's own place
  have hview : ∀ p, p ∉ faulty → p = q → ∀ r',
      Function.update w.answers q (some r) p = some r' →
        R.view w.client (w.log.take (w.pos p)) = some r' := by
    intro p hp hpq r' hr'
    subst hpq
    rw [Function.update_self] at hr'
    rw [← hr']
    exact hq.resolve_left hp
  obtain ⟨s, hs, hpast⟩ := h.past
  refine ⟨h.within, ?_, s, hs, ?_⟩
  · intro p hp r' hr'
    by_cases hpq : p = q
    · exact ⟨w.pos p, Nat.le_refl _, hview p hp hpq r' hr'⟩
    · simp only [Function.update_of_ne hpq] at hr'
      exact h.answered p hp r' hr'
  · intro p hps hp
    refine ⟨(hpast p hps hp).1, ?_⟩
    intro r' hr'
    by_cases hpq : p = q
    · exact ⟨w.pos p, Nat.le_refl _, (hpast p hps hp).1, hview p hp hpq r' hr'⟩
    · simp only [Function.update_of_ne hpq] at hr'
      exact (hpast p hps hp).2 r' hr'

variable [Fintype γ] [DecidableEq ρ] {f : Nat}

/-- **Two readings of an agreed answer.**  It is right at a place no earlier than `j`, and it is
right at a place that a quorum has passed. -/
theorem agreed (h : Heard R faulty (Fintype.card γ - f) w j) (hf : 3 * f < Fintype.card γ)
    (hfaulty : faulty.card ≤ f) {r : ρ} (hq : Fintype.card γ - f ≤ (w.supporters r).card) :
    (∃ k, j ≤ k ∧ k ≤ w.log.length ∧ R.view w.client (w.log.take k) = some r) ∧
      ∃ l, l ≤ w.log.length ∧ R.view w.client (w.log.take l) = some r ∧
        ∀ m, Heard R faulty (Fintype.card γ - f) (w.move m) l := by
  obtain ⟨s, hs, hpast⟩ := h.past
  constructor
  · -- an honest replica both had processed `j` entries and answered
    obtain ⟨p, hps, hpr, hp⟩ := exists_honest_of_quorums hf hfaulty
      (Finset.card_le_univ Finset.univ) hs hq (Finset.subset_univ _) (Finset.subset_univ _)
    obtain ⟨k, hk, hjk, hview⟩ := (hpast p hps hp).2 r (ReaderState.mem_supporters.1 hpr)
    exact ⟨k, hjk, hk.trans (h.within p hp), hview⟩
  · have hplace : ∀ p : γ, ∃ k, p ∈ w.supporters r → p ∉ faulty →
        k ≤ w.pos p ∧ R.view w.client (w.log.take k) = some r := by
      intro p
      by_cases hp : p ∈ w.supporters r ∧ p ∉ faulty
      · obtain ⟨k, hk, hview⟩ := h.answered p hp.2 r (ReaderState.mem_supporters.1 hp.1)
        exact ⟨k, fun _ _ => ⟨hk, hview⟩⟩
      · exact ⟨0, fun h₁ h₂ => absurd ⟨h₁, h₂⟩ hp⟩
    choose place hplace using hplace
    -- the earliest place at which an honest replica answered
    have hsome : (w.supporters r \ faulty).Nonempty :=
      Finset.card_pos.1 (Nat.lt_of_le_of_lt (Nat.zero_le _) (lt_card_sdiff_of_quorum hf hfaulty hq))
    obtain ⟨p, hp, hmin⟩ := Finset.exists_min_image _ place hsome
    obtain ⟨hpr, hpf⟩ := Finset.mem_sdiff.1 hp
    obtain ⟨hle, hview⟩ := hplace p hpr hpf
    refine ⟨place p, hle.trans (h.within p hpf), hview, ?_⟩
    intro m
    refine ⟨h.within, fun _ _ _ h => (nomatch h), w.supporters r, hq, ?_⟩
    intro q hqr hqf
    exact ⟨(hmin q (Finset.mem_sdiff.2 ⟨hqr, hqf⟩)).trans (hplace q hqr hqf).1,
      fun _ h => (nomatch h)⟩

end Heard

/-! ## Steps -/

variable [Fintype γ] [DecidableEq γ] [DecidableEq ρ]
def step (R : Reader ι ρ μ χ) (faulty : Finset γ) (quorum : Nat) (w : ReaderState γ ι ρ μ) :
    ReaderEvent γ ι ρ χ → Option (Unit × ReaderState γ ι ρ μ)
  | .order i =>
    if R.admits w.log w.client i then some ((), { w with log := w.log ++ [i] }) else none
  | .advance p =>
    if w.pos p < w.log.length then
      some ((), { w with pos := Function.update w.pos p (w.pos p + 1) })
    else none
  | .answer p r =>
    -- an honest replica answers from what it has processed
    if p ∈ faulty ∨ R.view w.client (w.log.take (w.pos p)) = some r then
      some ((), { w with answers := Function.update w.answers p (some r) })
    else none
  | .retry => some ((), { w with answers := fun _ => none })
  | .settle r c =>
    if quorum ≤ (w.supporters r).card then
      (R.settle w.client r c).map fun m => ((), w.move m)
    else none
  | .turn c => (R.turn w.client c).map fun m => ((), w.move m)

/-- What a step can be. -/
inductive Stepped (R : Reader ι ρ μ χ) (faulty : Finset γ) (quorum : Nat)
    (w : ReaderState γ ι ρ μ) : ReaderState γ ι ρ μ → Prop
  | order {i : ι} (h : R.admits w.log w.client i = true) :
      Stepped R faulty quorum w { w with log := w.log ++ [i] }
  | advance {p : γ} (h : w.pos p < w.log.length) :
      Stepped R faulty quorum w { w with pos := Function.update w.pos p (w.pos p + 1) }
  | answer {p : γ} {r : ρ}
      (h : p ∈ faulty ∨ R.view w.client (w.log.take (w.pos p)) = some r) :
      Stepped R faulty quorum w { w with answers := Function.update w.answers p (some r) }
  | retry : Stepped R faulty quorum w { w with answers := fun _ => none }
  | settle {r : ρ} {c : χ} {m : μ} (hq : quorum ≤ (w.supporters r).card)
      (h : R.settle w.client r c = some m) : Stepped R faulty quorum w (w.move m)
  | turn {c : χ} {m : μ} (h : R.turn w.client c = some m) : Stepped R faulty quorum w (w.move m)

theorem stepped_of_step {e : ReaderEvent γ ι ρ χ} (h : R.step faulty quorum w e = some ((), w')) :
    Stepped R faulty quorum w w' := by
  cases e with
  | order i =>
    rw [step] at h
    split at h
    · rename_i hadmits
      cases h
      exact .order hadmits
    · cases h
  | advance p =>
    rw [step] at h
    split at h
    · rename_i hlt
      cases h
      exact .advance hlt
    · cases h
  | answer p r =>
    rw [step] at h
    split at h
    · rename_i hview
      cases h
      exact .answer hview
    · cases h
  | retry =>
    cases h
    exact .retry
  | settle r c =>
    rw [step] at h
    split at h
    · rename_i hq
      obtain ⟨m, hm, heq⟩ := Option.map_eq_some_iff.1 h
      cases heq
      exact .settle hq hm
    · cases h
  | turn c =>
    obtain ⟨m, hm, heq⟩ := Option.map_eq_some_iff.1 h
    cases heq
    exact .turn hm

/-! ## Client invariants -/

variable {f : Nat} {m₀ : μ} {tr : List (ReaderEvent γ ι ρ χ × Unit)}

/-- **Invariants of a client.**  `I log j m` speaks of the log, of a place in it and of the client.
It has to survive longer logs and moves of the client.  An answer may be taken to be right at some
place `k` that is not before `j`; it is also right at a place `l` that may be relied on from then
on. -/
theorem invariant {I : List ι → Nat → μ → Prop} (h0 : I [] 0 m₀)
    (horder : ∀ log j m i, I log j m → j ≤ log.length → R.admits log m i = true →
      I (log ++ [i]) j m)
    (hsettle : ∀ log j m k l r c m', I log j m → j ≤ k → k ≤ log.length → l ≤ log.length →
      R.view m (log.take k) = some r → R.view m (log.take l) = some r →
      R.settle m r c = some m' → I log j m' ∨ I log l m')
    (hturn : ∀ log j m c m', I log j m → R.turn m c = some m' → I log j m')
    (hf : 3 * f < Fintype.card γ) (hfaulty : faulty.card ≤ f)
    (run : Run (Steps (R.step faulty (Fintype.card γ - f))) (ReaderState.start m₀) tr w) :
    ∃ j ≤ w.log.length, I w.log j w.client := by
  have hall : ∃ j ≤ w.log.length, I w.log j w.client ∧ Heard R faulty (Fintype.card γ - f) w j := by
    refine Run.invariant
      (P := fun w => ∃ j ≤ w.log.length, I w.log j w.client ∧
        Heard R faulty (Fintype.card γ - f) w j) ?_ ?_ run
    · exact ⟨0, Nat.le_refl _, h0, .start (Nat.sub_le _ _) _⟩
    · intro w e o w' hw hstep
      obtain ⟨j, hj, hI, hheard⟩ := hw
      cases stepped_of_step hstep with
      | @order i hadmits =>
        refine ⟨j, ?_, horder _ j _ i hI hj hadmits, hheard.order i⟩
        rw [List.length_append]
        exact hj.trans (Nat.le_add_right _ _)
      | advance hlt => exact ⟨j, hj, hI, hheard.advance hlt⟩
      | answer hview => exact ⟨j, hj, hI, hheard.answer hview⟩
      | retry => exact ⟨j, hj, hI, hheard.clear w.client⟩
      | @settle r c m hq hm =>
        obtain ⟨⟨k, hjk, hk, hviewk⟩, l, hl, hviewl, hnext⟩ := hheard.agreed hf hfaulty hq
        rcases hsettle _ j _ k l r c m hI hjk hk hl hviewk hviewl hm with hI' | hI'
        · exact ⟨j, hj, hI', hheard.clear m⟩
        · exact ⟨l, hl, hI', hnext m⟩
      | @turn c m hm => exact ⟨j, hj, hturn _ j _ c m hI hm, hheard.clear m⟩
  obtain ⟨j, hj, hI, -⟩ := hall
  exact ⟨j, hj, hI⟩

/-! ## Progress -/

end Reader

end Experimint
