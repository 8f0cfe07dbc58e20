import Mathlib.Algebra.BigOperators.Group.Finset.Basic
import Mathlib.Algebra.Order.BigOperators.Group.Finset
import Mathlib.Data.Fintype.Basic
import Mathlib.Data.Finset.Max
import Experimint.Threshold.OffThread

/-!
# Parties whose services agree run in lock-step

Each party's loop is a run of its own, whose calls of the exchange are answered by some service.
Where every service answers call `k` with the payloads that all parties have made call `k` with, the
runs are the views of one run over the exchange.  The proof takes the runs back step by step: the
last step of a party that is as far as any other is needed by nobody else.

* `Direct.counts` — payloads and answers are counted in the loop's variables.
* `lockstep_of_direct` — runs of the parties are one run over the exchange.
-/

set_option autoImplicit false

namespace Experimint.ThresholdEcdsa

variable {S : Suite} {σ O M : Type} {g : Group S σ O M} {i : PartyIndex}

/-- A run of one party's loop. -/
abbrev Direct (g : Group S σ O M) (i : PartyIndex) (v₀ : Node σ O M) :
    List (DirectAction S × Obs M) → Node σ O M → Prop := Run (Steps (directStep g i)) v₀

/-- The steps of a party that calls the service itself. -/
theorem directStep_cases {v v' : Node σ O M} {a : DirectAction S} {o : Obs M}
    (h : directStep g i v a = some (o, v')) :
    (∃ rand, a = .advance rand ∧ v.phase = .running ∧ v.advance g i rand = (o, v')) ∨
      ∃ result w, a = .exchange result ∧ v.phase = .exchanging w ∧
        v.exchanged g i w result = (o, v') := by
  cases a with
  | advance rand =>
    unfold directStep at h
    dsimp only at h
    split at h
    · rename_i hphase
      exact .inl ⟨rand, rfl, hphase, Option.some.inj h⟩
    · cases h
  | exchange result =>
    unfold directStep at h
    dsimp only at h
    split at h
    · rename_i w hphase
      exact .inr ⟨result, w, rfl, hphase, Option.some.inj h⟩
    · cases h

/-- Payloads and answers, while the loop has not returned. -/
structure Counts (v : Node σ O M) (n : Nat) : Prop where
  running : v.phase = .running → v.collected = n ∧ v.posted.length = n
  exchanging : ∀ w, v.phase = .exchanging w → v.collected = n ∧ v.posted.length = n + 1

theorem Counts.advance {v v' : Node σ O M} {n : Nat} {rand : SealRandomness S} {o : Obs M}
    (hc : Counts v n) (hphase : v.phase = .running) (h : v.advance g i rand = (o, v')) :
    Counts v' n := by
  obtain ⟨hcollected, hposted⟩ := hc.running hphase
  obtain ⟨hsame, ⟨hkept, hno, -⟩ | ⟨payload, w, hmore, hw, -⟩⟩ :=
    (advanced_of_advance h).calls hphase
  · exact ⟨fun _ => ⟨hsame.trans hcollected, by rw [hkept, hposted]⟩, fun w hw => absurd hw (hno w)⟩
  · refine ⟨fun hrun => (by cases hw.symm.trans hrun), fun _ _ => ⟨hsame.trans hcollected, ?_⟩⟩
    rw [hmore, List.length_append, List.length_singleton, hposted]

theorem Counts.exchange {v v' : Node σ O M} {n : Nat} {w : Bool} {result : RoundResult} {o : Obs M}
    (hc : Counts v n) (hphase : v.phase = .exchanging w)
    (h : v.exchanged g i w result = (o, v')) : Counts v' (n + 1) := by
  obtain ⟨hcollected, hposted⟩ := hc.exchanging w hphase
  cases result with
  | error e =>
    cases h
    exact ⟨fun hrun => (by cases hrun), fun w hw => (by cases hw)⟩
  | ok all =>
    obtain ⟨hkept, ⟨r, hr⟩ | ⟨hrun, hmore⟩⟩ := collect_cases h
    · exact ⟨fun hrun => (by cases hr.symm.trans hrun), fun w hw => (by cases hr.symm.trans hw)⟩
    · exact ⟨fun _ => ⟨by rw [hmore, hcollected], by rw [hkept, hposted]⟩,
        fun w hw => (by cases hrun.symm.trans hw)⟩

/-- **The loop's variables count the calls.** -/
theorem Direct.counts {init : PartyIndex → σ} {tr : List (DirectAction S × Obs M)}
    {v : Node σ O M} (h : Direct g i (Group.start init i) tr v) : Counts v (answers tr).length := by
  refine h.historyInvariant (P := fun tr v => Counts v (answers tr).length) ?_ ?_
  · exact ⟨fun _ => ⟨rfl, rfl⟩, fun w hw => (by cases hw)⟩
  · intro tr v a o v' hc hstep
    rcases directStep_cases hstep with ⟨rand, rfl, hphase, hadv⟩ | ⟨result, w, rfl, hphase, hex⟩
    · exact hc.advance hphase hadv
    · rw [answers, List.length_append, List.length_singleton]
      exact hc.exchange hphase hex

/-! ## Taking runs back -/

/-- Every answer is what all parties have made that call with. -/
def Answered (g : Group S σ O M) (v : Mesh σ O M) (all : List RoundResult) : Prop :=
  ∀ (k : Nat) (result : RoundResult), all[k]? = some result →
    result = .ok (g.payloads v k) ∧ g.allPosted v k = true

theorem payloads_congr {v v' : Mesh σ O M} {k : Nat}
    (h : ∀ j, (v' j).posted[k]? = (v j).posted[k]?) : g.payloads v' k = g.payloads v k := by
  unfold Group.payloads
  simp only [h]

theorem allPosted_congr {v v' : Mesh σ O M} {k : Nat}
    (h : ∀ j, (v' j).posted[k]? = (v j).posted[k]?) : g.allPosted v' k = g.allPosted v k := by
  have hlt : ∀ j, k < (v' j).posted.length ↔ k < (v j).posted.length := by
    intro j
    rw [← not_le, ← List.getElem?_eq_none_iff, h j, List.getElem?_eq_none_iff, not_le]
  unfold Group.allPosted
  simp only [hlt]

/-- What a step leaves of the payloads. -/
theorem posted_before_step {v v' : Node σ O M} {n k : Nat} {a : DirectAction S} {o : Obs M}
    (hc : Counts v n) (hstep : directStep g i v a = some (o, v')) (hk : k < n) :
    v.posted[k]? = v'.posted[k]? := by
  rcases directStep_cases hstep with ⟨rand, -, hphase, hadv⟩ | ⟨result, w, -, hphase, hex⟩
  · obtain ⟨-, ⟨hkept, -, -⟩ | ⟨payload, w, hmore, -, -⟩⟩ := (advanced_of_advance hadv).calls hphase
    · rw [hkept]
    · rw [hmore, List.getElem?_append_left (by rw [(hc.running hphase).2]; exact hk)]
  · rw [(exchanged_cases hex).1]

/-- The parties with their runs. -/
structure Views (g : Group S σ O M) (init : PartyIndex → σ)
    (trs : PartyIndex → List (DirectAction S × Obs M)) (v : Mesh σ O M) : Prop where
  run : ∀ i, Direct g i (Group.start init i) (trs i) (v i)
  outside : ∀ i, g.n ≤ i.val → trs i = []
  answered : ∀ i, Answered g v (answers (trs i))

variable {init : PartyIndex → σ} {trs : PartyIndex → List (DirectAction S × Obs M)}
  {v : Mesh σ O M}

/-- A party that has made a step and is as far as any other. -/
theorem exists_ahead (h : ∃ i, trs i ≠ []) :
    ∃ i, trs i ≠ [] ∧ ∀ j, (answers (trs j)).length ≤ (answers (trs i)).length := by
  classical
  obtain ⟨i₀, hi₀⟩ := h
  obtain ⟨i, hi, hmax⟩ := Finset.exists_max_image (Finset.univ.filter fun i => trs i ≠ [])
    (fun i => (answers (trs i)).length) ⟨i₀, Finset.mem_filter.2 ⟨Finset.mem_univ _, hi₀⟩⟩
  refine ⟨i, (Finset.mem_filter.1 hi).2, fun j => ?_⟩
  by_cases hj : trs j = []
  · rw [hj]
    exact Nat.zero_le _
  · exact hmax j (Finset.mem_filter.2 ⟨Finset.mem_univ _, hj⟩)

/-- Taking back the last step of such a party leaves everyone's answers right. -/
theorem Views.back (h : Views g init trs v) {a : DirectAction S} {o : Obs M}
    {rest : List (DirectAction S × Obs M)} {v₁ : Node σ O M} (hi : trs i = (a, o) :: rest)
    (hahead : ∀ j, (answers (trs j)).length ≤ (answers (trs i)).length)
    (hrun : Direct g i (Group.start init i) rest v₁)
    (hstep : directStep g i v₁ a = some (o, v i)) :
    Views g init (Function.update trs i rest) (Function.update v i v₁) := by
  -- nobody has an answer to a call that only the last step has made
  have hposted : ∀ k < (answers (trs i)).length, ∀ j,
      (Function.update v i v₁ j).posted[k]? = (v j).posted[k]? := by
    intro k hk j
    by_cases hj : j = i
    · subst hj
      rw [Function.update_self]
      rw [hi] at hk
      cases a with
      | advance rand => exact posted_before_step (Direct.counts hrun) hstep hk
      | exchange result =>
        rcases directStep_cases hstep with ⟨rand, ha, -, -⟩ | ⟨_, w, -, -, hex⟩
        · cases ha
        · rw [(exchanged_cases hex).1]
    · rw [Function.update_of_ne hj]
  have hanswered : ∀ j, Answered g (Function.update v i v₁) (answers (trs j)) := by
    intro j k result hk
    have hlt : k < (answers (trs i)).length :=
      ((List.getElem?_eq_some_iff.1 hk).1).trans_le (hahead j)
    rw [payloads_congr (hposted k hlt), allPosted_congr (hposted k hlt)]
    exact h.answered j k result hk
  have hfewer : answers rest <+: answers (trs i) := by
    rw [hi]
    cases a with
    | advance rand => exact List.prefix_rfl
    | exchange result => exact List.prefix_append _ _
  refine ⟨fun j => ?_, fun j hj => ?_, fun j => ?_⟩
  · by_cases hj : j = i
    · subst hj
      rw [Function.update_self, Function.update_self]
      exact hrun
    · rw [Function.update_of_ne hj, Function.update_of_ne hj]
      exact h.run j
  · by_cases hij : j = i
    · subst hij
      cases (h.outside j hj).symm.trans hi
    · rw [Function.update_of_ne hij]
      exact h.outside j hj
  · by_cases hj : j = i
    · subst hj
      rw [Function.update_self]
      exact fun k result hk => hanswered j k result (getElem?_prefix_mono hfewer hk)
    · rw [Function.update_of_ne hj]
      exact hanswered j

/-- The step taken back is a step over the exchange. -/
theorem Views.forth (h : Views g init trs v) {a : DirectAction S} {o : Obs M}
    {rest : List (DirectAction S × Obs M)} {v₁ : Node σ O M} (hi : trs i = (a, o) :: rest)
    (hback : Views g init (Function.update trs i rest) (Function.update v i v₁))
    (hstep : directStep g i v₁ a = some (o, v i)) :
    ∃ b, g.step (Function.update v i v₁) b = some (o, v) := by
  have hin : i.val < g.n := by
    by_contra hout
    cases (h.outside i (not_lt.1 hout)).symm.trans hi
  have hrun : Direct g i (Group.start init i) rest v₁ := by
    have := hback.run i
    rwa [Function.update_self, Function.update_self] at this
  have hend : Function.update (Function.update v i v₁) i (v i) = v := by
    rw [Function.update_idem, Function.update_eq_self]
  rcases directStep_cases hstep with ⟨rand, rfl, hphase, hadv⟩ | ⟨result, w, rfl, hphase, hex⟩
  · refine ⟨.advance i rand, ?_⟩
    unfold Group.step
    dsimp only
    rw [if_pos hin, Function.update_self, hphase]
    dsimp only
    rw [hadv, hend]
  · refine ⟨.collect i, ?_⟩
    have hcollected := ((Direct.counts hrun).exchanging w hphase).1
    have hposted : ∀ (k : Nat) (j : PartyIndex),
        (Function.update v i v₁ j).posted[k]? = (v j).posted[k]? := by
      intro k j
      by_cases hj : j = i
      · subst hj
        rw [Function.update_self, (exchanged_cases hex).1]
      · rw [Function.update_of_ne hj]
    obtain ⟨hresult, hall⟩ := h.answered i (answers rest).length result (by
      rw [hi, answers, List.getElem?_concat_length])
    rw [hresult] at hex
    unfold Group.step
    dsimp only
    rw [if_pos hin, Function.update_self, hphase]
    dsimp only
    rw [hcollected, payloads_congr (hposted _), allPosted_congr (hposted _), if_pos hall]
    have hcollect : v₁.collect g i w (g.payloads v (answers rest).length) = (o, v i) := hex
    rw [hcollect]
    dsimp only
    rw [hend]

/-- **Parties whose services agree run in lock-step.** -/
theorem lockstep_of_direct (h : Views g init trs v) :
    ∃ tr, Run (Steps g.step) (Group.start init) tr v := by
  -- on the number of steps that all parties have made
  induction hsize : ∑ i, (trs i).length generalizing trs v with
  | zero =>
    have hnil : ∀ i, trs i = [] := fun i =>
      List.length_eq_zero_iff.1 (Finset.sum_eq_zero_iff.1 hsize i (Finset.mem_univ i))
    have hstart : v = Group.start init := by
      funext i
      have hrun := h.run i
      rw [hnil i] at hrun
      generalize v i = w at hrun ⊢
      cases hrun
      rfl
    rw [hstart]
    exact ⟨[], .start⟩
  | succ n ih =>
    have hsome : ∃ i, trs i ≠ [] := by
      by_contra hnone
      push Not at hnone
      simp [hnone] at hsize
    obtain ⟨i, hne, hahead⟩ := exists_ahead hsome
    have hrun := h.run i
    obtain ⟨e, rest, hi⟩ := List.exists_cons_of_ne_nil hne
    rw [hi] at hrun
    obtain ⟨a, o⟩ := e
    cases hrun with
    | @next _ v₁ _ _ _ hbefore hstep =>
      have hback := h.back hi hahead hbefore hstep
      have hless : ∑ j, (Function.update trs i rest j).length = n := by
        have hsum : ∑ j, (trs j).length = (∑ j, (Function.update trs i rest j).length) + 1 := by
          rw [← Finset.add_sum_erase _ _ (Finset.mem_univ i),
            ← Finset.add_sum_erase _ (fun j => (Function.update trs i rest j).length)
              (Finset.mem_univ i), Function.update_self, hi, List.length_cons]
          have hother : ∀ j ∈ Finset.univ.erase i,
              (trs j).length = (Function.update trs i rest j).length := by
            intro j hj
            rw [Function.update_of_ne (Finset.ne_of_mem_erase hj)]
          rw [Finset.sum_congr rfl hother]
          omega
        omega
      obtain ⟨tr, hlock⟩ := ih hback hless
      obtain ⟨b, hb⟩ := h.forth hi hback hstep
      exact ⟨(b, o) :: tr, hlock.next hb⟩

end Experimint.ThresholdEcdsa
