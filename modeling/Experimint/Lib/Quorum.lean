import Mathlib.Data.Finset.Card
import Mathlib.Data.List.Count

/-!
# Quorums

Among `n` voters of which at most `f` are faulty, `3 * f < n`, a quorum is `n - f` voters that
agree.

* `exists_supporters` — rows with distinct tags that agree on a value name as many voters.
* `lt_card_sdiff_of_quorum` — a quorum holds more than `f` honest voters.
* `exists_honest_of_quorums` — two quorums share an honest voter.
-/

set_option autoImplicit false

namespace Experimint

variable {β γ ν : Type} [DecidableEq γ] [DecidableEq ν]

/-- The tags of the rows that carry `v`, as many as there are such rows. -/
theorem exists_supporters {l : List β} {tag : β → γ} (hnd : (l.map tag).Nodup) (val : β → ν)
    (v : ν) : ∃ s : Finset γ, s.card = (l.map val).count v ∧
      ∀ g ∈ s, ∃ r ∈ l, tag r = g ∧ val r = v := by
  refine ⟨((l.filter fun r => decide (val r = v)).map tag).toFinset, ?_, ?_⟩
  · have hnd' : ((l.filter fun r => decide (val r = v)).map tag).Nodup :=
      hnd.sublist (List.filter_sublist.map tag)
    rw [List.toFinset_card_of_nodup hnd', List.length_map, ← List.countP_eq_length_filter,
      List.count, List.countP_map]
    apply List.countP_congr
    intro r _
    simp
  · intro g hg
    obtain ⟨r, hr, rfl⟩ := List.mem_map.1 (List.mem_toFinset.1 hg)
    obtain ⟨hmem, hval⟩ := List.mem_filter.1 hr
    exact ⟨r, hmem, rfl, of_decide_eq_true hval⟩

variable {n f : Nat} {s t faulty members : Finset γ}

theorem lt_card_sdiff_of_quorum (hf : 3 * f < n) (hfaulty : faulty.card ≤ f)
    (hs : n - f ≤ s.card) : f < (s \ faulty).card := by
  have h := Finset.le_card_sdiff faulty s
  omega

theorem exists_honest_of_quorums (hf : 3 * f < n) (hfaulty : faulty.card ≤ f)
    (hmembers : members.card ≤ n) (hs : n - f ≤ s.card) (ht : n - f ≤ t.card)
    (hsm : s ⊆ members) (htm : t ⊆ members) : ∃ v ∈ s, v ∈ t ∧ v ∉ faulty := by
  have hunion : (s ∪ t).card ≤ members.card := Finset.card_le_card (Finset.union_subset hsm htm)
  have hcount := Finset.card_union_add_card_inter s t
  have hdiff := Finset.le_card_sdiff faulty (s ∩ t)
  have hpos : 0 < ((s ∩ t) \ faulty).card := by omega
  obtain ⟨v, hv⟩ := Finset.card_pos.1 hpos
  obtain ⟨hboth, hgood⟩ := Finset.mem_sdiff.1 hv
  obtain ⟨hvs, hvt⟩ := Finset.mem_inter.1 hboth
  exact ⟨v, hvs, hvt, hgood⟩

end Experimint
