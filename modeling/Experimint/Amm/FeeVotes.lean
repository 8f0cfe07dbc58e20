import Mathlib.Data.List.MinMax
import Experimint.Lib.OrderStatistics
import Experimint.Amm.Invariant

/-!
# Fee aggregation against faulty guardians

`consensusFeeFor` takes the stored vote at index `threshold - 1` of the sorted votes.  With a full
table that index is bracketed by honest votes; with fewer votes only the lower side is: at exactly
`threshold` votes the index is the largest vote, whoever cast it.

* `fee_ge_honest` — some honest vote is at most the fee, for every table with a quorum.
* `fee_bracket_iff` — the fee is also at most some honest vote exactly when the faulty votes above
  all honest ones leave `threshold` others.
* `three_of_four_votes` — three votes of four guardians, the faulty one decides the fee.
-/

set_option autoImplicit false

namespace Experimint.FedimintAmm

/-- A vote row cast by an honest guardian. -/
def Honest (faulty : Finset PeerId) (r : FeeVoteKey × Nat) : Prop := (ofLex r.1).2 ∉ faulty

instance (faulty : Finset PeerId) (r : FeeVoteKey × Nat) : Decidable (Honest faulty r) :=
  inferInstanceAs (Decidable (_ ∉ _))

/-- A federation with at most `maxEvil` faulty guardians and a quorum of in-band votes. -/
structure FeeQuorum (a : Amm) (db : Db) (pool : PoolId) (faulty : Finset PeerId) : Prop where
  guardians : 0 < a.numPeers.total
  few_faulty : faulty.card ≤ a.numPeers.maxEvil
  quorum : a.numPeers.threshold ≤ (feeVotesOf db pool).length
  in_band : ∀ r ∈ feeVotesOf db pool, a.cfg.feeInBand r.2 = true

/-- The fee lies between the smallest and the largest honest vote. -/
def BetweenHonestVotes (a : Amm) (db : Db) (pool : PoolId) (faulty : Finset PeerId) : Prop :=
  (∃ r ∈ feeVotesOf db pool, Honest faulty r ∧ r.2 ≤ consensusFeeFor a db pool) ∧
    ∃ r ∈ feeVotesOf db pool, Honest faulty r ∧ consensusFeeFor a db pool ≤ r.2

/-- Faulty votes larger than every honest vote. -/
def votesAboveHonest (db : Db) (pool : PoolId) (faulty : Finset PeerId) :
    List (FeeVoteKey × Nat) :=
  (feeVotesOf db pool).filter fun r =>
    !decide (Honest faulty r) &&
      (feeVotesOf db pool).all fun q => !decide (Honest faulty q) || decide (q.2 < r.2)

/-! ## The selected vote -/

/-- With a quorum, the fee is the vote selected by the sort. -/
theorem fee_eq_selected {a : Amm} {db : Db} {pool : PoolId} {faulty : Finset PeerId}
    (h : FeeQuorum a db pool faulty) :
    (((feeVotesOf db pool).map Prod.snd).insertionSort (· ≤ ·))[a.numPeers.threshold - 1]? =
      some (consensusFeeFor a db pool) := by
  have hlen : a.numPeers.threshold - 1 < ((feeVotesOf db pool).map Prod.snd).length := by
    have := NumPeers.maxEvil_lt_threshold h.guardians
    have := h.quorum
    rw [List.length_map]
    omega
  obtain ⟨x, hx⟩ := exists_getElem?_insertionSort hlen
  have hmem : x ∈ (feeVotesOf db pool).map Prod.snd :=
    (List.mem_insertionSort (· ≤ ·)).1 (List.mem_of_getElem? hx)
  obtain ⟨r, hr, rfl⟩ := List.mem_map.1 hmem
  unfold consensusFeeFor
  dsimp only
  rw [hx, Option.getD_some, AmmConfigConsensus.clampFeeToBand_of_inBand (h.in_band r hr)]

/-- The fee against a bound, by counting stored votes. -/
theorem fee_le_iff {a : Amm} {db : Db} {pool : PoolId} {faulty : Finset PeerId}
    (h : FeeQuorum a db pool faulty) (c : Nat) :
    consensusFeeFor a db pool ≤ c ↔
      a.numPeers.threshold ≤ ((feeVotesOf db pool).filter fun r => decide (r.2 ≤ c)).length := by
  have hiff := orderStat_le_iff (fee_eq_selected h) c
  have hpos := NumPeers.maxEvil_lt_threshold h.guardians
  rw [List.countP_map, List.countP_eq_length_filter] at hiff
  rw [hiff]
  simp only [Function.comp_def]
  omega

theorem peers_nodup (db : Db) (pool : PoolId) :
    ((feeVotesOf db pool).map fun r => (ofLex r.1).2).Nodup :=
  db.feeVote.nodup_scan fun _ hk => of_decide_eq_true hk

theorem faulty_votes_le {a : Amm} {db : Db} {pool : PoolId} {faulty : Finset PeerId}
    (h : FeeQuorum a db pool faulty) :
    ((feeVotesOf db pool).filter fun r => !decide (Honest faulty r)).length ≤ a.numPeers.maxEvil := by
  refine (length_filter_le_card (peers_nodup db pool) faulty ?_).trans h.few_faulty
  intro r _ hr
  have hdis : ¬Honest faulty r := by simpa using hr
  exact not_not.1 hdis

/-! ## Bracketing -/

/-- Some honest vote is at most the fee. -/
theorem fee_ge_honest {a : Amm} {db : Db} {pool : PoolId} {faulty : Finset PeerId}
    (h : FeeQuorum a db pool faulty) :
    ∃ r ∈ feeVotesOf db pool, Honest faulty r ∧ r.2 ≤ consensusFeeFor a db pool := by
  by_contra hnone
  have hcount := (fee_le_iff h (consensusFeeFor a db pool)).1 (Nat.le_refl _)
  have hsub : ((feeVotesOf db pool).filter fun r => decide (r.2 ≤ consensusFeeFor a db pool)).length
      ≤ ((feeVotesOf db pool).filter fun r => !decide (Honest faulty r)).length := by
    rw [← List.countP_eq_length_filter, ← List.countP_eq_length_filter]
    apply List.countP_mono_left
    intro r hr hle
    have hdis : ¬Honest faulty r := fun hh => hnone ⟨r, hr, hh, by simpa using hle⟩
    simpa using hdis
  have hfew := faulty_votes_le h
  have hlt := NumPeers.maxEvil_lt_threshold h.guardians
  omega

/-- Rows are split by whether they exceed the largest honest vote. -/
theorem length_above_add {db : Db} {pool : PoolId} {faulty : Finset PeerId} {m : FeeVoteKey × Nat}
    (hm : m ∈ feeVotesOf db pool) (hmh : Honest faulty m)
    (hmax : ∀ r ∈ feeVotesOf db pool, Honest faulty r → r.2 ≤ m.2) :
    (votesAboveHonest db pool faulty).length +
        ((feeVotesOf db pool).filter fun r => decide (r.2 ≤ m.2)).length =
      (feeVotesOf db pool).length := by
  have heq : votesAboveHonest db pool faulty =
      (feeVotesOf db pool).filter fun r => !decide (r.2 ≤ m.2) := by
    unfold votesAboveHonest
    apply List.filter_congr
    intro r hr
    rw [Bool.eq_iff_iff]
    simp only [Bool.and_eq_true, Bool.not_eq_true', decide_eq_false_iff_not, List.all_eq_true,
      Bool.or_eq_true, decide_eq_true_eq, not_le]
    constructor
    · rintro ⟨-, hall⟩
      rcases hall m hm with hdis | hlt
      · exact absurd hmh hdis
      · exact hlt
    · intro hlt
      refine ⟨fun hh => absurd (hmax r hr hh) (not_le.2 hlt), ?_⟩
      intro q hq
      by_cases hqh : Honest faulty q
      · exact Or.inr (lt_of_le_of_lt (hmax q hq hqh) hlt)
      · exact Or.inl hqh
  rw [heq, ← List.countP_eq_length_filter, ← List.countP_eq_length_filter, Nat.add_comm]
  have hlen := List.length_eq_countP_add_countP (fun r : FeeVoteKey × Nat => decide (r.2 ≤ m.2))
    (l := feeVotesOf db pool)
  rw [hlen]
  congr 1
  apply List.countP_congr
  intro r _
  simp

/-- A largest honest vote exists under a quorum. -/
theorem exists_max_honest {a : Amm} {db : Db} {pool : PoolId} {faulty : Finset PeerId}
    (h : FeeQuorum a db pool faulty) :
    ∃ m ∈ feeVotesOf db pool, Honest faulty m ∧
      ∀ r ∈ feeVotesOf db pool, Honest faulty r → r.2 ≤ m.2 := by
  obtain ⟨r₀, hr₀, hh₀, -⟩ := fee_ge_honest h
  obtain ⟨m, hm⟩ : ∃ m, ((feeVotesOf db pool).filter fun r => decide (Honest faulty r)).argmax
      Prod.snd = some m := by
    rw [← Option.isSome_iff_exists, ← Option.ne_none_iff_isSome, ne_eq, List.argmax_eq_none,
      List.filter_eq_nil_iff]
    intro hnil
    exact hnil r₀ hr₀ (by simpa using hh₀)
  have hmem := List.mem_filter.1 (List.argmax_mem hm)
  refine ⟨m, hmem.1, by simpa using hmem.2, ?_⟩
  intro r hr hh
  exact List.le_of_mem_argmax (List.mem_filter.2 ⟨hr, by simpa using hh⟩) hm

/-- **When the fee is bracketed by honest votes.**  For every federation size, every set of at most
`maxEvil` faulty guardians and every table with a quorum of in-band votes, the fee lies between two
honest votes exactly when at least `threshold` stored votes remain after setting aside the faulty
ones that exceed every honest vote. -/
theorem fee_bracket_iff {a : Amm} {db : Db} {pool : PoolId} {faulty : Finset PeerId}
    (h : FeeQuorum a db pool faulty) :
    BetweenHonestVotes a db pool faulty ↔
      (votesAboveHonest db pool faulty).length + a.numPeers.threshold ≤
        (feeVotesOf db pool).length := by
  obtain ⟨m, hm, hmh, hmax⟩ := exists_max_honest h
  have hsplit := length_above_add hm hmh hmax
  have hiff := fee_le_iff h m.2
  constructor
  · rintro ⟨-, r, hr, hh, hle⟩
    have hcount := hiff.1 (hle.trans (hmax r hr hh))
    omega
  · intro hcond
    exact ⟨fee_ge_honest h, m, hm, hmh, hiff.2 (by omega)⟩

/-! ## Sample tables -/

/-- A pool with votes of guardians 0, 1 and 3 of four. -/
def threeVotes : List Item :=
  [.output (.depositV0 samplePool 4000 9000 1 sampleKey [] (List.replicate 64 0)),
   .consensus (.feeVoteV0 samplePool 1) 0,
   .consensus (.feeVoteV0 samplePool 2) 1,
   .consensus (.feeVoteV0 samplePool 999) 3]

theorem threeVotes_accepted : (exec (step sampleAmm) [] Db.empty threeVotes).isSome := by
  decide +kernel

def threeVotesDb : Db := ((exec (step sampleAmm) [] Db.empty threeVotes).get threeVotes_accepted).2

/-- **The bracket fails at three votes of four**: guardians 0 and 1 are honest and vote 1 and 2,
guardian 2 has not voted, and the fee is the 999 of the faulty guardian 3. -/
theorem three_of_four_votes :
    FeeQuorum sampleAmm threeVotesDb samplePool {3} ∧
      consensusFeeFor sampleAmm threeVotesDb samplePool = 999 ∧
      ¬BetweenHonestVotes sampleAmm threeVotesDb samplePool {3} := by
  have hfee : consensusFeeFor sampleAmm threeVotesDb samplePool = 999 := by decide +kernel
  have hvotes : ∀ r ∈ feeVotesOf threeVotesDb samplePool, Honest {3} r → r.2 ≤ 2 := by
    decide +kernel
  refine ⟨⟨by decide, by decide, by decide +kernel, by decide +kernel⟩, hfee, ?_⟩
  rintro ⟨-, r, hr, hh, hle⟩
  have := hvotes r hr hh
  omega

theorem fee_bracket_four_votes :
    ∃ db, FeeQuorum sampleAmm db samplePool {3} ∧ BetweenHonestVotes sampleAmm db samplePool {3} := by
  let db := (processConsensusItem sampleAmm threeVotesDb (.feeVoteV0 samplePool 4) 2).2
  have hq : FeeQuorum sampleAmm db samplePool {3} :=
    ⟨by decide, by decide, by decide +kernel, by decide +kernel⟩
  exact ⟨db, hq, (fee_bracket_iff hq).2 (by decide +kernel)⟩

end Experimint.FedimintAmm
