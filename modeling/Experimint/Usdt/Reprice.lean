import Experimint.Usdt.InFlight
import Experimint.Usdt.Ladder
import Experimint.Usdt.Quorum

/-!
# Proposed and accepted replacements of batches

A guardian proposes to replace a batch under the conditions under which the proposal is accepted,
but for one: that the replacement is not in the tables yet.  It never is, since it would be a member
of the batch's own chain, and costs more than all of them.

* `replacement_not_enqueued` — the check that proposals leave out.
* `proposal_accepted_iff` — proposals and acceptance agree, and the price is covered.
-/

set_option autoImplicit false

namespace Experimint.FedimintUsdt

open Books

variable {u : Usdt} {db db' : Db} {tr : List (Item × Answer)} {h : Hash} {s : SubmittedUserOp}
  {outpoints : List OutPoint} {median : FeeVote}

/-! ## Conditions -/

/-- A live operation past its timeout. -/
def Usdt.TimedOut (u : Usdt) (db : Db) (s : SubmittedUserOp) : Prop :=
  s.superseded = false ∧
    satAdd64 s.submittedBlock u.submittedOpTimeoutBlocks < u.consensusBlockCount db

theorem mem_proposeReplaceUserOps (hs : db.submittedUserOp.get? h = some s) :
    .replaceUserOp h ∈ u.proposeReplaceUserOps db ↔ u.proposesReplacement db s = true := by
  simp only [Usdt.proposeReplaceUserOps, List.mem_map, List.mem_filter, Prod.exists,
    UsdtConsensusItem.replaceUserOp.injEq]
  constructor
  · rintro ⟨h', s', ⟨hmem, hproposes⟩, rfl⟩
    cases hs.symm.trans (Table.mem_rows.1 hmem)
    exact hproposes
  · intro hproposes
    exact ⟨h, s, ⟨Table.mem_rows.2 hs, hproposes⟩, rfl⟩

theorem proposesReplacement_iff (hp : s.purpose = .withdraw outpoints) :
    u.proposesReplacement db s = true ↔
      u.TimedOut db s ∧ ∃ median, u.feeVoteMedian db = some median ∧
        Usdt.withdrawRepriceOverCeiling db s median = false := by
  unfold Usdt.proposesReplacement Usdt.TimedOut
  rw [hp]
  dsimp only
  split_ifs with hsuperseded htimeout
  · simp [hsuperseded]
  · simp [Nat.not_lt.2 htimeout]
  · cases hmedian : u.feeVoteMedian db with
    | none => simp
    | some median => simp [hsuperseded, Nat.not_le.1 htimeout]

/-- Acceptance needs what a proposal needs, and that the replacement is not in the tables. -/
theorem processReplaceUserOp_isOk_iff (hs : db.submittedUserOp.get? h = some s)
    (hp : s.purpose = .withdraw outpoints) :
    (∃ db', u.processReplaceUserOp db h = .ok db') ↔
      u.TimedOut db s ∧ ∃ median, u.feeVoteMedian db = some median ∧
        Usdt.withdrawRepriceOverCeiling db s median = false ∧
        db.isEnqueued (u.opHash (s.signed.unsigned.repriced median)) = false := by
  unfold Usdt.processReplaceUserOp Usdt.TimedOut Usdt.replacementRefusal
  rw [hs]
  dsimp only
  rw [hp]
  dsimp only
  split_ifs with hsuperseded htimeout
  · simp [hsuperseded]
  · simp [Nat.not_lt.2 htimeout]
  · cases hmedian : u.feeVoteMedian db with
    | none => simp
    | some median =>
      dsimp only
      by_cases hover : Usdt.withdrawRepriceOverCeiling db s median = true
      · simp [hover]
      · rw [if_neg hover]
        dsimp only
        split_ifs with henqueued
        · have henqueued : db.isEnqueued (u.opHash (s.signed.unsigned.repriced median)) = true :=
            henqueued
          simp [henqueued]
        · have hnew : db.isEnqueued (u.opHash (s.signed.unsigned.repriced median)) = false :=
            Bool.eq_false_iff.2 henqueued
          simp [hsuperseded, Nat.not_le.1 htimeout, hover, hnew]

/-! ## The check that proposals leave out -/

/-- The only operation in flight with the replacement's hash would be the replacement itself, and
no operation of the chain costs as much. -/
theorem replacement_not_enqueued (hn : 0 < u.numPeers.total)
    (run : Run (Accepts u) Db.empty tr db) (hs : db.submittedUserOp.get? h = some s)
    (hlive : s.superseded = false)
    (hcollision : ∀ q ∈ enqueued db.history,
      u.opHash q.2 = u.opHash (s.signed.unsigned.repriced median) →
        q.2 = s.signed.unsigned.repriced median) :
    db.isEnqueued (u.opHash (s.signed.unsigned.repriced median)) = false := by
  rw [Bool.eq_false_iff]
  intro henqueued
  obtain ⟨k, op, p, live, hf, hk⟩ := inFlight_of_isEnqueued (u := u) henqueued
  have hrow : (u.books db).InFlight (.submitted h) s.signed.unsigned s.purpose true := by
    simpa [hlive] using InFlight.submitted (b := u.books db) hs
  have hmem : (k.hash, op) ∈ enqueued db.history :=
    mem_enqueued ((run_enqueueInv run).listed hf)
  have hhash : u.opHash op = u.opHash (s.signed.unsigned.repriced median) :=
    ((run_chainInv run).keyed hf).trans hk
  have hop : op = s.signed.unsigned.repriced median := hcollision _ hmem hhash
  have hspent := run_spentInv run
  have hlane : p.lane = s.purpose.lane := by
    rw [← hspent.lane hf, ← hspent.lane hrow, hop]
    exact UnsignedUserOp.lane_congr rfl
  obtain ⟨hfees, hrank⟩ := run_ladder hn run
  have hle := hrank _ _ _ _ _ _ _ hf hrow hlane
  have hlt := ((hfees _ _ _ _ hrow).bumped median).maxFee_lt
  rw [hop] at hle
  omega

/-! ## The price of a replacement -/

/-- A price that is covered was computed without saturation. -/
theorem covered_price {op : UnsignedUserOp} {cost : UsdtAmount}
    (hfee : 1 ≤ (op.repriced median).maxFeePerGas) (hrate : 1 ≤ median.usdtPerEthE6)
    (hcost : weiGasCostToUsdt (Usdt.repricedUserOpFees op median).gasCostWei median.usdtPerEthE6 =
      some cost) :
    cost.raw = ((op.verificationGasLimit + op.callGasLimit + op.preVerificationGas) *
      (op.repriced median).maxFeePerGas * median.usdtPerEthE6 + (WEI_PER_ETH - 1)) /
        WEI_PER_ETH := by
  obtain ⟨hle, hraw⟩ := weiGasCostToUsdt_eq_some hcost
  have hmul := Nat.le_mul_of_pos_right (Usdt.repricedUserOpFees op median).gasCostWei hrate
  have hgasCost : (Usdt.repricedUserOpFees op median).gasCostWei =
      min (satAdd128 (satAdd128 op.verificationGasLimit op.callGasLimit)
        (min op.preVerificationGas U128_MAX) * (op.repriced median).maxFeePerGas) U128_MAX := rfl
  have hunits := Nat.le_mul_of_pos_right (satAdd128 (satAdd128 op.verificationGasLimit
    op.callGasLimit) (min op.preVerificationGas U128_MAX)) hfee
  -- neither the product nor the sum of the gas limits reached the limit
  have hexact : satAdd128 (satAdd128 op.verificationGasLimit op.callGasLimit)
      (min op.preVerificationGas U128_MAX) =
      op.verificationGasLimit + op.callGasLimit + op.preVerificationGas := by
    unfold WEI_PER_ETH at hle
    unfold satAdd128 at hunits hgasCost ⊢
    omega
  rw [hraw, hgasCost, hexact, Nat.min_eq_left]
  unfold WEI_PER_ETH at hle
  rw [hexact] at hgasCost
  omega

/-- **Proposals and acceptance of a batch's replacement agree**, and what an accepted one may cost
is at most what its withdrawals have committed to. -/
theorem proposal_accepted_iff (hn : 0 < u.numPeers.total) (run : Run (Accepts u) Db.empty tr db)
    (hs : db.submittedUserOp.get? h = some s) (hp : s.purpose = .withdraw outpoints)
    (hcollision : ∀ median, u.feeVoteMedian db = some median → ∀ q ∈ enqueued db.history,
      u.opHash q.2 = u.opHash (s.signed.unsigned.repriced median) →
        q.2 = s.signed.unsigned.repriced median) :
    (.replaceUserOp h ∈ u.proposeReplaceUserOps db ↔
      ∃ db', u.processReplaceUserOp db h = .ok db') ∧
    ∀ db', u.processReplaceUserOp db h = .ok db' → ∃ median new,
      u.feeVoteMedian db = some median ∧
      db'.history = .userOpEnqueued (u.opHash new) new s.purpose :: db.history ∧
      ((new.verificationGasLimit + new.callGasLimit + new.preVerificationGas) * new.maxFeePerGas *
          median.usdtPerEthE6 + (WEI_PER_ETH - 1)) / WEI_PER_ETH ≤
        ((outpoints.filterMap fun o => (db.unclaimedWithdrawal.get? o).map (·.maxFee)).map
          U64.raw).sum := by
  refine ⟨?_, ?_⟩
  · rw [mem_proposeReplaceUserOps hs, proposesReplacement_iff hp,
      processReplaceUserOp_isOk_iff hs hp]
    refine and_congr_right fun htimedOut => ?_
    constructor
    · rintro ⟨median, hmedian, hunder⟩
      exact ⟨median, hmedian, hunder,
        replacement_not_enqueued hn run hs htimedOut.1 (hcollision median hmedian)⟩
    · rintro ⟨median, hmedian, hunder, -⟩
      exact ⟨median, hmedian, hunder⟩
  · intro db' hok
    obtain ⟨s', median, hs', -, hmedian, op, hop, hrefusal, -, rfl⟩ := processReplaceUserOp_ok hok
    cases hs.symm.trans hs'
    have hop : op = s.signed.unsigned.repriced median := hop
    subst hop
    refine ⟨median, _, hmedian,
      congrArg Books.history (books_enqueueReplacement u db h s _ _), ?_⟩
    have hafford := (affordable_iff (u := u) db s median).1 hrefusal
    simp only [Affordable, hp] at hafford
    obtain ⟨cost, hcost, hle⟩ := hafford
    have hsane := feeVoteMedian_sane hn (run_saneVotes run) hmedian
    have hrate : 1 ≤ median.usdtPerEthE6 := (feeVoteInSaneRange_iff.1 hsane).2.1
    have hlt := (((run_ladder hn run).1 _ _ _ _ (.submitted hs)).bumped median).maxFee_lt
    calc _ = cost.raw := (covered_price (by omega) hrate hcost).symm
      _ ≤ (Usdt.coveredFees db outpoints).raw := hle
      _ ≤ _ := U64.raw_satSum_le _

/-- The sample batch waits past its timeout. -/
def Sample.lateBatch : List Item :=
  Sample.funding ++ [Sample.vote (.blockCount 5), Sample.sign (Sample.batch [20000] 0),
    Sample.vote (.blockCount 40)]

/-- Whether the sample batch is submitted and its replacement at ⟨1, 1⟩ has a hash of its own. -/
def Sample.batchTimedOut (db : Db) : Bool :=
  decide ((db.submittedUserOp.get? (sampleUsdt.opHash (Sample.batch [20000] 0))).map
    (fun s => (s.signed.unsigned, s.purpose)) = some (Sample.batch [20000] 0, .withdraw [⟨0, 0⟩])) &&
  decide (sampleUsdt.feeVoteMedian db = some ⟨1, 1⟩) &&
  decide (∀ q ∈ enqueued db.history, sampleUsdt.opHash q.2 ≠
    sampleUsdt.opHash ((Sample.batch [20000] 0).repriced ⟨1, 1⟩)) &&
  decide ((.replaceUserOp (sampleUsdt.opHash (Sample.batch [20000] 0))) ∈
    sampleUsdt.proposeReplaceUserOps db)

theorem proposal_accepted_iff_sample :
    ∃ tr db db', Run (Accepts sampleUsdt) Db.empty tr db ∧
      sampleUsdt.processReplaceUserOp db (sampleUsdt.opHash (Sample.batch [20000] 0)) =
        .ok db' := by
  obtain ⟨tr, db, run, hdb⟩ := Run.exists_of_exec sampleUsdt.step Db.empty Sample.lateBatch
    (fun _ db => Sample.batchTimedOut db) (by decide +kernel)
  simp only [Sample.batchTimedOut, Bool.and_eq_true, decide_eq_true_eq, Option.map_eq_some_iff,
    Prod.mk.injEq] at hdb
  obtain ⟨⟨⟨⟨s, hs, hop, hp⟩, hmedian⟩, hfree⟩, hproposed⟩ := hdb
  obtain ⟨db', hok⟩ := (proposal_accepted_iff (by decide) run hs hp (by
    intro median hmedian' q hq hhash
    cases hmedian.symm.trans hmedian'
    rw [hop] at hhash
    exact (hfree q hq hhash).elim)).1.1 hproposed
  exact ⟨tr, db, db', run, hok⟩

end Experimint.FedimintUsdt
