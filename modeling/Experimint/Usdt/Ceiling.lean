import Mathlib.Algebra.BigOperators.Ring.List
import Mathlib.Algebra.Group.Action.Defs
import Mathlib.Tactic.IntervalCases
import Experimint.Usdt.Ladder
import Experimint.Usdt.Quotes

/-!
# The fee ceiling of a batch

A withdrawal commits to a fee of at least `withdrawalFeeQuote`, priced at one operation's gas and
the live gas price with a buffer.  A batch is built at twice the live price, and its replacement
starts a tenth above that, whatever the price has become.  The fees of a small batch do not cover
it.

* `Usdt.PricedBatch` — a batch of withdrawals quoted, and an operation built, at one median.
* `first_reprice_iff` — when its first replacement is under the ceiling, and for which sizes always.
-/

set_option autoImplicit false

namespace Experimint.FedimintUsdt

/-- Gas provisioned for a batch of `n` withdrawals. -/
def batchGasUnits (n : Nat) (needsDeploy : Bool) : Nat :=
  (if needsDeploy then 660000 else 260000) + 100000 * n

/-- Batches from this size on share the fixed gas among enough withdrawals. -/
def repriceableSize (needsDeploy : Bool) : Nat := if needsDeploy then 7 else 3

/-- The submitted batch of the withdrawals `ws`, which were accepted at the quote of `m₀`, as it is
built at `m₀`. -/
structure Usdt.PricedBatch (u : Usdt) (db : Db) (s : SubmittedUserOp)
    (ws : List (OutPoint × UsdtWithdrawalV0)) (needsDeploy : Bool) (m₀ : FeeVote) : Prop where
  pos : 1 ≤ ws.length
  small : ws.length ≤ BATCH_MAX_ITEMS
  rows : ∀ q ∈ ws, db.unclaimedWithdrawal.get? q.1 = some q.2
  purpose : s.purpose = .withdraw (ws.map (·.1))
  op : ∃ account nonce, s.signed.unsigned =
    u.buildWithdrawalBatchUserop account (ws.map fun q => (q.2.recipient, q.2.amount)) nonce
      ((GasBounds.withdrawalBatch ws.length needsDeploy).withMedianFees (some m₀.maxFeePerGasWei))
  /-- Doubling is not cut off by the builder's clamp. -/
  clamp : GasBounds.OP_FEE_FLOOR_WEI ≤ 2 * m₀.maxFeePerGasWei ∧
    2 * m₀.maxFeePerGasWei ≤ GasBounds.OP_FEE_CEILING_WEI
  rate : m₀.usdtPerEthE6 ≤ U64_MAX
  fees : ∀ q ∈ ws, ∃ quote, withdrawalFeeQuote m₀ = some quote ∧ quote.raw ≤ q.2.maxFee.raw

/-! ## Conversions within range -/

theorem weiGasCostToUsdt_of_le {gasCostWei rate : Nat}
    (h : gasCostWei * rate + (WEI_PER_ETH - 1) ≤ WEI_PER_ETH * U64_MAX) :
    ∃ cost, weiGasCostToUsdt gasCostWei rate = some cost ∧
      cost.raw = (gasCostWei * rate + (WEI_PER_ETH - 1)) / WEI_PER_ETH := by
  have hfits : (gasCostWei * rate + (WEI_PER_ETH - 1)) / WEI_PER_ETH ≤ U64_MAX :=
    Nat.div_le_of_le_mul h
  have hwide : WEI_PER_ETH * U64_MAX ≤ U128_MAX := by decide
  refine ⟨⟨_, hfits⟩, ?_, rfl⟩
  simp only [weiGasCostToUsdt, checkedMul128, checkedAdd128, Option.bind_eq_bind]
  rw [if_pos (by omega), Option.bind_some, if_pos (by omega), Option.bind_some]
  exact dif_pos hfits

/-- The quote covers one operation's gas with the buffer, and where it is above the minimum not
much more. -/
theorem withdrawalFeeQuote_bounds {m₀ : FeeVote} {quote : UsdtAmount}
    (h : withdrawalFeeQuote m₀ = some quote) :
    432000 * (m₀.maxFeePerGasWei * m₀.usdtPerEthE6) ≤ quote.raw * WEI_PER_ETH ∧
      (MIN_WITHDRAWAL_FEE < quote.raw →
        quote.raw * WEI_PER_ETH < 432000 * (m₀.maxFeePerGasWei * m₀.usdtPerEthE6) + WEI_PER_ETH) := by
  have hraw := U64.tryFrom_eq_some (gasCostFeeQuote_eq_some_iff.1 h).2
  have hassoc : WITHDRAWAL_GAS_UNITS * m₀.maxFeePerGasWei * m₀.usdtPerEthE6 =
      360000 * (m₀.maxFeePerGasWei * m₀.usdtPerEthE6) := Nat.mul_assoc _ _ _
  unfold quoteNumerator at hraw
  rw [hassoc] at hraw
  unfold WEI_PER_ETH MIN_WITHDRAWAL_FEE at *
  omega

/-! ## The price of the first replacement -/

variable {u : Usdt} {db : Db} {s : SubmittedUserOp} {ws : List (OutPoint × UsdtWithdrawalV0)}
  {needsDeploy : Bool} {m₀ m : FeeVote}

/-- The fee a batch is built with, raised once. -/
theorem bump_bounds (hclamp : GasBounds.OP_FEE_FLOOR_WEI ≤ 2 * m₀.maxFeePerGasWei ∧
      2 * m₀.maxFeePerGasWei ≤ GasBounds.OP_FEE_CEILING_WEI) :
    22 * m₀.maxFeePerGasWei ≤ 10 * Usdt.bump10Percent (2 * m₀.maxFeePerGasWei) ∧
      1000 * Usdt.bump10Percent (2 * m₀.maxFeePerGasWei) ≤ 2201 * m₀.maxFeePerGasWei ∧
      Usdt.bump10Percent (2 * m₀.maxFeePerGasWei) ≤ 220000000000 := by
  obtain ⟨hfloor, hceiling⟩ := hclamp
  unfold GasBounds.OP_FEE_FLOOR_WEI at hfloor
  unfold GasBounds.OP_FEE_CEILING_WEI at hceiling
  rw [bump10Percent_eq (by omega) (by unfold U128_MAX; omega)]
  omega

namespace Usdt.PricedBatch

/-- A lower price does not lower the fee: it is a tenth above the one the batch was built with. -/
theorem maxFeePerGas (h : u.PricedBatch db s ws needsDeploy m₀)
    (hprice : m.maxFeePerGasWei ≤ m₀.maxFeePerGasWei) :
    (s.signed.unsigned.repriced m).maxFeePerGas = bump10Percent (2 * m₀.maxFeePerGasWei) := by
  obtain ⟨account, nonce, hop⟩ := h.op
  have hbuilt : s.signed.unsigned.maxFeePerGas = min (max (satMul128 m₀.maxFeePerGasWei 2)
      GasBounds.OP_FEE_FLOOR_WEI) GasBounds.OP_FEE_CEILING_WEI := by rw [hop]; rfl
  have hmax : (s.signed.unsigned.repriced m).maxFeePerGas = max (min (max
      (satMul128 m.maxFeePerGasWei 2) GasBounds.OP_FEE_FLOOR_WEI) GasBounds.OP_FEE_CEILING_WEI)
      (bump10Percent s.signed.unsigned.maxFeePerGas) := rfl
  have hdouble : s.signed.unsigned.maxFeePerGas = 2 * m₀.maxFeePerGasWei := by
    have := h.clamp
    rw [hbuilt]
    unfold satMul128 U128_MAX GasBounds.OP_FEE_CEILING_WEI at *
    omega
  have hbump := (bump_bounds h.clamp).1
  have hclamp := h.clamp
  rw [hmax, hdouble]
  unfold satMul128
  omega

theorem gasUnits (h : u.PricedBatch db s ws needsDeploy m₀) :
    satAdd128 (satAdd128 s.signed.unsigned.verificationGasLimit s.signed.unsigned.callGasLimit)
      (min s.signed.unsigned.preVerificationGas U128_MAX) =
        batchGasUnits ws.length needsDeploy := by
  obtain ⟨account, nonce, hop⟩ := h.op
  have hcall : s.signed.unsigned.callGasLimit = 60000 + satMul128 ws.length 80000 := by
    rw [hop]; rfl
  have hpre : s.signed.unsigned.preVerificationGas = 100000 + satMul128 ws.length 20000 := by
    rw [hop]; rfl
  have hverification : s.signed.unsigned.verificationGasLimit =
      if needsDeploy then 500000 else 100000 := by rw [hop]; rfl
  have hsmall := h.small
  rw [hcall, hpre, hverification]
  unfold satAdd128 satMul128 batchGasUnits U128_MAX BATCH_MAX_ITEMS at *
  split <;> omega

/-- **The price of the first replacement**, exact and in range. -/
theorem cost (h : u.PricedBatch db s ws needsDeploy m₀)
    (hprice : m.maxFeePerGasWei ≤ m₀.maxFeePerGasWei) (hrate : m.usdtPerEthE6 ≤ m₀.usdtPerEthE6) :
    ∃ cost, weiGasCostToUsdt (repricedUserOpFees s.signed.unsigned m).gasCostWei m.usdtPerEthE6 =
        some cost ∧
      cost.raw = (batchGasUnits ws.length needsDeploy * bump10Percent (2 * m₀.maxFeePerGasWei) *
        m.usdtPerEthE6 + (WEI_PER_ETH - 1)) / WEI_PER_ETH := by
  have hgas : batchGasUnits ws.length needsDeploy ≤ 2660000 := by
    have hsmall := h.small
    unfold batchGasUnits BATCH_MAX_ITEMS at *
    split <;> omega
  have hwei := Nat.mul_le_mul hgas (bump_bounds h.clamp).2.2
  have hexact : (repricedUserOpFees s.signed.unsigned m).gasCostWei =
      batchGasUnits ws.length needsDeploy * bump10Percent (2 * m₀.maxFeePerGasWei) := by
    have hmul : (repricedUserOpFees s.signed.unsigned m).gasCostWei =
        satMul128 _ (s.signed.unsigned.repriced m).maxFeePerGas := rfl
    rw [hmul, h.gasUnits, h.maxFeePerGas hprice]
    unfold satMul128 U128_MAX
    omega
  rw [hexact]
  apply weiGasCostToUsdt_of_le
  have hall := Nat.mul_le_mul hwei (hrate.trans h.rate)
  unfold WEI_PER_ETH U64_MAX at *
  omega

/-- The ceiling is the exact sum of the committed fees, as far as prices go. -/
theorem coveredFees (h : u.PricedBatch db s ws needsDeploy m₀) {n : Nat} (hn : n ≤ U64_MAX) :
    n ≤ (Usdt.coveredFees db (ws.map (·.1))).raw ↔ n ≤ (ws.map fun q => q.2.maxFee.raw).sum := by
  have hrows : (ws.map (·.1)).filterMap (fun o => (db.unclaimedWithdrawal.get? o).map (·.maxFee)) =
      ws.map fun q => q.2.maxFee := by
    rw [List.filterMap_map, ← List.filterMap_eq_map]
    refine List.filterMap_congr fun q hq => ?_
    simp [h.rows q hq]
  rw [Usdt.coveredFees, hrows, U64.le_raw_satSum_iff hn, List.map_map]
  rfl

/-- The first replacement is under the ceiling exactly when the fees cover the provisioned gas at
2.2 times the price the batch was built at. -/
theorem under_ceiling_iff (h : u.PricedBatch db s ws needsDeploy m₀)
    (hprice : m.maxFeePerGasWei ≤ m₀.maxFeePerGasWei) (hrate : m.usdtPerEthE6 ≤ m₀.usdtPerEthE6) :
    withdrawRepriceOverCeiling db s m = false ↔
      batchGasUnits ws.length needsDeploy * bump10Percent (2 * m₀.maxFeePerGasWei) *
        m.usdtPerEthE6 ≤ (ws.map fun q => q.2.maxFee.raw).sum * WEI_PER_ETH := by
  obtain ⟨cost, hcost, hraw⟩ := h.cost hprice hrate
  have hround : cost.raw ≤ (ws.map fun q => q.2.maxFee.raw).sum ↔
      batchGasUnits ws.length needsDeploy * bump10Percent (2 * m₀.maxFeePerGasWei) *
        m.usdtPerEthE6 ≤ (ws.map fun q => q.2.maxFee.raw).sum * WEI_PER_ETH := by
    rw [hraw]
    unfold WEI_PER_ETH
    omega
  rw [not_over_ceiling_iff h.purpose, ← hround, ← h.coveredFees cost.le_max]
  constructor
  · rintro ⟨cost', hcost', hle⟩
    cases hcost.symm.trans hcost'
    exact hle
  · intro hle
    exact ⟨cost, hcost, hle⟩

/-! ## Sizes -/

theorem fees_sum (h : u.PricedBatch db s ws needsDeploy m₀) :
    432000 * (ws.length * (m₀.maxFeePerGasWei * m₀.usdtPerEthE6)) ≤
      (ws.map fun q => q.2.maxFee.raw).sum * WEI_PER_ETH := by
  have hquote : ∀ x ∈ ws.map fun q => q.2.maxFee.raw * WEI_PER_ETH,
      432000 * (m₀.maxFeePerGasWei * m₀.usdtPerEthE6) ≤ x := by
    intro x hx
    obtain ⟨q, hq, rfl⟩ := List.mem_map.1 hx
    obtain ⟨quote, hquote, hle⟩ := h.fees q hq
    exact (withdrawalFeeQuote_bounds hquote).1.trans (Nat.mul_le_mul_right _ hle)
  have hsum := List.card_nsmul_le_sum _ _ hquote
  rw [List.sum_map_mul_right, List.length_map, smul_eq_mul] at hsum
  calc _ = ws.length * (432000 * (m₀.maxFeePerGasWei * m₀.usdtPerEthE6)) := Nat.mul_left_comm _ _ _
    _ ≤ _ := hsum

theorem under_ceiling_of_size (h : u.PricedBatch db s ws needsDeploy m₀)
    (hprice : m.maxFeePerGasWei ≤ m₀.maxFeePerGasWei) (hrate : m.usdtPerEthE6 ≤ m₀.usdtPerEthE6)
    (hsize : repriceableSize needsDeploy ≤ ws.length) :
    withdrawRepriceOverCeiling db s m = false := by
  rw [h.under_ceiling_iff hprice hrate]
  have hfees := h.fees_sum
  have hbump := (bump_bounds h.clamp).2.1
  -- gas per withdrawal, then its price at the rate the batch was built at
  have hshare : ∀ k a, k * batchGasUnits ws.length needsDeploy ≤ a * ws.length →
      k * 1000 * (batchGasUnits ws.length needsDeploy * bump10Percent (2 * m₀.maxFeePerGasWei) *
        m.usdtPerEthE6) ≤
        a * 2201 * (ws.length * (m₀.maxFeePerGasWei * m₀.usdtPerEthE6)) := by
    intro k a hgas
    calc _ = k * batchGasUnits ws.length needsDeploy *
          (1000 * bump10Percent (2 * m₀.maxFeePerGasWei)) * m.usdtPerEthE6 := by ring
      _ ≤ a * ws.length * (2201 * m₀.maxFeePerGasWei) * m₀.usdtPerEthE6 :=
        Nat.mul_le_mul (Nat.mul_le_mul hgas hbump) hrate
      _ = _ := by ring
  cases needsDeploy with
  | true =>
    have hgas : 7 * batchGasUnits ws.length true ≤ 1360000 * ws.length := by
      unfold batchGasUnits
      unfold repriceableSize at hsize
      simp only [if_true] at hsize ⊢
      omega
    have := hshare 7 1360000 hgas
    omega
  | false =>
    have hgas : 3 * batchGasUnits ws.length false ≤ 560000 * ws.length := by
      unfold batchGasUnits
      unfold repriceableSize at hsize
      simp only [Bool.false_eq_true, if_false] at hsize ⊢
      omega
    have := hshare 3 560000 hgas
    omega

/-- Smaller batches do not, if their withdrawals pay the quote and no more. -/
theorem over_ceiling_of_size (h : u.PricedBatch db s ws needsDeploy m₀)
    (hsize : ws.length < repriceableSize needsDeploy)
    (hquote : ∀ q ∈ ws, withdrawalFeeQuote m₀ = some q.2.maxFee)
    (hmin : ∀ q ∈ ws, MIN_WITHDRAWAL_FEE < q.2.maxFee.raw) :
    withdrawRepriceOverCeiling db s m₀ = true := by
  rw [← Bool.not_eq_false, h.under_ceiling_iff le_rfl le_rfl]
  intro hle
  obtain ⟨q, hq⟩ := List.exists_mem_of_length_pos (show 0 < ws.length from h.pos)
  have hall : ∀ q' ∈ ws, q'.2.maxFee.raw = q.2.maxFee.raw := by
    intro q' hq'
    exact congrArg U64.raw (Option.some.inj ((hquote q' hq').symm.trans (hquote q hq)))
  have hsum : (ws.map fun q => q.2.maxFee.raw).sum = ws.length * q.2.maxFee.raw := by
    rw [List.map_congr_left hall, List.map_const', List.sum_replicate, smul_eq_mul]
  have hupper := (withdrawalFeeQuote_bounds (hquote q hq)).2 (hmin q hq)
  have hlow := hmin q hq
  have hpos := h.pos
  have hbump := Nat.mul_le_mul_left (batchGasUnits ws.length needsDeploy)
    (Nat.mul_le_mul_right m₀.usdtPerEthE6 (bump_bounds h.clamp).1)
  have hgas : batchGasUnits ws.length needsDeploy * (22 * m₀.maxFeePerGasWei * m₀.usdtPerEthE6) =
      22 * (batchGasUnits ws.length needsDeploy * (m₀.maxFeePerGasWei * m₀.usdtPerEthE6)) := by
    ring
  have hcost : batchGasUnits ws.length needsDeploy *
      (10 * bump10Percent (2 * m₀.maxFeePerGasWei) * m₀.usdtPerEthE6) =
      10 * (batchGasUnits ws.length needsDeploy * bump10Percent (2 * m₀.maxFeePerGasWei) *
        m₀.usdtPerEthE6) := by
    ring
  rw [hgas, hcost] at hbump
  rw [hsum] at hle
  unfold batchGasUnits repriceableSize MIN_WITHDRAWAL_FEE WEI_PER_ETH at *
  generalize ws.length = n at *
  cases needsDeploy <;> simp only [Bool.false_eq_true, if_true, if_false] at * <;>
    interval_cases n <;> omega

end Usdt.PricedBatch

/-- **The first replacement of a batch at a lower median.**  It is under the ceiling exactly when
the committed fees cover the provisioned gas at the fee the batch was built with, raised by a tenth.
From three withdrawals on, or seven if the pool is to be deployed, they do; smaller batches at the
quote are over the ceiling even at the median they were built at. -/
theorem first_reprice_iff (u : Usdt) :
    (∀ db s ws needsDeploy m₀ m, u.PricedBatch db s ws needsDeploy m₀ →
      m.maxFeePerGasWei ≤ m₀.maxFeePerGasWei → m.usdtPerEthE6 ≤ m₀.usdtPerEthE6 →
      (Usdt.withdrawRepriceOverCeiling db s m = false ↔
        batchGasUnits ws.length needsDeploy * Usdt.bump10Percent (2 * m₀.maxFeePerGasWei) *
          m.usdtPerEthE6 ≤ (ws.map fun q => q.2.maxFee.raw).sum * WEI_PER_ETH)) ∧
    (∀ db s ws needsDeploy m₀ m, u.PricedBatch db s ws needsDeploy m₀ →
      m.maxFeePerGasWei ≤ m₀.maxFeePerGasWei → m.usdtPerEthE6 ≤ m₀.usdtPerEthE6 →
      repriceableSize needsDeploy ≤ ws.length →
      Usdt.withdrawRepriceOverCeiling db s m = false) ∧
    ∀ db s ws needsDeploy m₀, u.PricedBatch db s ws needsDeploy m₀ →
      ws.length < repriceableSize needsDeploy →
      (∀ q ∈ ws, withdrawalFeeQuote m₀ = some q.2.maxFee ∧ MIN_WITHDRAWAL_FEE < q.2.maxFee.raw) →
      Usdt.withdrawRepriceOverCeiling db s m₀ = true := by
  refine ⟨?_, ?_, ?_⟩
  · intro db s ws needsDeploy m₀ m h hprice hrate
    exact h.under_ceiling_iff hprice hrate
  · intro db s ws needsDeploy m₀ m h hprice hrate hsize
    exact h.under_ceiling_of_size hprice hrate hsize
  · intro db s ws needsDeploy m₀ h hsize hquote
    exact h.over_ceiling_of_size hsize (fun q hq => (hquote q hq).1) fun q hq => (hquote q hq).2

/-- Gas at 30 gwei, ether at 3000. -/
def Sample.dearVote : FeeVote := ⟨30000000000, 3000000000⟩

def Sample.dearSweep : UnsignedUserOp :=
  sampleUsdt.buildDeployAndSweepUserop Sample.account Sample.depositor (U64.clamp 500000000) 0
    (GasBounds.DEPLOY_AND_SWEEP_DEVNET.withMedianFees (some 30000000000))

def Sample.dearBatch : UnsignedUserOp :=
  sampleUsdt.buildWithdrawalBatchUserop sampleUsdt.poolAccount [(9, U64.clamp 20000000)] 0
    ((GasBounds.withdrawalBatch 1 true).withMedianFees (some 30000000000))

/-- A withdrawal at the quote is paid by a batch of its own, which stays unconfirmed while the
median stays the same. -/
def Sample.dear : List Item :=
  Sample.anchor 1 ++ [Sample.vote (.feeVote Sample.dearVote), Sample.deposit 1 500000000 86400000,
    Sample.sign Sample.dearSweep, Sample.confirm Sample.dearSweep true 500000000,
    Sample.withdrawal ⟨0, 0⟩ 20000000 38880000, Sample.vote (.blockCount 5),
    Sample.sign Sample.dearBatch, Sample.vote (.blockCount 40)]

/-- The request the sample batch pays. -/
def Sample.dearRequest : UsdtWithdrawalV0 :=
  ⟨9, U64.clamp 20000000, U64.clamp 38880000, 2, Sample.depositor⟩

/-- Whether the sample batch is in flight, over its ceiling. -/
def Sample.isDear (db : Db) : Bool :=
  decide (db.unclaimedWithdrawal.get? ⟨0, 0⟩ = some Sample.dearRequest) &&
    decide (sampleUsdt.feeVoteMedian db = some Sample.dearVote) &&
    (db.submittedUserOp.get? (sampleUsdt.opHash Sample.dearBatch)).any fun s =>
      decide (s.signed.unsigned = Sample.dearBatch) && decide (s.purpose = .withdraw [⟨0, 0⟩]) &&
        Usdt.withdrawRepriceOverCeiling db s Sample.dearVote

theorem quoted_batch_over_ceiling :
    ∃ tr db s, Run (Accepts sampleUsdt) Db.empty tr db ∧
      db.submittedUserOp.get? (sampleUsdt.opHash Sample.dearBatch) = some s ∧
      sampleUsdt.PricedBatch db s [(⟨0, 0⟩, Sample.dearRequest)] true Sample.dearVote ∧
      sampleUsdt.feeVoteMedian db = some Sample.dearVote ∧
      Usdt.withdrawRepriceOverCeiling db s Sample.dearVote = true := by
  obtain ⟨tr, db, run, hdb⟩ := Run.exists_of_exec sampleUsdt.step Db.empty Sample.dear
    (fun _ db => Sample.isDear db) (by decide +kernel)
  simp only [Sample.isDear, Bool.and_eq_true, decide_eq_true_eq, Option.any_eq_true] at hdb
  obtain ⟨⟨hrow, hmedian⟩, s, hs, ⟨hop, hp⟩, hover⟩ := hdb
  refine ⟨tr, db, s, run, hs, ?_, hmedian, hover⟩
  exact
    { pos := le_rfl
      small := by decide
      rows := by simpa using hrow
      purpose := hp
      op := ⟨sampleUsdt.poolAccount, 0, hop⟩
      clamp := by decide
      rate := by decide
      fees := by
        intro q hq
        cases List.mem_singleton.1 hq
        exact ⟨U64.clamp 38880000, by decide +kernel, le_rfl⟩ }

/-- Seven of them in one batch. -/
def Sample.sevenBatch : UnsignedUserOp :=
  sampleUsdt.buildWithdrawalBatchUserop sampleUsdt.poolAccount
    (List.replicate 7 (9, U64.clamp 20000000)) 0
    ((GasBounds.withdrawalBatch 7 true).withMedianFees (some 30000000000))

def Sample.seven : List Item :=
  Sample.anchor 1 ++ [Sample.vote (.feeVote Sample.dearVote), Sample.deposit 1 500000000 86400000,
    Sample.sign Sample.dearSweep, Sample.confirm Sample.dearSweep true 500000000] ++
  (List.range 7).map (fun i => Sample.withdrawal ⟨0, i⟩ 20000000 38880000) ++
  [Sample.vote (.blockCount 5), Sample.sign Sample.sevenBatch, Sample.vote (.blockCount 40)]

def Sample.sevenRequests : List (OutPoint × UsdtWithdrawalV0) :=
  (List.range 7).map fun i => (⟨0, i⟩, Sample.dearRequest)

/-- Whether the batch of seven is in flight. -/
def Sample.isSeven (db : Db) : Bool :=
  decide (∀ q ∈ Sample.sevenRequests, db.unclaimedWithdrawal.get? q.1 = some q.2) &&
    (db.submittedUserOp.get? (sampleUsdt.opHash Sample.sevenBatch)).any fun s =>
      decide (s.signed.unsigned = Sample.sevenBatch) &&
        decide (s.purpose = .withdraw (Sample.sevenRequests.map (·.1)))

/-- Seven withdrawals at the quote pay for the first replacement of their batch, at the price it was
built at and when gas has become cheaper. -/
theorem first_reprice_iff_seven :
    ∃ tr db s, Run (Accepts sampleUsdt) Db.empty tr db ∧
      db.submittedUserOp.get? (sampleUsdt.opHash Sample.sevenBatch) = some s ∧
      sampleUsdt.PricedBatch db s Sample.sevenRequests true Sample.dearVote ∧
      Usdt.withdrawRepriceOverCeiling db s Sample.dearVote = false ∧
      Usdt.withdrawRepriceOverCeiling db s ⟨20000000000, 2900000000⟩ = false := by
  obtain ⟨tr, db, run, hdb⟩ := Run.exists_of_exec sampleUsdt.step Db.empty Sample.seven
    (fun _ db => Sample.isSeven db) (by decide +kernel)
  simp only [Sample.isSeven, Bool.and_eq_true, decide_eq_true_eq, Option.any_eq_true] at hdb
  obtain ⟨hrows, s, hs, hop, hpurpose⟩ := hdb
  have hbatch : sampleUsdt.PricedBatch db s Sample.sevenRequests true Sample.dearVote :=
    { pos := by decide
      small := by decide
      rows := hrows
      purpose := hpurpose
      op := ⟨sampleUsdt.poolAccount, 0, hop⟩
      clamp := by decide
      rate := by decide
      fees := by
        intro q hq
        obtain ⟨i, -, rfl⟩ := List.mem_map.1 hq
        exact ⟨U64.clamp 38880000, by decide +kernel, le_rfl⟩ }
  obtain ⟨hiff, hsize, -⟩ := first_reprice_iff sampleUsdt
  refine ⟨tr, db, s, run, hs, hbatch, ?_, ?_⟩
  · exact hsize db s _ true _ Sample.dearVote hbatch le_rfl le_rfl (by decide)
  · exact (hiff db s _ true _ ⟨20000000000, 2900000000⟩ hbatch (by decide) (by decide)).2
      (by decide +kernel)

end Experimint.FedimintUsdt
