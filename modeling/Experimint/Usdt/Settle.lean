import Experimint.Usdt.Triggers

/-!
# Confirmation and replacement

A threshold-agreed confirmation settles an operation by its purpose, then removes every operation
of the same account and nonce: only one of them can have been included.  An operation that stays
unconfirmed is replaced by a copy with higher fees, and the replaced one is kept so that a late
confirmation of it still settles.
-/

set_option autoImplicit false

namespace Experimint.FedimintUsdt

def SWEEP_MAX_FEE_PER_GAS_WEI : Nat := 200000000000

/-- Drops the confirmation votes on an operation. -/
def Db.removeConfirmedVotes (db : Db) (opHash : Hash) : Db :=
  { db with
    userOpConfirmedVote := db.userOpConfirmedVote.eraseWhere fun k => decide ((ofLex k).1 = opHash) }

/-! ## Nonce chains -/

/-- Removes a submitted operation with its votes. -/
def Db.removeSubmitted (db : Db) (opHash : Hash) : Db :=
  { db with submittedUserOp := db.submittedUserOp.erase opHash }.removeConfirmedVotes opHash

/-- Removes a pending operation with its signing sessions. -/
def Db.removePending (db : Db) (opHash : Hash) : Db :=
  removeSigningSessionsForOp { db with pendingUserOp := db.pendingUserOp.erase opHash } opHash

/-- Removes every operation of `sender` at `nonce` other than `exceptHash`. -/
def purgeUserOpNonceChain (db : Db) (sender : EvmAddress) (nonce : Nat) (exceptHash : Hash) : Db :=
  let submitted := db.submittedUserOp.rows.filter fun r =>
    decide (r.1 ≠ exceptHash) && decide (r.2.signed.unsigned.sender = sender) &&
      decide (r.2.signed.unsigned.nonce = nonce)
  let db := submitted.foldl (fun db r => db.removeSubmitted r.1) db
  let pending := db.pendingUserOp.rows.filter fun r =>
    decide (r.1 ≠ exceptHash) && decide (r.2.op.sender = sender) && decide (r.2.op.nonce = nonce)
  pending.foldl (fun db r => db.removePending r.1) db

namespace Usdt

variable (u : Usdt)

/-! ## Settlement by purpose -/

/-- A confirmed sweep: the pool holds what the account held, and the account's fees are realized.
The nonce is spent even if the transfer reverted. -/
def settleSweep (db : Db) (source : EvmAddress) (success : Bool) (swept : UsdtAmount) : Db :=
  let pool := u.pool db
  let found := db.depositRecord.get? source
  let db :=
    if success then
      let accruedFees :=
        match found with
        | some record => U64.satAdd pool.accruedFees record.feesAccrued
        | none => pool.accruedFees
      { db with
        poolState := some { pool with
          balance := U64.satAdd pool.balance swept
          accruedFees := accruedFees } }
    else db
  match found with
  | none => db
  | some record =>
    let record := { record with nonce := record.nonce + 1 }
    let record :=
      if success then
        { record with
          swept := U64.least (U64.satAdd record.swept swept) record.credited
          feesAccrued := U64.zero }
      else record
    { db with depositRecord := db.depositRecord.insert source record }

/-- A confirmed recovery spends the nonce and the votes that asked for it. -/
def settleRecovery (db : Db) (account : EvmAddress) : Db :=
  let db :=
    match db.depositRecord.get? account with
    | none => db
    | some record =>
      { db with
        depositRecord := db.depositRecord.insert account { record with nonce := record.nonce + 1 } }
  { db with
    recoverResidualVote := db.recoverResidualVote.eraseWhere fun k =>
      decide ((ofLex k).1 = account) }

/-- Turns a withdrawal that failed for good into a refund net of the gas it cost. -/
def createWithdrawalRefund (db : Db) (outPoint : OutPoint) (reason : String) : Db :=
  match db.unclaimedWithdrawal.get? outPoint with
  | none =>
    { db with withdrawalState := db.withdrawalState.insert outPoint (.failed reason) }
  | some withdrawal =>
    let gross := U64.satAdd withdrawal.amount withdrawal.maxFee
    let incurred := U64.least ((db.withdrawalIncurredFee.get? outPoint).getD U64.zero) gross
    let refundAmount := U64.satSub gross incurred
    let pool := u.pool db
    { db with
      poolState := some { pool with accruedFees := U64.satAdd pool.accruedFees incurred }
      refund := db.refund.insert outPoint ⟨refundAmount, withdrawal.refundPubkey, reason⟩
      unclaimedWithdrawal := db.unclaimedWithdrawal.erase outPoint
      withdrawalIncurredFee := db.withdrawalIncurredFee.erase outPoint
      withdrawalBatchCap := db.withdrawalBatchCap.erase outPoint
      withdrawalState := db.withdrawalState.insert outPoint (.failed reason)
      history := .withdrawalFailed outPoint refundAmount incurred :: db.history }

/-- Fees of the withdrawals a batch covers. -/
def coveredFees (db : Db) (outpoints : List OutPoint) : UsdtAmount :=
  U64.satSum (outpoints.filterMap fun o => (db.unclaimedWithdrawal.get? o).map (·.maxFee))

/-- Withdrawals paid on chain leave the books. -/
def settlePaid (db : Db) (block : Nat) (outpoints : List OutPoint) : Db :=
  { db with
    withdrawalState := db.withdrawalState.insertAll outpoints (.confirmed block)
    unclaimedWithdrawal := db.unclaimedWithdrawal.eraseAll outpoints
    withdrawalBatchCap := db.withdrawalBatchCap.eraseAll outpoints
    withdrawalIncurredFee := db.withdrawalIncurredFee.eraseAll outpoints }

/-- A withdrawal's share of the gas a reverted batch of `n` cost. -/
def incurredShare (db : Db) (obs : UserOpConfirmedObservation) (n : Nat) : UsdtAmount :=
  if n = 0 then U64.zero
  else
    match (u.feeVoteMedian db).bind fun median =>
        weiGasCostToUsdt obs.actualGasCostWei.raw median.usdtPerEthE6 with
    | none => U64.zero
    | some total => ⟨total.raw / n, Nat.le_trans (Nat.div_le_self _ _) total.le_max⟩

/-- Adds `share` to what a withdrawal has incurred. -/
def chargeIncurred (share : UsdtAmount) (t : Table OutPoint UsdtAmount) (outPoint : OutPoint) :
    Table OutPoint UsdtAmount :=
  t.insert outPoint (U64.satAdd ((t.get? outPoint).getD U64.zero) share)

/-- Queues withdrawals again, with a cap on the next batch that holds one of them. -/
def requeue (db : Db) (splitCap : Nat) (outpoints : List OutPoint) : Db :=
  { db with
    withdrawalState := db.withdrawalState.insertAll outpoints .queued
    withdrawalBatchCap := db.withdrawalBatchCap.insertAll outpoints splitCap }

def ISOLATED_FAILURE : String :=
  "transfer reverts when isolated (recipient likely blacklisted/paused)"

/-- A confirmed batch: paid withdrawals are settled; after a revert a single withdrawal is
refunded and a larger batch goes back to the queue, to be split in half. -/
def applyWithdrawConfirmed (db : Db) (outpoints : List OutPoint)
    (obs : UserOpConfirmedObservation) (swept : UsdtAmount) : Db :=
  let pool := u.pool db
  let n := outpoints.length
  if obs.success then
    let db := { db with
      poolState := some { pool with
        nonce := pool.nonce + 1
        balance := U64.satSub pool.balance swept
        accruedFees := U64.satAdd pool.accruedFees (coveredFees db outpoints) } }
    settlePaid db obs.block outpoints
  else
    let db := { db with poolState := some { pool with nonce := pool.nonce + 1 } }
    let share := u.incurredShare db obs n
    let db := { db with
      withdrawalIncurredFee := outpoints.foldl (chargeIncurred share) db.withdrawalIncurredFee }
    if n ≤ 1 then outpoints.foldl (fun db o => u.createWithdrawalRefund db o ISOLATED_FAILURE) db
    else requeue db (max (n / 2) 1) outpoints

/-- A confirmed fee payout spends the votes that asked for it. -/
def applyFeeWithdrawalConfirmed (db : Db) (success : Bool) (swept : UsdtAmount) : Db :=
  let pool := u.pool db
  let pool := { pool with nonce := pool.nonce + 1 }
  let pool :=
    if success then
      { pool with
        balance := U64.satSub pool.balance swept
        accruedFees := U64.satSub pool.accruedFees swept }
    else pool
  { db with poolState := some pool, withdrawFeesVote := Table.empty }

/-! ## Confirmation -/

/-- Token amount an operation moves, read from its own call. -/
def expectedSwept (submitted : SubmittedUserOp) : Except String UsdtAmount :=
  match submitted.purpose with
  | .deployAndSweep _ => decodeTransferAmount submitted.signed.unsigned
  | .withdraw _ | .withdrawFees _ _ => decodeBatchTransferTotal submitted.signed.unsigned
  -- a recovery moves gas, not tokens
  | .recoverResidual _ => .ok U64.zero

/-- Amount a confirmation moves, if the vote agrees with the operation. -/
def effectiveSwept (submitted : SubmittedUserOp) (obs : UserOpConfirmedObservation) :
    Option UsdtAmount :=
  if obs.success then
    match expectedSwept submitted with
    | .ok amount => if amount = obs.swept then some amount else none
    | .error _ => none
  else some U64.zero

/-- Settles an operation by its purpose. -/
def settle (db : Db) (submitted : SubmittedUserOp) (obs : UserOpConfirmedObservation)
    (swept : UsdtAmount) : Db :=
  match submitted.purpose with
  | .deployAndSweep _ => u.settleSweep db submitted.signed.unsigned.sender obs.success swept
  | .withdraw outpoints => u.applyWithdrawConfirmed db outpoints obs swept
  | .withdrawFees _ _ => u.applyFeeWithdrawalConfirmed db obs.success swept
  | .recoverResidual account => settleRecovery db account

/-- Account to sweep again once the operation is gone: after a successful sweep, and after any
recovery. -/
def retriggerSource (submitted : SubmittedUserOp) (obs : UserOpConfirmedObservation) :
    Option EvmAddress :=
  match submitted.purpose with
  | .deployAndSweep _ => if obs.success then some submitted.signed.unsigned.sender else none
  | .recoverResidual account => some account
  | _ => none

def applyUserOpConfirmed (db : Db) (opHash : Hash) (obs : UserOpConfirmedObservation) : Db :=
  match db.submittedUserOp.get? opHash with
  | none => db.removeConfirmedVotes opHash
  | some submitted =>
    match effectiveSwept submitted obs with
    -- the vote contradicts the operation's own call: nothing is settled
    | none => db
    | some swept =>
      let op := submitted.signed.unsigned
      let db := db.record (.userOpConfirmed op submitted.purpose obs.success swept)
      let db := u.settle db submitted obs swept
      let db := db.removeSubmitted opHash
      let db := purgeUserOpNonceChain db op.sender op.nonce opHash
      match retriggerSource submitted obs with
      | none => db
      | some source => u.maybeTriggerSweep db source

/-! ## Replacement -/

/-- Ten percent more, rounded up. -/
def bump10Percent (fee : Nat) : Nat := satAdd128 fee ((fee + 9) / 10)

structure RepricedUserOpFees where
  maxFeePerGas : Nat
  maxPriorityFeePerGas : Nat
  gasCostWei : Nat

def repricedUserOpFees (old : UnsignedUserOp) (median : FeeVote) : RepricedUserOpFees :=
  let priced :=
    GasBounds.DEPLOY_AND_SWEEP_DEVNET.withMedianFees (some median.maxFeePerGasWei)
  let maxFeePerGas := max priced.maxFeePerGas (bump10Percent old.maxFeePerGas)
  let maxPriorityFeePerGas :=
    min (max priced.maxPriorityFeePerGas (bump10Percent old.maxPriorityFeePerGas)) maxFeePerGas
  let totalGasUnits :=
    satAdd128 (satAdd128 old.verificationGasLimit old.callGasLimit)
      (min old.preVerificationGas U128_MAX)
  ⟨maxFeePerGas, maxPriorityFeePerGas, satMul128 totalGasUnits maxFeePerGas⟩

/-- Whether repricing a batch would cost more than its withdrawals have committed to. -/
def withdrawRepriceOverCeiling (db : Db) (submitted : SubmittedUserOp) (median : FeeVote) :
    Bool :=
  match submitted.purpose with
  | .withdraw outpoints =>
    let fees := repricedUserOpFees submitted.signed.unsigned median
    match weiGasCostToUsdt fees.gasCostWei median.usdtPerEthE6 with
    | some cost => decide ((coveredFees db outpoints).raw < cost.raw)
    | none => true
  | _ => false

/-- Why an operation of this purpose is not replaced at the new fee, if so. -/
def replacementRefusal (db : Db) (submitted : SubmittedUserOp) (median : FeeVote)
    (newMaxFeePerGas : Nat) : Option String :=
  match submitted.purpose with
  | .withdraw _ =>
    if withdrawRepriceOverCeiling db submitted median then
      some ("withdrawal reprice over the committed max_fee ceiling; " ++
        "stalling until fees fall under it")
    else none
  | .deployAndSweep _ =>
    if SWEEP_MAX_FEE_PER_GAS_WEI < newMaxFeePerGas then
      some "sweep reprice exceeds the gas ceiling; leaving op stuck"
    else none
  | .recoverResidual _ => some "residual recovery is not urgent; never reprice"
  | .withdrawFees _ _ => some "fee withdrawal is not urgent; never reprice"

/-- The replacement enters the pending table, the covered withdrawals follow it, and the replaced
operation stays as superseded. -/
def enqueueReplacement (db : Db) (opHash : Hash) (submitted : SubmittedUserOp)
    (newOp : UnsignedUserOp) (ccount : Nat) : Db :=
  let newHash := u.opHash newOp
  let db := db.enqueue newHash newOp submitted.purpose ccount
  let db :=
    match submitted.purpose with
    | .withdraw outpoints => db.markSigning newHash outpoints
    | _ => db
  let db := { db with
    submittedUserOp := db.submittedUserOp.insert opHash { submitted with superseded := true } }
  u.startOpSession db newHash

def processReplaceUserOp (db : Db) (opHash : Hash) : Except String Db :=
  match db.submittedUserOp.get? opHash with
  | none => .error "ReplaceUserOp for an unknown/already-cleared SubmittedUserOp"
  | some submitted =>
    if submitted.superseded then .error "ReplaceUserOp for an already-superseded op"
    else
      let ccount := u.consensusBlockCount db
      if ccount ≤ satAdd64 submitted.submittedBlock u.submittedOpTimeoutBlocks then
        .error "ReplaceUserOp for an op that has not timed out"
      else
        match u.feeVoteMedian db with
        | none => .error "ReplaceUserOp deferred: no fee median to reprice from"
        | some median =>
          let old := submitted.signed.unsigned
          let fees := repricedUserOpFees old median
          let newOp := { old with
            maxFeePerGas := fees.maxFeePerGas
            maxPriorityFeePerGas := fees.maxPriorityFeePerGas }
          match replacementRefusal db submitted median fees.maxFeePerGas with
          | some refusal => .error refusal
          | none =>
            if db.isEnqueued (u.opHash newOp) then
              .error "ReplaceUserOp replacement op is already enqueued"
            else .ok (u.enqueueReplacement db opHash submitted newOp ccount)

/-- Whether the loop over the submitted operations proposes to replace this one. -/
def proposesReplacement (db : Db) (s : SubmittedUserOp) : Bool :=
  if s.superseded then false
  else if u.consensusBlockCount db ≤ satAdd64 s.submittedBlock u.submittedOpTimeoutBlocks then false
  else
    match s.purpose with
    | .withdraw _ =>
      -- a batch over its ceiling would be refused
      match u.feeVoteMedian db with
      | some m => !withdrawRepriceOverCeiling db s m
      | none => false
    | _ => true

def proposeReplaceUserOps (db : Db) : List UsdtConsensusItem :=
  (db.submittedUserOp.rows.filter fun r => u.proposesReplacement db r.2).map
    fun r => .replaceUserOp r.1

end Usdt

end Experimint.FedimintUsdt
