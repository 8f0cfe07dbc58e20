import Experimint.Usdt.Signing

/-!
# What enqueues an operation

Four operations are built from the database alone: a sweep of a deposit account, the recovery of
an account's gas residual, a batch of queued withdrawals, and a payout of accrued fees.  Each is
guarded by a scan for operations already in flight and enters the pending table together with its
first signing attempt.
-/

set_option autoImplicit false

namespace Experimint.FedimintUsdt

def RESIDUAL_RECOVERY_MIN_WEI : Nat := 2000000000000000

def RESIDUAL_RECOVERY_NEED_MARGIN_PERCENT : Nat := 20

def BATCH_MAX_ITEMS : Nat := 20

/-- Pending row of an operation. -/
def Db.enqueue (db : Db) (opHash : Hash) (op : UnsignedUserOp) (purpose : UserOpPurpose)
    (createdBlock : Nat) : Db :=
  { db with
    pendingUserOp := db.pendingUserOp.insert opHash ⟨op, purpose, createdBlock⟩
    history := .userOpEnqueued opHash op purpose :: db.history }

/-- Whether an operation is pending or submitted. -/
def Db.isEnqueued (db : Db) (opHash : Hash) : Bool :=
  db.pendingUserOp.contains opHash || db.submittedUserOp.contains opHash

/-- Marks withdrawals as covered by an operation that is being signed. -/
def Db.markSigning (db : Db) (opHash : Hash)
    (outpoints : List OutPoint) : Db :=
  { db with withdrawalState := db.withdrawalState.insertAll outpoints (.signing opHash) }

namespace Usdt

variable (u : Usdt)

/-- First signing attempt of an operation. -/
def startOpSession (db : Db) (opHash : Hash) : Db :=
  u.startSession db (.userOp opHash) (u.evm.ethSignedMessageHash opHash) 0

/-! ## Sweeps -/

def maybeTriggerSweep (db : Db) (account : EvmAddress) : Db :=
  match db.depositRecord.get? account with
  | none => db
  | some record =>
    let remainder := U64.satSub record.credited record.swept
    if remainder.raw = 0 then db
    else if db.deployAndSweepInFlight account then db
    else if db.residualRecoveryInFlight account then db
    else
      match u.feeVoteMedian db with
      | none => db
      | some median =>
        match depositFeeQuote median with
        | none => db
        | some sweepFee =>
          -- dust: the remainder does not pay for its own sweep
          if remainder.raw ≤ sweepFee.raw then db
          else
            let op := u.buildDeployAndSweepUserop account record.claimPk remainder record.nonce
              (GasBounds.DEPLOY_AND_SWEEP_DEVNET.withMedianFees (some median.maxFeePerGasWei))
            let opHash := u.opHash op
            if db.isEnqueued opHash then db
            else
              u.startOpSession
                (db.enqueue opHash op (.deployAndSweep account) (u.consensusBlockCount db)) opHash

/-- Sweeps every account that holds unswept deposits. -/
def accelerateSweepsForWithdrawals (db : Db) : Db :=
  db.depositRecord.rows.foldl
    (fun db r => if r.2.swept.raw < r.2.credited.raw then u.maybeTriggerSweep db r.1 else db) db

/-! ## Residual recovery -/

/-- Votes for an account's residual. -/
def residualVotes (db : Db) (account : EvmAddress) : List Nat :=
  (db.recoverResidualVote.scan fun k => decide ((ofLex k).1 = account)).map (·.2)

def maybeTriggerResidualRecovery (db : Db) (account : EvmAddress) : Db :=
  if u.cfg.residualRecoveryRecipient = zeroAddress then db
  else if db.residualRecoveryInFlight account then db
  else if db.deployAndSweepInFlight account then db
  else
    match db.depositRecord.get? account with
    | none => db
    | some record =>
      if record.swept ≠ record.credited then db
      else
        let votes := residualVotes db account
        if votes.length < u.numPeers.threshold then db
        else
          let agreedDepositWei := sortedAt (votes.length / 2) votes
          match u.feeVoteMedian db with
          | none => db
          | some median =>
            let gasBounds :=
              GasBounds.RECOVER_RESIDUAL_DEVNET.withMedianFees (some median.maxFeePerGasWei)
            let need := satMul128 GasBounds.RECOVER_RESIDUAL_GAS_UNITS gasBounds.maxFeePerGas
            let needWithMargin :=
              satAdd128 need (satMul128 need RESIDUAL_RECOVERY_NEED_MARGIN_PERCENT / 100)
            if agreedDepositWei < needWithMargin then db
            else
              let amountWei := agreedDepositWei - needWithMargin
              if amountWei = 0 ∨ agreedDepositWei < RESIDUAL_RECOVERY_MIN_WEI then db
              else
                let op := u.buildRecoverResidualUserop account amountWei record.nonce gasBounds
                let opHash := u.opHash op
                if db.isEnqueued opHash then db
                else
                  u.startOpSession
                    (db.enqueue opHash op (.recoverResidual account) (u.consensusBlockCount db))
                    opHash

/-! ## Fee payouts -/

/-- Order in which the votes are tallied. -/
def feeVoteKey (v : WithdrawFeesVote) : EvmAddress ×ₗ Nat := toLex (v.recipient, v.amount.raw)

/-- First vote, in tally order, that a threshold of guardians agrees on. -/
def agreedFeeWithdrawal (db : Db) : Option WithdrawFeesVote :=
  let votes := db.withdrawFeesVote.values
  (votes.insertionSort fun a b => feeVoteKey a ≤ feeVoteKey b).find? fun v =>
    decide (u.numPeers.threshold ≤ votes.count v)

def maybeTriggerFeeWithdrawal (db : Db) : Db :=
  if db.withdrawBatchInFlight then db
  else
    match u.agreedFeeWithdrawal db with
    | none => db
    | some vote =>
      let pool := u.pool db
      if pool.accruedFees.raw < vote.amount.raw then db
      else if pool.balance.raw < vote.amount.raw then db
      else
        let op := u.buildWithdrawalBatchUserop pool.account [(vote.recipient, vote.amount)]
          pool.nonce
          ((GasBounds.withdrawalBatch 1 (pool.nonce == 0)).withMedianFees
            ((u.feeVoteMedian db).map (·.maxFeePerGasWei)))
        let opHash := u.opHash op
        if db.isEnqueued opHash then db
        else
          u.startOpSession
            (db.enqueue opHash op (.withdrawFees vote.recipient vote.amount)
              (u.consensusBlockCount db)) opHash

/-! ## Withdrawal batches -/

def withdrawalBatchCap (db : Db) (outPoint : OutPoint) : Nat :=
  (db.withdrawalBatchCap.get? outPoint).getD BATCH_MAX_ITEMS

/-- Queued withdrawals in the order of their out points, which is the scan's order. -/
def queuedWithdrawals (db : Db) : List (OutPoint × UsdtWithdrawalV0) :=
  db.unclaimedWithdrawal.rows.filter fun r =>
    decide (db.withdrawalState.get? r.1 = some .queued)

/-- Withdrawals the next batch may hold: at most twenty, and at most the smallest cap among them. -/
def cappedBatch (db : Db) (queued : List (OutPoint × UsdtWithdrawalV0)) :
    List (OutPoint × UsdtWithdrawalV0) :=
  let queued := queued.take BATCH_MAX_ITEMS
  queued.take
    (queued.foldl (fun cap q => min cap (withdrawalBatchCap db q.1)) BATCH_MAX_ITEMS)

def buildAndEnqueueWithdrawalBatch (db : Db) (queued : List (OutPoint × UsdtWithdrawalV0))
    (pool : PoolState) (consensusBlockCount : Nat) : Db :=
  let outpoints := queued.map (·.1)
  let withdrawals := queued.map fun q => (q.2.recipient, q.2.amount)
  let op := u.buildWithdrawalBatchUserop pool.account withdrawals pool.nonce
    ((GasBounds.withdrawalBatch withdrawals.length (pool.nonce == 0)).withMedianFees
      ((u.feeVoteMedian db).map (·.maxFeePerGasWei)))
  let opHash := u.opHash op
  u.startOpSession
    ((db.enqueue opHash op (.withdraw outpoints) consensusBlockCount).markSigning opHash outpoints)
    opHash

def maybeTriggerWithdrawalBatch (db : Db) : Db :=
  if db.withdrawBatchInFlight then db
  else
    let queued := queuedWithdrawals db
    match (queued.map fun q => q.2.requestedBlock).min? with
    | none => db
    | some oldestRequestedBlock =>
      let blockCount := u.consensusBlockCount db
      if blockCount < oldestRequestedBlock + u.batchIntervalBlocks ∧
          queued.length < BATCH_MAX_ITEMS then db
      else
        let queued := cappedBatch db queued
        let pool := u.pool db
        let batchTotal := U64.satSum (queued.map fun q => q.2.amount)
        if pool.balance.raw < batchTotal.raw then u.accelerateSweepsForWithdrawals db
        else u.buildAndEnqueueWithdrawalBatch db queued pool blockCount

end Usdt

end Experimint.FedimintUsdt
