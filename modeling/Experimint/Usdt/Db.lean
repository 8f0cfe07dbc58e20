import Experimint.Usdt.UserOp

/-!
# The consensus database of the USDT module

One field a table of the source, and `history`, which no function reads: the effects on deposits,
withdrawals and operations in the order they took place, newest first.  What "ever" and "exactly
once" mean in the results is a statement about `history`.
-/

set_option autoImplicit false

namespace Experimint.FedimintUsdt

/-! ## Records -/

structure StoredFeeVote where
  vote : FeeVote
  recordedBlock : Nat
deriving DecidableEq

structure DepositRecord where
  claimPk : PublicKey
  credited : UsdtAmount
  claimed : UsdtAmount
  lastObservedBlock : Nat
  swept : UsdtAmount
  nonce : Nat
  feesAccrued : UsdtAmount
deriving DecidableEq

inductive SigningPurpose
  | userOp (opHash : Hash)
deriving DecidableEq

def SigningPurpose.opHash : SigningPurpose → Hash
  | .userOp h => h

inductive SessionState
  | inProgress
  | completed (signature : Bytes)
  | failed
deriving DecidableEq

def SessionState.isCompleted : SessionState → Bool
  | .completed _ => true
  | _ => false

structure SigningSession where
  purpose : SigningPurpose
  digest : Hash
  signers : List PeerId
  round : Nat
  state : SessionState
  attempt : Nat
  lastProgressBlock : Nat
deriving DecidableEq

structure MpcRoundChunk where
  count : Nat
  bytes : Bytes
deriving DecidableEq

structure MpcRoundChunkKey where
  sessionId : SigningSessionId
  round : Nat
  peer : PeerId
  chunk : Nat
deriving DecidableEq

instance : LinearOrder MpcRoundChunkKey :=
  LinearOrder.lift' (fun k => toLex (k.sessionId, toLex (k.round, toLex (k.peer, k.chunk))))
    fun a b h => by cases a; cases b; simpa using h

structure PendingUserOp where
  op : UnsignedUserOp
  purpose : UserOpPurpose
  createdBlock : Nat
deriving DecidableEq

structure SubmittedUserOp where
  signed : SignedUserOp
  purpose : UserOpPurpose
  submittedBlock : Nat
  superseded : Bool
deriving DecidableEq

structure PoolState where
  account : EvmAddress
  balance : UsdtAmount
  nonce : Nat
  accruedFees : UsdtAmount
deriving DecidableEq

structure UsdtWithdrawalV0 where
  recipient : EvmAddress
  amount : UsdtAmount
  maxFee : UsdtAmount
  requestedBlock : Nat
  refundPubkey : PublicKey
deriving DecidableEq

inductive WithdrawalState
  | queued
  | signing (opHash : Hash)
  | submitted (opHash : Hash)
  | confirmed (block : Nat)
  | failed (reason : String)
deriving DecidableEq

structure Refund where
  amount : UsdtAmount
  refundPubkey : PublicKey
  reason : String
deriving DecidableEq

/-! ## History -/

/-- What the module did to a deposit, a withdrawal or an operation. -/
inductive Event
  | depositCredited (account : EvmAddress) (proven delta fee : UsdtAmount)
  | withdrawalQueued (outPoint : OutPoint) (amount maxFee : UsdtAmount)
  | refundClaimed (outPoint : OutPoint) (amount : UsdtAmount)
  | userOpEnqueued (opHash : Hash) (op : UnsignedUserOp) (purpose : UserOpPurpose)
  | userOpFinalized (opHash : Hash)
  | userOpConfirmed (op : UnsignedUserOp) (purpose : UserOpPurpose) (success : Bool)
      (swept : UsdtAmount)
  | withdrawalFailed (outPoint : OutPoint) (refundAmount incurredGas : UsdtAmount)
deriving DecidableEq

/-! ## Database -/

structure Db where
  blockCountVote : Table PeerId Nat
  feeVote : Table PeerId StoredFeeVote
  depositRecord : Table EvmAddress DepositRecord
  signingSession : Table SigningSessionId SigningSession
  mpcRoundChunk : Table MpcRoundChunkKey MpcRoundChunk
  pendingUserOp : Table Hash PendingUserOp
  submittedUserOp : Table Hash SubmittedUserOp
  poolState : Option PoolState
  userOpConfirmedVote : Table (Hash ×ₗ PeerId) UserOpConfirmedObservation
  unclaimedWithdrawal : Table OutPoint UsdtWithdrawalV0
  withdrawalState : Table OutPoint WithdrawalState
  bootstrapVote : Table PeerId BootstrapObservation
  hasEverBeenReady : Bool
  withdrawalBatchCap : Table OutPoint Nat
  refund : Table OutPoint Refund
  withdrawalIncurredFee : Table OutPoint UsdtAmount
  blockHashRing : Table Nat Hash
  blockHashVote : Table PeerId BlockHashObservation
  recoverResidualVote : Table (EvmAddress ×ₗ PeerId) Nat
  withdrawFeesVote : Table PeerId WithdrawFeesVote
  history : List Event

namespace Db

/-- The database of a fresh federation. -/
def empty : Db where
  blockCountVote := Table.empty
  feeVote := Table.empty
  depositRecord := Table.empty
  signingSession := Table.empty
  mpcRoundChunk := Table.empty
  pendingUserOp := Table.empty
  submittedUserOp := Table.empty
  poolState := none
  userOpConfirmedVote := Table.empty
  unclaimedWithdrawal := Table.empty
  withdrawalState := Table.empty
  bootstrapVote := Table.empty
  hasEverBeenReady := false
  withdrawalBatchCap := Table.empty
  refund := Table.empty
  withdrawalIncurredFee := Table.empty
  blockHashRing := Table.empty
  blockHashVote := Table.empty
  recoverResidualVote := Table.empty
  withdrawFeesVote := Table.empty
  history := []

/-- Appends to the history. -/
def record (db : Db) (e : Event) : Db := { db with history := e :: db.history }

end Db

/-- The pool's row, or the one it starts with. -/
def Usdt.pool (u : Usdt) (db : Db) : PoolState :=
  db.poolState.getD ⟨u.poolAccount, U64.zero, 0, U64.zero⟩

/-! ## Operations in flight -/

def UserOpPurpose.isPool : UserOpPurpose → Bool
  | .withdraw _ | .withdrawFees _ _ => true
  | _ => false

def UserOpPurpose.isSweepOf (account : EvmAddress) : UserOpPurpose → Bool
  | .deployAndSweep source => source == account
  | _ => false

def UserOpPurpose.isRecoveryOf (account : EvmAddress) : UserOpPurpose → Bool
  | .recoverResidual a => a == account
  | _ => false

/-- Whether some row's purpose satisfies `p`: both tables are scanned. -/
def Db.anyInFlight (db : Db) (p : UserOpPurpose → Bool) : Bool :=
  db.pendingUserOp.values.any (fun r => p r.purpose) ||
    db.submittedUserOp.values.any (fun r => p r.purpose)

def Db.withdrawBatchInFlight (db : Db) : Bool := db.anyInFlight UserOpPurpose.isPool

def Db.deployAndSweepInFlight (db : Db) (account : EvmAddress) : Bool :=
  db.anyInFlight (UserOpPurpose.isSweepOf account)

def Db.residualRecoveryInFlight (db : Db) (account : EvmAddress) : Bool :=
  db.anyInFlight (UserOpPurpose.isRecoveryOf account)

end Experimint.FedimintUsdt
