import Experimint.Lib.Run
import Experimint.Usdt.Proof
import Experimint.Usdt.Settle

/-!
# Processing of inputs, outputs and consensus items

The entry points of the module.  A rejected item leaves no trace in the database: the framework
drops its transaction.  `Usdt.step` is the module as a transition system and `Accepts` its
relation; `Usdt.audit` is the balance sheet the module reports.
-/

set_option autoImplicit false

namespace Experimint.FedimintUsdt

/-- What the module answers to an accepted item. -/
inductive Answer
  | funded (m : InputMeta)
  | consumed (amounts : TransactionItemAmounts)
  | recorded
deriving DecidableEq

namespace Usdt

variable (u : Usdt)

/-! ## Deposits -/

def freshRecord (claimPk : PublicKey) : DepositRecord where
  claimPk := claimPk
  credited := U64.zero
  claimed := U64.zero
  lastObservedBlock := 0
  swept := U64.zero
  nonce := 0
  feesAccrued := U64.zero

/-- Raises the account's high-water mark to `proven`. -/
def credit (db : Db) (account : EvmAddress) (record : DepositRecord)
    (proven delta fee : UsdtAmount) (block : Nat) : Db :=
  { db with
    depositRecord := db.depositRecord.insert account { record with
      credited := proven
      claimed := U64.satAdd record.claimed delta
      lastObservedBlock := block
      feesAccrued := U64.satAdd record.feesAccrued fee }
    history := .depositCredited account proven delta fee :: db.history }

/-- Credits what a proof shows above the account's high-water mark. -/
def processDepositProof (db : Db) (claimPk : PublicKey) (proof : DepositProof)
    (fee : UsdtAmount) : Except UsdtInputError (InputMeta × Db) :=
  let account := u.depositAccount claimPk
  match ringHashAt db proof.blockNumber with
  | none => .error (.depositProofNotAnchored proof.blockNumber)
  | some expected =>
    match u.evm.verifyDepositProof proof expected u.cfg.usdtContract account with
    | .error reason => .error (.depositProofInvalid reason)
    | .ok proven =>
      let record := (db.depositRecord.get? account).getD (freshRecord claimPk)
      let delta := U64.satSub proven record.credited
      if delta.raw = 0 then .error (.depositProofStale proven record.credited)
      else
        match u.feeVoteMedian db with
        | none => .error .noFeeQuoteAvailable
        | some median =>
          match depositFeeQuote median with
          | none => .error .feeQuoteOverflow
          | some quoted =>
            if fee.raw < quoted.raw then .error (.depositFeeInsufficient quoted fee)
            else if delta.raw ≤ fee.raw then .error (.feeExceedsAmount delta fee)
            else
              let db := credit db account record proven delta fee proof.blockNumber
              .ok (⟨⟨Amounts.newCustom USDT_UNIT delta.raw, Amounts.newCustom USDT_UNIT fee.raw⟩,
                claimPk⟩, u.maybeTriggerSweep db account)

/-! ## Inputs and outputs -/

/-- Pays a refund out once. -/
def claimRefund (db : Db) (outPoint : OutPoint) : Except UsdtInputError (InputMeta × Db) :=
  match db.refund.get? outPoint with
  | none => .error .unknownRefund
  | some refund =>
    .ok (⟨⟨Amounts.newCustom USDT_UNIT refund.amount.raw, Amounts.zero⟩, refund.refundPubkey⟩,
      { db with
        refund := db.refund.erase outPoint
        history := .refundClaimed outPoint refund.amount :: db.history })

def processInput (db : Db) (input : UsdtInput) : Except UsdtInputError (InputMeta × Db) :=
  match input with
  | .refundV0 outPoint => claimRefund db outPoint
  | .depositProofV0 claimPk proof fee => u.processDepositProof db claimPk proof fee
  | .default _ _ => .error .unsupportedInputVariant

/-- Queues a withdrawal that offers at least the quoted fee. -/
def processOutput (db : Db) (output : UsdtOutput) (outPoint : OutPoint) :
    Except UsdtOutputError (TransactionItemAmounts × Db) :=
  match output with
  | .default _ _ => .error .unsupportedOutputVariant
  | .v0 withdrawal =>
    match u.feeVoteMedian db with
    | none => .error .noFeeQuoteAvailable
    | some median =>
      match withdrawalFeeQuote median with
      | none => .error .feeQuoteOverflow
      | some quoted =>
        if withdrawal.maxFee.raw < quoted.raw then
          .error (.feeQuoteExceeded quoted withdrawal.maxFee)
        else
          .ok (⟨Amounts.newCustom USDT_UNIT withdrawal.amount.raw,
              Amounts.newCustom USDT_UNIT withdrawal.maxFee.raw⟩,
            { db with
              unclaimedWithdrawal := db.unclaimedWithdrawal.insert outPoint
                { recipient := withdrawal.recipient
                  amount := withdrawal.amount
                  maxFee := withdrawal.maxFee
                  requestedBlock := u.consensusBlockCount db
                  refundPubkey := withdrawal.refundPubkey }
              withdrawalState := db.withdrawalState.insert outPoint .queued
              history := .withdrawalQueued outPoint withdrawal.amount withdrawal.maxFee ::
                db.history })

/-! ## Consensus items -/

/-- Number of recorded votes on an operation that agree with `obs`. -/
def agreeingVotes (db : Db) (opHash : Hash) (obs : UserOpConfirmedObservation) : Nat :=
  ((db.userOpConfirmedVote.scan fun k => decide ((ofLex k).1 = opHash)).map (·.2)).count obs

def processUserOpConfirmed (db : Db) (opHash : Hash) (obs : UserOpConfirmedObservation)
    (peerId : PeerId) : Except String Db :=
  if !db.submittedUserOp.contains opHash then
    .error "UserOpConfirmed vote for an op that was never submitted"
  else
    let key := toLex (opHash, peerId)
    if db.userOpConfirmedVote.get? key = some obs then
      .error "UserOp confirmation vote is redundant"
    else
      let db := { db with userOpConfirmedVote := db.userOpConfirmedVote.insert key obs }
      if u.numPeers.threshold ≤ agreeingVotes db opHash obs then
        .ok (u.applyUserOpConfirmed db opHash obs)
      else .ok db

def processFeeVote (db : Db) (vote : FeeVote) (peerId : PeerId) : Except String Db :=
  if !feeVoteInSaneRange vote then .error "FeeVote is outside the sane range"
  else
    let currentBlock := u.consensusBlockCount db
    let isRedundant :=
      match db.feeVote.get? peerId with
      | some stored =>
        decide (stored.vote = vote) &&
          decide (currentBlock - stored.recordedBlock < FEE_VOTE_REFRESH_BLOCKS)
      | none => false
    if isRedundant then .error "FeeVote is redundant"
    else .ok { db with feeVote := db.feeVote.insert peerId ⟨vote, currentBlock⟩ }

def processBootstrapObservation (db : Db) (obs : BootstrapObservation) (peerId : PeerId) :
    Except String Db :=
  if db.bootstrapVote.get? peerId = some obs then
    .error "Bootstrap observation vote is redundant"
  else
    let db := { db with bootstrapVote := db.bootstrapVote.insert peerId obs }
    if u.bootstrapReady db then .ok { db with hasEverBeenReady := true } else .ok db

def processBlockHash (db : Db) (obs : BlockHashObservation) (peerId : PeerId) :
    Except String Db :=
  let ccount := u.consensusBlockCount db
  if ccount - u.cfg.confirmationDepth < obs.height then
    .error "block-hash observation is not yet confirmation-deep"
  else if u.cfg.confirmationDepth + DEPOSIT_VOTE_MAX_AGE_BLOCKS < ccount - obs.height then
    .error "block-hash observation is too old (outside the freshness window)"
  else if db.blockHashVote.get? peerId = some obs then
    .error "block-hash observation vote is redundant"
  else
    let db := { db with blockHashVote := db.blockHashVote.insert peerId obs }
    if u.numPeers.threshold ≤ db.blockHashVote.values.count obs then
      .ok (writeBlockHashRing db obs.height obs.blockHash)
    else .ok db

def processRecoverResidual (db : Db) (account : EvmAddress) (depositWei : Nat) (peerId : PeerId) :
    Except String Db :=
  match db.depositRecord.get? account with
  | none => .error "residual-recovery vote for an unknown deposit account"
  | some record =>
    if ¬ (0 < record.credited.raw ∧ record.swept = record.credited) then
      .error "residual-recovery vote for a not-fully-swept deposit account"
    else
      let key := toLex (account, peerId)
      if db.recoverResidualVote.get? key = some depositWei then
        .error "residual-recovery observation vote is redundant"
      else
        .ok (u.maybeTriggerResidualRecovery
          { db with recoverResidualVote := db.recoverResidualVote.insert key depositWei } account)

def processWithdrawFeesVote (db : Db) (vote : WithdrawFeesVote) (peerId : PeerId) :
    Except String Db :=
  let chainId := u.cfg.chainId
  if vote.amount.raw = 0 then .error "fee-withdrawal vote amount must be positive"
  else if !isDevChain chainId && decide (vote.recipient = zeroAddress) then
    .error s!"fee-withdrawal recipient must not be the zero address on non-dev chain_id {chainId}"
  else if db.withdrawFeesVote.get? peerId = some vote then
    .error "fee-withdrawal vote is redundant"
  else
    .ok (u.maybeTriggerFeeWithdrawal
      { db with withdrawFeesVote := db.withdrawFeesVote.insert peerId vote })

def processBlockCount (db : Db) (vote : Nat) (peerId : PeerId) : Except String Db :=
  if vote ≤ (db.blockCountVote.get? peerId).getD 0 then .error "Block count vote is redundant"
  else
    .ok (u.maybeTriggerWithdrawalBatch
      { db with blockCountVote := db.blockCountVote.insert peerId vote })

def processConsensusItem (db : Db) (item : UsdtConsensusItem) (peerId : PeerId) :
    Except String Db :=
  match item with
  | .blockCount vote => u.processBlockCount db vote peerId
  | .mpcRound item => u.processMpcRound db item peerId
  | .rotateSigning sessionId => u.processRotateSigning db sessionId
  | .replaceUserOp opHash => u.processReplaceUserOp db opHash
  | .mpcSignature sessionId signature => u.processMpcSignature db sessionId signature
  | .userOpConfirmed opHash obs => u.processUserOpConfirmed db opHash obs peerId
  | .feeVote vote => u.processFeeVote db vote peerId
  | .bootstrapObservation obs => u.processBootstrapObservation db obs peerId
  | .blockHash obs => u.processBlockHash db obs peerId
  | .recoverResidual account depositWei => u.processRecoverResidual db account depositWei peerId
  | .withdrawFeesVote vote => u.processWithdrawFeesVote db vote peerId
  | .default _ _ => .error "The usdt module does not support this consensus item yet"

end Usdt

/-! ## The module as a transition system -/

/-- What consensus orders. -/
inductive Item
  | input (input : UsdtInput)
  | output (output : UsdtOutput) (outPoint : OutPoint)
  | consensus (item : UsdtConsensusItem) (peerId : PeerId)
deriving DecidableEq

/-- Answer and database after an accepted item; `none` when it is rejected. -/
def Usdt.step (u : Usdt) (db : Db) : Item → Option (Answer × Db)
  | .input input =>
    match u.processInput db input with
    | .ok (m, db') => some (.funded m, db')
    | .error _ => none
  | .output output outPoint =>
    match u.processOutput db output outPoint with
    | .ok (amounts, db') => some (.consumed amounts, db')
    | .error _ => none
  | .consensus item peerId =>
    match u.processConsensusItem db item peerId with
    | .ok db' => some (.recorded, db')
    | .error _ => none

/-- Relation of accepted items. -/
abbrev Accepts (u : Usdt) : Db → Item → Answer → Db → Prop := Steps u.step

/-! ## Audit -/

def I64_MAX : Nat := 9223372036854775807

/-- Conversion of an amount to a signed 64-bit entry. -/
def auditEntry (a : UsdtAmount) : Int := if a.raw ≤ I64_MAX then a.raw else I64_MAX

/-- Total of the module's balance sheet: unswept deposits and the pool on one side, open withdrawals
and refunds on the other. -/
def Usdt.audit (db : Db) : Int :=
  db.depositRecord.sum (fun _ v => auditEntry (U64.satSub v.credited v.swept)) +
    (db.poolState.map fun v => auditEntry v.balance).getD 0 +
    db.unclaimedWithdrawal.sum (fun _ v => -auditEntry v.amount) +
    db.refund.sum (fun _ v => -auditEntry v.amount)

/-! ## A federation of one guardian

With toy primitives in place of the chain's, items can be evaluated: a hash is a polynomial in its
input, a signature names its digest and key, and a proof is its own value. -/

def toyKeccak (bs : Bytes) : Hash :=
  Fin.ofNat (2 ^ 256) (bs.foldl (fun h x => h * 257 + x.toNat + 1) 0)

def toyContractCall : ContractCall → Bytes
  | .transfer recipient amount => 0 :: (wordBytes recipient.val ++ wordBytes amount.val)
  | .withdrawTo recipient amount => 1 :: (wordBytes recipient.val ++ wordBytes amount.val)

def sampleKey : PublicKey := ⟨false, 1⟩

def sampleEvm : Evm where
  keccak256 := toyKeccak
  serialize pk := (if pk.odd then 3 else 2) :: wordBytes pk.x.val
  serializeUncompressed pk := 4 :: (wordBytes pk.x.val ++ wordBytes pk.x.val)
  encodeAccountCall
    | .execute dest value call =>
      0 :: (wordBytes dest.val ++ wordBytes value.val ++ toyContractCall call)
    | .executeBatch dests values calls =>
      1 :: (dests.flatMap (fun d => wordBytes d.val) ++ values.flatMap (fun v => wordBytes v.val) ++
        calls.flatMap toyContractCall)
  encodeCreateAccount owner salt := wordBytes owner.val ++ wordBytes salt.val
  encodeProxyArgs impl owner := wordBytes impl.val ++ wordBytes owner.val
  erc1967ProxyCreationCode := [0x60]
  create2 _ salt _ := lowAddress salt
  isCompact sig := sig.length == 64
  verifyEcdsa digest sig pk := sig == wordBytes digest.val ++ wordBytes pk.x.val
  recover sig i digest :=
    if i = 0 ∧ sig.take 32 = wordBytes digest.val then some sampleKey else none
  decodeHeader _ := some 0
  decodeTrieNode node := some (.leaf node)
  decodeTrieAccount _ := some 0
  decodeU256 bs := some (bs.foldl (fun n x => n * 256 + x.toNat) 0)
  verifyProof _ _ value nodes :=
    if nodes.getLast? = value then .ok () else .error "value mismatch"

def sampleUsdt : Usdt where
  cfg := ⟨sampleKey, 1, 31337, 1, 2, 3, 4, 5⟩
  numPeers := ⟨1⟩
  evm := sampleEvm
  isRunningInTestEnv := false

namespace Sample

def depositor : PublicKey := ⟨true, 7⟩

def account : EvmAddress := sampleUsdt.depositAccount depositor

def vote (item : UsdtConsensusItem) : Item := .consensus item 0

/-- The guardian reports block `h` and its hash. -/
def anchor (h : Nat) : List Item :=
  [vote (.blockCount (h + 1)), vote (.blockHash ⟨h, toyKeccak (toBeBytes 8 h)⟩)]

def deposit (block balance fee : Nat) : Item :=
  .input (.depositProofV0 depositor ⟨block, toBeBytes 8 block, [[1]], [wordBytes balance]⟩
    (U64.clamp fee))

def withdrawal (outPoint : OutPoint) (amount maxFee : Nat) : Item :=
  .output (.v0 ⟨9, U64.clamp amount, U64.clamp maxFee, depositor⟩) outPoint

/-- The signature of an operation's first signing attempt. -/
def sign (op : UnsignedUserOp) : Item :=
  let digest := sampleEvm.ethSignedMessageHash (sampleUsdt.opHash op)
  vote (.mpcSignature (sampleEvm.signingSessionId digest 0) (wordBytes digest.val ++ wordBytes 1))

def confirm (op : UnsignedUserOp) (success : Bool) (amount : Nat) : Item :=
  vote (.userOpConfirmed (sampleUsdt.opHash op) ⟨success, 1, 0, U64.clamp amount, U64.zero⟩)

def sweep (amount nonce : Nat) : UnsignedUserOp :=
  sampleUsdt.buildDeployAndSweepUserop account depositor (U64.clamp amount) nonce
    (GasBounds.DEPLOY_AND_SWEEP_DEVNET.withMedianFees (some 1))

def batch (amounts : List Nat) (nonce : Nat) : UnsignedUserOp :=
  sampleUsdt.buildWithdrawalBatchUserop sampleUsdt.poolAccount
    (amounts.map fun a => (9, U64.clamp a)) nonce
    ((GasBounds.withdrawalBatch amounts.length (nonce == 0)).withMedianFees (some 1))

/-- A deposit is credited and swept, and a withdrawal is queued. -/
def funding : List Item :=
  anchor 1 ++ [vote (.feeVote ⟨1, 1⟩), deposit 1 50000 10000, sign (sweep 50000 0),
    confirm (sweep 50000 0) true 50000, withdrawal ⟨0, 0⟩ 20000 10000]

/-- The queued withdrawal is paid by a batch. -/
def payout : List Item :=
  [vote (.blockCount 5), sign (batch [20000] 0), confirm (batch [20000] 0) true 20000]

/-- A sweep stays unconfirmed and is replaced at a higher fee. -/
def replacement : List Item :=
  anchor 1 ++ [vote (.feeVote ⟨1, 1⟩), deposit 1 50000 10000, sign (sweep 50000 0),
    vote (.blockCount 40), vote (.replaceUserOp (sampleUsdt.opHash (sweep 50000 0)))]

/-- A second deposit is credited while the sweep of the first is in flight. -/
def lateDeposit : List Item :=
  anchor 1 ++ [vote (.feeVote ⟨1, 1⟩), deposit 1 11000 10000, sign (sweep 11000 0)] ++ anchor 2 ++
    [deposit 2 22000 10000, confirm (sweep 11000 0) true 11000]

end Sample

end Experimint.FedimintUsdt
