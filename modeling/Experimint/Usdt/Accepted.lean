import Experimint.Usdt.Server

/-!
# What acceptance of a consensus item means

One lemma a processing function: the checks an accepted item has passed, and the database after it
in terms of the triggers and settlements it calls; and one lemma a trigger: what it has checked
when it enqueues.  Later modules cite these and never unfold a processing function or a trigger.
-/

set_option autoImplicit false

namespace Experimint.FedimintUsdt

variable {u : Usdt} {db db' : Db}

theorem processBlockCount_ok {vote : Nat} {p : PeerId}
    (hok : u.processBlockCount db vote p = .ok db') :
    (db.blockCountVote.get? p).getD 0 < vote ∧
      db' = u.maybeTriggerWithdrawalBatch
        { db with blockCountVote := db.blockCountVote.insert p vote } := by
  obtain ⟨hmore, hok⟩ := of_ite_error hok
  exact ⟨Nat.lt_of_not_le hmore, (Except.ok.inj hok).symm⟩

/-- The checks on a chunk that do not depend on the session. -/
structure Fits (db : Db) (item : MpcRoundItem) (p : PeerId) : Prop where
  index : item.chunk < item.chunkCount
  size : item.payload.length ≤ MPC_ROUND_CHUNK_SIZE
  few : item.chunkCount ≤ MAX_MPC_CHUNKS
  counts : ∀ q ∈ db.peerChunks item.sessionId item.round p, q.2.count = item.chunkCount
  bytes : ((db.peerChunks item.sessionId item.round p).map fun c => c.2.bytes.length).sum +
    item.payload.length ≤ MAX_MPC_ROUND_BYTES
  new : db.mpcRoundChunk.get? ⟨item.sessionId, item.round, p, item.chunk⟩ = none

/-- The database with the item's chunk. -/
def Db.storeChunk (db : Db) (item : MpcRoundItem) (p : PeerId) : Db :=
  { db with
    mpcRoundChunk := db.mpcRoundChunk.insert ⟨item.sessionId, item.round, p, item.chunk⟩
      ⟨item.chunkCount, item.payload⟩ }

/-- Whether every signer's chunks for the item's round are complete. -/
def Db.roundComplete (db : Db) (item : MpcRoundItem) (session : SigningSession) : Bool :=
  session.signers.all fun p => db.peerComplete item.sessionId item.round p

/-- Ends the round of the item's session. -/
def Usdt.advanceRound (u : Usdt) (db : Db) (item : MpcRoundItem) (session : SigningSession) : Db :=
  { db with
    signingSession := db.signingSession.insert item.sessionId
      { session with
        round := session.round + 1
        lastProgressBlock := u.consensusBlockCount db } }

/-- **When an item is accepted, and what it writes.** -/
theorem processMpcRound_eq_ok_iff {item : MpcRoundItem} {p : PeerId} :
    u.processMpcRound db item p = .ok db' ↔
      ∃ session, db.signingSession.get? item.sessionId = some session ∧ p ∈ session.signers ∧
        item.round = session.round ∧ Fits db item p ∧
        db' = if (db.storeChunk item p).roundComplete item session then
          u.advanceRound (db.storeChunk item p) item session else db.storeChunk item p := by
  constructor
  · intro hok
    unfold Usdt.processMpcRound at hok
    split at hok
    · cases hok
    rename_i session hsession
    obtain ⟨hsigner, hok⟩ := of_ite_error hok
    obtain ⟨hround, hok⟩ := of_ite_error hok
    obtain ⟨hindex, hok⟩ := of_ite_error hok
    obtain ⟨hsize, hok⟩ := of_ite_error hok
    obtain ⟨hfew, hok⟩ := of_ite_error hok
    obtain ⟨hcounts, hok⟩ := of_ite_error hok
    obtain ⟨hbytes, hok⟩ := of_ite_error hok
    obtain ⟨hnew, hok⟩ := of_ite_error hok
    refine ⟨session, hsession, not_not.1 hsigner, not_not.1 hround,
      ⟨(not_not.1 hindex).2, Nat.not_lt.1 hsize, Nat.not_lt.1 hfew, ?_, Nat.not_lt.1 hbytes,
        by simpa [Table.contains] using hnew⟩, ?_⟩
    · simpa using hcounts
    · rcases of_ite_ok hok with ⟨hcomplete, hdb⟩ | ⟨hcomplete, hdb⟩
      · exact hdb.trans
          (if_pos (c := (db.storeChunk item p).roundComplete item session = true) hcomplete).symm
      · exact hdb.trans
          (if_neg (c := (db.storeChunk item p).roundComplete item session = true) hcomplete).symm
  · rintro ⟨session, hsession, hsigner, hround, hfits, rfl⟩
    have hindex : 1 ≤ item.chunkCount ∧ item.chunk < item.chunkCount :=
      ⟨Nat.one_le_of_lt hfits.index, hfits.index⟩
    have hcounts : ((db.peerChunks item.sessionId item.round p).any fun c =>
        decide (c.2.count ≠ item.chunkCount)) = false := by
      simpa using hfits.counts
    unfold Usdt.processMpcRound
    rw [hsession]
    dsimp only
    rw [if_neg (not_not.2 hsigner), if_neg (not_not.2 hround), if_neg (not_not.2 hindex),
      if_neg (Nat.not_lt.2 hfits.size), if_neg (Nat.not_lt.2 hfits.few), hcounts,
      if_neg Bool.false_ne_true, if_neg (Nat.not_lt.2 hfits.bytes), Table.contains, hfits.new,
      if_neg (by simp)]
    exact (apply_ite Except.ok ((db.storeChunk item p).roundComplete item session = true)
      (u.advanceRound (db.storeChunk item p) item session) (db.storeChunk item p)).symm

/-- A round stores a chunk it has not seen, and closes once every signer's chunks are complete. -/
theorem processMpcRound_ok {item : MpcRoundItem} {p : PeerId}
    (hok : u.processMpcRound db item p = .ok db') :
    ∃ session chunks, db.signingSession.get? item.sessionId = some session ∧
      db.mpcRoundChunk.get? ⟨item.sessionId, item.round, p, item.chunk⟩ = none ∧
      chunks = db.mpcRoundChunk.insert ⟨item.sessionId, item.round, p, item.chunk⟩
        ⟨item.chunkCount, item.payload⟩ ∧
      (db' = { db with mpcRoundChunk := chunks } ∨
        ∃ block, db' = { db with
          mpcRoundChunk := chunks
          signingSession := db.signingSession.insert item.sessionId
            { session with round := session.round + 1, lastProgressBlock := block } }) := by
  obtain ⟨session, hsession, -, -, hfits, rfl⟩ := processMpcRound_eq_ok_iff.1 hok
  refine ⟨session, _, hsession, hfits.new, rfl, ?_⟩
  split
  · exact .inr ⟨_, rfl⟩
  · exact .inl rfl

theorem processRotateSigning_ok {sessionId : SigningSessionId}
    (hok : u.processRotateSigning db sessionId = .ok db') :
    ∃ session, db.signingSession.get? sessionId = some session ∧ session.state = .inProgress ∧
      db' = u.startSession
        (Db.removeChunks { db with
          signingSession := db.signingSession.insert sessionId { session with state := .failed } }
          sessionId) session.purpose session.digest (session.attempt + 1) := by
  unfold Usdt.processRotateSigning at hok
  split at hok
  · cases hok
  rename_i session hsession
  obtain ⟨hstate, hok⟩ := of_ite_error hok
  obtain ⟨-, hok⟩ := of_ite_error hok
  exact ⟨session, hsession, not_not.1 hstate, (Except.ok.inj hok).symm⟩

/-- What an accepted signature has been checked for. -/
theorem processMpcSignature_ok {sessionId : SigningSessionId} {signature : Bytes}
    (hok : u.processMpcSignature db sessionId signature = .ok db') :
    ∃ session pending ethSig, db.signingSession.get? sessionId = some session ∧
      session.state.isCompleted = false ∧
      u.evm.verifyEcdsa session.digest signature u.cfg.groupPublicKey = true ∧
      db.pendingUserOp.get? session.purpose.opHash = some pending ∧ signature.length = 64 ∧
      u.assembleEthSignature signature session.digest u.owner = .ok ethSig ∧
      db' = u.finalizeUserOp db sessionId session signature pending ethSig := by
  unfold Usdt.processMpcSignature at hok
  split at hok
  · cases hok
  rename_i session hsession
  obtain ⟨hopen, hok⟩ := of_ite_error hok
  obtain ⟨-, hok⟩ := of_ite_error hok
  obtain ⟨hverify, hok⟩ := of_ite_error hok
  dsimp only at hok
  split at hok
  · cases hok
  rename_i pending hpending
  obtain ⟨hlen, hok⟩ := of_ite_error hok
  split at hok
  · cases hok
  rename_i ethSig hsig
  exact ⟨session, pending, ethSig, hsession, by simpa using hopen, by simpa using hverify, hpending,
    not_not.1 hlen, hsig, (Except.ok.inj hok).symm⟩

/-- A replacement of a timed-out operation differs from it in the two fee fields. -/
theorem processReplaceUserOp_ok {h : Hash} (hok : u.processReplaceUserOp db h = .ok db') :
    ∃ s median, db.submittedUserOp.get? h = some s ∧ s.superseded = false ∧
      u.feeVoteMedian db = some median ∧
      ∃ newOp, newOp = { s.signed.unsigned with
          maxFeePerGas := (Usdt.repricedUserOpFees s.signed.unsigned median).maxFeePerGas
          maxPriorityFeePerGas :=
            (Usdt.repricedUserOpFees s.signed.unsigned median).maxPriorityFeePerGas } ∧
        Usdt.replacementRefusal db s median newOp.maxFeePerGas = none ∧
        db.isEnqueued (u.opHash newOp) = false ∧
        db' = u.enqueueReplacement db h s newOp (u.consensusBlockCount db) := by
  unfold Usdt.processReplaceUserOp at hok
  split at hok
  · cases hok
  rename_i s hs
  obtain ⟨hlive, hok⟩ := of_ite_error hok
  obtain ⟨-, hok⟩ := of_ite_error hok
  split at hok
  · cases hok
  rename_i median hmedian
  dsimp only at hok
  split at hok
  · cases hok
  rename_i hrefusal
  obtain ⟨hnew, hok⟩ := of_ite_error hok
  exact ⟨s, median, hs, by simpa using hlive, hmedian, _, rfl, hrefusal, by simpa using hnew,
    (Except.ok.inj hok).symm⟩

theorem processUserOpConfirmed_ok {h : Hash} {obs : UserOpConfirmedObservation} {p : PeerId}
    (hok : u.processUserOpConfirmed db h obs p = .ok db') :
    ∃ s voted, db.submittedUserOp.get? h = some s ∧
      db.userOpConfirmedVote.get? (toLex (h, p)) ≠ some obs ∧
      voted = { db with
        userOpConfirmedVote := db.userOpConfirmedVote.insert (toLex (h, p)) obs } ∧
      (db' = voted ∨ u.numPeers.threshold ≤ Usdt.agreeingVotes voted h obs ∧
        db' = u.applyUserOpConfirmed voted h obs) := by
  obtain ⟨hknown, hok⟩ := of_ite_error hok
  have hknown : db.submittedUserOp.contains h = true := by simpa using hknown
  obtain ⟨s, hs⟩ := Option.isSome_iff_exists.1 hknown
  obtain ⟨hnew, hok⟩ := of_ite_error hok
  refine ⟨s, _, hs, hnew, rfl, ?_⟩
  rcases of_ite_ok hok with ⟨hvotes, hdb⟩ | ⟨-, hdb⟩
  · exact .inr ⟨hvotes, hdb⟩
  · exact .inl hdb

/-- A repeated fee vote is accepted only as a refresh. -/
theorem processFeeVote_ok {vote : FeeVote} {p : PeerId}
    (hok : u.processFeeVote db vote p = .ok db') :
    feeVoteInSaneRange vote = true ∧
      (∀ stored, db.feeVote.get? p = some stored → stored.vote = vote →
        FEE_VOTE_REFRESH_BLOCKS ≤ u.consensusBlockCount db - stored.recordedBlock) ∧
      db' = { db with feeVote := db.feeVote.insert p ⟨vote, u.consensusBlockCount db⟩ } := by
  obtain ⟨hsane, hok⟩ := of_ite_error hok
  obtain ⟨hredundant, hok⟩ := of_ite_error hok
  refine ⟨by simpa using hsane, ?_, (Except.ok.inj hok).symm⟩
  intro stored hstored hvote
  rw [hstored] at hredundant
  simpa [hvote] using hredundant

theorem processBootstrapObservation_ok {obs : BootstrapObservation} {p : PeerId}
    (hok : u.processBootstrapObservation db obs p = .ok db') :
    db.bootstrapVote.get? p ≠ some obs ∧
      ∃ ready, db' = { db with
        bootstrapVote := db.bootstrapVote.insert p obs, hasEverBeenReady := ready } := by
  obtain ⟨hnew, hok⟩ := of_ite_error hok
  refine ⟨hnew, ?_⟩
  rcases of_ite_ok hok with ⟨-, hdb⟩ | ⟨-, hdb⟩
  · exact ⟨true, hdb⟩
  · exact ⟨db.hasEverBeenReady, hdb⟩

/-- An observation is confirmation-deep and fresh, and a threshold of equal ones anchors it. -/
theorem processBlockHash_ok {obs : BlockHashObservation} {p : PeerId}
    (hok : u.processBlockHash db obs p = .ok db') :
    obs.height ≤ u.consensusBlockCount db - u.cfg.confirmationDepth ∧
      u.consensusBlockCount db - obs.height ≤
        u.cfg.confirmationDepth + DEPOSIT_VOTE_MAX_AGE_BLOCKS ∧
      db.blockHashVote.get? p ≠ some obs ∧
      ∃ voted, voted = { db with blockHashVote := db.blockHashVote.insert p obs } ∧
        (db' = voted ∨ u.numPeers.threshold ≤ voted.blockHashVote.values.count obs ∧
          db' = writeBlockHashRing voted obs.height obs.blockHash) := by
  obtain ⟨hdeep, hok⟩ := of_ite_error hok
  obtain ⟨hfresh, hok⟩ := of_ite_error hok
  obtain ⟨hnew, hok⟩ := of_ite_error hok
  refine ⟨Nat.le_of_not_lt hdeep, Nat.le_of_not_lt hfresh, hnew, _, rfl, ?_⟩
  rcases of_ite_ok hok with ⟨hvotes, hdb⟩ | ⟨-, hdb⟩
  · exact .inr ⟨hvotes, hdb⟩
  · exact .inl hdb

theorem processRecoverResidual_ok {a : EvmAddress} {wei : Nat} {p : PeerId}
    (hok : u.processRecoverResidual db a wei p = .ok db') :
    db.recoverResidualVote.get? (toLex (a, p)) ≠ some wei ∧
      db' = u.maybeTriggerResidualRecovery { db with
        recoverResidualVote := db.recoverResidualVote.insert (toLex (a, p)) wei } a := by
  unfold Usdt.processRecoverResidual at hok
  split at hok
  · cases hok
  obtain ⟨-, hok⟩ := of_ite_error hok
  obtain ⟨hnew, hok⟩ := of_ite_error hok
  exact ⟨hnew, (Except.ok.inj hok).symm⟩

theorem processWithdrawFeesVote_ok {vote : WithdrawFeesVote} {p : PeerId}
    (hok : u.processWithdrawFeesVote db vote p = .ok db') :
    db.withdrawFeesVote.get? p ≠ some vote ∧
      db' = u.maybeTriggerFeeWithdrawal { db with
        withdrawFeesVote := db.withdrawFeesVote.insert p vote } := by
  obtain ⟨-, hok⟩ := of_ite_error hok
  obtain ⟨-, hok⟩ := of_ite_error hok
  obtain ⟨hnew, hok⟩ := of_ite_error hok
  exact ⟨hnew, (Except.ok.inj hok).symm⟩

/-- An accepted proof is anchored, shows more than was credited, and pays for its sweep. -/
theorem processDepositProof_ok {pk : PublicKey} {proof : DepositProof} {fee : UsdtAmount}
    {m : InputMeta} (hok : u.processDepositProof db pk proof fee = .ok (m, db')) :
    ∃ expected proven record delta median quoted,
      ringHashAt db proof.blockNumber = some expected ∧
      u.evm.verifyDepositProof proof expected u.cfg.usdtContract (u.depositAccount pk) =
        .ok proven ∧
      (db.depositRecord.get? (u.depositAccount pk)).getD (Usdt.freshRecord pk) = record ∧
      delta = U64.satSub proven record.credited ∧
      u.feeVoteMedian db = some median ∧ depositFeeQuote median = some quoted ∧
      quoted.raw ≤ fee.raw ∧ fee.raw < delta.raw ∧
      m = ⟨⟨Amounts.newCustom USDT_UNIT delta.raw, Amounts.newCustom USDT_UNIT fee.raw⟩, pk⟩ ∧
      db' = u.maybeTriggerSweep
        (Usdt.credit db (u.depositAccount pk) record proven delta fee proof.blockNumber)
        (u.depositAccount pk) := by
  unfold Usdt.processDepositProof at hok
  dsimp only at hok
  split at hok
  · cases hok
  rename_i expected hring
  split at hok
  · cases hok
  rename_i proven hproven
  split at hok
  · cases hok
  split at hok
  · cases hok
  rename_i median hmedian
  split at hok
  · cases hok
  rename_i quoted hquoted
  split at hok
  · cases hok
  rename_i hpaid
  split at hok
  · cases hok
  rename_i hfee
  obtain ⟨hm, hdb⟩ := Prod.mk.inj (Except.ok.inj hok)
  exact ⟨expected, proven, _, _, median, quoted, hring, hproven, rfl, rfl, hmedian, hquoted,
    Nat.le_of_not_lt hpaid, Nat.lt_of_not_le hfee, hm.symm, hdb.symm⟩

/-- A refund is paid out and gone. -/
theorem claimRefund_ok {o : OutPoint} {m : InputMeta}
    (hok : Usdt.claimRefund db o = .ok (m, db')) :
    ∃ f, db.refund.get? o = some f ∧
      m = ⟨⟨Amounts.newCustom USDT_UNIT f.amount.raw, Amounts.zero⟩, f.refundPubkey⟩ ∧
      db' = { db with
        refund := db.refund.erase o
        history := .refundClaimed o f.amount :: db.history } := by
  unfold Usdt.claimRefund at hok
  split at hok
  · cases hok
  rename_i f hf
  obtain ⟨hm, hdb⟩ := Prod.mk.inj (Except.ok.inj hok)
  exact ⟨f, hf, hm.symm, hdb.symm⟩

/-- An accepted withdrawal offers the quoted fee and is queued. -/
theorem processOutput_ok {output : UsdtOutput} {o : OutPoint} {amounts : TransactionItemAmounts}
    (hok : u.processOutput db output o = .ok (amounts, db')) :
    ∃ w median quoted, output = .v0 w ∧ u.feeVoteMedian db = some median ∧
      withdrawalFeeQuote median = some quoted ∧ quoted.raw ≤ w.maxFee.raw ∧
      amounts = ⟨Amounts.newCustom USDT_UNIT w.amount.raw,
        Amounts.newCustom USDT_UNIT w.maxFee.raw⟩ ∧
      db' = { db with
        unclaimedWithdrawal := db.unclaimedWithdrawal.insert o
          { recipient := w.recipient
            amount := w.amount
            maxFee := w.maxFee
            requestedBlock := u.consensusBlockCount db
            refundPubkey := w.refundPubkey }
        withdrawalState := db.withdrawalState.insert o .queued
        history := .withdrawalQueued o w.amount w.maxFee :: db.history } := by
  cases output with
  | default _ _ => cases hok
  | v0 w =>
    simp only [Usdt.processOutput] at hok
    split at hok
    · cases hok
    rename_i median hmedian
    split at hok
    · cases hok
    rename_i quoted hquoted
    split at hok
    · cases hok
    rename_i hfee
    obtain ⟨hamounts, hdb⟩ := Prod.mk.inj (Except.ok.inj hok)
    exact ⟨w, median, quoted, rfl, hmedian, hquoted, Nat.le_of_not_lt hfee, hamounts.symm,
      hdb.symm⟩

/-! ## Triggers -/

/-- Whether an operation enters the tables: the trigger gives up, or it enqueues. -/
theorem maybeTriggerSweep_cases (u : Usdt) (db : Db) (a : EvmAddress) :
    u.maybeTriggerSweep db a = db ∨ ∃ record median op,
      db.depositRecord.get? a = some record ∧ (U64.satSub record.credited record.swept).raw ≠ 0 ∧
      ¬ db.deployAndSweepInFlight a = true ∧ ¬ db.residualRecoveryInFlight a = true ∧
      u.feeVoteMedian db = some median ∧
      op = u.buildDeployAndSweepUserop a record.claimPk
        (U64.satSub record.credited record.swept) record.nonce
        (GasBounds.DEPLOY_AND_SWEEP_DEVNET.withMedianFees (some median.maxFeePerGasWei)) ∧
      ¬ db.isEnqueued (u.opHash op) = true ∧
      u.maybeTriggerSweep db a = u.startOpSession (db.enqueue (u.opHash op) op (.deployAndSweep a)
        (u.consensusBlockCount db)) (u.opHash op) := by
  unfold Usdt.maybeTriggerSweep
  split
  · exact .inl rfl
  rename_i record hrecord
  dsimp only
  split
  · exact .inl rfl
  rename_i hpos
  split
  · exact .inl rfl
  rename_i hsweep
  split
  · exact .inl rfl
  rename_i hrecovery
  split
  · exact .inl rfl
  rename_i median hmedian
  split
  · exact .inl rfl
  split
  · exact .inl rfl
  split
  · exact .inl rfl
  rename_i hnew
  exact .inr ⟨record, median, _, hrecord, hpos, hsweep, hrecovery, hmedian, rfl, hnew, rfl⟩

theorem maybeTriggerResidualRecovery_cases (u : Usdt) (db : Db) (a : EvmAddress) :
    u.maybeTriggerResidualRecovery db a = db ∨ ∃ record median amountWei op,
      db.depositRecord.get? a = some record ∧
      ¬ db.deployAndSweepInFlight a = true ∧ ¬ db.residualRecoveryInFlight a = true ∧
      u.feeVoteMedian db = some median ∧
      op = u.buildRecoverResidualUserop a amountWei record.nonce
        (GasBounds.RECOVER_RESIDUAL_DEVNET.withMedianFees (some median.maxFeePerGasWei)) ∧
      ¬ db.isEnqueued (u.opHash op) = true ∧
      u.maybeTriggerResidualRecovery db a = u.startOpSession (db.enqueue (u.opHash op) op
        (.recoverResidual a) (u.consensusBlockCount db)) (u.opHash op) := by
  unfold Usdt.maybeTriggerResidualRecovery
  split
  · exact .inl rfl
  split
  · exact .inl rfl
  rename_i hrecovery
  split
  · exact .inl rfl
  rename_i hsweep
  split
  · exact .inl rfl
  rename_i record hrecord
  split
  · exact .inl rfl
  dsimp only
  split
  · exact .inl rfl
  split
  · exact .inl rfl
  rename_i median hmedian
  split
  · exact .inl rfl
  split
  · exact .inl rfl
  split
  · exact .inl rfl
  rename_i hnew
  exact .inr ⟨record, median, _, _, hrecord, hsweep, hrecovery, hmedian, rfl, hnew, rfl⟩

theorem maybeTriggerFeeWithdrawal_cases (u : Usdt) (db : Db) :
    u.maybeTriggerFeeWithdrawal db = db ∨ ∃ (vote : WithdrawFeesVote) (op : UnsignedUserOp),
      ¬ db.withdrawBatchInFlight = true ∧ vote.amount.raw ≤ (u.pool db).accruedFees.raw ∧
      vote.amount.raw ≤ (u.pool db).balance.raw ∧
      op = u.buildWithdrawalBatchUserop (u.pool db).account [(vote.recipient, vote.amount)]
        (u.pool db).nonce ((GasBounds.withdrawalBatch 1 ((u.pool db).nonce == 0)).withMedianFees
          ((u.feeVoteMedian db).map (·.maxFeePerGasWei))) ∧
      ¬ db.isEnqueued (u.opHash op) = true ∧
      u.maybeTriggerFeeWithdrawal db = u.startOpSession (db.enqueue (u.opHash op) op
        (.withdrawFees vote.recipient vote.amount) (u.consensusBlockCount db)) (u.opHash op) := by
  unfold Usdt.maybeTriggerFeeWithdrawal
  split
  · exact .inl rfl
  rename_i hidle
  split
  · exact .inl rfl
  rename_i vote hvote
  dsimp only
  split
  · exact .inl rfl
  rename_i haccrued
  split
  · exact .inl rfl
  rename_i hfunded
  split
  · exact .inl rfl
  rename_i hnew
  exact .inr ⟨vote, _, hidle, Nat.le_of_not_lt haccrued, Nat.le_of_not_lt hfunded, rfl, hnew, rfl⟩

/-- A due batch is built if the pool covers it; otherwise deposits are swept first. -/
theorem maybeTriggerWithdrawalBatch_cases (u : Usdt) (db : Db) :
    u.maybeTriggerWithdrawalBatch db = db ∨
      u.maybeTriggerWithdrawalBatch db = u.accelerateSweepsForWithdrawals db ∨
      ∃ ws, ws = Usdt.cappedBatch db (Usdt.queuedWithdrawals db) ∧
        ¬ db.withdrawBatchInFlight = true ∧
        (U64.satSum (ws.map fun q => q.2.amount)).raw ≤ (u.pool db).balance.raw ∧
        u.maybeTriggerWithdrawalBatch db =
          u.buildAndEnqueueWithdrawalBatch db ws (u.pool db) (u.consensusBlockCount db) := by
  unfold Usdt.maybeTriggerWithdrawalBatch
  split
  · exact .inl rfl
  rename_i hidle
  dsimp only
  split
  · exact .inl rfl
  split
  · exact .inl rfl
  split
  · exact .inr (.inl rfl)
  rename_i hfunded
  exact .inr (.inr ⟨_, rfl, hidle, Nat.le_of_not_lt hfunded, rfl⟩)

end Experimint.FedimintUsdt
