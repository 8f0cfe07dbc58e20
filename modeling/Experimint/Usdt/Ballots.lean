import Experimint.Usdt.Effect

/-!
# The ballots

`Ballots` is the part of the database that the guardians' votes live in, with what a threshold of
them has brought about: the anchored block hashes and the acts a tally leads to.  Withdrawals,
deposits and signing rounds leave it alone, and so do the triggers of sweeps and batches; every
other item is one vote, possibly followed by the act it completes.

* `Accepts.casts` is the inversion: what an accepted item does to the ballots.
-/

set_option autoImplicit false

namespace Experimint.FedimintUsdt

/-- What a tally leads to, besides an anchored block. -/
inductive Act
  | settled (op : UnsignedUserOp) (success : Bool)
  | recovery (account : EvmAddress) (op : UnsignedUserOp)
  | payout (recipient : EvmAddress) (amount : UsdtAmount)
deriving DecidableEq

def Event.act : Event → Option Act
  | .userOpConfirmed op _ success _ => some (.settled op success)
  | .userOpEnqueued _ op (.recoverResidual account) => some (.recovery account op)
  | .userOpEnqueued _ _ (.withdrawFees recipient amount) => some (.payout recipient amount)
  | _ => none

/-- Acts of a history, newest first. -/
def acts (history : List Event) : List Act := history.filterMap Event.act

structure Ballots where
  blockCountVote : Table PeerId Nat
  feeVote : Table PeerId StoredFeeVote
  userOpConfirmedVote : Table (Hash ×ₗ PeerId) UserOpConfirmedObservation
  blockHashRing : Table Nat Hash
  blockHashVote : Table PeerId BlockHashObservation
  recoverResidualVote : Table (EvmAddress ×ₗ PeerId) Nat
  withdrawFeesVote : Table PeerId WithdrawFeesVote
  acts : List Act

/-- The ballots of a database. -/
def Db.ballots (db : Db) : Ballots where
  blockCountVote := db.blockCountVote
  feeVote := db.feeVote
  userOpConfirmedVote := db.userOpConfirmedVote
  blockHashRing := db.blockHashRing
  blockHashVote := db.blockHashVote
  recoverResidualVote := db.recoverResidualVote
  withdrawFeesVote := db.withdrawFeesVote
  acts := FedimintUsdt.acts db.history

/-- A settlement only clears votes. -/
structure Ballots.Clears (b b' : Ballots) : Prop where
  blockCountVote : b'.blockCountVote = b.blockCountVote
  feeVote : b'.feeVote = b.feeVote
  userOpConfirmedVote : b'.userOpConfirmedVote.Within b.userOpConfirmedVote
  blockHashRing : b'.blockHashRing = b.blockHashRing
  blockHashVote : b'.blockHashVote = b.blockHashVote
  recoverResidualVote : b'.recoverResidualVote.Within b.recoverResidualVote
  withdrawFeesVote : b'.withdrawFeesVote.Within b.withdrawFeesVote
  acts : b'.acts = b.acts

theorem Ballots.Clears.of_eq {b b' : Ballots} (h : b' = b) : b.Clears b' := by
  subst h
  exact ⟨rfl, rfl, .refl _, rfl, rfl, .refl _, .refl _, rfl⟩

theorem Ballots.Clears.trans {b b₁ b' : Ballots} (h : b.Clears b₁) (h' : b₁.Clears b') :
    b.Clears b' where
  blockCountVote := h'.blockCountVote.trans h.blockCountVote
  feeVote := h'.feeVote.trans h.feeVote
  userOpConfirmedVote := h'.userOpConfirmedVote.trans h.userOpConfirmedVote
  blockHashRing := h'.blockHashRing.trans h.blockHashRing
  blockHashVote := h'.blockHashVote.trans h.blockHashVote
  recoverResidualVote := h'.recoverResidualVote.trans h.recoverResidualVote
  withdrawFeesVote := h'.withdrawFeesVote.trans h.withdrawFeesVote
  acts := h'.acts.trans h.acts

variable {u : Usdt} {db db' : Db}

/-! ## What leaves the ballots alone -/

@[simp] theorem ballots_startSession (db : Db) (purpose : SigningPurpose) (digest : Hash)
    (attempt : Nat) : (u.startSession db purpose digest attempt).ballots = db.ballots := by
  unfold Usdt.startSession
  dsimp only
  split <;> rfl

@[simp] theorem ballots_startOpSession (db : Db) (h : Hash) :
    (u.startOpSession db h).ballots = db.ballots :=
  ballots_startSession _ _ _ _

theorem ballots_removeSigningSessionsForOp (db : Db) (h : Hash) :
    (removeSigningSessionsForOp db h).ballots = db.ballots := by
  unfold removeSigningSessionsForOp
  dsimp only
  generalize (db.signingSession.rows.filter _) = sessions
  induction sessions generalizing db with
  | nil => rfl
  | cons r rest ih => rw [List.foldl_cons, ih]; rfl

@[simp] theorem ballots_maybeTriggerSweep (db : Db) (a : EvmAddress) :
    (u.maybeTriggerSweep db a).ballots = db.ballots := by
  unfold Usdt.maybeTriggerSweep
  dsimp only
  repeat' split
  all_goals first | rfl | rw [ballots_startOpSession]; rfl

@[simp] theorem ballots_accelerateSweeps (db : Db) :
    (u.accelerateSweepsForWithdrawals db).ballots = db.ballots := by
  unfold Usdt.accelerateSweepsForWithdrawals
  generalize db.depositRecord.rows = rows
  induction rows generalizing db with
  | nil => rfl
  | cons r rest ih =>
    rw [List.foldl_cons, ih]
    split
    · exact ballots_maybeTriggerSweep db r.1
    · rfl

@[simp] theorem ballots_maybeTriggerWithdrawalBatch (db : Db) :
    (u.maybeTriggerWithdrawalBatch db).ballots = db.ballots := by
  unfold Usdt.maybeTriggerWithdrawalBatch
  dsimp only
  repeat' split
  · rfl
  · rfl
  · rfl
  · exact ballots_accelerateSweeps db
  · unfold Usdt.buildAndEnqueueWithdrawalBatch
    dsimp only
    rw [ballots_startOpSession]
    rfl

/-! ## Settlement -/

theorem clears_removeConfirmedVotes (db : Db) (h : Hash) :
    db.ballots.Clears (db.removeConfirmedVotes h).ballots :=
  { Ballots.Clears.of_eq (b := db.ballots) rfl with
    userOpConfirmedVote := Table.within_eraseWhere _ _ }

theorem clears_removeSubmitted_foldl (rows : List (Hash × SubmittedUserOp)) (db : Db) :
    db.ballots.Clears (rows.foldl (fun db r => db.removeSubmitted r.1) db).ballots := by
  induction rows generalizing db with
  | nil => exact .of_eq rfl
  | cons r rest ih =>
    rw [List.foldl_cons]
    exact (clears_removeConfirmedVotes { db with
      submittedUserOp := db.submittedUserOp.erase r.1 } r.1).trans (ih _)

theorem ballots_removePending_foldl (rows : List (Hash × PendingUserOp)) (db : Db) :
    (rows.foldl (fun db r => db.removePending r.1) db).ballots = db.ballots := by
  induction rows generalizing db with
  | nil => rfl
  | cons r rest ih =>
    rw [List.foldl_cons, ih]
    exact ballots_removeSigningSessionsForOp _ _

theorem clears_purgeUserOpNonceChain (db : Db) (sender : EvmAddress) (nonce : Nat) (h : Hash) :
    db.ballots.Clears (purgeUserOpNonceChain db sender nonce h).ballots := by
  unfold purgeUserOpNonceChain
  dsimp only
  rw [ballots_removePending_foldl]
  exact clears_removeSubmitted_foldl _ _

theorem ballots_settleSweep (db : Db) (a : EvmAddress) (success : Bool) (swept : UsdtAmount) :
    (u.settleSweep db a success swept).ballots = db.ballots := by
  unfold Usdt.settleSweep
  dsimp only
  repeat' split
  all_goals rfl

theorem ballots_createWithdrawalRefund_foldl (outpoints : List OutPoint) (reason : String)
    (db : Db) :
    (outpoints.foldl (fun db o => u.createWithdrawalRefund db o reason) db).ballots =
      db.ballots := by
  induction outpoints generalizing db with
  | nil => rfl
  | cons o rest ih =>
    rw [List.foldl_cons, ih]
    unfold Usdt.createWithdrawalRefund
    split <;> rfl

theorem ballots_applyWithdrawConfirmed (db : Db) (outpoints : List OutPoint)
    (obs : UserOpConfirmedObservation) (swept : UsdtAmount) :
    (u.applyWithdrawConfirmed db outpoints obs swept).ballots = db.ballots := by
  unfold Usdt.applyWithdrawConfirmed
  dsimp only
  split
  · rfl
  split
  · rw [ballots_createWithdrawalRefund_foldl]
    rfl
  · rfl

theorem clears_settleRecovery (db : Db) (a : EvmAddress) :
    db.ballots.Clears (Usdt.settleRecovery db a).ballots := by
  have hsame : db.ballots.Clears { db.ballots with
      recoverResidualVote := db.recoverResidualVote.eraseWhere fun k =>
        decide ((ofLex k).1 = a) } :=
    { Ballots.Clears.of_eq (b := db.ballots) rfl with
      recoverResidualVote := Table.within_eraseWhere _ _ }
  unfold Usdt.settleRecovery
  dsimp only
  split <;> exact hsame

/-- Settling by purpose clears at most the votes that asked for the operation. -/
theorem clears_settle (db : Db) (s : SubmittedUserOp) (obs : UserOpConfirmedObservation)
    (swept : UsdtAmount) : db.ballots.Clears (u.settle db s obs swept).ballots := by
  unfold Usdt.settle
  split
  · exact .of_eq (ballots_settleSweep _ _ _ _)
  · exact .of_eq (ballots_applyWithdrawConfirmed _ _ _ _)
  · exact { Ballots.Clears.of_eq (b := db.ballots) rfl with
      withdrawFeesVote := Table.within_empty _ }
  · exact clears_settleRecovery db _

/-- What an agreed confirmation does to the ballots: nothing, or it settles the operation. -/
theorem applyUserOpConfirmed_ballots {h : Hash} {obs : UserOpConfirmedObservation}
    {s : SubmittedUserOp} (hs : db.submittedUserOp.get? h = some s) :
    u.applyUserOpConfirmed db h obs = db ∨
      Ballots.Clears { db.ballots with
        acts := .settled s.signed.unsigned obs.success :: db.ballots.acts }
        (u.applyUserOpConfirmed db h obs).ballots := by
  unfold Usdt.applyUserOpConfirmed
  rw [hs]
  dsimp only
  split
  · exact .inl rfl
  rename_i swept heff
  refine .inr ?_
  have hsettled := (clears_settle (u := u)
    (db.record (.userOpConfirmed s.signed.unsigned s.purpose obs.success swept)) s obs swept).trans
    (clears_removeConfirmedVotes
      { u.settle (db.record (.userOpConfirmed s.signed.unsigned s.purpose obs.success swept)) s obs
          swept with
        submittedUserOp := (u.settle (db.record (.userOpConfirmed s.signed.unsigned s.purpose
          obs.success swept)) s obs swept).submittedUserOp.erase h } h)
  have hpurged := hsettled.trans (clears_purgeUserOpNonceChain _ s.signed.unsigned.sender
    s.signed.unsigned.nonce h)
  split
  · exact hpurged
  · rw [ballots_maybeTriggerSweep]
    exact hpurged

/-! ## Tallies that enqueue an operation -/

theorem agreedFeeWithdrawal_votes {v : WithdrawFeesVote} (h : u.agreedFeeWithdrawal db = some v) :
    u.numPeers.threshold ≤ db.withdrawFeesVote.values.count v := by
  simp only [Usdt.agreedFeeWithdrawal] at h
  simpa using List.find?_some h

theorem maybeTriggerFeeWithdrawal_ballots (db : Db) :
    (u.maybeTriggerFeeWithdrawal db).ballots = db.ballots ∨
      ∃ v, u.numPeers.threshold ≤ db.withdrawFeesVote.values.count v ∧
        (u.maybeTriggerFeeWithdrawal db).ballots =
          { db.ballots with acts := .payout v.recipient v.amount :: db.ballots.acts } := by
  unfold Usdt.maybeTriggerFeeWithdrawal
  split
  · exact .inl rfl
  split
  · exact .inl rfl
  rename_i v hv
  dsimp only
  split
  · exact .inl rfl
  split
  · exact .inl rfl
  split
  · exact .inl rfl
  refine .inr ⟨v, agreedFeeWithdrawal_votes hv, ?_⟩
  rw [ballots_startOpSession]
  rfl

/-- The price of a new operation is capped, so the cost of a recovery does not saturate and is
covered with its margin. -/
theorem recovery_need (g : GasBounds) (price : Option Nat) (margin : Nat) :
    GasBounds.RECOVER_RESIDUAL_GAS_UNITS * (g.withMedianFees price).maxFeePerGas ≤
      satAdd128 (satMul128 GasBounds.RECOVER_RESIDUAL_GAS_UNITS
        (g.withMedianFees price).maxFeePerGas) margin := by
  have hle : (g.withMedianFees price).maxFeePerGas ≤ GasBounds.OP_FEE_CEILING_WEI :=
    Nat.min_le_right _ _
  have hunits : GasBounds.RECOVER_RESIDUAL_GAS_UNITS = 260000 := rfl
  unfold GasBounds.OP_FEE_CEILING_WEI at hle
  unfold satAdd128 satMul128 U128_MAX
  rw [hunits]
  omega

/-- What a recovery withdraws and what it may cost are covered by the agreed residual. -/
theorem maybeTriggerResidualRecovery_ballots (db : Db) (a : EvmAddress) :
    (u.maybeTriggerResidualRecovery db a).ballots = db.ballots ∨
      ∃ wei nonce g, u.numPeers.threshold ≤ (Usdt.residualVotes db a).length ∧
        wei + GasBounds.RECOVER_RESIDUAL_GAS_UNITS * g.maxFeePerGas ≤
          sortedAt ((Usdt.residualVotes db a).length / 2) (Usdt.residualVotes db a) ∧
        (u.maybeTriggerResidualRecovery db a).ballots =
          { db.ballots with
            acts := .recovery a (u.buildRecoverResidualUserop a wei nonce g) ::
              db.ballots.acts } := by
  unfold Usdt.maybeTriggerResidualRecovery
  split
  · exact .inl rfl
  split
  · exact .inl rfl
  split
  · exact .inl rfl
  split
  · exact .inl rfl
  rename_i record hrecord
  split
  · exact .inl rfl
  dsimp only
  split
  · exact .inl rfl
  rename_i hquorum
  split
  · exact .inl rfl
  rename_i median hmedian
  split
  · exact .inl rfl
  rename_i hneed
  split
  · exact .inl rfl
  split
  · exact .inl rfl
  have hcost := recovery_need GasBounds.RECOVER_RESIDUAL_DEVNET (some median.maxFeePerGasWei)
    (satMul128 (satMul128 GasBounds.RECOVER_RESIDUAL_GAS_UNITS
      (GasBounds.RECOVER_RESIDUAL_DEVNET.withMedianFees
        (some median.maxFeePerGasWei)).maxFeePerGas) RESIDUAL_RECOVERY_NEED_MARGIN_PERCENT / 100)
  refine .inr ⟨sortedAt ((Usdt.residualVotes db a).length / 2) (Usdt.residualVotes db a) - _,
    record.nonce, _, Nat.le_of_not_lt hquorum, ?_, (ballots_startOpSession _ _).trans rfl⟩
  omega

/-! ## Inversion -/

/-- The ballots after an accepted item. -/
inductive Casts (u : Usdt) (db : Db) : Item → Ballots → Prop
  | unchanged {item : Item} : Casts u db item db.ballots
  | blockCount {vote : Nat} {p : PeerId} (hmore : (db.blockCountVote.get? p).getD 0 < vote) :
      Casts u db (.consensus (.blockCount vote) p)
        { db.ballots with blockCountVote := db.blockCountVote.insert p vote }
  | feeVote {vote : FeeVote} {p : PeerId} :
      Casts u db (.consensus (.feeVote vote) p)
        { db.ballots with feeVote := db.feeVote.insert p ⟨vote, u.consensusBlockCount db⟩ }
  | blockHash {obs : BlockHashObservation} {p : PeerId} :
      Casts u db (.consensus (.blockHash obs) p)
        { db.ballots with blockHashVote := db.blockHashVote.insert p obs }
  | anchor {obs : BlockHashObservation} {p : PeerId}
      (hdeep : obs.height ≤ u.consensusBlockCount db - u.cfg.confirmationDepth)
      (hfresh : u.consensusBlockCount db - obs.height ≤
        u.cfg.confirmationDepth + DEPOSIT_VOTE_MAX_AGE_BLOCKS)
      (hvotes : u.numPeers.threshold ≤ (db.blockHashVote.insert p obs).values.count obs) :
      Casts u db (.consensus (.blockHash obs) p)
        { db.ballots with
          blockHashVote := db.blockHashVote.insert p obs
          blockHashRing := (writeBlockHashRing db obs.height obs.blockHash).blockHashRing }
  | confirm {h : Hash} {obs : UserOpConfirmedObservation} {p : PeerId} :
      Casts u db (.consensus (.userOpConfirmed h obs) p)
        { db.ballots with
          userOpConfirmedVote := db.userOpConfirmedVote.insert (toLex (h, p)) obs }
  | settle {h : Hash} {obs : UserOpConfirmedObservation} {p : PeerId} {s : SubmittedUserOp}
      {b : Ballots} (hs : db.submittedUserOp.get? h = some s)
      (hvotes : u.numPeers.threshold ≤ Usdt.agreeingVotes { db with
        userOpConfirmedVote := db.userOpConfirmedVote.insert (toLex (h, p)) obs } h obs)
      (hclears : Ballots.Clears { db.ballots with
        userOpConfirmedVote := db.userOpConfirmedVote.insert (toLex (h, p)) obs
        acts := .settled s.signed.unsigned obs.success :: db.ballots.acts } b) :
      Casts u db (.consensus (.userOpConfirmed h obs) p) b
  | residual {a : EvmAddress} {wei : Nat} {p : PeerId} :
      Casts u db (.consensus (.recoverResidual a wei) p)
        { db.ballots with recoverResidualVote := db.recoverResidualVote.insert (toLex (a, p)) wei }
  | recover {a : EvmAddress} {wei amount nonce : Nat} {p : PeerId} {g : GasBounds}
      {votes : List Nat}
      (hvotes : votes = Usdt.residualVotes { db with
        recoverResidualVote := db.recoverResidualVote.insert (toLex (a, p)) wei } a)
      (hquorum : u.numPeers.threshold ≤ votes.length)
      (hcovered : amount + GasBounds.RECOVER_RESIDUAL_GAS_UNITS * g.maxFeePerGas ≤
        sortedAt (votes.length / 2) votes) :
      Casts u db (.consensus (.recoverResidual a wei) p)
        { db.ballots with
          recoverResidualVote := db.recoverResidualVote.insert (toLex (a, p)) wei
          acts := .recovery a (u.buildRecoverResidualUserop a amount nonce g) :: db.ballots.acts }
  | fees {vote : WithdrawFeesVote} {p : PeerId} :
      Casts u db (.consensus (.withdrawFeesVote vote) p)
        { db.ballots with withdrawFeesVote := db.withdrawFeesVote.insert p vote }
  | payout {vote v : WithdrawFeesVote} {p : PeerId}
      (hvotes : u.numPeers.threshold ≤ (db.withdrawFeesVote.insert p vote).values.count v) :
      Casts u db (.consensus (.withdrawFeesVote vote) p)
        { db.ballots with
          withdrawFeesVote := db.withdrawFeesVote.insert p vote
          acts := .payout v.recipient v.amount :: db.ballots.acts }

theorem Casts.of_eq {item : Item} (h : db'.ballots = db.ballots) : Casts u db item db'.ballots :=
  h ▸ .unchanged

theorem processInput_casts {input : UsdtInput} {m : InputMeta}
    (hok : u.processInput db input = .ok (m, db')) :
    Casts u db (.input input) db'.ballots := by
  cases input with
  | refundV0 o =>
    obtain ⟨f, -, -, rfl⟩ := claimRefund_ok hok
    exact .unchanged
  | depositProofV0 pk proof fee =>
    obtain ⟨_, _, _, _, _, _, -, -, -, -, -, -, -, -, -, rfl⟩ := processDepositProof_ok hok
    exact .of_eq (ballots_maybeTriggerSweep _ _)
  | default _ _ => cases hok

theorem processOutput_casts {output : UsdtOutput} {o : OutPoint} {amounts : TransactionItemAmounts}
    (hok : u.processOutput db output o = .ok (amounts, db')) :
    Casts u db (.output output o) db'.ballots := by
  obtain ⟨w, _, _, -, -, -, -, -, rfl⟩ := processOutput_ok hok
  exact .unchanged

theorem processUserOpConfirmed_casts {h : Hash} {obs : UserOpConfirmedObservation} {p : PeerId}
    (hok : u.processUserOpConfirmed db h obs p = .ok db') :
    Casts u db (.consensus (.userOpConfirmed h obs) p) db'.ballots := by
  obtain ⟨s, voted, hs, -, rfl, rfl | ⟨hvotes, rfl⟩⟩ := processUserOpConfirmed_ok hok
  · exact .confirm
  · have hsplit := @applyUserOpConfirmed_ballots u { db with
      userOpConfirmedVote := db.userOpConfirmedVote.insert (toLex (h, p)) obs } h obs s hs
    rcases hsplit with hsame | hclears
    · rw [hsame]
      exact .confirm
    · exact .settle hs hvotes hclears

theorem processBlockHash_casts {obs : BlockHashObservation} {p : PeerId}
    (hok : u.processBlockHash db obs p = .ok db') :
    Casts u db (.consensus (.blockHash obs) p) db'.ballots := by
  obtain ⟨hdeep, hfresh, -, voted, rfl, rfl | ⟨hvotes, rfl⟩⟩ := processBlockHash_ok hok
  · exact .blockHash
  · exact .anchor hdeep hfresh hvotes

theorem processRecoverResidual_casts {a : EvmAddress} {wei : Nat} {p : PeerId}
    (hok : u.processRecoverResidual db a wei p = .ok db') :
    Casts u db (.consensus (.recoverResidual a wei) p) db'.ballots := by
  obtain ⟨-, rfl⟩ := processRecoverResidual_ok hok
  rcases maybeTriggerResidualRecovery_ballots (u := u) { db with
    recoverResidualVote := db.recoverResidualVote.insert (toLex (a, p)) wei } a with
    hsame | ⟨amount, nonce, g, hquorum, hcovered, hacts⟩
  · rw [hsame]
    exact .residual
  · rw [hacts]
    exact .recover rfl hquorum hcovered

theorem processWithdrawFeesVote_casts {vote : WithdrawFeesVote} {p : PeerId}
    (hok : u.processWithdrawFeesVote db vote p = .ok db') :
    Casts u db (.consensus (.withdrawFeesVote vote) p) db'.ballots := by
  obtain ⟨-, rfl⟩ := processWithdrawFeesVote_ok hok
  rcases maybeTriggerFeeWithdrawal_ballots (u := u) { db with
    withdrawFeesVote := db.withdrawFeesVote.insert p vote } with hsame | ⟨v, hvotes, hacts⟩
  · rw [hsame]
    exact .fees
  · rw [hacts]
    exact .payout hvotes

/-- A replacement is of a batch or of a sweep. -/
theorem processReplaceUserOp_ballots {h : Hash} (hok : u.processReplaceUserOp db h = .ok db') :
    db'.ballots = db.ballots := by
  obtain ⟨s, median, -, -, -, op, -, hrefusal, -, rfl⟩ := processReplaceUserOp_ok hok
  unfold Usdt.enqueueReplacement
  dsimp only
  rw [ballots_startOpSession]
  cases hp : s.purpose with
  | withdraw outpoints => rfl
  | deployAndSweep a => rfl
  | recoverResidual a =>
    simp only [Usdt.replacementRefusal, hp] at hrefusal
    cases hrefusal
  | withdrawFees recipient a =>
    simp only [Usdt.replacementRefusal, hp] at hrefusal
    cases hrefusal

theorem processConsensusItem_casts {item : UsdtConsensusItem} {p : PeerId}
    (hok : u.processConsensusItem db item p = .ok db') :
    Casts u db (.consensus item p) db'.ballots := by
  cases item with
  | blockCount vote =>
    obtain ⟨hmore, rfl⟩ := processBlockCount_ok hok
    rw [ballots_maybeTriggerWithdrawalBatch]
    exact .blockCount hmore
  | mpcRound item =>
    obtain ⟨session, chunks, -, -, -, rfl | ⟨block, rfl⟩⟩ := processMpcRound_ok hok
    · exact .unchanged
    · exact .unchanged
  | mpcSignature id signature =>
    obtain ⟨session, pending, ethSig, -, -, -, -, -, -, rfl⟩ := processMpcSignature_ok hok
    exact .unchanged
  | rotateSigning id =>
    obtain ⟨session, -, -, rfl⟩ := processRotateSigning_ok hok
    rw [ballots_startSession]
    exact .unchanged
  | userOpConfirmed h obs => exact processUserOpConfirmed_casts hok
  | feeVote vote =>
    obtain ⟨-, -, rfl⟩ := processFeeVote_ok hok
    exact .feeVote
  | bootstrapObservation obs =>
    obtain ⟨-, ready, rfl⟩ := processBootstrapObservation_ok hok
    exact .unchanged
  | replaceUserOp h => exact .of_eq (processReplaceUserOp_ballots hok)
  | blockHash obs => exact processBlockHash_casts hok
  | recoverResidual a wei => exact processRecoverResidual_casts hok
  | withdrawFeesVote vote => exact processWithdrawFeesVote_casts hok
  | default _ _ => cases hok

/-- **What an accepted item does to the ballots.** -/
theorem Accepts.casts {item : Item} {answer : Answer} (h : Accepts u db item answer db') :
    Casts u db item db'.ballots := by
  unfold Accepts Steps Usdt.step at h
  split at h
  · split at h
    · rename_i m db'' hok
      obtain ⟨-, rfl⟩ := Prod.mk.inj (Option.some.inj h)
      exact processInput_casts hok
    · cases h
  · split at h
    · rename_i amounts db'' hok
      obtain ⟨-, rfl⟩ := Prod.mk.inj (Option.some.inj h)
      exact processOutput_casts hok
    · cases h
  · split at h
    · rename_i db'' hok
      obtain ⟨-, rfl⟩ := Prod.mk.inj (Option.some.inj h)
      exact processConsensusItem_casts hok
    · cases h

end Experimint.FedimintUsdt
