import Experimint.Usdt.Rounds

/-!
# Signing sessions are started once

The id of a session becomes the execution id of the signing protocol, which must never be used for
two executions.  A session is started when its operation is enqueued, or when the attempt before it
is rotated away, and all sessions of an operation are dropped together.  Since no operation is
enqueued twice, an id that was dropped does not come back.

* `DocketStep` — what any item can do to the sessions and to the operations enqueued.
* `Accepts.docketSteps` — every accepted item is a sequence of such steps.
* `session_once` — an id belongs to one session of one operation, from its start to its end.
-/

set_option autoImplicit false

namespace Experimint.FedimintUsdt

/-! ## The docket -/

/-- Sessions, and the operations that were ever enqueued, newest first. -/
structure Docket where
  sessions : Table SigningSessionId SigningSession
  enqueued : List Hash

def Db.docket (db : Db) : Docket := ⟨db.signingSession, (enqueued db.history).map Prod.fst⟩

/-- What a session keeps; its round only grows. -/
structure SigningSession.Same (t t' : SigningSession) : Prop where
  purpose : t'.purpose = t.purpose
  digest : t'.digest = t.digest
  signers : t'.signers = t.signers
  attempt : t'.attempt = t.attempt
  round : t.round ≤ t'.round

theorem SigningSession.Same.rfl (t : SigningSession) : t.Same t :=
  ⟨.refl _, .refl _, .refl _, .refl _, Nat.le_refl _⟩

theorem SigningSession.Same.trans {t t₁ t' : SigningSession} (h : t.Same t₁) (h' : t₁.Same t') :
    t.Same t' :=
  ⟨h'.purpose.trans h.purpose, h'.digest.trans h.digest, h'.signers.trans h.signers,
    h'.attempt.trans h.attempt, h.round.trans h'.round⟩

/-- Starts an attempt unless it exists. -/
def Docket.start (u : Usdt) (d : Docket) (t : SigningSession) : Docket :=
  if d.sessions.contains (u.evm.signingSessionId t.digest t.attempt) then d
  else { d with sessions := d.sessions.insert (u.evm.signingSessionId t.digest t.attempt) t }

inductive DocketStep (u : Usdt) : Docket → Docket → Prop
  | write {d : Docket} {id : SigningSessionId} {t t' : SigningSession}
      (hrow : d.sessions.get? id = some t) (hsame : t.Same t') :
      DocketStep u d { d with sessions := d.sessions.insert id t' }
  | enqueue {d : Docket} {h : Hash} {t : SigningSession} (hpurpose : t.purpose = .userOp h)
      (hsigners : t.signers = u.signerSubset t.digest t.attempt)
      (hdigest : t.digest = u.evm.ethSignedMessageHash h) :
      DocketStep u d ({ d with enqueued := h :: d.enqueued }.start u t)
  | rotate {d : Docket} {id : SigningSessionId} {t t' : SigningSession}
      (hrow : d.sessions.get? id = some t) (hpurpose : t'.purpose = t.purpose)
      (hdigest : t'.digest = t.digest)
      (hsigners : t'.signers = u.signerSubset t'.digest t'.attempt) : DocketStep u d (d.start u t')
  | purge {d : Docket} {sessions : Table SigningSessionId SigningSession} (h : Hash)
      (hkept : ∀ id t, sessions.get? id = some t ↔
        d.sessions.get? id = some t ∧ t.purpose ≠ .userOp h) :
      DocketStep u d { d with sessions := sessions }

/-- What an item does: some steps in a row. -/
abbrev DocketSteps (u : Usdt) : Docket → Docket → Prop := Relation.ReflTransGen (DocketStep u)

variable {u : Usdt} {db db' : Db}

theorem DocketSteps.of_eq {d d' : Docket} (h : d' = d) : DocketSteps u d d' := by
  rw [h]

/-! ## Sessions started and dropped -/

theorem docket_startSession (db : Db) (purpose : SigningPurpose) (digest : Hash) (attempt : Nat) :
    (u.startSession db purpose digest attempt).docket = db.docket.start u
      ⟨purpose, digest, u.signerSubset digest attempt, 0, .inProgress, attempt,
        u.consensusBlockCount db⟩ := by
  unfold Usdt.startSession Docket.start
  dsimp only
  by_cases hfound : db.signingSession.contains (u.evm.signingSessionId digest attempt) = true
  · rw [if_pos hfound, if_pos (show db.docket.sessions.contains _ = true from hfound)]
  · rw [if_neg hfound, if_neg (show ¬ db.docket.sessions.contains _ = true from hfound)]
    rfl

theorem docket_enqueue {db₁ : Db} {h : Hash} (hsessions : db₁.signingSession = db.signingSession)
    (henqueued : db₁.docket.enqueued = h :: db.docket.enqueued) :
    DocketSteps u db.docket (u.startOpSession db₁ h).docket := by
  have hdocket : db₁.docket = { db.docket with enqueued := h :: db.docket.enqueued } := by
    rw [← henqueued]
    show (⟨db₁.signingSession, _⟩ : Docket) = ⟨db.signingSession, _⟩
    rw [hsessions]
    rfl
  rw [Usdt.startOpSession, docket_startSession, hdocket]
  exact .single (.enqueue rfl rfl rfl)

/-- The sessions of an operation are dropped together. -/
theorem docket_removeSigningSessionsForOp (db : Db) (h : Hash) :
    DocketStep u db.docket (removeSigningSessionsForOp db h).docket := by
  have hfold : ∀ (rows : List (SigningSessionId × SigningSession)) (db : Db),
      let db' := rows.foldl (fun db r => { db.removeChunks r.1 with
        signingSession := db.signingSession.erase r.1 }) db
      db'.history = db.history ∧ ∀ id t, db'.signingSession.get? id = some t ↔
        db.signingSession.get? id = some t ∧ id ∉ rows.map Prod.fst := by
    intro rows
    induction rows with
    | nil => simp
    | cons r rest ih =>
      intro db
      obtain ⟨hhistory, hrows⟩ := ih { db.removeChunks r.1 with
        signingSession := db.signingSession.erase r.1 }
      refine ⟨hhistory, fun id t => ?_⟩
      rw [List.foldl_cons, hrows, List.map_cons, List.mem_cons]
      dsimp only
      rw [Table.get?_erase]
      by_cases hid : id = r.1
      · simp [hid]
      · simp [hid]
  obtain ⟨hhistory, hrows⟩ := hfold
    (db.signingSession.rows.filter fun r => decide (r.2.purpose = .userOp h)) db
  have hdocket : (removeSigningSessionsForOp db h).docket =
      { db.docket with sessions := (removeSigningSessionsForOp db h).signingSession } := by
    unfold Db.docket
    rw [show (removeSigningSessionsForOp db h).history = db.history from hhistory]
  rw [hdocket]
  refine .purge h fun id t => (hrows id t).trans ?_
  refine and_congr_right fun hrow => not_congr ?_
  rw [List.mem_map]
  constructor
  · rintro ⟨⟨id', t'⟩, hmem, rfl⟩
    obtain ⟨hmem, hpurpose⟩ := List.mem_filter.1 hmem
    cases hrow.symm.trans (Table.mem_rows.1 hmem)
    exact of_decide_eq_true hpurpose
  · intro hpurpose
    exact ⟨(id, t), List.mem_filter.2 ⟨Table.mem_rows.2 hrow, decide_eq_true hpurpose⟩, rfl⟩

theorem docket_removeSubmitted_foldl (rows : List (Hash × SubmittedUserOp)) (db : Db) :
    (rows.foldl (fun db r => db.removeSubmitted r.1) db).docket = db.docket := by
  induction rows generalizing db with
  | nil => rfl
  | cons r rest ih =>
    rw [List.foldl_cons, ih]
    rfl

theorem docket_purgeUserOpNonceChain (db : Db) (sender : EvmAddress) (nonce : Nat) (h : Hash) :
    DocketSteps u db.docket (purgeUserOpNonceChain db sender nonce h).docket := by
  have hpending : ∀ (rows : List (Hash × PendingUserOp)) (db : Db),
      DocketSteps u db.docket (rows.foldl (fun db r => db.removePending r.1) db).docket := by
    intro rows
    induction rows with
    | nil => exact fun db => .refl
    | cons r rest ih =>
      intro db
      rw [List.foldl_cons]
      refine Relation.ReflTransGen.trans ?_ (ih _)
      exact .single (docket_removeSigningSessionsForOp { db with
        pendingUserOp := db.pendingUserOp.erase r.1 } r.1)
  exact (DocketSteps.of_eq (docket_removeSubmitted_foldl _ db)).trans (hpending _ _)

/-! ## Triggers -/

theorem docket_maybeTriggerSweep (db : Db) (a : EvmAddress) :
    DocketSteps u db.docket (u.maybeTriggerSweep db a).docket := by
  rcases maybeTriggerSweep_cases u db a with hsame | ⟨_, _, _, -, -, -, -, -, -, -, heq⟩
  · exact .of_eq (by rw [hsame])
  · rw [heq]
    refine docket_enqueue ?_ ?_ <;> rfl

theorem docket_accelerateSweeps (db : Db) :
    DocketSteps u db.docket (u.accelerateSweepsForWithdrawals db).docket := by
  unfold Usdt.accelerateSweepsForWithdrawals
  generalize db.depositRecord.rows = rows
  induction rows generalizing db with
  | nil => exact .refl
  | cons r rest ih =>
    rw [List.foldl_cons]
    refine Relation.ReflTransGen.trans ?_ (ih _)
    split
    · exact docket_maybeTriggerSweep db r.1
    · exact .refl

theorem docket_maybeTriggerWithdrawalBatch (db : Db) :
    DocketSteps u db.docket (u.maybeTriggerWithdrawalBatch db).docket := by
  rcases maybeTriggerWithdrawalBatch_cases u db with hsame | hsweeps | ⟨ws, -, -, -, heq⟩
  · exact .of_eq (by rw [hsame])
  · rw [hsweeps]
    exact docket_accelerateSweeps db
  · rw [heq]
    refine docket_enqueue ?_ ?_ <;> rfl

theorem docket_maybeTriggerResidualRecovery (db : Db) (a : EvmAddress) :
    DocketSteps u db.docket (u.maybeTriggerResidualRecovery db a).docket := by
  rcases maybeTriggerResidualRecovery_cases u db a with hsame | ⟨_, _, _, _, -, -, -, -, -, -, heq⟩
  · exact .of_eq (by rw [hsame])
  · rw [heq]
    refine docket_enqueue ?_ ?_ <;> rfl

theorem docket_maybeTriggerFeeWithdrawal (db : Db) :
    DocketSteps u db.docket (u.maybeTriggerFeeWithdrawal db).docket := by
  rcases maybeTriggerFeeWithdrawal_cases u db with hsame | ⟨_, _, -, -, -, -, -, heq⟩
  · exact .of_eq (by rw [hsame])
  · rw [heq]
    refine docket_enqueue ?_ ?_ <;> rfl

/-! ## Items -/

theorem enqueued_refund_foldl (outpoints : List OutPoint) (reason : String) (db : Db) :
    enqueued (outpoints.foldl (fun db o => u.createWithdrawalRefund db o reason) db).history =
      enqueued db.history := by
  induction outpoints generalizing db with
  | nil => rfl
  | cons o rest ih =>
    rw [List.foldl_cons, ih]
    unfold Usdt.createWithdrawalRefund
    split <;> rfl

/-- Settlement enqueues nothing. -/
theorem enqueued_settle (db : Db) (s : SubmittedUserOp) (obs : UserOpConfirmedObservation)
    (swept : UsdtAmount) : enqueued (u.settle db s obs swept).history = enqueued db.history := by
  unfold Usdt.settle
  split
  · unfold Usdt.settleSweep
    dsimp only
    split <;> split <;> rfl
  · unfold Usdt.applyWithdrawConfirmed
    dsimp only
    split
    · rfl
    split
    · exact enqueued_refund_foldl _ _ _
    · rfl
  · rfl
  · unfold Usdt.settleRecovery
    dsimp only
    split <;> rfl

theorem docket_applyUserOpConfirmed (db : Db) (h : Hash) (obs : UserOpConfirmedObservation) :
    DocketSteps u db.docket (u.applyUserOpConfirmed db h obs).docket := by
  unfold Usdt.applyUserOpConfirmed
  split
  · exact .refl
  rename_i s _
  split
  · exact .refl
  rename_i swept _
  dsimp only
  have hsettled : ((u.settle (db.record (.userOpConfirmed s.signed.unsigned s.purpose obs.success
      swept)) s obs swept).removeSubmitted h).docket = db.docket := by
    have hsessions := congrArg Signing.sessions (signing_settle (u := u)
      (db.record (.userOpConfirmed s.signed.unsigned s.purpose obs.success swept)) s obs swept)
    have henqueued := congrArg (List.map Prod.fst) (enqueued_settle (u := u)
      (db.record (.userOpConfirmed s.signed.unsigned s.purpose obs.success swept)) s obs swept)
    exact congrArg₂ Docket.mk hsessions henqueued
  have hpurged := (DocketSteps.of_eq (u := u) hsettled).trans
    (docket_purgeUserOpNonceChain _ s.signed.unsigned.sender s.signed.unsigned.nonce h)
  split
  · exact hpurged
  · exact hpurged.trans (docket_maybeTriggerSweep _ _)

theorem docket_processMpcRound {item : MpcRoundItem} {p : PeerId}
    (hok : u.processMpcRound db item p = .ok db') : DocketSteps u db.docket db'.docket := by
  obtain ⟨session, hsession, -, -, -, rfl⟩ := processMpcRound_eq_ok_iff.1 hok
  split
  · exact .single (.write hsession ⟨rfl, rfl, rfl, rfl, Nat.le_succ _⟩)
  · exact .refl

theorem docket_processRotateSigning {id : SigningSessionId}
    (hok : u.processRotateSigning db id = .ok db') : DocketSteps u db.docket db'.docket := by
  obtain ⟨session, hsession, -, rfl⟩ := processRotateSigning_ok hok
  have hfailed : DocketStep u db.docket { db.docket with
      sessions := db.docket.sessions.insert id { session with state := .failed } } :=
    .write hsession ⟨rfl, rfl, rfl, rfl, Nat.le_refl _⟩
  refine .tail (.single hfailed) ?_
  rw [docket_startSession]
  exact .rotate (Table.get?_insert_self _ _ _) rfl rfl rfl

theorem docket_processMpcSignature {id : SigningSessionId} {signature : Bytes}
    (hok : u.processMpcSignature db id signature = .ok db') :
    DocketSteps u db.docket db'.docket := by
  obtain ⟨session, pending, ethSig, hsession, -, -, -, -, -, rfl⟩ := processMpcSignature_ok hok
  exact .single (.write hsession ⟨rfl, rfl, rfl, rfl, Nat.le_refl _⟩)

theorem docket_processReplaceUserOp {h : Hash} (hok : u.processReplaceUserOp db h = .ok db') :
    DocketSteps u db.docket db'.docket := by
  obtain ⟨s, median, -, -, -, op, -, -, -, rfl⟩ := processReplaceUserOp_ok hok
  refine docket_enqueue ?_ ?_
  · cases s.purpose <;> rfl
  · cases s.purpose <;> rfl

theorem docket_processConsensusItem {item : UsdtConsensusItem} {peerId : PeerId}
    (hok : u.processConsensusItem db item peerId = .ok db') :
    DocketSteps u db.docket db'.docket := by
  cases item with
  | mpcRound m => exact docket_processMpcRound hok
  | blockCount vote =>
    obtain ⟨-, rfl⟩ := processBlockCount_ok hok
    exact docket_maybeTriggerWithdrawalBatch { db with
      blockCountVote := db.blockCountVote.insert peerId vote }
  | mpcSignature id signature => exact docket_processMpcSignature hok
  | rotateSigning id => exact docket_processRotateSigning hok
  | userOpConfirmed h obs =>
    obtain ⟨s, voted, -, -, rfl, hdb⟩ := processUserOpConfirmed_ok hok
    rcases hdb with rfl | ⟨-, rfl⟩
    · exact .refl
    · exact docket_applyUserOpConfirmed { db with
        userOpConfirmedVote := db.userOpConfirmedVote.insert (toLex (h, peerId)) obs } h obs
  | feeVote vote =>
    obtain ⟨-, -, rfl⟩ := processFeeVote_ok hok
    exact .refl
  | bootstrapObservation obs =>
    obtain ⟨-, ready, rfl⟩ := processBootstrapObservation_ok hok
    exact .refl
  | replaceUserOp h => exact docket_processReplaceUserOp hok
  | blockHash obs =>
    obtain ⟨-, -, -, _, rfl, rfl | ⟨-, rfl⟩⟩ := processBlockHash_ok hok
    · exact .refl
    · exact .refl
  | recoverResidual a wei =>
    obtain ⟨-, rfl⟩ := processRecoverResidual_ok hok
    exact docket_maybeTriggerResidualRecovery { db with
      recoverResidualVote := db.recoverResidualVote.insert (toLex (a, peerId)) wei } a
  | withdrawFeesVote vote =>
    obtain ⟨-, rfl⟩ := processWithdrawFeesVote_ok hok
    exact docket_maybeTriggerFeeWithdrawal { db with
      withdrawFeesVote := db.withdrawFeesVote.insert peerId vote }
  | default _ _ => cases hok

theorem docket_processInput {input : UsdtInput} {m : InputMeta}
    (hok : u.processInput db input = .ok (m, db')) : DocketSteps u db.docket db'.docket := by
  cases input with
  | refundV0 o =>
    obtain ⟨f, -, -, rfl⟩ := claimRefund_ok hok
    exact .refl
  | depositProofV0 pk proof fee =>
    obtain ⟨_, _, _, _, _, _, -, -, -, -, -, -, -, -, -, rfl⟩ := processDepositProof_ok hok
    refine Relation.ReflTransGen.trans (DocketSteps.of_eq ?_) (docket_maybeTriggerSweep _ _)
    rfl
  | default _ _ => cases hok

theorem docket_processOutput {output : UsdtOutput} {o : OutPoint}
    {amounts : TransactionItemAmounts} (hok : u.processOutput db output o = .ok (amounts, db')) :
    db'.docket = db.docket := by
  obtain ⟨w, _, _, -, -, -, -, -, rfl⟩ := processOutput_ok hok
  rfl

/-- **Every accepted item is a sequence of docket steps.** -/
theorem Accepts.docketSteps {item : Item} {answer : Answer} (h : Accepts u db item answer db') :
    DocketSteps u db.docket db'.docket := by
  cases item with
  | input input =>
    obtain ⟨m, hok⟩ := Accepts.input h
    exact docket_processInput hok
  | output output o =>
    obtain ⟨amounts, hok⟩ := Accepts.output h
    exact .of_eq (docket_processOutput hok)
  | consensus item peerId => exact docket_processConsensusItem (Accepts.consensus h)

/-! ## An id is used once -/

variable {d d' : Docket}

theorem Docket.start_cases (u : Usdt) (d : Docket) (t : SigningSession) :
    d.start u t = d ∨ d.sessions.get? (u.evm.signingSessionId t.digest t.attempt) = none ∧
      d.start u t = { d with
        sessions := d.sessions.insert (u.evm.signingSessionId t.digest t.attempt) t } := by
  unfold Docket.start
  split
  · exact .inl rfl
  · rename_i hnew
    exact .inr ⟨by simpa [Table.contains] using hnew, rfl⟩

theorem Docket.start_enqueued (u : Usdt) (d : Docket) (t : SigningSession) :
    (d.start u t).enqueued = d.enqueued := by
  rcases Docket.start_cases u d t with heq | ⟨-, heq⟩ <;> rw [heq]

theorem DocketStep.grows (h : DocketStep u d d') : d.enqueued <:+ d'.enqueued := by
  cases h with
  | write => exact List.suffix_rfl
  | purge => exact List.suffix_rfl
  | @enqueue h t =>
    have heq := Docket.start_enqueued u { d with enqueued := h :: d.enqueued } t
    exact heq.symm ▸ List.suffix_cons _ _
  | @rotate id t t' => exact (Docket.start_enqueued u d t').symm ▸ List.suffix_rfl

/-- Every session is one of an operation that was enqueued, under the id of its attempt. -/
structure Docketed (u : Usdt) (d : Docket) : Prop where
  listed : ∀ {id t}, d.sessions.get? id = some t → t.purpose.opHash ∈ d.enqueued
  id_eq : ∀ {id t}, d.sessions.get? id = some t → id = u.evm.signingSessionId t.digest t.attempt
  digest_eq : ∀ {id t}, d.sessions.get? id = some t →
    t.digest = u.evm.ethSignedMessageHash t.purpose.opHash
  signers_eq : ∀ {id t}, d.sessions.get? id = some t → t.signers = u.signerSubset t.digest t.attempt

/-- A row that is written keeps this where the row itself does. -/
theorem Docketed.insert (h : Docketed u d) {enqueued : List Hash} {t : SigningSession}
    (hsub : ∀ x ∈ d.enqueued, x ∈ enqueued) (hlisted : t.purpose.opHash ∈ enqueued)
    (hdigest : t.digest = u.evm.ethSignedMessageHash t.purpose.opHash)
    (hsigners : t.signers = u.signerSubset t.digest t.attempt) :
    Docketed u ⟨d.sessions.insert (u.evm.signingSessionId t.digest t.attempt) t, enqueued⟩ := by
  have hcases : ∀ {id t'}, (d.sessions.insert (u.evm.signingSessionId t.digest t.attempt) t).get?
      id = some t' → (id = u.evm.signingSessionId t.digest t.attempt ∧ t' = t) ∨
        d.sessions.get? id = some t' := by
    intro id t' hrow
    rw [Table.get?_insert] at hrow
    split at hrow
    · rename_i hid
      exact .inl ⟨hid.symm, (Option.some.inj hrow).symm⟩
    · exact .inr hrow
  constructor
  · intro id t' hrow
    rcases hcases hrow with ⟨-, rfl⟩ | hold
    · exact hlisted
    · exact hsub _ (h.listed hold)
  · intro id t' hrow
    rcases hcases hrow with ⟨hid, rfl⟩ | hold
    · exact hid
    · exact h.id_eq hold
  · intro id t' hrow
    rcases hcases hrow with ⟨-, rfl⟩ | hold
    · exact hdigest
    · exact h.digest_eq hold
  · intro id t' hrow
    rcases hcases hrow with ⟨-, rfl⟩ | hold
    · exact hsigners
    · exact h.signers_eq hold

theorem DocketStep.docketed (h : DocketStep u d d') (hd : Docketed u d) : Docketed u d' := by
  cases h with
  | @write id t t' hrow hsame =>
    rw [hd.id_eq hrow, ← hsame.digest, ← hsame.attempt]
    refine hd.insert (fun x hx => hx) ?_ ?_ ?_
    · rw [hsame.purpose]
      exact hd.listed hrow
    · rw [hsame.digest, hsame.purpose]
      exact hd.digest_eq hrow
    · rw [hsame.signers, hsame.digest, hsame.attempt]
      exact hd.signers_eq hrow
  | @enqueue h t hpurpose hsigners hdigest =>
    have hop : t.purpose.opHash = h := by rw [hpurpose]; rfl
    rcases Docket.start_cases u { d with enqueued := h :: d.enqueued } t with heq | ⟨-, heq⟩
    · rw [heq]
      exact ⟨fun hrow => List.mem_cons_of_mem _ (hd.listed hrow), hd.id_eq, hd.digest_eq,
        hd.signers_eq⟩
    · rw [heq]
      exact hd.insert (fun x hx => List.mem_cons_of_mem _ hx) (hop ▸ List.mem_cons_self ..)
        (hop ▸ hdigest) hsigners
  | @rotate id t t' hrow hpurpose hdigest hsigners =>
    rcases Docket.start_cases u d t' with heq | ⟨-, heq⟩
    · rw [heq]
      exact hd
    · rw [heq]
      refine hd.insert (fun x hx => hx) ?_ ?_ hsigners
      · rw [hpurpose]
        exact hd.listed hrow
      · rw [hdigest, hpurpose]
        exact hd.digest_eq hrow
  | @purge sessions h hkept =>
    exact ⟨fun hrow => hd.listed ((hkept _ _).1 hrow).1, fun hrow => hd.id_eq ((hkept _ _).1 hrow).1,
      fun hrow => hd.digest_eq ((hkept _ _).1 hrow).1,
      fun hrow => hd.signers_eq ((hkept _ _).1 hrow).1⟩

/-- An operation that has no session left and will get none. -/
structure Spent (h : Hash) (d : Docket) : Prop where
  listed : h ∈ d.enqueued
  gone : ∀ {id t}, d.sessions.get? id = some t → t.purpose ≠ .userOp h

/-- **A step of the docket does not revive an operation**, where none is enqueued twice. -/
theorem DocketStep.spent (h : DocketStep u d d') (hnodup : d'.enqueued.Nodup) {x : Hash}
    (hspent : Spent x d) : Spent x d' := by
  refine ⟨h.grows.mem hspent.listed, ?_⟩
  intro id' t' hrow'
  cases h with
  | @write id t t₁ hrow hsame =>
    rw [Table.get?_insert] at hrow'
    split at hrow'
    · cases hrow'
      rw [hsame.purpose]
      exact hspent.gone hrow
    · exact hspent.gone hrow'
  | @enqueue h t hpurpose hsigners hdigest =>
    rcases Docket.start_cases u { d with enqueued := h :: d.enqueued } t with heq | ⟨-, heq⟩
    · rw [heq] at hrow'
      exact hspent.gone hrow'
    · rw [heq] at hrow' hnodup
      rw [Table.get?_insert] at hrow'
      split at hrow'
      · cases hrow'
        rw [hpurpose]
        intro heq
        cases heq
        exact (List.nodup_cons.1 hnodup).1 hspent.listed
      · exact hspent.gone hrow'
  | @rotate id t t₁ hrow hpurpose hdigest hsigners =>
    rcases Docket.start_cases u d t₁ with heq | ⟨-, heq⟩
    · rw [heq] at hrow'
      exact hspent.gone hrow'
    · rw [heq, Table.get?_insert] at hrow'
      split at hrow'
      · cases hrow'
        rw [hpurpose]
        exact hspent.gone hrow
      · exact hspent.gone hrow'
  | purge h hkept => exact hspent.gone ((hkept _ _).1 hrow').1

/-- A step keeps a session or ends its operation. -/
theorem DocketStep.kept_or_spent (h : DocketStep u d d') (hd : Docketed u d)
    {id : SigningSessionId} {t : SigningSession} (hrow : d.sessions.get? id = some t) :
    (∃ t', d'.sessions.get? id = some t' ∧ t.Same t') ∨ Spent t.purpose.opHash d' := by
  cases h with
  | @write id' t₁ t' hrow' hsame =>
    refine .inl ?_
    dsimp only
    rw [Table.get?_insert]
    split
    · rename_i hid
      subst hid
      cases hrow.symm.trans hrow'
      exact ⟨t', rfl, hsame⟩
    · exact ⟨t, hrow, .rfl t⟩
  | @enqueue h t₁ hpurpose hsigners hdigest =>
    refine .inl ⟨t, ?_, .rfl t⟩
    rcases Docket.start_cases u { d with enqueued := h :: d.enqueued } t₁ with heq | ⟨hnew, heq⟩
    · rw [heq]
      exact hrow
    · rw [heq]
      refine (Table.get?_insert_ne _ _ ?_).trans hrow
      rintro rfl
      cases hnew.symm.trans hrow
  | @rotate id' t₁ t' hrow' hpurpose hdigest hsigners =>
    refine .inl ⟨t, ?_, .rfl t⟩
    rcases Docket.start_cases u d t' with heq | ⟨hnew, heq⟩
    · rw [heq]
      exact hrow
    · rw [heq]
      refine (Table.get?_insert_ne _ _ ?_).trans hrow
      rintro rfl
      cases hnew.symm.trans hrow
  | @purge sessions h hkept =>
    by_cases hpurpose : t.purpose = .userOp h
    · right
      have hop : t.purpose.opHash = h := by rw [hpurpose]; rfl
      exact ⟨hd.listed hrow, fun hrow' => hop ▸ ((hkept _ _).1 hrow').2⟩
    · exact .inl ⟨t, (hkept id t).2 ⟨hrow, hpurpose⟩, .rfl t⟩

/-! ### Runs -/

theorem DocketSteps.docketed (h : DocketSteps u d d') (hd : Docketed u d) : Docketed u d' := by
  induction h with
  | refl => exact hd
  | tail _ hstep ih => exact hstep.docketed ih

/-- What a session has become along a sequence of steps. -/
theorem DocketSteps.kept_or_spent (h : DocketSteps u d d') (hd : Docketed u d)
    (hnodup : d'.enqueued.Nodup) {id : SigningSessionId} {t : SigningSession}
    (hrow : d.sessions.get? id = some t) :
    (∃ t', d'.sessions.get? id = some t' ∧ t.Same t') ∨ Spent t.purpose.opHash d' := by
  induction h with
  | refl => exact .inl ⟨t, hrow, .rfl t⟩
  | @tail d₁ d₂ hsteps hstep ih =>
    rcases ih (hnodup.sublist hstep.grows.sublist) with ⟨t₁, hrow₁, hsame⟩ | hspent
    · rcases hstep.kept_or_spent (DocketSteps.docketed hsteps hd) hrow₁ with ⟨t₂, hrow₂, hsame₂⟩ | hspent
      · exact .inl ⟨t₂, hrow₂, hsame.trans hsame₂⟩
      · rw [hsame.purpose] at hspent
        exact .inr hspent
    · exact .inr (hstep.spent hnodup hspent)

theorem DocketSteps.grows (h : DocketSteps u d d') : d.enqueued <:+ d'.enqueued := by
  induction h with
  | refl => exact List.suffix_rfl
  | tail _ hstep ih => exact ih.trans hstep.grows

theorem DocketSteps.spent (h : DocketSteps u d d') (hnodup : d'.enqueued.Nodup) {x : Hash}
    (hspent : Spent x d) : Spent x d' := by
  induction h with
  | refl => exact hspent
  | tail _ hstep ih => exact hstep.spent hnodup (ih (hnodup.sublist hstep.grows.sublist))

theorem run_docketSteps {tr : List (Item × Answer)} (run : Run (Accepts u) db tr db') :
    DocketSteps u db.docket db'.docket :=
  run.invariant (P := fun db' => DocketSteps u db.docket db'.docket) .refl
    fun _ _ _ _ hsteps h => hsteps.trans (Accepts.docketSteps h)

theorem run_docketed {tr : List (Item × Answer)} (run : Run (Accepts u) Db.empty tr db) :
    Docketed u db.docket := by
  refine run.invariant (P := fun db => Docketed u db.docket) ?_
    fun _ _ _ _ hd h => (Accepts.docketSteps h).docketed hd
  constructor <;> intro id t hrow <;> cases hrow

/-- No two of the operations enqueued share a session id. -/
def DistinctSessions (u : Usdt) (db : Db) : Prop :=
  ∀ h ∈ db.docket.enqueued, ∀ h' ∈ db.docket.enqueued, ∀ a a',
    u.evm.signingSessionId (u.evm.ethSignedMessageHash h) a =
      u.evm.signingSessionId (u.evm.ethSignedMessageHash h') a' → h = h'

/-- The ids of an operation that is over are free of sessions. -/
theorem Spent.no_row {h : Hash} {a : Nat} (hspent : Spent h db.docket)
    (hd : Docketed u db.docket) (hids : DistinctSessions u db) :
    db.signingSession.get? (u.evm.signingSessionId (u.evm.ethSignedMessageHash h) a) = none := by
  cases hrow : db.signingSession.get?
      (u.evm.signingSessionId (u.evm.ethSignedMessageHash h) a) with
  | none => rfl
  | some t =>
    have hid := hd.id_eq hrow
    rw [hd.digest_eq hrow] at hid
    have hop := hids h hspent.listed _ (hd.listed hrow) a t.attempt hid
    refine absurd ?_ (hspent.gone hrow)
    rw [hop]
    cases t.purpose
    rfl

/-- What has become of a session at the end of a run. -/
theorem session_kept_or_spent {tr₁ tr₂ : List (Item × Answer)} {db₁ db₂ : Db}
    (run₁ : Run (Accepts u) Db.empty tr₁ db₁) (run₂ : Run (Accepts u) db₁ tr₂ db₂)
    (hnodup : db₂.docket.enqueued.Nodup) (hids : DistinctSessions u db₂) {id : SigningSessionId}
    {t : SigningSession} (hstarted : db₁.signingSession.get? id = some t) :
    (∃ t₂, db₂.signingSession.get? id = some t₂ ∧ t.Same t₂) ∨
      db₂.signingSession.get? id = none ∧ Spent t.purpose.opHash db₂.docket := by
  have hd₁ := run_docketed run₁
  have hd₂ := run_docketed (run₁.append run₂)
  rcases (run_docketSteps run₂).kept_or_spent hd₁ hnodup hstarted with hkept | hspent
  · exact .inl hkept
  · refine .inr ⟨?_, hspent⟩
    rw [hd₁.id_eq hstarted, hd₁.digest_eq hstarted]
    exact hspent.no_row hd₂ hids

theorem DistinctSessions.of_run {tr : List (Item × Answer)} (hids : DistinctSessions u db')
    (run : Run (Accepts u) db tr db') : DistinctSessions u db := fun h hh h' hh' =>
  hids h ((run_docketSteps run).grows.mem hh) h' ((run_docketSteps run).grows.mem hh')

/-- A session that was dropped stays away. -/
theorem session_gone {tr₁ tr₂ tr₃ : List (Item × Answer)} {db₁ db₂ db₃ : Db}
    (run₁ : Run (Accepts u) Db.empty tr₁ db₁) (run₂ : Run (Accepts u) db₁ tr₂ db₂)
    (run₃ : Run (Accepts u) db₂ tr₃ db₃) (hnodup : db₃.docket.enqueued.Nodup)
    (hids : DistinctSessions u db₃) {id : SigningSessionId} {t : SigningSession}
    (hstarted : db₁.signingSession.get? id = some t)
    (hgone : db₂.signingSession.get? id = none) : db₃.signingSession.get? id = none := by
  have hnodup₂ := hnodup.sublist (run_docketSteps run₃).grows.sublist
  rcases session_kept_or_spent run₁ run₂ hnodup₂ (hids.of_run run₃) hstarted with
    ⟨t₂, hrow, -⟩ | ⟨-, hspent⟩
  · cases hgone.symm.trans hrow
  · have hd₁ := run_docketed run₁
    have hd₃ := run_docketed ((run₁.append run₂).append run₃)
    rw [hd₁.id_eq hstarted, hd₁.digest_eq hstarted]
    exact ((run_docketSteps run₃).spent hnodup hspent).no_row hd₃ hids

/-! ### The round counter -/

def U16_MAX : Nat := 65535

/-- No chunk is for the last round that the 16-bit counter of a session can hold. -/
def roundsFit (_ : Db) : Item → Bool
  | .consensus (.mpcRound item) _ => decide (item.round < U16_MAX)
  | _ => true

/-- Then the counter never leaves its range. -/
theorem Accepts.round_le {item : Item} {answer : Answer} (h : Accepts u db item answer db')
    (hfit : roundsFit db item = true)
    (hinv : ∀ id t, db.signingSession.get? id = some t → t.round ≤ U16_MAX)
    {id : SigningSessionId} {t' : SigningSession} (hrow : db'.signingSession.get? id = some t') :
    t'.round ≤ U16_MAX := by
  by_cases hitem : ∃ m p, item = .consensus (.mpcRound m) p
  · obtain ⟨m, p, rfl⟩ := hitem
    have hlast : m.round < U16_MAX := of_decide_eq_true hfit
    obtain ⟨session, hsession, -, hround, -, rfl⟩ :=
      processMpcRound_eq_ok_iff.1 (Accepts.consensus h)
    split at hrow
    · have hrow : (db.signingSession.insert m.sessionId _).get? id = some t' := hrow
      rw [Table.get?_insert] at hrow
      split at hrow
      · cases hrow
        show session.round + 1 ≤ U16_MAX
        omega
      · exact hinv id t' hrow
    · exact hinv id t' hrow
  · rcases (h.rounds fun m p hm => hitem ⟨m, p, hm⟩).sessions id t' hrow with
      hzero | ⟨t, ht, hsame⟩
    · rw [hzero]
      exact Nat.zero_le _
    · rw [hsame]
      exact hinv id t ht

theorem run_round_le {tr : List (Item × Answer)}
    (run : Run (Steps (guarded roundsFit u.step)) Db.empty tr db) :
    ∀ id t, db.signingSession.get? id = some t → t.round ≤ U16_MAX := by
  refine run.invariant
    (P := fun db => ∀ id t, db.signingSession.get? id = some t → t.round ≤ U16_MAX) nofun ?_
  intro db item answer db' hinv hstep id t' hrow
  obtain ⟨hfit, h⟩ := steps_guarded.1 hstep
  exact Accepts.round_le h hfit hinv hrow

/-- **A session id is used once.**  As long as a session is there it is the same one: of the same
operation, over the same digest, at the same attempt, with the same signers, and never at an earlier
round.  Once it is dropped, no later item brings its id back.  This rests on no two operations
sharing a hash or a session id, on the pool not being a deposit account, and on no session coming
to the last round of its counter. -/
theorem session_once {tr₁ tr₂ tr₃ : List (Item × Answer)} {db₁ db₂ db₃ : Db}
    (run₁ : Run (Steps (guarded roundsFit u.step)) Db.empty tr₁ db₁)
    (run₂ : Run (Steps (guarded roundsFit u.step)) db₁ tr₂ db₂)
    (run₃ : Run (Steps (guarded roundsFit u.step)) db₂ tr₃ db₃) (hsep : Separate u (u.books db₃))
    (hids : DistinctSessions u db₃) {id : SigningSessionId} {t : SigningSession}
    (hstarted : db₁.signingSession.get? id = some t) :
    (∀ t₂, db₂.signingSession.get? id = some t₂ → t.Same t₂ ∧ t₂.round ≤ U16_MAX) ∧
      (db₂.signingSession.get? id = none → db₃.signingSession.get? id = none) := by
  have hfits := run_round_le (run₁.append run₂)
  have run₁ := run₁.of_guarded
  have run₂ := run₂.of_guarded
  have run₃ := run₃.of_guarded
  have hnodup : db₃.docket.enqueued.Nodup :=
    (run_enqueueInv ((run₁.append run₂).append run₃)).nodup hsep
  have hnodup₂ := hnodup.sublist (run_docketSteps run₃).grows.sublist
  refine ⟨fun t₂ hrow₂ => ⟨?_, hfits id t₂ hrow₂⟩, session_gone run₁ run₂ run₃ hnodup hids hstarted⟩
  rcases session_kept_or_spent run₁ run₂ hnodup₂ (hids.of_run run₃) hstarted with
    ⟨t', hrow', hsame⟩ | ⟨hgone, -⟩
  · cases hrow'.symm.trans hrow₂
    exact hsame
  · cases hgone.symm.trans hrow₂

/-- The session of a sweep, before and after it is signed. -/
theorem session_once_sample :
    ∃ db₁ db₂ : Db, ∃ id t t₂, db₁.signingSession.get? id = some t ∧ t.state = .inProgress ∧
      db₂.signingSession.get? id = some t₂ ∧ t₂.state.isCompleted = true ∧ t.Same t₂ := by
  let id := sampleEvm.signingSessionId
    (sampleEvm.ethSignedMessageHash (sampleUsdt.opHash (Sample.sweep 50000 0))) 0
  obtain ⟨tr, db₁, run₁, hdb⟩ := Run.exists_of_exec (guarded roundsFit sampleUsdt.step) Db.empty
    (Sample.anchor 1 ++ [Sample.vote (.feeVote ⟨1, 1⟩), Sample.deposit 1 50000 10000])
    (fun _ db => ((db.signingSession.get? id).any fun t : SigningSession =>
        decide (t.state = .inProgress)) &&
      (exec (guarded roundsFit sampleUsdt.step) [] db [Sample.sign (Sample.sweep 50000 0)]).any
        fun next : List (Item × Answer) × Db =>
        ((next.2.signingSession.get? id).any fun t : SigningSession => t.state.isCompleted) &&
        decide (∀ r ∈ next.2.depositRecord.rows, r.1 ≠ sampleUsdt.poolAccount) &&
        decide (∀ q ∈ enqueued next.2.history, ∀ q' ∈ enqueued next.2.history, q = q'))
    (by decide +kernel)
  rw [Bool.and_eq_true, Option.any_eq_true] at hdb
  obtain ⟨⟨t, hrow, hstate⟩, hnext⟩ := hdb
  cases hexec : exec (guarded roundsFit sampleUsdt.step) [] db₁
      [Sample.sign (Sample.sweep 50000 0)] with
  | none =>
    rw [hexec] at hnext
    cases hnext
  | some next =>
    rw [hexec] at hnext
    simp only [Option.any_some, Bool.and_eq_true, Option.any_eq_true, decide_eq_true_eq] at hnext
    obtain ⟨⟨⟨t₂, hrow₂, hcompleted⟩, hpool⟩, hone⟩ := hnext
    have hsep : Separate sampleUsdt (sampleUsdt.books next.2) :=
      separate_of_rows hpool fun q hq q' hq' _ => congrArg Prod.snd (hone q hq q' hq')
    have hids : DistinctSessions sampleUsdt next.2 := by
      intro h hh h' hh' a a' _
      obtain ⟨q, hq, rfl⟩ := List.mem_map.1 hh
      obtain ⟨q', hq', rfl⟩ := List.mem_map.1 hh'
      exact congrArg Prod.fst (hone q hq q' hq')
    exact ⟨db₁, next.2, id, t, t₂, hrow, of_decide_eq_true hstate, hrow₂, hcompleted,
      ((session_once run₁ (Run.of_exec .start hexec) .start hsep hids hrow).1 t₂ hrow₂).1⟩

end Experimint.FedimintUsdt
