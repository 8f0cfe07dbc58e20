import Experimint.Usdt.InFlight

/-!
# Signatures finalize operations once

Several attempts at signing one operation, and several operations of one chain, can be live at the
same time, and traffic for failed attempts is still accepted.  What keeps a signature from counting
twice is the pending row: finalization moves it, and it never comes back.

* `Accepts.quiet`: only a signature completes a session, and sessions are over the digests of their
  operations.
* `FinalInv`: an operation that was finalized is not pending again.
* `finalization_authorized`: what a submitted row was created from, and that it was created once.
-/

set_option autoImplicit false

namespace Experimint.FedimintUsdt

open Books

variable {u : Usdt} {db db' : Db}

/-! ## Sessions -/

/-- Signing sessions and the chunks of their rounds. -/
structure Signing where
  sessions : Table SigningSessionId SigningSession
  chunks : Table MpcRoundChunkKey MpcRoundChunk

def Db.signing (db : Db) : Signing := ⟨db.signingSession, db.mpcRoundChunk⟩

/-- Sessions may be dropped. -/
theorem Quiet.of_sub (h : ∀ id s, db'.signingSession.get? id = some s →
    db.signingSession.get? id = some s) : Quiet u db db' where
  genuine hg id s hs := hg id s (h id s hs)
  completed id s hs hc := ⟨s, h id s hs, hc⟩

theorem quiet_removeSigningSessionsForOp (db : Db) (h : Hash) :
    Quiet u db (removeSigningSessionsForOp db h) := by
  unfold removeSigningSessionsForOp
  dsimp only
  generalize (db.signingSession.rows.filter _) = sessions
  induction sessions generalizing db with
  | nil => exact .of_eq rfl
  | cons r rest ih =>
    rw [List.foldl_cons]
    refine Quiet.trans (Quiet.of_sub ?_) (ih _)
    intro id s hs
    exact (Table.get?_of_erase (hs : (db.signingSession.erase r.1).get? id = some s)).2

theorem quiet_removePending (db : Db) (h : Hash) : Quiet u db (db.removePending h) := by
  refine Quiet.trans (Quiet.of_eq ?_) (quiet_removeSigningSessionsForOp _ h)
  rfl

theorem signing_removeSubmitted_foldl (rows : List (Hash × SubmittedUserOp)) (db : Db) :
    (rows.foldl (fun db r => db.removeSubmitted r.1) db).signing = db.signing := by
  induction rows generalizing db with
  | nil => rfl
  | cons r rest ih =>
    rw [List.foldl_cons, ih]
    rfl

theorem quiet_removePending_foldl (rows : List (Hash × PendingUserOp)) (db : Db) :
    Quiet u db (rows.foldl (fun db r => db.removePending r.1) db) := by
  induction rows generalizing db with
  | nil => exact .of_eq rfl
  | cons r rest ih =>
    rw [List.foldl_cons]
    exact (quiet_removePending db r.1).trans (ih _)

theorem quiet_purgeUserOpNonceChain (db : Db) (sender : EvmAddress) (nonce : Nat) (h : Hash) :
    Quiet u db (purgeUserOpNonceChain db sender nonce h) :=
  Quiet.trans (.of_eq (congrArg Signing.sessions (signing_removeSubmitted_foldl _ db)))
    (quiet_removePending_foldl _ _)

theorem signing_refund_foldl (outpoints : List OutPoint) (reason : String) (db : Db) :
    (outpoints.foldl (fun db o => u.createWithdrawalRefund db o reason) db).signing =
      db.signing := by
  induction outpoints generalizing db with
  | nil => rfl
  | cons o rest ih =>
    rw [List.foldl_cons, ih]
    unfold Usdt.createWithdrawalRefund
    split <;> rfl

/-- Settlement by purpose leaves the sessions alone. -/
theorem signing_settle (db : Db) (s : SubmittedUserOp) (obs : UserOpConfirmedObservation)
    (swept : UsdtAmount) : (u.settle db s obs swept).signing = db.signing := by
  unfold Usdt.settle
  split
  · unfold Usdt.settleSweep
    dsimp only
    split <;> split <;> rfl
  · unfold Usdt.applyWithdrawConfirmed
    dsimp only
    split
    · rfl
    split
    · exact signing_refund_foldl _ _ _
    · rfl
  · rfl
  · unfold Usdt.settleRecovery
    dsimp only
    split <;> rfl

theorem quiet_applyUserOpConfirmed (db : Db) (h : Hash) (obs : UserOpConfirmedObservation) :
    Quiet u db (u.applyUserOpConfirmed db h obs) := by
  unfold Usdt.applyUserOpConfirmed
  split
  · exact .of_eq rfl
  rename_i s _
  split
  · exact .of_eq rfl
  rename_i swept _
  dsimp only
  have hsettled : Quiet u db ((u.settle (db.record (.userOpConfirmed s.signed.unsigned s.purpose
      obs.success swept)) s obs swept).removeSubmitted h) :=
    .of_eq (congrArg Signing.sessions (signing_settle _ s obs swept))
  have hpurged := hsettled.trans
    (quiet_purgeUserOpNonceChain _ s.signed.unsigned.sender s.signed.unsigned.nonce h)
  split
  · exact hpurged
  · exact hpurged.trans (maybeTriggerSweep_triggered _ _).quiet

theorem processUserOpConfirmed_quiet {h : Hash} {obs : UserOpConfirmedObservation}
    {peerId : PeerId} (hok : u.processUserOpConfirmed db h obs peerId = .ok db') :
    Quiet u db db' := by
  unfold Usdt.processUserOpConfirmed at hok
  dsimp only at hok
  split_ifs at hok
  · rw [← Except.ok.inj hok]
    refine Quiet.trans (Quiet.of_eq ?_) (quiet_applyUserOpConfirmed _ h obs)
    rfl
  · rw [← Except.ok.inj hok]
    exact .of_eq rfl

theorem processInput_quiet {input : UsdtInput} {m : InputMeta}
    (hok : u.processInput db input = .ok (m, db')) : Quiet u db db' := by
  cases input with
  | refundV0 o =>
    obtain ⟨f, -, -, rfl⟩ := claimRefund_ok hok
    exact .of_eq rfl
  | depositProofV0 pk proof fee =>
    obtain ⟨_, _, _, _, -, -, -, -, -, -, -, hquiet⟩ := processDepositProof_effect hok
    exact hquiet
  | default _ _ => cases hok

theorem processOutput_quiet {output : UsdtOutput} {o : OutPoint}
    {amounts : TransactionItemAmounts} (hok : u.processOutput db output o = .ok (amounts, db')) :
    Quiet u db db' := by
  obtain ⟨w, _, _, -, -, -, -, -, rfl⟩ := processOutput_ok hok
  exact .of_eq rfl

/-- **Only a signature completes a session.** -/
theorem Accepts.quiet {item : Item} {answer : Answer} (h : Accepts u db item answer db')
    (hitem : item.signs = false) : Quiet u db db' := by
  cases item with
  | input input =>
    obtain ⟨m, hok⟩ := Accepts.input h
    exact processInput_quiet hok
  | output output o =>
    obtain ⟨amounts, hok⟩ := Accepts.output h
    exact processOutput_quiet hok
  | consensus item peerId =>
    have hok := Accepts.consensus h
    cases item with
    | mpcSignature => cases hitem
    | blockCount => exact (processBlockCount_triggered hok).quiet
    | mpcRound => exact (processMpcRound_silent hok).quiet
    | rotateSigning => exact (processRotateSigning_silent hok).quiet
    | userOpConfirmed => exact processUserOpConfirmed_quiet hok
    | feeVote => exact (processFeeVote_silent hok).quiet
    | bootstrapObservation => exact (processBootstrapObservation_silent hok).quiet
    | replaceUserOp => exact (processReplaceUserOp_move hok).2.1
    | blockHash => exact (processBlockHash_silent hok).quiet
    | recoverResidual => exact (processRecoverResidual_triggered hok).quiet
    | withdrawFeesVote => exact (processWithdrawFeesVote_triggered hok).quiet
    | default => cases hok

/-- An item that can submit an operation is a signature. -/
theorem Item.signature_of_signs {item : Item} (h : item.signs = true) :
    ∃ sessionId signature peerId, item = .consensus (.mpcSignature sessionId signature) peerId := by
  unfold Item.signs at h
  split at h
  · exact ⟨_, _, _, rfl⟩
  · cases h

theorem Accepts.genuine {item : Item} {answer : Answer} (h : Accepts u db item answer db')
    (hg : GenuineSessions u db) : GenuineSessions u db' := by
  cases hitem : item.signs with
  | false => exact (Accepts.quiet h hitem).genuine hg
  | true =>
    obtain ⟨sessionId, signature, peerId, rfl⟩ := Item.signature_of_signs hitem
    obtain ⟨session, pending, ethSig, hsession, -, -, -, -, -, rfl⟩ :=
      processMpcSignature_ok (Accepts.consensus h)
    intro id s hs
    have hs : (db.signingSession.insert sessionId
      { session with state := .completed signature }).get? id = some s := hs
    rw [Table.get?_insert] at hs
    split_ifs at hs
    · rw [← Option.some.inj hs]
      exact hg sessionId session hsession
    · exact hg id s hs

theorem run_genuine {tr : List (Item × Answer)} (run : Run (Accepts u) Db.empty tr db) :
    GenuineSessions u db := by
  refine run.invariant (P := GenuineSessions u) ?_ fun _ _ _ _ hg h => Accepts.genuine h hg
  intro id s hs
  cases hs

/-! ## Finalized operations -/

def Event.finalized : Event → Option Hash
  | .userOpFinalized h => some h
  | _ => none

/-- Hashes of the operations that were finalized, newest first. -/
def finalized (history : List Event) : List Hash := history.filterMap Event.finalized

variable {b b' : Books}

structure FinalInv (u : Usdt) (b : Books) : Prop where
  listed : ∀ h ∈ finalized b.history, h ∈ (enqueued b.history).map (·.1)
  gone : Separate u b → ∀ h ∈ finalized b.history, b.pending.get? h = none
  once : Separate u b → (finalized b.history).Nodup

/-- A move that neither enqueues nor finalizes. -/
theorem FinalInv.still (hinv : FinalInv u b) (hmove : Move u b b')
    (hfinal : finalized b'.history = finalized b.history)
    (henqueued : enqueued b'.history = enqueued b.history)
    (hpending : ∀ h, b.pending.get? h = none → b'.pending.get? h = none) : FinalInv u b' where
  listed := by
    rw [hfinal, henqueued]
    exact hinv.listed
  gone hsep h hh := hpending h (hinv.gone (hmove.separate hsep) h (hfinal ▸ hh))
  once hsep := hfinal ▸ hinv.once (hmove.separate hsep)

/-- A new operation is not one that was finalized. -/
theorem FinalInv.enqueue {h : Hash} {op : UnsignedUserOp} {p : UserOpPurpose} {r : PendingUserOp}
    (hinv : FinalInv u b) (hmove : Move u b b') (henqueue : EnqueueInv u b')
    (hhistory : b'.history = .userOpEnqueued h op p :: b.history)
    (hpending : b'.pending = b.pending.insert h r) : FinalInv u b' where
  listed := by
    rw [hhistory]
    exact fun h' hh' => List.mem_cons_of_mem _ (hinv.listed h' hh')
  gone hsep h' hh' := by
    have hnodup := henqueue.nodup hsep
    rw [hhistory] at hh' hnodup
    have hne : h ≠ h' := fun he =>
      (List.nodup_cons.1 hnodup).1 (show h ∈ _ from he ▸ hinv.listed h' hh')
    rw [hpending, Table.get?_insert_ne _ _ hne]
    exact hinv.gone (hmove.separate hsep) h' hh'
  once hsep := by
    rw [hhistory]
    exact hinv.once (hmove.separate hsep)

theorem Move.finalInv (h : Move u b b') (hchain : ChainInv u b) (henqueue : EnqueueInv u b)
    (hinv : FinalInv u b) : FinalInv u b' := by
  have henqueue' := h.enqueueInv hchain henqueue
  have hmove := h
  cases h with
  | credit | request | claim => exact hinv.still hmove rfl rfl fun _ hp => hp
  | offer hoffered =>
    obtain ⟨op, p, block, -, -, rfl⟩ := hoffered
    exact hinv.enqueue hmove henqueue' rfl rfl
  | replace => exact hinv.enqueue hmove henqueue' rfl rfl
  | @finalize h p signature block hpending =>
    have hlisted : h ∈ (enqueued b.history).map (·.1) :=
      List.mem_map.2 ⟨_, mem_enqueued (henqueue.listed (.pending hpending)), rfl⟩
    refine ⟨?_, ?_, ?_⟩
    · intro h' hh'
      rcases List.mem_cons.1 hh' with rfl | hh'
      · exact hlisted
      · exact hinv.listed h' hh'
    · intro hsep h' hh'
      show (b.pending.erase h).get? h' = none
      rw [Table.get?_erase]
      split_ifs with he
      · rfl
      · rcases List.mem_cons.1 hh' with hself | hh'
        · exact absurd hself he
        · exact hinv.gone (hmove.separate hsep) h' hh'
    · -- it is pending, so it has not been finalized before
      intro hsep
      refine List.nodup_cons.2 ⟨?_, hinv.once (hmove.separate hsep)⟩
      intro hh
      exact nomatch hpending.symm.trans (hinv.gone (hmove.separate hsep) h hh)
  | @settle b₁ h s share success hs hsettle =>
    have hframe := hsettle.frame
    have hhistory : finalized b₁.history = finalized b.history ∧
        enqueued b₁.history = enqueued b.history := by
      cases hsettle <;> exact ⟨rfl, rfl⟩
    refine hinv.still hmove hhistory.1 hhistory.2 ?_
    intro h' hnone
    cases hrow : (b₁.finish h s.signed.unsigned).pending.get? h' with
    | none => rfl
    | some r =>
      have hb := (Table.get?_filter_eq_some.1 hrow).1
      rw [hframe.pending, hnone] at hb
      cases hb

theorem finalInv_empty (u : Usdt) : FinalInv u (u.books Db.empty) where
  listed h hh := by cases hh
  gone _ h hh := by cases hh
  once _ := List.nodup_nil

theorem run_finalInv {tr : List (Item × Answer)} (run : Run (Accepts u) Db.empty tr db) :
    FinalInv u (u.books db) := by
  have hboth : EnqueueInv u (u.books db) ∧ FinalInv u (u.books db) :=
    run_books (P := fun b => EnqueueInv u b ∧ FinalInv u b)
      ⟨enqueueInv_empty u, finalInv_empty u⟩
      (fun _ _ hchain hb hm =>
        ⟨hm.enqueueInv hchain hb.1, hm.finalInv hchain hb.1 hb.2⟩) run
  exact hboth.2

/-! ## What a submitted row was created from -/

/-- A pending operation is not submitted as well. -/
theorem ChainInv.not_submitted {h : Hash} {p : PendingUserOp} (hchain : ChainInv u b)
    (henqueue : EnqueueInv u b) (hsep : Separate u b) (hp : b.pending.get? h = some p) :
    b.submitted.get? h = none := by
  cases hs : b.submitted.get? h with
  | none => rfl
  | some s =>
    have hpending := InFlight.pending hp
    have hsubmitted := InFlight.submitted hs
    have hop : p.op = s.signed.unsigned := hsep.collision _
      (mem_enqueued (henqueue.listed hpending)) _ (mem_enqueued (henqueue.listed hsubmitted))
      ((hchain.keyed hpending).trans (hchain.keyed hsubmitted).symm)
    have hlane : p.purpose.lane = s.purpose.lane :=
      hsep.lane (hchain.nonce hpending) (hchain.nonce hsubmitted)
        (by rw [← hchain.sender hpending, ← hchain.sender hsubmitted, hop])
    exact absurd hlane (hchain.apart hpending hsubmitted)

/-- A row that a step put into the submitted table: it was pending, it is not any more, and its
signature is the group's over the operation's digest. -/
structure Finalizes (u : Usdt) (db db' : Db) (opHash : Hash) (row : SubmittedUserOp) : Prop where
  pending : ∃ pending, db.pendingUserOp.get? opHash = some pending ∧
    row.signed.unsigned = pending.op ∧ row.purpose = pending.purpose
  removed : db'.pendingUserOp.get? opHash = none
  length : row.signed.signature.length = 65
  verified : u.evm.verifyEcdsa (u.evm.ethSignedMessageHash opHash)
    (row.signed.signature.take 64) u.cfg.groupPublicKey = true
  recorded : db'.history = .userOpFinalized opHash :: db.history

theorem finalizes_finalizeUserOp {sessionId : SigningSessionId} {session : SigningSession}
    {pending : PendingUserOp} {signature ethSig : Bytes} {row : SubmittedUserOp}
    (hgenuine : session.Genuine u)
    (hverify : u.evm.verifyEcdsa session.digest signature u.cfg.groupPublicKey = true)
    (hpending : db.pendingUserOp.get? session.purpose.opHash = some pending)
    (hlength : signature.length = 64)
    (hsig : u.assembleEthSignature signature session.digest u.owner = .ok ethSig)
    (hrow : (u.finalizeUserOp db sessionId session signature pending ethSig).submittedUserOp.get?
      session.purpose.opHash = some row) :
    Finalizes u db (u.finalizeUserOp db sessionId session signature pending ethSig)
      session.purpose.opHash row := by
  obtain rfl := Option.some.inj ((Table.get?_insert_self _ _ _).symm.trans hrow)
  obtain ⟨v, rfl⟩ := Usdt.assembleEthSignature_ok u hsig
  refine ⟨⟨pending, hpending, rfl, rfl⟩, Table.get?_erase_self _ _, ?_, ?_, rfl⟩
  · simp [hlength]
  · rw [← hgenuine, List.take_left' hlength]
    exact hverify

/-- **A submitted row is created by moving a pending one, with a valid signature of the group, and
at most once for each hash; only such a step completes a session.** -/
theorem finalization_authorized {tr : List (Item × Answer)} {item : Item} {answer : Answer}
    (run : Run (Accepts u) Db.empty tr db) (h : Accepts u db item answer db')
    (hpool : ∀ r ∈ db'.depositRecord.rows, r.1 ≠ u.poolAccount)
    (hcollision : ∀ q ∈ enqueued db'.history, ∀ q' ∈ enqueued db'.history,
      u.opHash q.2 = u.opHash q'.2 → q.2 = q'.2) :
    (∀ opHash row, db'.submittedUserOp.get? opHash = some row →
      db.submittedUserOp.get? opHash = none → Finalizes u db db' opHash row) ∧
    (∀ opHash row old, db'.submittedUserOp.get? opHash = some row →
      db.submittedUserOp.get? opHash = some old →
        row.signed = old.signed ∧ row.purpose = old.purpose) ∧
    (finalized db'.history).Nodup ∧
    (∀ id session, db'.signingSession.get? id = some session →
      session.state.isCompleted = true →
        (∃ old, db.signingSession.get? id = some old ∧ old.state.isCompleted = true) ∨
          (db.submittedUserOp.get? session.purpose.opHash = none ∧
            (db'.submittedUserOp.get? session.purpose.opHash).isSome = true)) := by
  have hsep' := separate_of_rows hpool hcollision
  have honce := (run_finalInv (run.next h)).once hsep'
  have hchain := run_chainInv run
  cases hitem : item.signs with
  | false =>
    have hcont := (Accepts.effect h hchain).continues hitem
    refine ⟨?_, ?_, honce,
      fun id session hs hc => .inl ((Accepts.quiet h hitem).completed id session hs hc)⟩
    · intro opHash row hrow hnone
      obtain ⟨old, hold, -⟩ := hcont opHash row hrow
      exact nomatch hnone.symm.trans hold
    · intro opHash row old hrow hold
      obtain ⟨old', hold', hsigned, hpurpose⟩ := hcont opHash row hrow
      obtain rfl := Option.some.inj (hold.symm.trans hold')
      exact ⟨hsigned, hpurpose⟩
  | true =>
    obtain ⟨sessionId, signature, peerId, rfl⟩ := Item.signature_of_signs hitem
    obtain ⟨session, pending, ethSig, hsession, -, hverify, hpending, hlength, hsig, rfl⟩ :=
      processMpcSignature_ok (Accepts.consensus h)
    have hmove : Move u (u.books db)
        (u.books (u.finalizeUserOp db sessionId session signature pending ethSig)) :=
      .finalize hpending
    have hfree : db.submittedUserOp.get? session.purpose.opHash = none :=
      hchain.not_submitted (run_enqueueInv run) (hmove.separate hsep') hpending
    have hrows : ∀ opHash, opHash ≠ session.purpose.opHash →
        (u.finalizeUserOp db sessionId session signature pending ethSig).submittedUserOp.get?
          opHash = db.submittedUserOp.get? opHash := fun opHash hne =>
      Table.get?_insert_ne _ _ (Ne.symm hne)
    refine ⟨?_, ?_, honce, ?_⟩
    · intro opHash row hrow hnone
      by_cases hh : opHash = session.purpose.opHash
      · subst hh
        exact finalizes_finalizeUserOp (run_genuine run _ _ hsession) hverify hpending hlength hsig
          hrow
      · rw [hrows opHash hh, hnone] at hrow
        cases hrow
    · intro opHash row old hrow hold
      have hh : opHash ≠ session.purpose.opHash := by
        rintro rfl
        exact nomatch hfree.symm.trans hold
      rw [hrows opHash hh] at hrow
      obtain rfl := Option.some.inj (hold.symm.trans hrow)
      exact ⟨rfl, rfl⟩
    · intro id s hs hc
      have hs : (db.signingSession.insert sessionId
        { session with state := .completed signature }).get? id = some s := hs
      rw [Table.get?_insert] at hs
      split_ifs at hs with hid
      · rw [← Option.some.inj hs]
        exact .inr ⟨hfree, congrArg Option.isSome (Table.get?_insert_self _ _ _)⟩
      · exact .inl ⟨s, hs, hc⟩

/-- The sweep of a deposit is finalized by the group's signature. -/
theorem finalization_authorized_sample :
    ∃ tr db answer db' row, Run (Accepts sampleUsdt) Db.empty tr db ∧
      Accepts sampleUsdt db (Sample.sign (Sample.sweep 50000 0)) answer db' ∧
      Finalizes sampleUsdt db db' (sampleUsdt.opHash (Sample.sweep 50000 0)) row := by
  let sweepHash := sampleUsdt.opHash (Sample.sweep 50000 0)
  obtain ⟨tr, db, run, hdb⟩ := Run.exists_of_exec sampleUsdt.step Db.empty
    (Sample.anchor 1 ++ [Sample.vote (.feeVote ⟨1, 1⟩), Sample.deposit 1 50000 10000])
    (fun _ db => (db.submittedUserOp.get? sweepHash).isNone &&
      (exec sampleUsdt.step [] db [Sample.sign (Sample.sweep 50000 0)]).any
        fun next : List (Item × Answer) × Db =>
        (next.2.submittedUserOp.get? sweepHash).isSome &&
        decide (∀ r ∈ next.2.depositRecord.rows, r.1 ≠ sampleUsdt.poolAccount) &&
        decide (∀ q ∈ enqueued next.2.history, ∀ q' ∈ enqueued next.2.history,
          sampleUsdt.opHash q.2 = sampleUsdt.opHash q'.2 → q.2 = q'.2))
    (by decide +kernel)
  rw [Bool.and_eq_true, Option.isNone_iff_eq_none] at hdb
  obtain ⟨hnone, hnext⟩ := hdb
  simp only [exec] at hnext
  split at hnext
  · cases hnext
  · rename_i answer db' hstep
    simp only [Option.any_some, Bool.and_eq_true, decide_eq_true_eq] at hnext
    obtain ⟨⟨hsome, hpool⟩, hcollision⟩ := hnext
    obtain ⟨row, hrow⟩ := Option.isSome_iff_exists.1 hsome
    exact ⟨tr, db, answer, db', row, run, hstep,
      (finalization_authorized run hstep hpool hcollision).1 _ row hrow hnone⟩

end Experimint.FedimintUsdt
