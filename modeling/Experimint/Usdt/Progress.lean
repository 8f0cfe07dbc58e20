import Experimint.Usdt.Ballots
import Experimint.Usdt.Effect

/-!
# Accepted consensus items leave a trace

A guardian may propose the same item again and again, so an accepted item that changes nothing
would fill the ledger of consensus for free.  Each processing function refuses what is already
there; the entry it then writes is still written when the triggers and settlements it calls have
run.

* `no_free_history` — an accepted consensus item changes some table.
-/

set_option autoImplicit false

namespace Experimint.FedimintUsdt

variable {u : Usdt} {db db' : Db}

/-- What the database stores: the history is not a table. -/
def Db.tables (db : Db) : Db := { db with history := [] }

/-- A view of the tables that differs. -/
theorem tables_ne {α : Type} (f : Db → α) (hf : ∀ d : Db, f d.tables = f d) (h : f db' ≠ f db) :
    db'.tables ≠ db.tables := by
  intro heq
  apply h
  rw [← hf db', heq, hf]

theorem insert_ne_self {α β : Type} [LinearOrder α] {t : Table α β} {k : α} {v : β}
    (h : t.get? k ≠ some v) : t.insert k v ≠ t := by
  intro heq
  exact h (heq ▸ Table.get?_insert_self t k v)

/-! ## Votes -/

theorem processBlockCount_tables {vote : Nat} {p : PeerId}
    (hok : u.processBlockCount db vote p = .ok db') : db'.tables ≠ db.tables := by
  obtain ⟨hmore, rfl⟩ := processBlockCount_ok hok
  refine tables_ne (fun d => d.ballots.blockCountVote) (fun _ => rfl) ?_
  rw [ballots_maybeTriggerWithdrawalBatch]
  apply insert_ne_self
  intro hsame
  rw [hsame] at hmore
  exact absurd hmore (Nat.lt_irrefl vote)

/-- A refreshed vote is recorded at a later block. -/
theorem processFeeVote_tables {vote : FeeVote} {p : PeerId}
    (hok : u.processFeeVote db vote p = .ok db') : db'.tables ≠ db.tables := by
  obtain ⟨-, hrefresh, rfl⟩ := processFeeVote_ok hok
  refine tables_ne Db.feeVote (fun _ => rfl) (insert_ne_self ?_)
  intro hsame
  have hage := hrefresh _ hsame rfl
  rw [Nat.sub_self] at hage
  exact absurd hage (by decide)

theorem processBlockHash_tables {obs : BlockHashObservation} {p : PeerId}
    (hok : u.processBlockHash db obs p = .ok db') : db'.tables ≠ db.tables := by
  obtain ⟨-, -, hnew, voted, rfl, rfl | ⟨-, rfl⟩⟩ := processBlockHash_ok hok
  · exact tables_ne Db.blockHashVote (fun _ => rfl) (insert_ne_self hnew)
  · exact tables_ne Db.blockHashVote (fun _ => rfl) (insert_ne_self hnew)

/-- A recovery is triggered by the votes and leaves them. -/
theorem residualVote_maybeTriggerResidualRecovery (db : Db) (a : EvmAddress) :
    (u.maybeTriggerResidualRecovery db a).recoverResidualVote = db.recoverResidualVote := by
  rcases maybeTriggerResidualRecovery_ballots (u := u) db a with h | ⟨_, _, _, -, -, h⟩
  · exact congrArg Ballots.recoverResidualVote h
  · exact congrArg Ballots.recoverResidualVote h

theorem processRecoverResidual_tables {a : EvmAddress} {wei : Nat} {p : PeerId}
    (hok : u.processRecoverResidual db a wei p = .ok db') : db'.tables ≠ db.tables := by
  obtain ⟨hnew, rfl⟩ := processRecoverResidual_ok hok
  refine tables_ne Db.recoverResidualVote (fun _ => rfl) ?_
  rw [residualVote_maybeTriggerResidualRecovery]
  exact insert_ne_self hnew

theorem feesVote_maybeTriggerFeeWithdrawal (db : Db) :
    (u.maybeTriggerFeeWithdrawal db).withdrawFeesVote = db.withdrawFeesVote := by
  rcases maybeTriggerFeeWithdrawal_ballots (u := u) db with h | ⟨_, -, h⟩
  · exact congrArg Ballots.withdrawFeesVote h
  · exact congrArg Ballots.withdrawFeesVote h

theorem processWithdrawFeesVote_tables {vote : WithdrawFeesVote} {p : PeerId}
    (hok : u.processWithdrawFeesVote db vote p = .ok db') : db'.tables ≠ db.tables := by
  obtain ⟨hnew, rfl⟩ := processWithdrawFeesVote_ok hok
  refine tables_ne Db.withdrawFeesVote (fun _ => rfl) ?_
  rw [feesVote_maybeTriggerFeeWithdrawal]
  exact insert_ne_self hnew

theorem processBootstrapObservation_tables {obs : BootstrapObservation} {p : PeerId}
    (hok : u.processBootstrapObservation db obs p = .ok db') : db'.tables ≠ db.tables := by
  obtain ⟨hnew, ready, rfl⟩ := processBootstrapObservation_ok hok
  exact tables_ne Db.bootstrapVote (fun _ => rfl) (insert_ne_self hnew)

/-! ## Signing -/

theorem processMpcRound_tables {item : MpcRoundItem} {p : PeerId}
    (hok : u.processMpcRound db item p = .ok db') : db'.tables ≠ db.tables := by
  obtain ⟨session, chunks, -, hnew, rfl, rfl | ⟨block, rfl⟩⟩ := processMpcRound_ok hok
  · exact tables_ne Db.mpcRoundChunk (fun _ => rfl) (insert_ne_self (by rw [hnew]; nofun))
  · exact tables_ne Db.mpcRoundChunk (fun _ => rfl) (insert_ne_self (by rw [hnew]; nofun))

/-- A session that exists is not touched by starting another attempt. -/
theorem startSession_get? {purpose : SigningPurpose} {digest : Hash} {attempt : Nat}
    {id : SigningSessionId} {s : SigningSession} (hs : db.signingSession.get? id = some s) :
    (u.startSession db purpose digest attempt).signingSession.get? id = some s := by
  unfold Usdt.startSession
  dsimp only
  split
  · exact hs
  · rename_i hfree
    rw [Table.get?_insert_ne]
    · exact hs
    · rintro rfl
      rw [Table.contains, hs] at hfree
      exact hfree rfl

theorem processRotateSigning_tables {id : SigningSessionId}
    (hok : u.processRotateSigning db id = .ok db') : db'.tables ≠ db.tables := by
  obtain ⟨session, hsession, hstate, rfl⟩ := processRotateSigning_ok hok
  refine tables_ne (fun d => d.signingSession.get? id) (fun _ => rfl) ?_
  -- the stalled attempt stays failed, whichever attempt is started after it
  rw [startSession_get? (Table.get?_insert_self _ _ _), hsession]
  intro hsame
  have hfailed := congrArg SigningSession.state (Option.some.inj hsame)
  rw [hstate] at hfailed
  cases hfailed

theorem processMpcSignature_tables {id : SigningSessionId} {signature : Bytes}
    (hok : u.processMpcSignature db id signature = .ok db') : db'.tables ≠ db.tables := by
  obtain ⟨session, pending, ethSig, hsession, hopen, -, -, -, -, rfl⟩ := processMpcSignature_ok hok
  refine tables_ne Db.signingSession (fun _ => rfl) (insert_ne_self ?_)
  rw [hsession]
  intro hsame
  rw [Option.some.inj hsame] at hopen
  cases hopen

/-! ## Operations -/

theorem processReplaceUserOp_tables {h : Hash} (hok : u.processReplaceUserOp db h = .ok db') :
    db'.tables ≠ db.tables := by
  obtain ⟨s, median, -, -, -, op, -, -, hnew, rfl⟩ := processReplaceUserOp_ok hok
  refine tables_ne (fun d => (u.books d).pending) (fun _ => rfl) ?_
  rw [books_enqueueReplacement]
  apply insert_ne_self
  have hfree := free_of_not_isEnqueued (u := u) (by rw [hnew]; exact Bool.false_ne_true)
  rw [hfree.1]
  nofun

/-- A settled operation is gone, also after the sweep that its settlement triggers. -/
theorem applyUserOpConfirmed_submitted (db : Db) (h : Hash) (obs : UserOpConfirmedObservation)
    {s : SubmittedUserOp} (hs : db.submittedUserOp.get? h = some s) :
    u.applyUserOpConfirmed db h obs = db ∨
      (u.applyUserOpConfirmed db h obs).submittedUserOp.get? h = none := by
  unfold Usdt.applyUserOpConfirmed
  rw [hs]
  dsimp only
  split
  · exact .inl rfl
  rename_i swept _
  have hgone : ∀ d : Db, (u.books (purgeUserOpNonceChain (d.removeSubmitted h)
      s.signed.unsigned.sender s.signed.unsigned.nonce h)).submitted.get? h = none := by
    intro d
    rw [books_finish, Option.eq_none_iff_forall_ne_some]
    intro s' hs'
    have hkept := (Table.get?_filter_eq_some.1 hs').2
    simp at hkept
  right
  split
  · exact hgone _
  · have hoffers := (maybeTriggerSweep_triggered (u := u) (purgeUserOpNonceChain
      ((u.settle (db.record (.userOpConfirmed s.signed.unsigned s.purpose obs.success swept)) s obs
        swept).removeSubmitted h) s.signed.unsigned.sender s.signed.unsigned.nonce h) ‹_›).offers
    exact (congrArg (·.get? h) hoffers.submitted).trans (hgone _)

theorem processUserOpConfirmed_tables {h : Hash} {obs : UserOpConfirmedObservation} {p : PeerId}
    (hok : u.processUserOpConfirmed db h obs p = .ok db') : db'.tables ≠ db.tables := by
  obtain ⟨s, voted, hs, hnew, rfl, hdb⟩ := processUserOpConfirmed_ok hok
  have hvote : ({ db with
      userOpConfirmedVote := db.userOpConfirmedVote.insert (toLex (h, p)) obs } : Db).tables ≠
        db.tables :=
    tables_ne Db.userOpConfirmedVote (fun _ => rfl) (insert_ne_self hnew)
  rcases hdb with rfl | ⟨-, rfl⟩
  · exact hvote
  -- an agreed vote that contradicts the operation only stays; otherwise the operation is gone
  rcases applyUserOpConfirmed_submitted (u := u) { db with
      userOpConfirmedVote := db.userOpConfirmedVote.insert (toLex (h, p)) obs } h obs hs with
    hsame | hgone
  · rw [hsame]
    exact hvote
  · refine tables_ne (fun d => d.submittedUserOp.get? h) (fun _ => rfl) ?_
    rw [hgone, hs]
    nofun

/-- **No free history.**  An accepted consensus item, of any kind and from any guardian, changes
some table. -/
theorem no_free_history (u : Usdt) (db db' : Db) (item : UsdtConsensusItem) (p : PeerId)
    (hok : u.processConsensusItem db item p = .ok db') : db'.tables ≠ db.tables := by
  cases item with
  | blockCount vote => exact processBlockCount_tables hok
  | mpcRound item => exact processMpcRound_tables hok
  | mpcSignature id signature => exact processMpcSignature_tables hok
  | rotateSigning id => exact processRotateSigning_tables hok
  | userOpConfirmed h obs => exact processUserOpConfirmed_tables hok
  | feeVote vote => exact processFeeVote_tables hok
  | bootstrapObservation obs => exact processBootstrapObservation_tables hok
  | replaceUserOp h => exact processReplaceUserOp_tables hok
  | blockHash obs => exact processBlockHash_tables hok
  | recoverResidual a wei => exact processRecoverResidual_tables hok
  | withdrawFeesVote vote => exact processWithdrawFeesVote_tables hok
  | default variant bytes => cases hok

/-- The confirmation that settles the sample sweep. -/
def Sample.sweepConfirmation : UsdtConsensusItem :=
  .userOpConfirmed (sampleUsdt.opHash (Sample.sweep 50000 0))
    ⟨true, 1, 0, U64.clamp 50000, U64.zero⟩

/-- It is accepted and leaves no confirmation vote behind. -/
def Sample.settlesSweep (db : Db) : Bool :=
  (sampleUsdt.processConsensusItem db Sample.sweepConfirmation 0).toOption.any fun db' =>
    db'.userOpConfirmedVote.rows.isEmpty

/-- The confirmation that settles a sweep stores a vote and removes it with the operation. -/
theorem no_free_history_sweep :
    ∃ tr db db' obs, Run (Accepts sampleUsdt) Db.empty tr db ∧
      sampleUsdt.processConsensusItem db
        (.userOpConfirmed (sampleUsdt.opHash (Sample.sweep 50000 0)) obs) 0 = .ok db' ∧
      db'.userOpConfirmedVote.rows = [] ∧ db'.tables ≠ db.tables := by
  obtain ⟨tr, db, run, hdb⟩ := Run.exists_of_exec sampleUsdt.step Db.empty (Sample.funding.take 5)
    (fun _ db => Sample.settlesSweep db) (by decide +kernel)
  unfold Sample.settlesSweep at hdb
  cases hok : sampleUsdt.processConsensusItem db Sample.sweepConfirmation 0 with
  | error e =>
    rw [hok] at hdb
    cases hdb
  | ok db' =>
    rw [hok] at hdb
    exact ⟨tr, db, db', _, run, hok, List.isEmpty_iff.1 hdb,
      no_free_history sampleUsdt db db' Sample.sweepConfirmation 0 hok⟩

end Experimint.FedimintUsdt
