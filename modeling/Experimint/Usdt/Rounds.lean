import Experimint.Usdt.Finalize
import Experimint.Usdt.Inbox

/-!
# Signing rounds in a run

Only `MpcRound` items add chunks or move a session to its next round; every other item leaves a
session's chunks as they are or drops all of them, and a session it writes is at the round it was
at, or at the first (`Rounds`).  So the bounds that are checked when a chunk is accepted hold of
what is stored at any time.

* `Accepts.rounds` — what the other items do.
* `run_roundInv` — chunks agree on their number and stay within the bounds, in every run.
* `mpc_rounds` — chunking loses nothing and is bounded.
-/

set_option autoImplicit false

namespace Experimint.FedimintUsdt

/-- Chunks of a session are kept with the session at its round, or dropped together. -/
structure Rounds (s s' : Signing) : Prop where
  sessions : ∀ id t', s'.sessions.get? id = some t' →
    t'.round = 0 ∨ ∃ t, s.sessions.get? id = some t ∧ t'.round = t.round
  chunks : ∀ id, (∀ k : MpcRoundChunkKey, k.sessionId = id → s'.chunks.get? k = none) ∨
    ((∀ k : MpcRoundChunkKey, k.sessionId = id → s'.chunks.get? k = s.chunks.get? k) ∧
      ∀ t, s.sessions.get? id = some t → ∃ t', s'.sessions.get? id = some t' ∧ t'.round = t.round)

namespace Rounds

variable {s s₁ s' : Signing}

theorem of_eq (h : s' = s) : Rounds s s' := by
  subst h
  exact ⟨fun id t ht => .inr ⟨t, ht, rfl⟩, fun id => .inr ⟨fun _ _ => rfl, fun t ht => ⟨t, ht, rfl⟩⟩⟩

theorem trans (h : Rounds s s₁) (h' : Rounds s₁ s') : Rounds s s' where
  sessions id t' ht' := by
    rcases h'.sessions id t' ht' with hzero | ⟨t₁, ht₁, hround⟩
    · exact .inl hzero
    · rcases h.sessions id t₁ ht₁ with hzero | ⟨t, ht, hround'⟩
      · exact .inl (hround.trans hzero)
      · exact .inr ⟨t, ht, hround.trans hround'⟩
  chunks id := by
    rcases h'.chunks id with hdropped | ⟨hkept, hstay⟩
    · exact .inl hdropped
    · rcases h.chunks id with hdropped | ⟨hkept', hstay'⟩
      · exact .inl fun k hk => (hkept k hk).trans (hdropped k hk)
      · refine .inr ⟨fun k hk => (hkept k hk).trans (hkept' k hk), fun t ht => ?_⟩
        obtain ⟨t₁, ht₁, hround₁⟩ := hstay' t ht
        obtain ⟨t', ht', hround'⟩ := hstay t₁ ht₁
        exact ⟨t', ht', hround'.trans hround₁⟩

/-- The chunks of one session are dropped, and the session with them or left at its round. -/
theorem drop (id : SigningSessionId)
    (hchunks : s'.chunks = s.chunks.eraseWhere fun k => decide (k.sessionId = id))
    (hother : ∀ id' ≠ id, s'.sessions.get? id' = s.sessions.get? id')
    (hself : ∀ t', s'.sessions.get? id = some t' →
      ∃ t, s.sessions.get? id = some t ∧ t'.round = t.round) : Rounds s s' where
  sessions id' t' ht' := by
    by_cases hid : id' = id
    · subst hid
      exact .inr (hself t' ht')
    · exact .inr ⟨t', (hother id' hid).symm.trans ht', rfl⟩
  chunks id' := by
    by_cases hid : id' = id
    · refine .inl fun k hk => ?_
      rw [hchunks, Table.get?_eraseWhere]
      simp [hk, hid]
    · refine .inr ⟨fun k hk => ?_, fun t ht => ⟨t, (hother id' hid).trans ht, rfl⟩⟩
      rw [hchunks, Table.get?_eraseWhere]
      simp [hk, hid]

end Rounds

variable {u : Usdt} {db db' : Db}

/-! ## Sessions started and dropped -/

theorem rounds_startSession (db : Db) (purpose : SigningPurpose) (digest : Hash) (attempt : Nat) :
    Rounds db.signing (u.startSession db purpose digest attempt).signing := by
  unfold Usdt.startSession
  dsimp only
  split
  · exact .of_eq rfl
  · rename_i hnew
    have hnone : db.signingSession.get? (u.evm.signingSessionId digest attempt) = none := by
      simpa [Table.contains] using hnew
    refine ⟨fun id t' ht' => ?_, fun id => .inr ⟨fun _ _ => rfl, fun t ht => ⟨t, ?_, rfl⟩⟩⟩
    · have ht' : (db.signingSession.insert _ _).get? id = some t' := ht'
      rw [Table.get?_insert] at ht'
      split at ht'
      · cases ht'
        exact .inl rfl
      · exact .inr ⟨t', ht', rfl⟩
    · refine (Table.get?_insert_ne _ _ ?_).trans ht
      rintro rfl
      cases hnone.symm.trans ht

theorem rounds_startOpSession {db₁ : Db} (h : db₁.signing = db.signing) (op : Hash) :
    Rounds db.signing (u.startOpSession db₁ op).signing := by
  rw [← h]
  exact rounds_startSession _ _ _ _

theorem rounds_removeSigningSessionsForOp (db : Db) (h : Hash) :
    Rounds db.signing (removeSigningSessionsForOp db h).signing := by
  unfold removeSigningSessionsForOp
  dsimp only
  generalize (db.signingSession.rows.filter _) = sessions
  induction sessions generalizing db with
  | nil => exact .of_eq rfl
  | cons r rest ih =>
    rw [List.foldl_cons]
    refine Rounds.trans (Rounds.drop r.1 rfl ?_ ?_) (ih _)
    · intro id hid
      exact Table.get?_erase_ne _ hid
    · intro t' ht'
      have ht' : (db.signingSession.erase r.1).get? r.1 = some t' := ht'
      rw [Table.get?_erase_self] at ht'
      cases ht'

theorem rounds_purgeUserOpNonceChain (db : Db) (sender : EvmAddress) (nonce : Nat) (h : Hash) :
    Rounds db.signing (purgeUserOpNonceChain db sender nonce h).signing := by
  have hpending : ∀ (rows : List (Hash × PendingUserOp)) (db : Db),
      Rounds db.signing (rows.foldl (fun db r => db.removePending r.1) db).signing := by
    intro rows
    induction rows with
    | nil => exact fun db => .of_eq rfl
    | cons r rest ih =>
      intro db
      rw [List.foldl_cons]
      refine Rounds.trans ?_ (ih _)
      exact rounds_removeSigningSessionsForOp { db with
        pendingUserOp := db.pendingUserOp.erase r.1 } r.1
  exact Rounds.trans (.of_eq (signing_removeSubmitted_foldl _ db)) (hpending _ _)

/-! ## Triggers -/

theorem rounds_maybeTriggerSweep (db : Db) (a : EvmAddress) :
    Rounds db.signing (u.maybeTriggerSweep db a).signing := by
  rcases maybeTriggerSweep_cases u db a with hsame | ⟨_, _, _, -, -, -, -, -, -, -, heq⟩
  · exact .of_eq (by rw [hsame])
  · rw [heq]
    refine rounds_startOpSession ?_ _
    rfl

theorem rounds_accelerateSweeps (db : Db) :
    Rounds db.signing (u.accelerateSweepsForWithdrawals db).signing := by
  unfold Usdt.accelerateSweepsForWithdrawals
  generalize db.depositRecord.rows = rows
  induction rows generalizing db with
  | nil => exact .of_eq rfl
  | cons r rest ih =>
    rw [List.foldl_cons]
    refine Rounds.trans ?_ (ih _)
    split
    · exact rounds_maybeTriggerSweep db r.1
    · exact .of_eq rfl

theorem rounds_maybeTriggerWithdrawalBatch (db : Db) :
    Rounds db.signing (u.maybeTriggerWithdrawalBatch db).signing := by
  rcases maybeTriggerWithdrawalBatch_cases u db with hsame | hsweeps | ⟨ws, -, -, -, heq⟩
  · exact .of_eq (by rw [hsame])
  · rw [hsweeps]
    exact rounds_accelerateSweeps db
  · rw [heq]
    refine rounds_startOpSession ?_ _
    rfl

theorem rounds_maybeTriggerResidualRecovery (db : Db) (a : EvmAddress) :
    Rounds db.signing (u.maybeTriggerResidualRecovery db a).signing := by
  rcases maybeTriggerResidualRecovery_cases u db a with hsame | ⟨_, _, _, _, -, -, -, -, -, -, heq⟩
  · exact .of_eq (by rw [hsame])
  · rw [heq]
    refine rounds_startOpSession ?_ _
    rfl

theorem rounds_maybeTriggerFeeWithdrawal (db : Db) :
    Rounds db.signing (u.maybeTriggerFeeWithdrawal db).signing := by
  rcases maybeTriggerFeeWithdrawal_cases u db with hsame | ⟨_, _, -, -, -, -, -, heq⟩
  · exact .of_eq (by rw [hsame])
  · rw [heq]
    refine rounds_startOpSession ?_ _
    rfl

/-! ## Items -/

theorem rounds_applyUserOpConfirmed (db : Db) (h : Hash) (obs : UserOpConfirmedObservation) :
    Rounds db.signing (u.applyUserOpConfirmed db h obs).signing := by
  unfold Usdt.applyUserOpConfirmed
  split
  · exact .of_eq rfl
  rename_i s _
  split
  · exact .of_eq rfl
  rename_i swept _
  dsimp only
  have hsettled : Rounds db.signing ((u.settle (db.record (.userOpConfirmed s.signed.unsigned
      s.purpose obs.success swept)) s obs swept).removeSubmitted h).signing :=
    .of_eq (signing_settle _ s obs swept)
  have hpurged := hsettled.trans
    (rounds_purgeUserOpNonceChain _ s.signed.unsigned.sender s.signed.unsigned.nonce h)
  split
  · exact hpurged
  · exact hpurged.trans (rounds_maybeTriggerSweep _ _)

theorem processRotateSigning_rounds {id : SigningSessionId}
    (hok : u.processRotateSigning db id = .ok db') : Rounds db.signing db'.signing := by
  obtain ⟨session, hsession, -, rfl⟩ := processRotateSigning_ok hok
  refine Rounds.trans (Rounds.drop id ?_ ?_ ?_) (rounds_startSession _ _ _ _)
  · rfl
  · intro id' hid
    exact Table.get?_insert_ne _ _ (Ne.symm hid)
  · intro t' ht'
    cases (Table.get?_insert_self db.signingSession id _).symm.trans ht'
    exact ⟨session, hsession, rfl⟩

theorem processMpcSignature_rounds {id : SigningSessionId} {signature : Bytes}
    (hok : u.processMpcSignature db id signature = .ok db') : Rounds db.signing db'.signing := by
  obtain ⟨session, pending, ethSig, hsession, -, -, -, -, -, rfl⟩ := processMpcSignature_ok hok
  refine Rounds.drop id ?_ ?_ ?_
  · rfl
  · intro id' hid
    exact Table.get?_insert_ne _ _ (Ne.symm hid)
  · intro t' ht'
    cases (Table.get?_insert_self db.signingSession id _).symm.trans ht'
    exact ⟨session, hsession, rfl⟩

theorem processReplaceUserOp_rounds {h : Hash} (hok : u.processReplaceUserOp db h = .ok db') :
    Rounds db.signing db'.signing := by
  obtain ⟨s, median, -, -, -, op, -, -, -, rfl⟩ := processReplaceUserOp_ok hok
  refine rounds_startOpSession ?_ _
  cases s.purpose <;> rfl

/-- What an item other than a round's chunk does to the sessions. -/
theorem processConsensusItem_rounds {item : UsdtConsensusItem} {peerId : PeerId}
    (hok : u.processConsensusItem db item peerId = .ok db')
    (hitem : ∀ m, item ≠ .mpcRound m) : Rounds db.signing db'.signing := by
  cases item with
  | mpcRound m => exact absurd rfl (hitem m)
  | blockCount vote =>
    obtain ⟨-, rfl⟩ := processBlockCount_ok hok
    exact rounds_maybeTriggerWithdrawalBatch { db with
      blockCountVote := db.blockCountVote.insert peerId vote }
  | mpcSignature id signature => exact processMpcSignature_rounds hok
  | rotateSigning id => exact processRotateSigning_rounds hok
  | userOpConfirmed h obs =>
    obtain ⟨s, voted, -, -, rfl, hdb⟩ := processUserOpConfirmed_ok hok
    rcases hdb with rfl | ⟨-, rfl⟩
    · exact .of_eq rfl
    · exact rounds_applyUserOpConfirmed { db with
        userOpConfirmedVote := db.userOpConfirmedVote.insert (toLex (h, peerId)) obs } h obs
  | feeVote vote =>
    obtain ⟨-, -, rfl⟩ := processFeeVote_ok hok
    exact .of_eq rfl
  | bootstrapObservation obs =>
    obtain ⟨-, ready, rfl⟩ := processBootstrapObservation_ok hok
    exact .of_eq rfl
  | replaceUserOp h => exact processReplaceUserOp_rounds hok
  | blockHash obs =>
    obtain ⟨-, -, -, _, rfl, rfl | ⟨-, rfl⟩⟩ := processBlockHash_ok hok
    · exact .of_eq rfl
    · exact .of_eq rfl
  | recoverResidual a wei =>
    obtain ⟨-, rfl⟩ := processRecoverResidual_ok hok
    exact rounds_maybeTriggerResidualRecovery { db with
      recoverResidualVote := db.recoverResidualVote.insert (toLex (a, peerId)) wei } a
  | withdrawFeesVote vote =>
    obtain ⟨-, rfl⟩ := processWithdrawFeesVote_ok hok
    exact rounds_maybeTriggerFeeWithdrawal { db with
      withdrawFeesVote := db.withdrawFeesVote.insert peerId vote }
  | default _ _ => cases hok

theorem processInput_rounds {input : UsdtInput} {m : InputMeta}
    (hok : u.processInput db input = .ok (m, db')) : Rounds db.signing db'.signing := by
  cases input with
  | refundV0 o =>
    obtain ⟨f, -, -, rfl⟩ := claimRefund_ok hok
    exact .of_eq rfl
  | depositProofV0 pk proof fee =>
    obtain ⟨_, _, _, _, _, _, -, -, -, -, -, -, -, -, -, rfl⟩ := processDepositProof_ok hok
    refine Rounds.trans (.of_eq ?_) (rounds_maybeTriggerSweep _ _)
    rfl
  | default _ _ => cases hok

theorem processOutput_signing {output : UsdtOutput} {o : OutPoint}
    {amounts : TransactionItemAmounts} (hok : u.processOutput db output o = .ok (amounts, db')) :
    db'.signing = db.signing := by
  obtain ⟨w, _, _, -, -, -, -, -, rfl⟩ := processOutput_ok hok
  rfl

/-- **Items other than chunks start sessions, leave them, or drop their chunks.** -/
theorem Accepts.rounds {item : Item} {answer : Answer} (h : Accepts u db item answer db')
    (hitem : ∀ m p, item ≠ .consensus (.mpcRound m) p) : Rounds db.signing db'.signing := by
  cases item with
  | input input =>
    obtain ⟨m, hok⟩ := Accepts.input h
    exact processInput_rounds hok
  | output output o =>
    obtain ⟨amounts, hok⟩ := Accepts.output h
    exact .of_eq (processOutput_signing hok)
  | consensus item peerId =>
    refine processConsensusItem_rounds (Accepts.consensus h) ?_
    rintro m rfl
    exact hitem m peerId rfl

/-! ## Bounds -/

/-- What every run keeps of the stored chunks. -/
structure RoundInv (db : Db) : Prop where
  /-- Chunks name an index below their number. -/
  index : ∀ sid r p i c, db.mpcRoundChunk.get? ⟨sid, r, p, i⟩ = some c →
    i < c.count ∧ c.count ≤ MAX_MPC_CHUNKS
  /-- Chunks of a peer agree on their number. -/
  count : ∀ sid r p i c j c', db.mpcRoundChunk.get? ⟨sid, r, p, i⟩ = some c →
    db.mpcRoundChunk.get? ⟨sid, r, p, j⟩ = some c' → c.count = c'.count
  bytes : ∀ sid r p, ((db.peerChunks sid r p).map fun c => c.2.bytes.length).sum ≤
    MAX_MPC_ROUND_BYTES
  /-- No chunk is stored for a round that has not begun. -/
  begun : ∀ sid r p i c, db.mpcRoundChunk.get? ⟨sid, r, p, i⟩ = some c →
    ∃ session, db.signingSession.get? sid = some session ∧ r ≤ session.round

/-- Dropping chunks keeps the bounds. -/
theorem RoundInv.of_rounds (hinv : RoundInv db) (h : Rounds db.signing db'.signing) :
    RoundInv db' := by
  have hback : ∀ {sid r p i c}, db'.mpcRoundChunk.get? ⟨sid, r, p, i⟩ = some c →
      db.mpcRoundChunk.get? ⟨sid, r, p, i⟩ = some c ∧
      ∀ t, db.signingSession.get? sid = some t →
        ∃ t', db'.signingSession.get? sid = some t' ∧ t'.round = t.round := by
    intro sid r p i c hc
    rcases h.chunks sid with hdropped | ⟨hkept, hstay⟩
    · cases (hdropped ⟨sid, r, p, i⟩ rfl).symm.trans hc
    · exact ⟨(hkept ⟨sid, r, p, i⟩ rfl).symm.trans hc, hstay⟩
  refine ⟨?_, ?_, ?_, ?_⟩
  · intro sid r p i c hc
    exact hinv.index sid r p i c (hback hc).1
  · intro sid r p i c j c' hc hc'
    exact hinv.count sid r p i c j c' (hback hc).1 (hback hc').1
  · intro sid r p
    rcases h.chunks sid with hdropped | ⟨hkept, -⟩
    · have hnil : db'.peerChunks sid r p = [] := by
        refine List.eq_nil_iff_forall_not_mem.2 ?_
        rintro ⟨k, c⟩ hq
        cases (hdropped ⟨sid, r, p, k.chunk⟩ rfl).symm.trans (mem_peerChunks.1 hq).2
      simp [hnil]
    · rw [peerChunks_congr fun i => hkept ⟨sid, r, p, i⟩ rfl]
      exact hinv.bytes sid r p
  · intro sid r p i c hc
    obtain ⟨hc, hstay⟩ := hback hc
    obtain ⟨t, ht, hle⟩ := hinv.begun sid r p i c hc
    obtain ⟨t', ht', hround⟩ := hstay t ht
    exact ⟨t', ht', by omega⟩

/-- What an accepted chunk adds to its peer's. -/
theorem peerChunks_storeChunk {item : MpcRoundItem} {p : PeerId}
    (hnew : db.mpcRoundChunk.get? ⟨item.sessionId, item.round, p, item.chunk⟩ = none) :
    ((db.storeChunk item p).peerChunks item.sessionId item.round p).Perm
      ((⟨item.sessionId, item.round, p, item.chunk⟩, ⟨item.chunkCount, item.payload⟩) ::
        db.peerChunks item.sessionId item.round p) := by
  refine (List.perm_ext_iff_of_nodup (List.Nodup.of_map _ (nodup_peerChunks _ _ _ _)) ?_).2 ?_
  · refine List.nodup_cons.2 ⟨fun hmem => ?_, List.Nodup.of_map _ (nodup_peerChunks _ _ _ _)⟩
    cases hnew.symm.trans (mem_peerChunks.1 hmem).2
  · rintro ⟨k, c⟩
    rw [List.mem_cons, mem_peerChunks, mem_peerChunks]
    show _ ∧ (db.mpcRoundChunk.insert _ _).get? _ = _ ↔ _
    rw [Table.get?_insert]
    constructor
    · rintro ⟨hk, hc⟩
      split at hc
      · rename_i hkey
        exact .inl (Prod.ext (hk.trans hkey.symm) (Option.some.inj hc).symm)
      · exact .inr ⟨hk, hc⟩
    · rintro (heq | ⟨hk, hc⟩)
      · obtain ⟨rfl, rfl⟩ := Prod.mk.inj heq
        simp
      · refine ⟨hk, ?_⟩
        rw [if_neg, hc]
        intro hkey
        rw [← hkey, hnew] at hc
        cases hc

theorem RoundInv.storeChunk {item : MpcRoundItem} {p : PeerId} {session : SigningSession}
    (hinv : RoundInv db) (hfits : Fits db item p)
    (hsession : db.signingSession.get? item.sessionId = some session)
    (hround : item.round = session.round) : RoundInv (db.storeChunk item p) := by
  have hget : ∀ {k c}, (db.storeChunk item p).mpcRoundChunk.get? k = some c →
      (k = ⟨item.sessionId, item.round, p, item.chunk⟩ ∧ c = ⟨item.chunkCount, item.payload⟩) ∨
        db.mpcRoundChunk.get? k = some c := by
    intro k c hc
    have hc : (db.mpcRoundChunk.insert ⟨item.sessionId, item.round, p, item.chunk⟩
      ⟨item.chunkCount, item.payload⟩).get? k = some c := hc
    rw [Table.get?_insert] at hc
    split at hc
    · rename_i hkey
      exact .inl ⟨hkey.symm, (Option.some.inj hc).symm⟩
    · exact .inr hc
  -- every chunk of this peer's round carries the item's number
  have hcounts : ∀ i c, db.mpcRoundChunk.get? ⟨item.sessionId, item.round, p, i⟩ = some c →
      c.count = item.chunkCount :=
    fun i c hc => hfits.counts (⟨_, _, _, i⟩, c) (mem_peerChunks.2 ⟨rfl, hc⟩)
  refine ⟨?_, ?_, ?_, ?_⟩
  · intro sid r p' i c hc
    rcases hget hc with ⟨hkey, rfl⟩ | hc
    · cases hkey
      exact ⟨hfits.index, hfits.few⟩
    · exact hinv.index sid r p' i c hc
  · intro sid r p' i c j c' hc hc'
    rcases hget hc with ⟨hkey, rfl⟩ | hc <;> rcases hget hc' with ⟨hkey', rfl⟩ | hc'
    · rfl
    · cases hkey
      exact (hcounts j c' hc').symm
    · cases hkey'
      exact hcounts i c hc
    · exact hinv.count sid r p' i c j c' hc hc'
  · intro sid r p'
    by_cases hkey : sid = item.sessionId ∧ r = item.round ∧ p' = p
    · obtain ⟨rfl, rfl, rfl⟩ := hkey
      rw [((peerChunks_storeChunk hfits.new).map _).sum_eq, List.map_cons, List.sum_cons,
        Nat.add_comm]
      exact hfits.bytes
    · have hsame : (db.storeChunk item p).peerChunks sid r p' = db.peerChunks sid r p' := by
        refine peerChunks_congr fun i => Table.get?_insert_ne _ _ fun heq => ?_
        cases heq
        exact hkey ⟨rfl, rfl, rfl⟩
      rw [hsame]
      exact hinv.bytes sid r p'
  · intro sid r p' i c hc
    rcases hget hc with ⟨hkey, -⟩ | hc
    · cases hkey
      exact ⟨session, hsession, hround.le⟩
    · exact hinv.begun sid r p' i c hc

theorem RoundInv.processMpcRound {item : MpcRoundItem} {p : PeerId} (hinv : RoundInv db)
    (hok : u.processMpcRound db item p = .ok db') : RoundInv db' := by
  obtain ⟨session, hsession, -, hround, hfits, rfl⟩ := processMpcRound_eq_ok_iff.1 hok
  have hstored := hinv.storeChunk hfits hsession hround
  split
  · refine ⟨hstored.index, hstored.count, hstored.bytes, ?_⟩
    intro sid r p' i c hc
    obtain ⟨t, ht, hle⟩ := hstored.begun sid r p' i c hc
    show ∃ session', (db.signingSession.insert item.sessionId _).get? sid = some session' ∧ _
    rw [Table.get?_insert]
    split
    · rename_i hid
      subst hid
      cases hsession.symm.trans ht
      exact ⟨_, rfl, Nat.le_succ_of_le hle⟩
    · exact ⟨t, ht, hle⟩
  · exact hstored

theorem roundInv_empty : RoundInv Db.empty where
  index _ _ _ _ _ hc := by cases hc
  count _ _ _ _ _ _ _ hc := by cases hc
  bytes _ _ _ := Nat.zero_le _
  begun _ _ _ _ _ hc := by cases hc

/-- **The stored chunks stay within their bounds, in every run.** -/
theorem run_roundInv {tr : List (Item × Answer)} (run : Run (Accepts u) Db.empty tr db) :
    RoundInv db := by
  refine run.invariant (P := RoundInv) roundInv_empty ?_
  intro db item answer db' hinv h
  by_cases hitem : ∃ m p, item = .consensus (.mpcRound m) p
  · obtain ⟨m, p, rfl⟩ := hitem
    have hok : u.processMpcRound db m p = .ok db' := Accepts.consensus h
    exact hinv.processMpcRound hok
  · exact hinv.of_rounds (Accepts.rounds h fun m p heq => hitem ⟨m, p, heq⟩)

/-- Chunks per peer and round. -/
theorem RoundInv.length_le (hinv : RoundInv db) (sid : SigningSessionId) (r : Nat) (p : PeerId) :
    (db.peerChunks sid r p).length ≤ MAX_MPC_CHUNKS := by
  have hsub : (db.peerChunks sid r p).map (fun q => q.1.chunk) ⊆ List.range MAX_MPC_CHUNKS := by
    intro i hi
    obtain ⟨c, hc⟩ := Option.isSome_iff_exists.1 (mem_chunk_indices.1 hi)
    have := hinv.index sid r p i c hc
    exact List.mem_range.2 (by omega)
  have hle := ((nodup_peerChunks db sid r p).subperm hsub).length_le
  simpa using hle

/-- A chunk, once accepted, is kept by later chunks, and otherwise kept or dropped. -/
theorem Accepts.chunk_kept {item : Item} {answer : Answer} (h : Accepts u db item answer db')
    {k : MpcRoundChunkKey} {c : MpcRoundChunk} (hc : db.mpcRoundChunk.get? k = some c) :
    db'.mpcRoundChunk.get? k = some c ∨
      db'.mpcRoundChunk.get? k = none ∧ ∀ m p, item ≠ .consensus (.mpcRound m) p := by
  by_cases hitem : ∃ m p, item = .consensus (.mpcRound m) p
  · obtain ⟨m, p, rfl⟩ := hitem
    have hok : u.processMpcRound db m p = .ok db' := Accepts.consensus h
    obtain ⟨session, -, -, -, hfits, rfl⟩ := processMpcRound_eq_ok_iff.1 hok
    have hkept : (db.storeChunk m p).mpcRoundChunk.get? k = some c := by
      refine (Table.get?_insert_ne _ _ ?_).trans hc
      rintro rfl
      cases hfits.new.symm.trans hc
    split
    · exact .inl hkept
    · exact .inl hkept
  · have hother : ∀ m p, item ≠ .consensus (.mpcRound m) p := fun m p heq => hitem ⟨m, p, heq⟩
    rcases (Accepts.rounds h hother).chunks k.sessionId with hdropped | ⟨hkept, -⟩
    · exact .inr ⟨hdropped k rfl, hother⟩
    · exact .inl ((hkept k rfl).trans hc)

/-- A complete peer has all the chunks it has announced. -/
theorem RoundInv.declared (hinv : RoundInv db) {sid : SigningSessionId} {r : Nat} {p : PeerId}
    (hcomplete : db.peerComplete sid r p = true) :
    ∃ n, 0 < n ∧ (∀ i, (db.mpcRoundChunk.get? ⟨sid, r, p, i⟩).isSome = true ↔ i < n) ∧
      ∀ i c, db.mpcRoundChunk.get? ⟨sid, r, p, i⟩ = some c → c.count = n := by
  obtain ⟨i₀, c₀, hc₀⟩ : ∃ i c, db.mpcRoundChunk.get? ⟨sid, r, p, i⟩ = some c := by
    by_contra hnone
    push Not at hnone
    have hempty := (peerComplete_iff (n := 0) fun i c hc => absurd hc (hnone i c)).1 hcomplete
    exact lt_irrefl _ hempty.1
  have hagree : ∀ i c, db.mpcRoundChunk.get? ⟨sid, r, p, i⟩ = some c →
      c.count = c₀.count ∧ i < c₀.count := by
    intro i c hc
    have hcount := hinv.count sid r p i c i₀ c₀ hc hc₀
    exact ⟨hcount, hcount ▸ (hinv.index sid r p i c hc).1⟩
  obtain ⟨hpos, hevery⟩ := (peerComplete_iff hagree).1 hcomplete
  refine ⟨c₀.count, hpos, fun i => ⟨fun hi => ?_, hevery i⟩, fun i c hc => (hagree i c hc).1⟩
  obtain ⟨c, hc⟩ := Option.isSome_iff_exists.1 hi
  exact (hagree i c hc).2

/-- A round ends by one, when every signer has all the chunks it has announced. -/
theorem Accepts.round_complete {item : Item} {answer : Answer}
    (h : Accepts u db item answer db') {sid : SigningSessionId} {s s' : SigningSession}
    (hs : db.signingSession.get? sid = some s) (hs' : db'.signingSession.get? sid = some s')
    (hlt : s.round < s'.round) :
    s'.round = s.round + 1 ∧ ∀ p ∈ s.signers, db'.peerComplete sid s.round p = true := by
  by_cases hitem : ∃ m p, item = .consensus (.mpcRound m) p
  · obtain ⟨m, p, rfl⟩ := hitem
    have hok : u.processMpcRound db m p = .ok db' := Accepts.consensus h
    obtain ⟨session, hsession, -, hround, -, rfl⟩ := processMpcRound_eq_ok_iff.1 hok
    split at hs'
    · rename_i hcomplete
      have hins : (db.signingSession.insert m.sessionId _).get? sid = some s' := hs'
      rw [Table.get?_insert] at hins
      split at hins
      · rename_i hid
        subst hid
        cases hsession.symm.trans hs
        obtain rfl := Option.some.inj hins
        refine ⟨rfl, fun p' hp' => ?_⟩
        rw [if_pos hcomplete, ← hround]
        exact List.all_eq_true.1 hcomplete p' hp'
      · cases hs.symm.trans hins
        omega
    · have hs' : db.signingSession.get? sid = some s' := hs'
      cases hs.symm.trans hs'
      omega
  · rcases (Accepts.rounds h fun m p heq => hitem ⟨m, p, heq⟩).sessions sid s' hs' with
      hzero | ⟨t, ht, hround⟩
    · omega
    · cases hs.symm.trans ht
      omega

/-- **Chunking of signing rounds loses nothing and is bounded.**  The chunks of an open round, in
any interleaving with repetitions and foreign items, are each accepted the first time; the last one
ends the round, with the payloads as they were sent.  Whatever the items, a peer stores at most 18
chunks and 512 KiB for a round, an accepted chunk is never altered, and a round ends only when every
signer has all the chunks it has announced. -/
theorem mpc_rounds (u : Usdt) :
    (∀ (R : OpenRound) (db : Db) (xs : List (MpcRoundItem × PeerId)),
      db.signingSession.get? R.sid = some R.session →
      (∀ p ∈ R.session.signers, ∀ i,
        db.mpcRoundChunk.get? ⟨R.sid, R.session.round, p, i⟩ = none) →
      (∀ x ∈ xs, R.Honest x ∨ R.Foreign x) →
      (¬ R.AllSent xs → (u.deliver db xs).signingSession.get? R.sid = some R.session) ∧
      ∀ p ∈ R.session.signers, ∀ i < (R.pieces p).length, (R.item p i, p) ∉ xs →
        ∃ db', u.processMpcRound (u.deliver db xs) (R.item p i) p = .ok db' ∧
          (R.AllSent (xs ++ [(R.item p i, p)]) →
            (∃ s', db'.signingSession.get? R.sid = some s' ∧ s'.round = R.session.round + 1) ∧
            db'.reassemblePayloads R.sid R.session.round R.session.signers =
              .ok ((R.session.signers.insertionSort (· ≤ ·)).map R.payload)) ∧
          (¬ R.AllSent (xs ++ [(R.item p i, p)]) →
            db'.signingSession.get? R.sid = some R.session)) ∧
    (∀ tr db, Run (Accepts u) Db.empty tr db → ∀ sid r p,
      (db.peerChunks sid r p).length ≤ 18 ∧
        ((db.peerChunks sid r p).map fun c => c.2.bytes.length).sum ≤ 512 * 1024) ∧
    (∀ db item answer db', Accepts u db item answer db' → ∀ k c,
      db.mpcRoundChunk.get? k = some c → db'.mpcRoundChunk.get? k = some c ∨
        db'.mpcRoundChunk.get? k = none ∧ ∀ m p, item ≠ .consensus (.mpcRound m) p) ∧
    ∀ tr db item answer db' sid s s', Run (Accepts u) Db.empty tr db →
      Accepts u db item answer db' → db.signingSession.get? sid = some s →
      db'.signingSession.get? sid = some s' → s.round < s'.round →
      s'.round = s.round + 1 ∧ ∀ p ∈ s.signers, ∃ n, 0 < n ∧
        (∀ i, (db'.mpcRoundChunk.get? ⟨sid, s.round, p, i⟩).isSome = true ↔ i < n) ∧
        ∀ i c, db'.mpcRoundChunk.get? ⟨sid, s.round, p, i⟩ = some c → c.count = n := by
  refine ⟨?_, ?_, ?_, ?_⟩
  · intro R db xs hsession hempty hxs
    have hstart : R.Inbox db [] := by
      refine ⟨hsession, ⟨fun p hp i hi hmem => absurd hmem (by simp), fun p hp i c hc => ?_⟩⟩
      cases (hempty p hp i).symm.trans hc
    refine ⟨fun hmissing => (OpenRound.delivered hstart hxs hmissing).session, ?_⟩
    intro p hp i hi hnew
    have hinbox : R.Inbox (u.deliver db xs) xs :=
      OpenRound.delivered hstart hxs fun hall => hnew (hall p hp i hi)
    obtain ⟨db', hok, hstored, hends, hopen⟩ := hinbox.honest (u := u) hp hi hnew
    exact ⟨db', hok, fun hall => ⟨⟨_, hends hall, rfl⟩, hstored.reassemblePayloads hall⟩, hopen⟩
  · intro tr db run sid r p
    exact ⟨(run_roundInv run).length_le sid r p, (run_roundInv run).bytes sid r p⟩
  · intro db item answer db' h k c hc
    exact Accepts.chunk_kept h hc
  · intro tr db item answer db' sid s s' run h hs hs' hlt
    obtain ⟨hround, hcomplete⟩ := Accepts.round_complete h hs hs' hlt
    refine ⟨hround, fun p hp => ?_⟩
    exact (run_roundInv (.next run h)).declared (hcomplete p hp)

namespace Sample

/-- A round of two signers, one of whom needs two chunks. -/
def openRound : OpenRound where
  sid := 5
  session := ⟨.userOp 9, 9, [3, 1], 0, .inProgress, 0, 0⟩
  payload p := if p = 1 then List.replicate (MPC_ROUND_CHUNK_SIZE + 1) 7 else [8]
  small p hp := by
    split
    · rw [List.length_replicate]
      decide
    · decide

theorem openRound_pieces : (openRound.pieces 1).length = 2 ∧ (openRound.pieces 3).length = 1 := by
  refine ⟨?_, rfl⟩
  show (chunkPayload (List.replicate (MPC_ROUND_CHUNK_SIZE + 1) 7)).length = 2
  unfold chunkPayload
  rw [if_neg (by simp), length_chunksOf, List.length_replicate]
  decide

def openDb : Db :=
  { Db.empty with signingSession := Table.empty.insert openRound.sid openRound.session }

/-- Chunks out of order, with one of a guardian that does not sign and one of another session. -/
def arrivals : List (MpcRoundItem × PeerId) :=
  [(openRound.item 1 1, 1), (chunkItem 5 0 [6] 0, 2), (chunkItem 6 0 [6] 0, 3),
    (openRound.item 3 0, 3)]

theorem arrivals_honest : ∀ x ∈ arrivals, openRound.Honest x ∨ openRound.Foreign x := by
  obtain ⟨htwo, hone⟩ := openRound_pieces
  intro x hx
  simp only [arrivals, List.mem_cons, List.not_mem_nil, or_false] at hx
  rcases hx with rfl | rfl | rfl | rfl
  · exact .inl ⟨by decide, 1, by rw [htwo]; decide, rfl⟩
  · exact .inr (.inl (by decide))
  · exact .inr (.inr (.inl (by decide)))
  · exact .inl ⟨by decide, 0, by rw [hone]; decide, rfl⟩

theorem arrivals_last : (openRound.item 1 0, 1) ∉ arrivals ∧
    openRound.AllSent (arrivals ++ [(openRound.item 1 0, 1)]) := by
  obtain ⟨htwo, hone⟩ := openRound_pieces
  constructor
  · intro hmem
    have hmem := List.mem_map_of_mem (f := fun x : MpcRoundItem × PeerId => (x.1.chunk, x.2)) hmem
    revert hmem
    decide
  · intro p hp i hi
    simp only [openRound, List.mem_cons, List.not_mem_nil, or_false] at hp
    rcases hp with rfl | rfl
    · obtain rfl : i = 0 := by omega
      simp [arrivals]
    · obtain rfl | rfl : i = 0 ∨ i = 1 := by omega
      · simp [arrivals]
      · simp [arrivals]

/-- The first round of a sweep's session, of the one guardian there is. -/
def roundItem : Item :=
  vote (.mpcRound (chunkItem (sampleEvm.signingSessionId
    (sampleEvm.ethSignedMessageHash (sampleUsdt.opHash (sweep 50000 0))) 0) 0 [4] 0))

end Sample

/-- The last chunk of a round completes it with the payloads in the order of the signers; and a run
in which a round ends. -/
theorem mpc_rounds_two :
    (∃ db', sampleUsdt.processMpcRound (sampleUsdt.deliver Sample.openDb Sample.arrivals)
        (Sample.openRound.item 1 0) 1 = .ok db' ∧
      (∃ s', db'.signingSession.get? 5 = some s' ∧ s'.round = 1) ∧
      db'.reassemblePayloads 5 0 [3, 1] =
        .ok [List.replicate (MPC_ROUND_CHUNK_SIZE + 1) 7, [8]]) ∧
    ∃ tr db answer db' sid s s', Run (Accepts sampleUsdt) Db.empty tr db ∧
      Accepts sampleUsdt db Sample.roundItem answer db' ∧ db.signingSession.get? sid = some s ∧
      db'.signingSession.get? sid = some s' ∧ s.round < s'.round ∧
      ((db'.peerChunks sid s.round 0).length ≤ 18) ∧
      ∀ p ∈ s.signers, ∃ n, 0 < n ∧
        (∀ i, (db'.mpcRoundChunk.get? ⟨sid, s.round, p, i⟩).isSome = true ↔ i < n) ∧
        ∀ i c, db'.mpcRoundChunk.get? ⟨sid, s.round, p, i⟩ = some c → c.count = n := by
  obtain ⟨hdeliver, hbounds, -, hends⟩ := mpc_rounds sampleUsdt
  constructor
  · obtain ⟨hnew, hall⟩ := Sample.arrivals_last
    obtain ⟨db', hok, hdone, -⟩ := (hdeliver Sample.openRound Sample.openDb Sample.arrivals
      (Table.get?_insert_self _ _ _) (fun _ _ _ => rfl) Sample.arrivals_honest).2 1 (by decide) 0
      (by rw [Sample.openRound_pieces.1]; decide) hnew
    obtain ⟨hround, hpayloads⟩ := hdone hall
    exact ⟨db', hok, hround, hpayloads⟩
  · let sid := sampleEvm.signingSessionId
      (sampleEvm.ethSignedMessageHash (sampleUsdt.opHash (Sample.sweep 50000 0))) 0
    obtain ⟨tr, db, run, hdb⟩ := Run.exists_of_exec sampleUsdt.step Db.empty
      (Sample.anchor 1 ++ [Sample.vote (.feeVote ⟨1, 1⟩), Sample.deposit 1 50000 10000])
      (fun _ db => (sampleUsdt.step db Sample.roundItem).any fun next : Answer × Db =>
        ((db.signingSession.get? sid).any fun s : SigningSession =>
          (next.2.signingSession.get? sid).any fun s' : SigningSession =>
            decide (s.round < s'.round))) (by decide +kernel)
    simp only [Option.any_eq_true, decide_eq_true_eq] at hdb
    obtain ⟨⟨answer, db'⟩, hstep, s, hs, s', hs', hlt⟩ := hdb
    have hchunks := (hends tr db _ answer db' sid s s' run hstep hs hs' hlt).2
    have hfew := (hbounds _ db' (.next run hstep) sid s.round 0).1
    exact ⟨tr, db, answer, db', sid, s, s', run, hstep, hs, hs', hlt, hfew, hchunks⟩

end Experimint.FedimintUsdt
