import Experimint.Usdt.Accepted
import Experimint.Usdt.Chains

/-!
# Every accepted item is a sequence of moves

The inversion of the processing functions.  Votes and signing rounds leave the books alone, a
trigger offers operations, and the other items are one move, possibly followed by offers.

* `Accepts.effect` is the statement for all items; `Accepts.chainInv` makes the chains an invariant
  of the module.
-/

set_option autoImplicit false

namespace Experimint.FedimintUsdt

open Books

variable {u : Usdt} {db db' : Db}

/-! ## What does not touch the books -/

@[simp] theorem books_startSession (db : Db) (purpose : SigningPurpose) (digest : Hash)
    (attempt : Nat) : u.books (u.startSession db purpose digest attempt) = u.books db := by
  unfold Usdt.startSession
  dsimp only
  split <;> rfl

@[simp] theorem books_startOpSession (db : Db) (h : Hash) :
    u.books (u.startOpSession db h) = u.books db :=
  books_startSession _ _ _ _

theorem books_removeSigningSessionsForOp (db : Db) (h : Hash) :
    u.books (removeSigningSessionsForOp db h) = u.books db := by
  unfold removeSigningSessionsForOp
  dsimp only
  generalize (db.signingSession.rows.filter _) = sessions
  induction sessions generalizing db with
  | nil => rfl
  | cons r rest ih => rw [List.foldl_cons, ih]; rfl

/-! ## Sessions -/

/-- A session is over the digest of its operation. -/
def SigningSession.Genuine (u : Usdt) (s : SigningSession) : Prop :=
  s.digest = u.evm.ethSignedMessageHash s.purpose.opHash

def GenuineSessions (u : Usdt) (db : Db) : Prop :=
  ∀ id s, db.signingSession.get? id = some s → s.Genuine u

/-- Sessions stay genuine, and none is newly completed. -/
structure Quiet (u : Usdt) (db db' : Db) : Prop where
  genuine : GenuineSessions u db → GenuineSessions u db'
  completed : ∀ id s', db'.signingSession.get? id = some s' → s'.state.isCompleted = true →
    ∃ s, db.signingSession.get? id = some s ∧ s.state.isCompleted = true

theorem Quiet.of_eq (h : db'.signingSession = db.signingSession) : Quiet u db db' where
  genuine hg id s hs := hg id s (h ▸ hs)
  completed _ s hs hc := ⟨s, h ▸ hs, hc⟩

theorem Quiet.trans {db₁ : Db} (h : Quiet u db db₁) (h' : Quiet u db₁ db') : Quiet u db db' where
  genuine hg := h'.genuine (h.genuine hg)
  completed id s' hs' hc' := by
    obtain ⟨s₁, hs₁, hc₁⟩ := h'.completed id s' hs' hc'
    exact h.completed id s₁ hs₁ hc₁

/-- One session is written, without completing it. -/
theorem Quiet.insert {id : SigningSessionId} {s : SigningSession}
    (hsessions : db'.signingSession = db.signingSession.insert id s)
    (hgenuine : GenuineSessions u db → s.Genuine u)
    (hcompleted : s.state.isCompleted = true →
      ∃ s₀, db.signingSession.get? id = some s₀ ∧ s₀.state.isCompleted = true) :
    Quiet u db db' where
  genuine hg id' s' hs' := by
    rw [hsessions, Table.get?_insert] at hs'
    split_ifs at hs'
    · exact Option.some.inj hs' ▸ hgenuine hg
    · exact hg id' s' hs'
  completed id' s' hs' hc' := by
    rw [hsessions, Table.get?_insert] at hs'
    split_ifs at hs' with hid
    · subst hid
      exact hcompleted (Option.some.inj hs' ▸ hc')
    · exact ⟨s', hs', hc'⟩

theorem quiet_startSession {purpose : SigningPurpose} {digest : Hash} {attempt : Nat}
    (hdigest : GenuineSessions u db → digest = u.evm.ethSignedMessageHash purpose.opHash) :
    Quiet u db (u.startSession db purpose digest attempt) := by
  unfold Usdt.startSession
  dsimp only
  split
  · exact .of_eq rfl
  · exact .insert rfl hdigest nofun

/-- The first session of an operation. -/
theorem quiet_startOpSession {db₁ : Db} (h : db₁.signingSession = db.signingSession) (op : Hash) :
    Quiet u db (u.startOpSession db₁ op) :=
  (Quiet.of_eq h).trans (quiet_startSession fun _ => rfl)

/-! ## Triggers -/

/-- A scan that finds nothing. -/
theorem not_anyInFlight {f : UserOpPurpose → Bool} (h : ¬ db.anyInFlight f = true) {k : Slot}
    {op : UnsignedUserOp} {p : UserOpPurpose} {live : Bool}
    (hf : (u.books db).InFlight k op p live) : f p = false := by
  simp only [Db.anyInFlight, Bool.or_eq_true, List.any_eq_true, not_or, not_exists, not_and,
    Bool.not_eq_true] at h
  cases hf with
  | pending hr => exact h.1 _ (Table.mem_values.2 ⟨_, hr⟩)
  | submitted hr => exact h.2 _ (Table.mem_values.2 ⟨_, hr⟩)

theorem idle_deposit {a : EvmAddress} (hs : ¬ db.deployAndSweepInFlight a = true)
    (hr : ¬ db.residualRecoveryInFlight a = true) : (u.books db).Idle (.deposit a) := by
  intro k op p live hf hlane
  have hsweep := not_anyInFlight hs hf
  have hrecovery := not_anyInFlight hr hf
  cases p <;> simp_all [UserOpPurpose.lane, UserOpPurpose.isSweepOf, UserOpPurpose.isRecoveryOf]

theorem idle_pool (h : ¬ db.withdrawBatchInFlight = true) : (u.books db).Idle .pool := by
  intro k op p live hf hlane
  have hpool := not_anyInFlight h hf
  cases p <;> simp_all [UserOpPurpose.lane, UserOpPurpose.isPool]

/-- A hash in neither table is free in the books. -/
theorem free_of_not_isEnqueued {h : Hash} (hn : ¬ db.isEnqueued h = true) :
    (u.books db).pending.get? h = none ∧ (u.books db).submitted.get? h = none := by
  simpa [Db.isEnqueued, Table.contains, Usdt.books] using hn

theorem inFlight_of_isEnqueued {h : Hash} (henqueued : db.isEnqueued h = true) :
    ∃ k op p live, (u.books db).InFlight k op p live ∧ k.hash = h := by
  rcases Bool.or_eq_true_iff.1 henqueued with hrow | hrow <;>
    obtain ⟨r, hr⟩ := Option.isSome_iff_exists.1 hrow
  · exact ⟨_, _, _, _, .pending hr, rfl⟩
  · exact ⟨_, _, _, _, .submitted hr, rfl⟩

/-- What a trigger does: it offers operations and starts their sessions. -/
structure Triggered (u : Usdt) (db db' : Db) : Prop where
  offers : Offers u (u.books db) (u.books db')
  quiet : Quiet u db db'

theorem Triggered.refl : Triggered u db db := ⟨.refl, .of_eq rfl⟩

/-- A trigger may run after a vote is recorded. -/
theorem Triggered.of_vote {db₁ : Db} (hbooks : u.books db₁ = u.books db)
    (hsessions : db₁.signingSession = db.signingSession) (h : Triggered u db₁ db') :
    Triggered u db db' :=
  ⟨hbooks ▸ h.offers, (Quiet.of_eq hsessions).trans h.quiet⟩

/-- What a trigger does that builds no batches. -/
structure TriggeredAside (u : Usdt) (db db' : Db) : Prop where
  aside : OffersAside u (u.books db) (u.books db')
  quiet : Quiet u db db'

theorem TriggeredAside.refl : TriggeredAside u db db := ⟨.refl, .of_eq rfl⟩

theorem TriggeredAside.trans {db₁ : Db} (h : TriggeredAside u db db₁)
    (h' : TriggeredAside u db₁ db') : TriggeredAside u db db' :=
  ⟨h.aside.trans h'.aside, h.quiet.trans h'.quiet⟩

theorem TriggeredAside.of_vote {db₁ : Db} (hbooks : u.books db₁ = u.books db)
    (hsessions : db₁.signingSession = db.signingSession) (h : TriggeredAside u db₁ db') :
    TriggeredAside u db db' :=
  ⟨hbooks ▸ h.aside, (Quiet.of_eq hsessions).trans h.quiet⟩

theorem TriggeredAside.offers (h : TriggeredAside u db db') :
    Offers u (u.books db) (u.books db') :=
  h.aside.offers

/-- An operation that covers no withdrawals is offered. -/
theorem triggered_enqueue {op : UnsignedUserOp} {p : UserOpPurpose} {block : Nat}
    (ho : Offer u (u.books db) op p) (hp : ∀ outpoints, p ≠ .withdraw outpoints)
    (hn : ¬ db.isEnqueued (u.opHash op) = true) :
    TriggeredAside u db (u.startOpSession (db.enqueue (u.opHash op) op p block) (u.opHash op)) := by
  refine ⟨.single ⟨op, p, block, hp, ho, free_of_not_isEnqueued hn, ?_⟩,
    quiet_startOpSession ?_ _⟩
  · rw [books_startOpSession]
    cases p with
    | withdraw outpoints => exact absurd rfl (hp outpoints)
    | deployAndSweep _ | recoverResidual _ | withdrawFees _ _ => rfl
  · rfl

theorem maybeTriggerSweep_triggered (db : Db) (a : EvmAddress) :
    TriggeredAside u db (u.maybeTriggerSweep db a) := by
  rcases maybeTriggerSweep_cases u db a with
    hsame | ⟨record, median, op, hrecord, hpos, hsweep, hrecovery, -, rfl, hnew, heq⟩
  · rw [hsame]
    exact .refl
  · rw [heq]
    exact triggered_enqueue (.sweep hrecord rfl (Nat.pos_of_ne_zero hpos)
      (idle_deposit hsweep hrecovery)) nofun hnew

theorem accelerateSweeps_triggered (db : Db) :
    TriggeredAside u db (u.accelerateSweepsForWithdrawals db) := by
  unfold Usdt.accelerateSweepsForWithdrawals
  -- the scan is over the rows as they were, the sweeps accumulate
  generalize db.depositRecord.rows = rows
  induction rows generalizing db with
  | nil => exact .refl
  | cons r rest ih =>
    rw [List.foldl_cons]
    split
    · exact (maybeTriggerSweep_triggered db r.1).trans (ih _)
    · exact ih db

theorem maybeTriggerResidualRecovery_triggered (db : Db) (a : EvmAddress) :
    TriggeredAside u db (u.maybeTriggerResidualRecovery db a) := by
  rcases maybeTriggerResidualRecovery_cases u db a with
    hsame | ⟨record, median, wei, op, hrecord, hsweep, hrecovery, -, rfl, hnew, heq⟩
  · rw [hsame]
    exact .refl
  · rw [heq]
    exact triggered_enqueue (.recovery hrecord (idle_deposit hsweep hrecovery)) nofun hnew

theorem maybeTriggerFeeWithdrawal_triggered (db : Db) :
    TriggeredAside u db (u.maybeTriggerFeeWithdrawal db) := by
  rcases maybeTriggerFeeWithdrawal_cases u db with
    hsame | ⟨vote, op, hidle, haccrued, hfunded, rfl, hnew, heq⟩
  · rw [hsame]
    exact .refl
  · rw [heq]
    exact triggered_enqueue (.fees (idle_pool hidle) haccrued hfunded) nofun hnew

/-- What the batch builder is handed: distinct queued withdrawals. -/
theorem cappedBatch_queued (db : Db) :
    ((Usdt.cappedBatch db (Usdt.queuedWithdrawals db)).map (·.1)).Nodup ∧
      ∀ q ∈ Usdt.cappedBatch db (Usdt.queuedWithdrawals db),
        (u.books db).unclaimed.get? q.1 = some q.2 ∧
          (u.books db).states.get? q.1 = some .queued := by
  have hsub : List.Sublist (Usdt.cappedBatch db (Usdt.queuedWithdrawals db))
      (Usdt.queuedWithdrawals db) :=
    (List.take_sublist _ _).trans (List.take_sublist _ _)
  have hkeys : (db.unclaimedWithdrawal.rows.map (·.1)).Nodup :=
    List.pairwise_map.2 (db.unclaimedWithdrawal.sorted.imp fun hlt => ne_of_lt hlt)
  refine ⟨hkeys.sublist ((hsub.trans List.filter_sublist).map _), ?_⟩
  intro q hq
  have hq := List.mem_filter.1 (hsub.subset hq)
  exact ⟨Table.mem_rows.1 hq.1, of_decide_eq_true hq.2⟩

theorem buildAndEnqueueWithdrawalBatch_triggered {ws : List (OutPoint × UsdtWithdrawalV0)} {n : Nat}
    (hidle : (u.books db).Idle .pool) (hnodup : (ws.map (·.1)).Nodup)
    (hqueued : ∀ q ∈ ws, (u.books db).unclaimed.get? q.1 = some q.2 ∧
      (u.books db).states.get? q.1 = some .queued)
    (hfunded : (U64.satSum (ws.map fun q => q.2.amount)).raw ≤ (u.books db).pool.balance.raw) :
    Triggered u db (u.buildAndEnqueueWithdrawalBatch db ws (u.pool db) n) := by
  unfold Usdt.buildAndEnqueueWithdrawalBatch
  dsimp only
  refine ⟨?_, quiet_startOpSession ?_ _⟩
  · rw [books_startOpSession]
    exact .single ⟨_, _, n, .batch hidle hnodup hqueued hfunded, .inr rfl, rfl⟩
  · rfl

theorem maybeTriggerWithdrawalBatch_triggered (db : Db) :
    Triggered u db (u.maybeTriggerWithdrawalBatch db) := by
  rcases maybeTriggerWithdrawalBatch_cases u db with
    hsame | hsweeps | ⟨ws, rfl, hidle, hfunded, heq⟩
  · rw [hsame]
    exact .refl
  · rw [hsweeps]
    exact ⟨(accelerateSweeps_triggered db).offers, (accelerateSweeps_triggered db).quiet⟩
  · obtain ⟨hnodup, hqueued⟩ := cappedBatch_queued (u := u) db
    rw [heq]
    exact buildAndEnqueueWithdrawalBatch_triggered (idle_pool hidle) hnodup hqueued hfunded

/-! ## Confirmations -/

theorem books_removeSubmitted_foldl (rows : List (Hash × SubmittedUserOp)) (db : Db) :
    u.books (rows.foldl (fun db r => db.removeSubmitted r.1) db) =
      { u.books db with submitted := db.submittedUserOp.eraseAll (rows.map (·.1)) } := by
  induction rows generalizing db with
  | nil => rfl
  | cons r rest ih => rw [List.foldl_cons, ih]; rfl

theorem books_removePending (db : Db) (h : Hash) :
    u.books (db.removePending h) = { u.books db with pending := db.pendingUserOp.erase h } :=
  books_removeSigningSessionsForOp _ _

theorem books_removePending_foldl (rows : List (Hash × PendingUserOp)) (db : Db) :
    u.books (rows.foldl (fun db r => db.removePending r.1) db) =
      { u.books db with pending := db.pendingUserOp.eraseAll (rows.map (·.1)) } := by
  induction rows generalizing db with
  | nil => rfl
  | cons r rest ih =>
    have hb := books_removePending (u := u) db r.1
    have hp : (db.removePending r.1).pendingUserOp = db.pendingUserOp.erase r.1 :=
      congrArg Books.pending hb
    rw [List.foldl_cons, ih, hb, hp]
    rfl

theorem books_finish (db : Db) (h : Hash) (op : UnsignedUserOp) :
    u.books (purgeUserOpNonceChain (db.removeSubmitted h) op.sender op.nonce h) =
      (u.books db).finish h op := by
  unfold purgeUserOpNonceChain
  dsimp only
  rw [books_removePending_foldl]
  have hsub := books_removeSubmitted_foldl (u := u)
    ((db.removeSubmitted h).submittedUserOp.rows.filter fun r =>
      decide (r.1 ≠ h) && decide (r.2.signed.unsigned.sender = op.sender) &&
        decide (r.2.signed.unsigned.nonce = op.nonce)) (db.removeSubmitted h)
  have hpend : ∀ rows : List (Hash × SubmittedUserOp), (rows.foldl
      (fun db r => db.removeSubmitted r.1) (db.removeSubmitted h)).pendingUserOp =
        db.pendingUserOp := fun rows =>
    congrArg Books.pending (books_removeSubmitted_foldl (u := u) rows (db.removeSubmitted h))
  rw [hsub, hpend, Table.eraseAll_keys, Table.eraseAll_keys]
  have hsubmitted : ((db.removeSubmitted h).submittedUserOp.filter fun k s =>
      !(decide (k ≠ h) && decide (s.signed.unsigned.sender = op.sender) &&
        decide (s.signed.unsigned.nonce = op.nonce))) =
      db.submittedUserOp.filter fun k s =>
        decide (k ≠ h) && !(decide (s.signed.unsigned.sender = op.sender) &&
          decide (s.signed.unsigned.nonce = op.nonce)) := by
    refine (Table.filter_erase _ _ _).trans (Table.filter_congr fun k s _ => ?_)
    by_cases hk : k = h <;> simp [hk]
  rw [hsubmitted]
  rfl

theorem effectiveSwept_cases {s : SubmittedUserOp} {obs : UserOpConfirmedObservation}
    {swept : UsdtAmount} (h : Usdt.effectiveSwept s obs = some swept) :
    (obs.success = true ∧ Usdt.expectedSwept s = .ok swept) ∨
      (obs.success = false ∧ swept = U64.zero) := by
  unfold Usdt.effectiveSwept at h
  split at h
  · rename_i hsuccess
    split at h
    · rename_i amount hamount
      split at h
      · cases h; exact .inl ⟨hsuccess, hamount⟩
      · cases h
    · cases h
  · rename_i hfail
    cases h
    exact .inr ⟨by simpa using hfail, rfl⟩

/-- Settlement of a batch, after the vote is in the history. -/
theorem applyWithdrawConfirmed_settle {s : SubmittedUserOp} {obs : UserOpConfirmedObservation}
    {swept : UsdtAmount} {outpoints : List OutPoint} (hp : s.purpose = .withdraw outpoints)
    (heff : Usdt.effectiveSwept s obs = some swept) :
    Settle (u.books db) s (u.incurredShare db obs 1) obs.success
      (u.books (u.applyWithdrawConfirmed
        (db.record (.userOpConfirmed s.signed.unsigned s.purpose obs.success swept)) outpoints obs
        swept)) := by
  unfold Usdt.applyWithdrawConfirmed
  dsimp only
  rcases effectiveSwept_cases heff with ⟨hok, hcall⟩ | ⟨hok, rfl⟩
  · rw [hok]
    have hcall : decodeBatchTransferTotal s.signed.unsigned = .ok swept := by
      simpa only [Usdt.expectedSwept, hp] using hcall
    exact .paid hp hcall
  · rw [hok, if_neg Bool.false_ne_true]
    split
    · rename_i hlen
      match outpoints, hp, hlen with
      | [], hp, _ => exact .requeued hp
      | [o], hp, _ =>
        simp only [List.foldl_cons, List.foldl_nil, Usdt.createWithdrawalRefund]
        split
        · rename_i hgone
          exact .abandoned hp hgone
        · rename_i w hopen
          simp only [Usdt.chargeIncurred, Table.get?_insert_self, Option.getD_some,
            Table.erase_insert]
          exact .isolated hp hopen rfl
      | _ :: _ :: _, _, hlen => simp at hlen
    · exact .requeued hp

theorem settleSweep_settle {s : SubmittedUserOp} {obs : UserOpConfirmedObservation}
    {swept share : UsdtAmount} {a : EvmAddress} {r : DepositRecord}
    (hp : s.purpose = .deployAndSweep a) (hr : db.depositRecord.get? a = some r)
    (heff : Usdt.effectiveSwept s obs = some swept) :
    Settle (u.books db) s share obs.success
      (u.books (u.settleSweep
        (db.record (.userOpConfirmed s.signed.unsigned s.purpose obs.success swept)) a obs.success
        swept)) := by
  have hr' : (db.record (.userOpConfirmed s.signed.unsigned s.purpose obs.success
      swept)).depositRecord.get? a = some r := hr
  unfold Usdt.settleSweep
  simp only [hr']
  rcases effectiveSwept_cases heff with ⟨hok, hcall⟩ | ⟨hok, rfl⟩
  · have hcall : decodeTransferAmount s.signed.unsigned = .ok swept := by
      simpa only [Usdt.expectedSwept, hp] using hcall
    rw [hok]
    exact .swept hp hr hcall
  · rw [hok]
    exact .spent (by rw [hp]; rfl) hr fun _ => rfl

theorem applyFeeWithdrawalConfirmed_settle {s : SubmittedUserOp}
    {obs : UserOpConfirmedObservation} {swept share : UsdtAmount} {recipient : EvmAddress}
    {a : UsdtAmount} (hp : s.purpose = .withdrawFees recipient a)
    (heff : Usdt.effectiveSwept s obs = some swept) :
    Settle (u.books db) s share obs.success
      (u.books (u.applyFeeWithdrawalConfirmed
        (db.record (.userOpConfirmed s.signed.unsigned s.purpose obs.success swept)) obs.success
        swept)) := by
  unfold Usdt.applyFeeWithdrawalConfirmed
  dsimp only
  rcases effectiveSwept_cases heff with ⟨hok, hcall⟩ | ⟨hok, rfl⟩
  · have hcall : decodeBatchTransferTotal s.signed.unsigned = .ok swept := by
      simpa only [Usdt.expectedSwept, hp] using hcall
    rw [hok]
    exact .feesPaid hp hcall
  · rw [hok]
    exact .feesReverted hp

theorem settleRecovery_settle {s : SubmittedUserOp} {obs : UserOpConfirmedObservation}
    {swept share : UsdtAmount} {a : EvmAddress} {r : DepositRecord}
    (hp : s.purpose = .recoverResidual a) (hr : db.depositRecord.get? a = some r)
    (heff : Usdt.effectiveSwept s obs = some swept) :
    Settle (u.books db) s share obs.success
      (u.books (Usdt.settleRecovery
        (db.record (.userOpConfirmed s.signed.unsigned s.purpose obs.success swept)) a)) := by
  have hzero : swept = U64.zero := by
    rcases effectiveSwept_cases heff with ⟨-, hcall⟩ | ⟨-, hz⟩
    · simp only [Usdt.expectedSwept, hp] at hcall
      exact (Except.ok.inj hcall).symm
    · exact hz
  subst hzero
  have hr' : (db.record (.userOpConfirmed s.signed.unsigned s.purpose obs.success
      U64.zero)).depositRecord.get? a = some r := hr
  unfold Usdt.settleRecovery
  simp only [hr']
  exact .spent (by rw [hp]; rfl) hr fun hsweep => by rw [hp] at hsweep; cases hsweep

/-- A record exists for every lane with an operation in flight. -/
theorem ChainInv.record {b : Books} (hinv : ChainInv u b) {k : Slot} {op : UnsignedUserOp}
    {p : UserOpPurpose} {live : Bool} (hf : b.InFlight k op p live) {a : EvmAddress}
    (hlane : p.lane = .deposit a) : ∃ r, b.records.get? a = some r ∧ r.nonce = op.nonce := by
  have hnonce := hinv.nonce hf
  rw [hlane] at hnonce
  exact Option.map_eq_some_iff.1 hnonce

/-- A confirmation settles by purpose. -/
theorem settle_settle {h : Hash} {s : SubmittedUserOp} {obs : UserOpConfirmedObservation}
    {swept : UsdtAmount} (hinv : ChainInv u (u.books db))
    (hs : db.submittedUserOp.get? h = some s) (heff : Usdt.effectiveSwept s obs = some swept) :
    Settle (u.books db) s (u.incurredShare db obs 1) obs.success
      (u.books (u.settle
        (db.record (.userOpConfirmed s.signed.unsigned s.purpose obs.success swept)) s obs
        swept)) := by
  have hrow : (u.books db).InFlight (.submitted h) _ _ _ := .submitted hs
  unfold Usdt.settle
  split
  · rename_i a hp
    obtain ⟨r, hr, -⟩ := hinv.record hrow (a := a) (by rw [hp]; rfl)
    have hsender : s.signed.unsigned.sender = a := by
      have := hinv.sender hrow
      rwa [hp] at this
    rw [hsender]
    exact settleSweep_settle hp hr heff
  · rename_i outpoints hp
    exact applyWithdrawConfirmed_settle hp heff
  · rename_i recipient a hp
    exact applyFeeWithdrawalConfirmed_settle hp heff
  · rename_i a hp
    obtain ⟨r, hr, -⟩ := hinv.record hrow (a := a) (by rw [hp]; rfl)
    exact settleRecovery_settle hp hr heff

/-- What an agreed confirmation does: nothing to the books, or a settlement and the sweep it
triggers. -/
theorem applyUserOpConfirmed_effect {h : Hash} {obs : UserOpConfirmedObservation}
    (hinv : ChainInv u (u.books db)) :
    u.books (u.applyUserOpConfirmed db h obs) = u.books db ∨
      ∃ s swept b', db.submittedUserOp.get? h = some s ∧
        Usdt.effectiveSwept s obs = some swept ∧
        Settle (u.books db) s (u.incurredShare db obs 1) obs.success b' ∧
        OffersAside u (b'.finish h s.signed.unsigned)
          (u.books (u.applyUserOpConfirmed db h obs)) := by
  unfold Usdt.applyUserOpConfirmed
  split
  · exact .inl rfl
  rename_i s hs
  split
  · exact .inl rfl
  rename_i swept heff
  refine .inr ⟨s, swept, _, hs, heff, settle_settle hinv hs heff, ?_⟩
  rw [← books_finish]
  dsimp only
  split
  · exact .refl
  · exact (maybeTriggerSweep_triggered _ _).aside

/-- A confirmation vote is applied once a threshold agrees. -/
theorem processUserOpConfirmed_effect {h : Hash} {obs : UserOpConfirmedObservation}
    {peerId : PeerId} (hinv : ChainInv u (u.books db))
    (hok : u.processUserOpConfirmed db h obs peerId = .ok db') :
    u.books db' = u.books db ∨
      ∃ s swept b', db.submittedUserOp.get? h = some s ∧
        Usdt.effectiveSwept s obs = some swept ∧
        u.numPeers.threshold ≤ Usdt.agreeingVotes { db with
          userOpConfirmedVote := db.userOpConfirmedVote.insert (toLex (h, peerId)) obs } h obs ∧
        Settle (u.books db) s (u.incurredShare db obs 1) obs.success b' ∧
        OffersAside u (b'.finish h s.signed.unsigned) (u.books db') := by
  obtain ⟨-, voted, -, -, rfl, rfl | ⟨hvotes, rfl⟩⟩ := processUserOpConfirmed_ok hok
  · exact .inl rfl
  · have hinv' : ChainInv u (u.books { db with
        userOpConfirmedVote := db.userOpConfirmedVote.insert (toLex (h, peerId)) obs }) := hinv
    rcases applyUserOpConfirmed_effect hinv' with hsame | ⟨s, swept, b', hs, heff, hsettle, hoffers⟩
    · exact .inl hsame
    · exact .inr ⟨s, swept, b', hs, heff, hvotes, hsettle, hoffers⟩

/-! ## The other items -/

theorem books_enqueueReplacement (u : Usdt) (db : Db) (h : Hash) (s : SubmittedUserOp)
    (op : UnsignedUserOp) (ccount : Nat) :
    u.books (u.enqueueReplacement db h s op ccount) =
      { (u.books db).offer (u.opHash op) op s.purpose ccount with
        submitted := (u.books db).submitted.insert h { s with superseded := true } } := by
  unfold Usdt.enqueueReplacement
  dsimp only
  rw [books_startOpSession]
  cases hp : s.purpose with
  | withdraw _ | deployAndSweep _ | recoverResidual _ | withdrawFees _ _ => rfl

theorem quiet_enqueueReplacement (h : Hash) (s : SubmittedUserOp) (op : UnsignedUserOp)
    (ccount : Nat) : Quiet u db (u.enqueueReplacement db h s op ccount) := by
  refine quiet_startOpSession ?_ _
  cases s.purpose <;> rfl

theorem processReplaceUserOp_move {h : Hash} (hok : u.processReplaceUserOp db h = .ok db') :
    Move u (u.books db) (u.books db') ∧ Quiet u db db' ∧
      (u.books db').pool = (u.books db).pool ∧ (u.books db).Continues (u.books db') ∧
      ∃ h' op p, (u.books db').history = .userOpEnqueued h' op p :: (u.books db).history := by
  obtain ⟨s, median, hs, hlive, -, op, hop, -, hnew, rfl⟩ := processReplaceUserOp_ok hok
  refine ⟨?_, quiet_enqueueReplacement _ _ _ _, ?_⟩
  · rw [books_enqueueReplacement]
    refine .replace hs hlive ?_ (free_of_not_isEnqueued (by simp [hnew]))
    rw [hop]
    rfl
  · rw [books_enqueueReplacement]
    refine ⟨rfl, ?_, _, _, _, rfl⟩
    intro h' s' hs'
    have hs' : (db.submittedUserOp.insert h { s with superseded := true }).get? h' = some s' := hs'
    rw [Table.get?_insert] at hs'
    split_ifs at hs' with hh
    · cases hs'
      exact ⟨s, hh ▸ hs, rfl, rfl⟩
    · exact ⟨s', hs', rfl, rfl⟩

/-- What a vote or a signing round does: nothing to the books. -/
structure Silent (u : Usdt) (db db' : Db) : Prop where
  books : u.books db' = u.books db
  quiet : Quiet u db db'

theorem processMpcRound_silent {item : MpcRoundItem} {peerId : PeerId}
    (hok : u.processMpcRound db item peerId = .ok db') : Silent u db db' := by
  obtain ⟨session, chunks, hsession, -, -, rfl | ⟨block, rfl⟩⟩ := processMpcRound_ok hok
  · exact ⟨rfl, .of_eq rfl⟩
  · exact ⟨rfl, .insert rfl (fun hg => show session.Genuine u from hg _ _ hsession)
      fun hc => ⟨session, hsession, hc⟩⟩

/-- The failed attempt and the next one are over the same digest. -/
theorem processRotateSigning_silent {sessionId : SigningSessionId}
    (hok : u.processRotateSigning db sessionId = .ok db') : Silent u db db' := by
  obtain ⟨session, hsession, -, rfl⟩ := processRotateSigning_ok hok
  let failed : SigningSession := { session with state := .failed }
  have hfailed : Quiet u db
      (Db.removeChunks { db with
        signingSession := db.signingSession.insert sessionId failed } sessionId) :=
    .insert rfl (fun hg => show session.Genuine u from hg _ _ hsession) nofun
  refine ⟨(books_startSession _ _ _ _).trans rfl, hfailed.trans (quiet_startSession ?_)⟩
  intro hg
  exact hg sessionId failed (Table.get?_insert_self _ _ _)

theorem processFeeVote_silent {vote : FeeVote} {peerId : PeerId}
    (hok : u.processFeeVote db vote peerId = .ok db') : Silent u db db' := by
  obtain ⟨-, -, rfl⟩ := processFeeVote_ok hok
  exact ⟨rfl, .of_eq rfl⟩

theorem processBootstrapObservation_silent {obs : BootstrapObservation} {peerId : PeerId}
    (hok : u.processBootstrapObservation db obs peerId = .ok db') : Silent u db db' := by
  obtain ⟨-, ready, rfl⟩ := processBootstrapObservation_ok hok
  exact ⟨rfl, .of_eq rfl⟩

theorem processBlockHash_silent {obs : BlockHashObservation} {peerId : PeerId}
    (hok : u.processBlockHash db obs peerId = .ok db') : Silent u db db' := by
  obtain ⟨-, -, -, voted, rfl, rfl | ⟨-, rfl⟩⟩ := processBlockHash_ok hok
  · exact ⟨rfl, .of_eq rfl⟩
  · exact ⟨rfl, .of_eq rfl⟩

theorem processRecoverResidual_triggered {a : EvmAddress} {wei : Nat} {peerId : PeerId}
    (hok : u.processRecoverResidual db a wei peerId = .ok db') :
    TriggeredAside u db db' := by
  obtain ⟨-, rfl⟩ := processRecoverResidual_ok hok
  refine .of_vote ?_ ?_ (maybeTriggerResidualRecovery_triggered { db with
    recoverResidualVote := db.recoverResidualVote.insert (toLex (a, peerId)) wei } a) <;> rfl

theorem processWithdrawFeesVote_triggered {vote : WithdrawFeesVote} {peerId : PeerId}
    (hok : u.processWithdrawFeesVote db vote peerId = .ok db') :
    TriggeredAside u db db' := by
  obtain ⟨-, rfl⟩ := processWithdrawFeesVote_ok hok
  refine .of_vote ?_ ?_ (maybeTriggerFeeWithdrawal_triggered { db with
    withdrawFeesVote := db.withdrawFeesVote.insert peerId vote }) <;> rfl

theorem processBlockCount_triggered {vote : Nat} {peerId : PeerId}
    (hok : u.processBlockCount db vote peerId = .ok db') :
    Triggered u db db' := by
  obtain ⟨-, rfl⟩ := processBlockCount_ok hok
  refine .of_vote ?_ ?_ (maybeTriggerWithdrawalBatch_triggered { db with
    blockCountVote := db.blockCountVote.insert peerId vote }) <;> rfl

/-- What an accepted deposit proof shows, and the credit it leads to. -/
theorem processDepositProof_effect {pk : PublicKey} {proof : DepositProof} {fee : UsdtAmount}
    {m : InputMeta} (hok : u.processDepositProof db pk proof fee = .ok (m, db')) :
    ∃ expected proven delta r, ringHashAt db proof.blockNumber = some expected ∧
      u.evm.verifyDepositProof proof expected u.cfg.usdtContract (u.depositAccount pk) =
        .ok proven ∧
      ((u.books db).records.get? (u.depositAccount pk)).getD (Usdt.freshRecord pk) = r ∧
      proven.raw = r.credited.raw + delta.raw ∧ fee.raw < delta.raw ∧
      m = ⟨⟨Amounts.newCustom USDT_UNIT delta.raw, Amounts.newCustom USDT_UNIT fee.raw⟩, pk⟩ ∧
      OffersAside u
        ((u.books db).credit (u.depositAccount pk) r proven delta fee proof.blockNumber)
        (u.books db') ∧
      Quiet u db db' := by
  obtain ⟨expected, proven, record, delta, _, _, hring, hproven, hrecord, rfl, -, -, -, hfee, rfl,
    rfl⟩ := processDepositProof_ok hok
  refine ⟨expected, proven, _, record, hring, hproven, hrecord, ?_, hfee, rfl,
    (maybeTriggerSweep_triggered (Usdt.credit db _ _ _ _ _ _) _).aside, ?_⟩
  · rw [U64.raw_satSub] at hfee ⊢
    omega
  · refine Quiet.trans (Quiet.of_eq ?_) (maybeTriggerSweep_triggered _ _).quiet
    rfl

/-! ## All items -/

/-- E-cash an accepted item issues, or takes back: what an input funds a transaction with net of its
fees, and what an output takes from it. -/
def Answer.value : Answer → Int
  | .funded m => m.amount.amounts.of USDT_UNIT - m.amount.fees.of USDT_UNIT
  | .consumed amounts => -(amounts.amounts.of USDT_UNIT + amounts.fees.of USDT_UNIT)
  | .recorded => 0

/-- Out point of a withdrawal item. -/
def Item.outPoints : Item → List OutPoint
  | .output _ outPoint => [outPoint]
  | _ => []

/-- Out point of a refund item. -/
def Item.claims : Item → List OutPoint
  | .input (.refundV0 outPoint) => [outPoint]
  | _ => []

/-- Balance that a deposit proof shows for the account of a key. -/
def Usdt.provenBalance (u : Usdt) (pk : PublicKey) (proof : DepositProof) : UsdtAmount :=
  match u.evm.verifyDepositProof proof (u.evm.keccak256 proof.headerRlp) u.cfg.usdtContract
    (u.depositAccount pk) with
  | .ok proven => proven
  | .error _ => U64.zero

/-- Account, proven balance and minted amount of an accepted deposit proof. -/
def Item.credits (u : Usdt) : Item → Answer → List (EvmAddress × Nat × Nat)
  | .input (.depositProofV0 pk proof _), .funded m =>
    [(u.depositAccount pk, (u.provenBalance pk proof).raw, m.amount.amounts.of USDT_UNIT)]
  | _, _ => []

/-- Whether an item can settle an operation. -/
def Item.settles : Item → Bool
  | .consensus (.userOpConfirmed _ _) _ => true
  | _ => false

/-- Whether an item can submit an operation. -/
def Item.signs : Item → Bool
  | .consensus (.mpcSignature _ _) _ => true
  | _ => false

/-- Out points of the accepted withdrawals of a trace. -/
def acceptedOutPoints (tr : List (Item × Answer)) : List OutPoint :=
  tr.flatMap fun t => t.1.outPoints

/-- Out points of the accepted refund claims of a trace. -/
def acceptedClaims (tr : List (Item × Answer)) : List OutPoint := tr.flatMap fun t => t.1.claims

/-- Accepted deposit proofs of a trace. -/
def acceptedCredits (u : Usdt) (tr : List (Item × Answer)) : List (EvmAddress × Nat × Nat) :=
  tr.flatMap fun t => t.1.credits u t.2

/-- Net e-cash issued along a trace. -/
def netIssued (tr : List (Item × Answer)) : Int := (tr.map fun t => t.2.value).sum

/-- What an accepted item does to the books. -/
structure Effect (u : Usdt) (b : Books) (item : Item) (answer : Answer) (b' : Books) : Prop where
  moves : Moves u b b'
  issued : issued b'.history = issued b.history + answer.value
  requested : requested b'.history = item.outPoints ++ requested b.history
  claimed : claimed b'.history = item.claims ++ claimed b.history
  credits : credits b'.history = item.credits u answer ++ credits b.history
  pool : item.settles = false → b'.pool = b.pool
  continues : item.signs = false → b.Continues b'
  solvent : Solvent b.history →
    (∀ amounts, answer = .consumed amounts → 0 ≤ FedimintUsdt.issued b'.history) →
    Solvent b'.history

theorem Effect.of_offers {b b' : Books} {item : UsdtConsensusItem} {peerId : PeerId}
    (h : Offers u b b') : Effect u b (.consensus item peerId) .recorded b' where
  moves := h.moves
  issued := by rw [h.history.1, Answer.value, add_zero]
  requested := h.history.2.1
  claimed := h.history.2.2.1
  credits := h.history.2.2.2
  pool _ := h.pool
  continues _ := .of_eq h.submitted
  solvent hs _ := h.solvent hs

theorem Effect.of_same {item : UsdtConsensusItem} {peerId : PeerId}
    (h : u.books db' = u.books db) :
    Effect u (u.books db) (.consensus item peerId) .recorded (u.books db') := by
  rw [h]
  exact .of_offers .refl

theorem of_newCustom_self (a : Nat) : (Amounts.newCustom USDT_UNIT a).of USDT_UNIT = a := by
  rw [Amounts.of_newCustom, if_pos rfl]

theorem Usdt.provenBalance_of_verify {pk : PublicKey} {proof : DepositProof} {expected : Hash}
    {proven : UsdtAmount}
    (h : u.evm.verifyDepositProof proof expected u.cfg.usdtContract (u.depositAccount pk) =
      .ok proven) : u.provenBalance pk proof = proven := by
  rw [Usdt.provenBalance, Evm.verifyDepositProof_header h, h]

theorem processInput_effect {input : UsdtInput} {m : InputMeta}
    (hok : u.processInput db input = .ok (m, db')) :
    Effect u (u.books db) (.input input) (.funded m) (u.books db') := by
  cases input with
  | refundV0 o =>
    obtain ⟨f, hf, rfl, rfl⟩ := claimRefund_ok hok
    refine ⟨.single (.claim hf), ?_, rfl, rfl, rfl, fun _ => rfl, fun _ => .of_eq rfl,
      fun hs _ => hs.cons (Int.natCast_nonneg _)⟩
    simp only [issued, Usdt.books, List.map_cons, List.sum_cons, Event.issued, Answer.value,
      of_newCustom_self, Amounts.of_zero]
    omega
  | depositProofV0 pk proof fee =>
    obtain ⟨expected, proven, delta, r, -, hproven, hr, hdelta, hfee, rfl, haside, -⟩ :=
      processDepositProof_effect hok
    have hoffers := haside.offers
    have hcredit := @Move.credit u _ pk r proven delta fee proof.blockNumber hr hdelta hfee
    have hpos : 0 ≤ (Event.depositCredited (u.depositAccount pk) proven delta fee).issued := by
      simp only [Event.issued]
      omega
    refine ⟨.head hcredit hoffers.moves, ?_, hoffers.history.2.1, hoffers.history.2.2.1, ?_,
      fun _ => hoffers.pool, fun _ => .of_eq hoffers.submitted,
      fun hs _ => hoffers.solvent (hs.cons hpos)⟩
    · rw [hoffers.history.1]
      simp only [issued, credit, List.map_cons, List.sum_cons, Event.issued, Answer.value,
        of_newCustom_self]
      omega
    · rw [hoffers.history.2.2.2, Item.credits, Usdt.provenBalance_of_verify hproven,
        of_newCustom_self]
      rfl
  | default _ _ => cases hok

theorem processOutput_effect {output : UsdtOutput} {o : OutPoint} {amounts : TransactionItemAmounts}
    (hok : u.processOutput db output o = .ok (amounts, db')) :
    Effect u (u.books db) (.output output o) (.consumed amounts) (u.books db') := by
  obtain ⟨w, _, _, -, -, -, -, rfl, rfl⟩ := processOutput_ok hok
  refine ⟨.single .request, ?_, rfl, rfl, rfl, fun _ => rfl, fun _ => .of_eq rfl,
    fun hs hfunded => ⟨hfunded _ rfl, hs⟩⟩
  simp only [issued, Usdt.books, List.map_cons, List.sum_cons, Event.issued, Answer.value,
    of_newCustom_self]
  omega

theorem Effect.of_settle {h : Hash} {s : SubmittedUserOp} {share : UsdtAmount} {success : Bool}
    {b b₁ b' : Books} {opHash : Hash} {obs : UserOpConfirmedObservation} {peerId : PeerId}
    (hs : b.submitted.get? h = some s) (hsettle : Settle b s share success b₁)
    (hoffers : Offers u (b₁.finish h s.signed.unsigned) b') :
    Effect u b (.consensus (.userOpConfirmed opHash obs) peerId) .recorded b' := by
  have hhistory : FedimintUsdt.issued b₁.history = FedimintUsdt.issued b.history ∧
      FedimintUsdt.requested b₁.history = FedimintUsdt.requested b.history ∧
      FedimintUsdt.claimed b₁.history = FedimintUsdt.claimed b.history ∧
      FedimintUsdt.credits b₁.history = FedimintUsdt.credits b.history := by
    cases hsettle <;> exact ⟨by simp [FedimintUsdt.issued, Event.issued], rfl, rfl, rfl⟩
  have hsolvent : Solvent b.history → Solvent b₁.history := fun h => by
    cases hsettle with
    | isolated => exact (h.cons (le_refl 0)).cons (le_refl 0)
    | _ => exact h.cons (le_refl 0)
  refine ⟨.head (.settle hs hsettle) hoffers.moves, ?_, hoffers.history.2.1.trans hhistory.2.1,
    hoffers.history.2.2.1.trans hhistory.2.2.1, hoffers.history.2.2.2.trans hhistory.2.2.2,
    ?_, fun _ => ?_, fun h _ => hoffers.solvent (hsolvent h)⟩
  · rw [hoffers.history.1, Answer.value, add_zero]
    exact hhistory.1
  · intro hsettles
    cases hsettles
  · intro h' s' hs'
    rw [hoffers.submitted] at hs'
    have hrow := (Table.get?_filter_eq_some.1 hs').1
    rw [hsettle.frame.submitted] at hrow
    exact ⟨s', hrow, rfl, rfl⟩

theorem Effect.of_move {b b' : Books} {item : UsdtConsensusItem} {peerId : PeerId}
    {e : Event} (h : Move u b b') (he : b'.history = e :: b.history) (hi : e.issued = 0)
    (hr : e.requested = none) (hc : e.claimed = none) (hd : e.credited = none)
    (hp : b'.pool = b.pool)
    (hcont : Item.signs (.consensus item peerId) = false → b.Continues b') :
    Effect u b (.consensus item peerId) .recorded b' where
  moves := .single h
  issued := by rw [he, issued_cons, hi, Answer.value, zero_add, add_zero]
  requested := by rw [he, FedimintUsdt.requested, List.filterMap_cons, hr]; rfl
  claimed := by rw [he, FedimintUsdt.claimed, List.filterMap_cons, hc]; rfl
  credits := by rw [he, FedimintUsdt.credits, List.filterMap_cons, hd]; rfl
  pool _ := hp
  continues := hcont
  solvent hs _ := by rw [he]; exact hs.cons (le_of_eq hi.symm)

theorem processConsensusItem_effect {item : UsdtConsensusItem} {peerId : PeerId}
    (hinv : ChainInv u (u.books db)) (hok : u.processConsensusItem db item peerId = .ok db') :
    Effect u (u.books db) (.consensus item peerId) .recorded (u.books db') := by
  cases item with
  | blockCount vote => exact .of_offers (processBlockCount_triggered hok).offers
  | mpcRound item => exact .of_same (processMpcRound_silent hok).books
  | mpcSignature id signature =>
    obtain ⟨session, pending, ethSig, -, -, -, hpending, -, -, rfl⟩ := processMpcSignature_ok hok
    exact .of_move (.finalize hpending) rfl rfl rfl rfl rfl rfl nofun
  | rotateSigning id => exact .of_same (processRotateSigning_silent hok).books
  | userOpConfirmed h obs =>
    rcases processUserOpConfirmed_effect hinv hok with
      hsame | ⟨s, _, b', hs, _, _, hsettle, hoffers⟩
    · exact .of_same hsame
    · exact .of_settle hs hsettle hoffers.offers
  | feeVote vote => exact .of_same (processFeeVote_silent hok).books
  | bootstrapObservation obs => exact .of_same (processBootstrapObservation_silent hok).books
  | replaceUserOp h =>
    obtain ⟨hmove, -, hpool, hcont, h', op, p, hhistory⟩ := processReplaceUserOp_move hok
    exact .of_move hmove hhistory rfl rfl rfl rfl hpool fun _ => hcont
  | blockHash obs => exact .of_same (processBlockHash_silent hok).books
  | recoverResidual a wei => exact .of_offers (processRecoverResidual_triggered hok).offers
  | withdrawFeesVote vote => exact .of_offers (processWithdrawFeesVote_triggered hok).offers
  | default _ _ => cases hok

/-- **Every accepted item is a sequence of moves**, and its answer is the e-cash it issued. -/
theorem Accepts.effect {item : Item} {answer : Answer} (h : Accepts u db item answer db')
    (hinv : ChainInv u (u.books db)) : Effect u (u.books db) item answer (u.books db') := by
  unfold Accepts Steps Usdt.step at h
  split at h
  · split at h
    · rename_i m db'' hok
      obtain ⟨rfl, rfl⟩ := Prod.mk.inj (Option.some.inj h)
      exact processInput_effect hok
    · cases h
  · split at h
    · rename_i amounts db'' hok
      obtain ⟨rfl, rfl⟩ := Prod.mk.inj (Option.some.inj h)
      exact processOutput_effect hok
    · cases h
  · split at h
    · rename_i db'' hok
      obtain ⟨rfl, rfl⟩ := Prod.mk.inj (Option.some.inj h)
      exact processConsensusItem_effect hinv hok
    · cases h

theorem Accepts.input {input : UsdtInput} {answer : Answer}
    (h : Accepts u db (.input input) answer db') :
    ∃ m, u.processInput db input = .ok (m, db') := by
  simp only [Accepts, Steps, Usdt.step] at h
  split at h
  · rename_i m db'' hok
    obtain ⟨-, rfl⟩ := Prod.mk.inj (Option.some.inj h)
    exact ⟨m, hok⟩
  · cases h

theorem Accepts.output {output : UsdtOutput} {o : OutPoint} {answer : Answer}
    (h : Accepts u db (.output output o) answer db') :
    ∃ amounts, u.processOutput db output o = .ok (amounts, db') := by
  simp only [Accepts, Steps, Usdt.step] at h
  split at h
  · rename_i amounts db'' hok
    obtain ⟨-, rfl⟩ := Prod.mk.inj (Option.some.inj h)
    exact ⟨amounts, hok⟩
  · cases h

theorem Accepts.consensus {item : UsdtConsensusItem} {peerId : PeerId} {answer : Answer}
    (h : Accepts u db (.consensus item peerId) answer db') :
    u.processConsensusItem db item peerId = .ok db' := by
  simp only [Accepts, Steps, Usdt.step] at h
  split at h
  · rename_i db'' hok
    obtain ⟨-, rfl⟩ := Prod.mk.inj (Option.some.inj h)
    exact hok
  · cases h

/-! ## Runs -/

theorem not_inFlight_empty {k : Slot} {op : UnsignedUserOp} {p : UserOpPurpose} {live : Bool} :
    ¬ (u.books Db.empty).InFlight k op p live := by
  intro hf
  cases hf with
  | pending h => cases h
  | submitted h => cases h

theorem chainInv_empty (u : Usdt) : ChainInv u (u.books Db.empty) where
  account := rfl
  keyed hf := absurd hf not_inFlight_empty
  sender hf := absurd hf not_inFlight_empty
  nonce hf := absurd hf not_inFlight_empty
  chain hf := absurd hf not_inFlight_empty
  live hf := absurd hf not_inFlight_empty
  apart hf := absurd hf not_inFlight_empty

theorem Accepts.chainInv {item : Item} {answer : Answer} (h : Accepts u db item answer db')
    (hinv : ChainInv u (u.books db)) : ChainInv u (u.books db') :=
  (h.effect hinv).moves.invariant (fun _ _ hi hm => hm.chainInv hi) hinv

/-- The chains of every reachable database. -/
theorem run_chainInv {tr : List (Item × Answer)} (run : Run (Accepts u) Db.empty tr db) :
    ChainInv u (u.books db) :=
  run.invariant (P := fun db => ChainInv u (u.books db)) (chainInv_empty u)
    fun _ _ _ _ hinv h => Accepts.chainInv h hinv

/-- An invariant of the books that every move keeps holds at the end of every run from a database
with chains. -/
theorem run_books_from {db₀ : Db} {tr : List (Item × Answer)} {P : Books → Prop}
    (hchain : ChainInv u (u.books db₀)) (hstart : P (u.books db₀))
    (hmove : ∀ b b', ChainInv u b → P b → Move u b b' → P b')
    (run : Run (Accepts u) db₀ tr db) : P (u.books db) := by
  have hboth : ChainInv u (u.books db) ∧ P (u.books db) := by
    refine run.invariant (P := fun db => ChainInv u (u.books db) ∧ P (u.books db))
      ⟨hchain, hstart⟩ ?_
    intro db i o db' hinv h
    exact (Accepts.effect h hinv.1).moves.invariant
      (P := fun b => ChainInv u b ∧ P b)
      (fun b b' hb hm => ⟨hm.chainInv hb.1, hmove b b' hb.1 hb.2 hm⟩) hinv
  exact hboth.2

/-- An invariant of the books that every move keeps holds in every reachable database. -/
theorem run_books {tr : List (Item × Answer)} {P : Books → Prop}
    (hempty : P (u.books Db.empty))
    (hmove : ∀ b b', ChainInv u b → P b → Move u b b' → P b')
    (run : Run (Accepts u) Db.empty tr db) : P (u.books db) :=
  run_books_from (chainInv_empty u) hempty hmove run

/-- The trace and the history agree on the e-cash issued, on the withdrawals queued, on the refunds
claimed and on the deposits credited. -/
theorem run_history {tr : List (Item × Answer)} (run : Run (Accepts u) Db.empty tr db) :
    issued db.history = netIssued tr ∧
      requested db.history = acceptedOutPoints tr ∧
      claimed db.history = acceptedClaims tr ∧
      credits db.history = acceptedCredits u tr := by
  have hall : ChainInv u (u.books db) ∧ issued db.history = netIssued tr ∧
      requested db.history = acceptedOutPoints tr ∧
      claimed db.history = acceptedClaims tr ∧
      credits db.history = acceptedCredits u tr := by
    refine run.historyInvariant (P := fun tr db => ChainInv u (u.books db) ∧
      issued db.history = netIssued tr ∧
      requested db.history = acceptedOutPoints tr ∧
      claimed db.history = acceptedClaims tr ∧
      credits db.history = acceptedCredits u tr)
      ⟨chainInv_empty u, rfl, rfl, rfl, rfl⟩ ?_
    intro tr db i o db' hinv h
    have heffect := Accepts.effect h hinv.1
    have hissued : issued db'.history = issued db.history + o.value := heffect.issued
    have hrequested : requested db'.history = i.outPoints ++ requested db.history :=
      heffect.requested
    have hclaimed : claimed db'.history = i.claims ++ claimed db.history := heffect.claimed
    have hcredits : credits db'.history = i.credits u o ++ credits db.history := heffect.credits
    refine ⟨Accepts.chainInv h hinv.1, ?_, ?_, ?_, ?_⟩
    · rw [hissued, hinv.2.1, netIssued, netIssued, List.map_cons, List.sum_cons, add_comm]
    · rw [hrequested, hinv.2.2.1, acceptedOutPoints, acceptedOutPoints, List.flatMap_cons]
    · rw [hclaimed, hinv.2.2.2.1, acceptedClaims, acceptedClaims, List.flatMap_cons]
    · rw [hcredits, hinv.2.2.2.2, acceptedCredits, acceptedCredits, List.flatMap_cons]
  exact hall.2

end Experimint.FedimintUsdt
