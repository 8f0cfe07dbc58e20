import Experimint.Usdt.Medians
import Experimint.Usdt.Payload
import Experimint.Usdt.Queue

/-!
# Moves with their prices and caps

A `Move` leaves open what gas an operation pays and how large a batch may be.  A `Turn` is a move
that says so: an operation is built with the fees of `withMedianFees` and within the caps of its
withdrawals, replaced at the repriced fees if those are affordable, or settled with a new cap for
the withdrawals of a reverted batch.  `Desk` is the books with the caps.

* `Accepts.turns` — every accepted item is a sequence of turns.
* `Turn.row_cases` — an operation in flight was in flight before, is built, or is a replacement.
* `run_desk` — what every turn keeps holds in every reachable database.
-/

set_option autoImplicit false

namespace Experimint.FedimintUsdt

open Books

structure Desk where
  books : Books
  caps : Table OutPoint Nat

def Usdt.desk (u : Usdt) (db : Db) : Desk := ⟨u.books db, db.withdrawalBatchCap⟩

/-- Largest batch a withdrawal may be part of. -/
def Desk.capOf (d : Desk) (o : OutPoint) : Nat := (d.caps.get? o).getD BATCH_MAX_ITEMS

/-- Withdrawals an operation pays. -/
def UserOpPurpose.covered : UserOpPurpose → List OutPoint
  | .withdraw outpoints => outpoints
  | _ => []

/-- The operation with the fees of a replacement at `median`. -/
def UnsignedUserOp.repriced (op : UnsignedUserOp) (median : FeeVote) : UnsignedUserOp :=
  { op with
    maxFeePerGas := (Usdt.repricedUserOpFees op median).maxFeePerGas
    maxPriorityFeePerGas := (Usdt.repricedUserOpFees op median).maxPriorityFeePerGas }

/-- Operations as the triggers build them. -/
inductive Built (u : Usdt) (d : Desk) : UnsignedUserOp → UserOpPurpose → Prop
  | sweep {a : EvmAddress} {pk : PublicKey} {m : UsdtAmount} {nonce : Nat} {fee : Option Nat} :
      Built u d
        (u.buildDeployAndSweepUserop a pk m nonce
          (GasBounds.DEPLOY_AND_SWEEP_DEVNET.withMedianFees fee))
        (.deployAndSweep a)
  | recovery {a : EvmAddress} {wei nonce : Nat} {fee : Option Nat} :
      Built u d
        (u.buildRecoverResidualUserop a wei nonce
          (GasBounds.RECOVER_RESIDUAL_DEVNET.withMedianFees fee))
        (.recoverResidual a)
  | batch {account : EvmAddress} {ws : List (OutPoint × UsdtWithdrawalV0)} {nonce : Nat}
      {needsDeploy : Bool} {fee : Option Nat} (hcaps : ∀ q ∈ ws, ws.length ≤ d.capOf q.1) :
      Built u d
        (u.buildWithdrawalBatchUserop account (ws.map fun q => (q.2.recipient, q.2.amount)) nonce
          ((GasBounds.withdrawalBatch ws.length needsDeploy).withMedianFees fee))
        (.withdraw (ws.map (·.1)))
  | fees {account recipient : EvmAddress} {a : UsdtAmount} {nonce : Nat} {needsDeploy : Bool}
      {fee : Option Nat} :
      Built u d
        (u.buildWithdrawalBatchUserop account [(recipient, a)] nonce
          ((GasBounds.withdrawalBatch 1 needsDeploy).withMedianFees fee))
        (.withdrawFees recipient a)

/-- A replacement at `median` passes the check of its purpose: a batch against the fees of its
withdrawals, a sweep against the ceiling. -/
def Affordable (b : Books) (s : SubmittedUserOp) (median : FeeVote) : Prop :=
  match s.purpose with
  | .withdraw outpoints =>
    ∃ cost, weiGasCostToUsdt (Usdt.repricedUserOpFees s.signed.unsigned median).gasCostWei
        median.usdtPerEthE6 = some cost ∧ cost.raw ≤ (b.feesAt outpoints).raw
  | .deployAndSweep _ =>
    (s.signed.unsigned.repriced median).maxFeePerGas ≤ SWEEP_MAX_FEE_PER_GAS_WEI
  | _ => False

/-- Caps after a confirmation.  Only a reverted batch of several lowers them, and a withdrawal whose
own batch reverted leaves the books. -/
structure CapsSettled (p : UserOpPurpose) (success : Bool) (caps caps' : Table OutPoint Nat)
    (b' : Books) : Prop where
  others : ∀ o, o ∉ p.covered → caps'.get? o = caps.get? o
  split : success = false → 1 < p.covered.length →
    ∀ o ∈ p.covered, caps'.get? o = some (p.covered.length / 2)
  single : success = false → ∀ o, p.covered = [o] → b'.unclaimed.get? o = none

/-- Events of the moves that leave caps and prices alone. -/
def Event.isPlain : Event → Bool
  | .depositCredited _ _ _ _ | .withdrawalQueued _ _ _ | .refundClaimed _ _ => true
  | .userOpFinalized _ => true
  | _ => false

inductive Turn (u : Usdt) : Desk → Desk → Prop
  | plain {d : Desk} {b' : Books} {e : Event} (hmove : Move u d.books b')
      (hevent : b'.history = e :: d.books.history) (hplain : e.isPlain = true) :
      Turn u d ⟨b', d.caps⟩
  | built {d : Desk} {op : UnsignedUserOp} {p : UserOpPurpose} {block : Nat}
      (hbuilt : Built u d op p) (hoffer : Offer u d.books op p)
      (hnew : (d.books.pending.get? (u.opHash op) = none ∧
        d.books.submitted.get? (u.opHash op) = none) ∨ p.isPool = true) :
      Turn u d ⟨d.books.offer (u.opHash op) op p block, d.caps⟩
  | replaced {d : Desk} {h : Hash} {s : SubmittedUserOp} {median : FeeVote} {op : UnsignedUserOp}
      {block : Nat} (hsubmitted : d.books.submitted.get? h = some s) (hlive : s.superseded = false)
      (hop : op = s.signed.unsigned.repriced median) (hafford : Affordable d.books s median)
      (hsane : 0 < u.numPeers.total → feeVoteInSaneRange median = true)
      (hnew : d.books.pending.get? (u.opHash op) = none ∧
        d.books.submitted.get? (u.opHash op) = none) :
      Turn u d
        ⟨{ d.books.offer (u.opHash op) op s.purpose block with
            submitted := d.books.submitted.insert h { s with superseded := true } }, d.caps⟩
  | settled {d : Desk} {b' : Books} {h : Hash} {s : SubmittedUserOp} {share : UsdtAmount}
      {success : Bool} {caps' : Table OutPoint Nat}
      (hsubmitted : d.books.submitted.get? h = some s)
      (hsettle : Settle d.books s share success b')
      (hcaps : CapsSettled s.purpose success d.caps caps' b') :
      Turn u d ⟨b'.finish h s.signed.unsigned, caps'⟩

/-- What an item does: some turns in a row. -/
abbrev Turns (u : Usdt) : Desk → Desk → Prop := Relation.ReflTransGen (Turn u)

variable {u : Usdt} {db db' : Db} {d d' : Desk}

/-- A turn is a move. -/
theorem Turn.move (h : Turn u d d') : Move u d.books d'.books := by
  cases h with
  | plain hmove _ _ => exact hmove
  | built _ hoffer hnew => exact .offer ⟨_, _, _, hoffer, hnew, rfl⟩
  | replaced hsubmitted hlive hop _ _ hnew => exact .replace hsubmitted hlive (by rw [hop]; rfl) hnew
  | settled hsubmitted hsettle _ => exact .settle hsubmitted hsettle

/-! ## Rows after a turn -/

/-- A plain move keeps every operation in flight as it is. -/
theorem Move.plain_rows {b b' : Books} {e : Event} (h : Move u b b')
    (hevent : b'.history = e :: b.history) (hplain : e.isPlain = true) {k : Slot}
    {op : UnsignedUserOp} {p : UserOpPurpose} {live : Bool} (hf : b'.InFlight k op p live) :
    ∃ k₀ live₀, b.InFlight k₀ op p live₀ ∧ (live = true → live₀ = true) := by
  cases h with
  | credit | request | claim => exact ⟨k, live, hf.congr rfl rfl, id⟩
  | offer hoffered =>
    obtain ⟨op', p', block, -, -, rfl⟩ := hoffered
    cases (List.cons.inj hevent).1
    cases hplain
  | replace =>
    cases (List.cons.inj hevent).1
    cases hplain
  | finalize hp =>
    rcases hf.of_finalize with ⟨-, rfl, rfl⟩ | ⟨-, -, hb⟩
    · exact ⟨_, true, .pending hp, fun _ => rfl⟩
    · exact ⟨k, live, hb, id⟩
  | settle _ hsettle =>
    -- a settlement records a confirmation, or the failure after one
    cases hsettle <;> cases (List.cons.inj hevent).1 <;> cases hplain

/-- **An operation in flight after a turn was in flight, is built now, or replaces one.** -/
theorem Turn.row_cases (h : Turn u d d') {k : Slot} {op : UnsignedUserOp} {p : UserOpPurpose}
    {live : Bool} (hf : d'.books.InFlight k op p live) :
    (∃ k₀ live₀, d.books.InFlight k₀ op p live₀ ∧ (live = true → live₀ = true)) ∨
      (Built u d op p ∧ d.books.Idle p.lane ∧ d'.caps = d.caps) ∨
      ∃ h s median, d.books.submitted.get? h = some s ∧ s.superseded = false ∧
        Affordable d.books s median ∧
        (0 < u.numPeers.total → feeVoteInSaneRange median = true) ∧ p = s.purpose ∧
        op = s.signed.unsigned.repriced median ∧ d'.caps = d.caps := by
  cases h with
  | plain hmove hevent hplain => exact .inl (hmove.plain_rows hevent hplain hf)
  | built hbuilt hoffer _ =>
    rcases hf.of_offer with ⟨-, rfl, rfl, -⟩ | ⟨-, hb⟩
    · exact .inr (.inl ⟨hbuilt, hoffer.idle, rfl⟩)
    · exact .inl ⟨k, live, hb, id⟩
  | replaced hsubmitted hlive hop hafford hsane _ =>
    rcases hf.of_replace with ⟨-, rfl, rfl⟩ | ⟨-, rfl, rfl, hl⟩ | ⟨-, hb⟩
    · exact .inr (.inr ⟨_, _, _, hsubmitted, hlive, hafford, hsane, rfl, hop, rfl⟩)
    · refine .inl ⟨_, _, .submitted hsubmitted, fun hlive' => ?_⟩
      rw [hlive'] at hl
      cases hl
    · exact .inl ⟨k, live, hb, id⟩
  | settled hsubmitted hsettle _ =>
    have hframe := hsettle.frame
    exact .inl ⟨k, live, hf.of_finish.1.congr hframe.pending hframe.submitted, id⟩

/-! ## Triggers -/

theorem desk_startSession (db : Db) (purpose : SigningPurpose) (digest : Hash) (attempt : Nat) :
    u.desk (u.startSession db purpose digest attempt) = u.desk db := by
  unfold Usdt.startSession
  dsimp only
  split <;> rfl

theorem desk_startOpSession (db : Db) (h : Hash) : u.desk (u.startOpSession db h) = u.desk db :=
  desk_startSession _ _ _ _

/-- An operation that covers no withdrawals is built. -/
theorem turn_enqueue {op : UnsignedUserOp} {p : UserOpPurpose} {block : Nat}
    (hbuilt : Built u (u.desk db) op p) (hoffer : Offer u (u.books db) op p)
    (hp : ∀ outpoints, p ≠ .withdraw outpoints) (hn : ¬ db.isEnqueued (u.opHash op) = true) :
    Turn u (u.desk db)
      (u.desk (u.startOpSession (db.enqueue (u.opHash op) op p block) (u.opHash op))) := by
  have hturn : Turn u (u.desk db)
      ⟨(u.books db).offer (u.opHash op) op p block, db.withdrawalBatchCap⟩ :=
    .built hbuilt hoffer (.inl (free_of_not_isEnqueued hn))
  rw [desk_startOpSession]
  cases p with
  | withdraw outpoints => exact absurd rfl (hp outpoints)
  | deployAndSweep _ | recoverResidual _ | withdrawFees _ _ => exact hturn

theorem maybeTriggerSweep_turns (db : Db) (a : EvmAddress) :
    Turns u (u.desk db) (u.desk (u.maybeTriggerSweep db a)) := by
  rcases maybeTriggerSweep_cases u db a with
    hsame | ⟨record, median, op, hrecord, hpos, hsweep, hrecovery, -, rfl, hnew, heq⟩
  · rw [hsame]
  · rw [heq]
    exact .single (turn_enqueue .sweep (.sweep hrecord rfl (Nat.pos_of_ne_zero hpos)
      (idle_deposit hsweep hrecovery)) (by simp) hnew)

theorem accelerateSweeps_turns (db : Db) :
    Turns u (u.desk db) (u.desk (u.accelerateSweepsForWithdrawals db)) := by
  unfold Usdt.accelerateSweepsForWithdrawals
  generalize db.depositRecord.rows = rows
  induction rows generalizing db with
  | nil => exact .refl
  | cons r rest ih =>
    rw [List.foldl_cons]
    split
    · exact (maybeTriggerSweep_turns db r.1).trans (ih _)
    · exact ih db

theorem maybeTriggerResidualRecovery_turns (db : Db) (a : EvmAddress) :
    Turns u (u.desk db) (u.desk (u.maybeTriggerResidualRecovery db a)) := by
  rcases maybeTriggerResidualRecovery_cases u db a with
    hsame | ⟨record, median, wei, op, hrecord, hsweep, hrecovery, -, rfl, hnew, heq⟩
  · rw [hsame]
  · rw [heq]
    exact .single (turn_enqueue .recovery (.recovery hrecord (idle_deposit hsweep hrecovery))
      (by simp) hnew)

theorem maybeTriggerFeeWithdrawal_turns (db : Db) :
    Turns u (u.desk db) (u.desk (u.maybeTriggerFeeWithdrawal db)) := by
  rcases maybeTriggerFeeWithdrawal_cases u db with
    hsame | ⟨vote, op, hidle, haccrued, hfunded, rfl, hnew, heq⟩
  · rw [hsame]
  · rw [heq]
    exact .single (turn_enqueue .fees (.fees (idle_pool hidle) haccrued hfunded) (by simp) hnew)

theorem maybeTriggerWithdrawalBatch_turns (db : Db) :
    Turns u (u.desk db) (u.desk (u.maybeTriggerWithdrawalBatch db)) := by
  rcases maybeTriggerWithdrawalBatch_cases u db with
    hsame | hsweeps | ⟨ws, rfl, hidle, hfunded, heq⟩
  · rw [hsame]
  · rw [hsweeps]
    exact accelerateSweeps_turns db
  · obtain ⟨hnodup, hqueued⟩ := cappedBatch_queued (u := u) db
    rw [heq, Usdt.buildAndEnqueueWithdrawalBatch, desk_startOpSession, List.length_map]
    exact .single (.built (.batch fun q hq => length_cappedBatch_le hq)
      (.batch (idle_pool hidle) hnodup hqueued hfunded) (.inr rfl))

/-! ## Confirmations -/

/-- Removing operations and their votes leaves the caps alone. -/
theorem caps_finish (db : Db) (h : Hash) (sender : EvmAddress) (nonce : Nat) :
    (purgeUserOpNonceChain (db.removeSubmitted h) sender nonce h).withdrawalBatchCap =
      db.withdrawalBatchCap := by
  let Same (db' : Db) : Prop := db'.withdrawalBatchCap = db.withdrawalBatchCap
  have hpending : ∀ (db' : Db) (k : Hash), Same db' → Same (db'.removePending k) := by
    intro db' k hsame
    unfold Db.removePending removeSigningSessionsForOp
    exact List.foldlRecOn (motive := Same) _ _ hsame fun _ hx _ _ => hx
  unfold purgeUserOpNonceChain
  refine List.foldlRecOn (motive := Same) _ _ ?_ fun db' hsame r _ => hpending db' r.1 hsame
  exact List.foldlRecOn (motive := Same) _ _ rfl fun _ hx _ _ => hx

/-- A confirmation that covers no withdrawals leaves the caps alone. -/
theorem CapsSettled.of_same {p : UserOpPurpose} {success : Bool} {caps : Table OutPoint Nat}
    {b' : Books} (hp : p.covered = []) : CapsSettled p success caps caps b' where
  others _ _ := rfl
  split _ hlen := by simp [hp] at hlen
  single _ o ho := by simp [hp] at ho

theorem caps_settleSweep (db : Db) (source : EvmAddress) (success : Bool) (swept : UsdtAmount) :
    (u.settleSweep db source success swept).withdrawalBatchCap = db.withdrawalBatchCap := by
  unfold Usdt.settleSweep
  dsimp only
  split <;> split_ifs <;> rfl

theorem caps_settleRecovery (db : Db) (a : EvmAddress) :
    (Usdt.settleRecovery db a).withdrawalBatchCap = db.withdrawalBatchCap := by
  unfold Usdt.settleRecovery
  dsimp only
  split <;> rfl

theorem applyWithdrawConfirmed_caps (db : Db) (outpoints : List OutPoint)
    (obs : UserOpConfirmedObservation) (swept : UsdtAmount) :
    CapsSettled (.withdraw outpoints) obs.success db.withdrawalBatchCap
      (u.applyWithdrawConfirmed db outpoints obs swept).withdrawalBatchCap
      (u.books (u.applyWithdrawConfirmed db outpoints obs swept)) := by
  unfold Usdt.applyWithdrawConfirmed
  dsimp only
  split
  · rename_i hok
    refine ⟨?_, by simp [hok], by simp [hok]⟩
    intro o ho
    exact (Table.get?_eraseAll _ _ _).trans (if_neg ho)
  split
  · rename_i hlen
    cases outpoints with
    | nil => exact .of_same rfl
    | cons o rest =>
      obtain rfl : rest = [] := by simpa using hlen
      refine ⟨?_, fun _ hlt => absurd hlt (by simp [UserOpPurpose.covered]), ?_⟩
      · intro o' ho'
        have hne : o' ≠ o := by simpa [UserOpPurpose.covered] using ho'
        simp only [List.foldl_cons, List.foldl_nil, Usdt.createWithdrawalRefund]
        split
        · rfl
        · exact Table.get?_erase_ne _ hne
      · intro _ o' ho'
        obtain rfl : o = o' := by simpa [UserOpPurpose.covered] using ho'
        simp only [List.foldl_cons, List.foldl_nil, Usdt.createWithdrawalRefund]
        split
        · rename_i hgone
          exact hgone
        · exact Table.get?_erase_self _ _
  · rename_i hlen
    have hlen : 1 < outpoints.length := Nat.lt_of_not_le hlen
    refine ⟨?_, ?_, ?_⟩
    · intro o ho
      exact (Table.get?_insertAll _ _ _ _).trans (if_neg ho)
    · intro _ _ o ho
      have hhalf : max (outpoints.length / 2) 1 = outpoints.length / 2 := by omega
      exact (Table.get?_insertAll _ _ _ _).trans ((if_pos ho).trans (congrArg some hhalf))
    · intro _ o ho
      rw [show outpoints = [o] from ho] at hlen
      exact absurd hlen (by simp)

theorem settle_caps (db : Db) (s : SubmittedUserOp) (obs : UserOpConfirmedObservation)
    (swept : UsdtAmount) :
    CapsSettled s.purpose obs.success db.withdrawalBatchCap
      (u.settle db s obs swept).withdrawalBatchCap (u.books (u.settle db s obs swept)) := by
  unfold Usdt.settle
  split
  · rename_i a hp
    rw [caps_settleSweep]
    exact .of_same (by rw [hp]; rfl)
  · rename_i outpoints hp
    rw [hp]
    exact applyWithdrawConfirmed_caps db outpoints obs swept
  · rename_i recipient a hp
    exact .of_same (by rw [hp]; rfl)
  · rename_i a hp
    rw [caps_settleRecovery]
    exact .of_same (by rw [hp]; rfl)

theorem applyUserOpConfirmed_turns {h : Hash} {obs : UserOpConfirmedObservation}
    (hinv : ChainInv u (u.books db)) :
    Turns u (u.desk db) (u.desk (u.applyUserOpConfirmed db h obs)) := by
  unfold Usdt.applyUserOpConfirmed
  split
  · exact .refl
  rename_i s hs
  split
  · exact .refl
  rename_i swept heff
  have hturn := Turn.settled (u := u) (d := u.desk db) hs (settle_settle hinv hs heff)
    (settle_caps (u := u) (db.record (.userOpConfirmed s.signed.unsigned s.purpose obs.success
      swept)) s obs swept)
  rw [← books_finish, ← caps_finish _ h s.signed.unsigned.sender s.signed.unsigned.nonce] at hturn
  dsimp only
  split
  · exact .single hturn
  · exact .head hturn (maybeTriggerSweep_turns _ _)

/-! ## Replacements -/

/-- A batch is under the ceiling when its cost has a price and the fees cover it. -/
theorem not_over_ceiling_iff {s : SubmittedUserOp} {median : FeeVote} {outpoints : List OutPoint}
    (hp : s.purpose = .withdraw outpoints) :
    Usdt.withdrawRepriceOverCeiling db s median = false ↔
      ∃ cost, weiGasCostToUsdt (Usdt.repricedUserOpFees s.signed.unsigned median).gasCostWei
        median.usdtPerEthE6 = some cost ∧ cost.raw ≤ (Usdt.coveredFees db outpoints).raw := by
  unfold Usdt.withdrawRepriceOverCeiling
  rw [hp]
  dsimp only
  split
  · rename_i cost hcost
    simp [hcost]
  · rename_i hcost
    simp [hcost]

/-- No refusal is the check of the purpose. -/
theorem affordable_iff (db : Db) (s : SubmittedUserOp) (median : FeeVote) :
    Usdt.replacementRefusal db s median (s.signed.unsigned.repriced median).maxFeePerGas = none ↔
      Affordable (u.books db) s median := by
  unfold Usdt.replacementRefusal Affordable
  split <;> rename_i hp <;> rw [hp]
  · refine Iff.trans ?_ (not_over_ceiling_iff hp)
    cases Usdt.withdrawRepriceOverCeiling db s median <;> simp
  · simp
  · simp
  · simp

theorem processReplaceUserOp_turn {h : Hash} (hvotes : SaneVotes db)
    (hok : u.processReplaceUserOp db h = .ok db') : Turn u (u.desk db) (u.desk db') := by
  obtain ⟨s, median, hs, hlive, hmedian, op, hop, hrefusal, hnew, rfl⟩ := processReplaceUserOp_ok hok
  have hcaps : (u.enqueueReplacement db h s op (u.consensusBlockCount db)).withdrawalBatchCap =
      db.withdrawalBatchCap := by
    refine (congrArg Desk.caps (desk_startOpSession (u := u) _ _)).trans ?_
    cases s.purpose <;> rfl
  have hdesk : u.desk (u.enqueueReplacement db h s op (u.consensusBlockCount db)) =
      ⟨_, db.withdrawalBatchCap⟩ :=
    congrArg₂ Desk.mk (books_enqueueReplacement u db h s op (u.consensusBlockCount db)) hcaps
  rw [hdesk]
  refine .replaced hs hlive hop ?_ (fun hn => feeVoteMedian_sane hn hvotes hmedian)
    (free_of_not_isEnqueued (by simp [hnew]))
  rw [hop] at hrefusal
  exact (affordable_iff (u := u) db s median).1 hrefusal

/-! ## All items -/

theorem processInput_turns {input : UsdtInput} {m : InputMeta}
    (hok : u.processInput db input = .ok (m, db')) : Turns u (u.desk db) (u.desk db') := by
  cases input with
  | refundV0 o =>
    obtain ⟨f, hf, -, rfl⟩ := claimRefund_ok hok
    exact .single (.plain (.claim hf) rfl rfl)
  | depositProofV0 pk proof fee =>
    obtain ⟨_, proven, record, delta, _, _, -, -, hrecord, rfl, -, -, -, hfee, -, rfl⟩ :=
      processDepositProof_ok hok
    have hdelta : proven.raw = record.credited.raw + (U64.satSub proven record.credited).raw := by
      rw [U64.raw_satSub] at hfee ⊢
      omega
    have hmove := @Move.credit u (u.books db) _ _ _ _ _ proof.blockNumber hrecord hdelta hfee
    exact .head (.plain hmove rfl rfl)
      (maybeTriggerSweep_turns (Usdt.credit db _ _ _ _ _ _) _)
  | default _ _ => cases hok

theorem processOutput_turns {output : UsdtOutput} {o : OutPoint} {amounts : TransactionItemAmounts}
    (hok : u.processOutput db output o = .ok (amounts, db')) :
    Turns u (u.desk db) (u.desk db') := by
  obtain ⟨w, _, _, -, -, -, -, -, rfl⟩ := processOutput_ok hok
  exact .single (.plain .request rfl rfl)

theorem processConsensusItem_turns {item : UsdtConsensusItem} {peerId : PeerId}
    (hinv : ChainInv u (u.books db)) (hvotes : SaneVotes db)
    (hok : u.processConsensusItem db item peerId = .ok db') :
    Turns u (u.desk db) (u.desk db') := by
  cases item with
  | blockCount vote =>
    obtain ⟨-, rfl⟩ := processBlockCount_ok hok
    exact maybeTriggerWithdrawalBatch_turns
      { db with blockCountVote := db.blockCountVote.insert peerId vote }
  | mpcRound item =>
    obtain ⟨_, _, -, -, -, rfl | ⟨_, rfl⟩⟩ := processMpcRound_ok hok <;> exact .refl
  | mpcSignature id signature =>
    obtain ⟨_, _, _, -, -, -, hpending, -, -, rfl⟩ := processMpcSignature_ok hok
    exact .single (.plain (.finalize hpending) rfl rfl)
  | rotateSigning id =>
    obtain ⟨_, -, -, rfl⟩ := processRotateSigning_ok hok
    rw [desk_startSession]
    exact .refl
  | userOpConfirmed h obs =>
    obtain ⟨_, _, -, -, rfl, rfl | ⟨-, rfl⟩⟩ := processUserOpConfirmed_ok hok
    · exact .refl
    · have hinv' : ChainInv u (u.books { db with
          userOpConfirmedVote := db.userOpConfirmedVote.insert (toLex (h, peerId)) obs }) := hinv
      exact applyUserOpConfirmed_turns hinv'
  | feeVote vote =>
    obtain ⟨-, -, rfl⟩ := processFeeVote_ok hok
    exact .refl
  | bootstrapObservation obs =>
    obtain ⟨-, _, rfl⟩ := processBootstrapObservation_ok hok
    exact .refl
  | replaceUserOp h => exact .single (processReplaceUserOp_turn hvotes hok)
  | blockHash obs =>
    obtain ⟨-, -, -, _, rfl, rfl | ⟨-, rfl⟩⟩ := processBlockHash_ok hok <;> exact .refl
  | recoverResidual a wei =>
    obtain ⟨-, rfl⟩ := processRecoverResidual_ok hok
    exact maybeTriggerResidualRecovery_turns { db with
      recoverResidualVote := db.recoverResidualVote.insert (toLex (a, peerId)) wei } a
  | withdrawFeesVote vote =>
    obtain ⟨-, rfl⟩ := processWithdrawFeesVote_ok hok
    exact maybeTriggerFeeWithdrawal_turns { db with
      withdrawFeesVote := db.withdrawFeesVote.insert peerId vote }
  | default _ _ => cases hok

/-- **Every accepted item is a sequence of turns.** -/
theorem Accepts.turns {item : Item} {answer : Answer} (h : Accepts u db item answer db')
    (hinv : ChainInv u (u.books db)) (hvotes : SaneVotes db) :
    Turns u (u.desk db) (u.desk db') := by
  unfold Accepts Steps Usdt.step at h
  split at h
  · split at h
    · rename_i m db'' hok
      obtain ⟨rfl, rfl⟩ := Prod.mk.inj (Option.some.inj h)
      exact processInput_turns hok
    · cases h
  · split at h
    · rename_i amounts db'' hok
      obtain ⟨rfl, rfl⟩ := Prod.mk.inj (Option.some.inj h)
      exact processOutput_turns hok
    · cases h
  · split at h
    · rename_i db'' hok
      obtain ⟨rfl, rfl⟩ := Prod.mk.inj (Option.some.inj h)
      exact processConsensusItem_turns hinv hvotes hok
    · cases h

/-! ## Runs -/

/-- What is known of the books whenever a turn is taken. -/
structure BooksInv (u : Usdt) (b : Books) : Prop where
  chain : ChainInv u b
  payload : PayloadInv b

theorem Move.booksInv {b b' : Books} (h : Move u b b') (hb : BooksInv u b) : BooksInv u b' :=
  ⟨h.chainInv hb.chain, h.payloadInv hb.chain hb.payload⟩

/-- An invariant of the desk that every turn keeps holds in every reachable database. -/
theorem run_desk {tr : List (Item × Answer)} {P : Desk → Prop} (hempty : P (u.desk Db.empty))
    (hturn : ∀ d d', BooksInv u d.books → P d → Turn u d d' → P d')
    (run : Run (Accepts u) Db.empty tr db) : P (u.desk db) := by
  have hall : SaneVotes db ∧ BooksInv u (u.books db) ∧ P (u.desk db) := by
    refine run.invariant (P := fun db => SaneVotes db ∧ BooksInv u (u.books db) ∧ P (u.desk db))
      ⟨saneVotes_empty, ⟨chainInv_empty u, payloadInv_empty u⟩, hempty⟩ ?_
    intro db i o db' hinv h
    refine ⟨Accepts.saneVotes h hinv.1, ?_⟩
    refine Relation.ReflTransGen.head_induction_on
      (motive := fun d _ => BooksInv u d.books → P d → BooksInv u (u.books db') ∧ P (u.desk db'))
      (Accepts.turns h hinv.2.1.chain hinv.1) ?_ ?_ hinv.2.1 hinv.2.2
    · exact fun hs hp => ⟨hs, hp⟩
    · intro d d' ht _ ih hs hp
      exact ih (ht.move.booksInv hs) (hturn d d' hs hp ht)
  exact hall.2.2

end Experimint.FedimintUsdt
