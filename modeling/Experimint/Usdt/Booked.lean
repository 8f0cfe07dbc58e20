import Experimint.Usdt.CallData
import Experimint.Usdt.Isolation
import Experimint.Usdt.Ladder
import Experimint.Usdt.Migration

/-!
# What a batch books is what it pays

The trigger adds up a batch with saturation and compares the total with the pool; settlement decodes
the call of the operation that was confirmed and debits what it finds there.  The call is the same
in every member of a replacement chain, and what it encodes is the list the trigger has added up.

* `Usdt.Replaces.chain_eq` — members of a chain differ in their fees only.
* `FundedInv` — the pool covers a batch for as long as it is in flight.
* `built_amounts_decode` — decoders undo builders, and the total that was compared is debited.
-/

set_option autoImplicit false

namespace Experimint.FedimintUsdt

open Books

variable {u : Usdt} {b b' : Books} {db db' : Db} {tr : List (Item × Answer)}

/-! ## Chains -/

theorem Usdt.Replaces.chain_eq {p : UserOpPurpose} {op op' : UnsignedUserOp}
    (h : Relation.ReflTransGen (u.Replaces p) op op') : op'.chain = op.chain := by
  induction h with
  | refl => rfl
  | tail _ hlink ih =>
    obtain ⟨_, _, _, _, _, _, _, median, -, -, -, -, -, rfl, -⟩ := hlink.repriced
    exact ih

/-! ## Funding -/

/-- The pool covers every batch in flight. -/
def FundedInv (b : Books) : Prop :=
  ∀ k op outpoints live t, b.InFlight k op (.withdraw outpoints) live →
    decodeBatchTransferTotal op = .ok t → t.raw ≤ b.pool.balance.raw

theorem Move.fundedInv (h : Move u b b') (hinv : ChainInv u b) (hopen : OpenInv b)
    (hfunded : FundedInv b) : FundedInv b' := by
  intro k op outpoints live t hf ht
  rcases h.row_cases hinv hopen hf with ⟨ho, -, hp, -⟩ | ⟨_, op₀, _, hb, hc, hkeeps⟩
  · cases ho with
    | batch _ _ _ hcovered =>
      rw [hp, ← satSum_of_decoded ht]
      exact hcovered
  · -- only the pool's own lane takes from it
    exact (hfunded _ _ _ _ t hb ((decodeBatchTransferTotal_congr hc).symm.trans ht)).trans hkeeps.1

theorem run_fundedInv (run : Run (Accepts u) Db.empty tr db) : FundedInv (u.books db) := by
  have hboth : FundedInv (u.books db) ∧ OpenInv (u.books db) := by
    refine run_books (P := fun b => FundedInv b ∧ OpenInv b)
      ⟨fun _ _ _ _ _ hf => absurd hf not_inFlight_empty, (payloadInv_empty u).opened⟩ ?_ run
    intro b b' hchain ⟨hfunded, hopen⟩ hm
    exact ⟨hm.fundedInv hchain hopen hfunded, hm.openInv hopen⟩
  exact hboth.1

/-- A batch confirmed as successful takes what its call says from the pool. -/
theorem batch_debit (run : Run (Accepts u) Db.empty tr db) {h : Hash} {s : SubmittedUserOp}
    {obs : UserOpConfirmedObservation} {peerId : PeerId} {answer : Answer}
    {outpoints : List OutPoint} (hs : db.submittedUserOp.get? h = some s)
    (hp : s.purpose = .withdraw outpoints) (hsuccess : obs.success = true)
    (haccepts : Accepts u db (.consensus (.userOpConfirmed h obs) peerId) answer db')
    (hgone : db'.submittedUserOp.get? h = none) :
    ∃ t, decodeBatchTransferTotal s.signed.unsigned = .ok t ∧
      (u.pool db').balance.raw + t.raw = (u.pool db).balance.raw := by
  obtain ⟨share, b', caps', hsettle, -, hdesk⟩ :=
    userOpConfirmed_settled (run_chainInv run) hs hp haccepts.consensus hgone
  rw [hsuccess] at hsettle
  have hpool : u.pool db' = b'.pool := congrArg (fun d => d.books.pool) hdesk
  have hrow : (u.books db).InFlight (.submitted h) s.signed.unsigned (.withdraw outpoints)
      (!s.superseded) := hp ▸ .submitted hs
  rw [hpool]
  cases hsettle with
  | @paid _ t _ _ hcall =>
    have hle := run_fundedInv run _ _ _ _ t hrow hcall
    exact ⟨t, hcall, Nat.sub_add_cancel hle⟩
  | swept hpurpose | feesPaid hpurpose => cases hp.symm.trans hpurpose
  | spent hlane =>
    rw [hp] at hlane
    cases hlane

/-! ## Amounts built, compared and debited -/

/-- Withdrawals the trigger puts in the next batch. -/
def Usdt.nextBatch (db : Db) : List (OutPoint × UsdtWithdrawalV0) :=
  Usdt.cappedBatch db (Usdt.queuedWithdrawals db)

/-- Total the trigger compares with the pool. -/
def Usdt.batchTotal (db : Db) : UsdtAmount :=
  U64.satSum ((Usdt.nextBatch db).map fun q => q.2.amount)

theorem raw_batchTotal (hfits : ((Usdt.nextBatch db).map fun q => q.2.amount.raw).sum < 2 ^ 63) :
    (Usdt.batchTotal db).raw = ((Usdt.nextBatch db).map fun q => q.2.amount.raw).sum := by
  have hsum : ((Usdt.nextBatch db).map fun q => q.2.amount.raw) =
      ((Usdt.nextBatch db).map fun q => q.2.amount).map U64.raw := by
    rw [List.map_map]
    rfl
  rw [hsum] at hfits ⊢
  exact U64.raw_satSum_of_le (by unfold U64_MAX; omega)

/-- Operations that pay the next batch decode to its total, whatever their fees. -/
theorem Abi.decodeBatchTransferTotal_nextBatch (abi : Abi) {pool : EvmAddress} {nonce : Nat}
    {g : GasBounds} {op : UnsignedUserOp}
    (hfits : ((Usdt.nextBatch db).map fun q => q.2.amount.raw).sum < 2 ^ 63)
    (hchain : op.chain = (u.buildWithdrawalBatchUserop pool
      ((Usdt.nextBatch db).map fun q => (q.2.recipient, q.2.amount)) nonce g).chain) :
    abi.decodeBatchTransferTotal (abi.encode op) = .ok (Usdt.batchTotal db) := by
  have hcall : op.callData = (u.buildWithdrawalBatchUserop pool
      ((Usdt.nextBatch db).map fun q => (q.2.recipient, q.2.amount)) nonce g).callData :=
    congrArg (·.callData) hchain
  have hsum : (((Usdt.nextBatch db).map fun q => (q.2.recipient, q.2.amount)).map
      fun w => w.2.raw).sum = (Usdt.batchTotal db).raw := by
    rw [List.map_map, raw_batchTotal hfits]
    rfl
  rw [abi.decodeBatchTransferTotal_congr hcall, abi.encode_batch,
    abi.decodeBatchTransferTotal_build, hsum, U64.tryFrom_raw]
  rfl

/-- **Built operations decode to what was booked.**  Decoders undo builders, the pool covers a batch
that is enqueued, all members of its replacement chain decode to its total, and the total is what
the one that is confirmed takes from the pool. -/
theorem built_amounts_decode (abi : Abi) :
    (∀ e params, abi.decodeTransferAmount (abi.buildDeployAndSweepUserop e params) =
      .ok params.amount) ∧
    (∀ e params,
      (∀ hfits : (params.withdrawals.map fun w => w.2.raw).sum ≤ U64_MAX,
        abi.decodeBatchTransferTotal (abi.buildWithdrawalBatchUserop e params) = .ok ⟨_, hfits⟩) ∧
      (U64_MAX < (params.withdrawals.map fun w => w.2.raw).sum →
        abi.decodeBatchTransferTotal (abi.buildWithdrawalBatchUserop e params) =
          .error "batch transfer total overflows u64")) ∧
    (∀ params, ∃ amount : Word,
      abi.decodeRecoverResidual (abi.buildRecoverResidualUserop params) =
        .ok (params.entryPoint, params.recipient, amount) ∧ amount.val = params.amountWei) ∧
    ∀ u tr db vote peerId answer db' h op outpoints, Run (Accepts u) Db.empty tr db →
      Accepts u db (.consensus (.blockCount vote) peerId) answer db' →
      db'.history = .userOpEnqueued h op (.withdraw outpoints) :: db.history →
      ((Usdt.nextBatch db).map fun q => q.2.amount.raw).sum < 2 ^ 63 →
      (Usdt.batchTotal db).raw = ((Usdt.nextBatch db).map fun q => q.2.amount.raw).sum ∧
      (Usdt.batchTotal db).raw ≤ (u.pool db).balance.raw ∧
      (∃ params : WithdrawalBatchParams, abi.encode op = abi.buildWithdrawalBatchUserop u.evm params ∧
        params.withdrawals = (Usdt.nextBatch db).map fun q => (q.2.recipient, q.2.amount)) ∧
      ∀ op', Relation.ReflTransGen (u.Replaces (.withdraw outpoints)) op op' →
        abi.decodeBatchTransferTotal (abi.encode op') = .ok (Usdt.batchTotal db) ∧
        ∀ later before h' s obs peerId' answer' settled, Run (Accepts u) db' later before →
          before.submittedUserOp.get? h' = some s → s.signed.unsigned = op' →
          s.purpose = .withdraw outpoints → obs.success = true →
          Accepts u before (.consensus (.userOpConfirmed h' obs) peerId') answer' settled →
          settled.submittedUserOp.get? h' = none →
          (u.pool settled).balance.raw + (Usdt.batchTotal db).raw = (u.pool before).balance.raw := by
  refine ⟨abi.decodeTransferAmount_build, ?_, abi.decodeRecoverResidual_build, ?_⟩
  · intro e params
    rw [abi.decodeBatchTransferTotal_build]
    refine ⟨fun hfits => ?_, fun hover => ?_⟩
    · rw [U64.tryFrom_of_le hfits]
      rfl
    · rw [U64.tryFrom_of_lt hover]
      rfl
  · intro u tr db vote peerId answer db' h op outpoints run haccepts henqueued hfits
    obtain ⟨ws, g, rfl, -, hfunded, rfl⟩ := blockCount_batch haccepts.consensus henqueued
    have htotal := raw_batchTotal hfits
    refine ⟨htotal, hfunded, ⟨_, abi.encode_batch u _ _ _ g, rfl⟩, ?_⟩
    intro op' hmember
    have hchain := Usdt.Replaces.chain_eq hmember
    refine ⟨abi.decodeBatchTransferTotal_nextBatch hfits hchain, ?_⟩
    intro later before h' s obs peerId' answer' settled run' hs hop hp hsuccess hconfirm hgone
    obtain ⟨t, ht, hdebit⟩ := batch_debit ((run.next haccepts).append run') hs hp hsuccess hconfirm
      hgone
    rw [hop, decodeBatchTransferTotal_congr hchain] at ht
    have hsat : Usdt.batchTotal db = t := satSum_of_decoded ht
    rw [hsat]
    exact hdebit

/-! ## A batch that is paid by its replacement -/

deriving instance Countable for TransferCall, WithdrawToCall, ExecuteCall, ExecuteBatchCall

/-- Calls encoded by a codec that reads whole rows. -/
def CallCodec.ofCodec {Call : Type} (c : Codec UInt8 Call) : CallCodec Call :=
  ⟨c.encode, c.parse, c.parse_encode⟩

namespace Sample

noncomputable def abi : Abi where
  transfer := .ofCodec (unary _)
  withdrawTo := .ofCodec (unary _)
  execute := .ofCodec (unary _)
  executeBatch := .ofCodec (unary _)

/-- The sample batch at the fees of its replacement. -/
def repricedBatch : UnsignedUserOp := (batch [20000] 0).repriced ⟨1, 1⟩

/-- Whether the operation is submitted for the sample withdrawal. -/
def batchSubmitted (op : UnsignedUserOp) (db : Db) : Bool :=
  decide ((db.submittedUserOp.get? (sampleUsdt.opHash op)).map
    (fun s => (s.signed.unsigned, s.purpose)) = some (op, .withdraw [⟨0, 0⟩]))

/-- Whether the item enqueues the operation for the sample withdrawal, and `next` holds then. -/
def enqueuesBatch (item : Item) (op : UnsignedUserOp) (next : Db → Bool) (db : Db) : Bool :=
  (sampleUsdt.step db item).any fun r =>
    decide (r.2.history =
      .userOpEnqueued (sampleUsdt.opHash op) op (.withdraw [⟨0, 0⟩]) :: db.history) && next r.2

/-- Whether the operation is submitted and the vote to confirm it settles it. -/
def settlesBatch (op : UnsignedUserOp) (db : Db) : Bool :=
  batchSubmitted op db && (sampleUsdt.step db (confirm op true 20000)).any fun r =>
    decide (r.2.submittedUserOp.get? (sampleUsdt.opHash op) = none)

/-- Whether the sample batch is enqueued, submitted, replaced, and paid by its replacement. -/
def paysReplacement (db : Db) : Bool :=
  decide (((Usdt.nextBatch db).map fun q => q.2.amount.raw).sum < 2 ^ 63) &&
  enqueuesBatch (vote (.blockCount 5)) (batch [20000] 0) (fun db' =>
    (exec sampleUsdt.step [] db' [sign (batch [20000] 0), vote (.blockCount 40)]).any fun r =>
      batchSubmitted (batch [20000] 0) r.2 &&
      enqueuesBatch (vote (.replaceUserOp (sampleUsdt.opHash (batch [20000] 0)))) repricedBatch
        (fun replaced => (exec sampleUsdt.step [] replaced [sign repricedBatch]).any fun r' =>
          settlesBatch repricedBatch r'.2) r.2) db

theorem of_batchSubmitted {op : UnsignedUserOp} (h : batchSubmitted op db = true) :
    ∃ s, db.submittedUserOp.get? (sampleUsdt.opHash op) = some s ∧ s.signed.unsigned = op ∧
      s.purpose = .withdraw [⟨0, 0⟩] := by
  simpa only [batchSubmitted, decide_eq_true_eq, Option.map_eq_some_iff, Prod.mk.injEq] using h

theorem of_enqueuesBatch {item : Item} {op : UnsignedUserOp} {next : Db → Bool}
    (h : enqueuesBatch item op next db = true) :
    ∃ answer db', Accepts sampleUsdt db item answer db' ∧ db'.history =
        .userOpEnqueued (sampleUsdt.opHash op) op (.withdraw [⟨0, 0⟩]) :: db.history ∧
      next db' = true := by
  simp only [enqueuesBatch, Option.any_eq_true, Bool.and_eq_true, decide_eq_true_eq] at h
  obtain ⟨r, hr, henqueued, hnext⟩ := h
  exact ⟨r.1, r.2, hr, henqueued, hnext⟩

end Sample

theorem built_amounts_decode_replacement :
    ∃ tr db answer db' later before answer' settled, Run (Accepts sampleUsdt) Db.empty tr db ∧
      Accepts sampleUsdt db (Sample.vote (.blockCount 5)) answer db' ∧
      Run (Accepts sampleUsdt) db' later before ∧
      Accepts sampleUsdt before (Sample.confirm Sample.repricedBatch true 20000) answer' settled ∧
      (sampleUsdt.pool settled).balance.raw + (Usdt.batchTotal db).raw =
        (sampleUsdt.pool before).balance.raw := by
  obtain ⟨tr, db, run, hdb⟩ := Run.exists_of_exec sampleUsdt.step Db.empty Sample.funding
    (fun _ db => Sample.paysReplacement db) (by decide +kernel)
  simp only [Sample.paysReplacement, Bool.and_eq_true, decide_eq_true_eq] at hdb
  obtain ⟨hfits, hbatch⟩ := hdb
  obtain ⟨answer, db', haccepts, henqueued, hlate⟩ := Sample.of_enqueuesBatch hbatch
  simp only [Option.any_eq_true, Bool.and_eq_true] at hlate
  obtain ⟨⟨trLate, late⟩, hlate, hold, hreplaced⟩ := hlate
  obtain ⟨_, replaced, hreplace, hevent, hsigned⟩ := Sample.of_enqueuesBatch hreplaced
  simp only [Option.any_eq_true, Sample.settlesBatch, Bool.and_eq_true, decide_eq_true_eq]
    at hsigned
  obtain ⟨⟨trSigned, before⟩, hsigned, hnew, ⟨answer', settled⟩, hconfirm, hgone⟩ := hsigned
  have runLate : Run (Accepts sampleUsdt) db' trLate late := .of_exec .start hlate
  have runSigned : Run (Accepts sampleUsdt) db' _ before :=
    (runLate.next hreplace).append (.of_exec .start hsigned)
  obtain ⟨old, hold, hop, hp⟩ := Sample.of_batchSubmitted hold
  obtain ⟨new, hnew, hop', hp'⟩ := Sample.of_batchSubmitted hnew
  have hlink : sampleUsdt.Replaces (.withdraw [⟨0, 0⟩]) (Sample.batch [20000] 0)
      Sample.repricedBatch :=
    ⟨_, late, _, old, 0, _, replaced, (run.next haccepts).append runLate, hreplace, hold, hop, hp,
      hevent⟩
  obtain ⟨-, -, -, hmember⟩ := (built_amounts_decode Sample.abi).2.2.2 sampleUsdt tr db 5 0 answer
    db' _ _ _ run haccepts henqueued hfits
  exact ⟨tr, db, answer, db', _, before, answer', settled, run, haccepts, runSigned, hconfirm,
    (hmember _ (.single hlink)).2 _ before _ new _ 0 answer' settled runSigned hnew hop' hp' rfl
      hconfirm hgone⟩

end Experimint.FedimintUsdt
