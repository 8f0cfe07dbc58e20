import Experimint.Usdt.InFlight
import Experimint.Usdt.Quorum

/-!
# A fresh deposit is swept

A deposit proof is accepted only if it pays the quote of a sweep at the current median, and the
trigger that runs right after it asks for the same median and the same quote.  Since nothing more
than was credited is ever swept, what the proof adds is all still on the account, and exceeds the
quote.  So the trigger does not give up on price or dust: either an operation of the account is in
flight already, or the sweep enters the pending table.

* `SweptInv` — what the records keep.
* `deposit_has_operation` — after an accepted proof the account has an operation in flight.
-/

set_option autoImplicit false

namespace Experimint.FedimintUsdt

open Books

variable {u : Usdt} {b b' : Books} {db db' : Db}

/-! ## Records -/

/-- No account is swept beyond what was credited. -/
def SweptInv (b : Books) : Prop := ∀ a r, b.records.get? a = some r → r.swept.raw ≤ r.credited.raw

theorem SweptInv.insert {a : EvmAddress} {r : DepositRecord} (hinv : SweptInv b)
    (hr : r.swept.raw ≤ r.credited.raw) (hb' : b'.records = b.records.insert a r) :
    SweptInv b' := by
  intro a' r' hr'
  rw [hb', Table.get?_insert] at hr'
  split_ifs at hr' with ha
  · cases hr'
    exact hr
  · exact hinv a' r' hr'

theorem SweptInv.getD {a : EvmAddress} {pk : PublicKey} {r : DepositRecord} (hinv : SweptInv b)
    (hr : (b.records.get? a).getD (Usdt.freshRecord pk) = r) : r.swept.raw ≤ r.credited.raw := by
  cases hrow : b.records.get? a with
  | none =>
    rw [hrow] at hr
    subst hr
    exact Nat.le_refl _
  | some r' =>
    rw [hrow] at hr
    subst hr
    exact hinv a r' hrow

theorem Move.sweptInv (h : Move u b b') (hinv : SweptInv b) : SweptInv b' := by
  cases h with
  | credit hrecord hdelta _ =>
    have := hinv.getD hrecord
    refine hinv.insert ?_ rfl
    simp only
    omega
  | request | claim | replace | finalize => exact hinv
  | offer hoffered =>
    obtain ⟨_, _, _, -, -, rfl⟩ := hoffered
    exact hinv
  | settle _ hsettle =>
    cases hsettle with
    | swept _ hrecord _ =>
      refine hinv.insert ?_ rfl
      rw [U64.raw_least]
      exact Nat.min_le_right _ _
    | spent _ hrecord _ =>
      have hle := hinv _ _ hrecord
      refine hinv.insert ?_ rfl
      exact hle
    | paid | requeued | isolated | abandoned | feesPaid | feesReverted => exact hinv

theorem run_sweptInv {tr : List (Item × Answer)} (run : Run (Accepts u) Db.empty tr db) :
    SweptInv (u.books db) :=
  run_books (fun _ _ h => by cases h) (fun _ _ _ hinv hm => hm.sweptInv hinv) run

/-! ## Sweeps in flight -/

/-- An operation of the account is pending or submitted. -/
def HasOperation (db : Db) (a : EvmAddress) : Prop :=
  (∃ h p, db.pendingUserOp.get? h = some p ∧
      (p.purpose = .deployAndSweep a ∨ p.purpose = .recoverResidual a)) ∨
    ∃ h s, db.submittedUserOp.get? h = some s ∧
      (s.purpose = .deployAndSweep a ∨ s.purpose = .recoverResidual a)

theorem UserOpPurpose.of_lane_deposit {p : UserOpPurpose} {a : EvmAddress}
    (h : p.lane = .deposit a) : p = .deployAndSweep a ∨ p = .recoverResidual a := by
  cases p with
  | deployAndSweep a' => cases h; exact .inl rfl
  | recoverResidual a' => cases h; exact .inr rfl
  | withdraw _ | withdrawFees _ _ => cases h

theorem HasOperation.of_inFlight {a : EvmAddress} {k : Slot} {op : UnsignedUserOp}
    {p : UserOpPurpose} {live : Bool} (hf : (u.books db).InFlight k op p live)
    (hp : p.lane = .deposit a) : HasOperation db a := by
  have hpurpose := UserOpPurpose.of_lane_deposit hp
  cases hf with
  | @pending h r hr => exact .inl ⟨h, r, hr, hpurpose⟩
  | @submitted h r hr => exact .inr ⟨h, r, hr, hpurpose⟩

/-- A scan of the tables that finds an operation of the account. -/
theorem HasOperation.of_anyInFlight {a : EvmAddress} {f : UserOpPurpose → Bool}
    (hf : ∀ p, f p = true → p.lane = .deposit a) (h : db.anyInFlight f = true) :
    HasOperation db a := by
  simp only [Db.anyInFlight, Bool.or_eq_true, List.any_eq_true] at h
  rcases h with ⟨r, hr, hp⟩ | ⟨r, hr, hp⟩ <;> obtain ⟨h, hrow⟩ := Table.mem_values.1 hr
  · exact .inl ⟨h, r, hrow, UserOpPurpose.of_lane_deposit (hf _ hp)⟩
  · exact .inr ⟨h, r, hrow, UserOpPurpose.of_lane_deposit (hf _ hp)⟩

theorem HasOperation.of_sweep {a : EvmAddress} (h : db.deployAndSweepInFlight a = true) :
    HasOperation db a :=
  .of_anyInFlight (fun p hp => by cases p <;> simp_all [UserOpPurpose.isSweepOf,
    UserOpPurpose.lane]) h

theorem HasOperation.of_recovery {a : EvmAddress} (h : db.residualRecoveryInFlight a = true) :
    HasOperation db a :=
  .of_anyInFlight (fun p hp => by cases p <;> simp_all [UserOpPurpose.isRecoveryOf,
    UserOpPurpose.lane]) h

/-- The sweep of everything a record still holds. -/
def Usdt.sweepOf (u : Usdt) (a : EvmAddress) (record : DepositRecord) (median : FeeVote) :
    UnsignedUserOp :=
  u.buildDeployAndSweepUserop a record.claimPk (U64.satSub record.credited record.swept)
    record.nonce (GasBounds.DEPLOY_AND_SWEEP_DEVNET.withMedianFees (some median.maxFeePerGasWei))

theorem hasOperation_enqueue (db : Db) (op : UnsignedUserOp) (a : EvmAddress) (block : Nat) :
    HasOperation (u.startOpSession
      (db.enqueue (u.opHash op) op (.deployAndSweep a) block) (u.opHash op)) a := by
  have hf : (u.books (u.startOpSession (db.enqueue (u.opHash op) op (.deployAndSweep a) block)
      (u.opHash op))).InFlight (.pending (u.opHash op)) op (.deployAndSweep a) true := by
    rw [books_startOpSession]
    exact InFlight.pending (p := ⟨_, _, _⟩) (Table.get?_insert_self _ _ _)
  exact .of_inFlight hf rfl

/-- A priced trigger that finds no operation in flight enqueues, unless the hash is taken. -/
theorem maybeTriggerSweep_enqueues {a : EvmAddress} {record : DepositRecord} {median : FeeVote}
    {quoted : UsdtAmount} (hrecord : db.depositRecord.get? a = some record)
    (hmedian : u.feeVoteMedian db = some median) (hquoted : depositFeeQuote median = some quoted)
    (hlt : quoted.raw < (U64.satSub record.credited record.swept).raw)
    (hsweep : ¬ db.deployAndSweepInFlight a = true)
    (hrecovery : ¬ db.residualRecoveryInFlight a = true)
    (hnew : ¬ db.isEnqueued (u.opHash (u.sweepOf a record median)) = true) :
    HasOperation (u.maybeTriggerSweep db a) a := by
  have henqueued : u.maybeTriggerSweep db a = u.startOpSession
      (db.enqueue (u.opHash (u.sweepOf a record median)) (u.sweepOf a record median)
        (.deployAndSweep a) (u.consensusBlockCount db))
      (u.opHash (u.sweepOf a record median)) := by
    unfold Usdt.maybeTriggerSweep
    simp only [hrecord, hmedian, hquoted]
    rw [if_neg (by omega), if_neg hsweep, if_neg hrecovery, if_neg (by omega)]
    exact if_neg hnew
  rw [henqueued]
  exact hasOperation_enqueue _ _ _ _

/-- A row under the hash of an account's sweep is the account's, if the hash does not collide. -/
theorem hasOperation_of_isEnqueued {a : EvmAddress} {op : UnsignedUserOp}
    (hchain : ChainInv u (u.books db)) (hlane : op.lane = .deposit a)
    (hlanes : ∀ k op' p live, (u.books db).InFlight k op' p live → op'.lane = p.lane)
    (hcollision : ∀ k op' p live, (u.books db).InFlight k op' p live →
      u.opHash op' = u.opHash op → op' = op)
    (henqueued : db.isEnqueued (u.opHash op) = true) : HasOperation db a := by
  obtain ⟨k, op', p, live, hf, hk⟩ := inFlight_of_isEnqueued (u := u) henqueued
  obtain rfl := hcollision _ _ _ _ hf ((hchain.keyed hf).trans hk)
  exact .of_inFlight hf ((hlanes _ _ _ _ hf).symm.trans hlane)

/-- **A fresh deposit is never left without an operation.**  Right after an accepted proof there are
a median and a quote, and what the record still holds exceeds the quote; so, unless the hash of the
account's sweep collides with that of another operation, one of the account is in flight. -/
theorem deposit_has_operation {tr : List (Item × Answer)} {pk : PublicKey} {proof : DepositProof}
    {fee : UsdtAmount} {answer : Answer} (run : Run (Accepts u) Db.empty tr db)
    (haccepts : Accepts u db (.input (.depositProofV0 pk proof fee)) answer db') :
    ∃ db₁ record median quoted, db' = u.maybeTriggerSweep db₁ (u.depositAccount pk) ∧
      db₁.depositRecord.get? (u.depositAccount pk) = some record ∧
      u.feeVoteMedian db₁ = some median ∧ depositFeeQuote median = some quoted ∧
      quoted.raw < (U64.satSub record.credited record.swept).raw ∧
      ((∀ q ∈ enqueued db.history,
          u.opHash q.2 = u.opHash (u.sweepOf (u.depositAccount pk) record median) →
            q.2 = u.sweepOf (u.depositAccount pk) record median) →
        HasOperation db' (u.depositAccount pk)) := by
  have hchain := run_chainInv run
  have hspent := run_spentInv run
  have hlisted := run_enqueueInv run
  obtain ⟨m, hok⟩ := Accepts.input haccepts
  obtain ⟨_, proven, r, delta, median, quoted, -, -, hr, rfl, hmedian, hquoted, hpaid, hfee, -,
    rfl⟩ := processDepositProof_ok hok
  have hle := (run_sweptInv run).getD hr
  generalize hdb₁ : Usdt.credit db (u.depositAccount pk) r proven
    (U64.satSub proven r.credited) fee proof.blockNumber = db₁
  obtain ⟨record, hrecord, hcredited, hswept⟩ : ∃ record,
      db₁.depositRecord.get? (u.depositAccount pk) = some record ∧ record.credited = proven ∧
        record.swept = r.swept := by
    rw [← hdb₁]
    exact ⟨_, Table.get?_insert_self _ _ _, rfl, rfl⟩
  have hmedian₁ : u.feeVoteMedian db₁ = some median := by
    rw [← hdb₁]
    exact hmedian
  have hlt : quoted.raw < (U64.satSub record.credited record.swept).raw := by
    rw [hcredited, hswept]
    rw [U64.raw_satSub] at hfee ⊢
    omega
  refine ⟨db₁, record, median, quoted, rfl, hrecord, hmedian₁, hquoted, hlt, ?_⟩
  intro hcollision
  -- the credit leaves the operation tables alone
  have hrows : ∀ k op p live, (u.books db₁).InFlight k op p live →
      (u.books db).InFlight k op p live := by
    intro k op p live hf
    rw [← hdb₁] at hf
    exact hf.congr rfl rfl
  have hchain₁ : ChainInv u (u.books db₁) := by
    rw [← hdb₁]
    refine Move.chainInv (@Move.credit _ _ _ _ _ _ _ proof.blockNumber hr ?_ hfee) hchain
    rw [U64.raw_satSub] at hfee ⊢
    omega
  by_contra hnone
  rcases maybeTriggerSweep_cases u db₁ (u.depositAccount pk) with hsame | hcases
  · rw [hsame] at hnone
    have hnew : ¬ db₁.isEnqueued
        (u.opHash (u.sweepOf (u.depositAccount pk) record median)) = true := by
      intro henqueued
      refine hnone (hasOperation_of_isEnqueued hchain₁ rfl ?_ ?_ henqueued)
      · exact fun k op p live hf => hspent.lane (hrows k op p live hf)
      · exact fun k op p live hf =>
          hcollision (k.hash, op) (mem_enqueued (hlisted.listed (hrows k op p live hf)))
    have hhas := maybeTriggerSweep_enqueues hrecord hmedian₁ hquoted hlt
      (fun h => hnone (.of_sweep h)) (fun h => hnone (.of_recovery h)) hnew
    rw [hsame] at hhas
    exact hnone hhas
  · obtain ⟨_, _, op, -, -, -, -, -, -, -, henqueued⟩ := hcases
    rw [henqueued] at hnone
    exact hnone (hasOperation_enqueue _ _ _ _)

theorem deposit_has_operation_sample :
    ∃ tr db answer db', Run (Accepts sampleUsdt) Db.empty tr db ∧
      Accepts sampleUsdt db (Sample.deposit 1 50000 10000) answer db' ∧
      HasOperation db' Sample.account := by
  obtain ⟨tr, db, run, hdb⟩ := Run.exists_of_exec sampleUsdt.step Db.empty (Sample.funding.take 3)
    (fun _ (db : Db) => decide (enqueued db.history = []) &&
      (sampleUsdt.step db (Sample.deposit 1 50000 10000)).isSome) (by decide +kernel)
  rw [Bool.and_eq_true, decide_eq_true_eq] at hdb
  obtain ⟨⟨answer, db'⟩, haccepts⟩ := Option.isSome_iff_exists.1 hdb.2
  obtain ⟨_, record, median, _, -, -, -, -, -, hhas⟩ := deposit_has_operation run haccepts
  refine ⟨tr, db, answer, db', run, haccepts, hhas ?_⟩
  rw [hdb.1]
  simp

end Experimint.FedimintUsdt
