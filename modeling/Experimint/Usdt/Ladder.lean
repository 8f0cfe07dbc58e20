import Experimint.Lib.Growth
import Experimint.Usdt.Turns

/-!
# The fee ladder of replacements

A replacement raises both fees of an operation by a tenth, rounded up.  The priority fee is capped
by the maximum fee, which could undo its rise, so the ladder rests on what holds of every operation
in flight (`OpFees`): the floor, the priority fee below the maximum fee, and enough room below the
integer limit for the next rise.  A batch has that room since its price in tokens was covered.

* `OpFees.bumped` — one step of the ladder.
* `run_ladder` — fees in flight, and the live operation's are the highest.
* `replacement_ladder` — chains of replacements, and how long a sweep's can be.
-/

set_option autoImplicit false

namespace Experimint.FedimintUsdt

open Books

/-! ## Prices -/

theorem weiGasCostToUsdt_eq_some {gasCostWei rate : Nat} {cost : UsdtAmount}
    (h : weiGasCostToUsdt gasCostWei rate = some cost) :
    gasCostWei * rate + (WEI_PER_ETH - 1) ≤ U128_MAX ∧
      cost.raw = (gasCostWei * rate + (WEI_PER_ETH - 1)) / WEI_PER_ETH := by
  simp only [weiGasCostToUsdt, checkedMul128, checkedAdd128, Option.bind_eq_bind,
    Option.bind_eq_some_iff, Option.ite_none_right_eq_some, Option.some.injEq] at h
  obtain ⟨_, ⟨-, rfl⟩, _, ⟨hle, rfl⟩, hcost⟩ := h
  exact ⟨hle, U64.tryFrom_eq_some hcost⟩

/-- A tenth more, rounded up, below the limit. -/
theorem bump10Percent_eq {fee : Nat} (hpos : 0 < fee) (hroom : 2 * fee ≤ U128_MAX) :
    Usdt.bump10Percent fee = fee + (fee + 9) / 10 := by
  unfold Usdt.bump10Percent satAdd128
  omega

/-- Built operations pay between the floor and the ceiling, and the floor as a tip. -/
theorem withMedianFees_bounds (g : GasBounds) (fee : Option Nat) :
    GasBounds.OP_FEE_FLOOR_WEI ≤ (g.withMedianFees fee).maxFeePerGas ∧
      (g.withMedianFees fee).maxFeePerGas ≤ GasBounds.OP_FEE_CEILING_WEI ∧
      (g.withMedianFees fee).maxPriorityFeePerGas = GasBounds.OP_FEE_FLOOR_WEI := by
  simp only [GasBounds.withMedianFees, GasBounds.OP_FEE_FLOOR_WEI, GasBounds.OP_FEE_CEILING_WEI,
    GasBounds.OP_PRIORITY_FEE_WEI]
  omega

/-! ## One step of the ladder -/

/-- Fees of an operation of this purpose. -/
structure OpFees (op : UnsignedUserOp) (p : UserOpPurpose) : Prop where
  floor : GasBounds.OP_FEE_FLOOR_WEI ≤ op.maxPriorityFeePerGas
  priority : op.maxPriorityFeePerGas ≤ op.maxFeePerGas
  room : 2 * op.maxFeePerGas ≤ U128_MAX
  gas : 2 ≤ op.verificationGasLimit
  sweep : ∀ a, p = .deployAndSweep a → op.maxFeePerGas ≤ SWEEP_MAX_FEE_PER_GAS_WEI

/-- `new` is `old` with both fees raised by at least a tenth. -/
structure Bumped (old new : UnsignedUserOp) : Prop where
  maxFee : 110 * old.maxFeePerGas ≤ 100 * new.maxFeePerGas
  maxFee_lt : old.maxFeePerGas < new.maxFeePerGas
  priorityFee : 110 * old.maxPriorityFeePerGas ≤ 100 * new.maxPriorityFeePerGas
  priorityFee_lt : old.maxPriorityFeePerGas < new.maxPriorityFeePerGas
  priority : new.maxPriorityFeePerGas ≤ new.maxFeePerGas
  /-- All other fields are the same. -/
  chain : new.chain = old.chain

theorem OpFees.bumped {op : UnsignedUserOp} {p : UserOpPurpose} (h : OpFees op p)
    (median : FeeVote) : Bumped op (op.repriced median) := by
  obtain ⟨hfloor, hpriority, hroom, -, -⟩ := h
  unfold GasBounds.OP_FEE_FLOOR_WEI at hfloor
  obtain ⟨hprice, -, htip⟩ := withMedianFees_bounds GasBounds.DEPLOY_AND_SWEEP_DEVNET
    (some median.maxFeePerGasWei)
  have hbump := bump10Percent_eq (by omega) hroom
  have htipBump : Usdt.bump10Percent op.maxPriorityFeePerGas = _ :=
    bump10Percent_eq (by omega) (by omega)
  have hmax : (op.repriced median).maxFeePerGas = max _ (Usdt.bump10Percent op.maxFeePerGas) := rfl
  have hprio : (op.repriced median).maxPriorityFeePerGas =
      min (max _ (Usdt.bump10Percent op.maxPriorityFeePerGas)) (op.repriced median).maxFeePerGas :=
    rfl
  rw [hbump] at hmax
  rw [htipBump, htip] at hprio
  unfold GasBounds.OP_FEE_FLOOR_WEI at hprice hprio
  refine ⟨?_, ?_, ?_, ?_, ?_, rfl⟩ <;> omega

/-- A batch whose price is covered leaves room for the next rise. -/
theorem room_of_cost {op : UnsignedUserOp} {median : FeeVote} {cost : UsdtAmount}
    (hgas : 2 ≤ op.verificationGasLimit) (hrate : 1 ≤ median.usdtPerEthE6)
    (hcost : weiGasCostToUsdt (Usdt.repricedUserOpFees op median).gasCostWei median.usdtPerEthE6 =
      some cost) : 2 * (op.repriced median).maxFeePerGas ≤ U128_MAX := by
  obtain ⟨hle, -⟩ := weiGasCostToUsdt_eq_some hcost
  have hmul := Nat.le_mul_of_pos_right (Usdt.repricedUserOpFees op median).gasCostWei hrate
  -- the price is below the limit, so the multiplication by the gas did not saturate
  have hlt : (Usdt.repricedUserOpFees op median).gasCostWei < U128_MAX := by
    unfold WEI_PER_ETH at hle
    omega
  have hgasCost : (Usdt.repricedUserOpFees op median).gasCostWei =
      min (satAdd128 (satAdd128 op.verificationGasLimit op.callGasLimit)
        (min op.preVerificationGas U128_MAX) * (op.repriced median).maxFeePerGas) U128_MAX := rfl
  have hunits : 2 ≤ satAdd128 (satAdd128 op.verificationGasLimit op.callGasLimit)
      (min op.preVerificationGas U128_MAX) := by
    unfold satAdd128 U128_MAX
    omega
  have htwo := Nat.mul_le_mul_right (op.repriced median).maxFeePerGas hunits
  omega

variable {u : Usdt} {b b' : Books} {d d' : Desk}

theorem OpFees.repriced {s : SubmittedUserOp} {median : FeeVote}
    (h : OpFees s.signed.unsigned s.purpose) (hafford : Affordable b s median)
    (hsane : feeVoteInSaneRange median = true) :
    OpFees (s.signed.unsigned.repriced median) s.purpose := by
  have hbump := h.bumped median
  have hfloor := h.floor
  have hlt := hbump.priorityFee_lt
  have hrate : 1 ≤ median.usdtPerEthE6 := (feeVoteInSaneRange_iff.1 hsane).2.1
  have hroom : 2 * (s.signed.unsigned.repriced median).maxFeePerGas ≤ U128_MAX := by
    cases hp : s.purpose with
    | withdraw outpoints =>
      simp only [Affordable, hp] at hafford
      obtain ⟨cost, hcost, -⟩ := hafford
      exact room_of_cost h.gas hrate hcost
    | deployAndSweep a =>
      simp only [Affordable, hp] at hafford
      unfold SWEEP_MAX_FEE_PER_GAS_WEI at hafford
      unfold U128_MAX
      omega
    | recoverResidual _ | withdrawFees _ _ => simp only [Affordable, hp] at hafford
  refine ⟨by omega, hbump.priority, hroom, h.gas, ?_⟩
  intro a hp
  simpa only [Affordable, hp] using hafford

theorem Built.opFees {op : UnsignedUserOp} {p : UserOpPurpose} (h : Built u d op p) :
    OpFees op p := by
  have hall : ∀ (g : GasBounds) (fee : Option Nat), 2 ≤ g.verificationGasLimit →
      (op.maxFeePerGas = (g.withMedianFees fee).maxFeePerGas ∧
        op.maxPriorityFeePerGas = (g.withMedianFees fee).maxPriorityFeePerGas ∧
        op.verificationGasLimit = g.verificationGasLimit) → OpFees op p := by
    rintro g fee hgas ⟨hmax, hprio, hlimit⟩
    obtain ⟨hfloor, hceiling, htip⟩ := withMedianFees_bounds g fee
    rw [htip] at hprio
    rw [← hmax] at hfloor hceiling
    unfold GasBounds.OP_FEE_CEILING_WEI at hceiling
    refine ⟨hprio.ge, by omega, by unfold U128_MAX; omega, by omega, fun _ _ => hceiling⟩
  cases h with
  | @sweep a pk m nonce fee =>
    exact hall .DEPLOY_AND_SWEEP_DEVNET fee (by decide) ⟨rfl, rfl, rfl⟩
  | @recovery a wei nonce fee =>
    exact hall .RECOVER_RESIDUAL_DEVNET fee (by decide) ⟨rfl, rfl, rfl⟩
  | @batch account ws nonce needsDeploy fee _ =>
    exact hall (.withdrawalBatch ws.length needsDeploy) fee
      (by cases needsDeploy <;> simp [GasBounds.withdrawalBatch]) ⟨rfl, rfl, rfl⟩
  | @fees account recipient a nonce needsDeploy fee =>
    exact hall (.withdrawalBatch 1 needsDeploy) fee
      (by cases needsDeploy <;> simp [GasBounds.withdrawalBatch]) ⟨rfl, rfl, rfl⟩

/-! ## Runs -/

/-- Fees of every operation in flight. -/
def FeesInv (b : Books) : Prop :=
  ∀ k op p live, b.InFlight k op p live → OpFees op p

/-- The live operation of a lane pays the most. -/
def RankInv (b : Books) : Prop :=
  ∀ k op p live k' op' p', b.InFlight k op p live → b.InFlight k' op' p' true →
    p.lane = p'.lane → op.maxFeePerGas ≤ op'.maxFeePerGas

theorem Turn.feesInv (hn : 0 < u.numPeers.total) (h : Turn u d d') (hfees : FeesInv d.books) :
    FeesInv d'.books := by
  intro k op p live hf
  rcases h.row_cases hf with
    ⟨k₀, live₀, hf₀, -⟩ | ⟨hbuilt, -, -⟩ | ⟨h', s, median, hs, -, hafford, hsane, rfl, rfl, -⟩
  · exact hfees _ _ _ _ hf₀
  · exact hbuilt.opFees
  · exact (hfees _ _ _ _ (.submitted hs)).repriced hafford (hsane hn)

theorem Turn.rankInv (h : Turn u d d') (hchain : ChainInv u d.books) (hfees : FeesInv d.books)
    (hrank : RankInv d.books) : RankInv d'.books := by
  intro k op p live k' op' p' hf hf' hlane
  cases h with
  | plain hmove hevent hplain =>
    obtain ⟨_, _, hf₀, -⟩ := hmove.plain_rows hevent hplain hf
    obtain ⟨_, _, hf₀', hlive⟩ := hmove.plain_rows hevent hplain hf'
    rw [hlive rfl] at hf₀'
    exact hrank _ _ _ _ _ _ _ hf₀ hf₀' hlane
  | built hbuilt hoffer hnew =>
    -- an operation is built in an idle lane only
    rcases hf.of_offer with ⟨-, rfl, rfl, -⟩ | ⟨-, hb⟩ <;>
      rcases hf'.of_offer with ⟨-, rfl, rfl, -⟩ | ⟨-, hb'⟩
    · exact le_rfl
    · exact (hoffer.idle _ _ _ _ hb' hlane.symm).elim
    · exact (hoffer.idle _ _ _ _ hb hlane).elim
    · exact hrank _ _ _ _ _ _ _ hb hb' hlane
  | @replaced h s median _ block hsubmitted hlive hop hafford hsane hnew =>
    have hrow : d.books.InFlight (.submitted h) s.signed.unsigned s.purpose true := by
      simpa [hlive] using InFlight.submitted hsubmitted
    have hlt := ((hfees _ _ _ _ hrow).bumped median).maxFee_lt
    rcases hf'.of_replace with ⟨-, rfl, rfl⟩ | ⟨-, -, -, hfalse⟩ | ⟨hne, hb'⟩
    · subst hop
      rcases hf.of_replace with ⟨-, rfl, rfl⟩ | ⟨-, rfl, rfl, -⟩ | ⟨-, hb⟩
      · exact le_rfl
      · exact hlt.le
      · exact (hrank _ _ _ _ _ _ _ hb hrow hlane).trans hlt.le
    · cases hfalse
    · -- the lane's live operation is the replaced one, so this is another lane
      have hother : p'.lane ≠ s.purpose.lane := fun he => hne (hchain.live hb' hrow he)
      rcases hf.of_replace with ⟨-, -, rfl⟩ | ⟨-, -, rfl, -⟩ | ⟨-, hb⟩
      · exact (hother hlane.symm).elim
      · exact (hother hlane.symm).elim
      · exact hrank _ _ _ _ _ _ _ hb hb' hlane
  | settled hsubmitted hsettle _ =>
    have hframe := hsettle.frame
    exact hrank _ _ _ _ _ _ _ (hf.of_finish.1.congr hframe.pending hframe.submitted)
      (hf'.of_finish.1.congr hframe.pending hframe.submitted) hlane

variable {db db' : Db} {tr : List (Item × Answer)}

/-- **Fees of the operations in flight, in every run.** -/
theorem run_ladder (hn : 0 < u.numPeers.total) (run : Run (Accepts u) Db.empty tr db) :
    FeesInv (u.books db) ∧ RankInv (u.books db) := by
  refine run_desk (P := fun d => FeesInv d.books ∧ RankInv d.books) ⟨?_, ?_⟩ ?_ run
  · intro k op p live hf
    exact (not_inFlight_empty hf).elim
  · intro k op p live k' op' p' hf
    exact (not_inFlight_empty hf).elim
  · intro d d' hb hinv ht
    exact ⟨ht.feesInv hn hinv.1, ht.rankInv hb.chain hinv.1 hinv.2⟩

/-! ## Chains of replacements -/

/-- In some run `new` is enqueued in place of `old`, for the same purpose. -/
def Usdt.Replaces (u : Usdt) (p : UserOpPurpose) (old new : UnsignedUserOp) : Prop :=
  ∃ tr db h s peerId answer db', Run (Accepts u) Db.empty tr db ∧
    Accepts u db (.consensus (.replaceUserOp h) peerId) answer db' ∧
    db.submittedUserOp.get? h = some s ∧ s.signed.unsigned = old ∧ s.purpose = p ∧
    db'.history = .userOpEnqueued (u.opHash new) new p :: db.history

/-- What an accepted replacement is. -/
theorem Accepts.replaced {h : Hash} {peerId : PeerId} {answer : Answer}
    (haccepts : Accepts u db (.consensus (.replaceUserOp h) peerId) answer db') :
    ∃ s median, db.submittedUserOp.get? h = some s ∧ Affordable (u.books db) s median ∧
      db'.history = .userOpEnqueued (u.opHash (s.signed.unsigned.repriced median))
        (s.signed.unsigned.repriced median) s.purpose :: db.history ∧
      ∃ live, (u.books db').InFlight (.pending (u.opHash (s.signed.unsigned.repriced median)))
        (s.signed.unsigned.repriced median) s.purpose live := by
  obtain ⟨s, median, hs, -, -, op, hop, hrefusal, -, rfl⟩ :=
    processReplaceUserOp_ok haccepts.consensus
  have hop : op = s.signed.unsigned.repriced median := hop
  subst hop
  have hbooks := books_enqueueReplacement u db h s
    (s.signed.unsigned.repriced median) (u.consensusBlockCount db)
  refine ⟨s, median, hs, (affordable_iff (u := u) db s median).1 hrefusal,
    congrArg Books.history hbooks, true, ?_⟩
  have hrow : (u.books (u.enqueueReplacement db h s (s.signed.unsigned.repriced median)
      (u.consensusBlockCount db))).pending.get? (u.opHash (s.signed.unsigned.repriced median)) =
      some ⟨s.signed.unsigned.repriced median, s.purpose, u.consensusBlockCount db⟩ := by
    rw [hbooks]
    exact Table.get?_insert_self _ _ _
  exact .pending hrow

/-- Sweeps and batches are the only operations replaced. -/
theorem Affordable.purpose {s : SubmittedUserOp} {median : FeeVote} (h : Affordable b s median) :
    (∃ a, s.purpose = .deployAndSweep a) ∨ ∃ outpoints, s.purpose = .withdraw outpoints := by
  unfold Affordable at h
  split at h
  · rename_i outpoints hp
    exact .inr ⟨outpoints, hp⟩
  · rename_i a hp
    exact .inl ⟨a, hp⟩
  · cases h

/-- The new operation is the old one at other fees, and takes its place in the tables. -/
theorem Usdt.Replaces.repriced {p : UserOpPurpose} {old new : UnsignedUserOp}
    (h : u.Replaces p old new) :
    ∃ tr db h s peerId answer db' median, Run (Accepts u) Db.empty tr db ∧
      Accepts u db (.consensus (.replaceUserOp h) peerId) answer db' ∧
      db.submittedUserOp.get? h = some s ∧ s.signed.unsigned = old ∧ s.purpose = p ∧
      new = old.repriced median ∧ ∃ k live, (u.books db').InFlight k new p live := by
  obtain ⟨tr, db, h, s, peerId, answer, db', run, haccepts, hs, rfl, rfl, hhistory⟩ := h
  obtain ⟨s', median, hs', -, hhistory', live, hf⟩ := haccepts.replaced
  cases hs.symm.trans hs'
  have hnew : new = s.signed.unsigned.repriced median := by
    have hevent := (List.cons.inj (hhistory.symm.trans hhistory')).1
    injection hevent
  subst hnew
  exact ⟨tr, db, h, s, peerId, answer, db', median, run, haccepts, hs, rfl, rfl, rfl, _, live, hf⟩

/-- One link of a chain. -/
theorem Usdt.Replaces.link {p : UserOpPurpose} {old new : UnsignedUserOp}
    (hn : 0 < u.numPeers.total) (h : u.Replaces p old new) :
    OpFees old p ∧ Bumped old new ∧ OpFees new p := by
  obtain ⟨tr, db, h, s, peerId, answer, db', median, run, haccepts, hs, rfl, rfl, rfl, k, live,
    hf⟩ := h.repriced
  have hold := (run_ladder hn run).1 _ _ _ _ (.submitted hs)
  exact ⟨hold, hold.bumped median, (run_ladder hn (.next run haccepts)).1 _ _ _ _ hf⟩

/-- **The fee ladder.**  Replacements raise both fees and nothing else, sweeps stay below their
ceiling, which their chains reach after 55 replacements, and only sweeps and batches are replaced.
-/
theorem replacement_ladder (u : Usdt) (hn : 0 < u.numPeers.total) :
    (∀ tr db h peerId answer db', Run (Accepts u) Db.empty tr db →
      Accepts u db (.consensus (.replaceUserOp h) peerId) answer db' →
      ∃ s new, db.submittedUserOp.get? h = some s ∧
        db'.history = .userOpEnqueued (u.opHash new) new s.purpose :: db.history ∧
        Bumped s.signed.unsigned new ∧
        ((∃ a, s.purpose = .deployAndSweep a) ∨ ∃ outpoints, s.purpose = .withdraw outpoints)) ∧
    (∀ p (ops : List UnsignedUserOp), ops.IsChain (u.Replaces p) → ops.IsChain Bumped) ∧
    (∀ tr db k op a live, Run (Accepts u) Db.empty tr db →
      (u.books db).InFlight k op (.deployAndSweep a) live → op.maxFeePerGas ≤ 200000000000) ∧
    ∀ a (ops : List UnsignedUserOp), ops.IsChain (u.Replaces (.deployAndSweep a)) →
      ops.length ≤ 55 + 1 := by
  refine ⟨?_, ?_, ?_, ?_⟩
  · intro tr db h peerId answer db' run haccepts
    obtain ⟨s, median, hs, hafford, hhistory, -⟩ := haccepts.replaced
    exact ⟨s, _, hs, hhistory, ((run_ladder hn run).1 _ _ _ _ (.submitted hs)).bumped median,
      hafford.purpose⟩
  · intro p ops hchain
    exact hchain.imp fun _ _ h => (h.link hn).2.1
  · intro tr db k op a live run hf
    exact ((run_ladder hn run).1 _ _ _ _ hf).sweep a rfl
  · intro a ops hchain
    refine length_le_of_growth UnsignedUserOp.maxFeePerGas 110 100 GasBounds.OP_FEE_FLOOR_WEI
      SWEEP_MAX_FEE_PER_GAS_WEI (by decide) (by decide) (hchain.imp fun old new h => ?_)
    obtain ⟨hold, hbump, hnew⟩ := h.link hn
    exact ⟨hold.floor.trans hold.priority, hbump.maxFee, hnew.sweep a rfl⟩

/-- Whether the sweep of `amount` is replaced by `new` next. -/
def Sample.replacedBy (amount : Nat) (new : UnsignedUserOp) (db : Db) : Bool :=
  let h := sampleUsdt.opHash (Sample.sweep amount 0)
  decide ((db.submittedUserOp.get? h).map (fun s => (s.signed.unsigned, s.purpose)) =
    some (Sample.sweep amount 0, .deployAndSweep Sample.account)) &&
  (sampleUsdt.step db (Sample.vote (.replaceUserOp h))).any fun r =>
    decide (r.2.history = .userOpEnqueued (sampleUsdt.opHash new) new
      (.deployAndSweep Sample.account) :: db.history)

theorem Sample.of_replacedBy {amount : Nat} {new : UnsignedUserOp} {db : Db}
    {tr : List (Item × Answer)} (run : Run (Accepts sampleUsdt) Db.empty tr db)
    (h : Sample.replacedBy amount new db = true) :
    sampleUsdt.Replaces (.deployAndSweep Sample.account) (Sample.sweep amount 0) new := by
  simp only [Sample.replacedBy, Bool.and_eq_true, decide_eq_true_eq, Option.any_eq_true,
    Option.map_eq_some_iff, Prod.mk.injEq] at h
  obtain ⟨⟨s, hs, hold, hp⟩, r, hr, hhistory⟩ := h
  exact ⟨tr, db, _, s, 0, r.1, r.2, run, hr, hs, hold, hp, hhistory⟩

theorem replacement_ladder_sample :
    ∃ new, sampleUsdt.Replaces (.deployAndSweep Sample.account) (Sample.sweep 50000 0) new ∧
      [Sample.sweep 50000 0, new].IsChain Bumped := by
  obtain ⟨tr, db, run, hreplaced⟩ := Run.exists_of_exec sampleUsdt.step Db.empty
    Sample.replacement.dropLast
    (fun _ db => Sample.replacedBy 50000 ((Sample.sweep 50000 0).repriced ⟨1, 1⟩) db)
    (by decide +kernel)
  have h := Sample.of_replacedBy run hreplaced
  exact ⟨_, h, (replacement_ladder sampleUsdt (by decide)).2.1 _ _ (.cons_cons h (.singleton _))⟩

end Experimint.FedimintUsdt
