import Experimint.Lib.OrderStatistics
import Experimint.Usdt.Effect

/-!
# Which queued withdrawals a batch takes

The trigger looks at the oldest request in the whole queue, but the batch is cut from the front of
the queue in out-point order: at most twenty withdrawals, and at most the smallest cap among those.

* `mem_cappedBatch` — membership by the place in the queue.
* `length_cappedBatch_le` — a batch is no larger than the cap of any member.
* `batch_serves_oldest_iff` — when a batch takes a withdrawal that has waited longest.
-/

set_option autoImplicit false

namespace Experimint.FedimintUsdt

open Books

variable {u : Usdt} {db db' : Db}

/-! ## Places in the queue -/

/-- Number of queued withdrawals with a smaller out point. -/
def queuedBefore (db : Db) (o : OutPoint) : Nat :=
  (Usdt.queuedWithdrawals db).countP fun q => decide (q.1 < o)

theorem queuedWithdrawals_sorted (db : Db) :
    (Usdt.queuedWithdrawals db).Pairwise fun q q' => q.1 < q'.1 :=
  db.unclaimedWithdrawal.sorted.filter _

/-- The batch takes who stands among the first twenty, before the cap of each of them. -/
theorem mem_cappedBatch {q : OutPoint × UsdtWithdrawalV0} :
    q ∈ Usdt.cappedBatch db (Usdt.queuedWithdrawals db) ↔
      q ∈ Usdt.queuedWithdrawals db ∧ queuedBefore db q.1 < BATCH_MAX_ITEMS ∧
        ∀ q' ∈ Usdt.queuedWithdrawals db, queuedBefore db q'.1 < BATCH_MAX_ITEMS →
          queuedBefore db q.1 < Usdt.withdrawalBatchCap db q'.1 := by
  have hsorted := queuedWithdrawals_sorted db
  unfold Usdt.cappedBatch
  dsimp only
  rw [List.take_take, mem_take_iff_of_sorted hsorted, lt_min_iff, lt_foldl_min_iff]
  constructor
  · rintro ⟨hq, ⟨hlt, hcaps⟩, -⟩
    refine ⟨hq, hlt, ?_⟩
    intro q' hq' hlt'
    exact hcaps q' ((mem_take_iff_of_sorted hsorted).2 ⟨hq', hlt'⟩)
  · rintro ⟨hq, hlt, hcaps⟩
    refine ⟨hq, ⟨hlt, ?_⟩, hlt⟩
    intro q' hq'
    obtain ⟨hq', hlt'⟩ := (mem_take_iff_of_sorted hsorted).1 hq'
    exact hcaps q' hq' hlt'

/-- A batch is no larger than the cap of any member. -/
theorem length_cappedBatch_le {queued : List (OutPoint × UsdtWithdrawalV0)}
    {q : OutPoint × UsdtWithdrawalV0} (hq : q ∈ Usdt.cappedBatch db queued) :
    (Usdt.cappedBatch db queued).length ≤ Usdt.withdrawalBatchCap db q.1 := by
  unfold Usdt.cappedBatch at hq ⊢
  dsimp only at hq ⊢
  have hmem := List.mem_of_mem_take hq
  rw [List.length_take]
  refine Nat.le_trans (Nat.min_le_left _ _) (Nat.le_of_not_lt fun hlt => ?_)
  exact Nat.lt_irrefl _ ((lt_foldl_min_iff.1 hlt).2 q hmem)

/-! ## The longest waiting -/

/-- No queued withdrawal was requested before `q`. -/
def LongestWaiting (db : Db) (q : OutPoint × UsdtWithdrawalV0) : Prop :=
  ∀ q' ∈ Usdt.queuedWithdrawals db, q.2.requestedBlock ≤ q'.2.requestedBlock

instance decidableLongestWaiting (db : Db) (q : OutPoint × UsdtWithdrawalV0) :
    Decidable (LongestWaiting db q) :=
  inferInstanceAs (Decidable (∀ q' ∈ Usdt.queuedWithdrawals db, _))

/-- The withdrawals at `outpoints` include one that has waited longest. -/
def ServesOldest (db : Db) (outpoints : List OutPoint) : Prop :=
  ∃ q ∈ Usdt.queuedWithdrawals db, LongestWaiting db q ∧ q.1 ∈ outpoints

instance decidableServesOldest (db : Db) (outpoints : List OutPoint) :
    Decidable (ServesOldest db outpoints) :=
  inferInstanceAs (Decidable (∃ q ∈ Usdt.queuedWithdrawals db, _))

/-- One that has waited longest stands among the first twenty of the queue, with fewer withdrawals
before it than any of those twenty allows in a batch. -/
def OldestInReach (db : Db) : Prop :=
  ∃ q ∈ Usdt.queuedWithdrawals db, LongestWaiting db q ∧
    queuedBefore db q.1 < BATCH_MAX_ITEMS ∧
    ∀ q' ∈ Usdt.queuedWithdrawals db, queuedBefore db q'.1 < BATCH_MAX_ITEMS →
      queuedBefore db q.1 < Usdt.withdrawalBatchCap db q'.1

theorem servesOldest_cappedBatch_iff :
    ServesOldest db ((Usdt.cappedBatch db (Usdt.queuedWithdrawals db)).map (·.1)) ↔
      OldestInReach db := by
  constructor
  · rintro ⟨q, hqueued, holdest, hmem⟩
    obtain ⟨q', hq', ho⟩ := List.mem_map.1 hmem
    obtain ⟨-, hlt, hcaps⟩ := mem_cappedBatch.1 hq'
    rw [ho] at hlt hcaps
    exact ⟨q, hqueued, holdest, hlt, hcaps⟩
  · rintro ⟨q, hqueued, holdest, hlt, hcaps⟩
    exact ⟨q, hqueued, holdest, List.mem_map_of_mem (mem_cappedBatch.2 ⟨hqueued, hlt, hcaps⟩)⟩

/-! ## Batches a block count enqueues -/

theorem startOpSession_history (db : Db) (h : Hash) :
    (u.startOpSession db h).history = db.history :=
  congrArg Books.history (books_startOpSession (u := u) db h)

/-- A sweep trigger adds at most one event, of a sweep. -/
theorem maybeTriggerSweep_history (db : Db) (a : EvmAddress) :
    ∃ new, (u.maybeTriggerSweep db a).history = new ++ db.history ∧
      ∀ e ∈ new, ∃ h op, e = .userOpEnqueued h op (.deployAndSweep a) := by
  rcases maybeTriggerSweep_cases u db a with hsame | ⟨_, _, op, -, -, -, -, -, -, -, heq⟩
  · exact ⟨[], by rw [hsame]; rfl, by simp⟩
  · refine ⟨[.userOpEnqueued (u.opHash op) op (.deployAndSweep a)],
      by rw [heq, startOpSession_history]; rfl, ?_⟩
    intro e he
    exact ⟨_, _, List.mem_singleton.1 he⟩

theorem accelerateSweeps_history (db : Db) :
    ∃ new, (u.accelerateSweepsForWithdrawals db).history = new ++ db.history ∧
      ∀ e ∈ new, ∃ h op a, e = .userOpEnqueued h op (.deployAndSweep a) := by
  unfold Usdt.accelerateSweepsForWithdrawals
  generalize db.depositRecord.rows = rows
  induction rows generalizing db with
  | nil => exact ⟨[], rfl, by simp⟩
  | cons r rest ih =>
    rw [List.foldl_cons]
    split
    · obtain ⟨new, hnew, hsweeps⟩ := ih (u.maybeTriggerSweep db r.1)
      obtain ⟨first, hfirst, hsweep⟩ := maybeTriggerSweep_history (u := u) db r.1
      refine ⟨new ++ first, by rw [hnew, hfirst, List.append_assoc], ?_⟩
      intro e he
      rcases List.mem_append.1 he with he | he
      · exact hsweeps e he
      · obtain ⟨h, op, rfl⟩ := hsweep e he
        exact ⟨h, op, r.1, rfl⟩
    · exact ih db

/-- A block count that enqueues a batch takes it from the front of the queue, and the pool covers
it. -/
theorem blockCount_batch {vote : Nat} {peerId : PeerId} {h : Hash} {op : UnsignedUserOp}
    {outpoints : List OutPoint} (hok : u.processBlockCount db vote peerId = .ok db')
    (henqueued : db'.history = .userOpEnqueued h op (.withdraw outpoints) :: db.history) :
    ∃ ws g, ws = Usdt.cappedBatch db (Usdt.queuedWithdrawals db) ∧ outpoints = ws.map (·.1) ∧
      (U64.satSum (ws.map fun q => q.2.amount)).raw ≤ (u.pool db).balance.raw ∧
      op = u.buildWithdrawalBatchUserop (u.pool db).account
        (ws.map fun q => (q.2.recipient, q.2.amount)) (u.pool db).nonce g := by
  obtain ⟨-, rfl⟩ := processBlockCount_ok hok
  rcases maybeTriggerWithdrawalBatch_cases u
      { db with blockCountVote := db.blockCountVote.insert peerId vote } with
    hsame | hsweeps | ⟨ws, hws, -, hfunded, heq⟩
  · rw [hsame] at henqueued
    exact absurd (congrArg List.length henqueued) (by simp)
  · -- only sweeps were added, and a batch is none
    obtain ⟨new, hnew, hall⟩ := accelerateSweeps_history (u := u)
      { db with blockCountVote := db.blockCountVote.insert peerId vote }
    rw [hsweeps, hnew] at henqueued
    have happend : new ++ db.history =
        [.userOpEnqueued h op (.withdraw outpoints)] ++ db.history := henqueued
    have hone := List.append_cancel_right happend
    obtain ⟨_, _, _, he⟩ := hall _ (hone ▸ List.mem_singleton.2 rfl)
    cases he
  · rw [heq, Usdt.buildAndEnqueueWithdrawalBatch, startOpSession_history] at henqueued
    cases (List.cons.inj henqueued).1
    exact ⟨ws, _, hws, rfl, hfunded, rfl⟩

/-- **A batch takes one of the longest-waiting withdrawals exactly when one is in reach.** -/
theorem batch_serves_oldest_iff {vote : Nat} {peerId : PeerId} {answer : Answer} {h : Hash}
    {op : UnsignedUserOp} {outpoints : List OutPoint}
    (haccepts : Accepts u db (.consensus (.blockCount vote) peerId) answer db')
    (henqueued : db'.history = .userOpEnqueued h op (.withdraw outpoints) :: db.history) :
    ServesOldest db outpoints ↔ OldestInReach db := by
  have hok : u.processBlockCount db vote peerId = .ok db' := haccepts.consensus
  obtain ⟨_, _, rfl, rfl, -⟩ := blockCount_batch hok henqueued
  exact servesOldest_cappedBatch_iff

/-- Two withdrawals, the older one with the larger out point, share a batch that reverts. -/
def Sample.poisoned : List Item :=
  Sample.anchor 1 ++ [Sample.vote (.feeVote ⟨1, 1⟩), Sample.deposit 1 50000 10000,
    Sample.sign (Sample.sweep 50000 0), Sample.confirm (Sample.sweep 50000 0) true 50000,
    Sample.withdrawal ⟨1, 0⟩ 10000 10000, Sample.vote (.blockCount 3),
    Sample.withdrawal ⟨0, 0⟩ 20000 10000, Sample.vote (.blockCount 6),
    Sample.sign (Sample.batch [20000, 10000] 0),
    Sample.confirm (Sample.batch [20000, 10000] 0) false 0]

/-- A block count enqueues `op` for `outpoints`, and for no other reason than that some request has
waited long enough. -/
def Sample.Due (op : UnsignedUserOp) (outpoints : List OutPoint) (db db' : Db) : Prop :=
  db'.history = .userOpEnqueued (sampleUsdt.opHash op) op (.withdraw outpoints) :: db.history ∧
    (Usdt.queuedWithdrawals db).length < BATCH_MAX_ITEMS ∧
    ∃ q ∈ Usdt.queuedWithdrawals db, q.2.requestedBlock + sampleUsdt.batchIntervalBlocks ≤
      sampleUsdt.consensusBlockCount db'

instance Sample.decidableDue (op : UnsignedUserOp) (outpoints : List OutPoint) (db db' : Db) :
    Decidable (Sample.Due op outpoints db db') :=
  inferInstanceAs (Decidable (_ ∧ _ ∧ ∃ q ∈ Usdt.queuedWithdrawals db, _))

/-- Whether block count `n` enqueues `op` for `outpoints` with, or without, the oldest request. -/
def Sample.dueAt (n : Nat) (op : UnsignedUserOp) (outpoints : List OutPoint) (serves : Bool)
    (db : Db) : Bool :=
  (sampleUsdt.step db (Sample.vote (.blockCount n))).any fun r =>
    decide (Sample.Due op outpoints db r.2) && decide (ServesOldest db outpoints) == serves

theorem Sample.of_dueAt {n : Nat} {op : UnsignedUserOp} {outpoints : List OutPoint} {serves : Bool}
    {db : Db} (h : Sample.dueAt n op outpoints serves db = true) :
    ∃ answer db', Accepts sampleUsdt db (.consensus (.blockCount n) 0) answer db' ∧
      Sample.Due op outpoints db db' ∧ decide (ServesOldest db outpoints) = serves := by
  unfold Sample.dueAt at h
  obtain ⟨r, hr, hdue⟩ := (Option.any_eq_true _ _).1 h
  simp only [Bool.and_eq_true, decide_eq_true_eq, beq_iff_eq] at hdue
  exact ⟨r.1, r.2, hr, hdue⟩

theorem batch_serves_oldest_iff_sample :
    ∃ tr db answer db', Run (Accepts sampleUsdt) Db.empty tr db ∧
      Accepts sampleUsdt db (.consensus (.blockCount 5) 0) answer db' ∧
      Sample.Due (Sample.batch [20000] 0) [⟨0, 0⟩] db db' ∧ OldestInReach db := by
  obtain ⟨tr, db, run, hdue⟩ := Run.exists_of_exec sampleUsdt.step Db.empty Sample.funding
    (fun _ db => Sample.dueAt 5 (Sample.batch [20000] 0) [⟨0, 0⟩] true db) (by decide +kernel)
  obtain ⟨answer, db', haccepts, hdue, hserves⟩ := Sample.of_dueAt hdue
  exact ⟨tr, db, answer, db', run, haccepts, hdue,
    (batch_serves_oldest_iff haccepts hdue.1).1 (of_decide_eq_true hserves)⟩

/-- After the revert both withdrawals may only travel alone, and the younger one has the smaller out
point. -/
theorem interval_batch_skips_oldest :
    ∃ tr db answer db', Run (Accepts sampleUsdt) Db.empty tr db ∧
      Accepts sampleUsdt db (.consensus (.blockCount 10) 0) answer db' ∧
      Sample.Due (Sample.batch [20000] 1) [⟨0, 0⟩] db db' ∧ ¬ ServesOldest db [⟨0, 0⟩] := by
  obtain ⟨tr, db, run, hdue⟩ := Run.exists_of_exec sampleUsdt.step Db.empty Sample.poisoned
    (fun _ db => Sample.dueAt 10 (Sample.batch [20000] 1) [⟨0, 0⟩] false db) (by decide +kernel)
  obtain ⟨answer, db', haccepts, hdue, hserves⟩ := Sample.of_dueAt hdue
  exact ⟨tr, db, answer, db', run, haccepts, hdue, of_decide_eq_false hserves⟩

end Experimint.FedimintUsdt
