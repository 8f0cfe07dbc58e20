import Experimint.Usdt.Ledger

/-!
# Accrued fees and the pool

The pool's record says that accrued fees are held by the pool.  They are credited when a sweep, a
batch or a failed withdrawal is settled, with whatever the deposit or the withdrawal had promised by
then, and no settlement looks at the balance.  So the bound has to be secured before: when a deposit
is credited and when a batch is triggered.

* `keepsFeesPooled`: no deposit is credited to an account that is being swept, and a batch is
  triggered only if the pool holds its amounts and fees besides the fees it has accrued.
* `PooledInv`: what follows for operations in flight.  A sweep takes all that is credited, and the
  pool has set aside what a batch pays and keeps.
* `accruedFees_le_balance`: in such runs the fees stay within the balance.
* `accruedFees_exceed_balance`: a run in which a second deposit is credited while the sweep of the
  first is in flight.
-/

set_option autoImplicit false

namespace Experimint.FedimintUsdt

open Books

namespace Usdt

variable (u : Usdt)

/-- A batch is about to be built: no operation of the pool is in flight, a queued withdrawal has
waited for the interval or enough are queued, and the pool covers the amounts. -/
def batchDue (db : Db) : Bool :=
  let queued := queuedWithdrawals db
  !db.withdrawBatchInFlight &&
    ((queued.map fun q => q.2.requestedBlock).min?.any fun oldestRequestedBlock =>
      !decide (u.consensusBlockCount db < oldestRequestedBlock + u.batchIntervalBlocks ∧
        queued.length < BATCH_MAX_ITEMS)) &&
    decide ((U64.satSum ((cappedBatch db queued).map fun q => q.2.amount)).raw ≤
      (u.pool db).balance.raw)

/-- The pool holds the amounts and the fees of the next batch besides the fees it has accrued. -/
def batchCovered (db : Db) : Bool :=
  decide ((u.pool db).accruedFees.raw +
      ((cappedBatch db (queuedWithdrawals db)).map fun q => q.2.amount.raw + q.2.maxFee.raw).sum ≤
    (u.pool db).balance.raw)

/-- What has been credited is within the range of amounts.  A deposit is credited only while no
sweep of its account is in flight, and a block count triggers only a batch that is covered. -/
def keepsFeesPooled (db : Db) (item : Item) : Bool :=
  decide (db.depositRecord.sum (fun _ r => r.credited.raw) ≤ U64_MAX) &&
    match item with
    | .input (.depositProofV0 pk _ _) => !db.deployAndSweepInFlight (u.depositAccount pk)
    | .consensus (.blockCount vote) peerId =>
      let voted := { db with blockCountVote := db.blockCountVote.insert peerId vote }
      !u.batchDue voted || u.batchCovered voted
    | _ => true

end Usdt

variable {u : Usdt} {db db' : Db} {b b' : Books}

/-- A trigger that is not due builds no batch. -/
theorem maybeTriggerWithdrawalBatch_of_not_due (h : u.batchDue db = false) :
    u.maybeTriggerWithdrawalBatch db = db ∨
      u.maybeTriggerWithdrawalBatch db = u.accelerateSweepsForWithdrawals db := by
  unfold Usdt.maybeTriggerWithdrawalBatch
  split
  · exact .inl rfl
  rename_i hidle
  dsimp only
  split
  · exact .inl rfl
  rename_i oldest holdest
  split
  · exact .inl rfl
  rename_i hdue
  split
  · exact .inr rfl
  rename_i hfunded
  simp [Usdt.batchDue, hidle, holdest, hdue, Nat.le_of_not_lt hfunded] at h

/-! ## Moves under the condition -/

/-- The pool holds the amounts and fees at `outpoints` besides the fees it has accrued. -/
def Books.Reserves (b : Books) (outpoints : List OutPoint) : Prop :=
  b.pool.accruedFees.raw + b.amountsAt outpoints + b.feesSumAt outpoints ≤ b.pool.balance.raw

/-- A move as the condition leaves it. -/
structure Careful (u : Usdt) (b b' : Books) : Prop where
  move : Move u b b'
  credited : ∀ {k op a live r}, b.InFlight k op (.deployAndSweep a) live →
    b.records.get? a = some r → ∃ r', b'.records.get? a = some r' ∧ r'.credited = r.credited
  batch : ∀ {k op outpoints live}, b'.InFlight k op (.withdraw outpoints) live →
    (∃ k₀ op₀ live₀, b.InFlight k₀ op₀ (.withdraw outpoints) live₀) ∨ b.Reserves outpoints
  range : b'.pool = b.pool ∨ b.creditedTotal ≤ U64_MAX

/-- A move that leaves the records alone and starts no batch. -/
theorem Careful.of_move (h : Move u b b') (hr : b'.records = b.records) (hp : b'.pool = b.pool)
    (hbatch : ∀ {k op outpoints live}, b'.InFlight k op (.withdraw outpoints) live →
      ∃ k₀ op₀ live₀, b.InFlight k₀ op₀ (.withdraw outpoints) live₀) : Careful u b b' where
  move := h
  credited _ hrecord := ⟨_, by rw [hr]; exact hrecord, rfl⟩
  batch hf := .inl (hbatch hf)
  range := .inl hp

theorem OfferedAside.careful (h : OfferedAside u b b') : Careful u b b' := by
  have hmove : Move u b b' := .offer h.offered
  obtain ⟨op, purpose, block, haside, -, -, rfl⟩ := h
  refine .of_move hmove rfl rfl fun hf => ?_
  rcases hf.of_offer with ⟨-, -, hpurpose, -⟩ | ⟨-, hold⟩
  · exact absurd hpurpose.symm (haside _)
  · exact ⟨_, _, _, hold⟩

theorem OffersAside.careful (h : OffersAside u b b') :
    Relation.ReflTransGen (Careful u) b b' :=
  h.lift id fun _ _ ho => OfferedAside.careful ho

theorem careful_credit {pk : PublicKey} {r : DepositRecord} {proven delta fee : UsdtAmount}
    {block : Nat} (hrecord : (b.records.get? (u.depositAccount pk)).getD (Usdt.freshRecord pk) = r)
    (hdelta : proven.raw = r.credited.raw + delta.raw) (hfee : fee.raw < delta.raw)
    (hquiet : ∀ {k op live}, ¬ b.InFlight k op (.deployAndSweep (u.depositAccount pk)) live) :
    Careful u b (b.credit (u.depositAccount pk) r proven delta fee block) where
  move := .credit hrecord hdelta hfee
  credited {k op a live r₀} hf hr₀ := by
    have hne : u.depositAccount pk ≠ a := fun he => hquiet (he ▸ hf)
    exact ⟨r₀, (Table.get?_insert_ne _ _ hne).trans hr₀, rfl⟩
  batch hf := .inl ⟨_, _, _, hf.congr rfl rfl⟩
  range := .inl rfl

/-- A settlement changes what is swept, not what is credited. -/
theorem Settle.credited {s : SubmittedUserOp} {share : UsdtAmount} {success : Bool}
    (h : Settle b s share success b') {a : EvmAddress} {r : DepositRecord}
    (hr : b.records.get? a = some r) :
    ∃ r', b'.records.get? a = some r' ∧ r'.credited = r.credited := by
  have hinsert : ∀ {a' : EvmAddress} {r₀ r' : DepositRecord}, b.records.get? a' = some r₀ →
      r'.credited = r₀.credited →
      ∃ r'', (b.records.insert a' r').get? a = some r'' ∧ r''.credited = r.credited := by
    intro a' r₀ r' hr₀ hcredited
    rw [Table.get?_insert]
    split
    · rename_i ha
      subst ha
      obtain rfl : r₀ = r := Option.some.inj (hr₀.symm.trans hr)
      exact ⟨r', rfl, hcredited⟩
    · exact ⟨r, hr, rfl⟩
  cases h with
  | swept _ hrecord _ => exact hinsert hrecord rfl
  | spent _ hrecord _ => exact hinsert hrecord rfl
  | paid | requeued | isolated | abandoned | feesPaid | feesReverted => exact ⟨r, hr, rfl⟩

theorem careful_settle {h : Hash} {s : SubmittedUserOp} {share : UsdtAmount} {success : Bool}
    (hs : b.submitted.get? h = some s) (hsettle : Settle b s share success b')
    (hrange : b.creditedTotal ≤ U64_MAX) : Careful u b (b'.finish h s.signed.unsigned) where
  move := .settle hs hsettle
  credited _ hr := hsettle.credited hr
  batch hf := .inl ⟨_, _, _, hf.of_finish.1.congr hsettle.frame.pending hsettle.frame.submitted⟩
  range := .inr hrange

/-- A covered batch is offered. -/
theorem careful_batch {op : UnsignedUserOp} {outpoints : List OutPoint} {block : Nat}
    (ho : Offer u b op (.withdraw outpoints)) (hreserves : b.Reserves outpoints) :
    Careful u b (b.offer (u.opHash op) op (.withdraw outpoints) block) where
  move := .offer ⟨op, _, block, ho, .inr rfl, rfl⟩
  credited _ hr := ⟨_, hr, rfl⟩
  batch hf := by
    rcases hf.of_offer with ⟨-, -, hpurpose, -⟩ | ⟨-, hold⟩
    · cases hpurpose
      exact .inr hreserves
    · exact .inl ⟨_, _, _, hold⟩
  range := .inl rfl

theorem careful_finalize {h : Hash} {p : PendingUserOp} {signature : Bytes} {block : Nat}
    (hpending : b.pending.get? h = some p) :
    Careful u b
      { b with
        submitted := b.submitted.insert h ⟨⟨p.op, signature⟩, p.purpose, block, false⟩
        pending := b.pending.erase h
        history := .userOpFinalized h :: b.history } := by
  refine .of_move (.finalize hpending) rfl rfl fun hf => ?_
  rcases hf.of_finalize with ⟨-, -, hpurpose⟩ | ⟨-, -, hold⟩
  · have hpurpose : .withdraw _ = p.purpose := hpurpose
    exact ⟨_, _, _, hpurpose ▸ InFlight.pending hpending⟩
  · exact ⟨_, _, _, hold⟩

theorem careful_replace {h : Hash} {s : SubmittedUserOp} {op : UnsignedUserOp} {block : Nat}
    (hs : b.submitted.get? h = some s)
    (hmove : Move u b { b.offer (u.opHash op) op s.purpose block with
      submitted := b.submitted.insert h { s with superseded := true } }) :
    Careful u b { b.offer (u.opHash op) op s.purpose block with
      submitted := b.submitted.insert h { s with superseded := true } } := by
  refine .of_move hmove rfl rfl fun hf => ?_
  rcases hf.of_replace with ⟨-, -, hpurpose⟩ | ⟨-, -, hpurpose, -⟩ | ⟨-, hold⟩
  · exact ⟨_, _, _, hpurpose ▸ InFlight.submitted hs⟩
  · exact ⟨_, _, _, hpurpose ▸ InFlight.submitted hs⟩
  · exact ⟨_, _, _, hold⟩

theorem amounts_and_fees {ws : List (OutPoint × UsdtWithdrawalV0)}
    (hqueued : ∀ q ∈ ws, b.unclaimed.get? q.1 = some q.2) :
    (ws.map fun q => q.2.amount.raw + q.2.maxFee.raw).sum =
      b.amountsAt (ws.map (·.1)) + b.feesSumAt (ws.map (·.1)) := by
  induction ws with
  | nil => rfl
  | cons q rest ih =>
    have hq := hqueued q List.mem_cons_self
    have hrest := ih fun q' hq' => hqueued q' (List.mem_cons_of_mem _ hq')
    simp only [amountsAt, feesSumAt, List.map_cons, List.sum_cons, hq, Option.map_some,
      Option.getD_some] at hrest ⊢
    omega

theorem maybeTriggerWithdrawalBatch_careful
    (h : (!u.batchDue db || u.batchCovered db) = true) :
    Relation.ReflTransGen (Careful u) (u.books db)
      (u.books (u.maybeTriggerWithdrawalBatch db)) := by
  have hsweeps := (accelerateSweeps_triggered (u := u) db).aside.careful
  by_cases hdue : u.batchDue db = true
  · have hcovered : u.batchCovered db = true := by simpa [hdue] using h
    rcases maybeTriggerWithdrawalBatch_cases u db with
      hsame | hsame | ⟨ws, rfl, hidle, hfunded, heq⟩
    · rw [hsame]
    · rw [hsame]
      exact hsweeps
    · obtain ⟨hnodup, hqueued⟩ := cappedBatch_queued (u := u) db
      have hsum := amounts_and_fees (b := u.books db) fun q hq => (hqueued q hq).1
      have hle := of_decide_eq_true hcovered
      have hreserves : (u.books db).Reserves
          ((Usdt.cappedBatch db (Usdt.queuedWithdrawals db)).map (·.1)) := by
        rw [hsum, ← Nat.add_assoc] at hle
        exact hle
      rw [heq, Usdt.buildAndEnqueueWithdrawalBatch, books_startOpSession]
      exact .single (careful_batch (.batch (idle_pool hidle) hnodup hqueued hfunded) hreserves)
  · rcases maybeTriggerWithdrawalBatch_of_not_due (by simpa using hdue) with hsame | hsame
    · rw [hsame]
    · rw [hsame]
      exact hsweeps

theorem processConsensusItem_careful {item : UsdtConsensusItem} {peerId : PeerId}
    (hinv : ChainInv u (u.books db)) (hok : u.processConsensusItem db item peerId = .ok db')
    (hpooled : u.keepsFeesPooled db (.consensus item peerId) = true) :
    Relation.ReflTransGen (Careful u) (u.books db) (u.books db') := by
  obtain ⟨hrange, hitem⟩ := Bool.and_eq_true_iff.1 hpooled
  have hsilent : u.books db' = u.books db →
      Relation.ReflTransGen (Careful u) (u.books db) (u.books db') := fun hsame => by rw [hsame]
  cases item with
  | blockCount vote =>
    obtain ⟨-, rfl⟩ := processBlockCount_ok hok
    exact maybeTriggerWithdrawalBatch_careful hitem
  | mpcRound item => exact hsilent (processMpcRound_silent hok).books
  | mpcSignature id signature =>
    obtain ⟨session, pending, ethSig, -, -, -, hpending, -, -, rfl⟩ := processMpcSignature_ok hok
    exact .single (careful_finalize hpending)
  | rotateSigning id => exact hsilent (processRotateSigning_silent hok).books
  | userOpConfirmed h obs =>
    rcases processUserOpConfirmed_effect hinv hok with
      hsame | ⟨s, _, b', hs, _, _, hsettle, haside⟩
    · exact hsilent hsame
    · exact .head (careful_settle hs hsettle (of_decide_eq_true hrange)) haside.careful
  | feeVote vote => exact hsilent (processFeeVote_silent hok).books
  | bootstrapObservation obs => exact hsilent (processBootstrapObservation_silent hok).books
  | replaceUserOp h =>
    obtain ⟨hmove, -⟩ := processReplaceUserOp_move hok
    obtain ⟨s, _, hs, -, -, op, -, -, -, rfl⟩ := processReplaceUserOp_ok hok
    rw [books_enqueueReplacement] at hmove ⊢
    exact .single (careful_replace hs hmove)
  | blockHash obs => exact hsilent (processBlockHash_silent hok).books
  | recoverResidual a wei => exact (processRecoverResidual_triggered hok).aside.careful
  | withdrawFeesVote vote => exact (processWithdrawFeesVote_triggered hok).aside.careful
  | default _ _ => cases hok

theorem Accepts.careful {item : Item} {answer : Answer} (h : Accepts u db item answer db')
    (hinv : ChainInv u (u.books db)) (hpooled : u.keepsFeesPooled db item = true) :
    Relation.ReflTransGen (Careful u) (u.books db) (u.books db') := by
  cases item with
  | input input =>
    obtain ⟨m, hok⟩ := Accepts.input h
    cases input with
    | refundV0 o =>
      obtain ⟨f, hf, -, rfl⟩ := claimRefund_ok hok
      exact .single (.of_move (.claim hf) rfl rfl fun hf => ⟨_, _, _, hf.congr rfl rfl⟩)
    | depositProofV0 pk proof fee =>
      obtain ⟨_, proven, delta, r, -, -, hr, hdelta, hfee, -, haside, -⟩ :=
        processDepositProof_effect hok
      have hfree := (Bool.and_eq_true_iff.1 hpooled).2
      have hnone : ¬ db.deployAndSweepInFlight (u.depositAccount pk) = true := by
        simpa using hfree
      refine .head (careful_credit hr hdelta hfee fun hf => ?_) haside.careful
      have hsweep := not_anyInFlight hnone hf
      simp [UserOpPurpose.isSweepOf] at hsweep
    | default _ _ => cases hok
  | output output o =>
    obtain ⟨amounts, hok⟩ := Accepts.output h
    obtain ⟨w, _, _, -, -, -, -, -, rfl⟩ := processOutput_ok hok
    exact .single (.of_move .request rfl rfl fun hf => ⟨_, _, _, hf.congr rfl rfl⟩)
  | consensus item peerId => exact processConsensusItem_careful hinv (Accepts.consensus h) hpooled

/-! ## What is set aside -/

/-- Fees are within the balance, and so is what operations in flight will realize. -/
structure PooledInv (b : Books) : Prop where
  /-- The fees of a deposit are part of what is not swept. -/
  fees : ∀ {a r}, b.records.get? a = some r → r.swept.raw + r.feesAccrued.raw ≤ r.credited.raw
  /-- A sweep takes all that is credited. -/
  sweep : ∀ {k op a live}, b.InFlight k op (.deployAndSweep a) live →
    ∃ r m, b.records.get? a = some r ∧ decodeTransferAmount op = .ok m ∧
      r.swept.raw + m.raw = r.credited.raw
  batch : ∀ {k op outpoints live}, b.InFlight k op (.withdraw outpoints) live → b.Reserves outpoints
  held : b.pool.balance.raw ≤ b.sweptTotal
  backed : b.pool.accruedFees.raw ≤ b.pool.balance.raw

theorem pooledInv_empty (u : Usdt) : PooledInv (u.books Db.empty) where
  fees h := by cases h
  sweep hf := absurd hf not_inFlight_empty
  batch hf := absurd hf not_inFlight_empty
  held := Nat.le_refl 0
  backed := Nat.le_refl 0

theorem raw_satAdd_mono {a b c d : UsdtAmount} (h : a.raw + b.raw ≤ c.raw + d.raw) :
    (U64.satAdd a b).raw ≤ (U64.satAdd c d).raw := by
  rw [U64.raw_satAdd, U64.raw_satAdd]
  omega

theorem Move.feesInv (h : Move u b b')
    (hfees : ∀ {a r}, b.records.get? a = some r →
      r.swept.raw + r.feesAccrued.raw ≤ r.credited.raw) {a : EvmAddress} {r : DepositRecord}
    (hr : b'.records.get? a = some r) : r.swept.raw + r.feesAccrued.raw ≤ r.credited.raw := by
  have hinsert : ∀ {a' : EvmAddress} {r' : DepositRecord},
      r'.swept.raw + r'.feesAccrued.raw ≤ r'.credited.raw →
      (b.records.insert a' r').get? a = some r →
      r.swept.raw + r.feesAccrued.raw ≤ r.credited.raw := by
    intro a' r' hr' hget
    rw [Table.get?_insert] at hget
    split_ifs at hget
    · exact Option.some.inj hget ▸ hr'
    · exact hfees hget
  cases h with
  | @credit pk r₀ proven delta fee block hrecord hdelta hfee =>
    have hold : r₀.swept.raw + r₀.feesAccrued.raw ≤ r₀.credited.raw := by
      cases hrow : b.records.get? (u.depositAccount pk) with
      | none =>
        rw [hrow] at hrecord
        subst hrecord
        exact Nat.le_refl _
      | some r' =>
        rw [hrow] at hrecord
        subst hrecord
        exact hfees hrow
    have hadd := U64.raw_satAdd_le r₀.feesAccrued fee
    refine hinsert ?_ hr
    dsimp only
    omega
  | offer hoffered =>
    obtain ⟨_, _, _, -, -, rfl⟩ := hoffered
    exact hfees hr
  | settle _ hsettle =>
    cases hsettle with
    | swept _ hrecord _ =>
      refine hinsert ?_ hr
      rw [U64.raw_least]
      exact Nat.min_le_right _ _
    | spent _ hrecord _ =>
      have hle := hfees hrecord
      refine hinsert ?_ hr
      exact hle
    | paid | requeued | isolated | abandoned | feesPaid | feesReverted => exact hfees hr
  | request | claim | replace | finalize => exact hfees hr

/-- The sweep of a settlement, and that it takes all the fees of its deposit. -/
theorem PooledInv.sweep_fees (hinv : PooledInv b) {k : Slot} {op : UnsignedUserOp}
    {a : EvmAddress} {live : Bool} {r : DepositRecord} {m : UsdtAmount}
    (hf : b.InFlight k op (.deployAndSweep a) live) (hr : b.records.get? a = some r)
    (hm : decodeTransferAmount op = .ok m) :
    r.swept.raw + m.raw = r.credited.raw ∧ r.feesAccrued.raw ≤ m.raw := by
  obtain ⟨r', m', hr', hm', hall⟩ := hinv.sweep hf
  obtain rfl : r = r' := Option.some.inj (hr.symm.trans hr')
  obtain rfl : m = m' := Except.ok.inj (hm.symm.trans hm')
  have hfees := hinv.fees hr
  exact ⟨hall, by omega⟩

/-- What a sweep moves and the pool holds has been credited. -/
theorem PooledInv.sweep_balance (hinv : PooledInv b) {a : EvmAddress} {r : DepositRecord}
    {m : UsdtAmount} (hr : b.records.get? a = some r)
    (hall : r.swept.raw + m.raw = r.credited.raw) :
    b.pool.balance.raw + m.raw ≤ b.creditedTotal := by
  have hothers : (b.records.erase a).sum (fun _ r => r.swept.raw) ≤
      (b.records.erase a).sum (fun _ r => r.credited.raw) :=
    Table.sum_le_sum fun _ _ hr' => Nat.le_of_add_right_le (hinv.fees (Table.get?_of_erase hr').2)
  have hheld := hinv.held
  rw [sweptTotal, Table.sum_erase _ hr] at hheld
  rw [creditedTotal, Table.sum_erase _ hr]
  omega

/-- The balance grows by no more than what is swept. -/
theorem PooledInv.held_insert (hinv : PooledInv b) {a : EvmAddress} {r r' : DepositRecord}
    (hrecord : b.records.get? a = some r) (hr : b'.records = b.records.insert a r')
    (hgrows : b'.pool.balance.raw + r.swept.raw ≤ b.pool.balance.raw + r'.swept.raw) :
    b'.pool.balance.raw ≤ b'.sweptTotal := by
  obtain ⟨-, hswept, -⟩ := records_insert (getD_of_record hrecord) hr
  have hheld := hinv.held
  omega

theorem Settle.held {h : Hash} {s : SubmittedUserOp} {share : UsdtAmount} {success : Bool}
    (hsettle : Settle b s share success b') (hs : b.submitted.get? h = some s)
    (hinv : PooledInv b) : b'.pool.balance.raw ≤ b'.sweptTotal := by
  have hheld := hinv.held
  have hsub := fun t : UsdtAmount => Nat.sub_le b.pool.balance.raw t.raw
  cases hsettle with
  | @swept a r m hpurpose hrecord hcall =>
    obtain ⟨hall, -⟩ := hinv.sweep_fees (hpurpose ▸ InFlight.submitted hs) hrecord hcall
    have hadd := U64.raw_satAdd_le b.pool.balance m
    have hmax := r.credited.le_max
    refine hinv.held_insert hrecord rfl ?_
    dsimp only
    rw [U64.raw_least, U64.raw_satAdd_of_le (a := r.swept) (by omega)]
    omega
  | spent hlane hrecord hsweep => exact hinv.held_insert hrecord rfl (Nat.le_refl _)
  | paid => exact (hsub _).trans hheld
  | feesPaid => exact (hsub _).trans hheld
  | requeued | isolated | abandoned | feesReverted => exact hheld

/-- A settlement keeps the fees within the balance: a sweep brings in the fees it realizes, and what
a batch pays and keeps was set aside. -/
theorem Settle.backed {h : Hash} {s : SubmittedUserOp} {share : UsdtAmount} {success : Bool}
    (hsettle : Settle b s share success b') (hs : b.submitted.get? h = some s)
    (hp : PayloadInv b) (hnodup : (requested b.history).Nodup) (hinv : PooledInv b) :
    b'.pool.accruedFees.raw ≤ b'.pool.balance.raw := by
  have hbacked := hinv.backed
  cases hsettle with
  | swept hpurpose hrecord hcall =>
    obtain ⟨-, hfees⟩ := hinv.sweep_fees (hpurpose ▸ InFlight.submitted hs) hrecord hcall
    exact raw_satAdd_mono (Nat.add_le_add hbacked hfees)
  | @paid outpoints t block hpurpose hcall =>
    have hf : b.InFlight _ _ (.withdraw outpoints) _ := hpurpose ▸ InFlight.submitted hs
    obtain ⟨-, -, htotal⟩ := hp.batch hnodup _ _ _ _ hf
    have ht := (htotal t hcall).1
    have hreserves := hinv.batch hf
    have hfees : (b.feesAt outpoints).raw ≤ b.feesSumAt outpoints := by
      rw [← feesAt_sum]
      exact U64.raw_satSum_le _
    have hadd := U64.raw_satAdd_le b.pool.accruedFees (b.feesAt outpoints)
    show (U64.satAdd b.pool.accruedFees _).raw ≤ (U64.satSub b.pool.balance t).raw
    unfold Reserves at hreserves
    rw [U64.raw_satSub]
    omega
  | @isolated o w charge reason hpurpose hopen hcharge =>
    have hreserves := hinv.batch (hpurpose ▸ InFlight.submitted hs)
    simp only [Reserves, amountsAt, feesSumAt, List.map_cons, List.map_nil, List.sum_cons,
      List.sum_nil, hopen, Option.map_some, Option.getD_some] at hreserves
    have hle : charge.raw ≤ w.amount.raw + w.maxFee.raw := by
      rw [hcharge, U64.raw_least]
      exact (Nat.min_le_right _ _).trans (U64.raw_satAdd_le _ _)
    have hadd := U64.raw_satAdd_le b.pool.accruedFees charge
    show (U64.satAdd b.pool.accruedFees charge).raw ≤ b.pool.balance.raw
    omega
  | feesPaid => exact Nat.sub_le_sub_right hbacked _
  | spent | requeued | abandoned | feesReverted => exact hbacked

/-- The settlement of a deposit's operation leaves what is set aside for a batch alone. -/
theorem Settle.reserve {h : Hash} {s : SubmittedUserOp} {share : UsdtAmount} {success : Bool}
    (hsettle : Settle b s share success b') (hs : b.submitted.get? h = some s)
    (hlane : .pool ≠ s.purpose.lane) (hrange : b'.pool = b.pool ∨ b.creditedTotal ≤ U64_MAX)
    (hinv : PooledInv b) :
    b'.pool.accruedFees.raw + b.pool.balance.raw ≤
      b.pool.accruedFees.raw + b'.pool.balance.raw := by
  rcases hrange with hsame | hrange
  · rw [hsame]
  cases hsettle with
  | @swept a r m hpurpose hrecord hcall =>
    obtain ⟨hall, hfees⟩ := hinv.sweep_fees (hpurpose ▸ InFlight.submitted hs) hrecord hcall
    have hbalance := hinv.sweep_balance hrecord hall
    have hadd := U64.raw_satAdd_le b.pool.accruedFees r.feesAccrued
    show (U64.satAdd b.pool.accruedFees r.feesAccrued).raw + b.pool.balance.raw ≤
      b.pool.accruedFees.raw + (U64.satAdd b.pool.balance m).raw
    rw [U64.raw_satAdd_of_le (a := b.pool.balance) (hbalance.trans hrange)]
    omega
  | spent => exact Nat.le_refl _
  | paid hpurpose | requeued hpurpose | isolated hpurpose | abandoned hpurpose
  | feesPaid hpurpose | feesReverted hpurpose => exact absurd (by rw [hpurpose]; rfl) hlane

/-! ## Careful moves keep it -/

variable {k : Slot} {op : UnsignedUserOp} {outpoints : List OutPoint} {live : Bool}

/-- While a batch is in flight, fees grow by no more than the balance. -/
theorem Careful.reserve (h : Careful u b b') (hchain : ChainInv u b) (hinv : PooledInv b)
    (hf : b'.InFlight k op (.withdraw outpoints) live) :
    b'.pool.accruedFees.raw + b.pool.balance.raw ≤
      b.pool.accruedFees.raw + b'.pool.balance.raw := by
  obtain ⟨hmove, -, -, hrange⟩ := h
  cases hmove with
  | offer hoffered =>
    obtain ⟨_, _, _, -, -, rfl⟩ := hoffered
    exact Nat.le_refl _
  | settle hs hsettle =>
    have hframe := hsettle.frame
    have hlane := hchain.idle_finish hs hframe.pending hframe.submitted _ _ _ _ hf
    exact hsettle.reserve hs hlane hrange hinv
  | credit | request | claim | replace | finalize => exact Nat.le_refl _

theorem Books.feesSumAt_congr (h : ∀ o ∈ outpoints, b'.unclaimed.get? o = b.unclaimed.get? o) :
    b'.feesSumAt outpoints = b.feesSumAt outpoints :=
  congrArg List.sum (List.map_congr_left fun o ho => by rw [h o ho])

/-- A batch's share of the pool stays set aside. -/
theorem Books.Reserves.mono (h : b.Reserves outpoints)
    (hopen : ∀ o ∈ outpoints, b'.unclaimed.get? o = b.unclaimed.get? o)
    (hpool : b'.pool.accruedFees.raw + b.pool.balance.raw ≤
      b.pool.accruedFees.raw + b'.pool.balance.raw) : b'.Reserves outpoints := by
  unfold Reserves at h ⊢
  rw [amountsAt_congr hopen, feesSumAt_congr hopen]
  omega

/-- A sweep in flight still takes all that is credited: a new one does, and no deposit is credited
under an old one. -/
theorem Careful.sweep_all (h : Careful u b b') (hchain : ChainInv u b) (hp : PayloadInv b)
    (hinv : PooledInv b) {a : EvmAddress} (hf : b'.InFlight k op (.deployAndSweep a) live) :
    ∃ r m, b'.records.get? a = some r ∧ decodeTransferAmount op = .ok m ∧
      r.swept.raw + m.raw = r.credited.raw := by
  rcases h.move.row_cases hchain hp.opened hf with ⟨ho, hr, -, -⟩ | ⟨_, op₀, _, hb, hc, hkeeps⟩
  · cases ho with
    | @sweep _ r m g hrecord hamount hpos _ =>
      have hle := hinv.fees hrecord
      exact ⟨r, m, by rw [hr]; exact hrecord,
        decodeTransferAmount_sweep u a r.claimPk m r.nonce g, by omega⟩
  · obtain ⟨r, m, hr, hm, hall⟩ := hinv.sweep hb
    obtain ⟨r', hr', hswept, -⟩ := hkeeps r hr
    obtain ⟨r'', hr'', hcredited⟩ := h.credited hb hr
    obtain rfl : r' = r'' := Option.some.inj (hr'.symm.trans hr'')
    exact ⟨r', m, hr', (decodeTransferAmount_congr hc).trans hm, by rw [hswept, hcredited, hall]⟩

/-- A batch in flight stays covered: a new one is, and an old one keeps its withdrawals. -/
theorem Careful.batch_reserves (h : Careful u b b') (hchain : ChainInv u b) (hp : PayloadInv b)
    (hnodup : (requested b'.history).Nodup) (hinv : PooledInv b)
    (hf : b'.InFlight k op (.withdraw outpoints) live) : b'.Reserves outpoints := by
  have hpool := h.reserve hchain hinv hf
  rcases h.move.row_cases hchain hp.opened hf with ⟨-, -, -, hu⟩ | ⟨_, op₀, _, hb, -, hkeeps⟩
  · have hreserves : b.Reserves outpoints := by
      rcases h.batch hf with ⟨_, _, _, hb⟩ | hreserves
      · exact hinv.batch hb
      · exact hreserves
    exact hreserves.mono (fun o _ => by rw [hu]) hpool
  · obtain ⟨-, hrows, -⟩ := hp.batch (h.move.requested_sub hnodup) _ _ _ _ hb
    refine (hinv.batch hb).mono (fun o ho => ?_) hpool
    obtain ⟨w, hw⟩ := hrows o ho
    rw [hkeeps.2.2 hnodup o w hw, hw]

theorem Move.held (h : Move u b b') (hinv : PooledInv b) :
    b'.pool.balance.raw ≤ b'.sweptTotal := by
  have hheld := hinv.held
  cases h with
  | @credit pk r proven delta fee block hrecord hdelta hfee =>
    have hrecords : (b.credit (u.depositAccount pk) r proven delta fee block).records =
        b.records.insert (u.depositAccount pk) _ := rfl
    obtain ⟨-, hswept, -⟩ := records_insert hrecord hrecords
    dsimp only at hswept
    exact hheld.trans (Nat.le_of_eq (Nat.add_right_cancel hswept).symm)
  | offer hoffered =>
    obtain ⟨_, _, _, -, -, rfl⟩ := hoffered
    exact hheld
  | settle hs hsettle => exact hsettle.held hs hinv
  | request | claim | replace | finalize => exact hheld

theorem Move.backed (h : Move u b b') (hp : PayloadInv b) (hnodup : (requested b.history).Nodup)
    (hinv : PooledInv b) : b'.pool.accruedFees.raw ≤ b'.pool.balance.raw := by
  cases h with
  | offer hoffered =>
    obtain ⟨_, _, _, -, -, rfl⟩ := hoffered
    exact hinv.backed
  | settle hs hsettle => exact hsettle.backed hs hp hnodup hinv
  | credit | request | claim | replace | finalize => exact hinv.backed

theorem Careful.pooledInv (h : Careful u b b') (hchain : ChainInv u b) (hp : PayloadInv b)
    (hnodup : (requested b'.history).Nodup) (hinv : PooledInv b) : PooledInv b' where
  fees hr := h.move.feesInv hinv.fees hr
  sweep hf := h.sweep_all hchain hp hinv hf
  batch hf := h.batch_reserves hchain hp hnodup hinv hf
  held := h.move.held hinv
  backed := h.move.backed hp (h.move.requested_sub hnodup) hinv

/-- What a run under the condition keeps. -/
structure PooledRun (u : Usdt) (b : Books) : Prop where
  chain : ChainInv u b
  payload : PayloadInv b
  pooled : (requested b.history).Nodup → PooledInv b

theorem Careful.pooledRun (h : Careful u b b') (hinv : PooledRun u b) : PooledRun u b' where
  chain := h.move.chainInv hinv.chain
  payload := h.move.payloadInv hinv.chain hinv.payload
  pooled hnodup := h.pooledInv hinv.chain hinv.payload hnodup
    (hinv.pooled (h.move.requested_sub hnodup))

theorem Accepts.pooledRun {item : Item} {answer : Answer} (h : Accepts u db item answer db')
    (hpooled : u.keepsFeesPooled db item = true) (hinv : PooledRun u (u.books db)) :
    PooledRun u (u.books db') := by
  have hmoves := h.careful hinv.chain hpooled
  generalize u.books db' = b' at hmoves
  induction hmoves with
  | refl => exact hinv
  | tail _ hmove ih => exact hmove.pooledRun ih

/-- **Fees stay within the pool's balance** in every run in which no deposit is credited while its
account is being swept and every batch is triggered with its amounts and fees in the pool. -/
theorem accruedFees_le_balance {tr : List (Item × Answer)}
    (run : Run (Steps (guarded u.keepsFeesPooled u.step)) Db.empty tr db)
    (hdistinct : (acceptedOutPoints tr).Nodup) :
    (u.pool db).accruedFees.raw ≤ (u.pool db).balance.raw := by
  have hinv : PooledRun u (u.books db) := by
    refine run.invariant (P := fun db => PooledRun u (u.books db))
      ⟨chainInv_empty u, payloadInv_empty u, fun _ => pooledInv_empty u⟩ ?_
    intro db item answer db' hinv hstep
    obtain ⟨hpooled, h⟩ := steps_guarded.1 hstep
    exact Accepts.pooledRun h hpooled hinv
  rw [← (run_history run.of_guarded).2.1] at hdistinct
  exact (hinv.pooled hdistinct).backed

theorem accruedFees_le_balance_sample :
    ∃ tr db, Run (Steps (guarded sampleUsdt.keepsFeesPooled sampleUsdt.step)) Db.empty tr db ∧
      (sampleUsdt.pool db).accruedFees.raw = 20000 ∧
      (sampleUsdt.pool db).accruedFees.raw ≤ (sampleUsdt.pool db).balance.raw := by
  obtain ⟨tr, db, run, hdb⟩ := Run.exists_of_exec
    (guarded sampleUsdt.keepsFeesPooled sampleUsdt.step) Db.empty
    (Sample.funding ++ Sample.payout)
    (fun tr db => decide (acceptedOutPoints tr).Nodup &&
      decide ((sampleUsdt.pool db).accruedFees.raw = 20000))
    (by decide +kernel)
  simp only [Bool.and_eq_true, decide_eq_true_eq] at hdb
  exact ⟨tr, db, run, hdb.2, accruedFees_le_balance run hdb.1⟩

/-- A sweep of the first deposit realizes the fees of both: the pool then holds less than the fees
it is said to hold. -/
theorem accruedFees_exceed_balance :
    ∃ tr db, Run (Accepts sampleUsdt) Db.empty tr db ∧
      (sampleUsdt.pool db).balance.raw = 11000 ∧ (sampleUsdt.pool db).accruedFees.raw = 20000 := by
  obtain ⟨tr, db, run, hdb⟩ := Run.exists_of_exec sampleUsdt.step Db.empty
    Sample.lateDeposit
    (fun _ db => decide ((sampleUsdt.pool db).balance.raw = 11000 ∧
      (sampleUsdt.pool db).accruedFees.raw = 20000))
    (by decide +kernel)
  exact ⟨tr, db, run, of_decide_eq_true hdb⟩

end Experimint.FedimintUsdt
