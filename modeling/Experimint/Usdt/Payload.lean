import Experimint.Usdt.Effect

/-!
# What an operation in flight is worth

An operation carries the amounts it was built with for as long as it is in flight, while the books
move on around it.  `Move.row_cases` says that every row of the new books is either offered by the
move or continues an old row whose lane the move has left alone; from it follow the bounds that
make settlement exact.

* `SweepInv`: a sweep moves no more than its account has credited and not yet swept.
* `FeeInv`: a fee payout is covered by accrued fees and by the pool.
* `BatchInv`: a batch pays the open withdrawals it names, and the pool covers it.
-/

set_option autoImplicit false

namespace Experimint.FedimintUsdt

open Books

variable {u : Usdt} {b b' : Books}

/-! ## Open withdrawals -/

/-- Every open withdrawal was queued with its amount and fee. -/
def OpenInv (b : Books) : Prop :=
  ∀ o w, b.unclaimed.get? o = some w → .withdrawalQueued o w.amount w.maxFee ∈ b.history

theorem mem_requested {o : OutPoint} {amount maxFee : UsdtAmount} {history : List Event}
    (h : .withdrawalQueued o amount maxFee ∈ history) : o ∈ requested history :=
  List.mem_filterMap.2 ⟨_, h, rfl⟩

theorem OpenInv.sub (hinv : OpenInv b)
    (hsub : ∀ o w, b'.unclaimed.get? o = some w → b.unclaimed.get? o = some w)
    (hhist : ∀ e ∈ b.history, e ∈ b'.history) : OpenInv b' :=
  fun o w ho => hhist _ (hinv o w (hsub o w ho))

theorem Settle.open {s : SubmittedUserOp} {share : UsdtAmount} {success : Bool}
    (h : Settle b s share success b') :
    (∀ o w, b'.unclaimed.get? o = some w → b.unclaimed.get? o = some w) ∧
      ∀ e ∈ b.history, e ∈ b'.history := by
  cases h with
  | paid hpurpose _ =>
    refine ⟨?_, fun e he => List.mem_cons_of_mem _ he⟩
    intro o w ho
    rw [Table.get?_eraseAll] at ho
    split_ifs at ho
    exact ho
  | isolated hpurpose _ _ =>
    exact ⟨fun o w ho => (Table.get?_of_erase ho).2,
      fun e he => List.mem_cons_of_mem _ (List.mem_cons_of_mem _ he)⟩
  | swept | spent | requeued | abandoned | feesPaid | feesReverted =>
    exact ⟨fun o w ho => ho, fun e he => List.mem_cons_of_mem _ he⟩

theorem Move.openInv (h : Move u b b') (hinv : OpenInv b) : OpenInv b' := by
  cases h with
  | @request o w =>
    intro o' w' ho
    rw [Table.get?_insert] at ho
    split_ifs at ho with he
    · cases ho; subst he; exact List.mem_cons_self
    · exact List.mem_cons_of_mem _ (hinv o' w' ho)
  | offer hoffered =>
    obtain ⟨op, p, block, -, -, rfl⟩ := hoffered
    exact hinv.sub (fun _ _ ho => ho) fun e he => List.mem_cons_of_mem _ he
  | settle hs hsettle => exact hinv.sub hsettle.open.1 hsettle.open.2
  | credit | claim | replace | finalize =>
    exact hinv.sub (fun _ _ ho => ho) fun e he => List.mem_cons_of_mem _ he

/-! ## Rows and their lanes -/

/-- What is left alone of a lane whose operations stay in flight. -/
def Keeps (b b' : Books) : Lane → Prop
  | .deposit a => ∀ r, b.records.get? a = some r → ∃ r', b'.records.get? a = some r' ∧
      r'.swept = r.swept ∧ r.credited.raw ≤ r'.credited.raw
  | .pool => b.pool.balance.raw ≤ b'.pool.balance.raw ∧
      b.pool.accruedFees.raw ≤ b'.pool.accruedFees.raw ∧
      ((requested b'.history).Nodup → ∀ o w, b.unclaimed.get? o = some w →
        b'.unclaimed.get? o = some w)

theorem Keeps.of_same (hr : b'.records = b.records) (hp : b'.pool = b.pool)
    (hu : b'.unclaimed = b.unclaimed) (l : Lane) : Keeps b b' l := by
  cases l with
  | pool => exact ⟨by rw [hp], by rw [hp], fun _ o w ho => by rw [hu]; exact ho⟩
  | deposit a => exact fun r hr' => ⟨r, by rw [hr]; exact hr', rfl, Nat.le_refl _⟩

theorem Keeps.of_record {a : EvmAddress} {l : Lane} (hl : l ≠ .deposit a)
    {r : DepositRecord} (hr : b'.records = b.records.insert a r)
    (hb : b.pool.balance.raw ≤ b'.pool.balance.raw)
    (hf : b.pool.accruedFees.raw ≤ b'.pool.accruedFees.raw) (hu : b'.unclaimed = b.unclaimed) :
    Keeps b b' l := by
  cases l with
  | pool => exact ⟨hb, hf, fun _ o w ho => by rw [hu]; exact ho⟩
  | deposit a' =>
    have hne : a ≠ a' := fun he => hl (he ▸ rfl)
    exact fun r' hr' => ⟨r', by rw [hr, Table.get?_insert_ne _ _ hne]; exact hr', rfl,
      Nat.le_refl _⟩

/-- A settlement leaves the other lanes alone. -/
theorem Settle.keeps {s : SubmittedUserOp} {share : UsdtAmount} {success : Bool}
    (h : Settle b s share success b') {l : Lane} (hl : l ≠ s.purpose.lane) : Keeps b b' l := by
  cases h with
  | swept hpurpose _ _ =>
    rw [hpurpose] at hl
    exact .of_record hl rfl (U64.le_raw_satAdd _ _) (U64.le_raw_satAdd _ _) rfl
  | spent hlane _ _ =>
    rw [hlane] at hl
    exact .of_record hl rfl (Nat.le_refl _) (Nat.le_refl _) rfl
  | paid hpurpose | requeued hpurpose | isolated hpurpose | abandoned hpurpose
  | feesPaid hpurpose | feesReverted hpurpose =>
    rw [hpurpose] at hl
    cases l with
    | pool => exact absurd rfl hl
    | deposit a => exact fun r hr => ⟨r, hr, rfl, Nat.le_refl _⟩

/-- **A row is new, or continues an old one in a lane the move leaves alone.** -/
theorem Move.row_cases (h : Move u b b') (hinv : ChainInv u b) (hopen : OpenInv b) {k : Slot}
    {op : UnsignedUserOp} {p : UserOpPurpose} {live : Bool} (hf : b'.InFlight k op p live) :
    (Offer u b op p ∧ b'.records = b.records ∧ b'.pool = b.pool ∧ b'.unclaimed = b.unclaimed) ∨
      ∃ k₀ op₀ live₀, b.InFlight k₀ op₀ p live₀ ∧ op.chain = op₀.chain ∧ Keeps b b' p.lane := by
  cases h with
  | @credit pk r proven delta fee block hrecord hdelta hfee =>
    refine .inr ⟨k, op, live, hf.congr rfl rfl, rfl, ?_⟩
    by_cases hl : p.lane = .deposit (u.depositAccount pk)
    · rw [hl]
      intro r₀ hr₀
      rw [hr₀, Option.getD_some] at hrecord
      subst hrecord
      exact ⟨_, Table.get?_insert_self _ _ _, rfl, by simp only; omega⟩
    · exact .of_record hl rfl (Nat.le_refl _) (Nat.le_refl _) rfl
  | @request o w =>
    refine .inr ⟨k, op, live, hf.congr rfl rfl, rfl, ?_⟩
    cases p.lane with
    | deposit a => exact fun r hr => ⟨r, hr, rfl, Nat.le_refl _⟩
    | pool =>
      refine ⟨Nat.le_refl _, Nat.le_refl _, ?_⟩
      intro hnodup o' w' ho
      -- the new out point has not been queued before, so it is not an open one
      have hfresh : o ∉ requested b.history := (List.nodup_cons.1 hnodup).1
      have hne : o ≠ o' := fun he => hfresh (he ▸ mem_requested (hopen o' w' ho))
      rw [Table.get?_insert_ne _ _ hne]
      exact ho
  | claim _ => exact .inr ⟨k, op, live, hf.congr rfl rfl, rfl, .of_same rfl rfl rfl _⟩
  | offer hoffered =>
    obtain ⟨op', p', block, ho, -, rfl⟩ := hoffered
    rcases hf.of_offer with ⟨-, rfl, rfl, -⟩ | ⟨-, hb⟩
    · exact .inl ⟨ho, rfl, rfl, rfl⟩
    · exact .inr ⟨k, op, live, hb, rfl, .of_same rfl rfl rfl _⟩
  | replace hs hlive hchain _ =>
    rcases hf.of_replace with ⟨-, rfl, rfl⟩ | ⟨-, rfl, rfl, -⟩ | ⟨-, hb⟩
    · exact .inr ⟨_, _, _, .submitted hs, hchain, .of_same rfl rfl rfl _⟩
    · exact .inr ⟨_, _, _, .submitted hs, rfl, .of_same rfl rfl rfl _⟩
    · exact .inr ⟨k, op, live, hb, rfl, .of_same rfl rfl rfl _⟩
  | finalize hp =>
    rcases hf.of_finalize with ⟨-, rfl, rfl⟩ | ⟨-, -, hb⟩
    · exact .inr ⟨_, _, _, .pending hp, rfl, .of_same rfl rfl rfl _⟩
    · exact .inr ⟨k, op, live, hb, rfl, .of_same rfl rfl rfl _⟩
  | settle hs hsettle =>
    have hframe := hsettle.frame
    have hlane := hinv.idle_finish hs hframe.pending hframe.submitted _ _ _ _ hf
    exact .inr ⟨k, op, live, hf.of_finish.1.congr hframe.pending hframe.submitted, rfl,
      hsettle.keeps hlane⟩

/-! ## Bounds -/

/-- A sweep in flight moves no more than what is credited and not swept. -/
def SweepInv (b : Books) : Prop :=
  ∀ {k op a live}, b.InFlight k op (.deployAndSweep a) live →
    ∃ r m, b.records.get? a = some r ∧ decodeTransferAmount op = .ok m ∧
      r.swept.raw + m.raw ≤ r.credited.raw

/-- A fee payout in flight is covered by the accrued fees and by the pool. -/
def FeeInv (b : Books) : Prop :=
  ∀ {k op recipient a live}, b.InFlight k op (.withdrawFees recipient a) live →
    (∀ t, decodeBatchTransferTotal op = .ok t → t = a) ∧
      a.raw ≤ b.pool.accruedFees.raw ∧ a.raw ≤ b.pool.balance.raw

/-- A batch in flight pays the open withdrawals it names, and the pool covers it. -/
def BatchInv (b : Books) : Prop :=
  (requested b.history).Nodup →
    ∀ k op outpoints live, b.InFlight k op (.withdraw outpoints) live →
      outpoints.Nodup ∧ (∀ o ∈ outpoints, ∃ w, b.unclaimed.get? o = some w) ∧
        ∀ t, decodeBatchTransferTotal op = .ok t →
          t.raw = b.amountsAt outpoints ∧ t.raw ≤ b.pool.balance.raw

theorem decodeTransferAmount_congr {op op' : UnsignedUserOp} (h : op.chain = op'.chain) :
    decodeTransferAmount op = decodeTransferAmount op' := by
  have hcall : op.callData = op'.callData := congrArg (·.callData) h
  rw [decodeTransferAmount, decodeTransferAmount, hcall]

theorem decodeBatchTransferTotal_congr {op op' : UnsignedUserOp} (h : op.chain = op'.chain) :
    decodeBatchTransferTotal op = decodeBatchTransferTotal op' := by
  have hcall : op.callData = op'.callData := congrArg (·.callData) h
  rw [decodeBatchTransferTotal, decodeBatchTransferTotal, hcall]

theorem Move.sweepInv (h : Move u b b') (hinv : ChainInv u b) (hopen : OpenInv b)
    (hsweep : SweepInv b) : SweepInv b' := by
  intro k op a live hf
  rcases h.row_cases hinv hopen hf with ⟨ho, hr, -, -⟩ | ⟨_, op₀, _, hb, hc, hkeeps⟩
  · cases ho with
    | @sweep _ r m g hrecord hamount hpos _ =>
      exact ⟨r, m, by rw [hr]; exact hrecord, decodeTransferAmount_sweep u a r.claimPk m r.nonce g,
        by omega⟩
  · obtain ⟨r, m, hr, hm, hle⟩ := hsweep hb
    obtain ⟨r', hr', hswept, hcredited⟩ := hkeeps r hr
    exact ⟨r', m, hr', (decodeTransferAmount_congr hc).trans hm, by rw [hswept]; omega⟩

theorem Move.feeInv (h : Move u b b') (hinv : ChainInv u b) (hopen : OpenInv b)
    (hfee : FeeInv b) : FeeInv b' := by
  intro k op recipient a live hf
  rcases h.row_cases hinv hopen hf with ⟨ho, -, hp, -⟩ | ⟨_, op₀, _, hb, hc, hkeeps⟩
  · cases ho with
    | fees _ haccrued hfunded =>
      refine ⟨fun t ht => U64.ext ?_, by rw [hp]; exact haccrued, by rw [hp]; exact hfunded⟩
      simpa using decodeBatchTransferTotal_batch ht
  · obtain ⟨ht, haccrued, hfunded⟩ := hfee hb
    obtain ⟨hbalance, haccrued', -⟩ := hkeeps
    exact ⟨fun t hdec => ht t ((decodeBatchTransferTotal_congr hc).symm.trans hdec),
      haccrued.trans haccrued', hfunded.trans hbalance⟩

theorem Books.amountsAt_congr {outpoints : List OutPoint}
    (h : ∀ o ∈ outpoints, b'.unclaimed.get? o = b.unclaimed.get? o) :
    b'.amountsAt outpoints = b.amountsAt outpoints :=
  congrArg List.sum (List.map_congr_left fun o ho => by rw [h o ho])

theorem Offer.batch_total {ws : List (OutPoint × UsdtWithdrawalV0)}
    (hqueued : ∀ q ∈ ws, b.unclaimed.get? q.1 = some q.2) :
    (ws.map fun q => q.2.amount.raw).sum = b.amountsAt (ws.map (·.1)) := by
  unfold Books.amountsAt
  rw [List.map_map]
  refine congrArg List.sum (List.map_congr_left ?_)
  intro q hq
  simp [hqueued q hq]

/-- A total that settlement decodes is the one the funding check adds up with saturation. -/
theorem satSum_of_decoded {pool : EvmAddress} {ws : List (OutPoint × UsdtWithdrawalV0)}
    {nonce : Nat} {g : GasBounds} {t : UsdtAmount}
    (h : decodeBatchTransferTotal (u.buildWithdrawalBatchUserop pool
      (ws.map fun q => (q.2.recipient, q.2.amount)) nonce g) = .ok t) :
    U64.satSum (ws.map fun q => q.2.amount) = t := by
  have hsum : t.raw = ((ws.map fun q => q.2.amount).map U64.raw).sum := by
    rw [decodeBatchTransferTotal_batch h, List.map_map, List.map_map]
    rfl
  refine U64.ext ?_
  rw [U64.raw_satSum_of_le (hsum ▸ t.le_max), hsum]

theorem Move.requested_sub (h : Move u b b') :
    (requested b'.history).Nodup → (requested b.history).Nodup := by
  intro hnodup
  cases h with
  | request => exact (List.nodup_cons.1 hnodup).2
  | offer hoffered =>
    obtain ⟨op, p, block, -, -, rfl⟩ := hoffered
    exact hnodup
  | settle _ hsettle => cases hsettle <;> exact hnodup
  | credit | claim | replace | finalize => exact hnodup

theorem Move.batchInv (h : Move u b b') (hinv : ChainInv u b) (hopen : OpenInv b)
    (hbatch : BatchInv b) : BatchInv b' := by
  intro hnodup k op outpoints live hf
  rcases h.row_cases hinv hopen hf with ⟨ho, -, hp, hu⟩ | ⟨_, op₀, _, hb, hc, hkeeps⟩
  · cases ho with
    | @batch ws g _ hdistinct hqueued hfunded =>
      have hopen' : ∀ q ∈ ws, b.unclaimed.get? q.1 = some q.2 := fun q hq => (hqueued q hq).1
      refine ⟨hdistinct, ?_, ?_⟩
      · intro o ho
        obtain ⟨q, hq, rfl⟩ := List.mem_map.1 ho
        exact ⟨q.2, by rw [hu]; exact hopen' q hq⟩
      · intro t ht
        have hsum : t.raw = _ := decodeBatchTransferTotal_batch ht
        rw [List.map_map] at hsum
        have hsat := satSum_of_decoded ht
        rw [hp, Books.amountsAt_congr (b := b) fun o _ => by rw [hu]]
        exact ⟨hsum.trans (Offer.batch_total hopen'), hsat ▸ hfunded⟩
  · obtain ⟨hdistinct, hall, htotal⟩ := hbatch (h.requested_sub hnodup) _ _ _ _ hb
    obtain ⟨hbalance, -, hkeep⟩ := hkeeps
    have hsame : ∀ o ∈ outpoints, b'.unclaimed.get? o = b.unclaimed.get? o := by
      intro o ho
      obtain ⟨w, hw⟩ := hall o ho
      rw [hkeep hnodup o w hw, hw]
    refine ⟨hdistinct, ?_, ?_⟩
    · intro o ho
      obtain ⟨w, hw⟩ := hall o ho
      exact ⟨w, hkeep hnodup o w hw⟩
    · intro t ht
      rw [Books.amountsAt_congr hsame]
      obtain ⟨hsum, hle⟩ := htotal t ((decodeBatchTransferTotal_congr hc).symm.trans ht)
      exact ⟨hsum, hle.trans hbalance⟩

/-! ## The bounds of every reachable database -/

/-- What the books know about operations in flight. -/
structure PayloadInv (b : Books) : Prop where
  opened : OpenInv b
  sweep : SweepInv b
  fee : FeeInv b
  batch : BatchInv b

theorem payloadInv_empty (u : Usdt) : PayloadInv (u.books Db.empty) where
  opened _ _ h := by cases h
  sweep hf := absurd hf not_inFlight_empty
  fee hf := absurd hf not_inFlight_empty
  batch _ _ _ _ _ hf := absurd hf not_inFlight_empty

theorem Move.payloadInv (h : Move u b b') (hinv : ChainInv u b) (hp : PayloadInv b) :
    PayloadInv b' where
  opened := h.openInv hp.opened
  sweep := h.sweepInv hinv hp.opened hp.sweep
  fee := h.feeInv hinv hp.opened hp.fee
  batch := h.batchInv hinv hp.opened hp.batch

theorem run_payloadInv {db : Db} {tr : List (Item × Answer)}
    (run : Run (Accepts u) Db.empty tr db) : PayloadInv (u.books db) :=
  run_books (payloadInv_empty u) (fun _ _ hinv hp hm => hm.payloadInv hinv hp) run

end Experimint.FedimintUsdt
