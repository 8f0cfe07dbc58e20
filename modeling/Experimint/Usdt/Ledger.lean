import Mathlib.Algebra.Order.Ring.Nat
import Experimint.Usdt.Withdrawals

/-!
# The balance sheet

What the deposits and the pool hold is what the module owes: open withdrawals, refunds, e-cash in
circulation and its own fees.  The argument needs that no amount is ever truncated, and that needs
the argument's own bound, so both are carried along a run together.

* `Balanced` is the identity over the books, with the bounds that make it self-sustaining.
* `Ledger` replays the history with unbounded integers; `Exact` says the books agree with it.
* `audit_eq`: the audit total is the net e-cash issued and the fees earned and offered.
-/

set_option autoImplicit false

namespace Experimint.FedimintUsdt

open Books

/-! ## Totals -/

namespace Books

variable (b : Books)

def creditedTotal : Nat := b.records.sum fun _ r => r.credited.raw

def sweptTotal : Nat := b.records.sum fun _ r => r.swept.raw

/-- Fees of deposits that are not swept yet. -/
def feesTotal : Nat := b.records.sum fun _ r => r.feesAccrued.raw

def openTotal : Nat := b.unclaimed.sum fun _ w => w.amount.raw

/-- Fees offered by open withdrawals. -/
def openFees : Nat := b.unclaimed.sum fun _ w => w.maxFee.raw

def refundTotal : Nat := b.refunds.sum fun _ f => f.amount.raw

/-- Fees of the open withdrawals at `outpoints`, without truncation. -/
def feesSumAt (outpoints : List OutPoint) : Nat :=
  (outpoints.map fun o => ((b.unclaimed.get? o).map (·.maxFee.raw)).getD 0).sum

end Books

variable {u : Usdt} {b b' : Books}

/-- Bound on what is credited in total, half the range of amounts: no sum of the books leaves it. -/
def LEDGER_BOUND : Nat := 9223372036854775808

/-- The balance sheet of the books. -/
structure Balanced (b : Books) : Prop where
  identity : (b.creditedTotal + b.pool.balance.raw : Int) =
    b.sweptTotal + b.openTotal + b.refundTotal + issued b.history + b.feesTotal +
      b.pool.accruedFees.raw + b.openFees
  backed : b.pool.balance.raw ≤ b.sweptTotal
  swept : ∀ a r, b.records.get? a = some r → r.swept.raw ≤ r.credited.raw
  claimed : ∀ a r, b.records.get? a = some r → r.claimed = r.credited

theorem Balanced.sweptTotal_le (h : Balanced b) : b.sweptTotal ≤ b.creditedTotal :=
  Table.sum_le_sum h.swept

/-- As long as e-cash is not negative, all liabilities and fees are below the deposits. -/
theorem Balanced.bound (h : Balanced b) (hs : Solvent b.history) :
    b.openTotal + b.refundTotal + b.feesTotal + b.pool.accruedFees.raw + b.openFees ≤
      b.creditedTotal := by
  have := h.identity
  have := h.backed
  have := hs.issued_nonneg
  omega

theorem le_creditedTotal {a : EvmAddress} {r : DepositRecord} (h : b.records.get? a = some r) :
    r.credited.raw ≤ b.creditedTotal :=
  Table.le_sum (fun _ r => r.credited.raw) h

/-- What the ledger's lemmas assume of the books a move starts from. -/
structure Sound (b : Books) : Prop where
  solvent : Solvent b.history
  distinct : (requested b.history).Nodup
  credited : b.creditedTotal < LEDGER_BOUND

/-! ## No operation truncates -/

theorem record_of_getD {pk : PublicKey} {a : EvmAddress} {r : DepositRecord}
    (h : (b.records.get? a).getD (Usdt.freshRecord pk) = r) (hb : Balanced b) :
    r.swept.raw ≤ r.credited.raw ∧ r.claimed = r.credited ∧ r.feesAccrued.raw ≤ b.feesTotal := by
  cases hr : b.records.get? a with
  | none =>
    rw [hr, Option.getD_none] at h
    subst h
    exact ⟨Nat.le_refl _, rfl, Nat.zero_le _⟩
  | some r' =>
    rw [hr, Option.getD_some] at h
    subst h
    exact ⟨hb.swept a _ hr, hb.claimed a _ hr, Table.le_sum (fun _ r => r.feesAccrued.raw) hr⟩

theorem credit_exact {pk : PublicKey} {r : DepositRecord} {proven delta fee : UsdtAmount}
    (hb : Balanced b) (hsound : Sound b)
    (hr : (b.records.get? (u.depositAccount pk)).getD (Usdt.freshRecord pk) = r)
    (hdelta : proven.raw = r.credited.raw + delta.raw) (hfee : fee.raw < delta.raw)
    (hlt : proven.raw < LEDGER_BOUND) :
    U64.satAdd r.claimed delta = proven ∧
      (U64.satAdd r.feesAccrued fee).raw = r.feesAccrued.raw + fee.raw := by
  obtain ⟨-, hclaimed, hfees⟩ := record_of_getD hr hb
  have hbound := hb.bound hsound.solvent
  have hcredited := hsound.credited
  have hmax := proven.le_max
  unfold LEDGER_BOUND at hlt hcredited
  refine ⟨U64.ext ?_, U64.raw_satAdd_of_le ?_⟩
  · rw [U64.raw_satAdd_of_le, hclaimed, hdelta]
    rw [hclaimed]
    omega
  · unfold U64_MAX
    omega

theorem swept_exact {a : EvmAddress} {r : DepositRecord} {m : UsdtAmount} (hb : Balanced b)
    (hsound : Sound b) (hr : b.records.get? a = some r)
    (hm : r.swept.raw + m.raw ≤ r.credited.raw) :
    (U64.least (U64.satAdd r.swept m) r.credited).raw = r.swept.raw + m.raw ∧
      (U64.satAdd b.pool.balance m).raw = b.pool.balance.raw + m.raw ∧
      (U64.satAdd b.pool.accruedFees r.feesAccrued).raw =
        b.pool.accruedFees.raw + r.feesAccrued.raw := by
  have hbound := hb.bound hsound.solvent
  have hcredited := hsound.credited
  have hswept := hb.sweptTotal_le
  have hbacked := hb.backed
  have hfees : r.feesAccrued.raw ≤ b.feesTotal :=
    Table.le_sum (fun _ r => r.feesAccrued.raw) hr
  have hmax := r.credited.le_max
  have hle := le_creditedTotal hr
  unfold LEDGER_BOUND at hcredited
  refine ⟨?_, U64.raw_satAdd_of_le ?_, U64.raw_satAdd_of_le ?_⟩
  · rw [U64.raw_least, U64.raw_satAdd_of_le (by omega)]
    exact Nat.min_eq_left hm
  · unfold U64_MAX
    omega
  · unfold U64_MAX
    omega

theorem feesAt_sum (outpoints : List OutPoint) :
    ((outpoints.filterMap fun o => (b.unclaimed.get? o).map (·.maxFee)).map U64.raw).sum =
      b.feesSumAt outpoints := by
  induction outpoints with
  | nil => rfl
  | cons o rest ih =>
    rw [feesSumAt, List.map_cons, List.sum_cons, ← feesSumAt, ← ih, List.filterMap_cons]
    cases b.unclaimed.get? o with
    | none => exact (Nat.zero_add _).symm
    | some w => rfl

/-- The open amounts and fees split at the withdrawals of a batch. -/
theorem open_split {outpoints : List OutPoint} (hnodup : outpoints.Nodup) :
    (b.unclaimed.eraseAll outpoints).sum (fun _ w => w.amount.raw) + b.amountsAt outpoints =
        b.openTotal ∧
      (b.unclaimed.eraseAll outpoints).sum (fun _ w => w.maxFee.raw) + b.feesSumAt outpoints =
        b.openFees :=
  ⟨Table.sum_eraseAll_add _ _ hnodup, Table.sum_eraseAll_add _ _ hnodup⟩

theorem paid_exact {outpoints : List OutPoint} (hb : Balanced b) (hsound : Sound b)
    (hnodup : outpoints.Nodup) :
    (b.feesAt outpoints).raw = b.feesSumAt outpoints ∧
      (U64.satAdd b.pool.accruedFees (b.feesAt outpoints)).raw =
        b.pool.accruedFees.raw + b.feesSumAt outpoints := by
  have hbound := hb.bound hsound.solvent
  have hcredited := hsound.credited
  have hsplit := (open_split (b := b) hnodup).2
  unfold LEDGER_BOUND at hcredited
  have hfees : (b.feesAt outpoints).raw = b.feesSumAt outpoints := by
    rw [feesAt, U64.raw_satSum_of_le, feesAt_sum]
    rw [feesAt_sum]
    unfold U64_MAX
    omega
  refine ⟨hfees, ?_⟩
  rw [U64.raw_satAdd_of_le, hfees]
  rw [hfees]
  unfold U64_MAX
  omega

theorem isolated_exact {o : OutPoint} {w : UsdtWithdrawalV0} {x charge : UsdtAmount}
    (hb : Balanced b) (hsound : Sound b) (hopen : b.unclaimed.get? o = some w)
    (hcharge : charge = U64.least x (U64.satAdd w.amount w.maxFee)) :
    (U64.satSub (U64.satAdd w.amount w.maxFee) charge).raw + charge.raw =
        w.amount.raw + w.maxFee.raw ∧
      (U64.satAdd b.pool.accruedFees charge).raw = b.pool.accruedFees.raw + charge.raw := by
  have hbound := hb.bound hsound.solvent
  have hcredited := hsound.credited
  have hamount : w.amount.raw ≤ b.openTotal := Table.le_sum (fun _ w => w.amount.raw) hopen
  have hfee : w.maxFee.raw ≤ b.openFees := Table.le_sum (fun _ w => w.maxFee.raw) hopen
  unfold LEDGER_BOUND at hcredited
  have hgross : (U64.satAdd w.amount w.maxFee).raw = w.amount.raw + w.maxFee.raw :=
    U64.raw_satAdd_of_le (by unfold U64_MAX; omega)
  have hle : charge.raw ≤ w.amount.raw + w.maxFee.raw := by
    rw [hcharge, U64.raw_least, hgross]
    exact Nat.min_le_right _ _
  refine ⟨?_, U64.raw_satAdd_of_le (by unfold U64_MAX; omega)⟩
  rw [U64.raw_satSub, hgross]
  omega

/-! ## Double entry -/

/-- What a move adds to each total. -/
structure Posting where
  credited : Int := 0
  swept : Int := 0
  fees : Int := 0
  opened : Int := 0
  openFees : Int := 0
  refunds : Int := 0
  balance : Int := 0
  accrued : Int := 0
  issued : Int := 0

/-- Both sides of the sheet grow by the same amount. -/
def Posting.Even (p : Posting) : Prop :=
  p.credited + p.balance =
    p.swept + p.opened + p.refunds + p.issued + p.fees + p.accrued + p.openFees

/-- The totals of `b'` are those of `b` and the posting. -/
structure Posts (b b' : Books) (p : Posting) : Prop where
  credited : (b'.creditedTotal : Int) = b.creditedTotal + p.credited := by
    exact (Int.add_zero _).symm
  swept : (b'.sweptTotal : Int) = b.sweptTotal + p.swept := by exact (Int.add_zero _).symm
  fees : (b'.feesTotal : Int) = b.feesTotal + p.fees := by exact (Int.add_zero _).symm
  opened : (b'.openTotal : Int) = b.openTotal + p.opened := by exact (Int.add_zero _).symm
  openFees : (b'.openFees : Int) = b.openFees + p.openFees := by exact (Int.add_zero _).symm
  refunds : (b'.refundTotal : Int) = b.refundTotal + p.refunds := by exact (Int.add_zero _).symm
  balance : (b'.pool.balance.raw : Int) = b.pool.balance.raw + p.balance := by
    exact (Int.add_zero _).symm
  accrued : (b'.pool.accruedFees.raw : Int) = b.pool.accruedFees.raw + p.accrued := by
    exact (Int.add_zero _).symm
  issued : FedimintUsdt.issued b'.history = FedimintUsdt.issued b.history + p.issued

/-- What the records promise each for itself. -/
def Kept (r : DepositRecord) : Prop := r.swept.raw ≤ r.credited.raw ∧ r.claimed = r.credited

theorem Balanced.post {p : Posting} (h : Balanced b) (hp : Posts b b' p) (heven : p.Even)
    (hbacked : p.balance ≤ p.swept)
    (hkept : ∀ a r, b'.records.get? a = some r → Kept r) : Balanced b' where
  identity := by
    obtain ⟨h1, h2, h3, h4, h5, h6, h7, h8, h9⟩ := hp
    have hid := h.identity
    unfold Posting.Even at heven
    omega
  backed := by
    have hb := h.backed
    have h1 := hp.balance
    have h2 := hp.swept
    omega
  swept a r hr := (hkept a r hr).1
  claimed a r hr := (hkept a r hr).2

theorem Balanced.kept (h : Balanced b) : ∀ a r, b.records.get? a = some r → Kept r :=
  fun a r hr => ⟨h.swept a r hr, h.claimed a r hr⟩

/-- One record is replaced by another that keeps its promise. -/
theorem Balanced.kept_insert (h : Balanced b) {a : EvmAddress} {r' : DepositRecord}
    (hr' : Kept r') : ∀ a' r, (b.records.insert a r').get? a' = some r → Kept r := by
  intro a' r hr
  rw [Table.get?_insert] at hr
  split_ifs at hr with ha
  · exact Option.some.inj hr ▸ hr'
  · exact h.kept a' r hr

/-- The totals over the deposits after one record changes. -/
theorem records_insert {pk : PublicKey} {a : EvmAddress} {r r' : DepositRecord}
    (h : (b.records.get? a).getD (Usdt.freshRecord pk) = r)
    (hb' : b'.records = b.records.insert a r') :
    b'.creditedTotal + r.credited.raw = b.creditedTotal + r'.credited.raw ∧
      b'.sweptTotal + r.swept.raw = b.sweptTotal + r'.swept.raw ∧
      b'.feesTotal + r.feesAccrued.raw = b.feesTotal + r'.feesAccrued.raw := by
  subst h
  simp only [creditedTotal, sweptTotal, feesTotal, hb']
  refine ⟨?_, ?_, ?_⟩
  · exact b.records.sum_insert_getD (fun _ r => r.credited.raw) a r' rfl
  · exact b.records.sum_insert_getD (fun _ r => r.swept.raw) a r' rfl
  · exact b.records.sum_insert_getD (fun _ r => r.feesAccrued.raw) a r' rfl

theorem getD_of_record {a : EvmAddress} {r : DepositRecord} (h : b.records.get? a = some r) :
    (b.records.get? a).getD (Usdt.freshRecord r.claimPk) = r := by
  rw [h, Option.getD_some]

theorem Balanced.credit {pk : PublicKey} {r : DepositRecord} {proven delta fee : UsdtAmount}
    {block : Nat} (hb : Balanced b) (hsound : Sound b)
    (hr : (b.records.get? (u.depositAccount pk)).getD (Usdt.freshRecord pk) = r)
    (hdelta : proven.raw = r.credited.raw + delta.raw) (hfee : fee.raw < delta.raw)
    (hlt : proven.raw < LEDGER_BOUND) :
    Balanced (b.credit (u.depositAccount pk) r proven delta fee block) := by
  obtain ⟨hclaimed, hfees⟩ := credit_exact hb hsound hr hdelta hfee hlt
  obtain ⟨hle, -, -⟩ := record_of_getD hr hb
  have hrecords : (b.credit (u.depositAccount pk) r proven delta fee block).records =
      b.records.insert (u.depositAccount pk) _ := rfl
  obtain ⟨hc, hs, hf⟩ := records_insert hr hrecords
  dsimp only at hc hs hf
  refine hb.post (p := { credited := delta.raw, fees := fee.raw, issued := delta.raw - fee.raw })
    { credited := ?_, swept := ?_, fees := ?_, issued := ?_ } ?_ (le_refl 0)
    (hb.kept_insert ⟨?_, hclaimed⟩)
  · show (_ : Int) = _ + (delta.raw : Int)
    omega
  · show (_ : Int) = _ + 0
    omega
  · show (_ : Int) = _ + (fee.raw : Int)
    omega
  · exact (issued_cons _ _).trans (add_comm _ _)
  · simp only [Posting.Even]
    omega
  · dsimp only
    omega

/-- A move that only spends a nonce or an event. -/
theorem Balanced.still (hb : Balanced b) (hr : b'.records = b.records)
    (hu : b'.unclaimed = b.unclaimed) (hf : b'.refunds = b.refunds)
    (hbalance : b'.pool.balance = b.pool.balance)
    (haccrued : b'.pool.accruedFees = b.pool.accruedFees)
    (hi : issued b'.history = issued b.history) : Balanced b' := by
  refine hb.post (p := {}) ?_ rfl (le_refl 0) (hr ▸ hb.kept)
  constructor <;>
    simp only [creditedTotal, sweptTotal, feesTotal, openTotal, openFees, refundTotal, hr, hu, hf,
      hbalance, haccrued, hi, Int.add_zero]

theorem Balanced.request {o : OutPoint} {w : UsdtWithdrawalV0} (hb : Balanced b)
    (hfresh : b.unclaimed.get? o = none) (hu : b'.unclaimed = b.unclaimed.insert o w)
    (hr : b'.records = b.records) (hf : b'.refunds = b.refunds) (hp : b'.pool = b.pool)
    (hi : issued b'.history = issued b.history + -(w.amount.raw + w.maxFee.raw)) :
    Balanced b' := by
  refine hb.post (p := {
    opened := w.amount.raw
    openFees := w.maxFee.raw
    issued := -(w.amount.raw + w.maxFee.raw) }) ?_ ?_ (le_refl 0) (hr ▸ hb.kept)
  · constructor <;>
      simp only [creditedTotal, sweptTotal, feesTotal, openTotal, openFees, refundTotal, hr, hu,
        hf, hp, hi, Table.sum_insert_new _ _ hfresh, Int.natCast_add, Int.add_zero]
  · simp only [Posting.Even]
    omega

theorem Balanced.claim {o : OutPoint} {f : Refund} (hb : Balanced b)
    (hrefund : b.refunds.get? o = some f) (hf : b'.refunds = b.refunds.erase o)
    (hr : b'.records = b.records) (hu : b'.unclaimed = b.unclaimed) (hp : b'.pool = b.pool)
    (hi : issued b'.history = issued b.history + f.amount.raw) : Balanced b' := by
  have herase := Table.sum_erase (fun _ f => f.amount.raw) hrefund
  refine hb.post (p := { refunds := -f.amount.raw, issued := f.amount.raw }) ?_ ?_ (le_refl 0)
    (hr ▸ hb.kept)
  · constructor <;>
      simp only [creditedTotal, sweptTotal, feesTotal, openTotal, openFees, refundTotal, hr, hu,
        hf, hp, hi, herase, Int.natCast_add, Int.add_zero, Int.add_neg_cancel_right]
  · simp only [Posting.Even]
    omega

/-- A sweep moves tokens into the pool and realizes the fees of its deposit. -/
theorem Balanced.sweep {a : EvmAddress} {r r' : DepositRecord} {m : UsdtAmount}
    (hb : Balanced b) (hrecord : b.records.get? a = some r)
    (hr : b'.records = b.records.insert a r') (hkept : Kept r') (hc : r'.credited = r.credited)
    (hs : r'.swept.raw = r.swept.raw + m.raw) (hf : r'.feesAccrued = U64.zero)
    (hbalance : b'.pool.balance.raw = b.pool.balance.raw + m.raw)
    (haccrued : b'.pool.accruedFees.raw = b.pool.accruedFees.raw + r.feesAccrued.raw)
    (hu : b'.unclaimed = b.unclaimed) (hrefunds : b'.refunds = b.refunds)
    (hi : issued b'.history = issued b.history) : Balanced b' := by
  obtain ⟨hcredited, hswept, hfees⟩ := records_insert (getD_of_record hrecord) hr
  rw [hc] at hcredited
  rw [hs] at hswept
  rw [hf, U64.raw_zero] at hfees
  refine hb.post (p := {
    swept := m.raw
    fees := -r.feesAccrued.raw
    balance := m.raw
    accrued := r.feesAccrued.raw }) ?_ ?_ (le_refl _) (hr ▸ hb.kept_insert hkept)
  · constructor <;> simp only [openTotal, openFees, refundTotal, hu, hrefunds, hi, Int.add_zero] <;>
      omega
  · simp only [Posting.Even]
    omega

/-- A nonce is spent. -/
theorem Balanced.spend {a : EvmAddress} {r : DepositRecord} {n : Nat} (hb : Balanced b)
    (hrecord : b.records.get? a = some r)
    (hr : b'.records = b.records.insert a { r with nonce := n }) (hp : b'.pool = b.pool)
    (hu : b'.unclaimed = b.unclaimed) (hf : b'.refunds = b.refunds)
    (hi : issued b'.history = issued b.history) : Balanced b' := by
  obtain ⟨hcredited, hswept, hfees⟩ := records_insert (getD_of_record hrecord) hr
  dsimp only at hcredited hswept hfees
  refine hb.post (p := {}) ?_ rfl (le_refl 0) (hr ▸ hb.kept_insert (hb.kept a r hrecord))
  constructor <;> simp only [openTotal, openFees, refundTotal, hp, hu, hf, hi, Int.add_zero] <;>
    omega

/-- A batch pays open withdrawals out of the pool and keeps their fees. -/
theorem Balanced.pay {outpoints : List OutPoint} (hb : Balanced b) (hnodup : outpoints.Nodup)
    (hu : b'.unclaimed = b.unclaimed.eraseAll outpoints)
    (hbalance : b'.pool.balance.raw + b.amountsAt outpoints = b.pool.balance.raw)
    (haccrued : b'.pool.accruedFees.raw = b.pool.accruedFees.raw + b.feesSumAt outpoints)
    (hr : b'.records = b.records) (hf : b'.refunds = b.refunds)
    (hi : issued b'.history = issued b.history) : Balanced b' := by
  obtain ⟨hopen, hfees⟩ := open_split (b := b) hnodup
  refine hb.post (p := {
    opened := -b.amountsAt outpoints
    openFees := -b.feesSumAt outpoints
    balance := -b.amountsAt outpoints
    accrued := b.feesSumAt outpoints }) ?_ ?_ ?_ (hr ▸ hb.kept)
  · rw [← hu] at hopen hfees
    constructor <;> simp only [creditedTotal, sweptTotal, feesTotal, refundTotal, hr, hf, hi,
      Int.add_zero] <;> unfold openTotal openFees at * <;> omega
  · simp only [Posting.Even]
    omega
  · dsimp only
    omega

/-- A withdrawal that failed for good becomes a refund net of what it is charged. -/
theorem Balanced.refund {o : OutPoint} {w : UsdtWithdrawalV0} {f : Refund} {charge : UsdtAmount}
    (hb : Balanced b) (hopen : b.unclaimed.get? o = some w) (hnone : b.refunds.get? o = none)
    (hu : b'.unclaimed = b.unclaimed.erase o) (hf : b'.refunds = b.refunds.insert o f)
    (hnet : f.amount.raw + charge.raw = w.amount.raw + w.maxFee.raw)
    (hbalance : b'.pool.balance = b.pool.balance)
    (haccrued : b'.pool.accruedFees.raw = b.pool.accruedFees.raw + charge.raw)
    (hr : b'.records = b.records) (hi : issued b'.history = issued b.history) : Balanced b' := by
  have hamount := Table.sum_erase (fun _ w => w.amount.raw) hopen
  have hfee := Table.sum_erase (fun _ w => w.maxFee.raw) hopen
  have hrefund := Table.sum_insert_new (fun _ f => f.amount.raw) f hnone
  refine hb.post (p := {
    opened := -w.amount.raw
    openFees := -w.maxFee.raw
    refunds := f.amount.raw
    accrued := charge.raw }) ?_ ?_ (le_refl 0) (hr ▸ hb.kept)
  · constructor <;> simp only [creditedTotal, sweptTotal, feesTotal, openTotal, openFees,
      refundTotal, hr, hu, hf, hbalance, hi, Int.add_zero] <;> omega
  · simp only [Posting.Even]
    omega

/-- A fee payout takes accrued fees out of the pool. -/
theorem Balanced.payFees {t : UsdtAmount} (hb : Balanced b)
    (hbalance : b'.pool.balance.raw + t.raw = b.pool.balance.raw)
    (haccrued : b'.pool.accruedFees.raw + t.raw = b.pool.accruedFees.raw)
    (hr : b'.records = b.records) (hu : b'.unclaimed = b.unclaimed) (hf : b'.refunds = b.refunds)
    (hi : issued b'.history = issued b.history) : Balanced b' := by
  refine hb.post (p := { balance := -t.raw, accrued := -t.raw }) ?_ ?_ ?_ (hr ▸ hb.kept)
  · constructor <;> simp only [creditedTotal, sweptTotal, feesTotal, openTotal, openFees,
      refundTotal, hr, hu, hf, hi, Int.add_zero] <;> omega
  · simp only [Posting.Even]
    omega
  · dsimp only
    omega

/-! ## The same history with unbounded integers -/

structure ExactRecord where
  credited : Int
  claimed : Int
  swept : Int
  fees : Int

def ExactRecord.of (r : DepositRecord) : ExactRecord :=
  ⟨r.credited.raw, r.claimed.raw, r.swept.raw, r.feesAccrued.raw⟩

def ExactRecord.credit (x : ExactRecord) (delta fee : Int) : ExactRecord :=
  ⟨x.credited + delta, x.claimed + delta, x.swept, x.fees + fee⟩

def ExactRecord.sweep (x : ExactRecord) (m : Int) : ExactRecord :=
  ⟨x.credited, x.claimed, x.swept + m, 0⟩

structure Ledger where
  accounts : EvmAddress → ExactRecord
  balance : Int
  accrued : Int
  /-- Amount and fee a withdrawal was queued with. -/
  asked : OutPoint → Int × Int
  refunds : OutPoint → Int

def Ledger.empty : Ledger := ⟨fun _ => ⟨0, 0, 0, 0⟩, 0, 0, fun _ => (0, 0), fun _ => 0⟩

def Ledger.apply (L : Ledger) : Event → Ledger
  | .depositCredited a _ delta fee =>
    { L with accounts := Function.update L.accounts a ((L.accounts a).credit delta.raw fee.raw) }
  | .withdrawalQueued o amount maxFee =>
    { L with asked := Function.update L.asked o (amount.raw, maxFee.raw) }
  | .userOpConfirmed _ (.deployAndSweep a) true m =>
    { L with
      accounts := Function.update L.accounts a ((L.accounts a).sweep m.raw)
      balance := L.balance + m.raw
      accrued := L.accrued + (L.accounts a).fees }
  | .userOpConfirmed _ (.withdraw outpoints) true t =>
    { L with
      balance := L.balance - t.raw
      accrued := L.accrued + (outpoints.map fun o => (L.asked o).2).sum }
  | .userOpConfirmed _ (.withdrawFees _ _) true t =>
    { L with balance := L.balance - t.raw, accrued := L.accrued - t.raw }
  | .withdrawalFailed o _ charge =>
    { L with
      accrued := L.accrued + charge.raw
      refunds := Function.update L.refunds o ((L.asked o).1 + (L.asked o).2 - charge.raw) }
  | _ => L

/-- What a history amounts to without truncation. -/
def ledger : List Event → Ledger
  | [] => .empty
  | e :: rest => (ledger rest).apply e

/-- The books hold the exact amounts. -/
structure Exact (b : Books) (L : Ledger) : Prop where
  balance : L.balance = b.pool.balance.raw
  accrued : L.accrued = b.pool.accruedFees.raw
  accounts : ∀ a, L.accounts a = ((b.records.get? a).map ExactRecord.of).getD ⟨0, 0, 0, 0⟩
  asked : ∀ o w, b.unclaimed.get? o = some w → L.asked o = ((w.amount.raw : Int), (w.maxFee.raw : Int))
  refunds : ∀ o f, b.refunds.get? o = some f → L.refunds o = f.amount.raw

variable {L : Ledger}

theorem Ledger.apply_reverted (L : Ledger) (op : UnsignedUserOp) (p : UserOpPurpose)
    (m : UsdtAmount) : L.apply (.userOpConfirmed op p false m) = L := by
  cases p <;> rfl

theorem Ledger.apply_spent {op : UnsignedUserOp} {p : UserOpPurpose} {success : Bool}
    {m : UsdtAmount} {a : EvmAddress} (hlane : p.lane = .deposit a)
    (hsweep : p = .deployAndSweep a → success = false) :
    L.apply (.userOpConfirmed op p success m) = L := by
  cases p with
  | deployAndSweep a' =>
    cases hlane
    rw [hsweep rfl]
    rfl
  | recoverResidual a' => rfl
  | withdraw | withdrawFees => cases hlane

theorem Exact.account (h : Exact b L) {a : EvmAddress} {r : DepositRecord}
    (hr : b.records.get? a = some r) : L.accounts a = .of r := by
  rw [h.accounts, hr, Option.map_some, Option.getD_some]

theorem Exact.account_getD (h : Exact b L) {pk : PublicKey} {a : EvmAddress} {r : DepositRecord}
    (hr : (b.records.get? a).getD (Usdt.freshRecord pk) = r) : L.accounts a = .of r := by
  rw [h.accounts, ← hr]
  cases b.records.get? a <;> rfl

/-- One record changes, and so does its exact counterpart. -/
theorem Exact.accounts_insert (h : Exact b L) {a : EvmAddress} {r' : DepositRecord}
    {x : ExactRecord} (hx : x = .of r') (a' : EvmAddress) :
    Function.update L.accounts a x a' =
      (((b.records.insert a r').get? a').map ExactRecord.of).getD ⟨0, 0, 0, 0⟩ := by
  rw [Function.update_apply, Table.get?_insert]
  by_cases ha : a' = a
  · rw [if_pos ha, if_pos ha.symm, hx, Option.map_some, Option.getD_some]
  · rw [if_neg ha, if_neg (Ne.symm ha)]
    exact h.accounts a'

/-- A settlement or an event that moves no amount. -/
theorem Exact.still (h : Exact b L) (hr : b'.records = b.records)
    (hu : b'.unclaimed = b.unclaimed) (hf : b'.refunds = b.refunds)
    (hbalance : b'.pool.balance = b.pool.balance)
    (haccrued : b'.pool.accruedFees = b.pool.accruedFees) : Exact b' L where
  balance := hbalance ▸ h.balance
  accrued := haccrued ▸ h.accrued
  accounts := hr ▸ h.accounts
  asked := hu ▸ h.asked
  refunds := hf ▸ h.refunds

theorem Exact.credit {pk : PublicKey} {a : EvmAddress} {r : DepositRecord}
    {proven delta fee : UsdtAmount} {block : Nat} (h : Exact b L)
    (hr : (b.records.get? a).getD (Usdt.freshRecord pk) = r)
    (hdelta : proven.raw = r.credited.raw + delta.raw)
    (hclaimed : U64.satAdd r.claimed delta = proven) (hkept : r.claimed = r.credited)
    (hfees : (U64.satAdd r.feesAccrued fee).raw = r.feesAccrued.raw + fee.raw) :
    Exact (b.credit a r proven delta fee block) (L.apply (.depositCredited a proven delta fee)) where
  balance := h.balance
  accrued := h.accrued
  accounts := by
    refine h.accounts_insert ?_
    rw [h.account_getD hr]
    rw [hkept] at hclaimed
    simp only [ExactRecord.of, ExactRecord.credit, hclaimed, hfees, hdelta, hkept, Int.natCast_add]
  asked := h.asked
  refunds := h.refunds

theorem Exact.request {o : OutPoint} {w : UsdtWithdrawalV0} (h : Exact b L)
    (hu : b'.unclaimed = b.unclaimed.insert o w) (hr : b'.records = b.records)
    (hf : b'.refunds = b.refunds) (hp : b'.pool = b.pool) :
    Exact b' (L.apply (.withdrawalQueued o w.amount w.maxFee)) where
  balance := hp ▸ h.balance
  accrued := hp ▸ h.accrued
  accounts := hr ▸ h.accounts
  asked o' w' hw := by
    rw [hu, Table.get?_insert] at hw
    show Function.update L.asked o _ o' = _
    rw [Function.update_apply]
    by_cases ho : o' = o
    · rw [if_pos ho.symm] at hw
      rw [if_pos ho, Option.some.inj hw]
    · rw [if_neg (Ne.symm ho)] at hw
      rw [if_neg ho]
      exact h.asked o' w' hw
  refunds := hf ▸ h.refunds

theorem Exact.sweep {a : EvmAddress} {r r' : DepositRecord} {m : UsdtAmount} {op : UnsignedUserOp}
    (h : Exact b L) (hrecord : b.records.get? a = some r)
    (hr : b'.records = b.records.insert a r') (hc : r'.credited = r.credited)
    (hclaimed : r'.claimed = r.claimed) (hs : r'.swept.raw = r.swept.raw + m.raw)
    (hf : r'.feesAccrued = U64.zero)
    (hbalance : b'.pool.balance.raw = b.pool.balance.raw + m.raw)
    (haccrued : b'.pool.accruedFees.raw = b.pool.accruedFees.raw + r.feesAccrued.raw)
    (hu : b'.unclaimed = b.unclaimed) (hrefunds : b'.refunds = b.refunds) :
    Exact b' (L.apply (.userOpConfirmed op (.deployAndSweep a) true m)) where
  balance := by
    show L.balance + m.raw = _
    rw [h.balance, hbalance, Int.natCast_add]
  accrued := by
    show L.accrued + (L.accounts a).fees = _
    rw [h.accrued, h.account hrecord, haccrued, Int.natCast_add]
    rfl
  accounts := by
    rw [hr]
    refine h.accounts_insert ?_
    rw [h.account hrecord]
    simp only [ExactRecord.of, ExactRecord.sweep, hc, hclaimed, hs, hf, U64.raw_zero,
      Int.natCast_add, Int.natCast_zero]
  asked := hu ▸ h.asked
  refunds := hrefunds ▸ h.refunds

theorem Exact.spend {a : EvmAddress} {r : DepositRecord} {n : Nat} (h : Exact b L)
    (hrecord : b.records.get? a = some r)
    (hr : b'.records = b.records.insert a { r with nonce := n }) (hp : b'.pool = b.pool)
    (hu : b'.unclaimed = b.unclaimed) (hf : b'.refunds = b.refunds) : Exact b' L where
  balance := hp ▸ h.balance
  accrued := hp ▸ h.accrued
  accounts a' := by
    have hx : L.accounts a = .of { r with nonce := n } :=
      (h.account hrecord).trans rfl
    have hsame := h.accounts_insert (a := a) hx a'
    rwa [Function.update_eq_self, ← hr] at hsame
  asked := hu ▸ h.asked
  refunds := hf ▸ h.refunds

theorem Exact.asked_sum (h : Exact b L) {outpoints : List OutPoint}
    (hrows : ∀ o ∈ outpoints, ∃ w, b.unclaimed.get? o = some w) :
    (outpoints.map fun o => (L.asked o).2).sum = (b.feesSumAt outpoints : Int) := by
  induction outpoints with
  | nil => rfl
  | cons o rest ih =>
    obtain ⟨w, hw⟩ := hrows o List.mem_cons_self
    rw [feesSumAt, List.map_cons, List.sum_cons, List.map_cons, List.sum_cons, ← feesSumAt,
      Int.natCast_add, ih fun o' ho' => hrows o' (List.mem_cons_of_mem _ ho'), h.asked o w hw, hw]
    rfl

theorem Exact.pay {outpoints : List OutPoint} {t : UsdtAmount} {op : UnsignedUserOp}
    (h : Exact b L) (hrows : ∀ o ∈ outpoints, ∃ w, b.unclaimed.get? o = some w)
    (hu : b'.unclaimed = b.unclaimed.eraseAll outpoints)
    (hbalance : b'.pool.balance.raw + t.raw = b.pool.balance.raw)
    (haccrued : b'.pool.accruedFees.raw = b.pool.accruedFees.raw + b.feesSumAt outpoints)
    (hr : b'.records = b.records) (hf : b'.refunds = b.refunds) :
    Exact b' (L.apply (.userOpConfirmed op (.withdraw outpoints) true t)) where
  balance := by
    show L.balance - t.raw = _
    rw [h.balance]
    omega
  accrued := by
    show L.accrued + (outpoints.map fun o => (L.asked o).2).sum = _
    rw [h.accrued, h.asked_sum hrows, haccrued, Int.natCast_add]
  accounts := hr ▸ h.accounts
  asked o w hw := by
    rw [hu, Table.get?_eraseAll] at hw
    split_ifs at hw
    exact h.asked o w hw
  refunds := hf ▸ h.refunds

theorem Exact.refund {o : OutPoint} {w : UsdtWithdrawalV0} {f : Refund}
    {refundAmount charge : UsdtAmount} (h : Exact b L) (hopen : b.unclaimed.get? o = some w)
    (hu : b'.unclaimed = b.unclaimed.erase o) (hf : b'.refunds = b.refunds.insert o f)
    (hnet : f.amount.raw + charge.raw = w.amount.raw + w.maxFee.raw)
    (hbalance : b'.pool.balance = b.pool.balance)
    (haccrued : b'.pool.accruedFees.raw = b.pool.accruedFees.raw + charge.raw)
    (hr : b'.records = b.records) :
    Exact b' (L.apply (.withdrawalFailed o refundAmount charge)) where
  balance := hbalance ▸ h.balance
  accrued := by
    show L.accrued + charge.raw = _
    rw [h.accrued, haccrued, Int.natCast_add]
  accounts := hr ▸ h.accounts
  asked o' w' hw := h.asked o' w' (Table.get?_of_erase (hu ▸ hw)).2
  refunds o' f' hf' := by
    rw [hf, Table.get?_insert] at hf'
    show Function.update L.refunds o _ o' = _
    rw [Function.update_apply]
    by_cases ho : o' = o
    · rw [if_pos ho.symm] at hf'
      rw [if_pos ho, h.asked o w hopen, ← Option.some.inj hf']
      dsimp only
      omega
    · rw [if_neg (Ne.symm ho)] at hf'
      rw [if_neg ho]
      exact h.refunds o' f' hf'

theorem Exact.payFees {recipient : EvmAddress} {a t : UsdtAmount} {op : UnsignedUserOp}
    (h : Exact b L) (hbalance : b'.pool.balance.raw + t.raw = b.pool.balance.raw)
    (haccrued : b'.pool.accruedFees.raw + t.raw = b.pool.accruedFees.raw)
    (hr : b'.records = b.records) (hu : b'.unclaimed = b.unclaimed)
    (hf : b'.refunds = b.refunds) :
    Exact b' (L.apply (.userOpConfirmed op (.withdrawFees recipient a) true t)) where
  balance := by
    show L.balance - t.raw = _
    rw [h.balance]
    omega
  accrued := by
    show L.accrued - t.raw = _
    rw [h.accrued]
    omega
  accounts := hr ▸ h.accounts
  asked := hu ▸ h.asked
  refunds := hf ▸ h.refunds

/-! ## Both along moves -/

/-- The balance sheet holds, in exact amounts. -/
structure Sheet (b : Books) : Prop where
  balanced : Balanced b
  exact : Exact b (ledger b.history)

theorem Settle.issued_eq {s : SubmittedUserOp} {share : UsdtAmount} {success : Bool}
    (h : Settle b s share success b') : issued b'.history = issued b.history := by
  cases h <;> simp [issued, Event.issued]

theorem Settle.sheet {h : Hash} {s : SubmittedUserOp} {share : UsdtAmount} {success : Bool}
    (hsettle : Settle b s share success b') (hs : b.submitted.get? h = some s)
    (hp : PayloadInv b) (hv : ViewInv b) (hsound : Sound b) (hsheet : Sheet b) : Sheet b' := by
  obtain ⟨hb, he⟩ := hsheet
  have hi := hsettle.issued_eq
  cases hsettle with
  | @swept a r m hpurpose hrecord hcall =>
    obtain ⟨r', m', hr', hm', hle⟩ := hp.sweep (hpurpose ▸ InFlight.submitted hs)
    obtain rfl : r = r' := Option.some.inj (hrecord.symm.trans hr')
    obtain rfl : m = m' := Except.ok.inj (hcall.symm.trans hm')
    obtain ⟨hswept, hbalance, haccrued⟩ := swept_exact hb hsound hrecord hle
    refine ⟨hb.sweep hrecord rfl ⟨?_, hb.claimed a r hrecord⟩ rfl hswept rfl hbalance haccrued rfl
      rfl hi, ?_⟩
    · simp only [hswept]
      exact hle
    · rw [hpurpose]
      exact he.sweep hrecord rfl rfl rfl hswept rfl hbalance haccrued rfl rfl
  | spent hlane hrecord hsweep =>
    refine ⟨hb.spend hrecord rfl rfl rfl rfl hi, ?_⟩
    rw [ledger, Ledger.apply_spent hlane hsweep]
    exact he.spend hrecord rfl rfl rfl rfl
  | @paid outpoints t block hpurpose hcall =>
    obtain ⟨hnodup, hrows, htotal⟩ := hp.batch hsound.distinct _ _ _ _
      (hpurpose ▸ InFlight.submitted hs)
    obtain ⟨hsum, hle⟩ := htotal t hcall
    obtain ⟨-, haccrued⟩ := paid_exact hb hsound hnodup
    refine ⟨hb.pay hnodup rfl ?_ haccrued rfl rfl hi, ?_⟩
    · simp only [U64.raw_satSub]
      omega
    · rw [hpurpose]
      refine he.pay hrows rfl ?_ haccrued rfl rfl
      simp only [U64.raw_satSub]
      omega
  | requeued hpurpose | feesReverted hpurpose =>
    refine ⟨hb.still rfl rfl rfl rfl rfl hi, ?_⟩
    rw [ledger, Ledger.apply_reverted]
    exact he.still rfl rfl rfl rfl rfl
  | @isolated o w charge reason hpurpose hopen hcharge =>
    obtain ⟨hnet, haccrued⟩ := isolated_exact hb hsound hopen hcharge
    have hwaiting := (hv hsound.distinct o).waiting hopen
    refine ⟨hb.refund hopen hwaiting.2.2.2.1 rfl rfl hnet rfl haccrued rfl hi, ?_⟩
    rw [ledger, ledger, Ledger.apply_reverted]
    exact he.refund hopen rfl rfl hnet rfl haccrued rfl
  | abandoned hpurpose hgone =>
    obtain ⟨-, hrows, -⟩ := hp.batch hsound.distinct _ _ _ _ (hpurpose ▸ InFlight.submitted hs)
    obtain ⟨w, hw⟩ := hrows _ List.mem_cons_self
    rw [hgone] at hw
    cases hw
  | @feesPaid recipient a t hpurpose hcall =>
    obtain ⟨ht, haccrued, hbalance⟩ := hp.fee (hpurpose ▸ InFlight.submitted hs)
    obtain rfl := ht t hcall
    have hb₁ : (U64.satSub b.pool.balance t).raw + t.raw = b.pool.balance.raw := by
      rw [U64.raw_satSub]
      omega
    have hb₂ : (U64.satSub b.pool.accruedFees t).raw + t.raw = b.pool.accruedFees.raw := by
      rw [U64.raw_satSub]
      omega
    refine ⟨hb.payFees hb₁ hb₂ rfl rfl rfl hi, ?_⟩
    rw [hpurpose]
    exact he.payFees hb₁ hb₂ rfl rfl rfl

theorem creditedTotal_insert {a : EvmAddress} {r r' : DepositRecord}
    (hrecord : b.records.get? a = some r) (hc : r'.credited = r.credited) :
    (b.records.insert a r').sum (fun _ r => r.credited.raw) = b.creditedTotal := by
  rw [Table.sum_insert, hc, creditedTotal, Table.sum_erase _ hrecord]

/-- A settlement credits nothing. -/
theorem Settle.creditedTotal_eq {s : SubmittedUserOp} {share : UsdtAmount} {success : Bool}
    (h : Settle b s share success b') : b'.creditedTotal = b.creditedTotal := by
  cases h with
  | swept _ hrecord _ => exact creditedTotal_insert hrecord rfl
  | spent _ hrecord _ => exact creditedTotal_insert hrecord rfl
  | paid | requeued | isolated | abandoned | feesPaid | feesReverted => rfl

/-- What the ledger assumes of the books after a move holds before it. -/
theorem Move.sound (h : Move u b b') (hsound : Sound b') : Sound b := by
  refine ⟨?_, h.requested_sub hsound.distinct, ?_⟩
  · have hsolvent := hsound.solvent
    cases h with
    | offer hoffered =>
      obtain ⟨op, p, block, -, -, rfl⟩ := hoffered
      exact hsolvent.2
    | settle _ hsettle =>
      cases hsettle with
      | isolated => exact hsolvent.2.2
      | _ => exact hsolvent.2
    | _ => exact hsolvent.2
  · refine Nat.lt_of_le_of_lt ?_ hsound.credited
    cases h with
    | @credit pk r proven delta fee block hrecord hdelta hfee =>
      have hrecords : (b.credit (u.depositAccount pk) r proven delta fee block).records =
          b.records.insert (u.depositAccount pk) _ := rfl
      obtain ⟨hcredited, -, -⟩ := records_insert hrecord hrecords
      dsimp only at hcredited
      omega
    | offer hoffered =>
      obtain ⟨op, p, block, -, -, rfl⟩ := hoffered
      exact Nat.le_refl _
    | settle _ hsettle => exact hsettle.creditedTotal_eq.ge
    | _ => exact Nat.le_refl _

theorem Move.sheet (h : Move u b b') (hp : PayloadInv b) (hv : ViewInv b) (hsound : Sound b')
    (hsheet : Sheet b) : Sheet b' := by
  have hbefore := h.sound hsound
  have hdistinct := hsound.distinct
  obtain ⟨hb, he⟩ := hsheet
  cases h with
  | @credit pk r proven delta fee block hrecord hdelta hfee =>
    have hle := le_creditedTotal (b := b.credit (u.depositAccount pk) r proven delta fee block)
      (Table.get?_insert_self _ _ _)
    have hlt : proven.raw < LEDGER_BOUND := Nat.lt_of_le_of_lt hle hsound.credited
    obtain ⟨hclaimed, hfees⟩ := credit_exact hb hbefore hrecord hdelta hfee hlt
    exact ⟨hb.credit hbefore hrecord hdelta hfee hlt,
      he.credit hrecord hdelta hclaimed (record_of_getD hrecord hb).2.1 hfees⟩
  | @request o w =>
    have hfresh : b.unclaimed.get? o = none := by
      cases hw : b.unclaimed.get? o with
      | none => rfl
      | some w' => exact absurd (mem_requested (hp.opened o w' hw)) (List.nodup_cons.1 hdistinct).1
    exact ⟨hb.request hfresh rfl rfl rfl rfl ((issued_cons _ _).trans (add_comm _ _)),
      he.request rfl rfl rfl rfl⟩
  | @claim o f hrefund =>
    refine ⟨hb.claim hrefund rfl rfl rfl rfl ((issued_cons _ _).trans (add_comm _ _)),
      he.balance, he.accrued, he.accounts, he.asked, ?_⟩
    intro o' f' hf'
    exact he.refunds o' f' (Table.get?_of_erase hf').2
  | offer hoffered =>
    obtain ⟨op, p, block, -, -, rfl⟩ := hoffered
    exact ⟨hb.still rfl rfl rfl rfl rfl ((issued_cons _ _).trans (zero_add _)),
      he.still rfl rfl rfl rfl rfl⟩
  | replace | finalize =>
    exact ⟨hb.still rfl rfl rfl rfl rfl ((issued_cons _ _).trans (zero_add _)),
      he.still rfl rfl rfl rfl rfl⟩
  | settle hs hsettle =>
    obtain ⟨hb', he'⟩ := hsettle.sheet hs hp hv hbefore ⟨hb, he⟩
    exact ⟨hb'.still rfl rfl rfl rfl rfl rfl, he'.still rfl rfl rfl rfl rfl⟩

/-- **The balance sheet of every reachable database whose assumptions hold.** -/
theorem run_sheet {db : Db} {tr : List (Item × Answer)} (run : Run (Accepts u) Db.empty tr db)
    (hsound : Sound (u.books db)) : Sheet (u.books db) := by
  have hall : PayloadInv (u.books db) ∧ ViewInv (u.books db) ∧
      (Sound (u.books db) → Sheet (u.books db)) := by
    refine run_books (P := fun b => PayloadInv b ∧ ViewInv b ∧ (Sound b → Sheet b))
      ⟨payloadInv_empty u, fun _ _ => .inl rfl, fun _ => ?_⟩ ?_ run
    · exact ⟨⟨rfl, Nat.le_refl 0, nofun, nofun⟩, ⟨rfl, rfl, fun _ => rfl, nofun, nofun⟩⟩
    · rintro b b' hchain ⟨hp, hv, hsheet⟩ hmove
      exact ⟨hmove.payloadInv hchain hp, hmove.viewInv hp hv,
        fun hsound => hmove.sheet hp hv hsound (hsheet (hmove.sound hsound))⟩
  exact hall.2.2 hsound

/-! ## Funded runs -/

/-- Every accepted withdrawal was paid for with e-cash in circulation. -/
def funded : List (Item × Answer) → Bool
  | [] => true
  | (_, .consumed amounts) :: rest =>
    decide ((amounts.amounts.of USDT_UNIT + amounts.fees.of USDT_UNIT : Int) ≤ netIssued rest) &&
      funded rest
  | _ :: rest => funded rest

theorem funded_tail {t : Item × Answer} {rest : List (Item × Answer)}
    (h : funded (t :: rest) = true) : funded rest = true := by
  obtain ⟨item, answer⟩ := t
  cases answer with
  | consumed amounts => exact (Bool.and_eq_true _ _ ▸ h).2
  | funded m => exact h
  | recorded => exact h

theorem netIssued_cons (t : Item × Answer) (rest : List (Item × Answer)) :
    netIssued (t :: rest) = t.2.value + netIssued rest := rfl

theorem run_solvent {db : Db} {tr : List (Item × Answer)} (run : Run (Accepts u) Db.empty tr db)
    (hfunded : funded tr = true) : Solvent db.history := by
  induction run with
  | start => trivial
  | @next tr db db' item answer run h ih =>
    have heffect := Accepts.effect h (run_chainInv run)
    refine heffect.solvent (ih (funded_tail hfunded)) ?_
    intro amounts hanswer
    have hissued := (run_history (run.next h)).1
    show 0 ≤ issued db'.history
    subst hanswer
    have hle : (amounts.amounts.of USDT_UNIT + amounts.fees.of USDT_UNIT : Int) ≤ netIssued tr :=
      of_decide_eq_true (Bool.and_eq_true _ _ ▸ hfunded).1
    rw [hissued, netIssued_cons, Answer.value]
    omega

/-! ## Audit -/

theorem auditEntry_eq {a : UsdtAmount} (h : a.raw < LEDGER_BOUND) : auditEntry a = a.raw := by
  unfold LEDGER_BOUND at h
  exact if_pos (by unfold I64_MAX; omega)

/-- Entries of one sign that all fit add up to the total. -/
theorem sum_auditEntry {κ ν : Type} [LinearOrder κ] {t : Table κ ν} {f : ν → UsdtAmount}
    (h : t.sum (fun _ v => (f v).raw) < LEDGER_BOUND) :
    t.sum (fun _ v => auditEntry (f v)) = (t.sum (fun _ v => (f v).raw) : Nat) := by
  rw [Table.natCast_sum]
  exact Table.sum_congr fun k v hv =>
    auditEntry_eq (Nat.lt_of_le_of_lt (Table.le_sum (fun _ v => (f v).raw) hv) h)

theorem unswept_sum : b.records.sum (fun _ r => (r.credited.raw - r.swept.raw : Int)) =
    b.creditedTotal - b.sweptTotal := by
  rw [eq_sub_iff_add_eq, creditedTotal, sweptTotal, Table.natCast_sum, Table.natCast_sum,
    ← Table.sum_add]
  exact Table.sum_congr fun a r _ => sub_add_cancel _ _

/-- **The audit adds up what the books hold, without truncation.** -/
theorem audit_exact {db : Db} (hb : Balanced (u.books db)) (hsound : Sound (u.books db)) :
    Usdt.audit db = (u.books db).creditedTotal - (u.books db).sweptTotal +
      (u.pool db).balance.raw - (u.books db).openTotal - (u.books db).refundTotal := by
  have hbound := hb.bound hsound.solvent
  have hbacked := hb.backed
  have hswept := hb.sweptTotal_le
  have hcredited := hsound.credited
  have hpool : (db.poolState.map fun v => auditEntry v.balance).getD 0 =
      (u.pool db).balance.raw := by
    have hentry : auditEntry (u.pool db).balance = (u.pool db).balance.raw :=
      auditEntry_eq (show (u.books db).pool.balance.raw < LEDGER_BOUND by omega)
    rw [← hentry]
    unfold Usdt.pool
    cases db.poolState <;> rfl
  have hdeposits : db.depositRecord.sum (fun _ v => auditEntry (U64.satSub v.credited v.swept)) =
      (u.books db).creditedTotal - (u.books db).sweptTotal := by
    rw [← unswept_sum]
    refine Table.sum_congr ?_
    intro a r hr
    have hle := hb.swept a r hr
    have hfits := le_creditedTotal (b := u.books db) hr
    rw [auditEntry_eq (by rw [U64.raw_satSub]; omega), U64.raw_satSub]
    omega
  have hopen : db.unclaimedWithdrawal.sum (fun _ v => -auditEntry v.amount) =
      -((u.books db).openTotal : Int) := by
    rw [Table.sum_neg, sum_auditEntry]
    · rfl
    · show (u.books db).openTotal < LEDGER_BOUND
      omega
  have hrefund : db.refund.sum (fun _ v => -auditEntry v.amount) =
      -((u.books db).refundTotal : Int) := by
    rw [Table.sum_neg, sum_auditEntry]
    · rfl
    · show (u.books db).refundTotal < LEDGER_BOUND
      omega
  rw [Usdt.audit, hdeposits, hpool, hopen, hrefund]
  omega

/-- **The audit total is the e-cash issued and the fees earned and offered, to the unit**, in every
state of a run whose withdrawals were funded and whose deposits stay below `2 ^ 63`.  The stored
amounts are then those of the history replayed with unbounded integers: nothing was truncated. -/
theorem solvency {db : Db} {tr : List (Item × Answer)} (run : Run (Accepts u) Db.empty tr db)
    (hfunded : funded tr = true) (hdistinct : (acceptedOutPoints tr).Nodup)
    (hcredited : db.depositRecord.sum (fun _ r => r.credited.raw) < 2 ^ 63) :
    Usdt.audit db = netIssued tr +
        (db.depositRecord.sum (fun _ r => r.feesAccrued.raw) : Nat) +
        (u.pool db).accruedFees.raw + (db.unclaimedWithdrawal.sum (fun _ w => w.maxFee.raw) : Nat) ∧
      Usdt.audit db = db.depositRecord.sum (fun _ r => (r.credited.raw - r.swept.raw : Int)) +
        (u.pool db).balance.raw - (db.unclaimedWithdrawal.sum (fun _ w => w.amount.raw) : Nat) -
        (db.refund.sum (fun _ f => f.amount.raw) : Nat) ∧
      Exact (u.books db) (ledger db.history) := by
  obtain ⟨hissued, hrequested, -⟩ := run_history run
  have hsound : Sound (u.books db) :=
    ⟨run_solvent run hfunded, by rw [← hrequested] at hdistinct; exact hdistinct, hcredited⟩
  obtain ⟨hb, he⟩ := run_sheet run hsound
  have haudit := audit_exact hb hsound
  refine ⟨?_, ?_, he⟩
  · have hid := hb.identity
    show _ = _ + ((u.books db).feesTotal : Int) + (u.books db).pool.accruedFees.raw +
      (u.books db).openFees
    have hsame : issued (u.books db).history = netIssued tr := hissued
    have hpool : (u.pool db).balance.raw = (u.books db).pool.balance.raw := rfl
    omega
  · rw [haudit, ← unswept_sum]
    rfl

theorem solvency_sample :
    ∃ tr db, Run (Accepts sampleUsdt) Db.empty tr db ∧ Usdt.audit db = 30000 ∧
      Usdt.audit db = netIssued tr +
        (db.depositRecord.sum (fun _ r => r.feesAccrued.raw) : Nat) +
        (sampleUsdt.pool db).accruedFees.raw +
        (db.unclaimedWithdrawal.sum (fun _ w => w.maxFee.raw) : Nat) := by
  obtain ⟨tr, db, run, hdb⟩ := Run.exists_of_exec sampleUsdt.step Db.empty
    (Sample.funding ++ Sample.payout)
    (fun tr db => funded tr && decide (acceptedOutPoints tr).Nodup &&
      decide (db.depositRecord.sum (fun _ r => r.credited.raw) < 2 ^ 63) &&
      decide (Usdt.audit db = 30000))
    (by decide +kernel)
  simp only [Bool.and_eq_true, decide_eq_true_eq] at hdb
  obtain ⟨⟨⟨hfunded, hdistinct⟩, hcredited⟩, haudit⟩ := hdb
  exact ⟨tr, db, run, haudit, (solvency run hfunded hdistinct hcredited).1⟩

end Experimint.FedimintUsdt
