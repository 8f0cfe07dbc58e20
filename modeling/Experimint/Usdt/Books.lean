import Mathlib.Logic.Relation
import Experimint.Usdt.Server

/-!
# The books, and the moves on them

`Books` is the part of the database that value and operations live in; votes, sessions and anchors
are left out.  A `Move` is one thing the module can do to the books: credit a deposit, queue or
refund a withdrawal, offer an operation, replace it, submit it, or settle it.  Every accepted item
is a sequence of moves, so an invariant of the books is proved once per move.

Operations in flight are sorted by `Lane`: the pool has one, and so has every deposit account.
-/

set_option autoImplicit false

namespace Experimint.FedimintUsdt

structure Books where
  records : Table EvmAddress DepositRecord
  pool : PoolState
  pending : Table Hash PendingUserOp
  submitted : Table Hash SubmittedUserOp
  unclaimed : Table OutPoint UsdtWithdrawalV0
  states : Table OutPoint WithdrawalState
  refunds : Table OutPoint Refund
  incurred : Table OutPoint UsdtAmount
  history : List Event

/-- The books of a database. -/
def Usdt.books (u : Usdt) (db : Db) : Books where
  records := db.depositRecord
  pool := u.pool db
  pending := db.pendingUserOp
  submitted := db.submittedUserOp
  unclaimed := db.unclaimedWithdrawal
  states := db.withdrawalState
  refunds := db.refund
  incurred := db.withdrawalIncurredFee
  history := db.history

/-! ## Lanes -/

/-- Account whose nonces an operation uses. -/
inductive Lane
  | pool
  | deposit (account : EvmAddress)
deriving DecidableEq

def UserOpPurpose.lane : UserOpPurpose → Lane
  | .deployAndSweep a | .recoverResidual a => .deposit a
  | .withdraw _ | .withdrawFees _ _ => .pool

def Lane.address (u : Usdt) : Lane → EvmAddress
  | .pool => u.poolAccount
  | .deposit a => a

/-- Place of an operation in one of the two tables. -/
inductive Slot
  | pending (h : Hash)
  | submitted (h : Hash)
deriving DecidableEq

def Slot.hash : Slot → Hash
  | .pending h | .submitted h => h

/-- An operation without its two fee fields: what all operations of a replacement chain share. -/
def UnsignedUserOp.chain (op : UnsignedUserOp) : UnsignedUserOp :=
  { op with maxPriorityFeePerGas := 0, maxFeePerGas := 0 }

namespace Books

/-- Tracked nonce of a lane. -/
def nonceOf (b : Books) : Lane → Option Nat
  | .pool => some b.pool.nonce
  | .deposit a => (b.records.get? a).map (·.nonce)

/-- Rows of the two operation tables; a row is live unless it is submitted and superseded. -/
inductive InFlight (b : Books) : Slot → UnsignedUserOp → UserOpPurpose → Bool → Prop
  | pending {h : Hash} {p : PendingUserOp} :
      b.pending.get? h = some p → InFlight b (.pending h) p.op p.purpose true
  | submitted {h : Hash} {s : SubmittedUserOp} :
      b.submitted.get? h = some s →
      InFlight b (.submitted h) s.signed.unsigned s.purpose (!s.superseded)

/-- No operation of the lane is in flight. -/
def Idle (b : Books) (l : Lane) : Prop :=
  ∀ k op p live, b.InFlight k op p live → p.lane ≠ l

/-! ## Moves -/

/-- The high-water mark of an account rises to `proven`. -/
def credit (b : Books) (account : EvmAddress) (r : DepositRecord) (proven delta fee : UsdtAmount)
    (block : Nat) : Books :=
  { b with
    records := b.records.insert account { r with
      credited := proven
      claimed := U64.satAdd r.claimed delta
      lastObservedBlock := block
      feesAccrued := U64.satAdd r.feesAccrued fee }
    history := .depositCredited account proven delta fee :: b.history }

/-- Withdrawal states after an operation of this purpose is offered. -/
def marked (b : Books) (h : Hash) : UserOpPurpose → Table OutPoint WithdrawalState
  | .withdraw outpoints => b.states.insertAll outpoints (.signing h)
  | _ => b.states

/-- A new pending operation. -/
def offer (b : Books) (h : Hash) (op : UnsignedUserOp) (purpose : UserOpPurpose) (block : Nat) :
    Books :=
  { b with
    pending := b.pending.insert h ⟨op, purpose, block⟩
    states := b.marked h purpose
    history := .userOpEnqueued h op purpose :: b.history }

/-- The submitted operation `h` is gone, and with it all others of its account and nonce. -/
def finish (b : Books) (h : Hash) (op : UnsignedUserOp) : Books :=
  { b with
    submitted := b.submitted.filter fun k s =>
      decide (k ≠ h) && !(decide (s.signed.unsigned.sender = op.sender) &&
        decide (s.signed.unsigned.nonce = op.nonce))
    pending := b.pending.filter fun k p =>
      !(decide (k ≠ h) && decide (p.op.sender = op.sender) && decide (p.op.nonce = op.nonce)) }

/-- Total amount of the withdrawals at `outpoints`. -/
def amountsAt (b : Books) (outpoints : List OutPoint) : Nat :=
  (outpoints.map fun o => ((b.unclaimed.get? o).map (·.amount.raw)).getD 0).sum

/-- Total fee of the withdrawals at `outpoints`, as the settlement adds it up. -/
def feesAt (b : Books) (outpoints : List OutPoint) : UsdtAmount :=
  U64.satSum (outpoints.filterMap fun o => (b.unclaimed.get? o).map (·.maxFee))

end Books

open Books

/-- Operations the module builds from the books. -/
inductive Offer (u : Usdt) (b : Books) : UnsignedUserOp → UserOpPurpose → Prop
  | sweep {a : EvmAddress} {r : DepositRecord} {m : UsdtAmount} {g : GasBounds}
      (hrecord : b.records.get? a = some r) (hamount : m.raw = r.credited.raw - r.swept.raw)
      (hpos : 0 < m.raw) (hidle : b.Idle (.deposit a)) :
      Offer u b (u.buildDeployAndSweepUserop a r.claimPk m r.nonce g) (.deployAndSweep a)
  | recovery {a : EvmAddress} {r : DepositRecord} {wei : Nat} {g : GasBounds}
      (hrecord : b.records.get? a = some r) (hidle : b.Idle (.deposit a)) :
      Offer u b (u.buildRecoverResidualUserop a wei r.nonce g) (.recoverResidual a)
  | batch {ws : List (OutPoint × UsdtWithdrawalV0)} {g : GasBounds}
      (hidle : b.Idle .pool) (hnodup : (ws.map (·.1)).Nodup)
      (hqueued : ∀ q ∈ ws, b.unclaimed.get? q.1 = some q.2 ∧ b.states.get? q.1 = some .queued)
      (hfunded : (U64.satSum (ws.map fun q => q.2.amount)).raw ≤ b.pool.balance.raw) :
      Offer u b
        (u.buildWithdrawalBatchUserop b.pool.account (ws.map fun q => (q.2.recipient, q.2.amount))
          b.pool.nonce g)
        (.withdraw (ws.map (·.1)))
  | fees {recipient : EvmAddress} {a : UsdtAmount} {g : GasBounds}
      (hidle : b.Idle .pool) (haccrued : a.raw ≤ b.pool.accruedFees.raw)
      (hfunded : a.raw ≤ b.pool.balance.raw) :
      Offer u b (u.buildWithdrawalBatchUserop b.pool.account [(recipient, a)] b.pool.nonce g)
        (.withdrawFees recipient a)

/-- Bookkeeping of a confirmation, by purpose and outcome; `share` is what a reverted batch charges
each of its withdrawals. -/
inductive Settle (b : Books) (s : SubmittedUserOp) (share : UsdtAmount) : Bool → Books → Prop
  | swept {a : EvmAddress} {r : DepositRecord} {m : UsdtAmount}
      (hpurpose : s.purpose = .deployAndSweep a) (hrecord : b.records.get? a = some r)
      (hcall : decodeTransferAmount s.signed.unsigned = .ok m) :
      Settle b s share true
        { b with
          records := b.records.insert a { r with
            nonce := r.nonce + 1
            swept := U64.least (U64.satAdd r.swept m) r.credited
            feesAccrued := U64.zero }
          pool := { b.pool with
            balance := U64.satAdd b.pool.balance m
            accruedFees := U64.satAdd b.pool.accruedFees r.feesAccrued }
          history := .userOpConfirmed s.signed.unsigned s.purpose true m :: b.history }
  | spent {a : EvmAddress} {r : DepositRecord} {success : Bool}
      (hlane : s.purpose.lane = .deposit a) (hrecord : b.records.get? a = some r)
      (hsweep : s.purpose = .deployAndSweep a → success = false) :
      Settle b s share success
        { b with
          records := b.records.insert a { r with nonce := r.nonce + 1 }
          history := .userOpConfirmed s.signed.unsigned s.purpose success U64.zero :: b.history }
  | paid {outpoints : List OutPoint} {t : UsdtAmount} {block : Nat}
      (hpurpose : s.purpose = .withdraw outpoints)
      (hcall : decodeBatchTransferTotal s.signed.unsigned = .ok t) :
      Settle b s share true
        { b with
          pool := { b.pool with
            nonce := b.pool.nonce + 1
            balance := U64.satSub b.pool.balance t
            accruedFees := U64.satAdd b.pool.accruedFees (b.feesAt outpoints) }
          states := b.states.insertAll outpoints (.confirmed block)
          unclaimed := b.unclaimed.eraseAll outpoints
          incurred := b.incurred.eraseAll outpoints
          history := .userOpConfirmed s.signed.unsigned s.purpose true t :: b.history }
  | requeued {outpoints : List OutPoint} {incurred : Table OutPoint UsdtAmount}
      (hpurpose : s.purpose = .withdraw outpoints) :
      Settle b s share false
        { b with
          pool := { b.pool with nonce := b.pool.nonce + 1 }
          states := b.states.insertAll outpoints .queued
          incurred := incurred
          history := .userOpConfirmed s.signed.unsigned s.purpose false U64.zero :: b.history }
  | isolated {o : OutPoint} {w : UsdtWithdrawalV0} {charge : UsdtAmount} {reason : String}
      (hpurpose : s.purpose = .withdraw [o]) (hopen : b.unclaimed.get? o = some w)
      (hcharge : charge = U64.least (U64.satAdd ((b.incurred.get? o).getD U64.zero) share)
        (U64.satAdd w.amount w.maxFee)) :
      Settle b s share false
        { b with
          pool := { b.pool with
            nonce := b.pool.nonce + 1
            accruedFees := U64.satAdd b.pool.accruedFees charge }
          states := b.states.insert o (.failed reason)
          unclaimed := b.unclaimed.erase o
          refunds := b.refunds.insert o
            ⟨U64.satSub (U64.satAdd w.amount w.maxFee) charge, w.refundPubkey, reason⟩
          incurred := b.incurred.erase o
          history :=
            .withdrawalFailed o (U64.satSub (U64.satAdd w.amount w.maxFee) charge) charge ::
              .userOpConfirmed s.signed.unsigned s.purpose false U64.zero :: b.history }
  | abandoned {o : OutPoint} {reason : String} {incurred : Table OutPoint UsdtAmount}
      (hpurpose : s.purpose = .withdraw [o]) (hgone : b.unclaimed.get? o = none) :
      Settle b s share false
        { b with
          pool := { b.pool with nonce := b.pool.nonce + 1 }
          states := b.states.insert o (.failed reason)
          incurred := incurred
          history := .userOpConfirmed s.signed.unsigned s.purpose false U64.zero :: b.history }
  | feesPaid {recipient : EvmAddress} {a t : UsdtAmount}
      (hpurpose : s.purpose = .withdrawFees recipient a)
      (hcall : decodeBatchTransferTotal s.signed.unsigned = .ok t) :
      Settle b s share true
        { b with
          pool := { b.pool with
            nonce := b.pool.nonce + 1
            balance := U64.satSub b.pool.balance t
            accruedFees := U64.satSub b.pool.accruedFees t }
          history := .userOpConfirmed s.signed.unsigned s.purpose true t :: b.history }
  | feesReverted {recipient : EvmAddress} {a : UsdtAmount}
      (hpurpose : s.purpose = .withdrawFees recipient a) :
      Settle b s share false
        { b with
          pool := { b.pool with nonce := b.pool.nonce + 1 }
          history := .userOpConfirmed s.signed.unsigned s.purpose false U64.zero :: b.history }

/-- A new operation enters the books. -/
def Offered (u : Usdt) (b b' : Books) : Prop :=
  ∃ op purpose block, Offer u b op purpose ∧
    ((b.pending.get? (u.opHash op) = none ∧ b.submitted.get? (u.opHash op) = none) ∨
      purpose.isPool = true) ∧
    b' = b.offer (u.opHash op) op purpose block

/-- One thing the module does to the books. -/
inductive Move (u : Usdt) : Books → Books → Prop
  | credit {b : Books} {pk : PublicKey} {r : DepositRecord} {proven delta fee : UsdtAmount}
      {block : Nat}
      (hrecord : (b.records.get? (u.depositAccount pk)).getD (Usdt.freshRecord pk) = r)
      (hdelta : proven.raw = r.credited.raw + delta.raw) (hfee : fee.raw < delta.raw) :
      Move u b (b.credit (u.depositAccount pk) r proven delta fee block)
  | request {b : Books} {o : OutPoint} {w : UsdtWithdrawalV0} :
      Move u b
        { b with
          unclaimed := b.unclaimed.insert o w
          states := b.states.insert o .queued
          history := .withdrawalQueued o w.amount w.maxFee :: b.history }
  | claim {b : Books} {o : OutPoint} {f : Refund} (hrefund : b.refunds.get? o = some f) :
      Move u b
        { b with
          refunds := b.refunds.erase o
          history := .refundClaimed o f.amount :: b.history }
  | offer {b b' : Books} (hoffered : Offered u b b') : Move u b b'
  | replace {b : Books} {h : Hash} {s : SubmittedUserOp} {op : UnsignedUserOp} {block : Nat}
      (hsubmitted : b.submitted.get? h = some s) (hlive : s.superseded = false)
      (hchain : op.chain = s.signed.unsigned.chain)
      (hnew : b.pending.get? (u.opHash op) = none ∧ b.submitted.get? (u.opHash op) = none) :
      Move u b
        { b.offer (u.opHash op) op s.purpose block with
          submitted := b.submitted.insert h { s with superseded := true } }
  | finalize {b : Books} {h : Hash} {p : PendingUserOp} {signature : Bytes} {block : Nat}
      (hpending : b.pending.get? h = some p) :
      Move u b
        { b with
          submitted := b.submitted.insert h ⟨⟨p.op, signature⟩, p.purpose, block, false⟩
          pending := b.pending.erase h
          history := .userOpFinalized h :: b.history }
  | settle {b b' : Books} {h : Hash} {s : SubmittedUserOp} {share : UsdtAmount} {success : Bool}
      (hsubmitted : b.submitted.get? h = some s) (hsettle : Settle b s share success b') :
      Move u b (b'.finish h s.signed.unsigned)

/-- What the triggers do: any number of new operations. -/
abbrev Offers (u : Usdt) : Books → Books → Prop := Relation.ReflTransGen (Offered u)

/-- A new operation enters the books that covers no withdrawals. -/
def OfferedAside (u : Usdt) (b b' : Books) : Prop :=
  ∃ op purpose block, (∀ outpoints, purpose ≠ .withdraw outpoints) ∧ Offer u b op purpose ∧
    (b.pending.get? (u.opHash op) = none ∧ b.submitted.get? (u.opHash op) = none) ∧
    b' = b.offer (u.opHash op) op purpose block

/-- What every trigger but that of batches does. -/
abbrev OffersAside (u : Usdt) : Books → Books → Prop := Relation.ReflTransGen (OfferedAside u)

/-- What an item does: some moves in a row. -/
abbrev Moves (u : Usdt) : Books → Books → Prop := Relation.ReflTransGen (Move u)

/-- A property of the books that every move keeps is kept by every sequence of moves. -/
theorem Moves.invariant {u : Usdt} {P : Books → Prop}
    (hmove : ∀ b b', P b → Move u b b' → P b') {b b' : Books} (h : Moves u b b') (hP : P b) :
    P b' := by
  induction h with
  | refl => exact hP
  | tail _ hstep ih => exact hmove _ _ ih hstep

theorem Offers.moves {u : Usdt} {b b' : Books} (h : Offers u b b') : Moves u b b' :=
  h.lift id fun _ _ ho => Move.offer ho

theorem OfferedAside.offered {u : Usdt} {b b' : Books} (h : OfferedAside u b b') :
    Offered u b b' := by
  obtain ⟨op, purpose, block, -, ho, hfree, rfl⟩ := h
  exact ⟨op, purpose, block, ho, .inl hfree, rfl⟩

theorem OffersAside.offers {u : Usdt} {b b' : Books} (h : OffersAside u b b') : Offers u b b' :=
  h.lift id fun _ _ ho => OfferedAside.offered ho

/-! ## What a history says -/

/-- E-cash an event issues, or takes back. -/
def Event.issued : Event → Int
  | .depositCredited _ _ delta fee => delta.raw - fee.raw
  | .withdrawalQueued _ amount maxFee => -(amount.raw + maxFee.raw)
  | .refundClaimed _ amount => amount.raw
  | _ => 0

/-- Net e-cash issued along a history. -/
def issued (history : List Event) : Int := (history.map Event.issued).sum

def Event.requested : Event → Option OutPoint
  | .withdrawalQueued o _ _ => some o
  | _ => none

/-- Out points of the queued withdrawals, newest first. -/
def requested (history : List Event) : List OutPoint := history.filterMap Event.requested

def Event.claimed : Event → Option OutPoint
  | .refundClaimed o _ => some o
  | _ => none

/-- Out points of the claimed refunds, newest first. -/
def claimed (history : List Event) : List OutPoint := history.filterMap Event.claimed

/-- Account, proven balance and minted amount of a credit. -/
def Event.credited : Event → Option (EvmAddress × Nat × Nat)
  | .depositCredited a proven delta _ => some (a, proven.raw, delta.raw)
  | _ => none

/-- Credits of a history, newest first. -/
def credits (history : List Event) : List (EvmAddress × Nat × Nat) :=
  history.filterMap Event.credited

/-- The e-cash issued was never negative along the history. -/
def Solvent : List Event → Prop
  | [] => True
  | e :: rest => 0 ≤ issued (e :: rest) ∧ Solvent rest

theorem issued_cons (e : Event) (rest : List Event) :
    issued (e :: rest) = e.issued + issued rest := rfl

theorem Solvent.issued_nonneg {history : List Event} (h : Solvent history) :
    0 ≤ issued history := by
  cases history with
  | nil => exact le_refl 0
  | cons e rest => exact h.1

theorem Solvent.cons {e : Event} {rest : List Event} (h : Solvent rest) (he : 0 ≤ e.issued) :
    Solvent (e :: rest) :=
  ⟨by rw [issued_cons]; exact add_nonneg he h.issued_nonneg, h⟩

theorem Offers.solvent {u : Usdt} {b b' : Books} (h : Offers u b b') (hs : Solvent b.history) :
    Solvent b'.history := by
  induction h with
  | refl => exact hs
  | tail _ hstep ih =>
    obtain ⟨op, p, block, -, -, rfl⟩ := hstep
    exact ih.cons (le_refl 0)

/-- Every submitted operation was submitted before, with the same signature. -/
def Books.Continues (b b' : Books) : Prop :=
  ∀ h s', b'.submitted.get? h = some s' →
    ∃ s, b.submitted.get? h = some s ∧ s'.signed = s.signed ∧ s'.purpose = s.purpose

theorem Books.Continues.of_eq {b b' : Books} (h : b'.submitted = b.submitted) : b.Continues b' :=
  fun _ s' hs' => ⟨s', h ▸ hs', rfl, rfl⟩

theorem Offers.submitted {u : Usdt} {b b' : Books} (h : Offers u b b') :
    b'.submitted = b.submitted := by
  induction h with
  | refl => rfl
  | tail _ hstep ih =>
    obtain ⟨op, p, block, -, -, rfl⟩ := hstep
    exact ih

theorem Offers.pool {u : Usdt} {b b' : Books} (h : Offers u b b') : b'.pool = b.pool := by
  induction h with
  | refl => rfl
  | tail _ hstep ih =>
    obtain ⟨op, p, block, -, -, rfl⟩ := hstep
    exact ih

theorem Offers.history {u : Usdt} {b b' : Books} (h : Offers u b b') :
    issued b'.history = issued b.history ∧ requested b'.history = requested b.history ∧
      claimed b'.history = claimed b.history ∧ credits b'.history = credits b.history := by
  induction h with
  | refl => exact ⟨rfl, rfl, rfl, rfl⟩
  | tail _ hstep ih =>
    obtain ⟨op, p, block, -, -, rfl⟩ := hstep
    refine ⟨?_, ih.2⟩
    rw [← ih.1]
    simp [issued, Books.offer, Event.issued]

end Experimint.FedimintUsdt
