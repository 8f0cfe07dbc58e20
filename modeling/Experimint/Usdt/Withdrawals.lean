import Experimint.Usdt.Payload

/-!
# Withdrawals are settled once

A withdrawal is seen through its three rows and four counters read off the history: how often it
was queued, debited from the pool, turned into a refund, and paid back.  `Move.view_next` says what
a move can do to one withdrawal; the rest is about single steps of a `View`.

* `Condition`: waiting for a batch, paid on chain, or refunded.
* `View.Next.valid`: a queued withdrawal always meets one of the three.
* `View.Next.final`: the last two are final.
* `PaidInFull`: each batch took from the pool exactly what its withdrawals had asked for.
-/

set_option autoImplicit false

namespace Experimint.FedimintUsdt

open Books

/-! ## Counting along the history -/

def Event.refunded : Event → Option OutPoint
  | .withdrawalFailed o _ _ => some o
  | _ => none

/-- Out points of the withdrawals that got a refund row, newest first. -/
def refunded (history : List Event) : List OutPoint := history.filterMap Event.refunded

/-- Withdrawals a successful batch paid, with its total. -/
def Event.payout : Event → Option (List OutPoint × UsdtAmount)
  | .userOpConfirmed _ (.withdraw outpoints) true t => some (outpoints, t)
  | _ => none

def Event.debited (e : Event) : List OutPoint := (e.payout.map (·.1)).getD []

/-- Out points of the withdrawals the pool was debited for, newest first. -/
def debited (history : List Event) : List OutPoint := history.flatMap Event.debited

/-! ## One withdrawal -/

/-- Rows and counters of one withdrawal. -/
structure View where
  row : Option UsdtWithdrawalV0
  state : Option WithdrawalState
  refund : Option Refund
  requests : Nat
  debits : Nat
  refunds : Nat
  claims : Nat

/-- The view of an out point that was never queued. -/
def View.blank : View := ⟨none, none, none, 0, 0, 0, 0⟩

def Books.view (b : Books) (o : OutPoint) : View where
  row := b.unclaimed.get? o
  state := b.states.get? o
  refund := b.refunds.get? o
  requests := (requested b.history).count o
  debits := (debited b.history).count o
  refunds := (refunded b.history).count o
  claims := (claimed b.history).count o

/-- Where a withdrawal stands. -/
inductive Condition
  | waiting
  | paid
  | refunded
deriving DecidableEq

def WithdrawalState.condition : WithdrawalState → Condition
  | .queued | .signing _ | .submitted _ => .waiting
  | .confirmed _ => .paid
  | .failed _ => .refunded

/-- What the rows and counters of a withdrawal in this condition are. -/
def View.Meets (v : View) : Condition → Prop
  | .waiting => v.requests = 1 ∧ (∃ w, v.row = some w) ∧
      (∃ s, v.state = some s ∧ s.condition = .waiting) ∧ v.refund = none ∧
      v.debits = 0 ∧ v.refunds = 0 ∧ v.claims = 0
  | .paid => v.requests = 1 ∧ v.row = none ∧ (∃ block, v.state = some (.confirmed block)) ∧
      v.refund = none ∧ v.debits = 1 ∧ v.refunds = 0 ∧ v.claims = 0
  | .refunded => v.requests = 1 ∧ v.row = none ∧ (∃ reason, v.state = some (.failed reason)) ∧
      v.debits = 0 ∧ v.refunds = 1 ∧
      ((∃ f, v.refund = some f) ∧ v.claims = 0 ∨ v.refund = none ∧ v.claims = 1)

/-- What a move can do to a withdrawal. -/
inductive View.Next (v : View) : View → Prop
  | same : Next v v
  | request (w : UsdtWithdrawalV0) :
      Next v { v with row := some w, state := some .queued, requests := v.requests + 1 }
  | mark {w : UsdtWithdrawalV0} {s : WithdrawalState} (hrow : v.row = some w)
      (hopen : s.condition = .waiting) : Next v { v with state := some s }
  | pay {w : UsdtWithdrawalV0} {block : Nat} (hrow : v.row = some w) :
      Next v { v with row := none, state := some (.confirmed block), debits := v.debits + 1 }
  | refund {w : UsdtWithdrawalV0} {reason : String} {f : Refund} (hrow : v.row = some w) :
      Next v { v with
        row := none, state := some (.failed reason), refund := some f, refunds := v.refunds + 1 }
  | claim {f : Refund} (hrefund : v.refund = some f) :
      Next v { v with refund := none, claims := v.claims + 1 }

variable {v v' : View}

/-- Only a waiting withdrawal has a row. -/
theorem View.Meets.waiting_of_row {c : Condition} {w : UsdtWithdrawalV0} (h : v.Meets c)
    (hrow : v.row = some w) : v.Meets .waiting := by
  cases c with
  | waiting => exact h
  | paid | refunded =>
    obtain ⟨-, hnone, -⟩ := h
    rw [hnone] at hrow
    cases hrow

/-- Only a refunded withdrawal has a refund. -/
theorem View.Meets.refunded_of_refund {c : Condition} {f : Refund} (h : v.Meets c)
    (hrefund : v.refund = some f) : v.Meets .refunded := by
  cases c with
  | refunded => exact h
  | waiting | paid =>
    obtain ⟨-, -, -, hnone, -⟩ := h
    rw [hnone] at hrefund
    cases hrefund

theorem View.Meets.requests {c : Condition} (h : v.Meets c) : v.requests = 1 := by
  cases c <;> exact h.1

theorem View.Meets.state {c : Condition} (h : v.Meets c) :
    ∃ s, v.state = some s ∧ s.condition = c := by
  cases c with
  | waiting => exact h.2.2.1
  | paid =>
    obtain ⟨-, -, ⟨block, hs⟩, -⟩ := h
    exact ⟨_, hs, rfl⟩
  | refunded =>
    obtain ⟨-, -, ⟨reason, hs⟩, -⟩ := h
    exact ⟨_, hs, rfl⟩

/-- A withdrawal meets one condition only: the states differ. -/
theorem View.Meets.unique {c c' : Condition} (h : v.Meets c) (h' : v.Meets c') : c = c' := by
  obtain ⟨s, hs, rfl⟩ := h.state
  obtain ⟨s', hs', rfl⟩ := h'.state
  rw [Option.some.inj (hs.symm.trans hs')]

/-- Never queued, or in one of the conditions. -/
def View.Valid (v : View) : Prop := v = .blank ∨ ∃ c, v.Meets c

theorem View.Valid.waiting {w : UsdtWithdrawalV0} (h : v.Valid) (hrow : v.row = some w) :
    v.Meets .waiting := by
  rcases h with rfl | ⟨c, hc⟩
  · cases hrow
  · exact hc.waiting_of_row hrow

theorem View.Valid.refunded {f : Refund} (h : v.Valid) (hrefund : v.refund = some f) :
    v.Meets .refunded := by
  rcases h with rfl | ⟨c, hc⟩
  · cases hrefund
  · exact hc.refunded_of_refund hrefund

/-- A move keeps a withdrawal that is not queued twice in one of the conditions. -/
theorem View.Next.valid (h : v.Next v') (hv : v.Valid) (honce : v'.requests ≤ 1) : v'.Valid := by
  cases h with
  | same => exact hv
  | request w =>
    rcases hv with rfl | ⟨c, hc⟩
    · exact .inr ⟨.waiting, rfl, ⟨w, rfl⟩, ⟨_, rfl, rfl⟩, rfl, rfl, rfl, rfl⟩
    · have := hc.requests
      simp only at honce
      omega
  | mark hrow hopen =>
    obtain ⟨hq, hw, -, hrest⟩ := hv.waiting hrow
    exact .inr ⟨.waiting, hq, hw, ⟨_, rfl, hopen⟩, hrest⟩
  | pay hrow =>
    obtain ⟨hq, -, -, hf, hd, hrest⟩ := hv.waiting hrow
    exact .inr ⟨.paid, hq, rfl, ⟨_, rfl⟩, hf, congrArg (· + 1) hd, hrest⟩
  | refund hrow =>
    obtain ⟨hq, -, -, -, hd, hf, hc⟩ := hv.waiting hrow
    exact .inr ⟨.refunded, hq, rfl, ⟨_, rfl⟩, hd, congrArg (· + 1) hf, .inl ⟨⟨_, rfl⟩, hc⟩⟩
  | claim hrefund =>
    obtain ⟨hq, hr, hs, hd, hf, hc | hc⟩ := hv.refunded hrefund
    · exact .inr ⟨.refunded, hq, hr, hs, hd, hf, .inr ⟨rfl, congrArg (· + 1) hc.2⟩⟩
    · rw [hc.1] at hrefund
      cases hrefund

/-- **A paid or refunded withdrawal stays so.** -/
theorem View.Next.final (h : v.Next v') {c : Condition} (hc : c ≠ .waiting) (hm : v.Meets c)
    (honce : v'.requests ≤ 1) : v'.Meets c := by
  have hrow : ∀ w, v.row ≠ some w := fun w hw => hc (hm.unique (hm.waiting_of_row hw))
  cases h with
  | same => exact hm
  | request w =>
    have := hm.requests
    simp only at honce
    omega
  | mark hw _ | pay hw | refund hw => exact absurd hw (hrow _)
  | claim hrefund =>
    obtain rfl := hm.unique (hm.refunded_of_refund hrefund)
    -- the refund is still there, so it has not been claimed
    obtain ⟨hq, hr, hs, hd, hf, hc | hc⟩ := hm
    · exact ⟨hq, hr, hs, hd, hf, .inr ⟨rfl, congrArg (· + 1) hc.2⟩⟩
    · rw [hc.1] at hrefund
      cases hrefund

/-! ## What a move does to a withdrawal -/

variable {u : Usdt} {b b' : Books}

theorem count_of_nodup {outpoints : List OutPoint} (h : outpoints.Nodup) {o : OutPoint} :
    outpoints.count o = if o ∈ outpoints then 1 else 0 := by
  split_ifs with ho
  · exact List.count_eq_one_of_mem h ho
  · exact List.count_eq_zero_of_not_mem ho

/-- Offering an operation marks the waiting withdrawals it covers. -/
theorem Books.offer_view_next {h : Hash} {op : UnsignedUserOp} {p : UserOpPurpose} {block : Nat}
    (hrows : ∀ outpoints, p = .withdraw outpoints →
      ∀ o ∈ outpoints, ∃ w, b.unclaimed.get? o = some w) (o : OutPoint) :
    (b.view o).Next ((b.offer h op p block).view o) := by
  cases p with
  | withdraw outpoints =>
    have hstate : (b.offer h op (.withdraw outpoints) block).view o =
        { b.view o with state := (b.states.insertAll outpoints (.signing h)).get? o } := rfl
    rw [hstate, Table.get?_insertAll]
    split_ifs with ho
    · obtain ⟨w, hw⟩ := hrows outpoints rfl o ho
      exact .mark (s := .signing h) hw rfl
    · exact .same
  | deployAndSweep a => exact .same
  | recoverResidual a => exact .same
  | withdrawFees r a => exact .same

theorem Offer.rows {op : UnsignedUserOp} {p : UserOpPurpose} (h : Offer u b op p)
    (outpoints : List OutPoint) (hp : p = .withdraw outpoints) :
    ∀ o ∈ outpoints, ∃ w, b.unclaimed.get? o = some w := by
  cases h with
  | batch _ _ hqueued _ =>
    cases hp
    intro o ho
    obtain ⟨q, hq, rfl⟩ := List.mem_map.1 ho
    exact ⟨q.2, (hqueued q hq).1⟩
  | sweep | recovery | fees => cases hp

theorem Event.payout_reverted (op : UnsignedUserOp) (p : UserOpPurpose) (m : UsdtAmount) :
    (Event.userOpConfirmed op p false m).payout = none := by
  cases p <;> rfl

theorem Event.payout_deposit {op : UnsignedUserOp} {p : UserOpPurpose} {success : Bool}
    {m : UsdtAmount} {a : EvmAddress} (h : p.lane = .deposit a) :
    (Event.userOpConfirmed op p success m).payout = none := by
  cases p <;> first | rfl | cases h

theorem Event.debited_of_payout {e : Event} (h : e.payout = none) : e.debited = [] := by
  rw [Event.debited, h, Option.map_none, Option.getD_none]

/-- A confirmation that pays no withdrawal leaves the views alone. -/
theorem Books.view_next_of_confirmed {op : UnsignedUserOp} {p : UserOpPurpose} {success : Bool}
    {m : UsdtAmount} {records : Table EvmAddress DepositRecord} {pool : PoolState}
    (hpayout : (Event.userOpConfirmed op p success m).payout = none) (o : OutPoint) :
    (b.view o).Next (Books.view { b with
      records := records
      pool := pool
      history := .userOpConfirmed op p success m :: b.history } o) := by
  show (b.view o).Next { b.view o with debits := (Event.debited _ ++ debited b.history).count o }
  rw [Event.debited_of_payout hpayout]
  exact .same

/-- A settlement pays, marks or refunds waiting withdrawals. -/
theorem Settle.view_next {s : SubmittedUserOp} {share : UsdtAmount} {success : Bool}
    (h : Settle b s share success b')
    (hrows : ∀ outpoints, s.purpose = .withdraw outpoints →
      outpoints.Nodup ∧ ∀ o ∈ outpoints, ∃ w, b.unclaimed.get? o = some w) (o : OutPoint) :
    (b.view o).Next (b'.view o) := by
  cases h with
  | swept hpurpose _ _ =>
    have hlane : s.purpose.lane = _ := congrArg UserOpPurpose.lane hpurpose
    exact view_next_of_confirmed (Event.payout_deposit hlane) o
  | spent hlane _ _ =>
    exact view_next_of_confirmed (Event.payout_deposit hlane) o
  | @paid outpoints t block hpurpose _ =>
    obtain ⟨hnodup, hopen⟩ := hrows outpoints hpurpose
    rw [hpurpose]
    show (b.view o).Next { b.view o with
      row := (b.unclaimed.eraseAll outpoints).get? o
      state := (b.states.insertAll outpoints (.confirmed block)).get? o
      debits := (outpoints ++ debited b.history).count o }
    rw [Table.get?_eraseAll, Table.get?_insertAll, List.count_append, count_of_nodup hnodup]
    split_ifs with ho
    · obtain ⟨w, hw⟩ := hopen o ho
      rw [Nat.add_comm]
      exact .pay hw
    · rw [Nat.zero_add]
      exact .same
  | @requeued outpoints incurred hpurpose =>
    obtain ⟨-, hopen⟩ := hrows outpoints hpurpose
    show (b.view o).Next { b.view o with
      state := (b.states.insertAll outpoints .queued).get? o
      debits := (Event.debited _ ++ debited b.history).count o }
    rw [Event.debited_of_payout (Event.payout_reverted _ _ _), Table.get?_insertAll, List.nil_append]
    split_ifs with ho
    · obtain ⟨w, hw⟩ := hopen o ho
      exact .mark (s := .queued) hw rfl
    · exact .same
  | @isolated o' w charge reason hpurpose hopen _ =>
    -- the event of the refund comes on top of the confirmation
    show (b.view o).Next { b.view o with
      row := (b.unclaimed.erase o').get? o
      state := (b.states.insert o' (.failed reason)).get? o
      refund := (b.refunds.insert o' _).get? o
      debits := (Event.debited _ ++ debited b.history).count o
      refunds := (o' :: refunded b.history).count o }
    rw [Event.debited_of_payout (Event.payout_reverted _ _ _), Table.get?_insert,
      Table.get?_insert, Table.get?_erase, List.nil_append, List.count_cons]
    by_cases ho : o' = o
    · subst ho
      simp only [if_true, beq_self_eq_true]
      exact .refund hopen
    · simp only [ho, Ne.symm ho, if_false, beq_iff_eq, Nat.add_zero]
      exact .same
  | abandoned hpurpose hgone =>
    obtain ⟨w, hw⟩ := (hrows _ hpurpose).2 _ List.mem_cons_self
    rw [hgone] at hw
    cases hw
  | feesPaid hpurpose _ =>
    exact view_next_of_confirmed (by rw [hpurpose]; rfl) o
  | feesReverted hpurpose =>
    exact view_next_of_confirmed (Event.payout_reverted _ _ _) o

theorem Move.view_next (h : Move u b b') (hp : PayloadInv b)
    (hnodup : (requested b'.history).Nodup) (o : OutPoint) : (b.view o).Next (b'.view o) := by
  have hbatch := hp.batch (h.requested_sub hnodup)
  cases h with
  | credit => exact .same
  | @request o' w =>
    show (b.view o).Next { b.view o with
      row := (b.unclaimed.insert o' w).get? o
      state := (b.states.insert o' .queued).get? o
      requests := (o' :: requested b.history).count o }
    rw [Table.get?_insert, Table.get?_insert, List.count_cons]
    by_cases ho : o' = o
    · subst ho
      simp only [if_true, beq_self_eq_true]
      exact .request w
    · simp only [ho, if_false, beq_iff_eq, Nat.add_zero]
      exact .same
  | @claim o' f hrefund =>
    show (b.view o).Next { b.view o with
      refund := (b.refunds.erase o').get? o
      claims := (o' :: claimed b.history).count o }
    rw [Table.get?_erase, List.count_cons]
    by_cases ho : o' = o
    · subst ho
      simp only [if_true, beq_self_eq_true]
      exact .claim hrefund
    · simp only [ho, Ne.symm ho, if_false, beq_iff_eq, Nat.add_zero]
      exact .same
  | offer hoffered =>
    obtain ⟨op, p, block, hoffer, -, rfl⟩ := hoffered
    exact offer_view_next hoffer.rows o
  | @replace h s op block hs _ _ _ =>
    -- the replaced operation covers waiting withdrawals, and the replacement covers the same
    have hnext : (b.view o).Next ((b.offer (u.opHash op) op s.purpose block).view o) :=
      offer_view_next
        (fun outpoints hpurpose => (hbatch _ _ _ _ (hpurpose ▸ InFlight.submitted hs)).2.1) o
    exact hnext
  | finalize hpending => exact .same
  | settle hs hsettle =>
    refine hsettle.view_next ?_ o
    intro outpoints hpurpose
    have hrow := hbatch _ _ _ _ (hpurpose ▸ InFlight.submitted hs)
    exact ⟨hrow.1, hrow.2.1⟩

/-- Every withdrawal of every reachable database stands in one of the conditions. -/
def ViewInv (b : Books) : Prop := (requested b.history).Nodup → ∀ o, (b.view o).Valid

theorem Move.viewInv (h : Move u b b') (hp : PayloadInv b) (hv : ViewInv b) : ViewInv b' :=
  fun hnodup o => (h.view_next hp hnodup o).valid (hv (h.requested_sub hnodup) o)
    (List.nodup_iff_count_le_one.1 hnodup o)

theorem run_viewInv {db : Db} {tr : List (Item × Answer)}
    (run : Run (Accepts u) Db.empty tr db) : ViewInv (u.books db) := by
  have hboth : PayloadInv (u.books db) ∧ ViewInv (u.books db) :=
    run_books (P := fun b => PayloadInv b ∧ ViewInv b)
      ⟨payloadInv_empty u, fun _ _ => .inl rfl⟩
      (fun _ _ hinv hb hm => ⟨hm.payloadInv hinv hb.1, hm.viewInv hb.1 hb.2⟩) run
  exact hboth.2

/-- A paid or refunded withdrawal stays so for the rest of a run. -/
theorem run_final {db db' : Db} {tr : List (Item × Answer)} (hchain : ChainInv u (u.books db))
    (hp : PayloadInv (u.books db)) {o : OutPoint} {c : Condition} (hc : c ≠ .waiting)
    (hm : ((u.books db).view o).Meets c) (run : Run (Accepts u) db tr db')
    (hnodup : (requested db'.history).Nodup) : ((u.books db').view o).Meets c := by
  have hboth : PayloadInv (u.books db') ∧
      ((requested db'.history).Nodup → ((u.books db').view o).Meets c) := by
    refine run_books_from (P := fun b => PayloadInv b ∧
      ((requested b.history).Nodup → (b.view o).Meets c)) hchain ⟨hp, fun _ => hm⟩ ?_ run
    intro b b' hinv hb hmove
    refine ⟨hmove.payloadInv hinv hb.1, ?_⟩
    intro hn
    exact (hmove.view_next hb.1 hn o).final hc (hb.2 (hmove.requested_sub hn))
      (List.nodup_iff_count_le_one.1 hn o)
  exact hboth.2 hnodup

/-! ## What the pool was debited -/

/-- Pool balance after an event, with the module's saturating operations. -/
def Event.balance (balance : UsdtAmount) : Event → UsdtAmount
  | .userOpConfirmed _ (.deployAndSweep _) true m => U64.satAdd balance m
  | .userOpConfirmed _ (.withdraw _) true m => U64.satSub balance m
  | .userOpConfirmed _ (.withdrawFees _ _) true m => U64.satSub balance m
  | _ => balance

/-- Pool balance a history leads to. -/
def balanceAfter : List Event → UsdtAmount
  | [] => U64.zero
  | e :: rest => e.balance (balanceAfter rest)

/-- Amount a withdrawal was queued with. -/
def queuedAmount (o : OutPoint) : List Event → Nat
  | [] => 0
  | .withdrawalQueued o' amount _ :: rest => if o' = o then amount.raw else queuedAmount o rest
  | _ :: rest => queuedAmount o rest

/-- Every batch took from the pool the amounts its withdrawals were queued with, and the pool held
them. -/
def PaidInFull : List Event → Prop
  | [] => True
  | e :: rest =>
    (∀ outpoints t, e.payout = some (outpoints, t) →
      t.raw = (outpoints.map fun o => queuedAmount o rest).sum ∧
        t.raw ≤ (balanceAfter rest).raw) ∧
      PaidInFull rest

theorem PaidInFull.cons {e : Event} {rest : List Event} (h : PaidInFull rest)
    (he : e.payout = none) : PaidInFull (e :: rest) :=
  ⟨fun _ _ hpayout => absurd (he.symm.trans hpayout) nofun, h⟩

theorem queuedAmount_eq {history : List Event} {o : OutPoint} {amount maxFee : UsdtAmount}
    (hnodup : (requested history).Nodup) (h : .withdrawalQueued o amount maxFee ∈ history) :
    queuedAmount o history = amount.raw := by
  induction history with
  | nil => cases h
  | cons e rest ih =>
    rcases List.mem_cons.1 h with rfl | hrest
    · exact if_pos rfl
    · cases e with
      | withdrawalQueued o' amount' maxFee' =>
        obtain ⟨hfresh, hnodup⟩ := List.nodup_cons.1 hnodup
        have hne : o' ≠ o := fun he => hfresh (he ▸ mem_requested hrest)
        rw [queuedAmount, if_neg hne]
        exact ih hnodup hrest
      | depositCredited | refundClaimed | userOpEnqueued | userOpFinalized | userOpConfirmed
      | withdrawalFailed => exact ih hnodup hrest

/-- The waiting withdrawals still ask for what they were queued with. -/
theorem OpenInv.amountsAt (hopen : OpenInv b) (hnodup : (requested b.history).Nodup)
    {outpoints : List OutPoint} (hrows : ∀ o ∈ outpoints, ∃ w, b.unclaimed.get? o = some w) :
    b.amountsAt outpoints = (outpoints.map fun o => queuedAmount o b.history).sum := by
  refine congrArg List.sum (List.map_congr_left ?_)
  intro o ho
  obtain ⟨w, hw⟩ := hrows o ho
  rw [hw, queuedAmount_eq hnodup (hopen o w hw), Option.map_some, Option.getD_some]

structure DebitInv (b : Books) : Prop where
  balance : b.pool.balance = balanceAfter b.history
  full : (requested b.history).Nodup → PaidInFull b.history

theorem Event.balance_reverted (balance : UsdtAmount) (op : UnsignedUserOp) (p : UserOpPurpose)
    (m : UsdtAmount) : (Event.userOpConfirmed op p false m).balance balance = balance := by
  cases p <;> rfl

theorem Event.balance_spent {balance m : UsdtAmount} {op : UnsignedUserOp} {p : UserOpPurpose}
    {success : Bool} {a : EvmAddress} (hlane : p.lane = .deposit a)
    (hsweep : p = .deployAndSweep a → success = false) :
    (Event.userOpConfirmed op p success m).balance balance = balance := by
  cases p with
  | deployAndSweep a' =>
    cases hlane
    rw [hsweep rfl]
    rfl
  | recoverResidual a' => rfl
  | withdraw | withdrawFees => cases hlane

theorem Settle.debitInv {h : Hash} {s : SubmittedUserOp} {share : UsdtAmount} {success : Bool}
    (hsettle : Settle b s share success b') (hs : b.submitted.get? h = some s)
    (hp : PayloadInv b) (hd : DebitInv b) (hsub : (requested b'.history).Nodup →
      (requested b.history).Nodup) : DebitInv b' := by
  have hfull := fun hn => hd.full (hsub hn)
  cases hsettle with
  | swept hpurpose _ _ =>
    rw [hpurpose] at hfull ⊢
    exact ⟨congrArg (U64.satAdd · _) hd.balance, fun hn => (hfull hn).cons rfl⟩
  | spent hlane _ hsweep =>
    exact ⟨hd.balance.trans (Event.balance_spent hlane hsweep).symm,
      fun hn => (hfull hn).cons (Event.payout_deposit hlane)⟩
  | @paid outpoints t block hpurpose hcall =>
    rw [hpurpose] at hfull ⊢
    refine ⟨congrArg (U64.satSub · _) hd.balance, fun hn => ⟨?_, hfull hn⟩⟩
    intro outpoints' t' hpayout
    cases hpayout
    obtain ⟨-, hrows, htotal⟩ := hp.batch (hsub hn) _ _ _ _ (hpurpose ▸ InFlight.submitted hs)
    obtain ⟨hsum, hle⟩ := htotal t hcall
    rw [← hp.opened.amountsAt (hsub hn) hrows, ← hd.balance]
    exact ⟨hsum, hle⟩
  | requeued hpurpose | abandoned hpurpose _ | feesReverted hpurpose =>
    exact ⟨hd.balance.trans (Event.balance_reverted _ _ _ _).symm,
      fun hn => (hfull hn).cons (Event.payout_reverted _ _ _)⟩
  | isolated hpurpose _ _ =>
    exact ⟨hd.balance.trans (Event.balance_reverted _ _ _ _).symm,
      fun hn => ((hfull hn).cons (Event.payout_reverted _ _ _)).cons rfl⟩
  | feesPaid hpurpose _ =>
    rw [hpurpose] at hfull ⊢
    exact ⟨congrArg (U64.satSub · _) hd.balance, fun hn => (hfull hn).cons rfl⟩

theorem Move.debitInv (h : Move u b b') (hp : PayloadInv b) (hd : DebitInv b) : DebitInv b' := by
  have hsub := h.requested_sub
  cases h with
  | settle hs hsettle =>
    have hd' := hsettle.debitInv hs hp hd hsub
    exact ⟨hd'.balance, hd'.full⟩
  | offer hoffered =>
    obtain ⟨op, p, block, -, -, rfl⟩ := hoffered
    exact ⟨hd.balance, fun hn => (hd.full (hsub hn)).cons rfl⟩
  | credit | request | claim | replace | finalize =>
    exact ⟨hd.balance, fun hn => (hd.full (hsub hn)).cons rfl⟩

theorem run_debitInv {db : Db} {tr : List (Item × Answer)}
    (run : Run (Accepts u) Db.empty tr db) : DebitInv (u.books db) := by
  have hboth : PayloadInv (u.books db) ∧ DebitInv (u.books db) :=
    run_books (P := fun b => PayloadInv b ∧ DebitInv b)
      ⟨payloadInv_empty u, rfl, fun _ => trivial⟩
      (fun _ _ hinv hb hm => ⟨hm.payloadInv hinv hb.1, hm.debitInv hb.1 hb.2⟩) run
  exact hboth.2

/-! ## Exactly once -/

theorem View.Valid.of_requested {v : View} (h : v.Valid) (hq : 0 < v.requests) :
    ∃ c, v.Meets c := by
  rcases h with rfl | hc
  · cases hq
  · exact hc

/-- **Every accepted withdrawal is settled once.**  In every state of a run it is waiting, paid or
refunded, and only one of these; it does not leave the last two in any continuation; one that ends
up paid never had a refund row; and a refund row goes away with one accepted claim.  Being debited
means what it says: the pool's balance is what the history of confirmations leads to, and each
batch took the exact amounts of the withdrawals it lists. -/
theorem withdrawal_settled_once {db db' : Db} {tr tr' : List (Item × Answer)}
    (run : Run (Accepts u) Db.empty tr db) (more : Run (Accepts u) db tr' db')
    (hdistinct : (acceptedOutPoints (tr' ++ tr)).Nodup) {o : OutPoint}
    (ho : o ∈ acceptedOutPoints tr) :
    (∃! c, ((u.books db).view o).Meets c) ∧
      (∀ c, c ≠ .waiting → ((u.books db).view o).Meets c → ((u.books db').view o).Meets c) ∧
      (((u.books db').view o).Meets .paid → db.refund.get? o = none) ∧
      ((u.books db).view o).claims = (acceptedClaims tr).count o ∧
      (u.pool db).balance = balanceAfter db.history ∧ PaidInFull db.history := by
  have hchain := run_chainInv run
  have hpayload := run_payloadInv run
  obtain ⟨-, hrequested, hclaimed, -⟩ := run_history run
  have hnodup' : (requested db'.history).Nodup := by
    rw [(run_history (run.append more)).2.1]
    exact hdistinct
  have hnodup : (requested db.history).Nodup := by
    rw [hrequested]
    rw [acceptedOutPoints, List.flatMap_append] at hdistinct
    exact hdistinct.of_append_right
  have hfinal : ∀ c, c ≠ .waiting → ((u.books db).view o).Meets c →
      ((u.books db').view o).Meets c := fun c hc hm =>
    run_final hchain hpayload hc hm more hnodup'
  have hcount : 0 < ((u.books db).view o).requests := by
    show 0 < (requested db.history).count o
    rw [hrequested]
    exact List.count_pos_iff.2 ho
  obtain ⟨c, hc⟩ := (run_viewInv run hnodup o).of_requested hcount
  refine ⟨⟨c, hc, fun c' hc' => hc'.unique hc⟩, hfinal, ?_, ?_,
    (run_debitInv run).balance, (run_debitInv run).full hnodup⟩
  · -- a refund row would be final, and the withdrawal would not be paid later
    intro hpaid
    cases hrefund : db.refund.get? o with
    | none => rfl
    | some f =>
      have hrefunded := hfinal .refunded (by simp) (hc.refunded_of_refund (f := f) hrefund)
      exact absurd (hrefunded.unique hpaid) (by simp)
  · rw [← hclaimed]
    rfl

theorem withdrawal_settled_once_sample :
    ∃ db db' tr tr', Run (Accepts sampleUsdt) Db.empty tr db ∧
      Run (Accepts sampleUsdt) db tr' db' ∧
      (∃! c, ((sampleUsdt.books db).view ⟨0, 0⟩).Meets c) ∧
      (((sampleUsdt.books db').view ⟨0, 0⟩).Meets .paid → db.refund.get? ⟨0, 0⟩ = none) := by
  obtain ⟨tr, db, run, hdb⟩ := Run.exists_of_exec sampleUsdt.step Db.empty
    Sample.funding
    (fun tr db =>
      decide (⟨0, 0⟩ ∈ acceptedOutPoints tr) &&
        (exec sampleUsdt.step [] db Sample.payout).any fun r =>
          decide (acceptedOutPoints (r.1 ++ tr)).Nodup)
    (by decide +kernel)
  rw [Bool.and_eq_true, decide_eq_true_eq] at hdb
  obtain ⟨tr', db', more, hnodup⟩ := Run.exists_of_exec sampleUsdt.step db
    Sample.payout (fun tr' _ => decide (acceptedOutPoints (tr' ++ tr)).Nodup) hdb.2
  have hall := withdrawal_settled_once run more (of_decide_eq_true hnodup) hdb.1
  exact ⟨db, db', tr, tr', run, more, hall.1, hall.2.2.1⟩

end Experimint.FedimintUsdt
