import Experimint.Usdt.InFlight
import Experimint.Usdt.Turns
import Experimint.Usdt.Withdrawals

/-!
# Isolation of a poisoned withdrawal

A batch that reverts on chain goes back to the queue with a cap of half its size on every member.
The cap belongs to the withdrawal, and a batch is cut to the smallest cap in its window, so a member
can only meet smaller batches from then on, whoever it is batched with.

* `Turn.fate` — what one turn does to one withdrawal: its cap, its row and its reverts.
* `CapInv` — the budget: a cap times two to the reverts stays within twenty.
* `poisoned_batch_isolation` — at most five reverts, the fifth at the latest alone.
-/

set_option autoImplicit false

namespace Experimint.FedimintUsdt

open Books

/-- Members of a reverted batch. -/
def Event.reverted : Event → List OutPoint
  | .userOpConfirmed _ (.withdraw outpoints) false _ => outpoints
  | _ => []

/-- Number of reverted batches a withdrawal took part in. -/
def revertsOf (history : List Event) (o : OutPoint) : Nat :=
  history.countP fun e => decide (o ∈ e.reverted)

theorem revertsOf_cons (e : Event) (history : List Event) (o : OutPoint) :
    revertsOf (e :: history) o = revertsOf history o + if o ∈ e.reverted then 1 else 0 := by
  simp only [revertsOf, List.countP_cons, decide_eq_true_eq]

theorem revertsOf_cons_of_nil {e : Event} (he : e.reverted = []) (history : List Event)
    (o : OutPoint) : revertsOf (e :: history) o = revertsOf history o := by
  simp [revertsOf_cons, he]

variable {u : Usdt} {d d' : Desk} {b b' : Books}

/-! ## What a turn does to one withdrawal -/

/-- Whether a withdrawal is in the books. -/
def Books.Open (b : Books) (o : OutPoint) : Prop := ∃ w, b.unclaimed.get? o = some w

/-- A confirmation counts as a revert for the members of a failed batch. -/
theorem Settle.reverts {s : SubmittedUserOp} {share : UsdtAmount} {success : Bool}
    (h : Settle b s share success b') (o : OutPoint) :
    revertsOf b'.history o =
      revertsOf b.history o + if success = false ∧ o ∈ s.purpose.covered then 1 else 0 := by
  have hrevert : ∀ {rest : List Event} {op : UnsignedUserOp} {m : UsdtAmount}
      {outpoints : List OutPoint}, s.purpose = .withdraw outpoints →
      revertsOf (.userOpConfirmed op s.purpose false m :: rest) o =
        revertsOf rest o + if false = false ∧ o ∈ s.purpose.covered then 1 else 0 := by
    intro rest op m outpoints hp
    by_cases ho : o ∈ outpoints <;> simp [revertsOf_cons, Event.reverted, UserOpPurpose.covered,
      hp, ho]
  cases h with
  | swept hpurpose _ _ => simp [revertsOf_cons, Event.reverted, hpurpose]
  | spent hlane _ _ =>
    cases hp : s.purpose with
    | withdraw _ | withdrawFees _ _ => rw [hp] at hlane; cases hlane
    | deployAndSweep _ | recoverResidual _ =>
      simp [revertsOf_cons, Event.reverted, UserOpPurpose.covered]
  | paid hpurpose _ => simp [revertsOf_cons, Event.reverted, hpurpose]
  | requeued hpurpose | abandoned hpurpose _ => exact hrevert hpurpose
  | isolated hpurpose _ _ => exact (revertsOf_cons_of_nil rfl _ o).trans (hrevert hpurpose)
  | feesPaid hpurpose _ => simp [revertsOf_cons, Event.reverted, hpurpose]
  | feesReverted hpurpose =>
    simp [revertsOf_cons, Event.reverted, hpurpose, UserOpPurpose.covered]

/-- A plain move reverts nothing. -/
theorem revertsOf_plain {e : Event} {history : List Event} (he : e.isPlain = true) (o : OutPoint) :
    revertsOf (e :: history) o = revertsOf history o := by
  refine revertsOf_cons_of_nil ?_ history o
  cases e with
  | userOpConfirmed => cases he
  | depositCredited | withdrawalQueued | refundClaimed | userOpEnqueued | userOpFinalized
  | withdrawalFailed => rfl

/-- What a turn does to one withdrawal. -/
inductive Fate (d d' : Desk) (o : OutPoint) : Prop
  | kept (hcap : d'.caps.get? o = d.caps.get? o) (hopen : d'.books.Open o → d.books.Open o)
      (hreverts : revertsOf d'.books.history o = revertsOf d.books.history o)
  | requested (hnew : o ∉ requested d.books.history)
      (hrequested : o ∈ FedimintUsdt.requested d'.books.history)
      (hcap : d'.caps.get? o = d.caps.get? o)
      (hreverts : revertsOf d'.books.history o = revertsOf d.books.history o)
  | paid (hopen : d.books.Open o) (hclosed : ¬ d'.books.Open o)
      (hreverts : revertsOf d'.books.history o = revertsOf d.books.history o)
  | split {k : Slot} {op : UnsignedUserOp} {outpoints : List OutPoint} {live : Bool}
      (hrow : d.books.InFlight k op (.withdraw outpoints) live) (hmem : o ∈ outpoints)
      (hseveral : 1 < outpoints.length) (hopen : d.books.Open o)
      (hcap : d'.caps.get? o = some (outpoints.length / 2))
      (hreverts : revertsOf d'.books.history o = revertsOf d.books.history o + 1)
  | alone {k : Slot} {op : UnsignedUserOp} {live : Bool} {f : Refund}
      (hrow : d.books.InFlight k op (.withdraw [o]) live) (hopen : d.books.Open o)
      (hclosed : ¬ d'.books.Open o) (hrefund : d'.books.refunds.get? o = some f)
      (hreverts : revertsOf d'.books.history o = revertsOf d.books.history o + 1)

/-- A plain move opens at most the withdrawal it requests. -/
theorem Move.fate {e : Event} (h : Move u d.books b') (hevent : b'.history = e :: d.books.history)
    (hplain : e.isPlain = true) (hnodup : (requested b'.history).Nodup) (o : OutPoint) :
    Fate d ⟨b', d.caps⟩ o := by
  have hreverts : revertsOf b'.history o = revertsOf d.books.history o := by
    rw [hevent]
    exact revertsOf_plain hplain o
  by_cases hopen : b'.Open o → d.books.Open o
  · exact .kept rfl hopen hreverts
  · cases h with
    | @request o' w =>
      by_cases ho : o' = o
      · subst ho
        exact .requested (List.nodup_cons.1 hnodup).1 List.mem_cons_self rfl hreverts
      · refine absurd (fun hw => ?_) hopen
        obtain ⟨w', hw⟩ := hw
        exact ⟨w', (Table.get?_insert_ne _ _ ho).symm.trans hw⟩
    | credit | claim | finalize => exact absurd id hopen
    | offer hoffered =>
      obtain ⟨_, _, _, -, -, rfl⟩ := hoffered
      exact absurd id hopen
    | replace => exact absurd id hopen
    | settle _ hsettle => cases hsettle <;> cases (List.cons.inj hevent).1 <;> cases hplain

/-- A confirmation of an operation that covers other withdrawals. -/
theorem Settle.fate_other {s : SubmittedUserOp} {share : UsdtAmount} {success : Bool} {h : Hash}
    {caps' : Table OutPoint Nat} (hsettle : Settle d.books s share success b')
    (hcaps : CapsSettled s.purpose success d.caps caps' b') {o : OutPoint}
    (ho : o ∉ s.purpose.covered) : Fate d ⟨b'.finish h s.signed.unsigned, caps'⟩ o := by
  have hreverts : revertsOf b'.history o = revertsOf d.books.history o := by
    rw [hsettle.reverts o, if_neg fun hc => ho hc.2, Nat.add_zero]
  refine .kept (hcaps.others o ho) ?_ hreverts
  rintro ⟨w, hw⟩
  have hw : b'.unclaimed.get? o = some w := hw
  cases hsettle with
  | paid hpurpose _ =>
    rw [hpurpose] at ho
    exact ⟨w, ((Table.get?_eraseAll _ _ _).trans (if_neg ho)).symm.trans hw⟩
  | isolated hpurpose _ _ =>
    exact ⟨w, (Table.get?_of_erase hw).2⟩
  | swept | spent | requeued | abandoned | feesPaid | feesReverted => exact ⟨w, hw⟩

/-- A confirmation of the batch a withdrawal is in. -/
theorem Settle.fate_member {s : SubmittedUserOp} {share : UsdtAmount} {success : Bool} {h : Hash}
    {caps' : Table OutPoint Nat} (hsubmitted : d.books.submitted.get? h = some s)
    (hsettle : Settle d.books s share success b')
    (hcaps : CapsSettled s.purpose success d.caps caps' b') {outpoints : List OutPoint}
    (hp : s.purpose = .withdraw outpoints) (hall : ∀ o ∈ outpoints, d.books.Open o) {o : OutPoint}
    (ho : o ∈ outpoints) : Fate d ⟨b'.finish h s.signed.unsigned, caps'⟩ o := by
  have hrow : d.books.InFlight (.submitted h) s.signed.unsigned (.withdraw outpoints)
      (!s.superseded) := hp ▸ .submitted hsubmitted
  have hcovered : s.purpose.covered = outpoints := by rw [hp]; rfl
  have hreverts := hsettle.reverts o
  rw [hcovered] at hreverts
  cases hsettle with
  | swept hpurpose | feesPaid hpurpose | feesReverted hpurpose => rw [hp] at hpurpose; cases hpurpose
  | spent hlane => rw [hp] at hlane; cases hlane
  | paid hpurpose _ =>
    obtain rfl := UserOpPurpose.withdraw.inj (hp.symm.trans hpurpose)
    refine .paid (hall o ho) ?_ (hreverts.trans (by simp))
    rintro ⟨w, hw⟩
    have hgone := (Table.get?_eraseAll d.books.unclaimed outpoints o).trans (if_pos ho)
    cases hgone.symm.trans hw
  | requeued _ =>
    by_cases hlen : 1 < outpoints.length
    · have hcap := hcaps.split rfl (hcovered.symm ▸ hlen) o (hcovered.symm ▸ ho)
      rw [hcovered] at hcap
      exact .split hrow ho hlen (hall o ho) hcap (hreverts.trans (by simp [ho]))
    · -- a single member would have left the books
      obtain rfl : outpoints = [o] := by
        rcases outpoints with _ | ⟨o', _ | ⟨_, _⟩⟩
        · cases ho
        · rw [List.mem_singleton.1 ho]
        · simp at hlen
      obtain ⟨w, hw⟩ := hall o ho
      cases hw.symm.trans (hcaps.single rfl o hcovered)
  | @isolated o' w charge reason hpurpose hopen _ =>
    obtain rfl := UserOpPurpose.withdraw.inj (hp.symm.trans hpurpose)
    obtain rfl := List.mem_singleton.1 ho
    refine .alone hrow (hall o ho) ?_ (Table.get?_insert_self _ _ _) (hreverts.trans (by simp))
    rintro ⟨w', hw'⟩
    cases (Table.get?_erase_self d.books.unclaimed o).symm.trans hw'
  | @abandoned o' _ _ hpurpose hgone =>
    obtain rfl := UserOpPurpose.withdraw.inj (hp.symm.trans hpurpose)
    obtain rfl := List.mem_singleton.1 ho
    obtain ⟨w, hw⟩ := hall o ho
    cases hw.symm.trans hgone

/-- **One withdrawal, one turn.** -/
theorem Turn.fate (h : Turn u d d') (hb : BooksInv u d.books)
    (hnodup : (requested d'.books.history).Nodup) (o : OutPoint) : Fate d d' o := by
  have hnodup₀ := h.move.requested_sub hnodup
  cases h with
  | plain hmove hevent hplain => exact hmove.fate hevent hplain hnodup o
  | built | replaced => exact .kept rfl id (revertsOf_cons_of_nil rfl _ o)
  | @settled b' h s share success caps' hsubmitted hsettle hcaps =>
    by_cases ho : o ∈ s.purpose.covered
    · cases hp : s.purpose with
      | withdraw outpoints =>
        have hrow : d.books.InFlight (.submitted h) s.signed.unsigned (.withdraw outpoints)
            (!s.superseded) := hp ▸ .submitted hsubmitted
        rw [hp] at ho
        exact hsettle.fate_member hsubmitted hcaps hp
          (hb.payload.batch hnodup₀ _ _ _ _ hrow).2.1 ho
      | deployAndSweep _ | recoverResidual _ | withdrawFees _ _ => rw [hp] at ho; cases ho
    · exact hsettle.fate_other hcaps ho

/-! ## The budget -/

/-- Every batch in flight is within the caps of its members. -/
def FitInv (d : Desk) : Prop :=
  ∀ {k op outpoints live}, d.books.InFlight k op (.withdraw outpoints) live →
    ∀ o ∈ outpoints, outpoints.length ≤ d.capOf o

/-- Caps of the pool's operations outlive every turn that leaves one in flight. -/
theorem Turn.caps_of_row (h : Turn u d d') (hb : BooksInv u d.books) {k : Slot}
    {op : UnsignedUserOp} {p : UserOpPurpose} {live : Bool} (hf : d'.books.InFlight k op p live)
    (hp : p.lane = .pool) (o : OutPoint) : d'.capOf o = d.capOf o := by
  cases h with
  | plain | built | replaced => rfl
  | @settled b' h s share success caps' hsubmitted hsettle hcaps =>
    -- the settled operation is another lane's, and covers no withdrawal
    have hframe := hsettle.frame
    have hlane := hb.chain.idle_finish hsubmitted hframe.pending hframe.submitted _ _ _ _ hf
    have hnone : o ∉ s.purpose.covered := by
      cases hs : s.purpose with
      | withdraw _ | withdrawFees _ _ => rw [hs, hp] at hlane; exact absurd rfl hlane
      | deployAndSweep _ | recoverResidual _ => simp [UserOpPurpose.covered]
    exact congrArg (·.getD BATCH_MAX_ITEMS) (hcaps.others o hnone)

theorem Turn.fitInv (h : Turn u d d') (hb : BooksInv u d.books) (hfit : FitInv d) : FitInv d' := by
  intro k op outpoints live hf o ho
  rw [h.caps_of_row hb hf rfl]
  rcases h.row_cases hf with
    ⟨k₀, live₀, hrow, -⟩ | ⟨hbuilt, -, -⟩ | ⟨_, s, median, hs, -, -, -, hp, -, -⟩
  · exact hfit hrow o ho
  · cases hbuilt with
    | batch hcaps =>
      obtain ⟨q, hq, rfl⟩ := List.mem_map.1 ho
      rw [List.length_map]
      exact hcaps q hq
  · have hrow : d.books.InFlight (.submitted _) _ s.purpose _ := .submitted hs
    rw [← hp] at hrow
    exact hfit hrow o ho

/-- Caps against reverts: while a withdrawal is open its cap halves with each of them. -/
structure Budget (d : Desk) : Prop where
  fresh : ∀ o, o ∉ requested d.books.history →
    d.caps.get? o = none ∧ revertsOf d.books.history o = 0
  open_ : ∀ o, d.books.Open o →
    1 ≤ d.capOf o ∧ d.capOf o * 2 ^ revertsOf d.books.history o ≤ BATCH_MAX_ITEMS
  refunded : ∀ o, revertsOf d.books.history o = 5 → (d.books.view o).Meets .refunded
  bound : ∀ o, revertsOf d.books.history o ≤ 5

/-- An open withdrawal has reverted at most four times. -/
theorem Budget.reverts_le {o : OutPoint} (hbudget : Budget d) (ho : d.books.Open o) :
    revertsOf d.books.history o ≤ 4 := by
  obtain ⟨hone, hle⟩ := hbudget.open_ o ho
  by_contra hlt
  have hpow : 2 ^ 5 ≤ 2 ^ revertsOf d.books.history o := Nat.pow_le_pow_right (by omega) (by omega)
  have hmul := Nat.le_mul_of_pos_left (2 ^ revertsOf d.books.history o) hone
  unfold BATCH_MAX_ITEMS at hle
  omega

/-- In its fifth reverted batch a withdrawal is alone. -/
theorem Budget.alone {k : Slot} {op : UnsignedUserOp} {outpoints : List OutPoint} {live : Bool}
    {o : OutPoint} (hbudget : Budget d) (hfit : FitInv d) (hopen : d.books.Open o)
    (hrow : d.books.InFlight k op (.withdraw outpoints) live) (ho : o ∈ outpoints)
    (hfour : revertsOf d.books.history o = 4) : outpoints = [o] := by
  have hlen := hfit hrow o ho
  obtain ⟨-, hle⟩ := hbudget.open_ o hopen
  rw [hfour] at hle
  unfold BATCH_MAX_ITEMS at hle
  obtain ⟨o', rfl⟩ : ∃ o', outpoints = [o'] := by
    refine List.length_eq_one_iff.1 ?_
    have := List.length_pos_of_mem ho
    omega
  rw [List.mem_singleton.1 ho]

/-- The budget of an open withdrawal after a turn. -/
theorem Fate.open_budget {o : OutPoint} (hfate : Fate d d' o) (hfit : FitInv d)
    (hbudget : Budget d) (hopen' : d'.books.Open o) :
    1 ≤ d'.capOf o ∧ d'.capOf o * 2 ^ revertsOf d'.books.history o ≤ BATCH_MAX_ITEMS := by
  cases hfate with
  | kept hcap hopen hreverts =>
    rw [hreverts, Desk.capOf, hcap]
    exact hbudget.open_ o (hopen hopen')
  | requested hnew _ hcap hreverts =>
    obtain ⟨hnone, hzero⟩ := hbudget.fresh o hnew
    rw [hreverts, hzero, Desk.capOf, hcap, hnone]
    decide
  | paid _ hclosed | alone _ _ hclosed => exact absurd hopen' hclosed
  | @split k op outpoints live hrow hmem hseveral hopen hcap hreverts =>
    have hcap : d'.capOf o = outpoints.length / 2 := by rw [Desk.capOf, hcap]; rfl
    have hlen := hfit hrow o hmem
    rw [hcap, hreverts]
    refine ⟨by omega, ?_⟩
    calc outpoints.length / 2 * 2 ^ (revertsOf d.books.history o + 1)
        = outpoints.length / 2 * 2 * 2 ^ revertsOf d.books.history o := by
          rw [Nat.pow_succ, Nat.mul_assoc, Nat.mul_comm 2]
      _ ≤ d.capOf o * 2 ^ revertsOf d.books.history o :=
          Nat.mul_le_mul_right _ (by omega)
      _ ≤ BATCH_MAX_ITEMS := (hbudget.open_ o hopen).2

/-- A turn that brings a withdrawal to five reverts refunds it. -/
theorem Fate.refunded {o : OutPoint} (hfate : Fate d d' o) (hfit : FitInv d) (hbudget : Budget d)
    (hvalid : (d'.books.view o).Valid)
    (hfinal : (d.books.view o).Meets .refunded → (d'.books.view o).Meets .refunded)
    (hfive : revertsOf d'.books.history o = 5) : (d'.books.view o).Meets .refunded := by
  cases hfate with
  | kept _ _ hreverts | requested _ _ _ hreverts | paid _ _ hreverts =>
    exact hfinal (hbudget.refunded o (hreverts.symm.trans hfive))
  | split hrow hmem hseveral hopen _ hreverts =>
    rw [hbudget.alone hfit hopen hrow hmem (by omega)] at hseveral
    simp at hseveral
  | alone _ _ _ hrefund _ => exact hvalid.refunded hrefund

theorem Move.requested_mono (h : Move u b b') {o : OutPoint} (ho : o ∈ requested b.history) :
    o ∈ requested b'.history := by
  obtain ⟨e, he, hr⟩ := List.mem_filterMap.1 ho
  exact List.mem_filterMap.2 ⟨e, h.history_sub e he, hr⟩

theorem Turn.budget (h : Turn u d d') (hb : BooksInv u d.books) (hview : ViewInv d.books)
    (hfit : FitInv d) (hbudget : Budget d) (hnodup : (requested d'.books.history).Nodup) :
    Budget d' where
  fresh o ho := by
    have ho₀ : o ∉ requested d.books.history := fun hmem => ho (h.move.requested_mono hmem)
    obtain ⟨hnone, hzero⟩ := hbudget.fresh o ho₀
    have hclosed : ¬ d.books.Open o := fun ⟨w, hw⟩ =>
      ho₀ (mem_requested (hb.payload.opened o w hw))
    cases h.fate hb hnodup o with
    | kept hcap _ hreverts => exact ⟨hcap.trans hnone, hreverts.trans hzero⟩
    | requested _ hrequested _ _ => exact absurd hrequested ho
    | paid hopen | split _ _ _ hopen | alone _ hopen => exact absurd hopen hclosed
  open_ o hopen := (h.fate hb hnodup o).open_budget hfit hbudget hopen
  refunded o hfive := by
    have honce := List.nodup_iff_count_le_one.1 hnodup o
    have hnext := h.move.view_next hb.payload hnodup o
    refine (h.fate hb hnodup o).refunded hfit hbudget
      (hnext.valid (hview (h.move.requested_sub hnodup) o) honce) ?_ hfive
    exact fun hm => hnext.final (by simp) hm honce
  bound o := by
    have hle := hbudget.bound o
    cases h.fate hb hnodup o with
    | kept _ _ hreverts | requested _ _ _ hreverts | paid _ _ hreverts => omega
    | split _ _ _ hopen _ hreverts | alone _ hopen _ _ hreverts =>
      have := hbudget.reverts_le hopen
      omega

/-! ## Runs -/

/-- What is carried along a run; the budget needs distinct out points. -/
structure IsolationInv (d : Desk) : Prop where
  view : ViewInv d.books
  fit : FitInv d
  budget : (requested d.books.history).Nodup → Budget d

theorem isolationInv_empty (u : Usdt) : IsolationInv (u.desk Db.empty) where
  view _ _ := .inl rfl
  fit hf := absurd hf not_inFlight_empty
  budget _ :=
    { fresh _ _ := ⟨rfl, rfl⟩
      open_ _ hopen := by obtain ⟨_, hw⟩ := hopen; cases hw
      refunded _ hfive := by cases hfive
      bound _ := Nat.zero_le 5 }

theorem Turn.isolationInv (h : Turn u d d') (hb : BooksInv u d.books) (hinv : IsolationInv d) :
    IsolationInv d' where
  view := h.move.viewInv hb.payload hinv.view
  fit := h.fitInv hb hinv.fit
  budget hnodup := h.budget hb hinv.view hinv.fit
    (hinv.budget (h.move.requested_sub hnodup)) hnodup

variable {db db' : Db} {tr : List (Item × Answer)}

theorem run_isolationInv (run : Run (Accepts u) Db.empty tr db) : IsolationInv (u.desk db) :=
  run_desk (isolationInv_empty u) (fun _ _ hb hinv ht => ht.isolationInv hb hinv) run

/-- A confirmation that removes a batch settles it and does nothing else. -/
theorem applyUserOpConfirmed_settled {h : Hash} {s : SubmittedUserOp}
    {obs : UserOpConfirmedObservation} {outpoints : List OutPoint}
    (hinv : ChainInv u (u.books db)) (hs : db.submittedUserOp.get? h = some s)
    (hp : s.purpose = .withdraw outpoints)
    (hgone : (u.applyUserOpConfirmed db h obs).submittedUserOp.get? h = none) :
    ∃ share b' caps', Settle (u.books db) s share obs.success b' ∧
      CapsSettled s.purpose obs.success db.withdrawalBatchCap caps' b' ∧
      u.desk (u.applyUserOpConfirmed db h obs) = ⟨b'.finish h s.signed.unsigned, caps'⟩ := by
  cases heff : Usdt.effectiveSwept s obs with
  | none =>
    simp only [Usdt.applyUserOpConfirmed, hs, heff] at hgone
    cases hgone
  | some swept =>
    refine ⟨_, _, _, settle_settle hinv hs heff, settle_caps (u := u) (db.record (.userOpConfirmed
      s.signed.unsigned s.purpose obs.success swept)) s obs swept, ?_⟩
    simp only [Usdt.applyUserOpConfirmed, hs, heff, Usdt.retriggerSource, hp]
    exact congrArg₂ Desk.mk (books_finish _ _ _) (caps_finish _ _ _ _)

theorem userOpConfirmed_settled {h : Hash} {s : SubmittedUserOp} {obs : UserOpConfirmedObservation}
    {peerId : PeerId} {outpoints : List OutPoint} (hinv : ChainInv u (u.books db))
    (hs : db.submittedUserOp.get? h = some s) (hp : s.purpose = .withdraw outpoints)
    (hok : u.processUserOpConfirmed db h obs peerId = .ok db')
    (hgone : db'.submittedUserOp.get? h = none) :
    ∃ share b' caps', Settle (u.books db) s share obs.success b' ∧
      CapsSettled s.purpose obs.success db.withdrawalBatchCap caps' b' ∧
      u.desk db' = ⟨b'.finish h s.signed.unsigned, caps'⟩ := by
  obtain ⟨_, _, -, -, rfl, rfl | ⟨-, rfl⟩⟩ := processUserOpConfirmed_ok hok
  · cases hs.symm.trans hgone
  · have hinv' : ChainInv u (u.books { db with
        userOpConfirmedVote := db.userOpConfirmedVote.insert (toLex (h, peerId)) obs }) := hinv
    exact applyUserOpConfirmed_settled hinv' hs hp hgone

/-- **A poisoned withdrawal is isolated within five reverted batches.**  Every batch in flight is
within the caps of its members.  When a batch reverts, the caps of its members fall if it had
several, and its only member is refunded if it had one; the fifth time a withdrawal is alone.  So
none takes part in more than five reverted batches, and five mean that it is refunded. -/
theorem poisoned_batch_isolation (run : Run (Accepts u) Db.empty tr db)
    (hdistinct : (acceptedOutPoints tr).Nodup) :
    (∀ k op outpoints live, (u.books db).InFlight k op (.withdraw outpoints) live →
      ∀ o ∈ outpoints, outpoints.length ≤ Usdt.withdrawalBatchCap db o) ∧
    (∀ h s obs peerId answer db' outpoints, db.submittedUserOp.get? h = some s →
      s.purpose = .withdraw outpoints → obs.success = false →
      Accepts u db (.consensus (.userOpConfirmed h obs) peerId) answer db' →
      db'.submittedUserOp.get? h = none →
      (1 < outpoints.length → ∀ o ∈ outpoints,
        Usdt.withdrawalBatchCap db' o < Usdt.withdrawalBatchCap db o) ∧
      (∀ o ∈ outpoints, revertsOf db'.history o = revertsOf db.history o + 1 ∧
        (revertsOf db.history o = 4 → outpoints = [o])) ∧
      ∀ o, outpoints = [o] → ((u.books db').view o).Meets .refunded ∧
        ∃ f, db'.refund.get? o = some f) ∧
    ∀ o, revertsOf db.history o ≤ 5 ∧
      (revertsOf db.history o = 5 → ((u.books db).view o).Meets .refunded) := by
  have hchain := run_chainInv run
  have hpayload := run_payloadInv run
  have hinv := run_isolationInv run
  have hnodup : (requested db.history).Nodup := by
    rw [(run_history run).2.1]
    exact hdistinct
  have hbudget := hinv.budget hnodup
  refine ⟨fun k op outpoints live hf => hinv.fit hf, ?_,
    fun o => ⟨hbudget.bound o, hbudget.refunded o⟩⟩
  intro h s obs peerId answer db' outpoints hs hp hfail haccepts hgone
  obtain ⟨share, b', caps', hsettle, hcaps, hdesk⟩ :=
    userOpConfirmed_settled hchain hs hp haccepts.consensus hgone
  rw [hfail] at hsettle hcaps
  have hturn : Turn u (u.desk db) (u.desk db') := by
    rw [hdesk]
    exact .settled hs hsettle hcaps
  have hcovered : s.purpose.covered = outpoints := by rw [hp]; rfl
  have hrow : (u.books db).InFlight (.submitted h) s.signed.unsigned (.withdraw outpoints)
      (!s.superseded) := hp ▸ .submitted hs
  have hopen := (hpayload.batch hnodup _ _ _ _ hrow).2.1
  have hreverts : ∀ o ∈ outpoints, revertsOf db'.history o = revertsOf db.history o + 1 := by
    intro o ho
    have hhistory : db'.history = b'.history := congrArg (·.books.history) hdesk
    rw [hhistory, hsettle.reverts o, if_pos ⟨rfl, hcovered ▸ ho⟩]
    rfl
  refine ⟨?_, ?_, ?_⟩
  · intro hlen o ho
    have hcap : Usdt.withdrawalBatchCap db' o = outpoints.length / 2 := by
      have hcaps' : db'.withdrawalBatchCap = caps' := congrArg Desk.caps hdesk
      rw [Usdt.withdrawalBatchCap, hcaps', hcaps.split rfl (hcovered.symm ▸ hlen) o
        (hcovered.symm ▸ ho), hcovered]
      rfl
    have hle : outpoints.length ≤ Usdt.withdrawalBatchCap db o := hinv.fit hrow o ho
    omega
  · intro o ho
    exact ⟨hreverts o ho, hbudget.alone hinv.fit (hopen o ho) hrow ho⟩
  · rintro o rfl
    have hnodup' : (requested db'.history).Nodup := by
      have hhistory : db'.history = b'.history := congrArg (·.books.history) hdesk
      rw [hhistory]
      cases hsettle <;> exact hnodup
    have hinv' := hturn.isolationInv ⟨hchain, hpayload⟩ hinv
    have hone := hreverts o (List.mem_singleton.2 rfl)
    cases hturn.fate ⟨hchain, hpayload⟩ hnodup' o with
    | kept _ _ hsame | requested _ _ _ hsame | paid _ _ hsame =>
      have hsame : revertsOf db'.history o = revertsOf db.history o := hsame
      omega
    | split hrow' _ hseveral _ _ _ =>
      obtain ⟨heq, -⟩ := hchain.chain hrow hrow' rfl
      rw [← UserOpPurpose.withdraw.inj heq] at hseveral
      simp at hseveral
    | alone _ _ _ hrefund _ =>
      exact ⟨(hinv'.view hnodup' o).refunded hrefund, _, hrefund⟩

/-- The batch of the two withdrawals is submitted, and its revert is accepted. -/
def Sample.reverts (tr : List (Item × Answer)) (db : Db) : Bool :=
  let h := sampleUsdt.opHash (Sample.batch [20000, 10000] 0)
  decide (acceptedOutPoints tr).Nodup &&
    (db.submittedUserOp.get? h).any (fun s =>
      decide (s.purpose = .withdraw [⟨0, 0⟩, ⟨1, 0⟩])) &&
    (sampleUsdt.step db (Sample.confirm (Sample.batch [20000, 10000] 0) false 0)).any fun r =>
      decide (r.2.submittedUserOp.get? h = none)

theorem poisoned_batch_isolation_sample :
    ∃ tr db answer db', Run (Accepts sampleUsdt) Db.empty tr db ∧
      Accepts sampleUsdt db (Sample.confirm (Sample.batch [20000, 10000] 0) false 0) answer db' ∧
      Usdt.withdrawalBatchCap db' ⟨1, 0⟩ < Usdt.withdrawalBatchCap db ⟨1, 0⟩ := by
  obtain ⟨tr, db, run, hdb⟩ := Run.exists_of_exec sampleUsdt.step Db.empty Sample.poisoned.dropLast
    Sample.reverts (by decide +kernel)
  simp only [Sample.reverts, Bool.and_eq_true, decide_eq_true_eq] at hdb
  obtain ⟨⟨hdistinct, hs⟩, hstep⟩ := hdb
  obtain ⟨s, hs, hp⟩ := (Option.any_eq_true _ _).1 hs
  obtain ⟨r, hr, hgone⟩ := (Option.any_eq_true _ _).1 hstep
  have hall := (poisoned_batch_isolation run hdistinct).2.1 _ s _ 0 r.1 r.2 _ hs
    (of_decide_eq_true hp) rfl hr (of_decide_eq_true hgone)
  exact ⟨tr, db, r.1, r.2, run, hr, hall.1 (by decide) ⟨1, 0⟩ (by decide)⟩

end Experimint.FedimintUsdt
