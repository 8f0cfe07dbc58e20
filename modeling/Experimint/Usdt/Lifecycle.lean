import Experimint.Usdt.Finalize
import Experimint.Usdt.Withdrawals

/-!
# The lifecycle tag of a withdrawal

A withdrawal is tagged `signing h` when a batch `h` is built for it or replaces the one that was.
The tag is documented to become `submitted h` when the batch is signed, but no function writes that
tag: the withdrawal stays `signing h` until the batch is settled.

* `Move.tagged` — in every reachable database, `signing h` marks exactly the withdrawals of the
  live batch `h`, pending or submitted.
* `withdrawal_tags` — the documented meaning holds exactly while no live batch is submitted.
-/

set_option autoImplicit false

namespace Experimint.FedimintUsdt

open Books

variable {u : Usdt} {b b' : Books}

/-! ## Live batches -/

/-- The row is a live batch that pays the withdrawal. -/
def Books.Covers (b : Books) (k : Slot) (o : OutPoint) : Prop :=
  ∃ op outpoints, b.InFlight k op (.withdraw outpoints) true ∧ o ∈ outpoints

/-- What the tags say in fact. -/
structure Books.Tagged (b : Books) : Prop where
  signing : ∀ o h, b.states.get? o = some (.signing h) ↔ ∃ k : Slot, k.hash = h ∧ b.Covers k o
  submitted : ∀ o h, b.states.get? o ≠ some (.submitted h)

/-- Neither these tags nor what they depend on has changed. -/
theorem Books.Tagged.of_tags (ht : b.Tagged)
    (hsigning : ∀ o h, b'.states.get? o = some (.signing h) ↔ b.states.get? o = some (.signing h))
    (hsubmitted : ∀ o h, b'.states.get? o = some (.submitted h) →
      b.states.get? o = some (.submitted h))
    (hcovers : ∀ k o, b'.Covers k o ↔ b.Covers k o) : b'.Tagged where
  signing o h := by
    rw [hsigning, ht.signing]
    exact exists_congr fun k => and_congr_right fun _ => (hcovers k o).symm
  submitted o h hso := ht.submitted o h (hsubmitted o h hso)

theorem Books.Tagged.congr (ht : b.Tagged) (hstates : b'.states = b.states)
    (hcovers : ∀ k o, b'.Covers k o ↔ b.Covers k o) : b'.Tagged :=
  ht.of_tags (fun _ _ => by rw [hstates]) (fun _ _ hso => hstates ▸ hso) hcovers

theorem covers_congr (hp : b'.pending = b.pending) (hs : b'.submitted = b.submitted) (k : Slot)
    (o : OutPoint) : b'.Covers k o ↔ b.Covers k o := by
  constructor
  · rintro ⟨op, outpoints, hf, ho⟩
    exact ⟨op, outpoints, hf.congr hp hs, ho⟩
  · rintro ⟨op, outpoints, hf, ho⟩
    exact ⟨op, outpoints, hf.congr hp.symm hs.symm, ho⟩

/-- A lane holds one live operation, so a live batch is the only one. -/
theorem ChainInv.covers_iff {k k' : Slot} {op : UnsignedUserOp} {outpoints : List OutPoint}
    {o : OutPoint} (hchain : ChainInv u b) (hrow : b.InFlight k op (.withdraw outpoints) true) :
    b.Covers k' o ↔ k' = k ∧ o ∈ outpoints := by
  constructor
  · rintro ⟨op', outpoints', hrow', ho⟩
    obtain ⟨hsame, -⟩ := hchain.chain hrow' hrow rfl
    exact ⟨hchain.live hrow' hrow rfl, UserOpPurpose.withdraw.inj hsame ▸ ho⟩
  · rintro ⟨rfl, ho⟩
    exact ⟨op, outpoints, hrow, ho⟩

/-- The tags while a batch is live. -/
theorem Books.Tagged.states_of_live {k : Slot} {op : UnsignedUserOp} {outpoints : List OutPoint}
    (ht : b.Tagged) (hchain : ChainInv u b) (hrow : b.InFlight k op (.withdraw outpoints) true)
    (o : OutPoint) (h : Hash) :
    b.states.get? o = some (.signing h) ↔ k.hash = h ∧ o ∈ outpoints := by
  rw [ht.signing]
  constructor
  · rintro ⟨k', hk', hcovers⟩
    obtain ⟨rfl, ho⟩ := (hchain.covers_iff hrow).1 hcovers
    exact ⟨hk', ho⟩
  · rintro ⟨hk, ho⟩
    exact ⟨k, hk, (hchain.covers_iff hrow).2 ⟨rfl, ho⟩⟩

theorem Books.Tagged.of_live {k : Slot} {op : UnsignedUserOp} {p : UserOpPurpose}
    {outpoints : List OutPoint} (hchain : ChainInv u b) (hrow : b.InFlight k op p true)
    (hp : p = .withdraw outpoints)
    (hsigning : ∀ o h, b.states.get? o = some (.signing h) ↔ k.hash = h ∧ o ∈ outpoints)
    (hsubmitted : ∀ o h, b.states.get? o ≠ some (.submitted h)) : b.Tagged where
  signing o h := by
    subst hp
    rw [hsigning]
    constructor
    · rintro ⟨hk, ho⟩
      exact ⟨k, hk, (hchain.covers_iff hrow).2 ⟨rfl, ho⟩⟩
    · rintro ⟨k', hk', hcovers⟩
      obtain ⟨rfl, ho⟩ := (hchain.covers_iff hrow).1 hcovers
      exact ⟨hk', ho⟩
  submitted := hsubmitted

/-- With nothing of the pool in flight, no withdrawal is being signed. -/
theorem Books.Tagged.of_idle (hidle : b.Idle .pool)
    (hsigning : ∀ o h, b.states.get? o ≠ some (.signing h))
    (hsubmitted : ∀ o h, b.states.get? o ≠ some (.submitted h)) : b.Tagged where
  signing o h := by
    constructor
    · exact fun hs => absurd hs (hsigning o h)
    · rintro ⟨k, -, op, outpoints, hrow, -⟩
      exact absurd rfl (hidle _ _ _ _ hrow)
  submitted := hsubmitted

theorem Books.Tagged.not_signing (ht : b.Tagged) (hidle : b.Idle .pool) (o : OutPoint) (h : Hash) :
    b.states.get? o ≠ some (.signing h) := by
  intro hs
  obtain ⟨k, -, op, outpoints, hrow, -⟩ := (ht.signing o h).1 hs
  exact absurd rfl (hidle _ _ _ _ hrow)

/-- A slot holds one operation. -/
theorem Books.InFlight.unique {k : Slot} {op op' : UnsignedUserOp} {p p' : UserOpPurpose}
    {live live' : Bool} (hf : b.InFlight k op p live) (hf' : b.InFlight k op' p' live') :
    op' = op ∧ p' = p := by
  cases hf with
  | pending hr =>
    cases hf' with
    | pending hr' =>
      cases hr.symm.trans hr'
      exact ⟨rfl, rfl⟩
  | submitted hr =>
    cases hf' with
    | submitted hr' =>
      cases hr.symm.trans hr'
      exact ⟨rfl, rfl⟩

theorem Books.InFlight.submitted_row {h : Hash} {op : UnsignedUserOp} {p : UserOpPurpose}
    {live : Bool} (hf : b.InFlight (.submitted h) op p live) : ∃ s, b.submitted.get? h = some s := by
  cases hf with
  | submitted hr => exact ⟨_, hr⟩

/-! ## Tags after a move -/

/-- All the withdrawals of a batch are tagged. -/
theorem marked_states {outpoints : List OutPoint} {h : Hash}
    (hothers : ∀ o h', o ∉ outpoints → b.states.get? o ≠ some (.signing h')) (o : OutPoint)
    (h' : Hash) : (b.marked h (.withdraw outpoints)).get? o = some (.signing h') ↔
      h = h' ∧ o ∈ outpoints := by
  unfold marked
  dsimp only
  rw [Table.get?_insertAll]
  by_cases ho : o ∈ outpoints
  · rw [if_pos ho]
    simp [ho]
  · rw [if_neg ho]
    simp [ho, hothers o h' ho]

theorem marked_submitted {p : UserOpPurpose} {h : Hash} (ht : b.Tagged) (o : OutPoint) (h' : Hash) :
    (b.marked h p).get? o ≠ some (.submitted h') := by
  cases p with
  | withdraw outpoints =>
    unfold marked
    dsimp only
    rw [Table.get?_insertAll]
    split_ifs
    · simp
    · exact ht.submitted o h'
  | deployAndSweep _ | recoverResidual _ | withdrawFees _ _ => exact ht.submitted o h'

theorem inFlight_offer (h : Hash) (op : UnsignedUserOp) (p : UserOpPurpose) (block : Nat) :
    (b.offer h op p block).InFlight (.pending h) op p true := by
  have hrow : (b.offer h op p block).pending.get? h = some ⟨op, p, block⟩ :=
    Table.get?_insert_self _ _ _
  exact .pending hrow

/-- An operation that is no batch covers nothing. -/
theorem covers_offer {h : Hash} {op : UnsignedUserOp} {p : UserOpPurpose} {block : Nat}
    (hp : ∀ outpoints, p ≠ .withdraw outpoints) (hkeep : ∀ k o, b.Covers k o → k ≠ .pending h)
    (k : Slot) (o : OutPoint) : (b.offer h op p block).Covers k o ↔ b.Covers k o := by
  constructor
  · rintro ⟨op', outpoints, hrow, ho⟩
    rcases hrow.of_offer with ⟨-, -, hsame, -⟩ | ⟨-, hrow⟩
    · exact absurd hsame.symm (hp outpoints)
    · exact ⟨op', outpoints, hrow, ho⟩
  · rintro ⟨op', outpoints, hrow, ho⟩
    exact ⟨op', outpoints, hrow.offer (hkeep k o ⟨op', outpoints, hrow, ho⟩), ho⟩

theorem Books.Tagged.offer {op : UnsignedUserOp} {p : UserOpPurpose} {block : Nat} (ht : b.Tagged)
    (hchain : ChainInv u b) (ho : Offer u b op p)
    (hfree : (b.pending.get? (u.opHash op) = none ∧ b.submitted.get? (u.opHash op) = none) ∨
      p.isPool = true) : (b.offer (u.opHash op) op p block).Tagged := by
  have hchain' : ChainInv u (b.offer (u.opHash op) op p block) := hchain.offer ho
  have hkeep : p.isPool = false → ∀ k o, b.Covers k o → k ≠ .pending (u.opHash op) := by
    rintro hp k o ⟨op', outpoints, hrow, -⟩ rfl
    rcases hfree with hfree | hpool
    · exact hrow.hash_ne hfree rfl
    · rw [hp] at hpool
      cases hpool
  cases ho with
  | batch hidle hnodup hqueued hfunded =>
    refine .of_live hchain' (inFlight_offer _ _ _ _) rfl ?_ (marked_submitted ht)
    exact marked_states fun o h _ => ht.not_signing hidle o h
  | sweep => exact ht.congr rfl (covers_offer nofun (hkeep rfl))
  | recovery => exact ht.congr rfl (covers_offer nofun (hkeep rfl))
  | fees hidle haccrued hfunded =>
    refine ht.congr rfl (covers_offer nofun ?_)
    rintro k o ⟨op', outpoints, hrow, -⟩
    exact absurd rfl (hidle _ _ _ _ hrow)

/-- A replacement takes over the withdrawals of the batch it replaces. -/
theorem Books.Tagged.replace {h : Hash} {s : SubmittedUserOp} {op : UnsignedUserOp} {block : Nat}
    (ht : b.Tagged) (hchain : ChainInv u b) (hs : b.submitted.get? h = some s)
    (hlive : s.superseded = false) (hop : op.chain = s.signed.unsigned.chain)
    (hnew : b.pending.get? (u.opHash op) = none ∧ b.submitted.get? (u.opHash op) = none) :
    Books.Tagged { b.offer (u.opHash op) op s.purpose block with
      submitted := b.submitted.insert h { s with superseded := true } } := by
  have hchain' : ChainInv u { b.offer (u.opHash op) op s.purpose block with
      submitted := b.submitted.insert h { s with superseded := true } } :=
    hchain.replace hs hlive hop hnew
  have hrow : b.InFlight (.submitted h) s.signed.unsigned s.purpose true := by
    have hrow := InFlight.submitted hs
    rwa [hlive] at hrow
  by_cases hp : ∃ outpoints, s.purpose = .withdraw outpoints
  · obtain ⟨outpoints, hp⟩ := hp
    have hrow' := (inFlight_offer (b := b) (u.opHash op) op s.purpose block).setSubmitted
      (h := h) (s := { s with superseded := true }) nofun
    rw [hp] at hrow
    refine .of_live hchain' hrow' hp ?_ (marked_submitted ht)
    intro o h'
    show (b.marked (u.opHash op) s.purpose).get? o = _ ↔ _
    rw [hp]
    refine marked_states (fun o h' ho hsigning => ho ?_) o h'
    exact ((ht.states_of_live hchain hrow o h').1 hsigning).2
  · have hstates : b.marked (u.opHash op) s.purpose = b.states := by
      cases hcase : s.purpose with
      | withdraw outpoints => exact absurd ⟨outpoints, hcase⟩ hp
      | deployAndSweep _ | recoverResidual _ | withdrawFees _ _ => rfl
    refine ht.congr hstates fun k o => ⟨?_, ?_⟩
    · rintro ⟨op', outpoints, hrow', ho⟩
      rcases hrow'.of_replace with ⟨-, -, hsame⟩ | ⟨-, -, hsame, -⟩ | ⟨-, hrow'⟩
      · exact absurd ⟨outpoints, hsame.symm⟩ hp
      · exact absurd ⟨outpoints, hsame.symm⟩ hp
      · exact ⟨op', outpoints, hrow', ho⟩
    · rintro ⟨op', outpoints, hrow', ho⟩
      have hk : k ≠ .pending (u.opHash op) := by
        rintro rfl
        exact hrow'.hash_ne hnew rfl
      have hk' : k ≠ .submitted h := by
        rintro rfl
        exact hp ⟨outpoints, (hrow'.unique hrow).2⟩
      exact ⟨op', outpoints, (hrow'.offer hk).setSubmitted hk', ho⟩

/-- A signed batch keeps its withdrawals, tagged as before. -/
theorem Books.Tagged.finalize {h : Hash} {p : PendingUserOp} {signature : Bytes} {block : Nat}
    {history : List Event} (ht : b.Tagged) (hchain : ChainInv u b)
    (hfree : b.submitted.get? h = none) (hp : b.pending.get? h = some p) :
    Books.Tagged { b with
      submitted := b.submitted.insert h ⟨⟨p.op, signature⟩, p.purpose, block, false⟩
      pending := b.pending.erase h
      history := history } := by
  have hrow : b.InFlight (.pending h) p.op p.purpose true := .pending hp
  by_cases hbatch : ∃ outpoints, p.purpose = .withdraw outpoints
  · obtain ⟨outpoints, hbatch⟩ := hbatch
    rw [hbatch] at hrow
    have hrow' := InFlight.submitted
      (b := { b with
        submitted := b.submitted.insert h ⟨⟨p.op, signature⟩, p.purpose, block, false⟩
        pending := b.pending.erase h
        history := history }) (Table.get?_insert_self _ h _)
    have hstates := ht.states_of_live hchain hrow
    exact .of_live (hchain.finalize hp) hrow' hbatch hstates ht.submitted
  · refine ht.congr rfl fun k o => ⟨?_, ?_⟩
    · rintro ⟨op', outpoints, hrow', ho⟩
      rcases hrow'.of_finalize with ⟨-, -, hsame⟩ | ⟨-, -, hrow'⟩
      · exact absurd ⟨outpoints, hsame.symm⟩ hbatch
      · exact ⟨op', outpoints, hrow', ho⟩
    · rintro ⟨op', outpoints, hrow', ho⟩
      have hk : k ≠ .pending h := by
        rintro rfl
        exact hbatch ⟨outpoints, (hrow'.unique hrow).2⟩
      have hk' : k ≠ .submitted h := by
        rintro rfl
        obtain ⟨s, hs⟩ := hrow'.submitted_row
        exact nomatch hs.symm.trans hfree
      refine ⟨op', outpoints, ?_, ho⟩
      exact ((hrow'.erasePending hk).setSubmitted
        (s := ⟨⟨p.op, signature⟩, p.purpose, block, false⟩) hk').congr rfl rfl

/-- A withdrawal at an out point never used before. -/
theorem Books.Tagged.request {o : OutPoint} {w : UsdtWithdrawalV0} {history : List Event}
    (ht : b.Tagged) (hview : (b.view o).Valid) (hfresh : o ∉ requested b.history) :
    Books.Tagged { b with
      unclaimed := b.unclaimed.insert o w
      states := b.states.insert o .queued
      history := history } := by
  have hnone : b.states.get? o = none := by
    rcases hview with hblank | ⟨c, hc⟩
    · exact congrArg View.state hblank
    · have hone : (requested b.history).count o = 1 := hc.requests
      rw [List.count_eq_zero_of_not_mem hfresh] at hone
      cases hone
  refine ht.of_tags ?_ ?_ (covers_congr rfl rfl)
  · intro o' h
    show (b.states.insert o .queued).get? o' = _ ↔ _
    rw [Table.get?_insert]
    split_ifs with ho
    · rw [← ho, hnone]
      simp
    · rfl
  · intro o' h hso
    have hso : (b.states.insert o .queued).get? o' = some (.submitted h) := hso
    rw [Table.get?_insert] at hso
    split_ifs at hso
    · cases hso
    · exact hso

/-- A settlement of a deposit account's operation leaves the batches alone. -/
theorem Books.Tagged.settle_deposit {h : Hash} {s : SubmittedUserOp} (ht : b.Tagged)
    (hchain : ChainInv u b) (hsep : Separate u b) (hs : b.submitted.get? h = some s)
    (hframe : Settle.Frame b s b') (hstates : b'.states = b.states)
    (hlane : s.purpose.lane ≠ .pool) : (b'.finish h s.signed.unsigned).Tagged := by
  have hrow := InFlight.submitted hs
  refine ht.congr hstates fun k o => ⟨?_, ?_⟩
  · rintro ⟨op, outpoints, hf, ho⟩
    exact ⟨op, outpoints, hf.of_finish.1.congr hframe.pending hframe.submitted, ho⟩
  · rintro ⟨op, outpoints, hf, ho⟩
    have hk : k ≠ .submitted h := by
      rintro rfl
      exact hlane (congrArg UserOpPurpose.lane (hrow.unique hf).2).symm
    have hsender : op.sender ≠ s.signed.unsigned.sender := by
      rw [hchain.sender hf, hchain.sender hrow]
      intro he
      exact hlane (hsep.lane (hchain.nonce hf) (hchain.nonce hrow) he).symm
    refine ⟨op, outpoints, InFlight.finish ?_ hk hsender, ho⟩
    exact hf.congr hframe.pending.symm hframe.submitted.symm

/-- A settlement of a pool operation empties the lane, and untags what the operation covered. -/
theorem Books.Tagged.settle_pool {h : Hash} {s : SubmittedUserOp} (ht : b.Tagged)
    (hchain : ChainInv u b) (hs : b.submitted.get? h = some s) (hframe : Settle.Frame b s b')
    (hlane : s.purpose.lane = .pool)
    (hstates : ∀ o h', b'.states.get? o = some (.signing h') →
      b.states.get? o = some (.signing h') ∧
        ∀ outpoints, s.purpose = .withdraw outpoints → o ∉ outpoints)
    (hsubmitted : ∀ o h', b'.states.get? o = some (.submitted h') →
      b.states.get? o = some (.submitted h')) : (b'.finish h s.signed.unsigned).Tagged := by
  have hidle := hchain.idle_finish hs hframe.pending hframe.submitted
  rw [hlane] at hidle
  refine .of_idle hidle ?_ fun o h' hso => ht.submitted o h' (hsubmitted o h' hso)
  intro o h' hso
  -- a withdrawal that is being signed is covered by an operation of the same chain
  obtain ⟨hbefore, hnot⟩ := hstates o h' hso
  obtain ⟨k, -, op, outpoints, hf, ho⟩ := (ht.signing o h').1 hbefore
  obtain ⟨hsame, -⟩ := hchain.chain (InFlight.submitted hs) hf hlane
  exact hnot outpoints hsame ho

/-- A settled batch gives its withdrawals a new tag. -/
theorem Books.Tagged.settle_batch {h : Hash} {s : SubmittedUserOp} {outpoints : List OutPoint}
    {x : WithdrawalState} (ht : b.Tagged) (hchain : ChainInv u b)
    (hs : b.submitted.get? h = some s) (hframe : Settle.Frame b s b')
    (hpurpose : s.purpose = .withdraw outpoints)
    (hstates : b'.states = b.states.insertAll outpoints x)
    (hx : ∀ h', x ≠ .signing h' ∧ x ≠ .submitted h') : (b'.finish h s.signed.unsigned).Tagged := by
  refine ht.settle_pool hchain hs hframe (by rw [hpurpose]; rfl) ?_ ?_
  · intro o h' hso
    rw [hstates, Table.get?_insertAll] at hso
    split_ifs at hso with ho
    · exact absurd (Option.some.inj hso) (hx h').1
    · refine ⟨hso, ?_⟩
      intro outpoints' hsame
      rw [hpurpose] at hsame
      cases hsame
      exact ho
  · intro o h' hso
    rw [hstates, Table.get?_insertAll] at hso
    split_ifs at hso
    · exact absurd (Option.some.inj hso) (hx h').2
    · exact hso

theorem Settle.tagged {h : Hash} {s : SubmittedUserOp} {share : UsdtAmount} {success : Bool}
    (hsettle : Settle b s share success b') (ht : b.Tagged) (hchain : ChainInv u b)
    (hsep : Separate u b) (hs : b.submitted.get? h = some s) :
    (b'.finish h s.signed.unsigned).Tagged := by
  have hframe := hsettle.frame
  cases hsettle with
  | swept hpurpose hrecord hcall =>
    exact ht.settle_deposit hchain hsep hs hframe rfl (by rw [hpurpose]; nofun)
  | spent hlane hrecord hsweep =>
    exact ht.settle_deposit hchain hsep hs hframe rfl (by rw [hlane]; nofun)
  | paid hpurpose hcall => exact ht.settle_batch hchain hs hframe hpurpose rfl fun _ => ⟨nofun, nofun⟩
  | requeued hpurpose => exact ht.settle_batch hchain hs hframe hpurpose rfl fun _ => ⟨nofun, nofun⟩
  | isolated hpurpose hopen hcharge =>
    exact ht.settle_batch hchain hs hframe hpurpose rfl fun _ => ⟨nofun, nofun⟩
  | abandoned hpurpose hgone =>
    exact ht.settle_batch hchain hs hframe hpurpose rfl fun _ => ⟨nofun, nofun⟩
  | feesPaid hpurpose hcall =>
    refine ht.settle_pool hchain hs hframe (by rw [hpurpose]; rfl) ?_ fun _ _ hso => hso
    intro o h' hso
    exact ⟨hso, fun outpoints hw => nomatch hpurpose.symm.trans hw⟩
  | feesReverted hpurpose =>
    refine ht.settle_pool hchain hs hframe (by rw [hpurpose]; rfl) ?_ fun _ _ hso => hso
    intro o h' hso
    exact ⟨hso, fun outpoints hw => nomatch hpurpose.symm.trans hw⟩

/-- **Every move keeps the tags**, as long as out points are not used twice. -/
theorem Move.tagged (h : Move u b b') (ht : b.Tagged) (hchain : ChainInv u b)
    (henqueue : EnqueueInv u b) (hview : ∀ o, (b.view o).Valid) (hsep : Separate u b)
    (hnodup : (requested b'.history).Nodup) : b'.Tagged := by
  cases h with
  | credit => exact ht.congr rfl (covers_congr rfl rfl)
  | claim => exact ht.congr rfl (covers_congr rfl rfl)
  | @request o w =>
    have hfresh : o ∉ requested b.history := (List.nodup_cons.1 hnodup).1
    exact ht.request (hview o) hfresh
  | offer hoffered =>
    obtain ⟨op, p, block, ho, hfree, rfl⟩ := hoffered
    exact ht.offer hchain ho hfree
  | replace hs hlive hop hnew => exact ht.replace hchain hs hlive hop hnew
  | finalize hp => exact ht.finalize hchain (hchain.not_submitted henqueue hsep hp) hp
  | settle hs hsettle => exact hsettle.tagged ht hchain hsep hs

theorem run_tagged {db : Db} {tr : List (Item × Answer)} (run : Run (Accepts u) Db.empty tr db)
    (hsep : Separate u (u.books db)) (hnodup : (requested db.history).Nodup) :
    (u.books db).Tagged := by
  have hall : PayloadInv (u.books db) ∧ ViewInv (u.books db) ∧ EnqueueInv u (u.books db) ∧
      (Separate u (u.books db) → (requested (u.books db).history).Nodup → (u.books db).Tagged) := by
    refine run_books (P := fun b => PayloadInv b ∧ ViewInv b ∧ EnqueueInv u b ∧
      (Separate u b → (requested b.history).Nodup → b.Tagged))
      ⟨payloadInv_empty u, fun _ _ => .inl rfl, enqueueInv_empty u, ?_⟩ ?_ run
    · intro _ _
      refine .of_idle (fun _ _ _ _ hf => absurd hf not_inFlight_empty) nofun nofun
    · intro b b' hchain ⟨hp, hview, henqueue, ht⟩ hm
      refine ⟨hm.payloadInv hchain hp, hm.viewInv hp hview, hm.enqueueInv hchain henqueue, ?_⟩
      intro hsep hnodup
      have hnodup₀ := hm.requested_sub hnodup
      exact hm.tagged (ht (hm.separate hsep) hnodup₀) hchain henqueue (hview hnodup₀)
        (hm.separate hsep) hnodup
  exact hall.2.2.2 hsep hnodup

/-! ## The documented meaning -/

variable {db db' : Db}

/-- A withdrawal is `signing h` while its batch `h` is pending, and `submitted h` while it is
submitted and not superseded. -/
structure TruthfulTags (db : Db) : Prop where
  signing : ∀ o h, db.withdrawalState.get? o = some (.signing h) ↔
    ∃ p outpoints, db.pendingUserOp.get? h = some p ∧ p.purpose = .withdraw outpoints ∧
      o ∈ outpoints
  submitted : ∀ o h, db.withdrawalState.get? o = some (.submitted h) ↔
    ∃ s outpoints, db.submittedUserOp.get? h = some s ∧ s.superseded = false ∧
      s.purpose = .withdraw outpoints ∧ o ∈ outpoints

def UserOpPurpose.isBatch : UserOpPurpose → Bool
  | .withdraw _ => true
  | _ => false

/-- Whether the item is no signature that a pending batch waits for. -/
def Usdt.signsNoBatch (db : Db) : Item → Bool
  | .consensus (.mpcSignature sessionId _) _ =>
    match db.signingSession.get? sessionId with
    | none => true
    | some session =>
      match db.pendingUserOp.get? session.purpose.opHash with
      | none => true
      | some pending => !pending.purpose.isBatch
  | _ => true

theorem Books.Tagged.signing_iff (ht : (u.books db).Tagged) (o : OutPoint) (h : Hash) :
    db.withdrawalState.get? o = some (.signing h) ↔
      (∃ p outpoints, db.pendingUserOp.get? h = some p ∧ p.purpose = .withdraw outpoints ∧
        o ∈ outpoints) ∨
      ∃ s outpoints, db.submittedUserOp.get? h = some s ∧ s.superseded = false ∧
        s.purpose = .withdraw outpoints ∧ o ∈ outpoints := by
  refine (ht.signing o h).trans ⟨?_, ?_⟩
  · rintro ⟨k, rfl, op, outpoints, hf, ho⟩
    generalize hp : UserOpPurpose.withdraw outpoints = p at hf
    generalize hl : true = live at hf
    cases hf with
    | @pending h r hr => exact .inl ⟨r, outpoints, hr, hp.symm, ho⟩
    | @submitted h r hr => exact .inr ⟨r, outpoints, hr, by simpa using hl, hp.symm, ho⟩
  · rintro (⟨p, outpoints, hr, hp, ho⟩ | ⟨s, outpoints, hr, hl, hp, ho⟩)
    · have hf : (u.books db).InFlight (.pending h) p.op p.purpose true := .pending hr
      rw [hp] at hf
      exact ⟨.pending h, rfl, _, outpoints, hf, ho⟩
    · have hf : (u.books db).InFlight (.submitted h) _ s.purpose (!s.superseded) := .submitted hr
      rw [hp, hl] at hf
      exact ⟨.submitted h, rfl, _, outpoints, hf, ho⟩

/-- No batch is submitted if none is signed. -/
theorem Accepts.no_batch_submitted {item : Item} {answer : Answer}
    (h : Accepts u db item answer db') (hguard : Usdt.signsNoBatch db item = true)
    (hchain : ChainInv u (u.books db))
    (hnone : ∀ k s, db.submittedUserOp.get? k = some s → s.purpose.isBatch = false) :
    ∀ k s, db'.submittedUserOp.get? k = some s → s.purpose.isBatch = false := by
  intro k s hs
  cases hsigns : item.signs with
  | false =>
    obtain ⟨s₀, hs₀, -, hpurpose⟩ := (Accepts.effect h hchain).continues hsigns k s hs
    rw [hpurpose]
    exact hnone k s₀ hs₀
  | true =>
    obtain ⟨id, signature, p, rfl⟩ := Item.signature_of_signs hsigns
    obtain ⟨session, pending, ethSig, hsession, -, -, hpending, -, -, rfl⟩ :=
      processMpcSignature_ok (Accepts.consensus h)
    simp only [Usdt.signsNoBatch, hsession, hpending, Bool.not_eq_true'] at hguard
    have hs : (db.submittedUserOp.insert session.purpose.opHash _).get? k = some s := hs
    rw [Table.get?_insert] at hs
    split_ifs at hs
    · cases hs
      exact hguard
    · exact hnone k s hs

theorem run_no_batch_submitted {tr : List (Item × Answer)}
    (run : Run (Steps (guarded Usdt.signsNoBatch u.step)) Db.empty tr db) :
    ∀ k s, db.submittedUserOp.get? k = some s → s.purpose.isBatch = false := by
  have hboth : ChainInv u (u.books db) ∧
      ∀ k s, db.submittedUserOp.get? k = some s → s.purpose.isBatch = false := by
    refine run.invariant (P := fun db => ChainInv u (u.books db) ∧
      ∀ k s, db.submittedUserOp.get? k = some s → s.purpose.isBatch = false)
      ⟨chainInv_empty u, nofun⟩ ?_
    intro db item answer db' hinv hstep
    obtain ⟨hguard, h⟩ := steps_guarded.1 hstep
    exact ⟨Accepts.chainInv h hinv.1, Accepts.no_batch_submitted h hguard hinv.1 hinv.2⟩
  exact hboth.2

/-- **The tags mean what they are documented to mean exactly while no live batch is submitted**, so
they do along every run in which no batch is signed. -/
theorem withdrawal_tags (u : Usdt) (tr : List (Item × Answer)) (db : Db)
    (run : Run (Accepts u) Db.empty tr db) (hdistinct : (acceptedOutPoints tr).Nodup)
    (hpool : ∀ r ∈ db.depositRecord.rows, r.1 ≠ u.poolAccount)
    (hcollision : ∀ q ∈ enqueued db.history, ∀ q' ∈ enqueued db.history,
      u.opHash q.2 = u.opHash q'.2 → q.2 = q'.2) :
    (TruthfulTags db ↔ ∀ h s outpoints, db.submittedUserOp.get? h = some s →
      s.superseded = false → s.purpose = .withdraw outpoints → outpoints = []) ∧
    (Run (Steps (guarded Usdt.signsNoBatch u.step)) Db.empty tr db → TruthfulTags db) := by
  have ht := run_tagged run (separate_of_rows hpool hcollision)
    ((run_history run).2.1 ▸ hdistinct)
  have hiff : TruthfulTags db ↔ ∀ h s outpoints, db.submittedUserOp.get? h = some s →
      s.superseded = false → s.purpose = .withdraw outpoints → outpoints = [] := by
    constructor
    · intro htruth h s outpoints hs hlive hp
      -- a covered withdrawal would have to carry a tag that is never written
      cases outpoints with
      | nil => rfl
      | cons o rest =>
        have htag := (htruth.submitted o h).2 ⟨s, o :: rest, hs, hlive, hp, List.mem_cons_self⟩
        exact absurd htag (ht.submitted o h)
    · intro hnone
      have hempty : ∀ o h, ¬ ∃ s outpoints, db.submittedUserOp.get? h = some s ∧
          s.superseded = false ∧ s.purpose = .withdraw outpoints ∧ o ∈ outpoints := by
        rintro o h ⟨s, outpoints, hs, hlive, hp, ho⟩
        rw [hnone h s outpoints hs hlive hp] at ho
        cases ho
      refine ⟨?_, ?_⟩
      · intro o h
        rw [ht.signing_iff o h, or_iff_left (hempty o h)]
      · intro o h
        exact iff_of_false (ht.submitted o h) (hempty o h)
  refine ⟨hiff, ?_⟩
  intro hguarded
  rw [hiff]
  intro h s outpoints hs _ hp
  have hbatch := run_no_batch_submitted hguarded h s hs
  rw [hp] at hbatch
  cases hbatch

/-- The withdrawal of a batch that waits for its signature. -/
theorem withdrawal_tags_pending :
    ∃ tr db, Run (Steps (guarded Usdt.signsNoBatch sampleUsdt.step)) Db.empty tr db ∧
      db.withdrawalState.get? ⟨0, 0⟩ =
        some (.signing (sampleUsdt.opHash (Sample.batch [20000] 0))) ∧ TruthfulTags db := by
  obtain ⟨tr, db, run, hdb⟩ := Run.exists_of_exec
    (guarded Usdt.signsNoBatch sampleUsdt.step) Db.empty
    (Sample.funding ++ Sample.payout.take 1)
    (fun tr db => decide (db.withdrawalState.get? ⟨0, 0⟩ =
        some (.signing (sampleUsdt.opHash (Sample.batch [20000] 0)))) &&
      decide (acceptedOutPoints tr).Nodup &&
      decide (∀ r ∈ db.depositRecord.rows, r.1 ≠ sampleUsdt.poolAccount) &&
      decide (∀ q ∈ enqueued db.history, ∀ q' ∈ enqueued db.history,
        sampleUsdt.opHash q.2 = sampleUsdt.opHash q'.2 → q.2 = q'.2))
    (by decide +kernel)
  simp only [Bool.and_eq_true, decide_eq_true_eq] at hdb
  obtain ⟨⟨⟨htag, hdistinct⟩, hpool⟩, hcollision⟩ := hdb
  exact ⟨tr, db, run, htag,
    (withdrawal_tags sampleUsdt tr db run.of_guarded hdistinct hpool hcollision).2 run⟩

/-- Once the batch is signed, its withdrawal is still tagged as waiting for the signature. -/
theorem withdrawal_tag_after_signing :
    ∃ tr db h s, Run (Accepts sampleUsdt) Db.empty tr db ∧
      db.withdrawalState.get? ⟨0, 0⟩ = some (.signing h) ∧ db.pendingUserOp.get? h = none ∧
      db.submittedUserOp.get? h = some s ∧ s.superseded = false ∧
      s.purpose = .withdraw [⟨0, 0⟩] ∧ ¬ TruthfulTags db := by
  obtain ⟨tr, db, run, hdb⟩ := Run.exists_of_exec sampleUsdt.step Db.empty
    (Sample.funding ++ Sample.payout.take 2)
    (fun _ db => decide (db.withdrawalState.get? ⟨0, 0⟩ =
        some (.signing (sampleUsdt.opHash (Sample.batch [20000] 0)))) &&
      decide (db.pendingUserOp.get? (sampleUsdt.opHash (Sample.batch [20000] 0)) = none) &&
      decide ((db.submittedUserOp.get? (sampleUsdt.opHash (Sample.batch [20000] 0))).map
        (fun s => (s.superseded, s.purpose)) = some (false, .withdraw [⟨0, 0⟩])))
    (by decide +kernel)
  simp only [Bool.and_eq_true, decide_eq_true_eq] at hdb
  obtain ⟨⟨htag, hpending⟩, hsubmitted⟩ := hdb
  obtain ⟨s, hs, hrow⟩ := Option.map_eq_some_iff.1 hsubmitted
  obtain ⟨hlive, hp⟩ := Prod.mk.inj hrow
  refine ⟨tr, db, _, s, run, htag, hpending, hs, hlive, hp, ?_⟩
  intro htruth
  obtain ⟨p, -, hr, -, -⟩ := (htruth.signing _ _).1 htag
  exact nomatch hpending.symm.trans hr

end Experimint.FedimintUsdt
