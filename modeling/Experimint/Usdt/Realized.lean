import Experimint.Usdt.Payload

/-!
# Which proofs' fees a sweep realizes

A record holds one total of the fees of its account's deposits, and a confirmed sweep makes all of
it revenue of the pool.  The sweep itself carries a fixed amount, so a deposit credited while it was
in flight has its fee realized before its tokens are pooled.

* `Move.deposits_next` — what a move does to one account.
* `sweep_realizes_iff` — the fees a confirmation realizes are those of the proofs since the last
  sweep, and their tokens are all pooled exactly when the sweep carries all that is credited.
-/

set_option autoImplicit false

namespace Experimint.FedimintUsdt

open Books

variable {u : Usdt} {b b' : Books}

/-! ## Proofs since the last sweep -/

/-- Account of a successful sweep. -/
def Event.sweptAccount : Event → Option EvmAddress
  | .userOpConfirmed _ (.deployAndSweep a) true _ => some a
  | _ => none

/-- Level to which a proof raised the account's high-water mark, and its fee. -/
def Event.proofOf (a : EvmAddress) : Event → Option (UsdtAmount × UsdtAmount)
  | .depositCredited a' proven _ fee => if a' = a then some (proven, fee) else none
  | _ => none

/-- Proofs of an account whose fees no sweep has realized yet, newest first. -/
def unrealized (a : EvmAddress) (history : List Event) : List (UsdtAmount × UsdtAmount) :=
  (history.takeWhile fun e => decide (e.sweptAccount ≠ some a)).filterMap (Event.proofOf a)

theorem unrealized_swept {a : EvmAddress} {e : Event} {rest : List Event}
    (h : e.sweptAccount = some a) : unrealized a (e :: rest) = [] := by
  simp [unrealized, h]

theorem unrealized_credited {a : EvmAddress} {proven delta fee : UsdtAmount} {rest : List Event} :
    unrealized a (.depositCredited a proven delta fee :: rest) =
      (proven, fee) :: unrealized a rest := by
  simp [unrealized, Event.sweptAccount, Event.proofOf]

theorem unrealized_credited_ne {a a' : EvmAddress} {proven delta fee : UsdtAmount}
    {rest : List Event} (ha : a' ≠ a) :
    unrealized a (.depositCredited a' proven delta fee :: rest) = unrealized a rest := by
  simp [unrealized, Event.sweptAccount, Event.proofOf, ha]

theorem unrealized_other {a : EvmAddress} {e : Event} {rest : List Event}
    (hswept : e.sweptAccount ≠ some a) (hproof : e.proofOf a = none) :
    unrealized a (e :: rest) = unrealized a rest := by
  simp [unrealized, hswept, hproof]

theorem unrealized_neutral {a : EvmAddress} {e : Event} {rest : List Event}
    (hswept : e.sweptAccount = none) (hproof : e.proofOf a = none) :
    unrealized a (e :: rest) = unrealized a rest :=
  unrealized_other (by simp [hswept]) hproof

/-! ## One account -/

structure Deposits where
  record : Option DepositRecord
  proofs : List (UsdtAmount × UsdtAmount)

def Books.deposits (b : Books) (a : EvmAddress) : Deposits where
  record := b.records.get? a
  proofs := unrealized a b.history

/-- What a move can do to an account. -/
inductive Deposits.Next (d : Deposits) : Deposits → Prop
  | same : Next d d
  | credit {pk : PublicKey} {r r' : DepositRecord} {proven fee : UsdtAmount}
      (hrecord : d.record.getD (Usdt.freshRecord pk) = r) (hle : r.credited.raw ≤ proven.raw)
      (hcredited : r'.credited = proven) (hfees : r'.feesAccrued = U64.satAdd r.feesAccrued fee) :
      Next d ⟨some r', (proven, fee) :: d.proofs⟩
  | spend {r r' : DepositRecord} (hrecord : d.record = some r)
      (hcredited : r'.credited = r.credited) (hfees : r'.feesAccrued = r.feesAccrued) :
      Next d ⟨some r', d.proofs⟩
  | sweep {r' : DepositRecord} (hfees : r'.feesAccrued = U64.zero) : Next d ⟨some r', []⟩

/-- The record adds up the fees of the proofs, which are not above its high-water mark. -/
structure Deposits.Valid (d : Deposits) : Prop where
  blank : d.record = none → d.proofs = []
  fees : ∀ r, d.record = some r →
    r.feesAccrued.raw = min (d.proofs.map fun q => q.2.raw).sum U64_MAX
  marks : ∀ r, d.record = some r → ∀ q ∈ d.proofs, q.1.raw ≤ r.credited.raw

/-- The same of the record a proof starts from, which may be a fresh one. -/
theorem Deposits.Valid.getD {d : Deposits} {pk : PublicKey} {r : DepositRecord} (hv : d.Valid)
    (hrecord : d.record.getD (Usdt.freshRecord pk) = r) :
    r.feesAccrued.raw = min (d.proofs.map fun q => q.2.raw).sum U64_MAX ∧
      ∀ q ∈ d.proofs, q.1.raw ≤ r.credited.raw := by
  cases hd : d.record with
  | none =>
    rw [hd, Option.getD_none] at hrecord
    subst hrecord
    rw [hv.blank hd]
    exact ⟨rfl, nofun⟩
  | some r₀ =>
    rw [hd, Option.getD_some] at hrecord
    subst hrecord
    exact ⟨hv.fees _ hd, hv.marks _ hd⟩

theorem Deposits.Next.valid {d d' : Deposits} (h : d.Next d') (hv : d.Valid) : d'.Valid := by
  cases h with
  | same => exact hv
  | @credit pk r r' proven fee hrecord hle hcredited hfees =>
    obtain ⟨htotal, hmarks⟩ := hv.getD hrecord
    refine ⟨nofun, ?_, ?_⟩
    · intro r₁ hr₁
      cases hr₁
      rw [hfees, U64.raw_satAdd, htotal, List.map_cons, List.sum_cons]
      dsimp only
      omega
    · intro r₁ hr₁ q hq
      cases hr₁
      rw [hcredited]
      rcases List.mem_cons.1 hq with rfl | hq
      · exact Nat.le_refl _
      · exact (hmarks q hq).trans hle
  | spend hrecord hcredited hfees =>
    refine ⟨nofun, ?_, ?_⟩
    · intro r₁ hr₁
      cases hr₁
      rw [hfees]
      exact hv.fees _ hrecord
    · intro r₁ hr₁ q hq
      cases hr₁
      rw [hcredited]
      exact hv.marks _ hrecord q hq
  | sweep hfees =>
    refine ⟨fun _ => rfl, ?_, nofun⟩
    intro r₁ hr₁
    cases hr₁
    rw [hfees]
    rfl

/-! ## Moves -/

/-- Neither the account's record nor its proofs have changed. -/
theorem Deposits.Next.of_eq {a : EvmAddress} (hrecord : b'.records.get? a = b.records.get? a)
    (hproofs : unrealized a b'.history = unrealized a b.history) :
    (b.deposits a).Next (b'.deposits a) := by
  have hsame : b'.deposits a = b.deposits a := by
    rw [Books.deposits, hrecord, hproofs, Books.deposits]
  rw [hsame]
  exact .same

theorem Deposits.Next.of_row {d : Deposits} {a : EvmAddress} {r : DepositRecord}
    {proofs : List (UsdtAmount × UsdtAmount)} (hrecord : b'.records.get? a = some r)
    (hproofs : unrealized a b'.history = proofs) (h : d.Next ⟨some r, proofs⟩) :
    d.Next (b'.deposits a) := by
  rw [Books.deposits, hrecord, hproofs]
  exact h

/-- A confirmation that is not a successful sweep of the account. -/
theorem unrealized_confirmed {a : EvmAddress} {op : UnsignedUserOp} {p : UserOpPurpose}
    {success : Bool} {m : UsdtAmount} {rest : List Event}
    (h : p = .deployAndSweep a → success = false) :
    unrealized a (.userOpConfirmed op p success m :: rest) = unrealized a rest := by
  refine unrealized_other ?_ rfl
  cases p with
  | deployAndSweep a' =>
    cases success with
    | false => nofun
    | true =>
      rintro hswept
      cases hswept
      cases h rfl
  | recoverResidual _ | withdraw _ | withdrawFees _ _ => nofun

/-- A settlement in another lane. -/
theorem Settle.deposits_same {s : SubmittedUserOp} {share : UsdtAmount} {success : Bool}
    {a : EvmAddress} (h : Settle b s share success b') (hl : s.purpose.lane ≠ .deposit a) :
    b'.records.get? a = b.records.get? a ∧
      unrealized a b'.history = unrealized a b.history := by
  have hp : s.purpose ≠ .deployAndSweep a := fun hp => hl (by rw [hp]; rfl)
  have hproofs : ∀ m, unrealized a
      (.userOpConfirmed s.signed.unsigned s.purpose success m :: b.history) =
      unrealized a b.history := fun m => unrealized_confirmed fun hsweep => absurd hsweep hp
  cases h with
  | @swept a' r m hpurpose hrecord hcall =>
    have ha : a' ≠ a := fun ha => hp (ha ▸ hpurpose)
    exact ⟨Table.get?_insert_ne _ _ ha, hproofs m⟩
  | @spent a' r success hlane hrecord hsweep =>
    have ha : a' ≠ a := fun ha => hl (ha ▸ hlane)
    exact ⟨Table.get?_insert_ne _ _ ha, hproofs _⟩
  | @isolated o w charge reason hpurpose hopen hcharge =>
    refine ⟨rfl, (unrealized_other ?_ rfl).trans (hproofs _)⟩
    nofun
  | paid | requeued | abandoned | feesPaid | feesReverted => exact ⟨rfl, hproofs _⟩

theorem Settle.deposits_next {s : SubmittedUserOp} {share : UsdtAmount} {success : Bool}
    (h : Settle b s share success b') (a : EvmAddress) :
    (b.deposits a).Next (b'.deposits a) := by
  by_cases hl : s.purpose.lane = .deposit a
  · cases h with
    | @swept a' r m hpurpose hrecord hcall =>
      rw [hpurpose] at hl
      cases hl
      refine .of_row (Table.get?_insert_self _ _ _) (unrealized_swept ?_) (.sweep rfl)
      rw [hpurpose]
      rfl
    | @spent a' r success hlane hrecord hsweep =>
      cases hl.symm.trans hlane
      exact .of_row (Table.get?_insert_self _ _ _) (unrealized_confirmed hsweep)
        (.spend hrecord rfl rfl)
    | paid hpurpose | requeued hpurpose | isolated hpurpose | abandoned hpurpose
    | feesPaid hpurpose | feesReverted hpurpose =>
      rw [hpurpose] at hl
      cases hl
  · obtain ⟨hrecord, hproofs⟩ := h.deposits_same hl
    exact .of_eq hrecord hproofs

theorem Move.deposits_next (h : Move u b b') (a : EvmAddress) :
    (b.deposits a).Next (b'.deposits a) := by
  cases h with
  | @credit pk r proven delta fee block hrecord hdelta hfee =>
    by_cases ha : u.depositAccount pk = a
    · subst ha
      exact .of_row (Table.get?_insert_self _ _ _) unrealized_credited
        (.credit hrecord (by omega) rfl rfl)
    · exact .of_eq (Table.get?_insert_ne _ _ ha) (unrealized_credited_ne ha)
  | offer hoffered =>
    obtain ⟨op, p, block, -, -, rfl⟩ := hoffered
    exact .of_eq rfl (unrealized_neutral rfl rfl)
  | settle hs hsettle => exact hsettle.deposits_next a
  | request | claim | replace | finalize => exact .of_eq rfl (unrealized_neutral rfl rfl)

/-- The deposits of every account add up. -/
def DepositsInv (b : Books) : Prop := ∀ a, (b.deposits a).Valid

/-- A sweep in flight carries all that is credited and not swept, unless a later proof raised the
high-water mark. -/
def LateInv (b : Books) : Prop :=
  ∀ {k op a live}, b.InFlight k op (.deployAndSweep a) live → ∀ r m,
    b.records.get? a = some r → decodeTransferAmount op = .ok m →
      r.swept.raw + m.raw < r.credited.raw → ∃ q ∈ unrealized a b.history, q.1 = r.credited

theorem LateInv.of_row {k : Slot} {op op' : UnsignedUserOp} {a : EvmAddress} {live : Bool}
    (hinv : LateInv b) (hf : b.InFlight k op (.deployAndSweep a) live) (hop : op'.chain = op.chain)
    (hrecord : b'.records.get? a = b.records.get? a)
    (hproofs : unrealized a b'.history = unrealized a b.history) (r : DepositRecord)
    (m : UsdtAmount) (hr : b'.records.get? a = some r) (hm : decodeTransferAmount op' = .ok m)
    (hlate : r.swept.raw + m.raw < r.credited.raw) :
    ∃ q ∈ unrealized a b'.history, q.1 = r.credited := by
  rw [hproofs]
  rw [hrecord] at hr
  rw [decodeTransferAmount_congr hop] at hm
  exact hinv hf r m hr hm hlate

theorem Move.lateInv (h : Move u b b') (hchain : ChainInv u b) (hinv : LateInv b) :
    LateInv b' := by
  intro k op a live hf
  cases h with
  | @credit pk r₀ proven delta fee block hrecord hdelta hfee =>
    by_cases ha : u.depositAccount pk = a
    · subst ha
      intro r m hr _ _
      have hr : (b.records.insert (u.depositAccount pk) _).get? (u.depositAccount pk) = some r := hr
      rw [Table.get?_insert_self] at hr
      cases hr
      exact ⟨(proven, fee), by rw [Books.credit, unrealized_credited]; exact List.mem_cons_self, rfl⟩
    · exact hinv.of_row (hf.congr rfl rfl) rfl (Table.get?_insert_ne _ _ ha)
        (unrealized_credited_ne ha)
  | request => exact hinv.of_row (hf.congr rfl rfl) rfl rfl (unrealized_neutral rfl rfl)
  | claim => exact hinv.of_row (hf.congr rfl rfl) rfl rfl (unrealized_neutral rfl rfl)
  | offer hoffered =>
    obtain ⟨op', p', block, ho, -, rfl⟩ := hoffered
    rcases hf.of_offer with ⟨-, rfl, rfl, -⟩ | ⟨-, hf⟩
    · cases ho with
      | @sweep _ r₀ m₀ g hrecord hamount hpos hidle =>
        -- a new sweep carries all there is
        intro r m hr hm hlate
        have hm₀ := decodeTransferAmount_sweep u a r₀.claimPk m₀ r₀.nonce g
        cases hrecord.symm.trans hr
        cases hm₀.symm.trans hm
        omega
    · exact hinv.of_row hf rfl rfl (unrealized_neutral rfl rfl)
  | replace hs hlive hop hnew =>
    have hrow := InFlight.submitted hs
    rcases hf.of_replace with ⟨-, rfl, hp⟩ | ⟨-, rfl, hp, -⟩ | ⟨-, hf⟩
    · rw [← hp] at hrow
      exact hinv.of_row hrow hop rfl (unrealized_neutral rfl rfl)
    · rw [← hp] at hrow
      exact hinv.of_row hrow rfl rfl (unrealized_neutral rfl rfl)
    · exact hinv.of_row hf rfl rfl (unrealized_neutral rfl rfl)
  | finalize hpending =>
    have hrow := InFlight.pending hpending
    rcases hf.of_finalize with ⟨-, rfl, hp⟩ | ⟨-, -, hf⟩
    · dsimp only at hp
      rw [← hp] at hrow
      exact hinv.of_row hrow rfl rfl (unrealized_neutral rfl rfl)
    · exact hinv.of_row hf rfl rfl (unrealized_neutral rfl rfl)
  | settle hs hsettle =>
    -- a row that outlives the settlement is in another lane
    have hframe := hsettle.frame
    have hlane := hchain.idle_finish hs hframe.pending hframe.submitted _ _ _ _ hf
    obtain ⟨hrecord, hproofs⟩ := hsettle.deposits_same (a := a) fun hl => hlane hl.symm
    exact hinv.of_row (hf.of_finish.1.congr hframe.pending hframe.submitted) rfl hrecord hproofs

/-! ## Runs -/

variable {db db' : Db}

theorem depositsInv_empty (u : Usdt) : DepositsInv (u.books Db.empty) := fun _ =>
  ⟨fun _ => rfl, nofun, nofun⟩

theorem run_realized {tr : List (Item × Answer)} (run : Run (Accepts u) Db.empty tr db) :
    DepositsInv (u.books db) ∧ LateInv (u.books db) ∧ PayloadInv (u.books db) := by
  refine run_books (P := fun b => DepositsInv b ∧ LateInv b ∧ PayloadInv b)
    ⟨depositsInv_empty u, fun hf => absurd hf not_inFlight_empty, payloadInv_empty u⟩ ?_ run
  intro b b' hchain ⟨hdeposits, hlate, hpayload⟩ hm
  exact ⟨fun a => (hm.deposits_next a).valid (hdeposits a), hm.lateInv hchain hlate,
    hm.payloadInv hchain hpayload⟩

theorem Offers.records {b b' : Books} (h : Offers u b b') : b'.records = b.records := by
  induction h with
  | refl => rfl
  | tail _ hstep ih =>
    obtain ⟨op, p, block, -, -, rfl⟩ := hstep
    exact ih

/-- The confirmation of a successful sweep: what it does to the account and to the pool. -/
theorem processUserOpConfirmed_sweep {h : Hash} {obs : UserOpConfirmedObservation} {p : PeerId}
    {s : SubmittedUserOp} {a : EvmAddress} (hchain : ChainInv u (u.books db))
    (hok : u.processUserOpConfirmed db h obs p = .ok db') (hs : db.submittedUserOp.get? h = some s)
    (hp : s.purpose = .deployAndSweep a) (hsuccess : obs.success = true)
    (hgone : db'.submittedUserOp.get? h = none) :
    ∃ r m, db.depositRecord.get? a = some r ∧
      decodeTransferAmount s.signed.unsigned = .ok m ∧
      db'.depositRecord.get? a = some { r with
        nonce := r.nonce + 1
        swept := U64.least (U64.satAdd r.swept m) r.credited
        feesAccrued := U64.zero } ∧
      (u.pool db').accruedFees = U64.satAdd (u.pool db).accruedFees r.feesAccrued := by
  rcases processUserOpConfirmed_effect hchain hok with
    hsame | ⟨s', swept, b', hs', heff, hvotes, hsettle, hoffers⟩
  · have hsub : db'.submittedUserOp = db.submittedUserOp := congrArg Books.submitted hsame
    rw [hsub, hs] at hgone
    cases hgone
  · cases hs.symm.trans hs'
    rw [hsuccess] at hsettle
    have hrecords : db'.depositRecord = b'.records := hoffers.offers.records
    have hpool : u.pool db' = b'.pool := hoffers.offers.pool
    rw [hrecords, hpool]
    cases hsettle with
    | @swept a' r m hpurpose hrecord hcall =>
      cases hp.symm.trans hpurpose
      exact ⟨r, m, hrecord, hcall, Table.get?_insert_self _ _ _, rfl⟩
    | spent hlane hrecord hsweep =>
      rw [hp] at hlane
      cases hlane
      cases hsweep hp
    | paid hpurpose | feesPaid hpurpose => cases hp.symm.trans hpurpose

/-- **A confirmed sweep realizes the fees of the proofs since the last one, and it realizes them
with their tokens pooled exactly when it carries all that is credited and not swept.** -/
theorem sweep_realizes_iff (u : Usdt) (tr : List (Item × Answer)) (db db' : Db)
    (run : Run (Accepts u) Db.empty tr db) (h : Hash) (obs : UserOpConfirmedObservation)
    (p : PeerId) (answer : Answer)
    (hstep : Accepts u db (.consensus (.userOpConfirmed h obs) p) answer db')
    (s : SubmittedUserOp) (a : EvmAddress) (hs : db.submittedUserOp.get? h = some s)
    (hp : s.purpose = .deployAndSweep a) (hsuccess : obs.success = true)
    (hgone : db'.submittedUserOp.get? h = none) :
    ∃ r r' m, db.depositRecord.get? a = some r ∧ db'.depositRecord.get? a = some r' ∧
      decodeTransferAmount s.signed.unsigned = .ok m ∧
      (u.pool db').accruedFees = U64.satAdd (u.pool db).accruedFees r.feesAccrued ∧
      r'.feesAccrued = U64.zero ∧
      r.feesAccrued.raw = min ((unrealized a db.history).map fun q => q.2.raw).sum U64_MAX ∧
      ((∀ q ∈ unrealized a db.history, q.1.raw ≤ r'.swept.raw) ↔
        r.credited.raw = r.swept.raw + m.raw) := by
  obtain ⟨hdeposits, hlate, hpayload⟩ := run_realized run
  obtain ⟨r, m, hr, hm, hr', hpool⟩ := processUserOpConfirmed_sweep (run_chainInv run)
    (Accepts.consensus hstep) hs hp hsuccess hgone
  have hvalid : Deposits.Valid ⟨db.depositRecord.get? a, unrealized a db.history⟩ := hdeposits a
  have hrow : (u.books db).InFlight (.submitted h) s.signed.unsigned s.purpose (!s.superseded) :=
    .submitted hs
  rw [hp] at hrow
  obtain ⟨r₁, m₁, hr₁, hm₁, hle⟩ := hpayload.sweep hrow
  cases hr.symm.trans hr₁
  cases hm.symm.trans hm₁
  refine ⟨r, _, m, hr, hr', hm, hpool, rfl, hvalid.fees r hr, ?_⟩
  have hswept : (U64.least (U64.satAdd r.swept m) r.credited).raw = r.swept.raw + m.raw := by
    have hmax := r.credited.le_max
    rw [U64.raw_least, U64.raw_satAdd]
    omega
  dsimp only
  rw [hswept]
  constructor
  · intro hpooled
    -- a sweep that carries less was overtaken by a proof up to the present high-water mark
    rcases Nat.lt_or_ge (r.swept.raw + m.raw) r.credited.raw with hless | hmore
    · obtain ⟨q, hq, hmark⟩ := hlate hrow r m hr hm hless
      have := hpooled q hq
      rw [hmark] at this
      omega
    · omega
  · intro hall q hq
    rw [← hall]
    exact hvalid.marks r hr q hq

/-- The sweep of a single deposit. -/
theorem sweep_realizes_iff_funding :
    ∃ tr db db' answer r', Run (Accepts sampleUsdt) Db.empty tr db ∧
      Accepts sampleUsdt db (Sample.confirm (Sample.sweep 50000 0) true 50000) answer db' ∧
      db'.depositRecord.get? Sample.account = some r' ∧
      unrealized Sample.account db.history = [(U64.clamp 50000, U64.clamp 10000)] ∧
      ∀ q ∈ unrealized Sample.account db.history, q.1.raw ≤ r'.swept.raw := by
  obtain ⟨tr, db, run, hdb⟩ := Run.exists_of_exec sampleUsdt.step Db.empty
    (Sample.funding.take 5)
    (fun _ db =>
      decide (unrealized Sample.account db.history = [(U64.clamp 50000, U64.clamp 10000)]) &&
      decide ((db.depositRecord.get? Sample.account).map
        (fun r => (r.credited.raw, r.swept.raw)) = some (50000, 0)) &&
      decide ((db.submittedUserOp.get? (sampleUsdt.opHash (Sample.sweep 50000 0))).map
        (fun s => (s.signed.unsigned, s.purpose)) =
          some (Sample.sweep 50000 0, .deployAndSweep Sample.account)) &&
      ((sampleUsdt.step db (Sample.confirm (Sample.sweep 50000 0) true 50000)).any fun (r : Answer × Db) =>
        decide (r.2.submittedUserOp.get? (sampleUsdt.opHash (Sample.sweep 50000 0)) = none)))
    (by decide +kernel)
  simp only [Bool.and_eq_true, decide_eq_true_eq, Option.any_eq_true] at hdb
  obtain ⟨⟨⟨hproofs, hrecord⟩, hsubmitted⟩, ⟨answer, db'⟩, hstep, hgone⟩ := hdb
  obtain ⟨s, hs, hrow⟩ := Option.map_eq_some_iff.1 hsubmitted
  obtain ⟨hop, hp⟩ := Prod.mk.inj hrow
  obtain ⟨r, r', m, hr, hr', hm, -, -, -, hiff⟩ := sweep_realizes_iff sampleUsdt tr db db' run _ _ _
    answer hstep s Sample.account hs hp rfl hgone
  refine ⟨tr, db, db', answer, r', run, hstep, hr', hproofs, hiff.2 ?_⟩
  rw [hr, Option.map_some] at hrecord
  obtain ⟨hcredited, hswept⟩ := Prod.mk.inj (Option.some.inj hrecord)
  rw [hop] at hm
  have hamount : decodeTransferAmount (Sample.sweep 50000 0) = .ok (U64.clamp 50000) := by
    decide +kernel
  cases hm.symm.trans hamount
  rw [hcredited, hswept]
  rfl

/-- The sweep of the first deposit realizes the fee of the second, whose tokens are not pooled. -/
theorem sweep_realizes_late_fee :
    ∃ tr db db' answer r' q, Run (Accepts sampleUsdt) Db.empty tr db ∧
      Accepts sampleUsdt db (Sample.confirm (Sample.sweep 11000 0) true 11000) answer db' ∧
      db'.depositRecord.get? Sample.account = some r' ∧
      (sampleUsdt.pool db).accruedFees.raw = 0 ∧ (sampleUsdt.pool db').accruedFees.raw = 20000 ∧
      q ∈ unrealized Sample.account db.history ∧ q.2.raw = 10000 ∧ r'.swept.raw < q.1.raw := by
  obtain ⟨tr, db, run, hdb⟩ := Run.exists_of_exec sampleUsdt.step Db.empty
    Sample.lateDeposit.dropLast
    (fun _ db =>
      decide ((U64.clamp 22000, U64.clamp 10000) ∈ unrealized Sample.account db.history) &&
      decide ((sampleUsdt.pool db).accruedFees.raw = 0) &&
      ((sampleUsdt.step db (Sample.confirm (Sample.sweep 11000 0) true 11000)).any fun (r : Answer × Db) =>
        decide ((sampleUsdt.pool r.2).accruedFees.raw = 20000) &&
        decide ((r.2.depositRecord.get? Sample.account).map (·.swept.raw) = some 11000)))
    (by decide +kernel)
  simp only [Bool.and_eq_true, decide_eq_true_eq, Option.any_eq_true] at hdb
  obtain ⟨⟨hq, hbefore⟩, ⟨answer, db'⟩, hstep, hafter, hrecord⟩ := hdb
  obtain ⟨r', hr', hswept⟩ := Option.map_eq_some_iff.1 hrecord
  refine ⟨tr, db, db', answer, r', _, run, hstep, hr', hbefore, hafter, hq, rfl, ?_⟩
  rw [hswept]
  decide

end Experimint.FedimintUsdt
