import Experimint.Usdt.Onchain

/-!
# High-water crediting and covered sweeps

An account is credited with the largest balance a proof has shown, so what is minted for it is that
balance however often and in whatever order proofs arrive.  A proof may be stale, or straddle a
sweep that the chain has executed and the module has not seen confirmed; the books still add up
because what has left an account below its tracked nonce is exactly what the record has swept.

* `CreditInv`: minted, credited, claimed and the largest proven balance are the same number.
* `SentInv`: an enqueued sweep at the current nonce is within what is credited and not swept.
* `Tracks`: the record of an account against the chain, nonce by nonce.
* `high_water_mark`: nothing is minted that was not received, and sweeps are covered.
* `replacement_exceeds_balance`: a replacement may come after its original was executed.
-/

set_option autoImplicit false

namespace Experimint.FedimintUsdt

open Books

variable {u : Usdt} {b b' : Books}

/-! ## What is minted -/

/-- Amounts minted for an account by a list of credits. -/
def mintedFor (a : EvmAddress) (cs : List (EvmAddress × Nat × Nat)) : Nat :=
  ((cs.filter fun q => decide (q.1 = a)).map fun q => q.2.2).sum

/-- Largest balance proven for an account by a list of credits. -/
def largestFor (a : EvmAddress) (cs : List (EvmAddress × Nat × Nat)) : Nat :=
  ((cs.filter fun q => decide (q.1 = a)).map fun q => q.2.1).foldr max 0

theorem mintedFor_cons (a : EvmAddress) (q : EvmAddress × Nat × Nat)
    (cs : List (EvmAddress × Nat × Nat)) :
    mintedFor a (q :: cs) = if q.1 = a then q.2.2 + mintedFor a cs else mintedFor a cs := by
  unfold mintedFor
  rw [List.filter_cons]
  by_cases h : q.1 = a <;> simp [h]

theorem largestFor_cons (a : EvmAddress) (q : EvmAddress × Nat × Nat)
    (cs : List (EvmAddress × Nat × Nat)) :
    largestFor a (q :: cs) = if q.1 = a then max q.2.1 (largestFor a cs) else largestFor a cs := by
  unfold largestFor
  rw [List.filter_cons]
  by_cases h : q.1 = a <;> simp [h]

theorem largestFor_le {a : EvmAddress} {cs : List (EvmAddress × Nat × Nat)} {n : Nat}
    (h : ∀ q ∈ cs, q.1 = a → q.2.1 ≤ n) : largestFor a cs ≤ n := by
  induction cs with
  | nil => exact Nat.zero_le n
  | cons q cs ih =>
    have hrest := ih fun q' hq' => h q' (List.mem_cons_of_mem _ hq')
    rw [largestFor_cons]
    split_ifs with hq
    · exact max_le (h q List.mem_cons_self hq) hrest
    · exact hrest

def Books.creditedOf (b : Books) (a : EvmAddress) : Nat := (b.records.get? a).elim 0 (·.credited.raw)

def Books.claimedOf (b : Books) (a : EvmAddress) : Nat := (b.records.get? a).elim 0 (·.claimed.raw)

/-- The credits of an account, and its record. -/
structure CreditInv (b : Books) (a : EvmAddress) : Prop where
  minted : mintedFor a (credits b.history) = b.creditedOf a
  claimed : b.claimedOf a = b.creditedOf a
  largest : largestFor a (credits b.history) = b.creditedOf a

theorem creditedOf_getD {a : EvmAddress} {pk : PublicKey} {r : DepositRecord}
    (h : (b.records.get? a).getD (Usdt.freshRecord pk) = r) :
    b.creditedOf a = r.credited.raw ∧ b.claimedOf a = r.claimed.raw := by
  unfold Books.creditedOf Books.claimedOf
  cases hr : b.records.get? a with
  | none =>
    rw [hr, Option.getD_none] at h
    subst h
    exact ⟨rfl, rfl⟩
  | some r' =>
    rw [hr, Option.getD_some] at h
    subst h
    exact ⟨rfl, rfl⟩

theorem CreditInv.credit {pk : PublicKey} {r : DepositRecord} {proven delta fee : UsdtAmount}
    {block : Nat} {a : EvmAddress} (hinv : CreditInv b a)
    (hr : (b.records.get? (u.depositAccount pk)).getD (Usdt.freshRecord pk) = r)
    (hdelta : proven.raw = r.credited.raw + delta.raw) :
    CreditInv (b.credit (u.depositAccount pk) r proven delta fee block) a := by
  have hcredits : credits (b.credit (u.depositAccount pk) r proven delta fee block).history =
      (u.depositAccount pk, proven.raw, delta.raw) :: credits b.history := rfl
  by_cases ha : u.depositAccount pk = a
  · subst ha
    obtain ⟨hcredited, hclaimed⟩ := creditedOf_getD hr
    have hmax := proven.le_max
    have hself : (b.credit (u.depositAccount pk) r proven delta fee block).creditedOf
        (u.depositAccount pk) = proven.raw := by
      simp [Books.creditedOf, Books.credit]
    refine ⟨?_, ?_, ?_⟩
    · rw [hself, hcredits, mintedFor_cons, if_pos rfl, hinv.minted, hcredited, hdelta]
      exact Nat.add_comm _ _
    · have hexact : (U64.satAdd r.claimed delta).raw = r.claimed.raw + delta.raw := by
        refine U64.raw_satAdd_of_le ?_
        rw [← hclaimed, hinv.claimed, hcredited, ← hdelta]
        exact hmax
      rw [hself, hdelta, ← hcredited, ← hinv.claimed, hclaimed, ← hexact]
      simp [Books.claimedOf, Books.credit]
    · rw [hself, hcredits, largestFor_cons, if_pos rfl, hinv.largest, hcredited]
      exact max_eq_left (by simp only; omega)
  · have hsame : (b.credit (u.depositAccount pk) r proven delta fee block).records.get? a =
        b.records.get? a := Table.get?_insert_ne _ _ ha
    refine ⟨?_, ?_, ?_⟩
    · rw [hcredits, mintedFor_cons, if_neg ha, hinv.minted, Books.creditedOf, Books.creditedOf, hsame]
    · have hclaimed := hinv.claimed
      unfold Books.claimedOf Books.creditedOf at hclaimed ⊢
      rw [hsame]
      exact hclaimed
    · rw [hcredits, largestFor_cons, if_neg ha, hinv.largest, Books.creditedOf, Books.creditedOf,
        hsame]

/-- Moves that credit nothing. -/
theorem CreditInv.of_same {a : EvmAddress} (hinv : CreditInv b a)
    (hcredits : credits b'.history = credits b.history)
    (hcredited : b'.creditedOf a = b.creditedOf a) (hclaimed : b'.claimedOf a = b.claimedOf a) :
    CreditInv b' a where
  minted := by rw [hcredits, hinv.minted, hcredited]
  claimed := by rw [hclaimed, hinv.claimed, hcredited]
  largest := by rw [hcredits, hinv.largest, hcredited]

/-- A settlement writes a record with the same marks. -/
theorem CreditInv.of_insert {a a' : EvmAddress} {r r' : DepositRecord} (hinv : CreditInv b a)
    (hr : b.records.get? a' = some r) (hcredits : credits b'.history = credits b.history)
    (hb' : b'.records = b.records.insert a' r') (hc : r'.credited = r.credited)
    (hm : r'.claimed = r.claimed) : CreditInv b' a := by
  have hmarks : b'.creditedOf a = b.creditedOf a ∧ b'.claimedOf a = b.claimedOf a := by
    unfold Books.creditedOf Books.claimedOf
    rw [hb', Table.get?_insert]
    split_ifs with ha
    · subst ha
      rw [hr]
      exact ⟨congrArg U64.raw hc, congrArg U64.raw hm⟩
    · exact ⟨rfl, rfl⟩
  exact hinv.of_same hcredits hmarks.1 hmarks.2

theorem Move.creditInv (h : Move u b b') {a : EvmAddress} (hinv : CreditInv b a) :
    CreditInv b' a := by
  cases h with
  | credit hr hdelta _ => exact hinv.credit hr hdelta
  | offer hoffered =>
    obtain ⟨op, p, block, -, -, rfl⟩ := hoffered
    exact hinv.of_same rfl rfl rfl
  | settle _ hsettle =>
    cases hsettle with
    | swept _ hr _ | spent _ hr _ =>
      exact hinv.of_insert hr rfl rfl rfl rfl
    | paid | requeued | isolated | abandoned | feesPaid | feesReverted =>
      exact hinv.of_same rfl rfl rfl
  | request | claim | replace | finalize => exact hinv.of_same rfl rfl rfl

theorem run_creditInv {db : Db} {tr : List (Item × Answer)} (a : EvmAddress)
    (run : Run (Accepts u) Db.empty tr db) : CreditInv (u.books db) a :=
  run_books ⟨rfl, rfl, rfl⟩ (fun _ _ _ hinv hm => hm.creditInv hinv) run

/-! ## What is enqueued -/

/-- How a move enqueues an operation: as a new chain, or as the next of a submitted one. -/
theorem Move.enqueued_cases (h : Move u b b') {hash : Hash} {op : UnsignedUserOp}
    {p : UserOpPurpose} (he : .userOpEnqueued hash op p ∈ b'.history) :
    .userOpEnqueued hash op p ∈ b.history ∨
      (b'.history = .userOpEnqueued hash op p :: b.history ∧ b'.records = b.records ∧
        (Offer u b op p ∨ ∃ k s, b.submitted.get? k = some s ∧ p = s.purpose ∧
          op.chain = s.signed.unsigned.chain)) := by
  cases h with
  | credit | request | claim | finalize =>
    rcases List.mem_cons.1 he with he | he
    · cases he
    · exact .inl he
  | offer hoffered =>
    obtain ⟨op', p', block, ho, -, rfl⟩ := hoffered
    rcases List.mem_cons.1 he with he | he
    · cases he
      exact .inr ⟨rfl, rfl, .inl ho⟩
    · exact .inl he
  | replace hs _ hchain _ =>
    rcases List.mem_cons.1 he with he | he
    · cases he
      exact .inr ⟨rfl, rfl, .inr ⟨_, _, hs, rfl, hchain⟩⟩
    · exact .inl he
  | settle _ hsettle => cases hsettle <;> exact .inl (by simpa [Books.finish] using he)

/-- A record later on: its nonce grows, and as long as it does not nothing is swept. -/
def Advances (b b' : Books) : Prop :=
  ∀ a r, b.records.get? a = some r → ∃ r', b'.records.get? a = some r' ∧ r.nonce ≤ r'.nonce ∧
    (r'.nonce = r.nonce → r'.swept = r.swept ∧ r.credited.raw ≤ r'.credited.raw)

theorem Advances.of_eq (h : b'.records = b.records) : Advances b b' := fun _ r hr =>
  ⟨r, by rw [h]; exact hr, Nat.le_refl _, fun _ => ⟨rfl, Nat.le_refl _⟩⟩

theorem Advances.of_insert {a : EvmAddress} {r' : DepositRecord}
    (hb' : b'.records = b.records.insert a r')
    (hr' : ∀ r, b.records.get? a = some r → r.nonce ≤ r'.nonce ∧
      (r'.nonce = r.nonce → r'.swept = r.swept ∧ r.credited.raw ≤ r'.credited.raw)) :
    Advances b b' := by
  intro a' r hr
  rw [hb', Table.get?_insert]
  split_ifs with ha
  · subst ha
    exact ⟨r', rfl, hr' r hr⟩
  · exact ⟨r, hr, Nat.le_refl _, fun _ => ⟨rfl, Nat.le_refl _⟩⟩

theorem Move.advances (h : Move u b b') : Advances b b' := by
  cases h with
  | @credit pk r proven delta fee block hrecord hdelta _ =>
    refine .of_insert rfl ?_
    intro r₀ hr₀
    rw [hr₀, Option.getD_some] at hrecord
    subst hrecord
    exact ⟨Nat.le_refl _, fun _ => ⟨rfl, by simp only; omega⟩⟩
  | offer hoffered =>
    obtain ⟨op, p, block, -, -, rfl⟩ := hoffered
    exact .of_eq rfl
  | settle _ hsettle =>
    cases hsettle with
    | swept _ hr _ | spent _ hr _ =>
      refine .of_insert rfl ?_
      intro r₀ hr₀
      obtain rfl := Option.some.inj (hr.symm.trans hr₀)
      exact ⟨Nat.le_succ _, fun hn => absurd hn (Nat.succ_ne_self _)⟩
    | paid | requeued | isolated | abandoned | feesPaid | feesReverted => exact .of_eq rfl
  | request | claim | replace | finalize => exact .of_eq rfl

/-- What an enqueued operation takes from its sender: a sweep at the current nonce of its account no
more than what is credited and not swept, any other operation nothing. -/
def Sent (b : Books) (op : UnsignedUserOp) : UserOpPurpose → Prop
  | .deployAndSweep a => op.sender = a ∧ ∃ r m, b.records.get? a = some r ∧
      decodeTransferAmount op = .ok m ∧ op.nonce ≤ r.nonce ∧
      (op.nonce = r.nonce → r.swept.raw + m.raw ≤ r.credited.raw)
  | _ => op.transferred = 0

theorem UnsignedUserOp.transferred_congr {op op' : UnsignedUserOp} (h : op.chain = op'.chain) :
    op.transferred = op'.transferred := by
  rw [transferred, transferred, decodeTransferAmount_congr h]

theorem Sent.congr {op op' : UnsignedUserOp} {p : UserOpPurpose} (hsent : Sent b op' p)
    (h : op.chain = op'.chain) : Sent b op p := by
  cases p with
  | deployAndSweep a =>
    obtain ⟨hs, r, m, hr, hm, hn, hle⟩ := hsent
    have hsender : op.sender = op'.sender := congrArg (·.sender) h
    have hnonce : op.nonce = op'.nonce := congrArg (·.nonce) h
    exact ⟨hsender.trans hs, r, m, hr, (decodeTransferAmount_congr h).trans hm, hnonce ▸ hn,
      hnonce ▸ hle⟩
  | recoverResidual | withdraw | withdrawFees =>
    exact (UnsignedUserOp.transferred_congr h).trans hsent

theorem Sent.advance {op : UnsignedUserOp} {p : UserOpPurpose} (hsent : Sent b op p)
    (h : Advances b b') : Sent b' op p := by
  cases p with
  | deployAndSweep a =>
    obtain ⟨hs, r, m, hr, hm, hn, hle⟩ := hsent
    obtain ⟨r', hr', hn', hkeep⟩ := h a r hr
    refine ⟨hs, r', m, hr', hm, hn.trans hn', ?_⟩
    intro heq
    -- a record at the operation's nonce has not moved on since
    obtain ⟨hswept, hcredited⟩ := hkeep (by omega)
    have := hle (by omega)
    rw [hswept]
    omega
  | recoverResidual | withdraw | withdrawFees => exact hsent

theorem Offer.sent {op : UnsignedUserOp} {p : UserOpPurpose} (h : Offer u b op p) : Sent b op p := by
  cases h with
  | @sweep a r m g hrecord hamount hpos _ =>
    exact ⟨rfl, r, m, hrecord, decodeTransferAmount_sweep u a r.claimPk m r.nonce g,
      Nat.le_refl _, fun _ => by omega⟩
  | recovery | batch | fees => rfl

def SentInv (b : Books) : Prop :=
  ∀ {h op p}, .userOpEnqueued h op p ∈ b.history → Sent b op p

theorem Move.sentInv (h : Move u b b') (henqueue : EnqueueInv u b) (hinv : SentInv b) :
    SentInv b' := by
  intro hash op p he
  rcases h.enqueued_cases he with he | ⟨-, -, ho | ⟨k, s, hs, rfl, hchain⟩⟩
  · exact (hinv he).advance h.advances
  · exact ho.sent.advance h.advances
  · have hold : Sent b s.signed.unsigned s.purpose := hinv (henqueue.listed (.submitted hs))
    exact (hold.congr hchain).advance h.advances

/-- Operations enqueued in one lane at one nonce are of one chain. -/
def SiblingInv (u : Usdt) (b : Books) : Prop :=
  Separate u b → ∀ {h op p h' op' p'}, .userOpEnqueued h op p ∈ b.history →
    .userOpEnqueued h' op' p' ∈ b.history → p.lane = p'.lane → op.nonce = op'.nonce →
    op.chain = op'.chain

/-- An operation enqueued earlier in the lane of a new one, at its nonce, is of its chain. -/
theorem sibling_of_enqueued {h' : Hash} {op op' : UnsignedUserOp} {p p' : UserOpPurpose}
    (hchain : ChainInv u b) (henqueue : EnqueueInv u b) (hsep : Separate u b)
    (hnew : Offer u b op p ∨ ∃ k s, b.submitted.get? k = some s ∧ p = s.purpose ∧
      op.chain = s.signed.unsigned.chain)
    (he' : .userOpEnqueued h' op' p' ∈ b.history) (hlane : p.lane = p'.lane)
    (hnonce : op.nonce = op'.nonce) : op.chain = op'.chain := by
  rcases hnew with ho | ⟨k, s, hs, rfl, hop⟩
  · -- the lane of a new chain is idle, but the earlier operation would still be in flight
    have hcurrent : b.nonceOf p'.lane = some op'.nonce := by rw [← hlane, ← hnonce, ho.nonce]
    obtain ⟨k, live, -, hf⟩ := henqueue.current hsep he' hcurrent
    exact absurd hlane.symm (ho.idle _ _ _ _ hf)
  · have hrow := InFlight.submitted hs
    have hsame : op.nonce = s.signed.unsigned.nonce := congrArg (·.nonce) hop
    have hcurrent : b.nonceOf p'.lane = some op'.nonce := by
      rw [← hlane, hchain.nonce hrow, ← hsame, hnonce]
    obtain ⟨k', live', -, hf'⟩ := henqueue.current hsep he' hcurrent
    exact hop.trans (hchain.chain hrow hf' hlane).2

theorem Move.siblingInv (h : Move u b b') (hchain : ChainInv u b) (henqueue : EnqueueInv u b)
    (hinv : SiblingInv u b) : SiblingInv u b' := by
  intro hsep hash op p hash' op' p' he he' hlane hnonce
  have hsep := h.separate hsep
  rcases h.enqueued_cases he with hold | ⟨hhistory, -, hnew⟩ <;>
    rcases h.enqueued_cases he' with hold' | ⟨hhistory', -, hnew'⟩
  · exact hinv hsep hold hold' hlane hnonce
  · exact (sibling_of_enqueued hchain henqueue hsep hnew' hold hlane.symm hnonce.symm).symm
  · exact sibling_of_enqueued hchain henqueue hsep hnew hold' hlane hnonce
  · cases (List.cons.inj (hhistory.symm.trans hhistory')).1
    rfl

/-- What every reachable database knows about the operations it has enqueued. -/
theorem run_sent {db : Db} {tr : List (Item × Answer)} (run : Run (Accepts u) Db.empty tr db) :
    SentInv (u.books db) ∧ SiblingInv u (u.books db) := by
  have hall : EnqueueInv u (u.books db) ∧ SentInv (u.books db) ∧ SiblingInv u (u.books db) := by
    refine run_books (P := fun b => EnqueueInv u b ∧ SentInv b ∧ SiblingInv u b)
      ⟨enqueueInv_empty u, fun he => (by cases he), fun _ _ _ _ _ _ _ he => (by cases he)⟩ ?_ run
    rintro b b' hchain ⟨henqueue, hsent, hsibling⟩ hmove
    exact ⟨hmove.enqueueInv hchain henqueue, hmove.sentInv henqueue hsent,
      hmove.siblingInv hchain henqueue hsibling⟩
  exact hall.2

/-! ## The records against the chain -/

variable {c : Chain} {w w' : World}

/-- Below the tracked nonce of an account every nonce is used, and what left the account at those is
what its record has swept. -/
structure Tracks (c : Chain) (b : Books) : Prop where
  swept : ∀ a r, b.records.get? a = some r →
    c.outflow a (fun i => decide (i < r.nonce)) = r.swept.raw
  used : ∀ a r, b.records.get? a = some r → ∀ n < r.nonce, (a, n) ∈ c.nonces

theorem Tracks.of_eq (h : Tracks c b) (hr : b'.records = b.records) : Tracks c b' where
  swept a r ha := h.swept a r (hr ▸ ha)
  used a r ha := h.used a r (hr ▸ ha)

/-- A settled operation moves the record of its account one nonce on. -/
theorem Tracks.spend {a : EvmAddress} {r r' : DepositRecord} {op : UnsignedUserOp} {success : Bool}
    (h : Tracks c b) (hunique : c.nonces.Nodup) (hr : b.records.get? a = some r)
    (hop : .operation op success ∈ c) (hs : op.sender = a) (hn : op.nonce = r.nonce)
    (hb' : b'.records = b.records.insert a r') (hn' : r'.nonce = r.nonce + 1)
    (hswept : r'.swept.raw = r.swept.raw + if success = true then op.transferred else 0) :
    Tracks c b' := by
  have hcases : ∀ a' r₀, b'.records.get? a' = some r₀ →
      (a' = a ∧ r₀ = r') ∨ b.records.get? a' = some r₀ := fun a' r₀ hr₀ => by
    rw [hb', Table.get?_insert] at hr₀
    split_ifs at hr₀ with ha
    · exact .inl ⟨ha.symm, (Option.some.inj hr₀).symm⟩
    · exact .inr hr₀
  refine ⟨?_, ?_⟩
  · intro a' r₀ hr₀
    rcases hcases a' r₀ hr₀ with ⟨rfl, rfl⟩ | hr₀
    · rw [hn', Chain.outflow_lt_succ, h.swept _ r hr, hswept, ← hs, ← hn,
        Chain.outflow_at hunique hop]
    · exact h.swept a' r₀ hr₀
  · intro a' r₀ hr₀ n hlt
    rcases hcases a' r₀ hr₀ with ⟨rfl, rfl⟩ | hr₀
    · rcases Nat.lt_or_eq_of_le (Nat.le_of_lt_succ (hn' ▸ hlt)) with hlt | rfl
      · exact h.used _ r hr n hlt
      · rw [← hs, ← hn]
        exact Chain.mem_nonces hop
    · exact h.used a' r₀ hr₀ n hlt

theorem Tracks.credit {pk : PublicKey} {r : DepositRecord} {proven delta fee : UsdtAmount}
    {block : Nat} (h : Tracks c b)
    (hr : (b.records.get? (u.depositAccount pk)).getD (Usdt.freshRecord pk) = r) :
    Tracks c (b.credit (u.depositAccount pk) r proven delta fee block) := by
  have hrecord : (r.swept = U64.zero ∧ r.nonce = 0) ∨
      b.records.get? (u.depositAccount pk) = some r := by
    cases hget : b.records.get? (u.depositAccount pk) with
    | none =>
      rw [hget] at hr
      exact .inl (by rw [← hr]; exact ⟨rfl, rfl⟩)
    | some r₀ =>
      rw [hget] at hr
      exact .inr (congrArg some hr)
  refine ⟨fun a r' hr' => ?_, fun a r' hr' n hlt => ?_⟩ <;>
    rw [Books.credit, Table.get?_insert] at hr' <;> split_ifs at hr' with ha
  · subst ha
    obtain rfl := Option.some.inj hr'
    rcases hrecord with ⟨hswept, hn⟩ | hrecord
    · rw [hswept]
      exact Chain.outflow_eq_zero fun op _ _ hlt => absurd (of_decide_eq_true hlt) (by simp [hn])
    · exact h.swept _ r hrecord
  · exact h.swept a r' hr'
  · subst ha
    obtain rfl := Option.some.inj hr'
    rcases hrecord with ⟨-, hn⟩ | hrecord
    · exact absurd hlt (by simp [hn])
    · exact h.used _ r hrecord n hlt
  · exact h.used a r' hr' n hlt

/-- The operation a settlement was reported for. -/
theorem Settle.reported {s : SubmittedUserOp} {share : UsdtAmount} {success : Bool}
    (h : Settle b s share success b') (hreports : ∀ e ∈ b'.history, c.reports e = true) :
    .operation s.signed.unsigned success ∈ c := by
  have hevent : ∃ m, .userOpConfirmed s.signed.unsigned s.purpose success m ∈ b'.history := by
    cases h <;> simp
  obtain ⟨m, hm⟩ := hevent
  exact of_decide_eq_true (hreports _ hm)

theorem Tracks.settle {h : Hash} {s : SubmittedUserOp} {share : UsdtAmount} {success : Bool}
    (htracks : Tracks c b) (hunique : c.nonces.Nodup) (hchain : ChainInv u b) (hsweep : SweepInv b)
    (henqueue : EnqueueInv u b) (hsent : SentInv b) (hs : b.submitted.get? h = some s)
    (hsettle : Settle b s share success b') (hreports : ∀ e ∈ b'.history, c.reports e = true) :
    Tracks c b' := by
  have hop := hsettle.reported hreports
  have hrow := InFlight.submitted hs
  have hsender := hchain.sender hrow
  have hnonce := hchain.nonce hrow
  cases hsettle with
  | @swept a r m hpurpose hr hcall =>
    rw [hpurpose] at hrow hsender hnonce
    obtain ⟨r₀, m₀, hr₀, hm₀, hle⟩ := hsweep hrow
    obtain rfl := Option.some.inj (hr.symm.trans hr₀)
    obtain rfl := Except.ok.inj (hcall.symm.trans hm₀)
    have hn : some r.nonce = some s.signed.unsigned.nonce := by
      rw [← hnonce, UserOpPurpose.lane, nonceOf, hr]
      rfl
    refine htracks.spend hunique hr hop hsender (Option.some.inj hn).symm rfl rfl ?_
    have hmax := r.credited.le_max
    rw [if_pos rfl, UnsignedUserOp.transferred, hcall, U64.raw_least,
      U64.raw_satAdd_of_le (by omega)]
    exact min_eq_left hle
  | @spent a r _ hlane hr hfailed =>
    have hn : some r.nonce = some s.signed.unsigned.nonce := by
      rw [← hnonce, hlane, nonceOf, hr]
      rfl
    rw [hlane] at hsender
    refine htracks.spend hunique hr hop hsender (Option.some.inj hn).symm rfl rfl ?_
    -- a sweep has failed here, and the recovery of a residual moves no tokens
    have hevent := hsent (henqueue.listed (.submitted hs))
    cases hp : s.purpose with
    | deployAndSweep a' =>
      rw [hp] at hlane hfailed
      cases hlane
      rw [hfailed rfl]
      rfl
    | recoverResidual a' =>
      rw [hp] at hevent
      have hzero : s.signed.unsigned.transferred = 0 := hevent
      rw [hzero, ite_self]
      rfl
    | withdraw | withdrawFees =>
      rw [hp] at hlane
      cases hlane
  | paid | requeued | isolated | abandoned | feesPaid | feesReverted => exact htracks.of_eq rfl

/-- What the chain lemma of a move assumes of the books it starts from. -/
structure Orderly (u : Usdt) (b : Books) : Prop where
  chain : ChainInv u b
  payload : PayloadInv b
  enqueue : EnqueueInv u b
  sent : SentInv b

theorem Move.orderly (h : Move u b b') (hk : Orderly u b) : Orderly u b' where
  chain := h.chainInv hk.chain
  payload := h.payloadInv hk.chain hk.payload
  enqueue := h.enqueueInv hk.chain hk.enqueue
  sent := h.sentInv hk.enqueue hk.sent

theorem run_orderly {db : Db} {tr : List (Item × Answer)} (run : Run (Accepts u) Db.empty tr db) :
    Orderly u (u.books db) where
  chain := run_chainInv run
  payload := run_payloadInv run
  enqueue := run_enqueueInv run
  sent := (run_sent run).1

theorem Move.tracks (h : Move u b b') (hk : Orderly u b) (hunique : c.nonces.Nodup)
    (hreports : ∀ e ∈ b'.history, c.reports e = true) (htracks : Tracks c b) : Tracks c b' := by
  cases h with
  | credit hr _ _ => exact htracks.credit hr
  | offer hoffered =>
    obtain ⟨op, p, block, -, -, rfl⟩ := hoffered
    exact htracks.of_eq rfl
  | settle hs hsettle =>
    have hsettled := htracks.settle hunique hk.chain hk.payload.sweep hk.enqueue hk.sent hs hsettle
      hreports
    exact hsettled.of_eq rfl
  | request | claim | replace | finalize => exact htracks.of_eq rfl

/-- The records stay with the chain through an item whose confirmations are true. -/
theorem Accepts.tracks {db db' : Db} {item : Item} {answer : Answer}
    (h : Accepts u db item answer db') (hk : Orderly u (u.books db)) (hunique : c.nonces.Nodup)
    (hreports : ∀ e ∈ db'.history, c.reports e = true) (htracks : Tracks c (u.books db)) :
    Tracks c (u.books db') := by
  have hmoves := (Accepts.effect h hk.chain).moves
  have hall : Orderly u (u.books db') ∧
      ((∀ e ∈ (u.books db').history, c.reports e = true) → Tracks c (u.books db')) := by
    refine hmoves.invariant
      (P := fun b => Orderly u b ∧ ((∀ e ∈ b.history, c.reports e = true) → Tracks c b)) ?_
      ⟨hk, fun _ => htracks⟩
    rintro b b' ⟨hk, htracks⟩ hmove
    refine ⟨hmove.orderly hk, fun hreports => hmove.tracks hk hunique hreports (htracks ?_)⟩
    intro e he
    exact hreports e (hmove.history_sub e he)
  exact hall.2 hreports

/-! ## Runs of the world -/

structure Faithful (u : Usdt) (w : World) : Prop where
  unique : w.chain.nonces.Nodup
  enqueued : ∀ {op success}, .operation op success ∈ w.chain →
    ∃ h p, .userOpEnqueued h op p ∈ w.db.history
  tracks : Tracks w.chain (u.books w.db)
  proven : ∀ q ∈ credits w.db.history, q.2.1 ≤ w.chain.received q.1

/-- An executed operation is at a nonce no record has passed yet. -/
theorem Tracks.cons {e : ChainEvent} (h : Tracks c b)
    (hfresh : ∀ a n, e.nonce = some (a, n) → (a, n) ∉ c.nonces) : Tracks (e :: c) b where
  swept a r hr := by
    rw [Chain.outflow_cons, h.swept a r hr]
    cases e with
    | operation op success =>
      have hpassed : ¬ (success = true ∧ op.sender = a ∧
          decide (op.nonce < r.nonce) = true) := by
        rintro ⟨-, rfl, hlt⟩
        exact hfresh _ _ rfl (h.used _ r hr _ (of_decide_eq_true hlt))
      rw [ChainEvent.outflow, if_neg hpassed, Nat.zero_add]
    | transfer | block => exact Nat.zero_add _
  used a r hr n hlt := by
    obtain ⟨op, success, hop, rfl, rfl⟩ := Chain.of_mem_nonces (h.used a r hr n hlt)
    exact Chain.mem_nonces (List.mem_cons_of_mem _ hop)

theorem Faithful.chain {e : ChainEvent} (h : Faithful u w) (hadmits : w.admits e = true) :
    Faithful u { w with chain := e :: w.chain } := by
  have hreceived : ∀ q ∈ credits w.db.history, q.2.1 ≤ Chain.received (e :: w.chain) q.1 :=
    fun q hq => by
      rw [Chain.received_cons]
      exact (h.proven q hq).trans (Nat.le_add_left _ _)
  cases e with
  | operation op success =>
    simp only [World.admits, Bool.and_eq_true, decide_eq_true_eq] at hadmits
    obtain ⟨hmem, hfresh⟩ := hadmits
    refine ⟨List.nodup_cons.2 ⟨hfresh, h.unique⟩, fun hop => ?_, h.tracks.cons fun a n he => ?_,
      hreceived⟩
    · rcases List.mem_cons.1 hop with hop | hop
      · cases hop
        obtain ⟨⟨k, op'⟩, hq, rfl⟩ := List.mem_map.1 hmem
        exact ⟨k, of_mem_enqueued hq⟩
      · exact h.enqueued hop
    · cases he
      exact hfresh
  | transfer | block =>
    refine ⟨h.unique, fun hop => ?_, h.tracks.cons (fun a n he => nomatch he), hreceived⟩
    rcases List.mem_cons.1 hop with hop | hop
    · cases hop
    · exact h.enqueued hop

/-- A true proof shows no more than its account has received. -/
theorem Usdt.provesBalance_le {item : Item} {answer : Answer} (h : u.provesBalance c item = true) :
    ∀ q ∈ item.credits u answer, q.2.1 ≤ c.received q.1 := by
  intro q hq
  unfold Item.credits at hq
  split at hq
  · rename_i pk proof fee m
    cases List.mem_singleton.1 hq
    simp only [provesBalance, Bool.and_eq_true, decide_eq_true_eq] at h
    have hbalance := (c.upTo proof.blockNumber).balance_le_received (u.depositAccount pk)
    have hreceived := c.received_upTo_le proof.blockNumber (u.depositAccount pk)
    have hproven := h.2
    show (u.provenBalance pk proof).raw ≤ c.received (u.depositAccount pk)
    omega
  · cases hq

theorem Faithful.module {db' : Db} {item : Item} {answer : Answer} (h : Faithful u w)
    (hk : Orderly u (u.books w.db)) (haccepts : Accepts u w.db item answer db')
    (htrue : u.truthful w.chain item db' = true) : Faithful u { w with db := db' } := by
  rw [Usdt.truthful, Bool.and_eq_true, List.all_eq_true] at htrue
  have heffect := Accepts.effect haccepts hk.chain
  have hsub : ∀ e ∈ w.db.history, e ∈ db'.history := heffect.moves.invariant
    (P := fun b => ∀ e ∈ w.db.history, e ∈ b.history)
    (fun b b' hb hm e he => hm.history_sub e (hb e he)) fun e he => he
  refine ⟨h.unique, fun hop => ?_, haccepts.tracks hk h.unique htrue.2 h.tracks, fun q hq => ?_⟩
  · obtain ⟨k, p, he⟩ := h.enqueued hop
    exact ⟨k, p, hsub _ he⟩
  · have hcredits : credits db'.history = item.credits u answer ++ credits w.db.history :=
      heffect.credits
    rw [hcredits] at hq
    rcases List.mem_append.1 hq with hq | hq
    · exact Usdt.provesBalance_le htrue.1 q hq
    · exact h.proven q hq

theorem run_faithful {tr : List (WorldItem × Answer)}
    (run : Run (Steps u.worldStep) World.start tr w) : Faithful u w := by
  induction run with
  | start =>
    exact ⟨List.nodup_nil, fun hop => (by cases hop),
      ⟨fun _ _ hr => (by cases hr), fun _ _ hr => (by cases hr)⟩, fun _ hq => (by cases hq)⟩
  | @next tr w w' item answer run h ih =>
    cases item with
    | chain e =>
      obtain ⟨hadmits, rfl⟩ := Usdt.worldStep_chain h
      exact ih.chain hadmits
    | module item =>
      obtain ⟨db', haccepts, htrue, rfl⟩ := Usdt.worldStep_module h
      exact ih.module (run_orderly (run_module run)) haccepts htrue

/-- The account holds what the operation moves. -/
def Chain.Covers (c : Chain) (a : EvmAddress) (op : UnsignedUserOp) : Prop :=
  ∃ m, decodeTransferAmount op = .ok m ∧ (m.raw : Int) ≤ c.balance a

variable {a : EvmAddress}

theorem Faithful.credited_le (h : Faithful u w) (hcredit : CreditInv (u.books w.db) a) :
    (u.books w.db).creditedOf a ≤ w.chain.received a := by
  rw [← hcredit.largest]
  exact largestFor_le fun q hq ha => ha ▸ h.proven q hq

/-- Tokens leave a deposit account through sweeps only, so at nonces its record knows. -/
theorem Faithful.outflow_le {r : DepositRecord} (h : Faithful u w) (hsent : SentInv (u.books w.db))
    (hr : w.db.depositRecord.get? a = some r) :
    w.chain.outflow a (fun _ => true) = w.chain.outflow a (fun i => decide (i < r.nonce + 1)) := by
  refine congrArg List.sum (List.map_congr_left ?_)
  intro e he
  cases e with
  | transfer | block => rfl
  | operation op success =>
    obtain ⟨k, p, hevent⟩ := h.enqueued he
    have hop := hsent hevent
    by_cases hs : op.sender = a
    · cases p with
      | deployAndSweep a' =>
        obtain ⟨hs', r', _, hr', -, hn, -⟩ := hop
        obtain rfl := hs'.symm.trans hs
        obtain rfl := Option.some.inj (hr.symm.trans hr')
        have hlt : op.nonce < r.nonce + 1 := Nat.lt_succ_of_le hn
        simp [ChainEvent.outflow, hlt]
      | recoverResidual | withdraw | withdrawFees =>
        have hzero : op.transferred = 0 := hop
        simp [ChainEvent.outflow, hzero]
    · simp [ChainEvent.outflow, hs]

/-- **A sweep is covered until its nonce is used.** -/
theorem Faithful.covers {k : Hash} {op : UnsignedUserOp} (h : Faithful u w)
    (hsent : SentInv (u.books w.db)) (hcredit : CreditInv (u.books w.db) a)
    (he : .userOpEnqueued k op (.deployAndSweep a) ∈ w.db.history)
    (hunused : (op.sender, op.nonce) ∉ w.chain.nonces) : w.chain.Covers a op := by
  obtain ⟨hs, r, m, hr, hm, hn, hle⟩ := hsent he
  subst hs
  have hcurrent : op.nonce = r.nonce := by
    rcases Nat.lt_or_eq_of_le hn with hlt | heq
    · exact absurd (h.tracks.used _ r hr _ hlt) hunused
    · exact heq
  have hreceived := h.credited_le hcredit
  have hcredited : (u.books w.db).creditedOf op.sender = r.credited.raw := by
    rw [Books.creditedOf, hr]
    rfl
  have houtflow : w.chain.outflow op.sender (fun _ => true) = r.swept.raw := by
    rw [h.outflow_le hsent hr, Chain.outflow_lt_succ, h.tracks.swept _ r hr,
      Chain.outflow_unused (hcurrent ▸ hunused), Nat.add_zero]
  refine ⟨m, hm, ?_⟩
  have := hle hcurrent
  unfold Chain.balance
  omega

/-- **High-water crediting never over-mints, and sweeps never overdraw.**  What is minted for an
account is what is credited and claimed, and the largest balance proven for it; next to a chain that
the module is told the truth about, it is no more than the account has received.  An enqueued sweep
is covered by the balance of its account until an operation of its sender and nonce is executed, so
in particular when the first one at this nonce is enqueued; without hash collisions, operations of
one sender and nonce are one replacement chain. -/
theorem high_water_mark (u : Usdt) (a : EvmAddress) :
    (∀ tr db, Run (Accepts u) Db.empty tr db →
      mintedFor a (acceptedCredits u tr) = (u.books db).creditedOf a ∧
        (u.books db).claimedOf a = (u.books db).creditedOf a ∧
        largestFor a (acceptedCredits u tr) = (u.books db).creditedOf a) ∧
    ∀ tr w, Run (Steps u.worldStep) World.start tr w →
      mintedFor a (acceptedCredits u (moduleTrace tr)) ≤ w.chain.received a ∧
      (∀ k op, .userOpEnqueued k op (.deployAndSweep a) ∈ w.db.history →
        (op.sender, op.nonce) ∉ w.chain.nonces → w.chain.Covers a op) ∧
      (∀ item answer w', Steps u.worldStep w (.module item) answer w' →
        ∀ k op, .userOpEnqueued k op (.deployAndSweep a) ∈ w'.db.history →
          (∀ q ∈ enqueued w.db.history, q.2.sender = op.sender → q.2.nonce ≠ op.nonce) →
          w'.chain.Covers a op) ∧
      ((∀ r ∈ w.db.depositRecord.rows, r.1 ≠ u.poolAccount) →
        (∀ q ∈ enqueued w.db.history, ∀ q' ∈ enqueued w.db.history,
          u.opHash q.2 = u.opHash q'.2 → q.2 = q'.2) →
        ∀ k op, .userOpEnqueued k op (.deployAndSweep a) ∈ w.db.history →
          ∀ op' success, .operation op' success ∈ w.chain → op'.sender = op.sender →
            op'.nonce = op.nonce → op'.chain = op.chain) := by
  refine ⟨?_, fun tr w run => ⟨?_, ?_, ?_, ?_⟩⟩
  · intro tr db run
    have hcredit := run_creditInv a run
    rw [← (run_history run).2.2.2]
    exact ⟨hcredit.minted, hcredit.claimed, hcredit.largest⟩
  · have hcredit := run_creditInv a (run_module run)
    rw [← (run_history (run_module run)).2.2.2]
    exact hcredit.minted.trans_le ((run_faithful run).credited_le hcredit)
  · intro k op he hunused
    exact (run_faithful run).covers (run_sent (run_module run)).1
      (run_creditInv a (run_module run)) he hunused
  · intro item answer w' hstep k op he hfirst
    have run' := run.next hstep
    refine (run_faithful run').covers (run_sent (run_module run')).1
      (run_creditInv a (run_module run')) he ?_
    intro hused
    -- the chain executes what was enqueued before
    obtain ⟨db', -, -, rfl⟩ := Usdt.worldStep_module hstep
    obtain ⟨op', success, hop, hs, hn⟩ := Chain.of_mem_nonces hused
    obtain ⟨k', p', he'⟩ := (run_faithful run).enqueued hop
    exact hfirst _ (mem_enqueued he') hs hn
  · intro hpool hcollision k op he op' success hop hs hn
    have hsep := separate_of_rows hpool hcollision
    have henqueue := run_enqueueInv (run_module run)
    obtain ⟨k', p', he'⟩ := (run_faithful run).enqueued hop
    obtain ⟨-, hs₁, _, hn₁, -⟩ := henqueue.event he
    obtain ⟨-, hs₂, _, hn₂, -⟩ := henqueue.event he'
    have hlane := hsep.lane hn₂ hn₁ (by rw [← hs₁, ← hs₂, hs])
    exact (run_sent (run_module run)).2 hsep he' he hlane hn

/-- A transfer is proven and credited, and its sweep is on the way. -/
theorem high_water_mark_sample :
    ∃ tr w, Run (Steps sampleUsdt.worldStep) World.start tr w ∧
      (sampleUsdt.books w.db).creditedOf Sample.account = 50000 ∧
      mintedFor Sample.account (acceptedCredits sampleUsdt (moduleTrace tr)) =
        (sampleUsdt.books w.db).creditedOf Sample.account ∧
      mintedFor Sample.account (acceptedCredits sampleUsdt (moduleTrace tr)) ≤
        w.chain.received Sample.account ∧
      w.chain.Covers Sample.account (Sample.sweep 50000 0) := by
  obtain ⟨tr, w, run, hw⟩ := Run.exists_of_exec sampleUsdt.worldStep World.start
    ([.chain (.transfer Sample.account 50000), .chain .block, .chain .block] ++
      (Sample.anchor 1 ++ [Sample.vote (.feeVote ⟨1, 1⟩), Sample.deposit 1 50000 10000]).map
        .module)
    (fun _ w => decide ((sampleUsdt.books w.db).creditedOf Sample.account = 50000) &&
      decide (.userOpEnqueued (sampleUsdt.opHash (Sample.sweep 50000 0)) (Sample.sweep 50000 0)
        (.deployAndSweep Sample.account) ∈ w.db.history) &&
      decide (((Sample.sweep 50000 0).sender, (Sample.sweep 50000 0).nonce) ∉ w.chain.nonces))
    (by decide +kernel)
  simp only [Bool.and_eq_true, decide_eq_true_eq] at hw
  obtain ⟨⟨hcredited, he⟩, hunused⟩ := hw
  obtain ⟨hmodule, hworld⟩ := high_water_mark sampleUsdt Sample.account
  obtain ⟨hreceived, hcovered, -⟩ := hworld tr w run
  exact ⟨tr, w, run, hcredited, (hmodule _ _ (run_module run)).1, hreceived,
    hcovered _ _ he hunused⟩

/-- The sweep at the price of its first replacement. -/
def Sample.repricedSweep : UnsignedUserOp :=
  let op := Sample.sweep 50000 0
  { op with
    maxFeePerGas := (Usdt.repricedUserOpFees op ⟨1, 1⟩).maxFeePerGas
    maxPriorityFeePerGas := (Usdt.repricedUserOpFees op ⟨1, 1⟩).maxPriorityFeePerGas }

/-- The chain has executed a sweep that the module takes for stuck: the replacement is enqueued for
an account that is already empty. -/
theorem replacement_exceeds_balance :
    ∃ tr w w', Run (Steps sampleUsdt.worldStep) World.start tr w ∧
      Steps sampleUsdt.worldStep w
        (.module (Sample.vote (.replaceUserOp (sampleUsdt.opHash (Sample.sweep 50000 0)))))
        .recorded w' ∧
      w'.db.history = .userOpEnqueued (sampleUsdt.opHash Sample.repricedSweep) Sample.repricedSweep
        (.deployAndSweep Sample.account) :: w.db.history ∧
      decodeTransferAmount Sample.repricedSweep = .ok (U64.clamp 50000) ∧
      w'.chain.balance Sample.account = 0 := by
  obtain ⟨tr, w, run, hw⟩ := Run.exists_of_exec sampleUsdt.worldStep World.start
    ([.chain (.transfer Sample.account 50000), .chain .block, .chain .block] ++
      Sample.replacement.dropLast.map .module ++
      [.chain (.operation (Sample.sweep 50000 0) true)])
    (fun _ w => (sampleUsdt.worldStep w
      (.module (Sample.vote (.replaceUserOp (sampleUsdt.opHash (Sample.sweep 50000 0)))))).any
        fun (r : Answer × World) => decide (r.1 = .recorded) && decide (r.2.db.history =
          .userOpEnqueued (sampleUsdt.opHash Sample.repricedSweep) Sample.repricedSweep
            (.deployAndSweep Sample.account) :: w.db.history) &&
          decide (r.2.chain.balance Sample.account = 0))
    (by decide +kernel)
  simp only [Option.any_eq_true, Bool.and_eq_true, decide_eq_true_eq] at hw
  obtain ⟨⟨answer, w'⟩, hstep, ⟨rfl, hhistory⟩, hbalance⟩ := hw
  exact ⟨tr, w, w', run, hstep, hhistory, by decide +kernel, hbalance⟩

end Experimint.FedimintUsdt
