import Experimint.Usdt.Books

/-!
# Replacement chains

Ops of a lane are enqueued in four places, replaced in a fifth and removed in two, each guarded by
its own scan.  `ChainInv` is what they maintain together: in every lane the operations in flight
are one replacement chain at the lane's tracked nonce, with at most one live member.

* `Move.chainInv` is the step lemma, assembled from one lemma a move.
* `ChainInv.idle_finish` is the heart of it: settling an operation empties its lane.
-/

set_option autoImplicit false

namespace Experimint.FedimintUsdt

open Books

structure ChainInv (u : Usdt) (b : Books) : Prop where
  account : b.pool.account = u.poolAccount
  keyed : ∀ {k op p live}, b.InFlight k op p live → u.opHash op = k.hash
  sender : ∀ {k op p live}, b.InFlight k op p live → op.sender = p.lane.address u
  nonce : ∀ {k op p live}, b.InFlight k op p live → b.nonceOf p.lane = some op.nonce
  chain : ∀ {k op p live k' op' p' live'}, b.InFlight k op p live → b.InFlight k' op' p' live' →
    p.lane = p'.lane → p = p' ∧ op.chain = op'.chain
  live : ∀ {k op p k' op' p'}, b.InFlight k op p true → b.InFlight k' op' p' true →
    p.lane = p'.lane → k = k'
  apart : ∀ {h op p live op' p' live'}, b.InFlight (.pending h) op p live →
    b.InFlight (.submitted h) op' p' live' → p.lane ≠ p'.lane

/-! ## Rows after a move -/

namespace Books

variable {b b' : Books} {k : Slot} {h : Hash} {op op' : UnsignedUserOp} {p p' : UserOpPurpose}
  {live : Bool}

theorem InFlight.congr (hf : b'.InFlight k op p live) (hp : b'.pending = b.pending)
    (hs : b'.submitted = b.submitted) : b.InFlight k op p live := by
  cases hf with
  | pending h => exact .pending (hp ▸ h)
  | submitted h => exact .submitted (hs ▸ h)

theorem InFlight.of_offer {block : Nat} (hf : (b.offer h op p block).InFlight k op' p' live) :
    (k = .pending h ∧ op' = op ∧ p' = p ∧ live = true) ∨
      (k ≠ .pending h ∧ b.InFlight k op' p' live) := by
  cases hf with
  | @pending h' r hr =>
    have hr : (b.pending.insert h ⟨op, p, block⟩).get? h' = some r := hr
    rw [Table.get?_insert] at hr
    split_ifs at hr with hh
    · cases hr; subst hh; exact .inl ⟨rfl, rfl, rfl, rfl⟩
    · exact .inr ⟨fun he => hh (Slot.pending.inj he).symm, .pending hr⟩
  | submitted hr => exact .inr ⟨nofun, .submitted hr⟩

/-- Rows after a submitted row is replaced by another. -/
theorem InFlight.of_setSubmitted {s : SubmittedUserOp}
    (hf : InFlight { b with submitted := b.submitted.insert h s } k op p live) :
    (k = .submitted h ∧ op = s.signed.unsigned ∧ p = s.purpose ∧ live = !s.superseded) ∨
      (k ≠ .submitted h ∧ b.InFlight k op p live) := by
  cases hf with
  | pending hr => exact .inr ⟨nofun, .pending hr⟩
  | @submitted h' r hr =>
    have hr : (b.submitted.insert h s).get? h' = some r := hr
    rw [Table.get?_insert] at hr
    split_ifs at hr with hh
    · cases hr; subst hh; exact .inl ⟨rfl, rfl, rfl, rfl⟩
    · exact .inr ⟨fun he => hh (Slot.submitted.inj he).symm, .submitted hr⟩

theorem InFlight.of_erasePending
    (hf : InFlight { b with pending := b.pending.erase h } k op p live) :
    k ≠ .pending h ∧ b.InFlight k op p live := by
  cases hf with
  | @pending h' r hr =>
    have hr : (b.pending.erase h).get? h' = some r := hr
    obtain ⟨hne, hr⟩ := Table.get?_of_erase hr
    exact ⟨fun he => hne (Slot.pending.inj he), .pending hr⟩
  | submitted hr => exact ⟨nofun, .submitted hr⟩

/-- Rows that outlive a settlement are another account's, another nonce's, or pending under the
settled hash. -/
theorem InFlight.of_finish (hf : (b.finish h op).InFlight k op' p' live) :
    b.InFlight k op' p' live ∧ k ≠ .submitted h ∧
      (op'.sender = op.sender → op'.nonce = op.nonce → k = .pending h) := by
  cases hf with
  | @pending h' r hr =>
    have hr := Table.get?_filter_eq_some.1 hr
    refine ⟨.pending hr.1, nofun, ?_⟩
    intro hs hn
    have := hr.2
    simp only [hs, hn, decide_true, Bool.and_true, Bool.not_eq_true', decide_eq_false_iff_not,
      not_not] at this
    rw [this]
  | @submitted h' r hr =>
    have hr := Table.get?_filter_eq_some.1 hr
    have hrow := hr.2
    simp only [Bool.and_eq_true, decide_eq_true_eq, Bool.not_eq_true', Bool.and_eq_false_iff,
      decide_eq_false_iff_not] at hrow
    refine ⟨.submitted hr.1, fun he => hrow.1 (Slot.submitted.inj he), ?_⟩
    intro hs hn
    exact (hrow.2.elim (fun h => h hs) fun h => h hn).elim

end Books

/-! ## Moves keep the chains -/

variable {u : Usdt} {b b' : Books}

/-- The invariant depends on the operation tables, the pool's account and the tracked nonces. -/
theorem ChainInv.congr (hinv : ChainInv u b) (hp : b'.pending = b.pending)
    (hs : b'.submitted = b.submitted) (ha : b'.pool.account = b.pool.account)
    (hn : ∀ l n, b.nonceOf l = some n → b'.nonceOf l = some n) : ChainInv u b' where
  account := ha.trans hinv.account
  keyed hf := hinv.keyed (hf.congr hp hs)
  sender hf := hinv.sender (hf.congr hp hs)
  nonce hf := hn _ _ (hinv.nonce (hf.congr hp hs))
  chain hf hf' := hinv.chain (hf.congr hp hs) (hf'.congr hp hs)
  live hf hf' := hinv.live (hf.congr hp hs) (hf'.congr hp hs)
  apart hf hf' := hinv.apart (hf.congr hp hs) (hf'.congr hp hs)

theorem Offer.sender {op : UnsignedUserOp} {p : UserOpPurpose} (h : Offer u b op p)
    (ha : b.pool.account = u.poolAccount) : op.sender = p.lane.address u := by
  cases h with
  | sweep _ _ _ _ => rfl
  | recovery _ _ => rfl
  | batch _ _ _ _ => exact ha
  | fees _ _ _ => exact ha

theorem Offer.nonce {op : UnsignedUserOp} {p : UserOpPurpose} (h : Offer u b op p) :
    b.nonceOf p.lane = some op.nonce := by
  cases h with
  | sweep hrecord _ _ _ => exact congrArg (Option.map (·.nonce)) hrecord
  | recovery hrecord _ => exact congrArg (Option.map (·.nonce)) hrecord
  | batch _ _ _ _ => rfl
  | fees _ _ _ => rfl

theorem Offer.idle {op : UnsignedUserOp} {p : UserOpPurpose} (h : Offer u b op p) :
    b.Idle p.lane := by
  cases h with
  | sweep _ _ _ hidle => exact hidle
  | recovery _ hidle => exact hidle
  | batch hidle _ _ _ => exact hidle
  | fees hidle _ _ => exact hidle

/-- A new operation in an idle lane starts a chain of its own. -/
theorem ChainInv.offer {op : UnsignedUserOp} {p : UserOpPurpose} {block : Nat}
    (hinv : ChainInv u b) (ho : Offer u b op p) :
    ChainInv u (b.offer (u.opHash op) op p block) where
  account := hinv.account
  keyed hf := by
    rcases hf.of_offer with ⟨rfl, rfl, rfl, rfl⟩ | ⟨_, hb⟩
    · rfl
    · exact hinv.keyed hb
  sender hf := by
    rcases hf.of_offer with ⟨rfl, rfl, rfl, rfl⟩ | ⟨_, hb⟩
    · exact ho.sender hinv.account
    · exact hinv.sender hb
  nonce hf := by
    rcases hf.of_offer with ⟨rfl, rfl, rfl, rfl⟩ | ⟨_, hb⟩
    · exact ho.nonce
    · exact hinv.nonce hb
  chain hf hf' hlane := by
    rcases hf.of_offer with ⟨rfl, rfl, rfl, rfl⟩ | ⟨_, hb⟩ <;>
      rcases hf'.of_offer with ⟨rfl, rfl, rfl, rfl⟩ | ⟨_, hb'⟩
    · exact ⟨rfl, rfl⟩
    · exact absurd hlane.symm (ho.idle _ _ _ _ hb')
    · exact absurd hlane (ho.idle _ _ _ _ hb)
    · exact hinv.chain hb hb' hlane
  live hf hf' hlane := by
    rcases hf.of_offer with ⟨rfl, rfl, rfl, -⟩ | ⟨_, hb⟩ <;>
      rcases hf'.of_offer with ⟨rfl, rfl, rfl, -⟩ | ⟨_, hb'⟩
    · rfl
    · exact absurd hlane.symm (ho.idle _ _ _ _ hb')
    · exact absurd hlane (ho.idle _ _ _ _ hb)
    · exact hinv.live hb hb' hlane
  apart hf hf' hlane := by
    rcases hf'.of_offer with ⟨hk, -⟩ | ⟨_, hb'⟩
    · cases hk
    rcases hf.of_offer with ⟨-, rfl, rfl, rfl⟩ | ⟨_, hb⟩
    · exact ho.idle _ _ _ _ hb' hlane.symm
    · exact hinv.apart hb hb' hlane

/-- The invariant survives when every row continues the chain of an old row. -/
theorem ChainInv.of_rows (hinv : ChainInv u b) (ha : b'.pool.account = b.pool.account)
    (hn : ∀ {k op p live}, b'.InFlight k op p live → b'.nonceOf p.lane = b.nonceOf p.lane)
    (hold : ∀ {k op p live}, b'.InFlight k op p live → u.opHash op = k.hash ∧
      ∃ k₀ op₀ live₀, b.InFlight k₀ op₀ p live₀ ∧ op.chain = op₀.chain)
    (hlive : ∀ {k op p k' op' p'}, b'.InFlight k op p true → b'.InFlight k' op' p' true →
      p.lane = p'.lane → k = k')
    (hapart : ∀ {h op p live op' p' live'}, b'.InFlight (.pending h) op p live →
      b'.InFlight (.submitted h) op' p' live' → p.lane ≠ p'.lane) : ChainInv u b' where
  account := ha.trans hinv.account
  keyed hf := (hold hf).1
  sender hf := by
    obtain ⟨-, _, op₀, _, hb, hc⟩ := hold hf
    have hsender : _ = op₀.sender := congrArg (·.sender) hc
    exact hsender.trans (hinv.sender hb)
  nonce hf := by
    obtain ⟨-, _, op₀, _, hb, hc⟩ := hold hf
    have hnonce : _ = op₀.nonce := congrArg (·.nonce) hc
    rw [hn hf, hinv.nonce hb, ← hnonce]
    rfl
  chain hf hf' hlane := by
    obtain ⟨-, _, _, _, hb, hc⟩ := hold hf
    obtain ⟨-, _, _, _, hb', hc'⟩ := hold hf'
    obtain ⟨hp, hchain⟩ := hinv.chain hb hb' hlane
    exact ⟨hp, hc.trans (hchain.trans hc'.symm)⟩
  live := hlive
  apart := hapart

/-- Rows after a replacement: the new one, the superseded one, and the old ones. -/
theorem Books.InFlight.of_replace {h h' : Hash} {s : SubmittedUserOp} {op op' : UnsignedUserOp}
    {p' : UserOpPurpose} {live : Bool} {block : Nat} {k : Slot}
    (hf : InFlight { b.offer h' op s.purpose block with
      submitted := b.submitted.insert h { s with superseded := true } } k op' p' live) :
    (k = .pending h' ∧ op' = op ∧ p' = s.purpose) ∨
      (k = .submitted h ∧ op' = s.signed.unsigned ∧ p' = s.purpose ∧ live = false) ∨
      (k ≠ .submitted h ∧ b.InFlight k op' p' live) := by
  rcases InFlight.of_setSubmitted (b := b.offer h' op s.purpose block) hf with
    ⟨hk, ho, hp, hl⟩ | ⟨hk, hf⟩
  · exact .inr (.inl ⟨hk, ho, hp, hl⟩)
  · rcases hf.of_offer with ⟨hk, ho, hp, -⟩ | ⟨_, hf⟩
    · exact .inl ⟨hk, ho, hp⟩
    · exact .inr (.inr ⟨hk, hf⟩)

/-- A replacement is the live member of its chain, and the replaced operation is superseded. -/
theorem ChainInv.replace {h : Hash} {s : SubmittedUserOp} {op : UnsignedUserOp} {block : Nat}
    (hinv : ChainInv u b) (hs : b.submitted.get? h = some s) (hlive : s.superseded = false)
    (hchain : op.chain = s.signed.unsigned.chain)
    (hnew : b.pending.get? (u.opHash op) = none ∧ b.submitted.get? (u.opHash op) = none) :
    ChainInv u
      { b.offer (u.opHash op) op s.purpose block with
        submitted := b.submitted.insert h { s with superseded := true } } := by
  have hrow : b.InFlight (.submitted h) s.signed.unsigned s.purpose true := by
    simpa [hlive] using InFlight.submitted hs
  refine hinv.of_rows rfl (fun _ => rfl) (fun hf => ?_) (fun hf hf' hlane => ?_)
    (fun hf hf' hlane => ?_)
  · rcases hf.of_replace with ⟨rfl, rfl, rfl⟩ | ⟨rfl, rfl, rfl, rfl⟩ | ⟨_, hb⟩
    · exact ⟨rfl, _, _, _, hrow, hchain⟩
    · exact ⟨hinv.keyed hrow, _, _, _, hrow, rfl⟩
    · exact ⟨hinv.keyed hb, _, _, _, hb, rfl⟩
  · -- a live row of the lane in the old books is the replaced one, which is not live any more
    have honly : ∀ {k op' p'}, k ≠ .submitted h → b.InFlight k op' p' true →
        p'.lane ≠ s.purpose.lane := fun hk hb hl => hk (hinv.live hb hrow hl)
    rcases hf.of_replace with ⟨rfl, rfl, rfl⟩ | ⟨_, _, _, hl⟩ | ⟨hk, hb⟩
    · rcases hf'.of_replace with ⟨rfl, rfl, rfl⟩ | ⟨_, _, _, hl⟩ | ⟨hk', hb'⟩
      · rfl
      · cases hl
      · exact absurd hlane.symm (honly hk' hb')
    · cases hl
    · rcases hf'.of_replace with ⟨rfl, rfl, rfl⟩ | ⟨_, _, _, hl⟩ | ⟨hk', hb'⟩
      · exact absurd hlane (honly hk hb)
      · cases hl
      · exact hinv.live hb hb' hlane
  · -- the new hash was free in both tables
    rcases hf.of_replace with ⟨hk, -⟩ | ⟨hk, -⟩ | ⟨_, hb⟩
    · cases hk
      rcases hf'.of_replace with ⟨hk', -⟩ | ⟨hk', -⟩ | ⟨_, hb'⟩
      · cases hk'
      · cases hk'
        rw [hnew.2] at hs
        cases hs
      · cases hb' with
        | submitted hr => rw [hnew.2] at hr; cases hr
    · cases hk
    · rcases hf'.of_replace with ⟨hk', -⟩ | ⟨hk', rfl, rfl, rfl⟩ | ⟨_, hb'⟩
      · cases hk'
      · cases hk'
        exact hinv.apart hb hrow hlane
      · exact hinv.apart hb hb' hlane

/-- Rows after a signature: the submitted one took the place of the pending one. -/
theorem Books.InFlight.of_finalize {h : Hash} {s : SubmittedUserOp} {op : UnsignedUserOp}
    {p : UserOpPurpose} {live : Bool} {k : Slot} {history : List Event}
    (hf : InFlight { b with
      submitted := b.submitted.insert h s
      pending := b.pending.erase h
      history := history } k op p live) :
    (k = .submitted h ∧ op = s.signed.unsigned ∧ p = s.purpose) ∨
      (k ≠ .submitted h ∧ k ≠ .pending h ∧ b.InFlight k op p live) := by
  rcases InFlight.of_setSubmitted
    (b := { b with pending := b.pending.erase h, history := history }) hf with
    ⟨hk, ho, hp, -⟩ | ⟨hk, hf⟩
  · exact .inl ⟨hk, ho, hp⟩
  · obtain ⟨hk', hf⟩ := InFlight.of_erasePending (b := { b with history := history }) hf
    exact .inr ⟨hk, hk', hf.congr rfl rfl⟩

/-- A submitted operation takes the place of its pending row. -/
theorem ChainInv.finalize {h : Hash} {p : PendingUserOp} {signature : Bytes} {block : Nat}
    {history : List Event} (hinv : ChainInv u b) (hp : b.pending.get? h = some p) :
    ChainInv u
      { b with
        submitted := b.submitted.insert h ⟨⟨p.op, signature⟩, p.purpose, block, false⟩
        pending := b.pending.erase h
        history := history } := by
  have hrow : b.InFlight (.pending h) p.op p.purpose true := .pending hp
  have hkey : u.opHash p.op = h := hinv.keyed hrow
  refine hinv.of_rows rfl (fun _ => rfl) (fun hf => ?_) (fun hf hf' hlane => ?_)
    (fun hf hf' hlane => ?_)
  · rcases hf.of_finalize with ⟨rfl, rfl, rfl⟩ | ⟨_, _, hb⟩
    · exact ⟨hkey, _, _, _, hrow, rfl⟩
    · exact ⟨hinv.keyed hb, _, _, _, hb, rfl⟩
  · -- the live row of the lane was the pending one, which is gone
    have honly : ∀ {k op' p'}, k ≠ .pending h → b.InFlight k op' p' true →
        p'.lane ≠ p.purpose.lane := fun hk hb hl => hk (hinv.live hb hrow hl)
    rcases hf.of_finalize with ⟨rfl, rfl, rfl⟩ | ⟨_, hk, hb⟩
    · rcases hf'.of_finalize with ⟨rfl, rfl, rfl⟩ | ⟨_, hk', hb'⟩
      · rfl
      · exact absurd hlane.symm (honly hk' hb')
    · rcases hf'.of_finalize with ⟨rfl, rfl, rfl⟩ | ⟨_, hk', hb'⟩
      · exact absurd hlane (honly hk hb)
      · exact hinv.live hb hb' hlane
  · rcases hf.of_finalize with ⟨hk, -⟩ | ⟨_, hk, hb⟩
    · cases hk
    rcases hf'.of_finalize with ⟨hk', -⟩ | ⟨_, _, hb'⟩
    · cases hk'; exact hk rfl
    · exact hinv.apart hb hb' hlane

/-! ## Settlement empties a lane -/

/-- What a settlement leaves alone: the operation tables, and the nonces of other lanes. -/
structure Settle.Frame (b : Books) (s : SubmittedUserOp) (b' : Books) : Prop where
  pending : b'.pending = b.pending
  submitted : b'.submitted = b.submitted
  account : b'.pool.account = b.pool.account
  nonce : ∀ l, l ≠ s.purpose.lane → b'.nonceOf l = b.nonceOf l
  spent : b'.nonceOf s.purpose.lane = (b.nonceOf s.purpose.lane).map (· + 1)

theorem nonceOf_insert_ne {a : EvmAddress} {r : DepositRecord} {l : Lane} (hl : l ≠ .deposit a) :
    ({ b with records := b.records.insert a r } : Books).nonceOf l = b.nonceOf l := by
  cases l with
  | pool => rfl
  | deposit a' =>
    have hne : a ≠ a' := fun he => hl (he ▸ rfl)
    simp only [nonceOf, Table.get?_insert_ne _ _ hne]

theorem Settle.frame {s : SubmittedUserOp} {share : UsdtAmount} {success : Bool}
    (h : Settle b s share success b') : Settle.Frame b s b' := by
  cases h with
  | swept hpurpose hrecord _ =>
    refine ⟨rfl, rfl, rfl, ?_, ?_⟩
    · intro l hl
      rw [hpurpose] at hl
      exact nonceOf_insert_ne hl
    · simp [hpurpose, UserOpPurpose.lane, nonceOf, hrecord]
  | spent hlane hrecord _ =>
    refine ⟨rfl, rfl, rfl, ?_, ?_⟩
    · intro l hl
      rw [hlane] at hl
      exact nonceOf_insert_ne hl
    · simp [hlane, nonceOf, hrecord]
  | paid hpurpose _ | requeued hpurpose | isolated hpurpose _ _ | abandoned hpurpose _
  | feesPaid hpurpose _ | feesReverted hpurpose =>
    refine ⟨rfl, rfl, rfl, ?_, ?_⟩
    · intro l hl
      rw [hpurpose] at hl
      cases l with
      | pool => exact absurd rfl hl
      | deposit _ => rfl
    · simp [hpurpose, UserOpPurpose.lane, nonceOf]

/-- **Settling an operation empties its lane**: the chain shares its sender and nonce. -/
theorem ChainInv.idle_finish {h : Hash} {s : SubmittedUserOp} (hinv : ChainInv u b)
    (hs : b.submitted.get? h = some s) (hp : b'.pending = b.pending)
    (hsub : b'.submitted = b.submitted) :
    (b'.finish h s.signed.unsigned).Idle s.purpose.lane := by
  intro k op p live hf hlane
  have hrow := InFlight.submitted hs
  obtain ⟨hb, hk, hpurge⟩ := hf.of_finish
  have hb := hb.congr hp hsub
  have hsender : op.sender = s.signed.unsigned.sender := by
    rw [hinv.sender hb, hinv.sender hrow, hlane]
  have hnonce : some op.nonce = some s.signed.unsigned.nonce := by
    rw [← hinv.nonce hb, ← hinv.nonce hrow, hlane]
  have hkeep := hpurge hsender (Option.some.inj hnonce)
  subst hkeep
  exact hinv.apart hb hrow hlane

theorem ChainInv.settle {h : Hash} {s : SubmittedUserOp} {share : UsdtAmount} {success : Bool}
    (hinv : ChainInv u b) (hs : b.submitted.get? h = some s)
    (hsettle : Settle b s share success b') : ChainInv u (b'.finish h s.signed.unsigned) := by
  have hframe := hsettle.frame
  have hidle := hinv.idle_finish hs hframe.pending hframe.submitted
  have hsub : ∀ {k op p live}, (b'.finish h s.signed.unsigned).InFlight k op p live →
      b.InFlight k op p live := fun hf => hf.of_finish.1.congr hframe.pending hframe.submitted
  refine hinv.of_rows hframe.account (fun hf => ?_) (fun hf => ?_)
    (fun hf hf' hlane => hinv.live (hsub hf) (hsub hf') hlane)
    (fun hf hf' hlane => hinv.apart (hsub hf) (hsub hf') hlane)
  · exact hframe.nonce _ (hidle _ _ _ _ hf)
  · exact ⟨hinv.keyed (hsub hf), _, _, _, hsub hf, rfl⟩

/-! ## Every move -/

/-- A credit keeps the nonce of its account. -/
theorem nonceOf_credit {a : EvmAddress} {pk : PublicKey} {r r' : DepositRecord}
    {history : List Event} (hr : (b.records.get? a).getD (Usdt.freshRecord pk) = r)
    (hn : r'.nonce = r.nonce) {l : Lane} {n : Nat} (h : b.nonceOf l = some n) :
    ({ b with records := b.records.insert a r', history := history } : Books).nonceOf l =
      some n := by
  by_cases hl : l = .deposit a
  · subst hl
    obtain ⟨r₀, hr₀, hn₀⟩ := Option.map_eq_some_iff.1 h
    rw [hr₀, Option.getD_some] at hr
    simp [nonceOf, hn, ← hr, hn₀]
  · exact (nonceOf_insert_ne hl).trans h

/-- **Every move keeps the chains.** -/
theorem Move.chainInv (h : Move u b b') (hinv : ChainInv u b) : ChainInv u b' := by
  cases h with
  | credit hrecord _ _ =>
    refine hinv.congr rfl rfl rfl ?_
    intro l n hn
    refine nonceOf_credit hrecord ?_ hn
    rfl
  | request => exact hinv.congr rfl rfl rfl fun _ _ hn => hn
  | claim _ => exact hinv.congr rfl rfl rfl fun _ _ hn => hn
  | offer hoffered =>
    obtain ⟨op, p, block, ho, -, rfl⟩ := hoffered
    exact hinv.offer ho
  | replace hs hlive hchain hnew => exact hinv.replace hs hlive hchain hnew
  | finalize hp => exact hinv.finalize hp
  | settle hs hsettle => exact hinv.settle hs hsettle

end Experimint.FedimintUsdt
