import Experimint.Usdt.Payload

/-!
# Operations in flight, account by account

`ChainInv` speaks of lanes.  When the pool's account is not a deposit account an address has one
lane, so the same holds of senders.  When, moreover, no two enqueued operations share a hash, no
hash is enqueued twice: an operation that was enqueued at a lane's current nonce is still in
flight, and one enqueued at an earlier nonce differs from whatever is built now.

* `EnqueueInv.fresh`: a hash about to be enqueued is new.
* `Move.enqueueInv`: the step lemma.
* `in_flight_chain`: the result, in the words of the operation tables.
-/

set_option autoImplicit false

namespace Experimint.FedimintUsdt

open Books

/-! ## Enqueued operations -/

def Event.enqueued : Event → Option (Hash × UnsignedUserOp)
  | .userOpEnqueued h op _ => some (h, op)
  | _ => none

/-- Operations that were ever enqueued, with the hashes they were enqueued under, newest first. -/
def enqueued (history : List Event) : List (Hash × UnsignedUserOp) :=
  history.filterMap Event.enqueued

theorem mem_enqueued {h : Hash} {op : UnsignedUserOp} {p : UserOpPurpose} {history : List Event}
    (he : .userOpEnqueued h op p ∈ history) : (h, op) ∈ enqueued history :=
  List.mem_filterMap.2 ⟨_, he, rfl⟩

theorem of_mem_enqueued {h : Hash} {op : UnsignedUserOp} {history : List Event}
    (he : (h, op) ∈ enqueued history) : ∃ p, .userOpEnqueued h op p ∈ history := by
  obtain ⟨e, hmem, he⟩ := List.mem_filterMap.1 he
  cases e <;> cases he
  exact ⟨_, hmem⟩

variable {u : Usdt} {b b' : Books}

/-- No hash collision among the enqueued operations, and the pool is no deposit account. -/
structure Separate (u : Usdt) (b : Books) : Prop where
  collision : ∀ q ∈ enqueued b.history, ∀ q' ∈ enqueued b.history,
    u.opHash q.2 = u.opHash q'.2 → q.2 = q'.2
  apart : ∀ a, (b.records.get? a).isSome = true → a ≠ u.poolAccount

/-- An address has one lane. -/
theorem Separate.lane (h : Separate u b) {l l' : Lane} {n n' : Nat} (hn : b.nonceOf l = some n)
    (hn' : b.nonceOf l' = some n') (haddress : l.address u = l'.address u) : l = l' := by
  have hrecord : ∀ {a n}, b.nonceOf (.deposit a) = some n → a ≠ u.poolAccount := fun hn => by
    obtain ⟨r, hr, -⟩ := Option.map_eq_some_iff.1 hn
    exact h.apart _ (by rw [hr]; rfl)
  cases l with
  | pool =>
    cases l' with
    | pool => rfl
    | deposit a => exact absurd haddress.symm (hrecord hn')
  | deposit a =>
    cases l' with
    | pool => exact absurd haddress (hrecord hn)
    | deposit a' => exact congrArg Lane.deposit haddress

/-! ## What survives a move -/

theorem Move.history_sub (h : Move u b b') : ∀ e ∈ b.history, e ∈ b'.history := by
  intro e he
  cases h with
  | offer hoffered =>
    obtain ⟨op, p, block, -, -, rfl⟩ := hoffered
    exact List.mem_cons_of_mem _ he
  | settle _ hsettle => exact hsettle.open.2 e he
  | credit | request | claim | replace | finalize => exact List.mem_cons_of_mem _ he

theorem isSome_get?_insert {a a' : EvmAddress} {r : DepositRecord}
    (h : (b.records.get? a').isSome = true) :
    ((b.records.insert a r).get? a').isSome = true := by
  rw [Table.get?_insert]
  split_ifs
  · rfl
  · exact h

theorem Move.records_sub (h : Move u b b') {a : EvmAddress}
    (ha : (b.records.get? a).isSome = true) : (b'.records.get? a).isSome = true := by
  cases h with
  | credit => exact isSome_get?_insert ha
  | offer hoffered =>
    obtain ⟨op, p, block, -, -, rfl⟩ := hoffered
    exact ha
  | settle _ hsettle =>
    cases hsettle with
    | swept | spent => exact isSome_get?_insert ha
    | paid | requeued | isolated | abandoned | feesPaid | feesReverted => exact ha
  | request | claim | replace | finalize => exact ha

theorem Move.separate (h : Move u b b') (hsep : Separate u b') : Separate u b where
  collision := by
    have hsub : ∀ q ∈ enqueued b.history, q ∈ enqueued b'.history := fun q hq => by
      obtain ⟨p, hp⟩ := of_mem_enqueued hq
      exact mem_enqueued (h.history_sub _ hp)
    exact fun q hq q' hq' => hsep.collision q (hsub q hq) q' (hsub q' hq')
  apart a ha := hsep.apart a (h.records_sub ha)

namespace Books

variable {k : Slot} {h : Hash} {op op' : UnsignedUserOp} {p p' : UserOpPurpose} {live : Bool}

theorem InFlight.offer {block : Nat} (hf : b.InFlight k op p live) (hk : k ≠ .pending h) :
    (b.offer h op' p' block).InFlight k op p live := by
  cases hf with
  | @pending h' r hr =>
    have hne : h ≠ h' := fun he => hk (he ▸ rfl)
    refine .pending (?_ : (b.pending.insert h _).get? h' = some r)
    rw [Table.get?_insert_ne _ _ hne]
    exact hr
  | submitted hr => exact .submitted hr

theorem InFlight.setSubmitted {s : SubmittedUserOp} (hf : b.InFlight k op p live)
    (hk : k ≠ .submitted h) :
    InFlight { b with submitted := b.submitted.insert h s } k op p live := by
  cases hf with
  | pending hr => exact .pending hr
  | @submitted h' r hr =>
    have hne : h ≠ h' := fun he => hk (he ▸ rfl)
    refine .submitted (?_ : (b.submitted.insert h s).get? h' = some r)
    rw [Table.get?_insert_ne _ _ hne]
    exact hr

theorem InFlight.erasePending (hf : b.InFlight k op p live) (hk : k ≠ .pending h) :
    InFlight { b with pending := b.pending.erase h } k op p live := by
  cases hf with
  | @pending h' r hr =>
    have hne : h' ≠ h := fun he => hk (he ▸ rfl)
    refine .pending (?_ : (b.pending.erase h).get? h' = some r)
    rw [Table.get?_erase_ne _ hne]
    exact hr
  | submitted hr => exact .submitted hr

/-- A hash that is in neither table is no row's. -/
theorem InFlight.hash_ne (hf : b.InFlight k op p live)
    (hfree : b.pending.get? h = none ∧ b.submitted.get? h = none) : k.hash ≠ h := by
  rintro rfl
  cases hf with
  | pending hr => exact nomatch hr.symm.trans hfree.1
  | submitted hr => exact nomatch hr.symm.trans hfree.2

/-- Operations of other senders outlive a settlement. -/
theorem InFlight.finish (hf : b.InFlight k op p live) (hk : k ≠ .submitted h)
    (hsender : op.sender ≠ op'.sender) : (b.finish h op').InFlight k op p live := by
  cases hf with
  | pending hr => exact .pending (Table.get?_filter_eq_some.2 ⟨hr, by simp [hsender]⟩)
  | @submitted h' r hr =>
    have hne : h' ≠ h := fun he => hk (he ▸ rfl)
    exact .submitted (Table.get?_filter_eq_some.2 ⟨hr, by simp [hsender, hne]⟩)

end Books

/-! ## No operation is enqueued twice -/

structure EnqueueInv (u : Usdt) (b : Books) : Prop where
  /-- An operation in flight was enqueued. -/
  listed : ∀ {k op p live}, b.InFlight k op p live → .userOpEnqueued k.hash op p ∈ b.history
  event : ∀ {h op p}, .userOpEnqueued h op p ∈ b.history → u.opHash op = h ∧
    op.sender = p.lane.address u ∧ ∃ n, b.nonceOf p.lane = some n ∧ op.nonce ≤ n
  /-- One enqueued at the current nonce of its lane is in flight. -/
  current : Separate u b → ∀ {h op p}, .userOpEnqueued h op p ∈ b.history →
    b.nonceOf p.lane = some op.nonce → ∃ k live, k.hash = h ∧ b.InFlight k op p live
  nodup : Separate u b → ((enqueued b.history).map (·.1)).Nodup

/-- The hash of an operation at a lane's current nonce is new, unless it is in flight there. -/
theorem EnqueueInv.fresh (hinv : EnqueueInv u b) (hsep : Separate u b) {op : UnsignedUserOp}
    {p : UserOpPurpose}
    (hcollision : ∀ q ∈ enqueued b.history, u.opHash q.2 = u.opHash op → q.2 = op)
    (hsender : op.sender = p.lane.address u) (hnonce : b.nonceOf p.lane = some op.nonce)
    (hfree : ∀ k p' live, b.InFlight k op p' live → p'.lane = p.lane → k.hash ≠ u.opHash op) :
    u.opHash op ∉ (enqueued b.history).map (·.1) := by
  intro hmem
  obtain ⟨⟨h, op'⟩, hq, hh⟩ := List.mem_map.1 hmem
  obtain ⟨p', he⟩ := of_mem_enqueued hq
  obtain ⟨hkey, hsender', n, hn, -⟩ := hinv.event he
  have hop : op' = op := hcollision _ hq (hkey.trans hh)
  subst hop
  have hlane : p'.lane = p.lane := hsep.lane hn hnonce (hsender'.symm.trans hsender)
  obtain ⟨k, live, hk, hf⟩ := hinv.current hsep he (hlane ▸ hnonce)
  exact hfree k p' live hf hlane (hk.trans hh)

/-- The invariant after a move that enqueues an operation under a new hash. -/
theorem EnqueueInv.enqueue (hinv : EnqueueInv u b) {op : UnsignedUserOp} {p : UserOpPurpose}
    (hsender : op.sender = p.lane.address u) (hnonce : b.nonceOf p.lane = some op.nonce)
    (hhistory : b'.history = .userOpEnqueued (u.opHash op) op p :: b.history)
    (hnonces : ∀ l, b'.nonceOf l = b.nonceOf l) (hrecords : b'.records = b.records)
    (hrows : ∀ {k op' p' live}, b'.InFlight k op' p' live →
      (k = .pending (u.opHash op) ∧ op' = op ∧ p' = p) ∨ ∃ live', b.InFlight k op' p' live')
    (hnew : ∃ live, b'.InFlight (.pending (u.opHash op)) op p live)
    (hold : ∀ {k op' p' live}, b.InFlight k op' p' live → k.hash ≠ u.opHash op →
      ∃ live', b'.InFlight k op' p' live')
    (hfree : ∀ k p' live, b.InFlight k op p' live → p'.lane = p.lane → k.hash ≠ u.opHash op) :
    EnqueueInv u b' := by
  have hsep : Separate u b' → Separate u b := fun h => by
    refine ⟨fun q hq q' hq' => h.collision q ?_ q' ?_, fun a ha => h.apart a (hrecords ▸ ha)⟩
    · rw [hhistory]; exact List.mem_cons_of_mem _ hq
    · rw [hhistory]; exact List.mem_cons_of_mem _ hq'
  have hfresh : Separate u b' → u.opHash op ∉ (enqueued b.history).map (·.1) := fun h => by
    refine hinv.fresh (hsep h) (fun q hq => h.collision q ?_ (u.opHash op, op) ?_) hsender hnonce
      hfree
    · rw [hhistory]; exact List.mem_cons_of_mem _ hq
    · rw [hhistory]; exact List.mem_cons_self
  refine ⟨fun hf => ?_, fun he => ?_, fun h => fun he hn => ?_, fun h => ?_⟩
  · rw [hhistory]
    rcases hrows hf with ⟨rfl, rfl, rfl⟩ | ⟨live', hb⟩
    · exact List.mem_cons_self
    · exact List.mem_cons_of_mem _ (hinv.listed hb)
  · rw [hhistory] at he
    rw [hnonces]
    rcases List.mem_cons.1 he with he | he
    · cases he
      exact ⟨rfl, hsender, _, hnonce, Nat.le_refl _⟩
    · exact hinv.event he
  · rw [hhistory] at he
    rw [hnonces] at hn
    rcases List.mem_cons.1 he with he | he
    · cases he
      obtain ⟨live, hf⟩ := hnew
      exact ⟨_, live, rfl, hf⟩
    · obtain ⟨k, live, rfl, hf⟩ := hinv.current (hsep h) he hn
      have hne : k.hash ≠ u.opHash op := fun hk =>
        hfresh h (hk ▸ List.mem_map_of_mem (f := Prod.fst) (mem_enqueued he))
      obtain ⟨live', hf'⟩ := hold hf hne
      exact ⟨k, live', rfl, hf'⟩
  · rw [hhistory]
    exact List.nodup_cons.2 ⟨hfresh h, hinv.nodup (hsep h)⟩

/-- The invariant after a move that enqueues nothing. -/
theorem EnqueueInv.of_rows (hinv : EnqueueInv u b) (hmove : Move u b b')
    (hsame : ∀ h op p, .userOpEnqueued h op p ∈ b'.history → .userOpEnqueued h op p ∈ b.history)
    (henqueued : enqueued b'.history = enqueued b.history)
    (hrows : ∀ {k op p live}, b'.InFlight k op p live →
      ∃ k₀ live₀, k₀.hash = k.hash ∧ b.InFlight k₀ op p live₀)
    (hnonce : ∀ {p : UserOpPurpose} {n}, b.nonceOf p.lane = some n →
      ∃ n', b'.nonceOf p.lane = some n' ∧ n ≤ n')
    (hcurrent : Separate u b' → ∀ {h op p}, .userOpEnqueued h op p ∈ b.history →
      b'.nonceOf p.lane = some op.nonce → ∃ k live, k.hash = h ∧ b'.InFlight k op p live) :
    EnqueueInv u b' where
  listed hf := by
    obtain ⟨k₀, live₀, hk, hb⟩ := hrows hf
    exact hmove.history_sub _ (hk ▸ hinv.listed hb)
  event he := by
    obtain ⟨hkey, hsender, n, hn, hle⟩ := hinv.event (hsame _ _ _ he)
    obtain ⟨n', hn', hle'⟩ := hnonce hn
    exact ⟨hkey, hsender, n', hn', hle.trans hle'⟩
  current hsep _ _ _ he hn := hcurrent hsep (hsame _ _ _ he) hn
  nodup hsep := henqueued ▸ hinv.nodup (hmove.separate hsep)

/-- Moves that leave the operations and their nonces alone. -/
theorem EnqueueInv.still (hinv : EnqueueInv u b) (hmove : Move u b b') {e : Event}
    (hhistory : b'.history = e :: b.history) (he : e.enqueued = none)
    (hp : b'.pending = b.pending) (hs : b'.submitted = b.submitted)
    (hnonce : ∀ {l n}, b.nonceOf l = some n → b'.nonceOf l = some n) : EnqueueInv u b' := by
  refine hinv.of_rows hmove (fun h op p hmem => ?_) ?_ (fun hf => ⟨_, _, rfl, hf.congr hp hs⟩)
    (fun hn => ⟨_, hnonce hn, Nat.le_refl _⟩) (fun hsep => fun hmem hn => ?_)
  · rw [hhistory] at hmem
    rcases List.mem_cons.1 hmem with rfl | hmem
    · cases he
    · exact hmem
  · rw [hhistory, enqueued, List.filterMap_cons, he]
    rfl
  · obtain ⟨-, -, n, hn₀, -⟩ := hinv.event hmem
    have hsome : some n = some _ := (hnonce hn₀).symm.trans hn
    obtain ⟨k, live, hk, hf⟩ := hinv.current (hmove.separate hsep) hmem (hsome ▸ hn₀)
    exact ⟨k, live, hk, hf.congr hp.symm hs.symm⟩

theorem EnqueueInv.finalize {h : Hash} {p : PendingUserOp} {signature : Bytes} {block : Nat}
    (hinv : EnqueueInv u b) (hchain : ChainInv u b) (hp : b.pending.get? h = some p) :
    EnqueueInv u { b with
      submitted := b.submitted.insert h ⟨⟨p.op, signature⟩, p.purpose, block, false⟩
      pending := b.pending.erase h
      history := .userOpFinalized h :: b.history } := by
  have hmove := @Move.finalize u b h p signature block hp
  have hrow : b.InFlight (.pending h) p.op p.purpose true := .pending hp
  refine hinv.of_rows hmove (fun h op p hmem => ?_) rfl (fun hf => ?_)
    (fun hn => ⟨_, hn, Nat.le_refl _⟩) (fun hsep => fun {h' op p'} hmem hn => ?_)
  · rcases List.mem_cons.1 hmem with hmem | hmem
    · cases hmem
    · exact hmem
  · rcases hf.of_finalize with ⟨rfl, rfl, rfl⟩ | ⟨-, -, hb⟩
    · exact ⟨.pending h, _, rfl, hrow⟩
    · exact ⟨_, _, rfl, hb⟩
  · have hsep := hmove.separate hsep
    obtain ⟨k, live, rfl, hf⟩ := hinv.current hsep hmem hn
    by_cases hkp : k = .pending h
    · subst hkp
      cases hf with
      | pending hr =>
        obtain rfl := Option.some.inj (hp.symm.trans hr)
        have hself := Table.get?_insert_self b.submitted h
          ⟨⟨p.op, signature⟩, p.purpose, block, false⟩
        exact ⟨.submitted h, true, rfl, InFlight.submitted (b := { b with
          submitted := b.submitted.insert h _, pending := _, history := _ }) hself⟩
    · by_cases hks : k = .submitted h
      · -- a submitted row of the same hash would be the same operation, in the same lane
        subst hks
        have hop : op = p.op := hsep.collision _ (mem_enqueued (hinv.listed hf)) _
          (mem_enqueued (hinv.listed hrow)) ((hchain.keyed hf).trans (hchain.keyed hrow).symm)
        have hlane : p.purpose.lane = p'.lane :=
          hsep.lane (hchain.nonce hrow) (hchain.nonce hf)
            (by rw [← hchain.sender hrow, ← hchain.sender hf, hop])
        exact absurd hlane (hchain.apart hrow hf)
      · exact ⟨k, live, rfl, ((hf.erasePending hkp).setSubmitted hks).congr rfl rfl⟩

theorem EnqueueInv.settle {h : Hash} {s : SubmittedUserOp} {share : UsdtAmount} {success : Bool}
    (hinv : EnqueueInv u b) (hchain : ChainInv u b) (hs : b.submitted.get? h = some s)
    (hsettle : Settle b s share success b') :
    EnqueueInv u (b'.finish h s.signed.unsigned) := by
  have hmove : Move u b _ := .settle hs hsettle
  have hframe := hsettle.frame
  have hrow := InFlight.submitted hs
  have hhistory : (∀ h op p, .userOpEnqueued h op p ∈ b'.history →
      .userOpEnqueued h op p ∈ b.history) ∧ enqueued b'.history = enqueued b.history := by
    cases hsettle <;> exact ⟨fun h op p hmem => by simpa using hmem, rfl⟩
  refine hinv.of_rows hmove hhistory.1 hhistory.2
    (fun hf => ⟨_, _, rfl, hf.of_finish.1.congr hframe.pending hframe.submitted⟩)
    (fun {p n} hn => ?_) (fun hsep => fun {h' op p} hmem hn => ?_)
  · by_cases hl : p.lane = s.purpose.lane
    · refine ⟨n + 1, ?_, Nat.le_succ n⟩
      show b'.nonceOf p.lane = _
      rw [hl] at hn ⊢
      rw [hframe.spent, hn]
      rfl
    · exact ⟨n, (hframe.nonce _ hl).trans hn, Nat.le_refl _⟩
  · have hsep := hmove.separate hsep
    have hn : b'.nonceOf p.lane = some op.nonce := hn
    obtain ⟨-, -, n, hn₀, hle⟩ := hinv.event hmem
    by_cases hl : p.lane = s.purpose.lane
    · -- the lane's nonce has moved past everything enqueued before
      rw [hl] at hn hn₀
      rw [hframe.spent, hn₀] at hn
      have hspent : n + 1 = op.nonce := Option.some.inj hn
      omega
    · rw [hframe.nonce _ hl] at hn
      obtain ⟨k, live, rfl, hf⟩ := hinv.current hsep hmem hn
      have hsender : op.sender ≠ s.signed.unsigned.sender := fun he =>
        hl (hsep.lane (hchain.nonce hf) (hchain.nonce hrow)
          (by rw [← hchain.sender hf, ← hchain.sender hrow, he]))
      have hk : k ≠ .submitted h := by
        rintro rfl
        cases hf with
        | submitted hr =>
          obtain rfl := Option.some.inj (hs.symm.trans hr)
          exact hsender rfl
      exact ⟨k, live, rfl,
        (hf.congr hframe.pending.symm hframe.submitted.symm).finish hk hsender⟩

theorem EnqueueInv.offer {op : UnsignedUserOp} {p : UserOpPurpose} {block : Nat}
    (hinv : EnqueueInv u b) (hchain : ChainInv u b) (ho : Offer u b op p) :
    EnqueueInv u (b.offer (u.opHash op) op p block) := by
  refine hinv.enqueue (ho.sender hchain.account) ho.nonce rfl (fun _ => rfl) rfl (fun hf => ?_)
    ⟨true, ?_⟩ (fun hf hk => ?_) (fun k p' live hf hlane => ?_)
  · rcases hf.of_offer with ⟨hk, hop, hp, -⟩ | ⟨-, hb⟩
    · exact .inl ⟨hk, hop, hp⟩
    · exact .inr ⟨_, hb⟩
  · have hself := Table.get?_insert_self b.pending (u.opHash op) ⟨op, p, block⟩
    exact InFlight.pending (b := b.offer (u.opHash op) op p block) hself
  · exact ⟨_, hf.offer fun he => hk (congrArg Slot.hash he)⟩
  · exact absurd hlane (ho.idle _ _ _ _ hf)

theorem EnqueueInv.replace {h : Hash} {s : SubmittedUserOp} {op : UnsignedUserOp} {block : Nat}
    (hinv : EnqueueInv u b) (hchain : ChainInv u b) (hs : b.submitted.get? h = some s)
    (hop : op.chain = s.signed.unsigned.chain)
    (hfree : b.pending.get? (u.opHash op) = none ∧ b.submitted.get? (u.opHash op) = none) :
    EnqueueInv u
      { b.offer (u.opHash op) op s.purpose block with
        submitted := b.submitted.insert h { s with superseded := true } } := by
  have hrow := InFlight.submitted hs
  have hsender : op.sender = s.signed.unsigned.sender := congrArg (·.sender) hop
  have hnonce : op.nonce = s.signed.unsigned.nonce := congrArg (·.nonce) hop
  refine hinv.enqueue (hsender.trans (hchain.sender hrow)) (by rw [hnonce]; exact hchain.nonce hrow)
    rfl (fun _ => rfl) rfl (fun hf => ?_) ⟨true, ?_⟩ (fun {k op' p' live} hf hk => ?_)
    (fun k p' live hf _ hk => ?_)
  · rcases hf.of_replace with hnew | ⟨rfl, rfl, rfl, -⟩ | ⟨-, hb⟩
    · exact .inl hnew
    · exact .inr ⟨_, hrow⟩
    · exact .inr ⟨_, hb⟩
  · have hself := Table.get?_insert_self b.pending (u.opHash op) ⟨op, s.purpose, block⟩
    exact InFlight.pending (b := { b.offer (u.opHash op) op s.purpose block with
      submitted := b.submitted.insert h { s with superseded := true } }) hself
  · by_cases hks : k = .submitted h
    · subst hks
      cases hf with
      | submitted hr =>
        obtain rfl := Option.some.inj (hs.symm.trans hr)
        have hself := Table.get?_insert_self b.submitted h { s with superseded := true }
        exact ⟨false, InFlight.submitted (b := { b.offer (u.opHash op) op s.purpose block with
          submitted := b.submitted.insert h { s with superseded := true } }) hself⟩
    · have hkp : k ≠ .pending (u.opHash op) := fun he => hk (congrArg Slot.hash he)
      exact ⟨_, (hf.offer hkp).setSubmitted hks⟩
  · exact hf.hash_ne hfree hk

theorem Move.enqueueInv (h : Move u b b') (hchain : ChainInv u b) (hinv : EnqueueInv u b) :
    EnqueueInv u b' := by
  have hmove := h
  cases h with
  | credit hrecord _ _ =>
    refine hinv.still hmove rfl rfl rfl rfl fun hn => ?_
    refine nonceOf_credit hrecord ?_ hn
    rfl
  | request => exact hinv.still hmove rfl rfl rfl rfl fun hn => hn
  | claim _ => exact hinv.still hmove rfl rfl rfl rfl fun hn => hn
  | offer hoffered =>
    obtain ⟨op, p, block, ho, -, rfl⟩ := hoffered
    exact hinv.offer hchain ho
  | replace hs _ hop hfree => exact hinv.replace hchain hs hop hfree
  | finalize hp => exact hinv.finalize hchain hp
  | settle hs hsettle => exact hinv.settle hchain hs hsettle

theorem enqueueInv_empty (u : Usdt) : EnqueueInv u (u.books Db.empty) where
  listed hf := absurd hf not_inFlight_empty
  event he := nomatch he
  current _ _ _ _ he := nomatch he
  nodup _ := List.nodup_nil

theorem run_enqueueInv {db : Db} {tr : List (Item × Answer)}
    (run : Run (Accepts u) Db.empty tr db) : EnqueueInv u (u.books db) :=
  run_books (enqueueInv_empty u) (fun _ _ hchain hinv hm => hm.enqueueInv hchain hinv) run

/-! ## Chains by sender -/

theorem separate_of_rows {db : Db} (hpool : ∀ r ∈ db.depositRecord.rows, r.1 ≠ u.poolAccount)
    (hcollision : ∀ q ∈ enqueued db.history, ∀ q' ∈ enqueued db.history,
      u.opHash q.2 = u.opHash q'.2 → q.2 = q'.2) : Separate u (u.books db) where
  collision := hcollision
  apart a ha := by
    obtain ⟨r, hr⟩ := Option.isSome_iff_exists.1 ha
    exact hpool _ (Table.mem_rows.2 hr)

/-- **The operations in flight of one sender are one replacement chain at its tracked nonce.**  So a
sweep and a recovery of one account are not in flight together, nor a batch and a fee payout, and no
hash is ever enqueued twice. -/
theorem in_flight_chain {db : Db} {tr : List (Item × Answer)}
    (run : Run (Accepts u) Db.empty tr db)
    (hpool : ∀ r ∈ db.depositRecord.rows, r.1 ≠ u.poolAccount)
    (hcollision : ∀ q ∈ enqueued db.history, ∀ q' ∈ enqueued db.history,
      u.opHash q.2 = u.opHash q'.2 → q.2 = q'.2) :
    (∀ k op p live, (u.books db).InFlight k op p live →
      (op.sender = u.poolAccount ∧ op.nonce = (u.pool db).nonce) ∨
        ∃ r, db.depositRecord.get? op.sender = some r ∧ op.nonce = r.nonce) ∧
    (∀ k op p live k' op' p' live', (u.books db).InFlight k op p live →
      (u.books db).InFlight k' op' p' live' → op.sender = op'.sender →
        p = p' ∧ op.chain = op'.chain ∧ (live = true → live' = true → k = k')) ∧
    (∀ a k op live k' op' live', (u.books db).InFlight k op (.deployAndSweep a) live →
      ¬ (u.books db).InFlight k' op' (.recoverResidual a) live') ∧
    (∀ outpoints recipient amount k op live k' op' live',
      (u.books db).InFlight k op (.withdraw outpoints) live →
        ¬ (u.books db).InFlight k' op' (.withdrawFees recipient amount) live') ∧
    ((enqueued db.history).map (·.1)).Nodup := by
  have hchain := run_chainInv run
  have hsep := separate_of_rows hpool hcollision
  refine ⟨?_, ?_, ?_, ?_, (run_enqueueInv run).nodup hsep⟩
  · intro k op p live hf
    have hs := hchain.sender hf
    have hn := hchain.nonce hf
    cases hl : p.lane with
    | pool =>
      rw [hl] at hs hn
      exact .inl ⟨hs, (Option.some.inj hn).symm⟩
    | deposit a =>
      rw [hl] at hs hn
      obtain ⟨r, hr, hnonce⟩ := Option.map_eq_some_iff.1 hn
      have hs : op.sender = a := hs
      exact .inr ⟨r, by rw [hs]; exact hr, hnonce.symm⟩
  · intro k op p live k' op' p' live' hf hf' hsender
    have hlane : p.lane = p'.lane := hsep.lane (hchain.nonce hf) (hchain.nonce hf')
      (by rw [← hchain.sender hf, ← hchain.sender hf', hsender])
    obtain ⟨hp, hop⟩ := hchain.chain hf hf' hlane
    refine ⟨hp, hop, ?_⟩
    intro hl hl'
    subst hl hl'
    exact hchain.live hf hf' hlane
  · intro a k op live k' op' live' hf hf'
    exact nomatch (hchain.chain hf hf' rfl).1
  · intro outpoints recipient amount k op live k' op' live' hf hf'
    exact nomatch (hchain.chain hf hf' rfl).1

/-- A replaced sweep and its replacement. -/
theorem in_flight_chain_sample :
    ∃ tr db, Run (Accepts sampleUsdt) Db.empty tr db ∧ db.pendingUserOp.rows.length = 1 ∧
      db.submittedUserOp.rows.length = 1 ∧ ((enqueued db.history).map (·.1)).Nodup := by
  obtain ⟨tr, db, run, hdb⟩ := Run.exists_of_exec sampleUsdt.step Db.empty
    Sample.replacement
    (fun _ db => decide (db.pendingUserOp.rows.length = 1) &&
      decide (db.submittedUserOp.rows.length = 1) &&
      decide (∀ r ∈ db.depositRecord.rows, r.1 ≠ sampleUsdt.poolAccount) &&
      decide (∀ q ∈ enqueued db.history, ∀ q' ∈ enqueued db.history,
        sampleUsdt.opHash q.2 = sampleUsdt.opHash q'.2 → q.2 = q'.2))
    (by decide +kernel)
  simp only [Bool.and_eq_true, decide_eq_true_eq] at hdb
  obtain ⟨⟨⟨hpending, hsubmitted⟩, hpool⟩, hcollision⟩ := hdb
  exact ⟨tr, db, run, hpending, hsubmitted, (in_flight_chain run hpool hcollision).2.2.2.2⟩

end Experimint.FedimintUsdt
