import Mathlib.Data.List.Pairwise
import Experimint.Lib.Quorum
import Experimint.Usdt.Ballots
import Experimint.Usdt.Payload

/-!
# What a threshold of guardians has agreed on

Votes are overwritten, cleared and cast again, one slot a guardian.  Whenever the module acts on a
tally, a threshold of the slots hold exactly the value acted on, and every slot was filled by an
item of its own guardian; so more honest guardians than can be faulty have voted for that value at
some point of the run.

* `CastInv`, `AnchorInv` — stored votes, and anchored hashes, read off the trace.
* `SpentInv` — an operation is settled at its lane's nonce, hence once.
* `quorum_authenticity` — the result.
-/

set_option autoImplicit false

namespace Experimint.FedimintUsdt

open Books

/-! ## An operation is settled once -/

/-- Lane of an operation, read from its call: only the pool runs batches. -/
def UnsignedUserOp.lane (op : UnsignedUserOp) : Lane :=
  match op.callData with
  | .execute _ _ _ => .deposit op.sender
  | .executeBatch _ _ _ => .pool

def Event.settled : Event → Option UnsignedUserOp
  | .userOpConfirmed op _ _ _ => some op
  | _ => none

/-- Settled operations, newest first. -/
def settledOps (history : List Event) : List UnsignedUserOp := history.filterMap Event.settled

section Spent

variable {u : Usdt} {b b' : Books}

structure SpentInv (b : Books) : Prop where
  lane : ∀ {k op p live}, b.InFlight k op p live → op.lane = p.lane
  spent : ∀ op ∈ settledOps b.history, ∃ n, b.nonceOf op.lane = some n ∧ op.nonce < n
  nodup : (settledOps b.history).Nodup

theorem UnsignedUserOp.lane_congr {op op' : UnsignedUserOp} (h : op.chain = op'.chain) :
    op.lane = op'.lane := by
  have hcall : op.callData = op'.callData := congrArg (·.callData) h
  have hsender : op.sender = op'.sender := congrArg (·.sender) h
  rw [UnsignedUserOp.lane, UnsignedUserOp.lane, hcall, hsender]

theorem Offer.lane {op : UnsignedUserOp} {p : UserOpPurpose} (h : Offer u b op p) :
    op.lane = p.lane := by
  cases h <;> rfl

theorem Move.lane (h : Move u b b') (hchain : ChainInv u b) (hopen : OpenInv b)
    (hinv : SpentInv b) {k : Slot} {op : UnsignedUserOp} {p : UserOpPurpose} {live : Bool}
    (hf : b'.InFlight k op p live) : op.lane = p.lane := by
  rcases h.row_cases hchain hopen hf with ⟨ho, -⟩ | ⟨_, op₀, _, hb, hc, -⟩
  · exact ho.lane
  · exact (UnsignedUserOp.lane_congr hc).trans (hinv.lane hb)

theorem Settle.settled {s : SubmittedUserOp} {share : UsdtAmount} {success : Bool}
    (h : Settle b s share success b') :
    settledOps b'.history = s.signed.unsigned :: settledOps b.history := by
  cases h <;> rfl

/-- Moves that settle nothing and take no nonce back. -/
theorem SpentInv.still (hinv : SpentInv b)
    (hlane : ∀ {k op p live}, b'.InFlight k op p live → op.lane = p.lane)
    (hsettled : settledOps b'.history = settledOps b.history)
    (hnonce : ∀ {l n}, b.nonceOf l = some n → b'.nonceOf l = some n) : SpentInv b' where
  lane := hlane
  spent op hop := by
    obtain ⟨n, hn, hlt⟩ := hinv.spent op (hsettled ▸ hop)
    exact ⟨n, hnonce hn, hlt⟩
  nodup := hsettled ▸ hinv.nodup

/-- A settled operation is at its lane's nonce, and the earlier ones are below it. -/
theorem SpentInv.settle {h : Hash} {s : SubmittedUserOp} {share : UsdtAmount} {success : Bool}
    (hinv : SpentInv b) (hchain : ChainInv u b) (hs : b.submitted.get? h = some s)
    (hsettle : Settle b s share success b')
    (hlane : ∀ {k op p live}, (b'.finish h s.signed.unsigned).InFlight k op p live →
      op.lane = p.lane) : SpentInv (b'.finish h s.signed.unsigned) := by
  have hrow := InFlight.submitted hs
  have hframe := hsettle.frame
  have hnonce : b.nonceOf s.signed.unsigned.lane = some s.signed.unsigned.nonce := by
    rw [hinv.lane hrow]
    exact hchain.nonce hrow
  have hhistory : settledOps (b'.finish h s.signed.unsigned).history =
      s.signed.unsigned :: settledOps b.history := hsettle.settled
  refine ⟨hlane, ?_, ?_⟩
  · intro op hop
    show ∃ n, b'.nonceOf op.lane = some n ∧ op.nonce < n
    by_cases hl : op.lane = s.purpose.lane
    · have hspent := hframe.spent
      rw [← hinv.lane hrow, hnonce] at hspent
      refine ⟨s.signed.unsigned.nonce + 1, by rw [hl, ← hinv.lane hrow]; exact hspent, ?_⟩
      rcases List.mem_cons.1 (hhistory ▸ hop) with rfl | hold
      · exact Nat.lt_succ_self _
      · obtain ⟨n, hn, hlt⟩ := hinv.spent op hold
        rw [hl, ← hinv.lane hrow, hnonce] at hn
        cases hn
        omega
    · rcases List.mem_cons.1 (hhistory ▸ hop) with rfl | hold
      · exact absurd (hinv.lane hrow) hl
      · obtain ⟨n, hn, hlt⟩ := hinv.spent op hold
        exact ⟨n, (hframe.nonce _ hl).trans hn, hlt⟩
  · rw [hhistory]
    refine List.nodup_cons.2 ⟨?_, hinv.nodup⟩
    intro hmem
    obtain ⟨n, hn, hlt⟩ := hinv.spent _ hmem
    rw [hnonce] at hn
    cases hn
    exact absurd hlt (lt_irrefl _)

theorem Move.spentInv (h : Move u b b') (hchain : ChainInv u b) (hopen : OpenInv b)
    (hinv : SpentInv b) : SpentInv b' := by
  have hlane : ∀ {k op p live}, b'.InFlight k op p live → op.lane = p.lane :=
    fun hf => h.lane hchain hopen hinv hf
  cases h with
  | credit hrecord _ _ =>
    refine hinv.still hlane rfl ?_
    intro l n hn
    refine nonceOf_credit hrecord ?_ hn
    rfl
  | offer hoffered =>
    obtain ⟨op, p, block, -, -, rfl⟩ := hoffered
    exact hinv.still hlane rfl id
  | settle hs hsettle => exact hinv.settle hchain hs hsettle hlane
  | request | claim | replace | finalize => exact hinv.still hlane rfl id

theorem run_spentInv {db : Db} {tr : List (Item × Answer)}
    (run : Run (Accepts u) Db.empty tr db) : SpentInv (u.books db) := by
  have hboth : OpenInv (u.books db) ∧ SpentInv (u.books db) := by
    refine run_books (P := fun b => OpenInv b ∧ SpentInv b) ⟨nofun, ?_⟩ ?_ run
    · exact ⟨fun hf => absurd hf not_inFlight_empty, nofun, List.nodup_nil⟩
    · intro b b' hchain hinv hmove
      exact ⟨hmove.openInv hinv.1, hmove.spentInv hchain hinv.1 hinv.2⟩
  exact hboth.2

/-- A settlement is the only one of its operation. -/
theorem SpentInv.unique (hinv : SpentInv b) {e e' : Event} {op : UnsignedUserOp}
    (he : e ∈ b.history) (he' : e' ∈ b.history) (hop : e.settled = some op)
    (hop' : e'.settled = some op) : e = e' := by
  have hnd := hinv.nodup
  rw [settledOps, List.Nodup, List.pairwise_filterMap] at hnd
  by_contra hne
  have hsymm : Std.Symm fun a a' : Event =>
      ∀ o, a.settled = some o → ∀ o', a'.settled = some o' → o ≠ o' :=
    ⟨fun a a' h o ho o' ho' => (h o' ho' o ho).symm⟩
  exact hnd.forall he he' hne op hop op hop' rfl

end Spent

/-! ## Votes and the trace -/

/-- Consensus items come from the guardians of the federation. -/
def Item.FromGuardian (u : Usdt) : Item → Prop
  | .consensus _ p => p < u.numPeers.total
  | _ => True

def FromGuardians (u : Usdt) (tr : List (Item × Answer)) : Prop :=
  ∀ t ∈ tr, t.1.FromGuardian u

instance (u : Usdt) : (i : Item) → Decidable (i.FromGuardian u)
  | .consensus _ p => inferInstanceAs (Decidable (p < u.numPeers.total))
  | .input _ => .isTrue trivial
  | .output _ _ => .isTrue trivial

instance (u : Usdt) (tr : List (Item × Answer)) : Decidable (FromGuardians u tr) :=
  inferInstanceAs (Decidable (∀ t ∈ tr, t.1.FromGuardian u))

/-- A guardian's item was accepted along the trace. -/
def Voted (tr : List (Item × Answer)) (p : PeerId) (item : UsdtConsensusItem) : Prop :=
  ∃ answer, (Item.consensus item p, answer) ∈ tr

section Votes

variable {u : Usdt} {db db' : Db} {tr : List (Item × Answer)} {p : PeerId}
  {item : UsdtConsensusItem}

theorem Voted.cons (h : Voted tr p item) (t : Item × Answer) : Voted (t :: tr) p item := by
  obtain ⟨answer, hmem⟩ := h
  exact ⟨answer, List.mem_cons_of_mem _ hmem⟩

theorem Voted.append (h : Voted tr p item) (tr' : List (Item × Answer)) :
    Voted (tr' ++ tr) p item := by
  obtain ⟨answer, hmem⟩ := h
  exact ⟨answer, List.mem_append_right _ hmem⟩

theorem voted_head {answer : Answer} : Voted ((.consensus item p, answer) :: tr) p item :=
  ⟨answer, List.mem_cons_self⟩

theorem Voted.guardian (h : Voted tr p item) (htr : FromGuardians u tr) :
    p < u.numPeers.total := by
  obtain ⟨answer, hmem⟩ := h
  exact htr _ hmem

/-- Every stored vote is an item of its guardian. -/
structure CastInv (tr : List (Item × Answer)) (b : Ballots) : Prop where
  blockHash : ∀ p obs, b.blockHashVote.get? p = some obs → Voted tr p (.blockHash obs)
  confirmed : ∀ h p obs, b.userOpConfirmedVote.get? (toLex (h, p)) = some obs →
    Voted tr p (.userOpConfirmed h obs)
  fees : ∀ p v, b.withdrawFeesVote.get? p = some v → Voted tr p (.withdrawFeesVote v)

theorem CastInv.cons {b : Ballots} (hinv : CastInv tr b) (t : Item × Answer) :
    CastInv (t :: tr) b where
  blockHash p obs h := (hinv.blockHash p obs h).cons t
  confirmed k p obs h := (hinv.confirmed k p obs h).cons t
  fees p v h := (hinv.fees p v h).cons t

theorem CastInv.clears {b b' : Ballots} (hinv : CastInv tr b) (h : b.Clears b') :
    CastInv tr b' where
  blockHash p obs hv := hinv.blockHash p obs (h.blockHashVote ▸ hv)
  confirmed k p obs hv := hinv.confirmed k p obs (h.userOpConfirmedVote _ _ hv)
  fees p v hv := hinv.fees p v (h.withdrawFeesVote _ _ hv)

/-- The votes of a table after one more is cast. -/
theorem voted_insert {α : Type} {t : Table PeerId α} {vote : α → UsdtConsensusItem} {v : α}
    {answer : Answer} (hall : ∀ q x, t.get? q = some x → Voted tr q (vote x)) (q : PeerId) (x : α)
    (hx : (t.insert p v).get? q = some x) :
    Voted ((.consensus (vote v) p, answer) :: tr) q (vote x) := by
  rw [Table.get?_insert] at hx
  split_ifs at hx with hq
  · cases hx
    subst hq
    exact voted_head
  · exact (hall q x hx).cons _

theorem CastInv.confirm {b : Ballots} (hinv : CastInv tr b) {h : Hash}
    {obs : UserOpConfirmedObservation} {answer : Answer} (k : Hash) (q : PeerId)
    (x : UserOpConfirmedObservation)
    (hx : (b.userOpConfirmedVote.insert (toLex (h, p)) obs).get? (toLex (k, q)) = some x) :
    Voted ((.consensus (.userOpConfirmed h obs) p, answer) :: tr) q (.userOpConfirmed k x) := by
  rw [Table.get?_insert] at hx
  split_ifs at hx with hkey
  · obtain ⟨rfl, rfl⟩ := Prod.mk.inj (toLex.injective hkey)
    cases hx
    exact voted_head
  · exact (hinv.confirmed k q x hx).cons _

/-- The votes right after an item is recorded, before it leads to anything. -/
theorem Casts.castInv {i : Item} {b : Ballots} (h : Casts u db i b) (hinv : CastInv tr db.ballots)
    (answer : Answer) : CastInv ((i, answer) :: tr) b := by
  have hold := hinv.cons (i, answer)
  cases h with
  | blockHash => exact { hold with blockHash := voted_insert hinv.blockHash }
  | anchor => exact { hold with blockHash := voted_insert hinv.blockHash }
  | confirm => exact { hold with confirmed := hinv.confirm }
  | settle hs hvotes hclears =>
    refine CastInv.clears ?_ hclears
    exact { hold with confirmed := hinv.confirm }
  | fees => exact { hold with fees := voted_insert hinv.fees }
  | payout => exact { hold with fees := voted_insert hinv.fees }
  | unchanged => exact hold
  | blockCount | feeVote | residual | recover => exact ⟨hold.1, hold.2, hold.3⟩

theorem castInv_empty : CastInv [] Db.empty.ballots where
  blockHash _ _ h := by cases h
  confirmed _ _ _ h := by cases h
  fees _ _ h := by cases h

theorem run_castInv (run : Run (Accepts u) Db.empty tr db) : CastInv tr db.ballots :=
  run.historyInvariant (P := fun tr db => CastInv tr db.ballots) castInv_empty
    fun _ _ _ answer _ hinv h => (Accepts.casts h).castInv hinv answer

/-! ## Quorums -/

/-- A threshold of guardians hold the vote `v` in their slots, and more than `maxEvil` honest ones
among them have cast it. -/
structure Quorum {α : Type} (u : Usdt) (faulty : Finset PeerId) (tr : List (Item × Answer))
    (stored : PeerId → Option α) (v : α) (item : UsdtConsensusItem) : Prop where
  agreed : ∃ s : Finset PeerId, u.numPeers.threshold ≤ s.card ∧ ∀ p ∈ s, stored p = some v
  honest : ∃ s : Finset PeerId, u.numPeers.maxEvil + 1 ≤ s.card ∧
    ∀ p ∈ s, p ∉ faulty ∧ stored p = some v ∧ Voted tr p item

variable {faulty : Finset PeerId}

theorem Quorum.of_supporters {α : Type} {stored : PeerId → Option α} {v : α}
    {s : Finset PeerId} (hn : 0 < u.numPeers.total)
    (hfaulty : faulty.card ≤ u.numPeers.maxEvil) (hs : u.numPeers.threshold ≤ s.card)
    (hstored : ∀ p ∈ s, stored p = some v) (hvoted : ∀ p, stored p = some v → Voted tr p item) :
    Quorum u faulty tr stored v item where
  agreed := ⟨s, hs, hstored⟩
  honest := by
    refine ⟨s \ faulty,
      lt_card_sdiff_of_quorum (NumPeers.three_mul_maxEvil_lt hn) hfaulty hs, ?_⟩
    intro p hp
    obtain ⟨hmem, hgood⟩ := Finset.mem_sdiff.1 hp
    exact ⟨hgood, hstored p hmem, hvoted p (hstored p hmem)⟩

/-- A tally over a table with one slot a guardian. -/
theorem Quorum.of_count {α : Type} [DecidableEq α] {t : Table PeerId α} {v : α}
    (hn : 0 < u.numPeers.total) (hfaulty : faulty.card ≤ u.numPeers.maxEvil)
    (hvotes : u.numPeers.threshold ≤ t.values.count v)
    (hvoted : ∀ p, t.get? p = some v → Voted tr p item) :
    Quorum u faulty tr t.get? v item := by
  obtain ⟨s, hcard, hs⟩ := exists_supporters t.nodup_keys Prod.snd v
  refine .of_supporters hn hfaulty (s := s) (hcard ▸ hvotes) ?_ hvoted
  intro p hp
  obtain ⟨⟨k, x⟩, hr, rfl, rfl⟩ := hs p hp
  exact Table.mem_rows.1 hr

/-- The tally of confirmation votes on an operation. -/
theorem Quorum.of_agreeing {h : Hash} {obs : UserOpConfirmedObservation}
    (hn : 0 < u.numPeers.total) (hfaulty : faulty.card ≤ u.numPeers.maxEvil)
    (hvotes : u.numPeers.threshold ≤ Usdt.agreeingVotes db h obs)
    (hvoted : ∀ p, db.userOpConfirmedVote.get? (toLex (h, p)) = some obs → Voted tr p item) :
    Quorum u faulty tr (fun p => db.userOpConfirmedVote.get? (toLex (h, p))) obs item := by
  obtain ⟨s, hcard, hs⟩ :=
    exists_supporters (db.userOpConfirmedVote.nodup_scan fun _ hk => of_decide_eq_true hk)
      Prod.snd obs
  refine .of_supporters hn hfaulty (s := s) (hcard ▸ hvotes) ?_ hvoted
  intro p hp
  obtain ⟨r, hr, rfl, rfl⟩ := hs p hp
  exact Table.get?_of_mem_scan (fun _ hk => of_decide_eq_true hk) hr

/-! ## Anchored hashes -/

/-- Every anchored hash has a threshold of guardians that voted for it. -/
def AnchorInv (u : Usdt) (tr : List (Item × Answer)) (b : Ballots) : Prop :=
  ∀ h x, b.blockHashRing.get? h = some x → 0 < u.numPeers.total ∧
    ∃ s : Finset PeerId, u.numPeers.threshold ≤ s.card ∧ ∀ p ∈ s, Voted tr p (.blockHash ⟨h, x⟩)

theorem AnchorInv.of_within {b b' : Ballots} {t : Item × Answer} (hinv : AnchorInv u tr b)
    (h : b'.blockHashRing.Within b.blockHashRing) : AnchorInv u (t :: tr) b' := by
  intro k x hx
  obtain ⟨hn, s, hcard, hs⟩ := hinv k x (h k x hx)
  exact ⟨hn, s, hcard, fun p hp => (hs p hp).cons t⟩

theorem Casts.anchorInv {i : Item} {b : Ballots} (h : Casts u db i b)
    (hcast : CastInv tr db.ballots) (hinv : AnchorInv u tr db.ballots) (hi : i.FromGuardian u)
    (answer : Answer) : AnchorInv u ((i, answer) :: tr) b := by
  cases h with
  | @anchor obs p hdeep hfresh hvotes =>
    intro k x hx
    have hnew : (db.blockHashRing.insert obs.height obs.blockHash).get? k = some x :=
      Table.within_eraseWhere _ _ k x hx
    rw [Table.get?_insert] at hnew
    split_ifs at hnew with hk
    · subst hk
      cases hnew
      obtain ⟨s, hcard, hs⟩ :=
        exists_supporters (db.blockHashVote.insert p obs).nodup_keys Prod.snd obs
      refine ⟨lt_of_le_of_lt (Nat.zero_le _) hi, s, hcard ▸ hvotes, ?_⟩
      intro q hq
      obtain ⟨⟨q, y⟩, hr, rfl, rfl⟩ := hs q hq
      exact voted_insert hcast.blockHash q y (Table.mem_rows.1 hr)
    · obtain ⟨hn, s, hcard, hs⟩ := hinv k x hnew
      exact ⟨hn, s, hcard, fun q hq => (hs q hq).cons _⟩
  | settle hs hvotes hclears => exact hinv.of_within (by rw [hclears.blockHashRing]; exact .refl _)
  | unchanged | blockCount | feeVote | blockHash | confirm | residual | recover | fees | payout =>
    exact hinv.of_within (.refl _)

theorem run_anchorInv (run : Run (Accepts u) Db.empty tr db) (htr : FromGuardians u tr) :
    AnchorInv u tr db.ballots := by
  have hboth : CastInv tr db.ballots ∧ (FromGuardians u tr → AnchorInv u tr db.ballots) := by
    refine run.historyInvariant (P := fun tr db => CastInv tr db.ballots ∧
      (FromGuardians u tr → AnchorInv u tr db.ballots)) ⟨castInv_empty, ?_⟩ ?_
    · intro _ h x hx
      cases hx
    · intro tr db i answer db' hinv h
      have hcasts := Accepts.casts h
      refine ⟨hcasts.castInv hinv.1 answer, ?_⟩
      intro htr
      exact hcasts.anchorInv hinv.1 (hinv.2 fun t ht => htr t (List.mem_cons_of_mem _ ht))
        (htr _ List.mem_cons_self) answer
  exact hboth.2 htr

/-- Two hashes anchored at one height along a run were both voted for by some honest guardian. -/
theorem AnchorInv.conflict {b b' : Ballots} {tr' : List (Item × Answer)}
    (hfaulty : faulty.card ≤ u.numPeers.maxEvil) (hinv : AnchorInv u tr b)
    (hinv' : AnchorInv u (tr' ++ tr) b') (htr : FromGuardians u (tr' ++ tr)) {h : Nat} {x y : Hash}
    (hx : b.blockHashRing.get? h = some x) (hy : b'.blockHashRing.get? h = some y) :
    ∃ p, p ∉ faulty ∧ Voted (tr' ++ tr) p (.blockHash ⟨h, x⟩) ∧
      Voted (tr' ++ tr) p (.blockHash ⟨h, y⟩) := by
  obtain ⟨hn, s, hs, hsv⟩ := hinv h x hx
  obtain ⟨-, t, ht, htv⟩ := hinv' h y hy
  have hguardians : ∀ {q : Finset PeerId} {item : UsdtConsensusItem},
      (∀ p ∈ q, Voted (tr' ++ tr) p item) → q ⊆ Finset.range u.numPeers.total := by
    intro q item hq p hp
    exact Finset.mem_range.2 ((hq p hp).guardian htr)
  obtain ⟨p, hps, hpt, hgood⟩ := exists_honest_of_quorums (NumPeers.three_mul_maxEvil_lt hn) hfaulty
    (le_of_eq (Finset.card_range _)) hs ht (hguardians fun p hp => (hsv p hp).append tr')
    (hguardians htv)
  exact ⟨p, hgood, (hsv p hps).append tr', htv p hpt⟩

/-! ## Acts -/

/-- What an accepted item has brought about, a quorum had voted for. -/
structure Authentic (u : Usdt) (faulty : Finset PeerId) (tr : List (Item × Answer)) (db : Db)
    (item : Item) (db' : Db) : Prop where
  anchored : ∀ obs p, item = .consensus (.blockHash obs) p →
    db' = { db with blockHashVote := db.blockHashVote.insert p obs } ∨
      db' = writeBlockHashRing { db with blockHashVote := db.blockHashVote.insert p obs } obs.height
        obs.blockHash ∧
      Quorum u faulty tr db'.blockHashVote.get? obs (.blockHash obs)
  ring : (∀ obs p, item ≠ .consensus (.blockHash obs) p) → db'.blockHashRing = db.blockHashRing
  acts : ∃ new, acts db'.history = new ++ acts db.history ∧
    (∀ op success, .settled op success ∈ new → ∃ h obs p s,
      item = .consensus (.userOpConfirmed h obs) p ∧ db.submittedUserOp.get? h = some s ∧
        s.signed.unsigned = op ∧ obs.success = success ∧
        Quorum u faulty tr
          (fun q => (db.userOpConfirmedVote.insert (toLex (h, p)) obs).get? (toLex (h, q))) obs
          (.userOpConfirmed h obs)) ∧
    ∀ recipient amount, .payout recipient amount ∈ new →
      Quorum u faulty tr db'.withdrawFeesVote.get? ⟨recipient, amount⟩
        (.withdrawFeesVote ⟨recipient, amount⟩)

/-- What an item did to the acts, with the quorum behind it. -/
theorem Casts.quorums {i : Item} {answer : Answer} (h : Casts u db i db'.ballots)
    (hfaulty : faulty.card ≤ u.numPeers.maxEvil) (hcast : CastInv tr db.ballots)
    (hi : i.FromGuardian u) : ∃ new, acts db'.history = new ++ acts db.history ∧
      (∀ op success, .settled op success ∈ new → ∃ h obs p s,
        i = .consensus (.userOpConfirmed h obs) p ∧ db.submittedUserOp.get? h = some s ∧
          s.signed.unsigned = op ∧ obs.success = success ∧
          Quorum u faulty ((i, answer) :: tr)
            (fun q => (db.userOpConfirmedVote.insert (toLex (h, p)) obs).get? (toLex (h, q))) obs
            (.userOpConfirmed h obs)) ∧
      ∀ recipient amount, .payout recipient amount ∈ new →
        Quorum u faulty ((i, answer) :: tr) db'.withdrawFeesVote.get? ⟨recipient, amount⟩
          (.withdrawFeesVote ⟨recipient, amount⟩) := by
  have hafter := h.castInv hcast answer
  generalize hb : db'.ballots = b at h hafter
  have hacts : FedimintUsdt.acts db'.history = b.acts := congrArg Ballots.acts hb
  have hfees : db'.withdrawFeesVote = b.withdrawFeesVote := congrArg Ballots.withdrawFeesVote hb
  rw [hacts, hfees]
  cases h with
  | @settle h obs p s _ hs hvotes hclears =>
    refine ⟨[.settled s.signed.unsigned obs.success], hclears.acts, ?_, ?_⟩
    · intro op success hmem
      cases List.mem_singleton.1 hmem
      refine ⟨h, obs, p, s, rfl, hs, rfl, rfl, ?_⟩
      exact .of_agreeing (lt_of_le_of_lt (Nat.zero_le _) hi) hfaulty hvotes
        fun q hq => hcast.confirm h q obs hq
    · intro recipient amount hmem
      cases List.mem_singleton.1 hmem
  | @recover a wei amount nonce p g votes hvotes hquorum hcovered =>
    refine ⟨[.recovery a (u.buildRecoverResidualUserop a amount nonce g)], rfl, ?_, ?_⟩
    · intro op success hmem
      cases List.mem_singleton.1 hmem
    · intro recipient amount hmem
      cases List.mem_singleton.1 hmem
  | @payout vote v p hvotes =>
    refine ⟨[.payout v.recipient v.amount], rfl, ?_, ?_⟩
    · intro op success hmem
      cases List.mem_singleton.1 hmem
    · intro recipient amount hmem
      cases List.mem_singleton.1 hmem
      exact .of_count (lt_of_le_of_lt (Nat.zero_le _) hi) hfaulty hvotes
        fun q hq => hafter.fees q v hq
  | unchanged | blockCount | feeVote | blockHash | anchor | confirm | residual | fees =>
    exact ⟨[], rfl, nofun, nofun⟩

theorem Casts.ring {i : Item} {b : Ballots} (h : Casts u db i b)
    (hi : ∀ obs p, i ≠ .consensus (.blockHash obs) p) : b.blockHashRing = db.blockHashRing := by
  cases h with
  | anchor => exact absurd rfl (hi _ _)
  | settle hs hvotes hclears => exact hclears.blockHashRing
  | unchanged | blockCount | feeVote | blockHash | confirm | residual | recover | fees | payout =>
    rfl

theorem Accepts.authentic {i : Item} {answer : Answer} (h : Accepts u db i answer db')
    (hfaulty : faulty.card ≤ u.numPeers.maxEvil) (hcast : CastInv tr db.ballots)
    (hi : i.FromGuardian u) : Authentic u faulty ((i, answer) :: tr) db i db' where
  anchored := by
    rintro obs p rfl
    have hafter := (Accepts.casts h).castInv hcast answer
    obtain ⟨-, -, -, voted, rfl, rfl | ⟨hvotes, rfl⟩⟩ := processBlockHash_ok (Accepts.consensus h)
    · exact .inl rfl
    · refine .inr ⟨rfl, ?_⟩
      exact .of_count (lt_of_le_of_lt (Nat.zero_le _) hi) hfaulty hvotes
        fun q hq => hafter.blockHash q obs hq
  ring := (Accepts.casts h).ring
  acts := (Accepts.casts h).quorums hfaulty hcast hi

end Votes

/-! ## Result -/

/-- **Quorum authenticity.**  Whatever a tally brings about along a run, a threshold of guardians
hold exactly that vote at that moment and more than `maxEvil` honest ones have cast it.  Two hashes
anchored at one height need an honest guardian that voted for both, and no operation is settled as
a success and as a failure. -/
theorem quorum_authenticity (u : Usdt) (faulty : Finset PeerId)
    (hfaulty : faulty.card ≤ u.numPeers.maxEvil) (tr : List (Item × Answer)) (db : Db)
    (run : Run (Accepts u) Db.empty tr db) (htr : FromGuardians u tr) :
    (∀ item answer db', Accepts u db item answer db' → item.FromGuardian u →
      Authentic u faulty ((item, answer) :: tr) db item db') ∧
    (∀ tr' db', Run (Accepts u) db tr' db' → FromGuardians u tr' → ∀ h x y,
      ringHashAt db h = some x → ringHashAt db' h = some y → x ≠ y →
        ∃ p, p ∉ faulty ∧ Voted (tr' ++ tr) p (.blockHash ⟨h, x⟩) ∧
          Voted (tr' ++ tr) p (.blockHash ⟨h, y⟩)) ∧
    ∀ op p p' a a', .userOpConfirmed op p true a ∈ db.history →
      .userOpConfirmed op p' false a' ∉ db.history := by
  refine ⟨?_, ?_, ?_⟩
  · intro item answer db' h hitem
    exact Accepts.authentic h hfaulty (run_castInv run) hitem
  · intro tr' db' run' htr' h x y hx hy _
    have hall : FromGuardians u (tr' ++ tr) := by
      intro t ht
      rcases List.mem_append.1 ht with ht | ht
      · exact htr' t ht
      · exact htr t ht
    exact (run_anchorInv run htr).conflict hfaulty (run_anchorInv (run.append run') hall) hall hx hy
  · intro op p p' a a' hsuccess hfailure
    cases (run_spentInv run).unique hsuccess hfailure rfl rfl

/-- Four guardians, of which one may be faulty. -/
def fourGuardians : Usdt := { sampleUsdt with numPeers := ⟨4⟩ }

/-- Three of four guardians anchor a block. -/
def Sample.anchoring : List Item :=
  [0, 1, 2].map (fun p => .consensus (.blockCount 2) p) ++
    [0, 1, 2].map fun p => .consensus (.blockHash ⟨1, 7⟩) p

theorem quorum_authenticity_four :
    ∃ tr db, Run (Accepts fourGuardians) Db.empty tr db ∧ FromGuardians fourGuardians tr ∧
      ringHashAt db 1 = some 7 ∧
      (∀ item answer db', Accepts fourGuardians db item answer db' →
        item.FromGuardian fourGuardians →
        Authentic fourGuardians {3} ((item, answer) :: tr) db item db') := by
  obtain ⟨tr, db, run, hP⟩ := Run.exists_of_exec fourGuardians.step Db.empty Sample.anchoring
    (fun tr db => decide (FromGuardians fourGuardians tr) && decide (ringHashAt db 1 = some 7))
    (by decide +kernel)
  simp only [Bool.and_eq_true, decide_eq_true_eq] at hP
  exact ⟨tr, db, run, hP.1, hP.2,
    (quorum_authenticity fourGuardians {3} (by decide) tr db run hP.1).1⟩

end Experimint.FedimintUsdt
