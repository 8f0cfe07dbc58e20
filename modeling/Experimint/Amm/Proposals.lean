import Experimint.Amm.Invariant

/-!
# Fee votes a guardian proposes

A guardian keeps the fee it wants for each pool in a table of its own, written by the authenticated
endpoint `feeVoteSubmit` only, and proposes a vote wherever its recorded one differs.

* `desires_reachable` — a fee that is wanted is in the band, and its pool exists.
* `Settling` — what the votes of this guardian are while its proposals are processed in some order,
  with anything else that is accepted in between; `settling_run` is the induction.
* `proposals_settle` — a proposal not yet processed is accepted, and when all have been, nothing is
  proposed any more.
-/

set_option autoImplicit false

namespace Experimint.FedimintAmm

/-! ## The guardian's own table -/

/-- A guardian's database: what consensus agrees on, and the fees this guardian wants. -/
structure GuardianDb where
  agreed : Db
  desiredFee : Table PoolId Nat

def GuardianDb.empty : GuardianDb := ⟨.empty, .empty⟩

structure Guardian where
  amm : Amm
  ourPeerId : PeerId

structure FeeVoteSubmitRequest where
  pool : PoolId
  feePerMille : Nat

inductive FeeVoteError where
  | unauthorized
  | badRequest (message : String)
  | notFound (message : String)

/-- The endpoint that records a wanted fee; `hasAuth` is the framework's check of the password. -/
def feeVoteSubmit (g : Guardian) (s : GuardianDb) (hasAuth : Bool)
    (request : FeeVoteSubmitRequest) : Except FeeVoteError Unit × GuardianDb :=
  if !hasAuth then (.error .unauthorized, s)
  else if !g.amm.cfg.feeInBand request.feePerMille then
    let min := g.amm.cfg.minFeePerMille
    let max := g.amm.cfg.maxFeePerMille
    (.error (.badRequest s!"fee_per_mille must be within [{min}, {max}]"), s)
  else if (s.agreed.pool.get? request.pool).isNone then (.error (.notFound "no such pool"), s)
  else (.ok (), { s with desiredFee := s.desiredFee.insert request.pool request.feePerMille })

/-- The votes a guardian proposes, in the order of its table. -/
def consensusProposal (g : Guardian) (s : GuardianDb) : List AmmConsensusItem :=
  s.desiredFee.rows.filterMap fun desire =>
    if (s.agreed.pool.get? desire.1).isNone then none
    else
      let recorded := s.agreed.feeVote.get? (toLex (desire.1, g.ourPeerId))
      if recorded ≠ some desire.2 then some (.feeVoteV0 desire.1 desire.2) else none

/-- What happens to a guardian's database. -/
inductive GuardianEvent where
  | item (i : Item)
  | submit (hasAuth : Bool) (request : FeeVoteSubmitRequest)

/-- One event; `none` when it is rejected. -/
def guardianStep (g : Guardian) (s : GuardianDb) :
    GuardianEvent → Option (Option Answer × GuardianDb)
  | .item i =>
    match step g.amm s.agreed i with
    | some (answer, agreed) => some (some answer, { s with agreed := agreed })
    | none => none
  | .submit hasAuth request =>
    match feeVoteSubmit g s hasAuth request with
    | (.ok _, s') => some (none, s')
    | (.error _, _) => none

/-! ## What items do to pools and votes -/

variable {a : Amm} {db db' : Db} {i : Item} {answer : Answer}

/-- Pools are never removed. -/
theorem Accepts.pool_isSome (h : Accepts a db i answer db') {id : PoolId}
    (hpool : (db.pool.get? id).isSome) : (db'.pool.get? id).isSome := by
  cases h.effect with
  | claim => exact hpool
  | withdraw => rw [Table.get?_insert]; split <;> first | rfl | exact hpool
  | swap => rw [Table.get?_insert]; split <;> first | rfl | exact hpool
  | deposit => rw [Table.get?_insert]; split <;> first | rfl | exact hpool
  | vote => exact hpool

theorem processConsensusItem_ok_iff {pool : PoolId} {fee : Nat} {peer : PeerId} :
    processConsensusItem a db (.feeVoteV0 pool fee) peer = (.ok (), db') ↔
      (a.cfg.feeInBand fee = true ∧ (db.pool.get? pool).isSome ∧
        db.feeVote.get? (toLex (pool, peer)) ≠ some fee) ∧
      db' = { db with feeVote := db.feeVote.insert (toLex (pool, peer)) fee } := by
  unfold processConsensusItem
  dsimp only
  split
  · rename_i hband
    refine iff_of_false (by simp) ?_
    rintro ⟨⟨hin, -, -⟩, -⟩
    rw [hin] at hband
    cases hband
  rename_i hband
  split
  · rename_i hpool
    refine iff_of_false (by simp) ?_
    rintro ⟨⟨-, hsome, -⟩, -⟩
    rw [Option.isNone_iff_eq_none] at hpool
    rw [hpool] at hsome
    cases hsome
  rename_i hpool
  split
  · rename_i hsame
    exact iff_of_false (by simp) fun h => h.1.2.2 hsame
  · rename_i hdiffers
    have hin : a.cfg.feeInBand fee = true := by simpa using hband
    have hsome : (db.pool.get? pool).isSome := by simpa [← Option.isSome_iff_ne_none] using hpool
    exact ⟨fun h => ⟨⟨hin, hsome, hdiffers⟩, (Prod.mk.inj h).2.symm⟩, fun h => by rw [h.2]⟩

theorem accepts_vote_iff {pool : PoolId} {fee : Nat} {peer : PeerId} :
    Accepts a db (.consensus (.feeVoteV0 pool fee) peer) answer db' ↔
      (a.cfg.feeInBand fee = true ∧ (db.pool.get? pool).isSome ∧
        db.feeVote.get? (toLex (pool, peer)) ≠ some fee) ∧
      answer = .recorded ∧
      db' = { db with feeVote := db.feeVote.insert (toLex (pool, peer)) fee } := by
  constructor
  · intro h
    unfold Accepts Steps step at h
    dsimp only at h
    split at h
    · rename_i hvote
      cases h
      obtain ⟨hchecks, hdb⟩ := processConsensusItem_ok_iff.1 hvote
      exact ⟨hchecks, rfl, hdb⟩
    · cases h
  · rintro ⟨hchecks, rfl, rfl⟩
    have hvote := processConsensusItem_ok_iff.2 ⟨hchecks, rfl⟩
    unfold Accepts Steps step
    dsimp only
    rw [hvote]

/-- A row of the vote table is written by a vote of its peer for its pool only. -/
theorem Accepts.feeVote_eq (h : Accepts a db i answer db') {pool : PoolId} {peer : PeerId}
    (hother : ∀ fee, i ≠ .consensus (.feeVoteV0 pool fee) peer) :
    db'.feeVote.get? (toLex (pool, peer)) = db.feeVote.get? (toLex (pool, peer)) := by
  cases i with
  | consensus c p =>
    cases c with
    | feeVoteV0 id fee =>
      obtain ⟨-, -, rfl⟩ := accepts_vote_iff.1 h
      refine Table.get?_insert_ne _ _ fun hkey => ?_
      obtain ⟨rfl, rfl⟩ := Prod.mk.inj (toLex.injective hkey)
      exact hother fee rfl
    | default v b => cases h
  | input i =>
    have heffect := h.effect
    unfold Accepts Steps step at h
    dsimp only at h
    split at h
    · cases h
      cases heffect with
      | claim => rfl
      | withdraw => rfl
    · cases h
  | output o =>
    have heffect := h.effect
    unfold Accepts Steps step at h
    dsimp only at h
    split at h
    · cases h
      cases heffect with
      | swap => rfl
      | deposit => rfl
    · cases h

/-! ## Wanted fees -/

variable {g : Guardian} {s : GuardianDb}

/-- Every wanted fee could be voted for. -/
def Desires (g : Guardian) (s : GuardianDb) : Prop :=
  ∀ pool fee, s.desiredFee.get? pool = some fee →
    g.amm.cfg.feeInBand fee = true ∧ (s.agreed.pool.get? pool).isSome

theorem feeVoteSubmit_ok {s' : GuardianDb} {hasAuth : Bool} {request : FeeVoteSubmitRequest}
    (h : feeVoteSubmit g s hasAuth request = (.ok (), s')) :
    g.amm.cfg.feeInBand request.feePerMille = true ∧
      (s.agreed.pool.get? request.pool).isSome ∧
      s' = { s with desiredFee := s.desiredFee.insert request.pool request.feePerMille } := by
  unfold feeVoteSubmit at h
  dsimp only at h
  split at h
  · cases h
  split at h
  · cases h
  rename_i hband
  split at h
  · cases h
  rename_i hpool
  cases h
  exact ⟨by simpa using hband, by simpa [← Option.isSome_iff_ne_none] using hpool, rfl⟩

/-- **A wanted fee is in the band and its pool exists, in every reachable state.** -/
theorem desires_reachable {tr : List (GuardianEvent × Option Answer)}
    (h : Run (Steps (guardianStep g)) GuardianDb.empty tr s) : Desires g s := by
  refine Run.invariant (P := Desires g) ?_ ?_ h
  · intro pool fee hfee
    cases hfee
  · intro s event answer s' hdesires hstep
    unfold Steps guardianStep at hstep
    split at hstep
    · split at hstep
      · rename_i hitem
        cases hstep
        intro pool fee hfee
        obtain ⟨hband, hpool⟩ := hdesires pool fee hfee
        exact ⟨hband, Accepts.pool_isSome hitem hpool⟩
      · cases hstep
    · split at hstep
      · rename_i hsubmit
        cases hstep
        obtain ⟨hband, hpool, rfl⟩ := feeVoteSubmit_ok hsubmit
        intro pool fee hfee
        dsimp only at hfee ⊢
        rw [Table.get?_insert] at hfee
        split at hfee
        · rename_i hkey
          cases hfee
          exact ⟨hband, hkey ▸ hpool⟩
        · exact hdesires pool fee hfee
      · cases hstep

theorem mem_consensusProposal {c : AmmConsensusItem} :
    c ∈ consensusProposal g s ↔ ∃ pool fee, c = .feeVoteV0 pool fee ∧
      s.desiredFee.get? pool = some fee ∧ (s.agreed.pool.get? pool).isSome ∧
      s.agreed.feeVote.get? (toLex (pool, g.ourPeerId)) ≠ some fee := by
  unfold consensusProposal
  rw [List.mem_filterMap]
  constructor
  · rintro ⟨⟨pool, fee⟩, hrow, hproposed⟩
    dsimp only at hproposed
    split at hproposed
    · cases hproposed
    rename_i hpool
    split at hproposed
    · rename_i hdiffers
      cases hproposed
      exact ⟨pool, fee, rfl, Table.mem_rows.1 hrow,
        by simpa [← Option.isSome_iff_ne_none] using hpool, hdiffers⟩
    · cases hproposed
  · rintro ⟨pool, fee, rfl, hfee, hpool, hdiffers⟩
    refine ⟨(pool, fee), Table.mem_rows.2 hfee, ?_⟩
    dsimp only
    rw [if_neg (by simpa [← Option.isSome_iff_ne_none] using hpool), if_pos hdiffers]

/-! ## Settling -/

/-- This guardian's vote for a pool, as an item. -/
def Guardian.vote (g : Guardian) (pool : PoolId) (fee : Nat) : Item :=
  .consensus (.feeVoteV0 pool fee) g.ourPeerId

/-- The items attributed to this guardian are proposals of it. -/
def OnlyProposed (g : Guardian) (s : GuardianDb) (tr : List (Item × Answer)) : Prop :=
  ∀ c, .consensus c g.ourPeerId ∈ tr.map Prod.fst → c ∈ consensusProposal g s

/-- After a trace: the pools of wanted fees exist, and this guardian's vote for one of them is the
wanted fee if it has been processed, or what it was. -/
structure Settling (g : Guardian) (s : GuardianDb) (tr : List (Item × Answer)) (db : Db) :
    Prop where
  pool : ∀ pool fee, s.desiredFee.get? pool = some fee → (db.pool.get? pool).isSome
  vote : ∀ pool fee, s.desiredFee.get? pool = some fee →
    db.feeVote.get? (toLex (pool, g.ourPeerId)) =
      if g.vote pool fee ∈ tr.map Prod.fst then some fee
      else s.agreed.feeVote.get? (toLex (pool, g.ourPeerId))

theorem Settling.next {tr : List (Item × Answer)} (hsettling : Settling g s tr db)
    (hproposed : OnlyProposed g s ((i, answer) :: tr)) (h : Accepts g.amm db i answer db') :
    Settling g s ((i, answer) :: tr) db' := by
  refine ⟨fun pool fee hfee => h.pool_isSome (hsettling.pool pool fee hfee), ?_⟩
  intro pool fee hfee
  rw [List.map_cons]
  by_cases hvote : ∃ fee', i = g.vote pool fee'
  · -- a vote of ours for this pool is the proposal of the one fee that is wanted
    obtain ⟨fee', rfl⟩ := hvote
    obtain ⟨id, wanted, hitem, hwanted, -, -⟩ :=
      mem_consensusProposal.1 (hproposed (.feeVoteV0 pool fee') (.head _))
    obtain ⟨rfl, rfl⟩ := AmmConsensusItem.feeVoteV0.inj hitem
    obtain rfl : fee' = fee := Option.some.inj (hwanted.symm.trans hfee)
    obtain ⟨-, -, rfl⟩ := accepts_vote_iff.1 h
    rw [if_pos (.head _)]
    exact Table.get?_insert_self _ _ _
  · have hmem : g.vote pool fee ∈ i :: tr.map Prod.fst ↔ g.vote pool fee ∈ tr.map Prod.fst :=
      ⟨fun h => (List.mem_cons.1 h).resolve_left fun heq => hvote ⟨fee, heq.symm⟩, .tail _⟩
    rw [h.feeVote_eq fun fee' heq => hvote ⟨fee', heq⟩, hsettling.vote pool fee hfee]
    simp only [hmem]

theorem settling_run {tr : List (Item × Answer)} (hdesires : Desires g s)
    (h : Run (Accepts g.amm) s.agreed tr db) (hproposed : OnlyProposed g s tr) :
    Settling g s tr db := by
  refine Run.historyInvariant (P := fun tr db => OnlyProposed g s tr → Settling g s tr db) ?_ ?_ h
    hproposed
  · intro _
    exact ⟨fun pool fee hfee => (hdesires pool fee hfee).2, fun pool fee _ => by simp⟩
  · intro tr db i answer db' ih hstep hproposed
    exact (ih fun c hc => hproposed c (.tail _ hc)).next hproposed hstep

/-- **Proposals settle.**  In every reachable state, a vote the guardian proposes is accepted when it
comes, in whatever order its proposals come and whatever else is accepted before it; and when all of
them have come, the guardian proposes nothing. -/
theorem proposals_settle {g : Guardian} {s : GuardianDb}
    {history : List (GuardianEvent × Option Answer)} {tr : List (Item × Answer)} {db : Db}
    (hreached : Run (Steps (guardianStep g)) GuardianDb.empty history s)
    (hrun : Run (Accepts g.amm) s.agreed tr db) (hproposed : OnlyProposed g s tr) :
    (∀ c ∈ consensusProposal g s, .consensus c g.ourPeerId ∉ tr.map Prod.fst →
      ∃ db', Accepts g.amm db (.consensus c g.ourPeerId) .recorded db') ∧
    ((∀ c ∈ consensusProposal g s, .consensus c g.ourPeerId ∈ tr.map Prod.fst) →
      consensusProposal g { s with agreed := db } = []) := by
  have hdesires := desires_reachable hreached
  have hsettling := settling_run hdesires hrun hproposed
  refine ⟨?_, ?_⟩
  · intro c hc hwaiting
    obtain ⟨pool, fee, rfl, hfee, -, hdiffers⟩ := mem_consensusProposal.1 hc
    have hwaiting : g.vote pool fee ∉ tr.map Prod.fst := hwaiting
    have hvote := hsettling.vote pool fee hfee
    rw [if_neg hwaiting] at hvote
    exact ⟨_, accepts_vote_iff.2 ⟨⟨(hdesires pool fee hfee).1, hsettling.pool pool fee hfee,
      by rw [hvote]; exact hdiffers⟩, rfl, rfl⟩⟩
  · intro hall
    rw [List.eq_nil_iff_forall_not_mem]
    intro c hc
    obtain ⟨pool, fee, rfl, hfee, -, hdiffers⟩ := mem_consensusProposal.1 hc
    have hvote := hsettling.vote pool fee hfee
    by_cases hprocessed : g.vote pool fee ∈ tr.map Prod.fst
    · rw [if_pos hprocessed] at hvote
      exact hdiffers hvote
    · -- not proposed at first: the recorded vote was the wanted one
      rw [if_neg hprocessed] at hvote
      have hsame : s.agreed.feeVote.get? (toLex (pool, g.ourPeerId)) = some fee := by
        by_contra hne
        exact hprocessed (hall _ (mem_consensusProposal.2
          ⟨pool, fee, rfl, hfee, (hdesires pool fee hfee).2, hne⟩))
      exact hdiffers (hvote.trans hsame)

/-! ## A sample guardian -/

def sampleGuardian : Guardian := ⟨sampleAmm, 2⟩

/-- A pool is created, and guardian 2 wants a fee of 5 for it. -/
def sampleEvents : List GuardianEvent :=
  [.item (.output (.depositV0 samplePool 4000 9000 1 sampleKey [] (List.replicate 64 0))),
   .submit true ⟨samplePool, 5⟩]

theorem sampleEvents_accepted :
    (exec (guardianStep sampleGuardian) [] GuardianDb.empty sampleEvents).isSome := by
  decide +kernel

def wishingDb : GuardianDb :=
  ((exec (guardianStep sampleGuardian) [] GuardianDb.empty sampleEvents).get
    sampleEvents_accepted).2

/-- Guardian 1 votes too, before the proposal comes. -/
def votesOfTwo : List Item :=
  [.consensus (.feeVoteV0 samplePool 7) 1, .consensus (.feeVoteV0 samplePool 5) 2]

theorem votesOfTwo_accepted : (exec (step sampleAmm) [] wishingDb.agreed votesOfTwo).isSome := by
  decide +kernel

theorem proposals_settle_sample :
    consensusProposal sampleGuardian wishingDb = [.feeVoteV0 samplePool 5] ∧
      consensusProposal sampleGuardian
        { wishingDb with
          agreed := ((exec (step sampleAmm) [] wishingDb.agreed votesOfTwo).get
            votesOfTwo_accepted).2 } = [] := by
  have hproposal : consensusProposal sampleGuardian wishingDb = [.feeVoteV0 samplePool 5] := by
    decide +kernel
  have htrace : ((exec (step sampleAmm) [] wishingDb.agreed votesOfTwo).get
      votesOfTwo_accepted).1.map Prod.fst =
      [.consensus (.feeVoteV0 samplePool 5) 2, .consensus (.feeVoteV0 samplePool 7) 1] := by
    decide +kernel
  have hproposed : OnlyProposed sampleGuardian wishingDb
      ((exec (step sampleAmm) [] wishingDb.agreed votesOfTwo).get votesOfTwo_accepted).1 := by
    intro c hc
    rw [htrace] at hc
    rw [hproposal]
    simpa [sampleGuardian] using hc
  have hreached : Run (Steps (guardianStep sampleGuardian)) GuardianDb.empty _ wishingDb :=
    Run.of_isSome sampleEvents_accepted
  refine ⟨hproposal, (proposals_settle hreached (Run.of_isSome votesOfTwo_accepted)
    hproposed).2 ?_⟩
  rw [hproposal, htrace]
  decide

end Experimint.FedimintAmm
