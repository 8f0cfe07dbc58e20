import Experimint.Lib.OrderStatistics
import Experimint.Usdt.Scan

/-!
# Deposit discovery by a client

A client asks every guardian for the candidates above its cursor, page by page, and then advances
the cursor to the height that more guardians report than can be faulty.  Requests fail, faulty
guardians answer anything, and the logs of the honest ones grow in between; `tick` counts the
requests of a round, so that a log may be another one at every request.

* `pageLoop_complete` — what an honest guardian has served at the end of its pages.
* `discovery_cursor_safe` — the cursor never skips what some honest guardian held all along.
-/

set_option autoImplicit false

namespace Experimint.FedimintUsdt

def MAX_CATCHUP_PAGES : Nat := 32

/-- The height that more than `maxEvil` of the answering guardians have covered. -/
def safeScanCursor (scannedTos : List Nat) (numPeers : NumPeers) : Option Nat :=
  (scannedTos.insertionSort (· ≥ ·))[numPeers.maxEvil]?

/-! ## One guardian -/

/-- Answer to a request, by the tick it is made at and the block it asks from; `none` if it fails.
-/
abbrev Fetch := Nat → Nat → Option TransferCandidatesResponse

/-- The catch-up loop with `pages` requests left; returns the tick it stops at as well. -/
def pageLoop (fetch : Fetch) (pages iteration tick peerSince : Nat)
    (candidates : List TransferCandidate) (scannedTo : Nat) :
    Option (List TransferCandidate × Nat) × Nat :=
  match pages with
  | 0 => (some (candidates, scannedTo), tick)
  | pages + 1 =>
    match fetch tick peerSince with
    | none => (if iteration = 0 then none else some (candidates, scannedTo), tick + 1)
    | some resp =>
      let fullPage := resp.candidates.length == MAX_TRANSFER_CANDIDATES_PER_RESPONSE
      let madeProgress := decide (peerSince < resp.scannedTo)
      let candidates := candidates ++ resp.candidates
      if !fullPage || !madeProgress then (some (candidates, resp.scannedTo), tick + 1)
      else
        pageLoop fetch pages (iteration + 1) (tick + 1) resp.scannedTo candidates resp.scannedTo

def pagePeerCandidates (fetch : Fetch) (since tick : Nat) :
    Option (List TransferCandidate × Nat) × Nat :=
  pageLoop fetch MAX_CATCHUP_PAGES 0 tick since [] since

/-! ## A round -/

/-- What a guardian has contributed to a round. -/
structure PeerPage where
  peer : PeerId
  candidates : List TransferCandidate
  scannedTo : Nat

/-- Asks the guardians one after the other. -/
def queryPeers (fetch : PeerId → Fetch) (since : Nat) : List PeerId → Nat → List PeerPage × Nat
  | [], tick => ([], tick)
  | peer :: rest, tick =>
    let page := pagePeerCandidates (fetch peer) since tick
    let others := queryPeers fetch since rest page.2
    match page.1 with
    | some (candidates, scannedTo) => (⟨peer, candidates, scannedTo⟩ :: others.1, others.2)
    | none => others

structure ClientDb where
  scanCursor : Option Nat
  claimKey : Table EvmAddress PublicKey

def ClientDb.cursor (db : ClientDb) : Nat := db.scanCursor.getD 0

structure DiscoveredDeposit where
  account : EvmAddress
  claimPk : PublicKey
  blockNumber : Nat
  value : UsdtAmount
deriving DecidableEq

structure DiscoverySummary where
  found : List DiscoveredDeposit
  cursor : Nat
  peersAnswering : Nat

/-- Candidates paid to an account of the client, each once. -/
def matchCandidates (claimKey : Table EvmAddress PublicKey) (seen : List TransferCandidate) :
    List TransferCandidate → List DiscoveredDeposit
  | [] => []
  | c :: rest =>
    if c ∈ seen then matchCandidates claimKey seen rest
    else
      match claimKey.get? c.recipient with
      | some claimPk =>
        ⟨c.recipient, claimPk, c.blockNumber, c.value⟩ ::
          matchCandidates claimKey (c :: seen) rest
      | none => matchCandidates claimKey (c :: seen) rest

def discoverDeposits (peers : List PeerId) (fetch : PeerId → Fetch) (db : ClientDb) :
    DiscoverySummary × ClientDb :=
  let since := db.cursor
  let numPeers : NumPeers := ⟨peers.length⟩
  let responses := (queryPeers fetch since peers 0).1
  let scanned := responses.map (·.scannedTo)
  let cursor := max ((safeScanCursor scanned numPeers).getD since) since
  let found := matchCandidates db.claimKey [] (responses.flatMap (·.candidates))
  let db := if since < cursor then { db with scanCursor := some cursor } else db
  (⟨found, cursor, responses.length⟩, db)

/-! ## What an honest guardian serves -/

/-- An honest guardian may fail to answer, but what it answers is its log's response. -/
def Honest (log : Nat → CandidateLog) (fetch : Fetch) : Prop :=
  ∀ tick sinceBlock resp, fetch tick sinceBlock = some resp →
    resp = (log tick).transferCandidates sinceBlock

section Peer

variable {log : Nat → CandidateLog} {fetch : Fetch}

theorem ordered_of_grows (hstart : (log 0).Ordered)
    (hgrows : ∀ t, (log t).Grows (log (t + 1))) (t : Nat) : (log t).Ordered := by
  induction t with
  | zero => exact hstart
  | succ t ih => exact ih.grows (hgrows t)

/-- Requests take time. -/
theorem tick_le_pageLoop {pages iteration tick peerSince scannedTo tick' : Nat}
    {candidates : List TransferCandidate} {page : Option (List TransferCandidate × Nat)}
    (h : pageLoop fetch pages iteration tick peerSince candidates scannedTo = (page, tick')) :
    tick ≤ tick' := by
  induction pages generalizing iteration tick peerSince candidates scannedTo with
  | zero =>
    cases h
    exact Nat.le_refl _
  | succ pages ih =>
    rw [pageLoop] at h
    split at h
    · cases h
      exact Nat.le_succ _
    · dsimp only at h
      split at h
      · cases h
        exact Nat.le_succ _
      · exact (Nat.le_succ _).trans (ih h)

/-- **What an honest guardian has served.**  A candidate that stays in its log while it is asked is
among those returned, if it is above the block the paging started from and not above the height
the paging ended with. -/
theorem pageLoop_complete {pages iteration tick peerSince mark tick' : Nat}
    {candidates served : List TransferCandidate} {c : TransferCandidate}
    (hhonest : Honest log fetch) (hordered : ∀ t, (log t).Ordered)
    (h : pageLoop fetch pages iteration tick peerSince candidates peerSince =
      (some (served, mark), tick'))
    (hstays : ∀ t, tick ≤ t → t < tick' → c ∈ (log t).entries)
    (hbefore : c.blockNumber ≤ peerSince → c ∈ candidates)
    (hhi : c.blockNumber ≤ mark) : c ∈ served := by
  induction pages generalizing iteration tick peerSince candidates with
  | zero =>
    cases h
    exact hbefore hhi
  | succ pages ih =>
    rw [pageLoop] at h
    split at h
    · -- a failed request leaves what the earlier ones have served
      split at h
      · cases h
      · cases h
        exact hbefore hhi
    · rename_i resp hresp
      have hlog := hhonest _ _ _ hresp
      -- after this response nothing up to its height is missing
      have hnow : tick < tick' → c.blockNumber ≤ resp.scannedTo →
          c ∈ candidates ++ resp.candidates := by
        intro htick hle
        rcases Nat.lt_or_ge peerSince c.blockNumber with hlo | hlo
        · rw [hlog] at hle ⊢
          exact List.mem_append_right _ ((log tick).transferCandidates_complete (hordered tick)
            (hstays tick (Nat.le_refl _) htick) hlo hle)
        · exact List.mem_append_left _ (hbefore hlo)
      dsimp only at h
      split at h
      · cases h
        exact hnow (Nat.lt_succ_self _) hhi
      · have htick : tick + 1 ≤ tick' := tick_le_pageLoop h
        exact ih h (fun t ht => hstays t (Nat.le_of_succ_le ht)) (hnow htick)

end Peer

/-! ## A round -/

section Round

variable {fetch : PeerId → Fetch} {since : Nat}

theorem tick_le_pagePeerCandidates (fetch : Fetch) (since tick : Nat) :
    tick ≤ (pagePeerCandidates fetch since tick).2 := by
  cases h : pagePeerCandidates fetch since tick with
  | mk page tick' => exact tick_le_pageLoop h

theorem tick_le_queryPeers (peers : List PeerId) (tick : Nat) :
    tick ≤ (queryPeers fetch since peers tick).2 := by
  induction peers generalizing tick with
  | nil => exact Nat.le_refl _
  | cons peer rest ih =>
    have hpage := tick_le_pagePeerCandidates (fetch peer) since tick
    have hrest := ih (pagePeerCandidates (fetch peer) since tick).2
    rw [queryPeers]
    split <;> exact hpage.trans hrest

/-- A contribution comes from a guardian's pages, at some time of the round. -/
theorem mem_queryPeers {peers : List PeerId} {tick : Nat} {r : PeerPage}
    (hr : r ∈ (queryPeers fetch since peers tick).1) :
    r.peer ∈ peers ∧ ∃ t t', t' ≤ (queryPeers fetch since peers tick).2 ∧
      pagePeerCandidates (fetch r.peer) since t = (some (r.candidates, r.scannedTo), t') := by
  induction peers generalizing tick with
  | nil => cases hr
  | cons peer rest ih =>
    have hrest := @tick_le_queryPeers fetch since rest
      (pagePeerCandidates (fetch peer) since tick).2
    rw [queryPeers] at hr ⊢
    split at hr
    · rename_i candidates scannedTo hpage
      rcases List.mem_cons.1 hr with rfl | hr
      · exact ⟨List.mem_cons_self, tick, _, hrest, Prod.ext hpage rfl⟩
      · obtain ⟨hin, t, t', ht', hpages⟩ := ih hr
        exact ⟨List.mem_cons_of_mem _ hin, t, t', ht', hpages⟩
    · obtain ⟨hin, t, t', ht', hpages⟩ := ih hr
      exact ⟨List.mem_cons_of_mem _ hin, t, t', ht', hpages⟩

theorem peers_queryPeers (peers : List PeerId) (tick : Nat) :
    List.Sublist ((queryPeers fetch since peers tick).1.map PeerPage.peer) peers := by
  induction peers generalizing tick with
  | nil => exact .slnil
  | cons peer rest ih =>
    rw [queryPeers]
    split
    · exact (ih _).cons_cons peer
    · exact (ih _).cons peer

/-- A candidate that was returned and pays an account of the client is found. -/
theorem mem_matchCandidates {claimKey : Table EvmAddress PublicKey} {seen : List TransferCandidate}
    {l : List TransferCandidate} {c : TransferCandidate} {pk : PublicKey} (hc : c ∈ l)
    (hseen : c ∉ seen) (hpk : claimKey.get? c.recipient = some pk) :
    ⟨c.recipient, pk, c.blockNumber, c.value⟩ ∈ matchCandidates claimKey seen l := by
  induction l generalizing seen with
  | nil => cases hc
  | cons x rest ih =>
    rw [matchCandidates]
    by_cases hx : x = c
    · subst hx
      rw [if_neg hseen, hpk]
      exact List.mem_cons_self
    · have hrest : c ∈ rest := (List.mem_cons.1 hc).resolve_left fun he => hx he.symm
      split
      · exact ih hrest hseen
      · have hseen' : c ∉ x :: seen := by
          simp only [List.mem_cons, not_or]
          exact ⟨fun he => hx he.symm, hseen⟩
        split
        · exact List.mem_cons_of_mem _ (ih hrest hseen')
        · exact ih hrest hseen'

theorem discoverDeposits_cursor (peers : List PeerId) (db : ClientDb) :
    (discoverDeposits peers fetch db).2.cursor = (discoverDeposits peers fetch db).1.cursor := by
  unfold discoverDeposits
  dsimp only
  split
  · rfl
  · rename_i hsame
    show db.cursor = _
    omega

end Round

/-- When a round moves the cursor, a guardian that is not faulty has scanned up to it. -/
theorem exists_honest_page {peers : List PeerId} (hpeers : peers.Nodup) {faulty : Finset PeerId}
    (hfaulty : faulty.card ≤ (NumPeers.mk peers.length).maxEvil) (fetch : PeerId → Fetch)
    {db : ClientDb} (hmoved : db.cursor < (discoverDeposits peers fetch db).1.cursor) :
    ∃ r ∈ (queryPeers fetch db.cursor peers 0).1, r.peer ∉ faulty ∧
      (discoverDeposits peers fetch db).1.cursor ≤ r.scannedTo := by
  have hcursor : (discoverDeposits peers fetch db).1.cursor =
      max ((safeScanCursor ((queryPeers fetch db.cursor peers 0).1.map (·.scannedTo))
        ⟨peers.length⟩).getD db.cursor) db.cursor := rfl
  cases hsafe : safeScanCursor ((queryPeers fetch db.cursor peers 0).1.map (·.scannedTo))
      ⟨peers.length⟩ with
  | none =>
    rw [hsafe, Option.getD_none] at hcursor
    omega
  | some mark =>
    rw [hsafe, Option.getD_some] at hcursor
    -- more guardians report at least this height than are faulty
    have hmany := (le_topStat_iff hsafe mark).1 (Nat.le_refl mark)
    rw [List.countP_map] at hmany
    have hnodup : ((queryPeers fetch db.cursor peers 0).1.map PeerPage.peer).Nodup :=
      hpeers.sublist (peers_queryPeers peers 0)
    obtain ⟨r, hr, hreach, hgood⟩ := exists_outside hnodup (lt_of_le_of_lt hfaulty hmany)
    have hreach : mark ≤ r.scannedTo := by simpa using hreach
    exact ⟨r, hr, hgood, by omega⟩

/-- **The cursor is safe.**  A round never moves the cursor back, and when it moves forward there is
an honest guardian such that every candidate between the two positions that stayed in its log during
the round has been returned, and is among the deposits found if it pays an account of the client. -/
theorem discovery_cursor_safe (peers : List PeerId) (hpeers : peers.Nodup) (faulty : Finset PeerId)
    (hfaulty : faulty.card ≤ (NumPeers.mk peers.length).maxEvil)
    (log : PeerId → Nat → CandidateLog) (fetch : PeerId → Fetch)
    (hstart : ∀ p ∈ peers, p ∉ faulty → (log p 0).Ordered)
    (hgrows : ∀ p ∈ peers, p ∉ faulty → ∀ t, (log p t).Grows (log p (t + 1)))
    (hhonest : ∀ p ∈ peers, p ∉ faulty → Honest (log p) (fetch p)) (db : ClientDb) :
    db.cursor ≤ (discoverDeposits peers fetch db).2.cursor ∧
    (db.cursor < (discoverDeposits peers fetch db).2.cursor →
      ∃ p ∈ peers, p ∉ faulty ∧ ∀ c : TransferCandidate,
        (∀ t, t < (queryPeers fetch db.cursor peers 0).2 → c ∈ (log p t).entries) →
        db.cursor < c.blockNumber →
        c.blockNumber ≤ (discoverDeposits peers fetch db).2.cursor →
        (∃ r ∈ (queryPeers fetch db.cursor peers 0).1, c ∈ r.candidates) ∧
        ∀ pk, db.claimKey.get? c.recipient = some pk →
          ⟨c.recipient, pk, c.blockNumber, c.value⟩ ∈
            (discoverDeposits peers fetch db).1.found) := by
  rw [discoverDeposits_cursor]
  refine ⟨Nat.le_max_right _ _, ?_⟩
  intro hmoved
  obtain ⟨r, hr, hgood, hreach⟩ := exists_honest_page hpeers hfaulty fetch hmoved
  obtain ⟨hin, t, t', ht', hpages⟩ := mem_queryPeers hr
  refine ⟨r.peer, hin, hgood, ?_⟩
  intro c hstays hlo hhi
  have hserved : c ∈ r.candidates := by
    refine pageLoop_complete (hhonest r.peer hin hgood)
      (ordered_of_grows (hstart r.peer hin hgood) (hgrows r.peer hin hgood)) hpages ?_ ?_ ?_
    · intro t₁ _ ht₁
      exact hstays t₁ (by omega)
    · intro hle
      omega
    · omega
  refine ⟨⟨r, hr, hserved⟩, ?_⟩
  intro pk hpk
  exact mem_matchCandidates (List.mem_flatMap.2 ⟨r, hr, hserved⟩) List.not_mem_nil hpk

namespace Sample

def transfer : TransferCandidate := ⟨5, 7, U64.clamp 1000⟩

/-- A log with one entry, scanned on while the first guardian is asked. -/
def scanned (tick : Nat) : CandidateLog :=
  if tick = 0 then ⟨[transfer], 10⟩
  else CandidateLog.recordScan ⟨[transfer], 10⟩ 12 [⟨11, 8, U64.clamp 1⟩]

/-- The first guardian does not answer and the last one lies. -/
def answers (p : PeerId) : Fetch := fun tick sinceBlock =>
  if p = 0 then none
  else if p = 3 then some ⟨[], 1000⟩
  else some ((scanned tick).transferCandidates sinceBlock)

def client : ClientDb := ⟨some 4, Table.empty⟩

end Sample

theorem discovery_cursor_safe_four :
    (discoverDeposits [0, 1, 2, 3] Sample.answers Sample.client).2.cursor = 12 ∧
      ∃ r ∈ (queryPeers Sample.answers 4 [0, 1, 2, 3] 0).1, Sample.transfer ∈ r.candidates := by
  have hstart : (Sample.scanned 0).Ordered := ⟨List.pairwise_singleton _ _, by decide⟩
  have hgrows : ∀ t, (Sample.scanned t).Grows (Sample.scanned (t + 1)) := by
    intro t
    cases t with
    | zero =>
      refine .single ⟨12, [⟨11, 8, U64.clamp 1⟩], ?_, rfl⟩
      exact ⟨by decide, List.pairwise_singleton _ _, by decide, by decide⟩
    | succ t => exact .refl
  have hhonest : ∀ p ∈ [0, 1, 2, 3], p ∉ ({3} : Finset PeerId) →
      Honest Sample.scanned (Sample.answers p) := by
    intro p _ hp tick sinceBlock resp hresp
    unfold Sample.answers at hresp
    split_ifs at hresp with h0 h3
    · exact absurd (by simp [h3]) hp
    · exact (Option.some.inj hresp).symm
  have hcursor : (discoverDeposits [0, 1, 2, 3] Sample.answers Sample.client).2.cursor = 12 := by
    decide +kernel
  obtain ⟨-, hsafe⟩ := discovery_cursor_safe [0, 1, 2, 3] (by decide) {3} (by decide)
    (fun _ => Sample.scanned) Sample.answers (fun _ _ _ => hstart) (fun _ _ _ => hgrows) hhonest
    Sample.client
  obtain ⟨p, -, -, hserved⟩ := hsafe (by rw [hcursor]; decide)
  refine ⟨hcursor, (hserved Sample.transfer ?_ (by decide) (by rw [hcursor]; decide)).1⟩
  intro t _
  cases t with
  | zero => exact List.mem_singleton_self _
  | succ t => exact (by decide : Sample.transfer ∈ (Sample.scanned 1).entries)

end Experimint.FedimintUsdt
