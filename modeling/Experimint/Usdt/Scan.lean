import Mathlib.Logic.Relation
import Experimint.Usdt.Types

/-!
# A guardian's log of transfer candidates

A guardian scans the chain for transfers that may be deposits and keeps them in memory, oldest
first, with the height its scan has covered.  Old entries are dropped, and a response holds at most
a page of them.

* `CandidateLog.Ordered` — entries in block order, none above the covered height; every scan keeps
  it.
* `CandidateLog.since_omits`, `since_complete` — a response holds every entry up to the height it
  reports.
-/

set_option autoImplicit false

namespace Experimint.FedimintUsdt

def MAX_TRANSFER_CANDIDATES_PER_RESPONSE : Nat := 512

def CANDIDATE_RETENTION_BLOCKS : Nat := 50400

def MAX_CANDIDATE_ENTRIES : Nat := 4096

structure TransferCandidate where
  blockNumber : Nat
  recipient : EvmAddress
  value : UsdtAmount
deriving DecidableEq

structure TransferCandidatesResponse where
  candidates : List TransferCandidate
  scannedTo : Nat
deriving DecidableEq

structure CandidateLog where
  entries : List TransferCandidate
  scannedTo : Nat
deriving DecidableEq

namespace CandidateLog

/-- The log of a guardian that has just started. -/
def empty : CandidateLog := ⟨[], 0⟩

/-- Appends what a scan up to `upTo` has found, then drops entries that are too old or too many. -/
def recordScan (log : CandidateLog) (upTo : Nat) (found : List TransferCandidate) :
    CandidateLog :=
  let entries := log.entries ++ found
  let scannedTo := max log.scannedTo upTo
  let floor := scannedTo - CANDIDATE_RETENTION_BLOCKS
  let entries := entries.dropWhile fun c => decide (c.blockNumber < floor)
  ⟨entries.drop (entries.length - MAX_CANDIDATE_ENTRIES), scannedTo⟩

/-- Up to `limit` entries above `sinceBlock`, and the height through which they are complete. -/
def since (log : CandidateLog) (sinceBlock limit : Nat) : List TransferCandidate × Nat :=
  let matching := log.entries.filter fun c => decide (sinceBlock < c.blockNumber)
  let scannedTo :=
    match matching[limit]? with
    | some firstOmitted => min log.scannedTo (firstOmitted.blockNumber - 1)
    | none => log.scannedTo
  (matching.take limit, scannedTo)

/-- The answer of the endpoint. -/
def transferCandidates (log : CandidateLog) (sinceBlock : Nat) : TransferCandidatesResponse :=
  let page := log.since sinceBlock MAX_TRANSFER_CANDIDATES_PER_RESPONSE
  ⟨page.1, page.2⟩

/-! ## Order -/

structure Ordered (log : CandidateLog) : Prop where
  sorted : log.entries.Pairwise fun c c' => c.blockNumber ≤ c'.blockNumber
  covered : ∀ c ∈ log.entries, c.blockNumber ≤ log.scannedTo

/-- A batch the scanner may record: in block order, above what was covered and up to `upTo`. -/
structure Batch (log : CandidateLog) (upTo : Nat) (found : List TransferCandidate) : Prop where
  forward : log.scannedTo ≤ upTo
  sorted : found.Pairwise fun c c' => c.blockNumber ≤ c'.blockNumber
  above : ∀ c ∈ found, log.scannedTo < c.blockNumber
  upTo : ∀ c ∈ found, c.blockNumber ≤ upTo

/-- The log some scans later. -/
abbrev Grows : CandidateLog → CandidateLog → Prop :=
  Relation.ReflTransGen fun log log' =>
    ∃ upTo found, log.Batch upTo found ∧ log' = log.recordScan upTo found

variable {log log' : CandidateLog}

theorem ordered_empty : empty.Ordered := ⟨List.Pairwise.nil, nofun⟩

theorem recordScan_entries (log : CandidateLog) (upTo : Nat) (found : List TransferCandidate) :
    List.Sublist (log.recordScan upTo found).entries (log.entries ++ found) := by
  unfold recordScan
  dsimp only
  refine List.Sublist.trans (List.drop_sublist _ _) ?_
  exact List.dropWhile_sublist _

theorem Ordered.recordScan (h : log.Ordered) {upTo : Nat} {found : List TransferCandidate}
    (hbatch : log.Batch upTo found) : (log.recordScan upTo found).Ordered where
  sorted := by
    refine List.Pairwise.sublist (recordScan_entries log upTo found) ?_
    rw [List.pairwise_append]
    refine ⟨h.sorted, hbatch.sorted, ?_⟩
    intro c hc c' hc'
    have hold := h.covered c hc
    have hnew := hbatch.above c' hc'
    omega
  covered := by
    intro c hc
    show c.blockNumber ≤ max log.scannedTo upTo
    rcases List.mem_append.1 ((recordScan_entries log upTo found).subset hc) with hc | hc
    · have := h.covered c hc
      omega
    · have := hbatch.upTo c hc
      omega

theorem Ordered.grows (h : log.Ordered) (hgrows : log.Grows log') : log'.Ordered := by
  induction hgrows with
  | refl => exact h
  | tail _ hstep ih =>
    obtain ⟨upTo, found, hbatch, rfl⟩ := hstep
    exact ih.recordScan hbatch

/-! ## Completeness of a response -/

/-- Entries a request from `sinceBlock` is about. -/
def newer (log : CandidateLog) (sinceBlock : Nat) : List TransferCandidate :=
  log.entries.filter fun c => decide (sinceBlock < c.blockNumber)

theorem mem_newer {sinceBlock : Nat} {c : TransferCandidate} :
    c ∈ log.newer sinceBlock ↔ c ∈ log.entries ∧ sinceBlock < c.blockNumber := by
  unfold newer
  rw [List.mem_filter, decide_eq_true_eq]

theorem Ordered.newer (h : log.Ordered) (sinceBlock : Nat) :
    (log.newer sinceBlock).Pairwise fun c c' => c.blockNumber ≤ c'.blockNumber :=
  h.sorted.filter _

theorem since_page (log : CandidateLog) (sinceBlock limit : Nat) :
    (log.since sinceBlock limit).1 = (log.newer sinceBlock).take limit := rfl

/-- A response that omits nothing reports the covered height. -/
theorem since_all {sinceBlock limit : Nat} (h : (log.newer sinceBlock).length ≤ limit) :
    (log.since sinceBlock limit).2 = log.scannedTo := by
  have hnone : (log.newer sinceBlock)[limit]? = none := List.getElem?_eq_none h
  unfold since
  dsimp only
  unfold CandidateLog.newer at hnone
  rw [hnone]

/-- A response that omits entries reports the height before the first of them. -/
theorem since_truncated {sinceBlock limit : Nat} {first : TransferCandidate}
    (h : (log.newer sinceBlock)[limit]? = some first) :
    (log.since sinceBlock limit).2 = min log.scannedTo (first.blockNumber - 1) := by
  unfold since
  dsimp only
  unfold CandidateLog.newer at h
  rw [h]

/-- What a response omits lies above the height it reports. -/
theorem since_omits (h : log.Ordered) {sinceBlock limit : Nat} {c : TransferCandidate}
    (hc : c ∈ (log.newer sinceBlock).drop limit) :
    (log.since sinceBlock limit).2 < c.blockNumber := by
  have hsorted := h.newer sinceBlock
  rw [← List.take_append_drop limit (log.newer sinceBlock), List.pairwise_append] at hsorted
  cases hdrop : (log.newer sinceBlock).drop limit with
  | nil =>
    rw [hdrop] at hc
    cases hc
  | cons first rest =>
    have hfirst : (log.newer sinceBlock)[limit]? = some first := by
      rw [← List.head?_drop, hdrop]
      rfl
    have habove := (mem_newer.1 (List.mem_of_getElem? hfirst)).2
    rw [hdrop] at hc hsorted
    have hle : first.blockNumber ≤ c.blockNumber := by
      rcases List.mem_cons.1 hc with rfl | hrest
      · exact Nat.le_refl _
      · exact (List.pairwise_cons.1 hsorted.2.1).1 c hrest
    rw [since_truncated hfirst]
    omega

/-- **A response holds every entry above the request up to the height it reports.** -/
theorem since_complete (h : log.Ordered) {sinceBlock limit : Nat} {c : TransferCandidate}
    (hc : c ∈ log.entries) (hlo : sinceBlock < c.blockNumber)
    (hhi : c.blockNumber ≤ (log.since sinceBlock limit).2) :
    c ∈ (log.since sinceBlock limit).1 := by
  have hmem := mem_newer.2 ⟨hc, hlo⟩
  rw [← List.take_append_drop limit (log.newer sinceBlock), List.mem_append] at hmem
  rcases hmem with hpage | hrest
  · exact hpage
  · have := since_omits h hrest
    omega

theorem transferCandidates_complete (h : log.Ordered) {sinceBlock : Nat} {c : TransferCandidate}
    (hc : c ∈ log.entries) (hlo : sinceBlock < c.blockNumber)
    (hhi : c.blockNumber ≤ (log.transferCandidates sinceBlock).scannedTo) :
    c ∈ (log.transferCandidates sinceBlock).candidates :=
  since_complete h hc hlo hhi

end CandidateLog

end Experimint.FedimintUsdt
