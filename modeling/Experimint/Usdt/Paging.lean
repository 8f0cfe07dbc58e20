import Experimint.Usdt.Scan

/-!
# Paging through a log

A client asks for the entries above its mark and takes the height of the response as its next mark.
Responses hold at most a page, and a truncated one reports the height before the first entry it
omits, so a mark never skips an entry.  It never passes a block with more entries than a page holds
either: every response to the mark right before such a block reports that mark again.

* `CandidateLog.since_progress`, `since_stuck` — one request.
* `CandidateLog.servedAfter_complete` — what any number of requests have served.
* `paging_reaches_end_iff` — paging ends exactly when every block fits on a page.
-/

set_option autoImplicit false

namespace Experimint.FedimintUsdt

namespace CandidateLog

/-- Number of entries of a block. -/
def entriesAt (log : CandidateLog) (block : Nat) : Nat :=
  log.entries.countP fun c => decide (c.blockNumber = block)

/-- The response to a request from `sinceBlock` omits entries. -/
def Truncated (log : CandidateLog) (sinceBlock : Nat) : Prop :=
  MAX_TRANSFER_CANDIDATES_PER_RESPONSE < (log.newer sinceBlock).length

/-- Mark after `n` requests that started at `sinceBlock`. -/
def markAfter (log : CandidateLog) (sinceBlock : Nat) : Nat → Nat
  | 0 => sinceBlock
  | n + 1 => (log.transferCandidates (log.markAfter sinceBlock n)).scannedTo

/-- Everything those requests have served. -/
def servedAfter (log : CandidateLog) (sinceBlock : Nat) : Nat → List TransferCandidate
  | 0 => []
  | n + 1 => log.servedAfter sinceBlock n ++
      (log.transferCandidates (log.markAfter sinceBlock n)).candidates

/-- Some request reports the covered height, and by then every entry above the start is served, as
often as the log holds it. -/
def ReachesEnd (log : CandidateLog) (sinceBlock : Nat) : Prop :=
  ∃ n, log.markAfter sinceBlock (n + 1) = log.scannedTo ∧
    ∀ c ∈ log.entries, sinceBlock < c.blockNumber →
      log.entries.count c ≤ (log.servedAfter sinceBlock (n + 1)).count c

/-- No block above `sinceBlock` has more entries than a page holds. -/
def BlocksFit (log : CandidateLog) (sinceBlock : Nat) : Prop :=
  ∀ block, sinceBlock < block → log.entriesAt block ≤ MAX_TRANSFER_CANDIDATES_PER_RESPONSE

variable {log : CandidateLog} {sinceBlock limit : Nat}

/-! ## One request -/

theorem entriesAt_newer {block : Nat} (h : sinceBlock < block) :
    (log.newer sinceBlock).countP (fun c => decide (c.blockNumber = block)) =
      log.entriesAt block := by
  unfold newer entriesAt
  rw [List.countP_filter]
  apply List.countP_congr
  intro c _
  simp only [Bool.and_eq_true, decide_eq_true_eq, and_iff_left_iff_imp]
  rintro rfl
  exact h

theorem since_le (log : CandidateLog) (sinceBlock limit : Nat) :
    (log.since sinceBlock limit).2 ≤ log.scannedTo := by
  unfold since
  dsimp only
  split
  · exact Nat.min_le_left _ _
  · exact Nat.le_refl _

/-- A response does not report past a block that no page can hold. -/
theorem since_stuck (h : log.Ordered) {block : Nat} (hlo : sinceBlock < block)
    (hover : limit < log.entriesAt block) : (log.since sinceBlock limit).2 < block := by
  by_contra hle
  -- otherwise every entry of the block stands on the page
  have hdropped : ((log.newer sinceBlock).drop limit).countP
      (fun c => decide (c.blockNumber = block)) = 0 := by
    rw [List.countP_eq_zero]
    intro c hc
    have := since_omits h hc
    rw [decide_eq_true_eq]
    omega
  have hsplit : (log.newer sinceBlock).countP (fun c => decide (c.blockNumber = block)) =
      log.entriesAt block := entriesAt_newer hlo
  rw [← List.take_append_drop limit (log.newer sinceBlock), List.countP_append, hdropped] at hsplit
  have hpage : ((log.newer sinceBlock).take limit).countP (fun c => decide (c.blockNumber = block)) ≤
      ((log.newer sinceBlock).take limit).length := List.countP_le_length
  rw [List.length_take] at hpage
  omega

/-- If the next block fits on a page, the response reports a higher mark. -/
theorem since_progress (h : log.Ordered) (hlt : sinceBlock < log.scannedTo)
    (hfits : log.entriesAt (sinceBlock + 1) ≤ limit) :
    sinceBlock < (log.since sinceBlock limit).2 := by
  cases hget : (log.newer sinceBlock)[limit]? with
  | none =>
    rw [since_all (List.getElem?_eq_none_iff.1 hget)]
    exact hlt
  | some first =>
    rw [since_truncated hget]
    have habove := (mem_newer.1 (List.mem_of_getElem? hget)).2
    by_contra hstuck
    have hfirst : first.blockNumber = sinceBlock + 1 := by omega
    -- in block order, everything up to the first omitted entry is of the same block
    obtain ⟨hlen, hget⟩ := List.getElem?_eq_some_iff.1 hget
    have hall : ∀ c ∈ (log.newer sinceBlock).take (limit + 1),
        decide (c.blockNumber = sinceBlock + 1) = true := by
      intro c hc
      obtain ⟨i, hi, rfl⟩ := List.mem_iff_getElem.1 hc
      rw [List.length_take] at hi
      rw [List.getElem_take, decide_eq_true_eq]
      have hgt := (mem_newer.1 (List.getElem_mem (l := log.newer sinceBlock) (n := i) (by omega))).2
      have hle : ((log.newer sinceBlock)[i]).blockNumber ≤ first.blockNumber := by
        rcases Nat.lt_or_eq_of_le (show i ≤ limit by omega) with hi | rfl
        · rw [← hget]
          exact List.pairwise_iff_getElem.1 (h.newer sinceBlock) i limit (by omega) hlen hi
        · rw [hget]
      omega
    have hcount : ((log.newer sinceBlock).take (limit + 1)).countP
        (fun c => decide (c.blockNumber = sinceBlock + 1)) = limit + 1 := by
      rw [List.countP_eq_length.2 hall, List.length_take]
      omega
    have hle := (List.take_sublist (limit + 1) (log.newer sinceBlock)).countP_le
      (p := fun c => decide (c.blockNumber = sinceBlock + 1))
    rw [hcount, entriesAt_newer (by omega)] at hle
    omega

/-- A page holds every copy of an entry up to the height it reports. -/
theorem since_count (h : log.Ordered) {c : TransferCandidate} (hlo : sinceBlock < c.blockNumber)
    (hhi : c.blockNumber ≤ (log.since sinceBlock limit).2) :
    log.entries.count c ≤ (log.since sinceBlock limit).1.count c := by
  have hdropped : ((log.newer sinceBlock).drop limit).count c = 0 := by
    rw [List.count_eq_zero]
    intro hc
    have := since_omits h hc
    omega
  have hnewer : (log.newer sinceBlock).count c = log.entries.count c :=
    List.count_filter (by rw [decide_eq_true_eq]; exact hlo)
  rw [← hnewer, since_page]
  nth_rewrite 1 [← List.take_append_drop limit (log.newer sinceBlock)]
  rw [List.count_append, hdropped, Nat.add_zero]

/-! ## Any number of requests -/

theorem servedAfter_complete (h : log.Ordered) (n : Nat) {c : TransferCandidate}
    (hlo : sinceBlock < c.blockNumber) (hhi : c.blockNumber ≤ log.markAfter sinceBlock n) :
    log.entries.count c ≤ (log.servedAfter sinceBlock n).count c := by
  induction n with
  | zero =>
    unfold markAfter at hhi
    omega
  | succ n ih =>
    unfold servedAfter
    rw [List.count_append]
    rcases Nat.lt_or_ge (log.markAfter sinceBlock n) c.blockNumber with hnew | hold
    · exact (since_count h hnew hhi).trans (Nat.le_add_left _ _)
    · exact (ih hold).trans (Nat.le_add_right _ _)

theorem markAfter_stuck (h : log.Ordered) {block : Nat} (hlo : sinceBlock < block)
    (hover : MAX_TRANSFER_CANDIDATES_PER_RESPONSE < log.entriesAt block) (n : Nat) :
    log.markAfter sinceBlock n < block := by
  induction n with
  | zero => exact hlo
  | succ n ih => exact since_stuck h ih hover

/-- While every block fits, each request gains a block until one reports the covered height. -/
theorem markAfter_advances (h : log.Ordered) (hfits : log.BlocksFit sinceBlock) (n : Nat) :
    (∃ j, log.markAfter sinceBlock (j + 1) = log.scannedTo) ∨
      sinceBlock + n ≤ log.markAfter sinceBlock n := by
  induction n with
  | zero => exact .inr (Nat.le_refl _)
  | succ n ih =>
    rcases ih with hreached | hmark
    · exact .inl hreached
    · rcases Nat.lt_or_ge (log.markAfter sinceBlock n) log.scannedTo with hlt | hge
      · have hstep : log.markAfter sinceBlock n < log.markAfter sinceBlock (n + 1) :=
          since_progress h hlt (hfits _ (by omega))
        exact .inr (Nat.succ_le_of_lt (Nat.lt_of_le_of_lt hmark hstep))
      · have hnone : log.newer (log.markAfter sinceBlock n) = [] := by
          rw [List.eq_nil_iff_forall_not_mem]
          intro c hc
          obtain ⟨hc, hgt⟩ := mem_newer.1 hc
          have := h.covered c hc
          omega
        refine .inl ⟨n, since_all ?_⟩
        rw [hnone]
        exact Nat.zero_le _

theorem markAfter_reaches (h : log.Ordered) (hfits : log.BlocksFit sinceBlock) :
    ∃ n, log.markAfter sinceBlock (n + 1) = log.scannedTo := by
  rcases markAfter_advances h hfits (log.scannedTo + 1) with hreached | hmark
  · exact hreached
  · have hle := since_le log (log.markAfter sinceBlock log.scannedTo)
      MAX_TRANSFER_CANDIDATES_PER_RESPONSE
    change log.markAfter sinceBlock (log.scannedTo + 1) ≤ log.scannedTo at hle
    omega

theorem entriesAt_covered (h : log.Ordered) {block : Nat} (hpos : 0 < log.entriesAt block) :
    block ≤ log.scannedTo := by
  obtain ⟨c, hc, heq⟩ := List.countP_pos_iff.1 hpos
  rw [decide_eq_true_eq] at heq
  exact heq ▸ h.covered c hc

theorem truncated_of_over {block : Nat} (hlo : sinceBlock < block)
    (hover : MAX_TRANSFER_CANDIDATES_PER_RESPONSE < log.entriesAt block) :
    log.Truncated sinceBlock := by
  rw [← entriesAt_newer hlo] at hover
  exact Nat.lt_of_lt_of_le hover List.countP_le_length

end CandidateLog

/-- **Paging ends exactly when every block above the start fits on a page.**  The same condition
decides whether every truncated response from the start on reports a mark above the request. -/
theorem paging_reaches_end_iff (log : CandidateLog) (h : log.Ordered) (sinceBlock : Nat) :
    (log.ReachesEnd sinceBlock ↔ log.BlocksFit sinceBlock) ∧
      ((∀ mark, sinceBlock ≤ mark → log.Truncated mark →
        mark < (log.since mark MAX_TRANSFER_CANDIDATES_PER_RESPONSE).2) ↔
          log.BlocksFit sinceBlock) := by
  refine ⟨⟨?_, ?_⟩, ⟨?_, ?_⟩⟩
  · rintro ⟨n, hend, -⟩ block hlo
    by_contra hover
    have hover := Nat.lt_of_not_le hover
    have hstuck := CandidateLog.markAfter_stuck h hlo hover (n + 1)
    have hcovered := CandidateLog.entriesAt_covered h (Nat.lt_of_le_of_lt (Nat.zero_le _) hover)
    omega
  · intro hfits
    obtain ⟨n, hend⟩ := CandidateLog.markAfter_reaches h hfits
    refine ⟨n, hend, ?_⟩
    intro c hc hlo
    exact CandidateLog.servedAfter_complete h (n + 1) hlo (hend ▸ h.covered c hc)
  · intro hprogress block hlo
    by_contra hover
    have hover := Nat.lt_of_not_le hover
    have hbefore : block - 1 < block := by omega
    have hmark := hprogress (block - 1) (by omega) (CandidateLog.truncated_of_over hbefore hover)
    have hstuck := CandidateLog.since_stuck h hbefore hover
    omega
  · intro hfits mark hlo htruncated
    have hlt : mark < log.scannedTo := by
      obtain ⟨c, hc⟩ := List.exists_mem_of_length_pos (Nat.lt_of_le_of_lt (Nat.zero_le _) htruncated)
      obtain ⟨hc, hgt⟩ := CandidateLog.mem_newer.1 hc
      exact Nat.lt_of_lt_of_le hgt (h.covered c hc)
    exact CandidateLog.since_progress h hlt (hfits _ (by omega))

namespace Sample

/-- A log of one guardian after two scans, with entries in two blocks. -/
def sparseLog : CandidateLog :=
  (CandidateLog.empty.recordScan 4 [⟨3, 7, U64.clamp 1⟩]).recordScan 9
    [⟨5, 7, U64.clamp 1⟩, ⟨5, 8, U64.clamp 2⟩]

/-- A log after one scan that found 513 transfers in its only block. -/
def crowdedLog : CandidateLog :=
  CandidateLog.empty.recordScan 1 (List.replicate 513 ⟨1, 7, U64.clamp 1⟩)

end Sample

/-- The sparse log is paged to its end. -/
theorem paging_reaches_end_sparse :
    Sample.sparseLog.Ordered ∧ Sample.sparseLog.ReachesEnd 2 := by
  have hordered : Sample.sparseLog.Ordered := by
    refine CandidateLog.Ordered.recordScan (CandidateLog.Ordered.recordScan
      CandidateLog.ordered_empty ⟨?_, ?_, ?_, ?_⟩) ⟨?_, ?_, ?_, ?_⟩ <;> decide
  refine ⟨hordered, (paging_reaches_end_iff Sample.sparseLog hordered 2).1.2 ?_⟩
  intro block _
  have hle : Sample.sparseLog.entriesAt block ≤ Sample.sparseLog.entries.length :=
    List.countP_le_length
  have hlen : Sample.sparseLog.entries.length = 3 := by decide
  rw [hlen] at hle
  exact Nat.le_trans hle (by decide)

/-- **Paging can stall.**  With 513 entries in block 1, the response to a request from block 0 is
truncated and reports 0 again, so no number of requests reaches the end. -/
theorem crowded_block_stalls :
    Sample.crowdedLog.Ordered ∧ Sample.crowdedLog.scannedTo = 1 ∧
      Sample.crowdedLog.Truncated 0 ∧
      (Sample.crowdedLog.since 0 MAX_TRANSFER_CANDIDATES_PER_RESPONSE).2 = 0 ∧
      ¬Sample.crowdedLog.ReachesEnd 0 := by
  have hordered : Sample.crowdedLog.Ordered := by
    refine CandidateLog.Ordered.recordScan CandidateLog.ordered_empty ⟨by decide, ?_, ?_, ?_⟩
    · exact List.pairwise_replicate.2 (.inr (Nat.le_refl _))
    · intro c hc
      rw [List.eq_of_mem_replicate hc]
      decide
    · intro c hc
      rw [List.eq_of_mem_replicate hc]
  have hover : MAX_TRANSFER_CANDIDATES_PER_RESPONSE < Sample.crowdedLog.entriesAt 1 := by
    decide +kernel
  have hstuck := CandidateLog.since_stuck hordered Nat.zero_lt_one hover
  refine ⟨hordered, rfl, CandidateLog.truncated_of_over Nat.zero_lt_one hover, by omega, ?_⟩
  rintro ⟨n, hend, -⟩
  have hmark := CandidateLog.markAfter_stuck hordered Nat.zero_lt_one hover (n + 1)
  rw [hend] at hmark
  exact Nat.lt_irrefl _ hmark

end Experimint.FedimintUsdt
