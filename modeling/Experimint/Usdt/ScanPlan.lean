import Mathlib.Data.List.Chain
import Experimint.Usdt.Scan

/-!
# Which blocks a tick scans

At each tick a guardian decides whether to read transfer logs, and for which range.  A range starts
one past the cursor, holds at most a batch and ends on a grid boundary; without a cursor it starts a
retention window before the target.  Alignment cannot stall the scan, because the grid in use is
never coarser than a batch.

* `planScanRange_some`, `planScanRange_isSome` — one tick: what a range is, and when there is one.
* `scanStep_grows` — a scan step records such a range, or leaves the log as it is.
* `scan_coverage_gapless` — sequences of ticks.
-/

set_option autoImplicit false

namespace Experimint.FedimintUsdt

/-- Largest multiple of `grid` at or below `value`; a grid of 0 or 1 changes nothing. -/
def alignDownToGrid (value grid : Nat) : Nat := if grid ≤ 1 then value else value - value % grid

/-- Grid in use: not coarser than a batch, and not zero. -/
def scanGrid (batch grid : Nat) : Nat := max (min grid batch) 1

/-- Last block already covered.  A cold start begins one retention window back, on the grid; an
existing cursor is used as it is. -/
def scanFloor (cursor target grid : Nat) : Nat :=
  if cursor = 0 then
    let start := max (target - CANDIDATE_RETENTION_BLOCKS) 1
    alignDownToGrid (start - 1) grid
  else cursor

/-- The range to scan at this tick, if any. -/
def planScanRange (cursor target scanBatchBlocks grid sinceLastScan maxLag : Nat) :
    Option (Nat × Nat) :=
  if target = 0 then none else
  let batch := max scanBatchBlocks 1
  let grid := scanGrid batch grid
  let floor := scanFloor cursor target grid
  let pending := target - floor
  if pending = 0 then none else
  if pending < batch ∧ sinceLastScan < maxLag then none else
  let last := alignDownToGrid (min target (satAdd64 floor batch)) grid
  if last ≤ floor then none else
  some (satAdd64 floor 1, last)

/-! ## One tick -/

theorem alignDownToGrid_le (value grid : Nat) : alignDownToGrid value grid ≤ value := by
  unfold alignDownToGrid
  split
  · exact Nat.le_refl _
  · exact Nat.sub_le _ _

/-- Alignment takes off less than a grid cell. -/
theorem lt_alignDownToGrid_add {grid : Nat} (value : Nat) (hpos : 0 < grid) :
    value < alignDownToGrid value grid + grid := by
  unfold alignDownToGrid
  split
  · omega
  · have hmod := Nat.mod_lt value hpos
    have hle := Nat.mod_le value grid
    omega

section Tick

variable {cursor target scanBatchBlocks grid sinceLastScan maxLag first last : Nat}

theorem scanFloor_cold (target grid : Nat) :
    scanFloor 0 target grid + 1 ≤ max (target - CANDIDATE_RETENTION_BLOCKS) 1 := by
  have hpos : 1 ≤ max (target - CANDIDATE_RETENTION_BLOCKS) 1 := Nat.le_max_right _ _
  unfold scanFloor
  rw [if_pos rfl]
  dsimp only
  generalize max (target - CANDIDATE_RETENTION_BLOCKS) 1 = start at hpos ⊢
  have hle := alignDownToGrid_le (start - 1) grid
  omega

theorem scanFloor_cursor (h : cursor ≠ 0) (target grid : Nat) :
    scanFloor cursor target grid = cursor :=
  if_neg h

theorem le_scanFloor (cursor target grid : Nat) : cursor ≤ scanFloor cursor target grid := by
  unfold scanFloor
  split
  · omega
  · exact Nat.le_refl _

/-- Everything a planned range satisfies. -/
theorem planScanRange_some (htarget : target ≤ U64_MAX)
    (h : planScanRange cursor target scanBatchBlocks grid sinceLastScan maxLag =
      some (first, last)) :
    first = scanFloor cursor target (scanGrid (max scanBatchBlocks 1) grid) + 1 ∧ first ≤ last ∧
      last ≤ target ∧ last + 1 ≤ first + max scanBatchBlocks 1 := by
  unfold planScanRange at h
  dsimp only at h
  split at h
  · cases h
  split at h
  · cases h
  split at h
  · cases h
  split at h
  · cases h
  rename_i hlast
  obtain ⟨rfl, rfl⟩ := Prod.mk.inj (Option.some.inj h)
  generalize scanFloor cursor target (scanGrid (max scanBatchBlocks 1) grid) = floor at hlast ⊢
  have hle := alignDownToGrid_le (min target (satAdd64 floor (max scanBatchBlocks 1)))
    (scanGrid (max scanBatchBlocks 1) grid)
  unfold satAdd64 at hle hlast ⊢
  omega

/-- With a batch pending, alignment leaves at least one block to scan. -/
theorem planScanRange_isSome (htarget : target ≤ U64_MAX)
    (hpending : max scanBatchBlocks 1 ≤
      target - scanFloor cursor target (scanGrid (max scanBatchBlocks 1) grid)) :
    (planScanRange cursor target scanBatchBlocks grid sinceLastScan maxLag).isSome = true := by
  have hbatch : 1 ≤ max scanBatchBlocks 1 := Nat.le_max_right _ _
  have hgrid : scanGrid (max scanBatchBlocks 1) grid ≤ max scanBatchBlocks 1 := by
    unfold scanGrid
    omega
  have hpos : 0 < scanGrid (max scanBatchBlocks 1) grid := by
    unfold scanGrid
    omega
  unfold planScanRange
  dsimp only
  generalize max scanBatchBlocks 1 = batch at hpending hbatch hgrid hpos ⊢
  generalize scanFloor cursor target (scanGrid batch grid) = floor at hpending ⊢
  -- the batch fits below the target, so nothing saturates
  have hmin : min target (satAdd64 floor batch) = floor + batch := by
    unfold satAdd64
    omega
  have halign := lt_alignDownToGrid_add (floor + batch) hpos
  rw [if_neg (by omega), if_neg (by omega), if_neg (by omega), hmin, if_neg (by omega)]
  rfl

end Tick

/-! ## The scan step -/

structure TransferLog where
  blockNumber : Nat
  recipient : EvmAddress
  value : Nat
deriving DecidableEq

/-- Transfers of a positive amount to an account that may be a deposit account. -/
def filterScanCandidates (isPotentialDeposit : EvmAddress → Bool) (logs : List TransferLog) :
    List TransferCandidate :=
  (logs.filter fun l => decide (0 < l.value) && isPotentialDeposit l.recipient).map fun l =>
    ⟨l.blockNumber, l.recipient, U64.clamp l.value⟩

inductive ScanOutcome where
  | scanned (backlog : Bool)
  | idle
deriving DecidableEq

/-- When a tick happens: the height to scan to, and the time since the last scan. -/
structure Tick where
  target : U64
  sinceLastScan : Nat
  maxLag : Nat

/-- One tick of the scanner; `getTransferLogs` answers `none` where the node's read fails. -/
def scanStep (isPotentialDeposit : EvmAddress → Bool) (scanGridBlocks scanBatchBlocks : Nat)
    (getTransferLogs : Nat → Nat → Option (List TransferLog)) (log : CandidateLog) (tick : Tick) :
    ScanOutcome × CandidateLog :=
  match planScanRange log.scannedTo tick.target.raw scanBatchBlocks scanGridBlocks
      tick.sinceLastScan tick.maxLag with
  | none => (.idle, log)
  | some (first, last) =>
    match getTransferLogs first last with
    | none => (.idle, log)
    | some logs =>
      (.scanned (decide (max scanBatchBlocks 1 ≤ tick.target.raw - last)),
        log.recordScan last (filterScanCandidates isPotentialDeposit logs))

/-- The node answers with logs of the range, in block order. -/
def FaithfulNode (getTransferLogs : Nat → Nat → Option (List TransferLog)) : Prop :=
  ∀ first last logs, getTransferLogs first last = some logs →
    (logs.Pairwise fun l l' => l.blockNumber ≤ l'.blockNumber) ∧
      ∀ l ∈ logs, first ≤ l.blockNumber ∧ l.blockNumber ≤ last

section Step

variable {isPotentialDeposit : EvmAddress → Bool} {scanGridBlocks scanBatchBlocks : Nat}
  {getTransferLogs : Nat → Nat → Option (List TransferLog)} {log log' : CandidateLog} {tick : Tick}
  {outcome : ScanOutcome}

/-- A step moves the cursor to the end of the planned range, or changes nothing. -/
theorem scanStep_cursor
    (h : scanStep isPotentialDeposit scanGridBlocks scanBatchBlocks getTransferLogs log tick =
      (outcome, log')) :
    (outcome = .idle ∧ log' = log) ∨ ∃ first last logs,
      planScanRange log.scannedTo tick.target.raw scanBatchBlocks scanGridBlocks
        tick.sinceLastScan tick.maxLag = some (first, last) ∧
      getTransferLogs first last = some logs ∧ log'.scannedTo = last ∧
      log' = log.recordScan last (filterScanCandidates isPotentialDeposit logs) := by
  unfold scanStep at h
  split at h
  · cases h
    exact .inl ⟨rfl, rfl⟩
  rename_i first last hplan
  split at h
  · cases h
    exact .inl ⟨rfl, rfl⟩
  rename_i logs hlogs
  cases h
  refine .inr ⟨first, last, logs, hplan, hlogs, ?_, rfl⟩
  obtain ⟨hfirst, hle, -, -⟩ := planScanRange_some tick.target.le_max hplan
  have hfloor := le_scanFloor log.scannedTo tick.target.raw
    (scanGrid (max scanBatchBlocks 1) scanGridBlocks)
  change max log.scannedTo last = last
  omega

/-- With a faithful node, what a step records is a batch the log may be extended by. -/
theorem scanStep_grows (hnode : FaithfulNode getTransferLogs) :
    log.Grows
      (scanStep isPotentialDeposit scanGridBlocks scanBatchBlocks getTransferLogs log tick).2 := by
  rcases scanStep_cursor (Prod.eta _).symm with ⟨-, hsame⟩ | ⟨first, last, logs, hplan, hlogs, -, hrec⟩
  · rw [hsame]
  rw [hrec]
  obtain ⟨hfirst, hle, -, -⟩ := planScanRange_some tick.target.le_max hplan
  obtain ⟨hsorted, hrange⟩ := hnode first last logs hlogs
  have hfloor := le_scanFloor log.scannedTo tick.target.raw
    (scanGrid (max scanBatchBlocks 1) scanGridBlocks)
  have hfound : ∀ c ∈ filterScanCandidates isPotentialDeposit logs,
      first ≤ c.blockNumber ∧ c.blockNumber ≤ last := by
    intro c hc
    obtain ⟨l, hl, rfl⟩ := List.mem_map.1 hc
    exact hrange l (List.mem_filter.1 hl).1
  refine .single ⟨last, _, ⟨by omega, ?_, ?_, ?_⟩, rfl⟩
  · exact List.pairwise_map.2 (hsorted.filter _)
  · intro c hc
    have := hfound c hc
    omega
  · exact fun c hc => (hfound c hc).2

end Step

/-! ## Sequences of ticks -/

/-- A scanned range and the tick that planned it. -/
structure ScanRange where
  tick : Tick
  first : Nat
  last : Nat

/-- Ranges of a sequence of ticks, the cursor at the end of each. -/
def scanRanges (scanBatchBlocks grid : Nat) : (cursor : Nat) → List Tick → List ScanRange
  | _, [] => []
  | cursor, tick :: rest =>
    match planScanRange cursor tick.target.raw scanBatchBlocks grid tick.sinceLastScan
        tick.maxLag with
    | none => scanRanges scanBatchBlocks grid cursor rest
    | some (first, last) => ⟨tick, first, last⟩ :: scanRanges scanBatchBlocks grid last rest

/-- End of the last range, the cursor without one. -/
def scanEnd (cursor : Nat) (rs : List ScanRange) : Nat := (rs.getLast?.map (·.last)).getD cursor

theorem scanEnd_cons (cursor : Nat) (r : ScanRange) (rs : List ScanRange) :
    scanEnd cursor (r :: rs) = scanEnd r.last rs := by
  unfold scanEnd
  rw [List.getLast?_cons]
  cases rs.getLast? <;> rfl

/-- **A run of scan steps plans as its successful ticks do**: a tick whose read fails leaves the
cursor where it was, and the others move it along `scanRanges`. -/
theorem scanSteps_cursor (isPotentialDeposit : EvmAddress → Bool) (scanGridBlocks scanBatchBlocks : Nat)
    (steps : List (Tick × (Nat → Nat → Option (List TransferLog)))) (log : CandidateLog) :
    ∃ ticks, ticks.Sublist (steps.map Prod.fst) ∧
      (steps.foldl (fun log step =>
        (scanStep isPotentialDeposit scanGridBlocks scanBatchBlocks step.2 log step.1).2)
          log).scannedTo =
        scanEnd log.scannedTo (scanRanges scanBatchBlocks scanGridBlocks log.scannedTo ticks) := by
  induction steps generalizing log with
  | nil => exact ⟨[], .slnil, rfl⟩
  | cons step rest ih =>
    obtain ⟨ticks, hsub, hend⟩ := ih
      (scanStep isPotentialDeposit scanGridBlocks scanBatchBlocks step.2 log step.1).2
    rw [List.foldl_cons, List.map_cons, hend]
    rcases scanStep_cursor (Prod.eta _).symm with ⟨-, hsame⟩ | ⟨first, last, -, hplan, -, hcursor, -⟩
    · rw [hsame]
      exact ⟨ticks, hsub.cons _, rfl⟩
    · refine ⟨step.1 :: ticks, hsub.cons_cons _, ?_⟩
      have hranges : scanRanges scanBatchBlocks scanGridBlocks log.scannedTo (step.1 :: ticks) =
          ⟨step.1, first, last⟩ :: scanRanges scanBatchBlocks scanGridBlocks last ticks := by
        rw [scanRanges, hplan]
      rw [hranges, scanEnd_cons, hcursor]

/-- One range begins right after the other. -/
def ScanRange.Adjacent (r r' : ScanRange) : Prop := r'.first = r.last + 1

/-- Adjacent ranges cover everything between the first start and the last end. -/
theorem covered_of_adjacent {rs : List ScanRange} (hchain : rs.IsChain ScanRange.Adjacent)
    {b : Nat} (hfirst : ∃ r ∈ rs.head?, r.first ≤ b) (hlast : ∃ r ∈ rs.getLast?, b ≤ r.last) :
    ∃ r ∈ rs, r.first ≤ b ∧ b ≤ r.last := by
  induction rs with
  | nil =>
    obtain ⟨r, hr, -⟩ := hfirst
    cases hr
  | cons r rest ih =>
    obtain ⟨r₀, hr₀, hle⟩ := hfirst
    obtain rfl := Option.some.inj hr₀
    rcases Nat.lt_or_ge r.last b with hgt | hge
    · -- beyond the first range, so in the others
      cases rest with
      | nil =>
        rw [List.getLast?_singleton] at hlast
        obtain ⟨r₁, hr₁, hge⟩ := hlast
        obtain rfl := Option.some.inj hr₁
        omega
      | cons r' rest =>
        obtain ⟨hadjacent, htail⟩ := List.isChain_cons_cons.1 hchain
        have hstart : r'.first ≤ b := by
          unfold ScanRange.Adjacent at hadjacent
          omega
        rw [List.getLast?_cons_cons] at hlast
        obtain ⟨s, hs, hcovers⟩ := ih htail ⟨r', rfl, hstart⟩ hlast
        exact ⟨s, List.mem_cons_of_mem _ hs, hcovers⟩
    · exact ⟨r, List.mem_cons_self, hle, hge⟩

/-- What the ranges of any sequence of ticks satisfy. -/
structure Gapless (scanBatchBlocks cursor : Nat) (rs : List ScanRange) : Prop where
  range : ∀ r ∈ rs, r.first ≤ r.last ∧ r.last + 1 ≤ r.first + max scanBatchBlocks 1 ∧
    r.last ≤ r.tick.target.raw
  adjacent : rs.IsChain ScanRange.Adjacent
  next : cursor ≠ 0 → ∀ r ∈ rs.head?, r.first = cursor + 1
  cold : cursor = 0 → ∀ r ∈ rs.head?,
    r.first ≤ max (r.tick.target.raw - CANDIDATE_RETENTION_BLOCKS) 1

theorem scanRanges_gapless (scanBatchBlocks grid cursor : Nat) (ticks : List Tick) :
    Gapless scanBatchBlocks cursor (scanRanges scanBatchBlocks grid cursor ticks) := by
  induction ticks generalizing cursor with
  | nil =>
    refine ⟨?_, .nil, ?_, ?_⟩
    · intro r hr
      cases hr
    · intro _ r hr
      cases hr
    · intro _ r hr
      cases hr
  | cons tick rest ih =>
    unfold scanRanges
    split
    · exact ih cursor
    rename_i first last hplan
    obtain ⟨hfirst, hle, htarget, hbatch⟩ := planScanRange_some tick.target.le_max hplan
    -- the range is not empty, so the next cursor is one
    have hlast : last ≠ 0 := by omega
    have htail := ih last
    refine ⟨?_, ?_, ?_, ?_⟩
    · intro r hr
      rcases List.mem_cons.1 hr with rfl | hr
      · exact ⟨hle, hbatch, htarget⟩
      · exact htail.range r hr
    · exact htail.adjacent.cons (htail.next hlast)
    · intro hcursor r hr
      obtain rfl := Option.some.inj hr
      exact hfirst.trans (congrArg (· + 1) (scanFloor_cursor hcursor _ _))
    · rintro rfl r hr
      obtain rfl := Option.some.inj hr
      exact hfirst ▸ scanFloor_cold _ _

/-- **Scan coverage is gapless.**  For every batch size and grid, whatever the targets and times of
the ticks: ranges are not empty, hold at most a batch, end at or below their target and follow one
another without a gap, from one past the cursor or, cold, from at most a retention window back, and
cover everything in between.  A tick with a batch pending always scans. -/
theorem scan_coverage_gapless (scanBatchBlocks grid cursor : Nat) :
    (∀ ticks : List Tick,
      (∀ r ∈ scanRanges scanBatchBlocks grid cursor ticks, r.first ≤ r.last ∧
        r.last + 1 ≤ r.first + max scanBatchBlocks 1 ∧ r.last ≤ r.tick.target.raw) ∧
      (scanRanges scanBatchBlocks grid cursor ticks).IsChain (fun r r' => r'.first = r.last + 1) ∧
      ∀ r ∈ (scanRanges scanBatchBlocks grid cursor ticks).head?,
        (cursor ≠ 0 → r.first = cursor + 1) ∧
        (cursor = 0 → r.first ≤ max (r.tick.target.raw - CANDIDATE_RETENTION_BLOCKS) 1) ∧
        ∀ s ∈ (scanRanges scanBatchBlocks grid cursor ticks).getLast?, ∀ b, r.first ≤ b →
          b ≤ s.last → ∃ t ∈ scanRanges scanBatchBlocks grid cursor ticks, t.first ≤ b ∧ b ≤ t.last) ∧
    ∀ tick : Tick, max scanBatchBlocks 1 ≤
        tick.target.raw - scanFloor cursor tick.target.raw (scanGrid (max scanBatchBlocks 1) grid) →
      (planScanRange cursor tick.target.raw scanBatchBlocks grid tick.sinceLastScan
        tick.maxLag).isSome = true := by
  refine ⟨?_, fun tick hpending => planScanRange_isSome tick.target.le_max hpending⟩
  intro ticks
  have hgapless := scanRanges_gapless scanBatchBlocks grid cursor ticks
  refine ⟨hgapless.range, hgapless.adjacent, ?_⟩
  intro r hr
  refine ⟨fun hcursor => hgapless.next hcursor r hr, fun hcold => hgapless.cold hcold r hr, ?_⟩
  intro s hs b hlo hhi
  exact covered_of_adjacent hgapless.adjacent ⟨r, hr, hlo⟩ ⟨s, hs, hhi⟩

/-- A cold start at block 60000, a late tick with little to scan, and one much later. -/
def sampleTicks : List Tick :=
  [⟨U64.clamp 60000, 0, 5⟩, ⟨U64.clamp 60007, 9, 5⟩, ⟨U64.clamp 60007, 0, 5⟩]

theorem scan_coverage_gapless_sample :
    ((scanRanges 1000 100 0 sampleTicks).map fun r => (r.first, r.last)) =
      [(9501, 10500), (10501, 11500), (11501, 12500)] ∧
    (∀ b, 9501 ≤ b → b ≤ 12500 →
      ∃ t ∈ scanRanges 1000 100 0 sampleTicks, t.first ≤ b ∧ b ≤ t.last) ∧
    (planScanRange 12500 60007 1000 100 0 5).isSome = true := by
  obtain ⟨hticks, -⟩ := scan_coverage_gapless 1000 100 0
  obtain ⟨-, hpending⟩ := scan_coverage_gapless 1000 100 12500
  have hranges : ((scanRanges 1000 100 0 sampleTicks).map fun r => (r.first, r.last)) =
      [(9501, 10500), (10501, 11500), (11501, 12500)] := by decide +kernel
  refine ⟨hranges, ?_, hpending ⟨U64.clamp 60007, 0, 5⟩ (by decide +kernel)⟩
  obtain ⟨r, hr, hfirst⟩ : ∃ r, (scanRanges 1000 100 0 sampleTicks).head? = some r ∧
      (r.first, r.last) = (9501, 10500) := by
    have hhead := congrArg List.head? hranges
    rw [List.head?_map] at hhead
    exact Option.map_eq_some_iff.1 hhead
  obtain ⟨s, hs, hlast⟩ : ∃ s, (scanRanges 1000 100 0 sampleTicks).getLast? = some s ∧
      (s.first, s.last) = (11501, 12500) := by
    have hend := congrArg List.getLast? hranges
    rw [List.getLast?_map] at hend
    exact Option.map_eq_some_iff.1 hend
  intro b hlo hhi
  refine ((hticks sampleTicks).2.2 r hr).2.2 s hs b ?_ ?_
  · rw [(Prod.mk.inj hfirst).1]
    exact hlo
  · rw [(Prod.mk.inj hlast).2]
    exact hhi

end Experimint.FedimintUsdt
