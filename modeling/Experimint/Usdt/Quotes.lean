import Mathlib.Order.Bounds.Basic
import Experimint.Usdt.Medians

/-!
# Fee quotes

A quote is a chain of checked 128-bit products, a division rounded up, and a floor.  The range check
on single votes bounds the median, although its fields may come from different guardians, and that
bound keeps every product of the chain far below the width.

* `gasCostFeeQuote_eq_some_iff` — the whole chain as bounds and one value.
* `gasCostFeeQuote_isLeast`, `gasCostFeeQuote_mono` — rounding and monotonicity, gas and floor as
  parameters.
* `fee_quotes_sound` — no overflow, no undercharging, monotone.
-/

set_option autoImplicit false

namespace Experimint.FedimintUsdt

section Chain

variable {gasUnits floorRaw : Nat} {m m' : FeeVote} {q q' : UsdtAmount}

/-- Price of `gasUnits` in units of `10 ^ -20` of the token's smallest amount, buffer included. -/
def quoteNumerator (gasUnits : Nat) (m : FeeVote) : Nat :=
  gasUnits * m.maxFeePerGasWei * m.usdtPerEthE6 * 120

/-- Every intermediate value of a quote fits in 128 bits. -/
structure QuoteFits (gasUnits : Nat) (m : FeeVote) : Prop where
  cost : gasUnits * m.maxFeePerGasWei ≤ U128_MAX
  priced : gasUnits * m.maxFeePerGasWei * m.usdtPerEthE6 ≤ U128_MAX
  rounded : quoteNumerator gasUnits m + (10 ^ 20 - 1) ≤ U128_MAX

theorem quoteNumerator_mono (gasUnits : Nat) (hfee : m.maxFeePerGasWei ≤ m'.maxFeePerGasWei)
    (hrate : m.usdtPerEthE6 ≤ m'.usdtPerEthE6) :
    quoteNumerator gasUnits m ≤ quoteNumerator gasUnits m' :=
  Nat.mul_le_mul_right _ (Nat.mul_le_mul (Nat.mul_le_mul_left _ hfee) hrate)

theorem QuoteFits.mono (h : QuoteFits gasUnits m')
    (hfee : m.maxFeePerGasWei ≤ m'.maxFeePerGasWei) (hrate : m.usdtPerEthE6 ≤ m'.usdtPerEthE6) :
    QuoteFits gasUnits m where
  cost := (Nat.mul_le_mul_left _ hfee).trans h.cost
  priced := (Nat.mul_le_mul (Nat.mul_le_mul_left _ hfee) hrate).trans h.priced
  rounded := (Nat.add_le_add_right (quoteNumerator_mono gasUnits hfee hrate) _).trans h.rounded

theorem gasCostFeeQuote_eq_some_iff :
    gasCostFeeQuote gasUnits m floorRaw = some q ↔ QuoteFits gasUnits m ∧
      U64.tryFrom (max ((quoteNumerator gasUnits m + (10 ^ 20 - 1)) / 10 ^ 20) floorRaw) = some q := by
  have hdenominator : WEI_PER_ETH * 100 ≤ U128_MAX := by
    unfold WEI_PER_ETH U128_MAX
    omega
  simp only [gasCostFeeQuote, checkedMul128, checkedAdd128, Option.bind_eq_bind,
    Option.bind_eq_some_iff, Option.ite_none_right_eq_some, Option.some.injEq]
  constructor
  · rintro ⟨_, ⟨hcost, rfl⟩, _, ⟨hpriced, rfl⟩, _, ⟨-, rfl⟩, _, ⟨-, rfl⟩, _, ⟨hrounded, rfl⟩, hq⟩
    exact ⟨⟨hcost, hpriced, hrounded⟩, hq⟩
  · rintro ⟨⟨hcost, hpriced, hrounded⟩, hq⟩
    exact ⟨_, ⟨hcost, rfl⟩, _, ⟨hpriced, rfl⟩, _, ⟨(Nat.le_add_right _ _).trans hrounded, rfl⟩, _,
      ⟨hdenominator, rfl⟩, _, ⟨hrounded, rfl⟩, hq⟩

/-- A quote is the least amount at or above its floor that covers the price. -/
theorem gasCostFeeQuote_isLeast (h : gasCostFeeQuote gasUnits m floorRaw = some q) :
    IsLeast {n | floorRaw ≤ n ∧ quoteNumerator gasUnits m ≤ n * 10 ^ 20} q.raw := by
  have hraw := U64.tryFrom_eq_some (gasCostFeeQuote_eq_some_iff.1 h).2
  rw [hraw]
  generalize quoteNumerator gasUnits m = numerator
  refine ⟨⟨Nat.le_max_right _ _, ?_⟩, ?_⟩
  · omega
  · rintro n ⟨hfloor, hcovers⟩
    omega

theorem gasCostFeeQuote_mono (h : gasCostFeeQuote gasUnits m' floorRaw = some q')
    (hfee : m.maxFeePerGasWei ≤ m'.maxFeePerGasWei) (hrate : m.usdtPerEthE6 ≤ m'.usdtPerEthE6) :
    ∃ q, gasCostFeeQuote gasUnits m floorRaw = some q ∧ q.raw ≤ q'.raw := by
  obtain ⟨hfits, hq'⟩ := gasCostFeeQuote_eq_some_iff.1 h
  have hraw := U64.tryFrom_eq_some hq'
  have hle : max ((quoteNumerator gasUnits m + (10 ^ 20 - 1)) / 10 ^ 20) floorRaw ≤ q'.raw := by
    have hnumerator := quoteNumerator_mono gasUnits hfee hrate
    rw [hraw]
    omega
  exact ⟨⟨_, hle.trans q'.le_max⟩, gasCostFeeQuote_eq_some_iff.2
    ⟨hfits.mono hfee hrate, U64.tryFrom_raw ⟨_, hle.trans q'.le_max⟩⟩, hle⟩

end Chain

/-! ## Reachable medians -/

theorem sortedAt_le {l : List Nat} {b : Nat} (i : Nat) (h : ∀ x ∈ l, x ≤ b) : sortedAt i l ≤ b := by
  unfold sortedAt
  cases hget : (l.insertionSort (· ≤ ·))[i]? with
  | none => exact Nat.zero_le _
  | some x =>
    have hmem := (List.perm_insertionSort (· ≤ ·) l).mem_iff.1 (List.mem_of_getElem? hget)
    exact h x hmem

/-- Dearest median the range check admits. -/
def saneCeiling : FeeVote := ⟨MAX_SANE_MAX_FEE_PER_GAS_WEI, MAX_SANE_USDT_PER_ETH_E6⟩

variable {u : Usdt} {db : Db} {median : FeeVote}

theorem feeVoteMedian_le (hsane : SaneVotes db) (h : u.feeVoteMedian db = some median) :
    median.maxFeePerGasWei ≤ saneCeiling.maxFeePerGasWei ∧
      median.usdtPerEthE6 ≤ saneCeiling.usdtPerEthE6 := by
  unfold Usdt.feeVoteMedian at h
  dsimp only at h
  split at h
  · cases h
  have hvotes : ∀ vote ∈ (db.feeVote.values.filter fun stored =>
      decide (u.consensusBlockCount db - stored.recordedBlock ≤ FEE_VOTE_TTL_BLOCKS)).map (·.vote),
      feeVoteInSaneRange vote = true := by
    intro vote hvote
    obtain ⟨stored, hstored, rfl⟩ := List.mem_map.1 hvote
    obtain ⟨p, hp⟩ := Table.mem_values.1 (List.mem_filter.1 hstored).1
    exact hsane p stored hp
  obtain rfl := Option.some.inj h
  refine ⟨sortedAt_le _ ?_, sortedAt_le _ ?_⟩
  · intro x hx
    obtain ⟨vote, hvote, rfl⟩ := List.mem_map.1 hx
    exact (feeVoteInSaneRange_iff.1 (hvotes vote hvote)).1.2
  · intro x hx
    obtain ⟨vote, hvote, rfl⟩ := List.mem_map.1 hx
    exact (feeVoteInSaneRange_iff.1 (hvotes vote hvote)).2.2

theorem quotes_at_saneCeiling :
    (withdrawalFeeQuote saneCeiling).isSome = true ∧ (depositFeeQuote saneCeiling).isSome = true := by
  decide +kernel

/-- Any median below the ceiling is quoted, since quotes are monotone. -/
theorem quotes_of_le (hle : median.maxFeePerGasWei ≤ saneCeiling.maxFeePerGasWei ∧
    median.usdtPerEthE6 ≤ saneCeiling.usdtPerEthE6) :
    ∃ w d, withdrawalFeeQuote median = some w ∧ depositFeeQuote median = some d := by
  obtain ⟨hfee, hrate⟩ := hle
  obtain ⟨w', hw'⟩ := Option.isSome_iff_exists.1 quotes_at_saneCeiling.1
  obtain ⟨d', hd'⟩ := Option.isSome_iff_exists.1 quotes_at_saneCeiling.2
  obtain ⟨w, hw, -⟩ := gasCostFeeQuote_mono hw' hfee hrate
  obtain ⟨d, hd, -⟩ := gasCostFeeQuote_mono hd' hfee hrate
  exact ⟨w, d, hw, hd⟩

/-- Quotes for every median the votes can have. -/
def Quoted (u : Usdt) (db : Db) : Prop :=
  ∀ median, u.feeVoteMedian db = some median →
    ∃ w d, withdrawalFeeQuote median = some w ∧ depositFeeQuote median = some d

theorem run_quoted {tr : List (Item × Answer)} (run : Run (Accepts u) Db.empty tr db) :
    Quoted u db :=
  fun _ hmedian => quotes_of_le (feeVoteMedian_le (run_saneVotes run) hmedian)

theorem processDepositProof_quoted {claimPk : PublicKey} {proof : DepositProof} {fee : UsdtAmount}
    (hquoted : Quoted u db) :
    u.processDepositProof db claimPk proof fee ≠ .error .feeQuoteOverflow := by
  intro h
  unfold Usdt.processDepositProof at h
  dsimp only at h
  split at h
  · cases h
  split at h
  · cases h
  split at h
  · cases h
  split at h
  · cases h
  rename_i median hmedian
  obtain ⟨-, d, -, hd⟩ := hquoted median hmedian
  rw [hd] at h
  dsimp only at h
  split at h
  · cases h
  split at h
  · cases h
  · cases h

theorem processInput_quoted (input : UsdtInput) (hquoted : Quoted u db) :
    u.processInput db input ≠ .error .feeQuoteOverflow := by
  cases input with
  | refundV0 outPoint =>
    intro h
    unfold Usdt.processInput Usdt.claimRefund at h
    dsimp only at h
    split at h
    · cases h
    · cases h
  | depositProofV0 claimPk proof fee => exact processDepositProof_quoted hquoted
  | default v b =>
    intro h
    cases h

theorem processOutput_quoted (output : UsdtOutput) (outPoint : OutPoint) (hquoted : Quoted u db) :
    u.processOutput db output outPoint ≠ .error .feeQuoteOverflow := by
  intro h
  unfold Usdt.processOutput at h
  split at h
  · cases h
  split at h
  · cases h
  rename_i median hmedian
  obtain ⟨w, -, hw, -⟩ := hquoted median hmedian
  rw [hw] at h
  dsimp only at h
  split at h
  · cases h
  · cases h

/-- **Fee quotes never overflow and never undercharge.**  In every reachable state a median of the
fee votes is quoted, so no input or output is turned away for want of width; each quote is the least
amount at or above its floor that covers the buffered gas price; and a quote falls with its median.
-/
theorem fee_quotes_sound (u : Usdt) :
    (∀ (tr : List (Item × Answer)) (db : Db), Run (Accepts u) Db.empty tr db →
      (∀ median, u.feeVoteMedian db = some median → ∃ w d, withdrawalFeeQuote median = some w ∧
        depositFeeQuote median = some d ∧
        IsLeast {n | MIN_WITHDRAWAL_FEE ≤ n ∧ WITHDRAWAL_GAS_UNITS * median.maxFeePerGasWei *
          median.usdtPerEthE6 * 120 ≤ n * 10 ^ 20} w.raw ∧
        IsLeast {n | MIN_DEPOSIT_FEE ≤ n ∧ SWEEP_GAS_UNITS * median.maxFeePerGasWei *
          median.usdtPerEthE6 * 120 ≤ n * 10 ^ 20} d.raw) ∧
      (∀ input, u.processInput db input ≠ .error .feeQuoteOverflow) ∧
      ∀ output outPoint, u.processOutput db output outPoint ≠ .error .feeQuoteOverflow) ∧
    ∀ m m' : FeeVote, m.maxFeePerGasWei ≤ m'.maxFeePerGasWei → m.usdtPerEthE6 ≤ m'.usdtPerEthE6 →
      (∀ q', withdrawalFeeQuote m' = some q' →
        ∃ q, withdrawalFeeQuote m = some q ∧ q.raw ≤ q'.raw) ∧
      ∀ q', depositFeeQuote m' = some q' → ∃ q, depositFeeQuote m = some q ∧ q.raw ≤ q'.raw := by
  refine ⟨?_, ?_⟩
  · intro tr db run
    have hquoted := run_quoted run
    refine ⟨?_, fun input => processInput_quoted input hquoted,
      fun output outPoint => processOutput_quoted output outPoint hquoted⟩
    intro median hmedian
    obtain ⟨w, d, hw, hd⟩ := hquoted median hmedian
    exact ⟨w, d, hw, hd, gasCostFeeQuote_isLeast hw, gasCostFeeQuote_isLeast hd⟩
  · intro m m' hfee hrate
    exact ⟨fun q' h => gasCostFeeQuote_mono h hfee hrate,
      fun q' h => gasCostFeeQuote_mono h hfee hrate⟩

/-- A run with a median, the quotes there, and the quotes at a lower one. -/
theorem fee_quotes_sound_sample :
    ∃ tr db median w d, Run (Accepts sampleUsdt) Db.empty tr db ∧
      sampleUsdt.feeVoteMedian db = some median ∧ withdrawalFeeQuote median = some w ∧
      depositFeeQuote median = some d ∧
      IsLeast {n | MIN_WITHDRAWAL_FEE ≤ n ∧ WITHDRAWAL_GAS_UNITS * median.maxFeePerGasWei *
        median.usdtPerEthE6 * 120 ≤ n * 10 ^ 20} w.raw ∧
      ∃ w', withdrawalFeeQuote ⟨20000000000, 2900000000⟩ = some w' ∧ w'.raw ≤ w.raw := by
  obtain ⟨hruns, hmono⟩ := fee_quotes_sound sampleUsdt
  obtain ⟨tr, db, run, hP⟩ := Run.exists_of_exec sampleUsdt.step Db.empty
    [Sample.vote (.feeVote ⟨30000000000, 3000000000⟩)]
    (fun _ db => decide (sampleUsdt.feeVoteMedian db = some ⟨30000000000, 3000000000⟩))
    (by decide +kernel)
  have hmedian := of_decide_eq_true hP
  obtain ⟨w, d, hw, hd, hleast, -⟩ := (hruns tr db run).1 _ hmedian
  exact ⟨tr, db, _, w, d, run, hmedian, hw, hd, hleast,
    (hmono ⟨20000000000, 2900000000⟩ _ (by decide) (by decide)).1 w hw⟩

end Experimint.FedimintUsdt
