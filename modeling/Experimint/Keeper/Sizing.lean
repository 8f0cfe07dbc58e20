import Experimint.Keeper.Policy

/-!
# How the keeper sizes a trade

* `crossesTarget_mono` — once a swap carries the price past the oracle's, so does every larger one:
  the curve pays at least as much for a larger input (`curveOut_mono`).
* `largestNonCrossing_isGreatest` — the search finds the largest swap that does not.
* `largestNonCrossing_exact` — for every reserve and price the keeper admits, the search on 64-bit
  integers ends within 60 passes, stays in range, and finds it.
* `devBps_pos`, `devBps_neg` — the deviation has the sign of the exact comparison.
-/

set_option autoImplicit false

namespace Experimint.AmmPriceKeeper

open FedimintAmm (amountOut curveOut curveOut_mono not_isDust_of_amountOut AmountOutSpec
  amountOut_spec Tradable CurveError MAX_RESERVE quotient_fits)
open FedimintUsdt (checkedMul128 satMul128 U128_MAX)

variable {pool : PoolState} {side : Side} {oracleMicro : Nat}

/-- A swap of `dx` for `dy` leaves a price past the oracle's, compared exactly. -/
def PoolState.Passes (pool : PoolState) (side : Side) (oracleMicro dx dy : Nat) : Prop :=
  match side with
  | .sellBtc => (pool.reserveHi - dy) * DECIMAL_GAP < (pool.reserveLo + dx) * oracleMicro
  | .buyBtc => (pool.reserveLo - dy) * oracleMicro < (pool.reserveHi + dx) * DECIMAL_GAP

theorem PoolState.Passes.mono {dx dx' dy dy' : Nat} (hdx : dx ≤ dx') (hdy : dy ≤ dy')
    (h : pool.Passes side oracleMicro dx dy) : pool.Passes side oracleMicro dx' dy' := by
  cases side with
  | sellBtc =>
    calc (pool.reserveHi - dy') * DECIMAL_GAP
        ≤ (pool.reserveHi - dy) * DECIMAL_GAP := Nat.mul_le_mul_right _ (by omega)
      _ < (pool.reserveLo + dx) * oracleMicro := h
      _ ≤ (pool.reserveLo + dx') * oracleMicro := Nat.mul_le_mul_right _ (by omega)
  | buyBtc =>
    calc (pool.reserveLo - dy') * oracleMicro
        ≤ (pool.reserveLo - dy) * oracleMicro := Nat.mul_le_mul_right _ (by omega)
      _ < (pool.reserveHi + dx) * DECIMAL_GAP := h
      _ ≤ (pool.reserveHi + dx') * DECIMAL_GAP := Nat.mul_le_mul_right _ (by omega)

/-! ## The test of the search -/

/-- The curve of a side. -/
def PoolState.outFor (pool : PoolState) (side : Side) (dx : Nat) : Nat :=
  curveOut (pool.reservesFor side).1 (pool.reservesFor side).2 dx pool.feePerMille

/-- The pool can be traded against from this side. -/
def PoolState.TradableFrom (pool : PoolState) (side : Side) : Prop :=
  Tradable (pool.reservesFor side).1 (pool.reservesFor side).2 pool.feePerMille

theorem crossesTarget_of_error {dx : Nat} {e : CurveError}
    (h : amountOut (pool.reservesFor side).1 (pool.reservesFor side).2 dx pool.feePerMille =
      .error e) : pool.crossesTarget side oracleMicro dx = !e.isDust := by
  unfold PoolState.crossesTarget
  dsimp only
  rw [h]
  cases e <;> rfl

theorem checkedMul128_of_le {a b : Nat} (h : a * b ≤ U128_MAX) : checkedMul128 a b = some (a * b) :=
  if_pos h

theorem checkedMul128_of_lt {a b : Nat} (h : U128_MAX < a * b) : checkedMul128 a b = none :=
  if_neg (Nat.not_le.2 h)

-- the two products are kept abstract: the literal in the first must not be unfolded
theorem pastOracle_of_some {reserveLo reserveHi poolSide oracleSide : Nat}
    (hpool : checkedMul128 reserveHi DECIMAL_GAP = some poolSide)
    (horacle : checkedMul128 reserveLo oracleMicro = some oracleSide) :
    (pastOracle .sellBtc reserveLo reserveHi oracleMicro = true ↔ poolSide < oracleSide) ∧
      (pastOracle .buyBtc reserveLo reserveHi oracleMicro = true ↔ oracleSide < poolSide) := by
  unfold pastOracle
  rw [hpool, horacle]
  exact ⟨decide_eq_true_iff, decide_eq_true_iff⟩

/-- When selling, the oracle's side can only overflow where it is the larger one. -/
theorem pastOracle_sellBtc (reserveLo : Nat) {reserveHi : Nat}
    (hpool : reserveHi * DECIMAL_GAP ≤ U128_MAX) :
    pastOracle .sellBtc reserveLo reserveHi oracleMicro = true ↔
      reserveHi * DECIMAL_GAP < reserveLo * oracleMicro := by
  have hsome := checkedMul128_of_le hpool
  by_cases hover : reserveLo * oracleMicro ≤ U128_MAX
  · exact (pastOracle_of_some hsome (checkedMul128_of_le hover)).1
  · have hlt := Nat.not_le.1 hover
    refine iff_of_true ?_ (Nat.lt_of_le_of_lt hpool hlt)
    unfold pastOracle
    rw [hsome, checkedMul128_of_lt hlt]
    rfl

theorem pastOracle_buyBtc {reserveLo reserveHi : Nat} (hpool : reserveHi * DECIMAL_GAP ≤ U128_MAX)
    (horacle : reserveLo * oracleMicro ≤ U128_MAX) :
    pastOracle .buyBtc reserveLo reserveHi oracleMicro = true ↔
      reserveLo * oracleMicro < reserveHi * DECIMAL_GAP :=
  (pastOracle_of_some (checkedMul128_of_le hpool) (checkedMul128_of_le horacle)).2

/-- The bounded products decide the exact comparison. -/
theorem crossesTarget_of_ok {dx dy : Nat} (hfits : pool.reserveLo * oracleMicro ≤ U128_MAX)
    (h : amountOut (pool.reservesFor side).1 (pool.reservesFor side).2 dx pool.feePerMille =
      .ok dy) :
    pool.crossesTarget side oracleMicro dx = true ↔ pool.Passes side oracleMicro dx dy := by
  obtain ⟨-, -, -, hdx, hx, hy, -, -, -, hlt⟩ := amountOut_spec h
  have hmax : 2 * MAX_RESERVE ≤ U64_MAX := by decide
  have hgap : 2 * MAX_RESERVE * DECIMAL_GAP ≤ U128_MAX := by decide +kernel
  have hadd : ¬ (U64_MAX < (pool.reservesFor side).1 + dx ∨ (pool.reservesFor side).2 < dy) := by
    omega
  unfold PoolState.crossesTarget
  dsimp only
  rw [h]
  dsimp only
  rw [if_neg hadd]
  cases side with
  | sellBtc =>
    have hhi : pool.reserveHi ≤ MAX_RESERVE := hy
    have hpool : (pool.reserveHi - dy) * DECIMAL_GAP ≤ U128_MAX :=
      Nat.le_trans (Nat.mul_le_mul_right _ (by omega)) hgap
    exact pastOracle_sellBtc (pool.reserveLo + dx) hpool
  | buyBtc =>
    have hhi : pool.reserveHi ≤ MAX_RESERVE := hx
    have hpool : (pool.reserveHi + dx) * DECIMAL_GAP ≤ U128_MAX :=
      Nat.le_trans (Nat.mul_le_mul_right _ (by omega)) hgap
    have horacle : (pool.reserveLo - dy) * oracleMicro ≤ U128_MAX :=
      Nat.le_trans (Nat.mul_le_mul_right _ (Nat.sub_le _ _)) hfits
    exact pastOracle_buyBtc hpool horacle

theorem crossesTarget_eq_false_iff {dx : Nat} (hfits : pool.reserveLo * oracleMicro ≤ U128_MAX) :
    pool.crossesTarget side oracleMicro dx = false ↔
      dx = 0 ∨ (pool.TradableFrom side ∧ dx ≤ MAX_RESERVE ∧
        (0 < pool.outFor side dx → ¬ pool.Passes side oracleMicro dx (pool.outFor side dx))) := by
  by_cases hzero : dx = 0
  · have herror : amountOut (pool.reservesFor side).1 (pool.reservesFor side).2 dx
        pool.feePerMille = .error .zeroAmount := if_pos hzero
    rw [crossesTarget_of_error herror]
    exact iff_of_true rfl (.inl hzero)
  by_cases hcan : pool.TradableFrom side ∧ dx ≤ MAX_RESERVE
  · rcases hcan.1.amountOut hcan.2 with ⟨e, hdust, herror, hout⟩ | ⟨-, hpos, hok⟩
    · rw [crossesTarget_of_error herror, hdust]
      refine iff_of_true rfl (.inr ⟨hcan.1, hcan.2, fun hpos => ?_⟩)
      rcases hout with h | h
      · exact absurd h hzero
      · exact absurd h (Nat.pos_iff_ne_zero.1 hpos)
    · rw [← Bool.not_eq_true, crossesTarget_of_ok hfits hok]
      refine ⟨fun hnot => .inr ⟨hcan.1, hcan.2, fun _ => hnot⟩, ?_⟩
      rintro (h | ⟨-, -, hnot⟩)
      · exact absurd h hzero
      · exact hnot hpos
  · obtain ⟨e, hdust, herror⟩ := not_isDust_of_amountOut hzero hcan
    rw [crossesTarget_of_error herror, hdust]
    refine iff_of_false (by simp) ?_
    rintro (h | ⟨htrade, hle, -⟩)
    · exact hzero h
    · exact hcan ⟨htrade, hle⟩

/-- **A swap larger than one past the oracle's price is past it too.** -/
theorem crossesTarget_mono (hfits : pool.reserveLo * oracleMicro ≤ U128_MAX) (dx dx' : Nat)
    (hle : dx ≤ dx') (h : pool.crossesTarget side oracleMicro dx = true) :
    pool.crossesTarget side oracleMicro dx' = true := by
  by_contra hnot
  rw [Bool.not_eq_true, crossesTarget_eq_false_iff hfits] at hnot
  have hsmaller : pool.crossesTarget side oracleMicro dx = false := by
    rw [crossesTarget_eq_false_iff hfits]
    rcases hnot with hzero | ⟨htrade, hcap, hnot⟩
    · exact .inl (by omega)
    · have hmono : pool.outFor side dx ≤ pool.outFor side dx' :=
        curveOut_mono htrade.reserveIn_pos hle
      refine .inr ⟨htrade, by omega, fun hpos hpass => ?_⟩
      exact hnot (by omega) (PoolState.Passes.mono hle hmono hpass)
  rw [hsmaller] at h
  cases h

/-! ## The search -/

/-- A size has been found. -/
theorem largestNonCrossing_spec (h : pool.largestNonCrossing side oracleMicro ≠ 0) :
    (pool.reservesFor side).1 + pool.largestNonCrossing side oracleMicro ≤ MAX_RESERVE ∧
      pool.crossesTarget side oracleMicro (pool.largestNonCrossing side oracleMicro) = false := by
  have hprobed := bisect_probed (pool.crossesTarget side oracleMicro)
    (MAX_RESERVE - (pool.reservesFor side).1) 1 (MAX_RESERVE - (pool.reservesFor side).1) 0
  change pool.largestNonCrossing side oracleMicro = 0 ∨
    (1 ≤ pool.largestNonCrossing side oracleMicro ∧ _) at hprobed
  rcases hprobed with hzero | ⟨hpos, hle, hnot⟩
  · exact absurd hzero h
  · refine ⟨?_, hnot⟩
    have hle : pool.largestNonCrossing side oracleMicro ≤
        MAX_RESERVE - (pool.reservesFor side).1 := hle
    omega

/-- **The search finds the largest swap within the reserve cap that does not carry the price past
the oracle's**, if there is one. -/
theorem largestNonCrossing_isGreatest (hfits : pool.reserveLo * oracleMicro ≤ U128_MAX) {n : Nat}
    (hn : 1 ≤ n) (hle : n ≤ MAX_RESERVE - (pool.reservesFor side).1)
    (hnot : pool.crossesTarget side oracleMicro n = false) :
    IsGreatest {m | 1 ≤ m ∧ m ≤ MAX_RESERVE - (pool.reservesFor side).1 ∧
      pool.crossesTarget side oracleMicro m = false}
      (pool.largestNonCrossing side oracleMicro) :=
  bisect_largest (crossesTarget_mono hfits) hn hle hnot

/-- The search on 64-bit integers, for at most `passes` passes of its loop.  `none` if an operation
leaves the range or the loop is not done by then. -/
def PoolState.largestNonCrossingWithin (pool : PoolState) (side : Side) (oracleMicro passes : Nat) :
    Option Nat :=
  checkedBisect U64_MAX (pool.crossesTarget side oracleMicro) passes 1
    (MAX_RESERVE - (pool.reservesFor side).1) 0

theorem largestNonCrossingWithin_eq (hreserve : 1 ≤ (pool.reservesFor side).1) {passes : Nat}
    (hpasses : MAX_RESERVE ≤ 2 ^ passes) :
    pool.largestNonCrossingWithin side oracleMicro passes =
      some (pool.largestNonCrossing side oracleMicro) := by
  have hcap : MAX_RESERVE < U64_MAX := by decide
  have hpos : 0 < MAX_RESERVE := by decide
  exact checkedBisect_eq_bisect (Nat.le_refl 1) (by omega) (by omega) (by omega)

theorem reservesFor_mem (hlo : 1 ≤ pool.reserveLo ∧ pool.reserveLo ≤ MAX_RESERVE)
    (hhi : 1 ≤ pool.reserveHi ∧ pool.reserveHi ≤ MAX_RESERVE) (side : Side) :
    (1 ≤ (pool.reservesFor side).1 ∧ (pool.reservesFor side).1 ≤ MAX_RESERVE) ∧
      (pool.reservesFor side).2 ≤ MAX_RESERVE := by
  cases side with
  | sellBtc => exact ⟨hlo, hhi.2⟩
  | buyBtc => exact ⟨hhi, hlo.2⟩

theorem oracleSide_fits (hlo : pool.reserveLo ≤ MAX_RESERVE) (horacle : oracleMicro ≤ 10 ^ 18) :
    pool.reserveLo * oracleMicro ≤ U128_MAX :=
  calc pool.reserveLo * oracleMicro ≤ MAX_RESERVE * 10 ^ 18 := Nat.mul_le_mul hlo horacle
    _ ≤ U128_MAX := by decide +kernel

/-- **The search is exact.**  On the executable sizes the test is monotone; the loop ends within 60
passes with every operation in range, those of the curve included; and it returns the largest size
that does not carry the price past the oracle's, or zero if there is none. -/
theorem largestNonCrossing_exact (pool : PoolState) (side : Side) (oracleMicro : Nat)
    (hlo : 1 ≤ pool.reserveLo ∧ pool.reserveLo ≤ MAX_RESERVE)
    (hhi : 1 ≤ pool.reserveHi ∧ pool.reserveHi ≤ MAX_RESERVE)
    (horacle : 1 ≤ oracleMicro ∧ oracleMicro ≤ 10 ^ 18) :
    (∀ dx dx', 1 ≤ dx → dx ≤ dx' → dx' ≤ MAX_RESERVE - (pool.reservesFor side).1 →
      pool.crossesTarget side oracleMicro dx = true →
        pool.crossesTarget side oracleMicro dx' = true) ∧
    (∀ dx ≤ MAX_RESERVE - (pool.reservesFor side).1,
      dx * (1000 - pool.feePerMille) * (pool.reservesFor side).2 < 2 ^ 128 ∧
        (pool.reservesFor side).1 * 1000 + dx * (1000 - pool.feePerMille) < 2 ^ 128) ∧
    pool.largestNonCrossingWithin side oracleMicro 60 =
      some (pool.largestNonCrossing side oracleMicro) ∧
    (IsGreatest {n | 1 ≤ n ∧ n ≤ MAX_RESERVE - (pool.reservesFor side).1 ∧
        pool.crossesTarget side oracleMicro n = false}
        (pool.largestNonCrossing side oracleMicro) ∨
      ((∀ n, 1 ≤ n → n ≤ MAX_RESERVE - (pool.reservesFor side).1 →
        pool.crossesTarget side oracleMicro n = true) ∧
          pool.largestNonCrossing side oracleMicro = 0)) := by
  obtain ⟨⟨hpos, hin⟩, hout⟩ := reservesFor_mem hlo hhi side
  have hfits := oracleSide_fits hlo.2 horacle.2
  refine ⟨?_, ?_, ?_, ?_⟩
  · intro dx dx' _ hle _ hcross
    exact crossesTarget_mono hfits dx dx' hle hcross
  · intro dx hdx
    exact quotient_fits pool.feePerMille (by omega) hin hout
  · exact largestNonCrossingWithin_eq hpos (by decide +kernel)
  · by_cases hex : ∃ n, 1 ≤ n ∧ n ≤ MAX_RESERVE - (pool.reservesFor side).1 ∧
        pool.crossesTarget side oracleMicro n = false
    · obtain ⟨n, hn, hle, hnot⟩ := hex
      exact .inl (largestNonCrossing_isGreatest hfits hn hle hnot)
    · have hall : ∀ n, 1 ≤ n → n ≤ MAX_RESERVE - (pool.reservesFor side).1 →
          pool.crossesTarget side oracleMicro n = true := by
        intro n hn hle
        by_contra hnot
        exact hex ⟨n, hn, hle, by simpa using hnot⟩
      exact .inr ⟨hall, bisect_eq_zero hall⟩

/-- A pool of one bitcoin at 60 000 dollars, against an oracle 1 000 dollars below. -/
theorem largestNonCrossing_exact_sellBtc :
    let pool : PoolState := ⟨0, 1, 100000000000, 60000000000, 3⟩
    pool.largestNonCrossingWithin .sellBtc 59000000000 60 =
      some (pool.largestNonCrossing .sellBtc 59000000000) :=
  (largestNonCrossing_exact ⟨0, 1, 100000000000, 60000000000, 3⟩ .sellBtc 59000000000
    (by decide) (by decide) (by decide)).2.2.1

/-! ## The deviation -/

theorem satMulI128_nonneg {a b : Int} (ha : 0 ≤ a) (hb : 0 ≤ b) : 0 ≤ satMulI128 a b := by
  have := Int.mul_nonneg ha hb
  unfold satMulI128
  omega

theorem satMulI128_nonpos {a b : Int} (ha : a ≤ 0) (hb : 0 ≤ b) : satMulI128 a b ≤ 0 := by
  have := Int.mul_nonpos_of_nonpos_of_nonneg ha hb
  unfold satMulI128
  omega

theorem devBps_eq_some {reserveLo reserveHi : Nat} {d : Int}
    (h : devBps reserveLo reserveHi oracleMicro = some d) :
    reserveLo * oracleMicro ≤ U128_MAX ∧
      d = (satMulI128 ((reserveHi * DECIMAL_GAP : Nat) - (reserveLo * oracleMicro : Nat))
        BPS).tdiv (reserveLo * oracleMicro : Nat) := by
  unfold devBps checkedMul128 at h
  obtain ⟨oracleSide, horacle, h⟩ := Option.bind_eq_some_iff.1 h
  split at horacle
  · rename_i hfits
    obtain rfl := Option.some.inj horacle
    split at h
    · cases h
    obtain ⟨poolSide, hpool, h⟩ := Option.bind_eq_some_iff.1 h
    split at hpool
    · obtain rfl := Option.some.inj hpool
      split at h
      · cases h
      exact ⟨hfits, (Option.some.inj h).symm⟩
    · cases hpool
  · cases horacle

/-- A deviation above a nonnegative band is a price above the oracle's. -/
theorem devBps_pos {reserveLo reserveHi : Nat} {d : Int}
    (h : devBps reserveLo reserveHi oracleMicro = some d) (hd : 0 < d) :
    reserveLo * oracleMicro < reserveHi * DECIMAL_GAP := by
  obtain ⟨-, rfl⟩ := devBps_eq_some h
  by_contra hle
  have hsat : satMulI128 ((reserveHi * DECIMAL_GAP : Nat) - (reserveLo * oracleMicro : Nat))
      BPS ≤ 0 := satMulI128_nonpos (by omega) (by decide)
  have hdiv := Int.tdiv_nonneg (Int.neg_nonneg_of_nonpos hsat)
    (Int.natCast_nonneg (reserveLo * oracleMicro))
  rw [Int.neg_tdiv] at hdiv
  omega

theorem devBps_neg {reserveLo reserveHi : Nat} {d : Int}
    (h : devBps reserveLo reserveHi oracleMicro = some d) (hd : d < 0) :
    reserveHi * DECIMAL_GAP < reserveLo * oracleMicro := by
  obtain ⟨-, rfl⟩ := devBps_eq_some h
  by_contra hle
  have hsat : 0 ≤ satMulI128 ((reserveHi * DECIMAL_GAP : Nat) - (reserveLo * oracleMicro : Nat))
      BPS := satMulI128_nonneg (by omega) (by decide)
  have hdiv := Int.tdiv_nonneg hsat (Int.natCast_nonneg (reserveLo * oracleMicro))
  omega

end Experimint.AmmPriceKeeper
