import Experimint.Keeper.Sizing

/-!
# The keeper's deadband

The deviation is a product of 128-bit quantities divided by the oracle's side.  A price above the
oracle's never comes near the bound.  A price below it can: at the largest reserves and prices the
oracle accepts, ten thousand times the shortfall saturates, and the quotient is then closer to zero
than the deviation is.

* `DeviationFits` — the saturation does not reach the quotient.
* `deadband_exact_iff` — the deviation and the band test are exact under that condition and only
  then.
* `saturated_deviation_in_band` — a pool at a ten-thousandth of the oracle's price, held as in band.
-/

set_option autoImplicit false

namespace Experimint.AmmPriceKeeper

open FedimintAmm (MAX_RESERVE)
open FedimintUsdt (U128_MAX)

variable {reserveLo reserveHi oracleMicro : Nat}

/-- The largest price the oracle accepts. -/
def MAX_MICRO_USD_PER_BTC : Nat := 1000000000000000000

/-- The deviation in basis points, truncated towards zero, over the integers. -/
def exactDeviation (reserveLo reserveHi oracleMicro : Nat) : Int :=
  (BPS * ((reserveHi * DECIMAL_GAP : Nat) - (reserveLo * oracleMicro : Nat)) : Int).tdiv
    (reserveLo * oracleMicro : Nat)

/-- Ten thousand times the shortfall of the pool's side is below the first multiple of the oracle's
side that a signed 128-bit integer cannot reach. -/
def DeviationFits (reserveLo reserveHi oracleMicro : Nat) : Prop :=
  BPS * (reserveLo * oracleMicro - reserveHi * DECIMAL_GAP) <
    reserveLo * oracleMicro * ((I128_MAX + 1) / (reserveLo * oracleMicro) + 1)

/-- Reserves and a price in the range that the pool and the oracle accept. -/
structure Accepted (reserveLo reserveHi oracleMicro : Nat) : Prop where
  lo_pos : 1 ≤ reserveLo
  lo_le : reserveLo ≤ MAX_RESERVE
  hi_pos : 1 ≤ reserveHi
  hi_le : reserveHi ≤ MAX_RESERVE
  price_pos : 1 ≤ oracleMicro
  price_le : oracleMicro ≤ MAX_MICRO_USD_PER_BTC

namespace Accepted

theorem oracleSide_pos (h : Accepted reserveLo reserveHi oracleMicro) :
    0 < reserveLo * oracleMicro := Nat.mul_pos h.lo_pos h.price_pos

theorem oracleSide_le (h : Accepted reserveLo reserveHi oracleMicro) :
    reserveLo * oracleMicro ≤ I128_MAX :=
  Nat.le_trans (Nat.mul_le_mul h.lo_le h.price_le) (by decide)

/-- Even ten thousand times the pool's side fits. -/
theorem poolSide_le (h : Accepted reserveLo reserveHi oracleMicro) :
    BPS * (reserveHi * DECIMAL_GAP) ≤ I128_MAX :=
  Nat.le_trans (Nat.mul_le_mul_left _ (Nat.mul_le_mul_right _ h.hi_le)) (by decide +kernel)

/-- What the code computes on this range. -/
theorem devBps_eq (h : Accepted reserveLo reserveHi oracleMicro) :
    devBps reserveLo reserveHi oracleMicro =
      some ((satMulI128 ((reserveHi * DECIMAL_GAP : Nat) - (reserveLo * oracleMicro : Nat))
        BPS).tdiv (reserveLo * oracleMicro : Nat)) := by
  have hpos := h.oracleSide_pos
  have hlo := h.oracleSide_le
  have hhi := h.poolSide_le
  have hmax : I128_MAX ≤ U128_MAX := by decide
  have hbps : reserveHi * DECIMAL_GAP ≤ BPS * (reserveHi * DECIMAL_GAP) :=
    Nat.le_mul_of_pos_left _ (by decide)
  unfold devBps
  rw [checkedMul128_of_le (Nat.le_trans hlo hmax)]
  rw [checkedMul128_of_le (Nat.le_trans (Nat.le_trans hbps hhi) hmax)]
  rw [Option.bind_eq_bind, Option.bind_some, if_neg (Nat.pos_iff_ne_zero.1 hpos)]
  rw [Option.bind_some, if_neg (by omega)]

end Accepted

/-- Clamping the dividend leaves the quotient alone exactly below the next multiple. -/
theorem min_div_eq_iff {n m d : Nat} (hd : 0 < d) :
    min n m / d = n / d ↔ n < d * (m / d + 1) := by
  have hlt : n < d * (m / d + 1) ↔ n / d ≤ m / d := by
    rw [Nat.mul_comm, ← Nat.div_lt_iff_lt_mul hd, Nat.lt_succ_iff]
  rw [hlt]
  rcases Nat.le_total n m with hnm | hmn
  · rw [Nat.min_eq_left hnm]
    exact iff_of_true rfl (Nat.div_le_div_right hnm)
  · have hle : m / d ≤ n / d := Nat.div_le_div_right hmn
    rw [Nat.min_eq_right hmn]
    omega

/-- A dividend from zero to the bound is not clamped. -/
theorem satMulI128_of_le {a b : Int} (h0 : 0 ≤ a * b) (h : a * b ≤ I128_MAX) :
    satMulI128 a b = a * b := by
  unfold satMulI128
  omega

theorem satMulI128_neg (n : Nat) :
    satMulI128 (-(n : Int)) BPS = -(min (BPS * n) (I128_MAX + 1) : Nat) := by
  have hprod : -(n : Int) * BPS = -((BPS * n : Nat) : Int) := by
    rw [Int.neg_mul, Int.mul_comm, Int.natCast_mul]
  unfold satMulI128
  rw [hprod]
  omega

/-- The code's deviation is the exact one where the saturation does not reach the quotient, and only
there. -/
theorem saturated_eq_iff (h : Accepted reserveLo reserveHi oracleMicro) :
    (satMulI128 ((reserveHi * DECIMAL_GAP : Nat) - (reserveLo * oracleMicro : Nat)) BPS).tdiv
        (reserveLo * oracleMicro : Nat) = exactDeviation reserveLo reserveHi oracleMicro ↔
      DeviationFits reserveLo reserveHi oracleMicro := by
  have hpos := h.oracleSide_pos
  have hpool := h.poolSide_le
  unfold exactDeviation DeviationFits
  generalize reserveLo * oracleMicro = oracleSide at *
  generalize reserveHi * DECIMAL_GAP = poolSide at *
  rcases Nat.le_total oracleSide poolSide with habove | hbelow
  · -- above the oracle's price the product fits
    obtain ⟨surplus, rfl⟩ := Nat.le.dest habove
    have hdiff : ((oracleSide + surplus : Nat) : Int) - (oracleSide : Nat) = surplus := by omega
    have hprod : (surplus : Int) * (BPS : Nat) = ((BPS * surplus : Nat) : Int) := by
      rw [Int.natCast_mul, Int.mul_comm]
    have hfits : BPS * surplus ≤ I128_MAX :=
      Nat.le_trans (Nat.mul_le_mul_left _ (Nat.le_add_left _ _)) hpool
    have hsat : satMulI128 surplus BPS = (surplus : Int) * BPS :=
      satMulI128_of_le (by rw [hprod]; omega) (by rw [hprod]; omega)
    rw [hdiff, hsat, Int.mul_comm]
    refine iff_of_true rfl ?_
    rw [Nat.sub_eq_zero_of_le habove, Nat.mul_zero]
    exact Nat.mul_pos hpos (Nat.succ_pos _)
  · obtain ⟨shortfall, rfl⟩ := Nat.le.dest hbelow
    have hdiff : ((poolSide : Nat) : Int) - (poolSide + shortfall : Nat) = -(shortfall : Int) := by
      omega
    have hexact : (BPS : Int) * -(shortfall : Int) = -((BPS * shortfall : Nat) : Int) := by
      rw [Int.mul_neg, Int.natCast_mul]
    rw [hdiff, satMulI128_neg, hexact, Int.neg_tdiv, Int.neg_tdiv, Int.neg_inj,
      ← Int.ofNat_tdiv, ← Int.ofNat_tdiv, Int.natCast_inj, Nat.add_sub_cancel_left]
    exact min_div_eq_iff hpos

/-! ## The band -/

/-- Once the band covers the fee, the band test is a test of the computed deviation. -/
theorem decide_inBand_iff {pool : PoolState} {minSwapIn : MinSwapIn} {balances : Balances}
    {cfg : KeeperConfig} {deviation : Int} (hlo : 1 ≤ pool.reserveLo) (hhi : 1 ≤ pool.reserveHi)
    (hband : pool.feePerMille * 10 ≤ cfg.bandBps)
    (hdev : devBps pool.reserveLo pool.reserveHi oracleMicro = some deviation) :
    (∃ d, pool.decide minSwapIn oracleMicro balances cfg = .hold (.inBand d)) ↔
      -(cfg.bandBps : Int) ≤ deviation ∧ deviation ≤ cfg.bandBps := by
  have hcheck : checkBandExceedsFee cfg.bandBps pool.feePerMille = .ok () :=
    if_neg (Nat.not_lt.2 hband)
  unfold PoolState.decide
  rw [if_neg (by omega), if_neg (by omega), hcheck, hdev]
  dsimp only
  cases hside : sideOf deviation cfg.bandBps with
  | none =>
    refine iff_of_true ⟨deviation, rfl⟩ ?_
    unfold sideOf at hside
    split at hside
    · cases hside
    split at hside
    · cases hside
    omega
  | some side =>
    refine iff_of_false ?_ ?_
    · rintro ⟨d, hd⟩
      dsimp only at hd
      split at hd
      · cases hd
      split at hd
      · cases hd
      split at hd <;> cases hd
    · rintro ⟨hge, hle⟩
      unfold sideOf at hside
      rw [if_neg (by omega), if_neg (by omega)] at hside
      cases hside

/-- **The deadband is exact where the saturation does not reach the quotient, and only there.**  For
reserves and a price in the accepted range, the deviation is the exact truncated quotient and the
band test decides it for every band that covers the fee, if and only if `DeviationFits`. -/
theorem deadband_exact_iff (reserveLo reserveHi oracleMicro : Nat)
    (h : Accepted reserveLo reserveHi oracleMicro) :
    (devBps reserveLo reserveHi oracleMicro =
          some (exactDeviation reserveLo reserveHi oracleMicro) ∧
        ∀ (pool : PoolState) (minSwapIn : MinSwapIn) (balances : Balances) (cfg : KeeperConfig),
          pool.reserveLo = reserveLo → pool.reserveHi = reserveHi →
          pool.feePerMille * 10 ≤ cfg.bandBps →
          ((∃ d, pool.decide minSwapIn oracleMicro balances cfg = .hold (.inBand d)) ↔
            -(cfg.bandBps : Int) ≤ exactDeviation reserveLo reserveHi oracleMicro ∧
              exactDeviation reserveLo reserveHi oracleMicro ≤ cfg.bandBps)) ↔
      DeviationFits reserveLo reserveHi oracleMicro := by
  rw [← saturated_eq_iff h]
  constructor
  · rintro ⟨hdev, -⟩
    rw [h.devBps_eq] at hdev
    exact Option.some.inj hdev
  · intro hexact
    have hdev := h.devBps_eq
    rw [hexact] at hdev
    refine ⟨hdev, ?_⟩
    rintro pool minSwapIn balances cfg rfl rfl hband
    exact decide_inBand_iff h.lo_pos h.hi_pos hband hdev

theorem deadband_exact_iff_sample :
    DeviationFits 1000000000 1000000000 90000000000 ∧
      devBps 1000000000 1000000000 90000000000 = some 1111 := by
  have hfits : DeviationFits 1000000000 1000000000 90000000000 := by
    unfold DeviationFits
    decide +kernel
  have hiff := deadband_exact_iff 1000000000 1000000000 90000000000
    ⟨by decide, by decide, by decide, by decide, by decide, by decide⟩
  exact ⟨hfits, (hiff.2 hfits).1.trans (by decide +kernel)⟩

/-- A full bitcoin reserve against one unit, at the largest price the oracle accepts. -/
def Sample.drainedPool : PoolState := ⟨0, 1, 288230376151711744, 1, 3⟩

/-- The pool's price is a ten-thousandth of the oracle's, 9999 basis points below; the code computes
590 and holds as in band at a band of 1000. -/
theorem saturated_deviation_in_band :
    Accepted Sample.drainedPool.reserveLo Sample.drainedPool.reserveHi MAX_MICRO_USD_PER_BTC ∧
      exactDeviation Sample.drainedPool.reserveLo Sample.drainedPool.reserveHi
        MAX_MICRO_USD_PER_BTC = -9999 ∧
      devBps Sample.drainedPool.reserveLo Sample.drainedPool.reserveHi MAX_MICRO_USD_PER_BTC =
        some (-590) ∧
      Sample.drainedPool.decide ⟨1000, 1000⟩ MAX_MICRO_USD_PER_BTC ⟨10000000000, 10000000000⟩
        ⟨1000, 1000000000, 0, 0⟩ = .hold (.inBand (-590)) :=
  ⟨⟨by decide, by decide, by decide, by decide, by decide, by decide⟩, by decide +kernel,
    by decide +kernel, by decide +kernel⟩

end Experimint.AmmPriceKeeper
