import Experimint.Lib.Bisection
import Experimint.Amm.Curve
import Experimint.Usdt.Types

/-!
# The price keeper's policy

The keeper trades against a pool of bitcoin (millisatoshis) and USDt (micros) to bring its price
back to an oracle's.  `PoolState.decide` is the whole policy: it measures the deviation by an exact
cross-multiplication, searches for the largest swap that does not carry the price past the oracle,
and clamps it by a size cap, the inventory and the dust threshold.
-/

set_option autoImplicit false

namespace Experimint.AmmPriceKeeper

open FedimintAmm (amountOut CurveError MAX_RESERVE)
open FedimintUsdt (checkedMul128 satMul128)

/-- Micro-USD per bitcoin in a price of micros per millisatoshi. -/
def DECIMAL_GAP : Nat := 100000000000

def BPS : Nat := 10000

def I128_MAX : Nat := 170141183460469231731687303715884105727

/-- Signed multiplication that saturates at 128 bits. -/
def satMulI128 (a b : Int) : Int := max (-(I128_MAX + 1 : Nat)) (min (a * b) I128_MAX)

structure PoolState where
  unitLo : AmountUnit
  unitHi : AmountUnit
  reserveLo : Nat
  reserveHi : Nat
  feePerMille : Nat
deriving DecidableEq

/-- A quantity of either unit. -/
structure MinSwapIn where
  lo : Nat
  hi : Nat

structure Balances where
  lo : Nat
  hi : Nat

structure KeeperConfig where
  bandBps : Nat
  maxTradeMicroUsd : Nat
  btcFloorMsat : Nat
  usdtFloorMicros : Nat

/-- Selling bitcoin lowers the pool's price, buying raises it. -/
inductive Side where
  | sellBtc
  | buyBtc
deriving DecidableEq

inductive HoldReason where
  | emptyPool
  | zeroReserve (reserveLo reserveHi : Nat)
  | unpriceable
  | bandBelowFee (bandBps feePerMille : Nat)
  | inBand (devBps : Int)
  | noSizeAvailable (devBps : Int)
  | belowMinSwapIn (unitIn : AmountUnit) (amountIn minSwapIn : Nat)
  | outputRoundsToZero (unitIn : AmountUnit) (amountIn : Nat)
deriving DecidableEq

inductive Decision where
  | hold (reason : HoldReason)
  | trade (unitIn unitOut : AmountUnit) (amountIn : Nat)
deriving DecidableEq

structure BandTooNarrow where
  bandBps : Nat
  feePerMille : Nat

def checkBandExceedsFee (bandBps feePerMille : Nat) : Except BandTooNarrow Unit :=
  if bandBps < feePerMille * 10 then .error ⟨bandBps, feePerMille⟩ else .ok ()

/-- How far the pool's price is above the oracle's, in basis points. -/
def devBps (reserveLo reserveHi oracleMicro : Nat) : Option Int := do
  let oracleSide ← checkedMul128 reserveLo oracleMicro
  if oracleSide = 0 then none
  else
    let poolSide ← checkedMul128 reserveHi DECIMAL_GAP
    if I128_MAX < poolSide ∨ I128_MAX < oracleSide then none
    else some ((satMulI128 ((poolSide : Int) - oracleSide) BPS).tdiv oracleSide)

/-- Input and output reserve of a side. -/
def PoolState.reservesFor (pool : PoolState) : Side → Nat × Nat
  | .sellBtc => (pool.reserveLo, pool.reserveHi)
  | .buyBtc => (pool.reserveHi, pool.reserveLo)

/-- Input and output unit of a side. -/
def PoolState.unitsFor (pool : PoolState) : Side → AmountUnit × AmountUnit
  | .sellBtc => (pool.unitLo, pool.unitHi)
  | .buyBtc => (pool.unitHi, pool.unitLo)

/-- What bounds a trade in its input unit. -/
structure Limits where
  floor : Nat
  balance : Nat
  minIn : Nat

def limitsFor (cfg : KeeperConfig) (balances : Balances) (minSwapIn : MinSwapIn) : Side → Limits
  | .sellBtc => ⟨cfg.btcFloorMsat, balances.lo, minSwapIn.lo⟩
  | .buyBtc => ⟨cfg.usdtFloorMicros, balances.hi, minSwapIn.hi⟩

/-- The size cap in the input unit, at the oracle's price. -/
def maxTradeCap (side : Side) (maxTradeMicroUsd oracleMicro : Nat) : Nat :=
  match side with
  | .buyBtc => min maxTradeMicroUsd U64_MAX
  | .sellBtc =>
    if oracleMicro = 0 then 0
    else min (satMul128 maxTradeMicroUsd DECIMAL_GAP / oracleMicro) U64_MAX

/-- Reserves after a swap, bitcoin first. -/
def reservesAfter (side : Side) (reserveInNew reserveOutNew : Nat) : Nat × Nat :=
  match side with
  | .sellBtc => (reserveInNew, reserveOutNew)
  | .buyBtc => (reserveOutNew, reserveInNew)

/-- Whether these reserves price bitcoin past the oracle, for a correction from this side.  A
product that does not fit counts as past. -/
def pastOracle (side : Side) (reserveLo reserveHi oracleMicro : Nat) : Bool :=
  let past : Option Bool := do
    let poolSide ← checkedMul128 reserveHi DECIMAL_GAP
    let oracleSide ← checkedMul128 reserveLo oracleMicro
    match side with
    | .sellBtc => some (decide (poolSide < oracleSide))
    | .buyBtc => some (decide (oracleSide < poolSide))
  past.getD true

/-- Whether a swap of `dx` carries the price past the oracle's.  A swap without output has not moved
it; one that cannot be executed counts as past. -/
def PoolState.crossesTarget (pool : PoolState) (side : Side) (oracleMicro dx : Nat) : Bool :=
  let reserveIn := (pool.reservesFor side).1
  let reserveOut := (pool.reservesFor side).2
  match amountOut reserveIn reserveOut dx pool.feePerMille with
  | .error .zeroAmount | .error .outputRoundsToZero => false
  | .error _ => true
  | .ok dy =>
    if U64_MAX < reserveIn + dx ∨ reserveOut < dy then true
    else
      let reserves := reservesAfter side (reserveIn + dx) (reserveOut - dy)
      pastOracle side reserves.1 reserves.2 oracleMicro

/-- The largest swap that does not carry the price past the oracle's. -/
def PoolState.largestNonCrossing (pool : PoolState) (side : Side) (oracleMicro : Nat) : Nat :=
  let high := MAX_RESERVE - (pool.reservesFor side).1
  bisect (pool.crossesTarget side oracleMicro) high 1 high 0

/-- Which way to trade, if the price is outside the band. -/
def sideOf (deviation : Int) (bandBps : Nat) : Option Side :=
  if (bandBps : Int) < deviation then some .sellBtc
  else if deviation < -(bandBps : Int) then some .buyBtc
  else none

/-- The policy. -/
def PoolState.decide (pool : PoolState) (minSwapIn : MinSwapIn) (oracleMicro : Nat)
    (balances : Balances) (cfg : KeeperConfig) : Decision :=
  if pool.reserveLo = 0 ∧ pool.reserveHi = 0 then .hold .emptyPool
  else if pool.reserveLo = 0 ∨ pool.reserveHi = 0 then
    .hold (.zeroReserve pool.reserveLo pool.reserveHi)
  else
    match checkBandExceedsFee cfg.bandBps pool.feePerMille with
    | .error error => .hold (.bandBelowFee error.bandBps error.feePerMille)
    | .ok () =>
      match devBps pool.reserveLo pool.reserveHi oracleMicro with
      | none => .hold .unpriceable
      | some deviation =>
        match sideOf deviation cfg.bandBps with
        | none => .hold (.inBand deviation)
        | some side =>
          let unitIn := (pool.unitsFor side).1
          let unitOut := (pool.unitsFor side).2
          let reserveIn := (pool.reservesFor side).1
          let reserveOut := (pool.reservesFor side).2
          let limits := limitsFor cfg balances minSwapIn side
          let largest := pool.largestNonCrossing side oracleMicro
          if largest = 0 then .hold (.noSizeAvailable deviation)
          else
            let capped := min largest (maxTradeCap side cfg.maxTradeMicroUsd oracleMicro)
            let amountIn := min capped (limits.balance - limits.floor)
            if amountIn < limits.minIn then
              .hold (.belowMinSwapIn unitIn amountIn limits.minIn)
            else
              match amountOut reserveIn reserveOut amountIn pool.feePerMille with
              | .error _ => .hold (.outputRoundsToZero unitIn amountIn)
              | .ok _ => .trade unitIn unitOut amountIn

/-- The side a unit is spent on. -/
def PoolState.sideFor (pool : PoolState) (unitIn : AmountUnit) : Option Side :=
  if unitIn = pool.unitLo then some .sellBtc
  else if unitIn = pool.unitHi then some .buyBtc
  else none

/-- Reserves a trade would leave behind. -/
def PoolState.applyTrade (pool : PoolState) (unitIn : AmountUnit) (amountIn : Nat) :
    Option (Nat × Nat) :=
  match pool.sideFor unitIn with
  | none => none
  | some side =>
    let reserveIn := (pool.reservesFor side).1
    let reserveOut := (pool.reservesFor side).2
    match amountOut reserveIn reserveOut amountIn pool.feePerMille with
    | .error _ => none
    | .ok dy =>
      if U64_MAX < reserveIn + amountIn ∨ reserveOut < dy then none
      else some (reservesAfter side (reserveIn + amountIn) (reserveOut - dy))

end Experimint.AmmPriceKeeper
