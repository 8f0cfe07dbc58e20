import Mathlib.Data.List.Sort
import Experimint.Lib.Run
import Experimint.Amm.Curve
import Experimint.Amm.Types

/-!
# The AMM server module

The database tables and the functions that read and write them.  Every processing function returns
its answer together with the database as it stands at that moment, also when the answer is an
error, so nothing is assumed about a transaction being discarded.

`Accepts` is the transition relation of the module: an item is accepted when its function answers
without error.
-/

set_option autoImplicit false

namespace Experimint.FedimintAmm

/-! ## Database -/

structure Pool where
  reserveLo : Nat
  reserveHi : Nat
  totalShares : Nat
deriving DecidableEq

structure LpPosition where
  shares : Nat
  tweak : Bytes
deriving DecidableEq

structure BalanceEntry where
  amount : Nat
  tweak : Bytes
deriving DecidableEq

abbrev LpPositionKey := PoolId ×ₗ PublicKey

abbrev BalanceKey := PublicKey ×ₗ AmountUnit

abbrev FeeVoteKey := PoolId ×ₗ PeerId

structure Db where
  pool : Table PoolId Pool
  lpPosition : Table LpPositionKey LpPosition
  balance : Table BalanceKey BalanceEntry
  feeVote : Table FeeVoteKey Nat
deriving DecidableEq

/-- Database of a freshly created federation. -/
def Db.empty : Db := ⟨.empty, .empty, .empty, .empty⟩

/-- The AMM module of one guardian. -/
structure Amm where
  cfg : AmmConfigConsensus
  numPeers : NumPeers
  pop : PopCrypto

/-! ## Fee aggregation and quotes -/

/-- Stored fee votes of a pool, in peer order. -/
def feeVotesOf (db : Db) (pool : PoolId) : List (FeeVoteKey × Nat) :=
  db.feeVote.scan fun k => decide ((ofLex k).1 = pool)

/-- Fee, in per mille, that `pool` currently charges. -/
def consensusFeeFor (a : Amm) (db : Db) (pool : PoolId) : Nat :=
  let votes := ((feeVotesOf db pool).map Prod.snd).insertionSort (· ≤ ·)
  let voted := votes[a.numPeers.threshold - 1]?
  a.cfg.clampFeeToBand (voted.getD (a.cfg.feeFor pool))

def mapCurveError : CurveError → AmmOutputError
  | .reserveCapExceeded => .reserveCapExceeded
  | other => .curve other.text

def mapCurveErrorInput : CurveError → AmmInputError
  | .insufficientShares => .insufficientShares
  | other => .curve other.text

structure SwapQuote where
  dy : Nat
  inIsLo : Bool
  reserveIn : Nat
  reserveOut : Nat
  reserveInNew : Nat
deriving DecidableEq

/-- Orientation, admission checks and output of a swap, shared by settlement and quotes. -/
def quoteSwap (a : Amm) (db : Db) (pool : Pool) (poolId : PoolId) (unitIn : AmountUnit)
    (amountIn : Nat) (minOut : Option Nat) : Except AmmOutputError SwapQuote :=
  match a.cfg.units.get? unitIn with
  | none => .error .unknownUnit
  | some paramsIn =>
    let inIsLo := decide (unitIn = poolId.lo)
    match poolId.other unitIn with
    | none => .error .unknownUnit
    | some unitOut =>
      if !a.cfg.units.contains unitOut then .error .unknownUnit else
      if amountIn < paramsIn.minSwapIn then .error .belowMinSwapIn else
      let reserveIn := if inIsLo then pool.reserveLo else pool.reserveHi
      let reserveOut := if inIsLo then pool.reserveHi else pool.reserveLo
      let fee := consensusFeeFor a db poolId
      match amountOut reserveIn reserveOut amountIn fee with
      | .error e => .error (mapCurveError e)
      | .ok dy =>
        if minOut.any fun m => decide (dy < m) then .error .slippageExceeded else
        match checkedAdd reserveIn amountIn with
        | none => .error .reserveCapExceeded
        | some reserveInNew =>
          if reserveInNew > MAX_RESERVE then .error .reserveCapExceeded
          else .ok ⟨dy, inIsLo, reserveIn, reserveOut, reserveInNew⟩

/-! ## Inputs -/

def claimBalance (db : Db) (pubkey : PublicKey) (unit : AmountUnit) :
    Except AmmInputError InputMeta × Db :=
  let key : BalanceKey := toLex (pubkey, unit)
  match db.balance.get? key with
  | none => (.error .noSuchBalance, db)
  | some entry =>
    (.ok ⟨⟨Amounts.newCustom unit entry.amount, Amounts.zero⟩, pubkey⟩,
      { db with balance := db.balance.erase key })

def withdraw (db : Db) (pool : PoolId) (ownerPk : PublicKey)
    (shares minLo minHi maxLo maxHi : Nat) : Except AmmInputError InputMeta × Db :=
  match db.pool.get? pool with
  | none => (.error .noSuchPool, db)
  | some dbPool =>
    let lpKey : LpPositionKey := toLex (pool, ownerPk)
    match db.lpPosition.get? lpKey with
    | none => (.error .noSuchPosition, db)
    | some position =>
      if shares > position.shares then (.error .insufficientShares, db) else
      match burnShares dbPool.reserveLo dbPool.reserveHi dbPool.totalShares shares with
      | .error e => (.error (mapCurveErrorInput e), db)
      | .ok outcome =>
        if outcome.da < minLo ∨ outcome.db < minHi ∨ outcome.da > maxLo ∨ outcome.db > maxHi then
          (.error .slippageExceeded, db) else
        match (Amounts.zero.checkedAddUnit outcome.da pool.lo).bind
            fun a => a.checkedAddUnit outcome.db pool.hi with
        | none => (.error (.curve "amount overflow"), db)
        | some amounts =>
          let dbPool' : Pool :=
            ⟨dbPool.reserveLo - outcome.da, dbPool.reserveHi - outcome.db, outcome.newTotalShares⟩
          let left := position.shares - shares
          let lpPosition :=
            if left = 0 then db.lpPosition.erase lpKey
            else db.lpPosition.insert lpKey { position with shares := left }
          (.ok ⟨⟨amounts, Amounts.zero⟩, ownerPk⟩,
            { db with pool := db.pool.insert pool dbPool', lpPosition := lpPosition })

def processInput (db : Db) : AmmInput → Except AmmInputError InputMeta × Db
  | .claimBalanceV0 pubkey unit => claimBalance db pubkey unit
  | .withdrawV0 pool ownerPk shares minLo minHi maxLo maxHi =>
    withdraw db pool ownerPk shares minLo minHi maxLo maxHi
  | .default _ _ => (.error .unknownVariant, db)

/-! ## Outputs -/

/-- Amount a swap's recipient holds afterwards. -/
def creditedBalance (existing : Option BalanceEntry) (dy : Nat) : Except AmmOutputError Nat :=
  match existing with
  | some entry =>
    match checkedAdd entry.amount dy with
    | none => .error .reserveCapExceeded
    | some credited => if credited > MAX_RESERVE then .error .reserveCapExceeded else .ok credited
  | none => .ok dy

def swap (a : Amm) (db : Db) (unitIn unitOut : AmountUnit) (amountIn minOut : Nat)
    (recipientPk : PublicKey) (tweak : Bytes) :
    Except AmmOutputError TransactionItemAmounts × Db :=
  match PoolId.new unitIn unitOut with
  | none => (.error .identicalUnits, db)
  | some poolId =>
    match db.pool.get? poolId with
    | none => (.error .noSuchPool, db)
    | some pool =>
      match quoteSwap a db pool poolId unitIn amountIn (some minOut) with
      | .error e => (.error e, db)
      | .ok quote =>
        let reserveOutNew := quote.reserveOut - quote.dy
        if !kNonDecreasing quote.reserveIn quote.reserveOut quote.reserveInNew reserveOutNew then
          (.error .kInvariantViolated, db) else
        let bkey : BalanceKey := toLex (recipientPk, unitOut)
        match creditedBalance (db.balance.get? bkey) quote.dy with
        | .error e => (.error e, db)
        | .ok credited =>
          let pool' : Pool :=
            if quote.inIsLo then
              { pool with reserveLo := quote.reserveInNew, reserveHi := reserveOutNew }
            else { pool with reserveHi := quote.reserveInNew, reserveLo := reserveOutNew }
          (.ok ⟨Amounts.newCustom unitIn amountIn, Amounts.zero⟩,
            { db with
              pool := db.pool.insert poolId pool'
              balance := db.balance.insert bkey ⟨credited, tweak⟩ })

def deposit (a : Amm) (db : Db) (pool : PoolId) (amountLo amountHi minShares : Nat)
    (ownerPk : PublicKey) (tweak : Bytes) : Except AmmOutputError TransactionItemAmounts × Db :=
  if !a.cfg.units.contains pool.lo || !a.cfg.units.contains pool.hi then
    (.error .unknownUnit, db) else
  let dbPool := (db.pool.get? pool).getD ⟨0, 0, 0⟩
  match mintShares dbPool.reserveLo dbPool.reserveHi dbPool.totalShares amountLo amountHi with
  | .error e => (.error (mapCurveError e), db)
  | .ok outcome =>
    if outcome.toOwner < minShares then (.error .slippageExceeded, db) else
    let lpKey : LpPositionKey := toLex (pool, ownerPk)
    let existingShares := ((db.lpPosition.get? lpKey).map (·.shares)).getD 0
    match checkedAdd existingShares outcome.toOwner with
    | none => (.error (.curve "share overflow"), db)
    | some shares =>
      match checkedAdd dbPool.reserveLo amountLo with
      | none => (.error .reserveCapExceeded, db)
      | some reserveLo =>
        match checkedAdd dbPool.reserveHi amountHi with
        | none => (.error .reserveCapExceeded, db)
        | some reserveHi =>
          -- both rows are written before the declared amounts are added up
          let db' := { db with
            pool := db.pool.insert pool ⟨reserveLo, reserveHi, outcome.newTotalShares⟩
            lpPosition := db.lpPosition.insert lpKey ⟨shares, tweak⟩ }
          match (Amounts.zero.checkedAddUnit amountLo pool.lo).bind
              fun a => a.checkedAddUnit amountHi pool.hi with
          | none => (.error .reserveCapExceeded, db')
          | some amounts => (.ok ⟨amounts, Amounts.zero⟩, db')

def processOutput (a : Amm) (db : Db) (output : AmmOutput) :
    Except AmmOutputError TransactionItemAmounts × Db :=
  if !output.verifyPop a.pop then (.error .invalidProofOfPossession, db) else
  match output with
  | .swapV0 unitIn unitOut amountIn minOut recipientPk tweak _ =>
    swap a db unitIn unitOut amountIn minOut recipientPk tweak
  | .depositV0 pool amountLo amountHi minShares ownerPk tweak _ =>
    deposit a db pool amountLo amountHi minShares ownerPk tweak
  | .default _ _ => (.error .unknownVariant, db)

/-! ## Fee votes -/

def processConsensusItem (a : Amm) (db : Db) (item : AmmConsensusItem) (peerId : PeerId) :
    Except String Unit × Db :=
  match item with
  | .feeVoteV0 pool feePerMille =>
    if !a.cfg.feeInBand feePerMille then
      (.error s!"fee vote {feePerMille} from peer {peerId} is outside the configured band [{a.cfg.minFeePerMille}, {a.cfg.maxFeePerMille}]", db) else
    if (db.pool.get? pool).isNone then
      (.error s!"fee vote from peer {peerId} names a pool that does not exist", db) else
    let key : FeeVoteKey := toLex (pool, peerId)
    let previous := db.feeVote.get? key
    let db' := { db with feeVote := db.feeVote.insert key feePerMille }
    if previous = some feePerMille then
      (.error s!"fee vote from peer {peerId} is redundant", db')
    else (.ok (), db')
  | .default variant _ =>
    (.error s!"received an AMM consensus item with unknown variant {variant} from peer {peerId}", db)

/-! ## Audit -/

/-- Checked conversion to a signed 64-bit integer; the source panics on failure. -/
def i64TryFrom (n : Nat) : Option Int := if n ≤ 9223372036854775807 then some n else none

/-- The module's audit items, one liability a reserve and one a balance; `none` is a panic. -/
def audit (db : Db) : Option (List Int) :=
  match db.pool.values.mapM fun p => (i64TryFrom p.reserveLo).map fun v => -v with
  | none => none
  | some lo =>
    match db.pool.values.mapM fun p => (i64TryFrom p.reserveHi).map fun v => -v with
    | none => none
    | some hi =>
      match db.balance.values.mapM fun b => (i64TryFrom b.amount).map fun v => -v with
      | none => none
      | some balances => some (lo ++ hi ++ balances)

/-! ## Transition relation -/

/-- Anything consensus can hand to the module. -/
inductive Item where
  | input (i : AmmInput)
  | output (o : AmmOutput)
  | consensus (c : AmmConsensusItem) (peer : PeerId)
deriving DecidableEq

/-- What the framework learns from an accepted item. -/
inductive Answer where
  | funded (m : InputMeta)
  | consumed (t : TransactionItemAmounts)
  | recorded
deriving DecidableEq

/-- Processes one item; `none` when the module rejects it. -/
def step (a : Amm) (db : Db) : Item → Option (Answer × Db)
  | .input i =>
    match processInput db i with
    | (.ok m, db') => some (.funded m, db')
    | (.error _, _) => none
  | .output o =>
    match processOutput a db o with
    | (.ok t, db') => some (.consumed t, db')
    | (.error _, _) => none
  | .consensus c peer =>
    match processConsensusItem a db c peer with
    | (.ok _, db') => some (.recorded, db')
    | (.error _, _) => none

/-- The module accepts an item with an answer and a new database. -/
abbrev Accepts (a : Amm) : Db → Item → Answer → Db → Prop := Steps (step a)

end Experimint.FedimintAmm
