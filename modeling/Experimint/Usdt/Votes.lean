import Mathlib.Data.List.Sort
import Experimint.Usdt.Db

/-!
# Votes, medians and quotes

What the guardians' votes amount to: the agreed block count, the fee median with its freshness
window, the fee quotes derived from it, readiness, and the ring of anchored block hashes.
-/

set_option autoImplicit false

namespace Experimint.FedimintUsdt

/-! ## Constants -/

def FEE_VOTE_TTL_BLOCKS : Nat := 50

def FEE_VOTE_REFRESH_BLOCKS : Nat := 20

def DEPOSIT_VOTE_MAX_AGE_BLOCKS : Nat := 100

def BLOCK_HASH_RING_LEN : Nat := 300

def MAX_SANE_MAX_FEE_PER_GAS_WEI : Nat := 10000000000000

def MAX_SANE_USDT_PER_ETH_E6 : Nat := 1000000000000

def WITHDRAWAL_GAS_UNITS : Nat := 360000

def WITHDRAWAL_FEE_BUFFER_PERCENT : Nat := 20

def MIN_WITHDRAWAL_FEE : Nat := 10000

def SWEEP_GAS_UNITS : Nat := 800000

def MIN_DEPOSIT_FEE : Nat := 10000

def WEI_PER_ETH : Nat := 1000000000000000000

def isDevChain (chainId : Nat) : Bool := chainId == 31337 || chainId == 1337

/-! ## Block count -/

/-- Element at the middle of `n` sorted values. -/
def sortedAt (i : Nat) (l : List Nat) : Nat := ((l.insertionSort (· ≤ ·))[i]?).getD 0

/-- Median block count; a guardian without a vote counts as zero. -/
def Usdt.consensusBlockCount (u : Usdt) (db : Db) : Nat :=
  let counts := db.blockCountVote.values
  sortedAt (u.numPeers.total / 2) (counts ++ List.replicate (u.numPeers.total - counts.length) 0)

/-! ## Fees -/

def feeVoteInSaneRange (vote : FeeVote) : Bool :=
  decide (1 ≤ vote.maxFeePerGasWei) && decide (vote.maxFeePerGasWei ≤ MAX_SANE_MAX_FEE_PER_GAS_WEI)
    && decide (1 ≤ vote.usdtPerEthE6) && decide (vote.usdtPerEthE6 ≤ MAX_SANE_USDT_PER_ETH_E6)

theorem feeVoteInSaneRange_iff {vote : FeeVote} : feeVoteInSaneRange vote = true ↔
    (1 ≤ vote.maxFeePerGasWei ∧ vote.maxFeePerGasWei ≤ MAX_SANE_MAX_FEE_PER_GAS_WEI) ∧
      1 ≤ vote.usdtPerEthE6 ∧ vote.usdtPerEthE6 ≤ MAX_SANE_USDT_PER_ETH_E6 := by
  simp only [feeVoteInSaneRange, Bool.and_eq_true, decide_eq_true_eq, and_assoc]

/-- Component-wise median of the fresh votes, if a threshold of them exists. -/
def Usdt.feeVoteMedian (u : Usdt) (db : Db) : Option FeeVote :=
  let currentBlock := u.consensusBlockCount db
  let votes := (db.feeVote.values.filter fun stored =>
    decide (currentBlock - stored.recordedBlock ≤ FEE_VOTE_TTL_BLOCKS)).map (·.vote)
  if votes.length < u.numPeers.threshold then none
  else some
    { maxFeePerGasWei := sortedAt (votes.length / 2) (votes.map (·.maxFeePerGasWei))
      usdtPerEthE6 := sortedAt (votes.length / 2) (votes.map (·.usdtPerEthE6)) }

/-- Price of `gasUnits` with the safety buffer, rounded up, and never below the floor. -/
def gasCostFeeQuote (gasUnits : Nat) (median : FeeVote) (floorRaw : Nat) : Option UsdtAmount := do
  let gasCostWei ← checkedMul128 gasUnits median.maxFeePerGasWei
  let priced ← checkedMul128 gasCostWei median.usdtPerEthE6
  let numerator ← checkedMul128 priced (100 + WITHDRAWAL_FEE_BUFFER_PERCENT)
  let denominator ← checkedMul128 WEI_PER_ETH 100
  let rounded ← checkedAdd128 numerator (denominator - 1)
  U64.tryFrom (max (rounded / denominator) floorRaw)

def withdrawalFeeQuote (median : FeeVote) : Option UsdtAmount :=
  gasCostFeeQuote WITHDRAWAL_GAS_UNITS median MIN_WITHDRAWAL_FEE

def depositFeeQuote (median : FeeVote) : Option UsdtAmount :=
  gasCostFeeQuote SWEEP_GAS_UNITS median MIN_DEPOSIT_FEE

/-- Token value of a gas cost, rounded up. -/
def weiGasCostToUsdt (gasCostWei usdtPerEthE6 : Nat) : Option UsdtAmount := do
  let numerator ← checkedMul128 gasCostWei usdtPerEthE6
  let rounded ← checkedAdd128 numerator (WEI_PER_ETH - 1)
  U64.tryFrom (rounded / WEI_PER_ETH)

/-! ## Readiness -/

/-- Whether a threshold of guardians observes every part of the infrastructure. -/
def Usdt.bootstrapReady (u : Usdt) (db : Db) : Bool :=
  let votes := db.bootstrapVote.values
  let t := u.numPeers.threshold
  decide (t ≤ votes.countP (·.entryPointOk)) && decide (t ≤ votes.countP (·.factoryOk)) &&
    decide (t ≤ votes.countP (·.implOk)) && decide (t ≤ votes.countP (·.broadcasterFunded)) &&
    decide (t ≤ votes.countP (·.rpcHealthy))

/-! ## Anchored blocks -/

/-- Anchors a block hash and forgets the heights that fall out of the window. -/
def writeBlockHashRing (db : Db) (height : Nat) (hash : Hash) : Db :=
  { db with
    blockHashRing := (db.blockHashRing.insert height hash).eraseWhere fun h =>
      decide (satAdd64 h BLOCK_HASH_RING_LEN ≤ height) }

def ringHashAt (db : Db) (height : Nat) : Option Hash := db.blockHashRing.get? height

/-! ## Policy -/

def Usdt.timeoutBlocks (u : Usdt) : Nat := if u.isRunningInTestEnv then 2 else 50

def Usdt.submittedOpTimeoutBlocks (u : Usdt) : Nat := if u.isRunningInTestEnv then 2 else 25

def Usdt.batchIntervalBlocks (u : Usdt) : Nat := if u.isRunningInTestEnv then 3 else 2

end Experimint.FedimintUsdt
