import Experimint.Framework

/-!
# Pools, configuration and items of the AMM module

The canonical pool identifier, the consensus configuration with its fee band, the transaction and
consensus items, and the proof of possession every output carries.  Hashing, signature
verification and the framework's encoders are parameters (`PopCrypto`).
-/

set_option autoImplicit false

namespace Experimint.FedimintAmm

/-! ## Pool identifiers -/

/-- Unordered pair of distinct units, stored sorted. -/
structure PoolId where
  lo : AmountUnit
  hi : AmountUnit
  lo_lt_hi : lo < hi
deriving DecidableEq

instance : LinearOrder PoolId :=
  LinearOrder.lift' (fun p => toLex (p.lo, p.hi)) fun a b h => by
    cases a; cases b; simpa using h

namespace PoolId

def new (x y : AmountUnit) : Option PoolId :=
  if h : x < y then some ⟨x, y, h⟩
  else if h : y < x then some ⟨y, x, h⟩
  else none

/-- The other side of the pair. -/
def other (p : PoolId) (unit : AmountUnit) : Option AmountUnit :=
  if unit = p.lo then some p.hi
  else if unit = p.hi then some p.lo
  else none

theorem lo_ne_hi (p : PoolId) : p.lo ≠ p.hi := Nat.ne_of_lt p.lo_lt_hi

/-- A pool over two units has one of them on each side. -/
theorem new_sides {x y : AmountUnit} {p : PoolId} (h : new x y = some p) :
    (x = p.lo ∧ y = p.hi) ∨ (x = p.hi ∧ y = p.lo) := by
  unfold new at h
  split at h
  · cases h; exact Or.inl ⟨rfl, rfl⟩
  · split at h
    · cases h; exact Or.inr ⟨rfl, rfl⟩
    · cases h

end PoolId

/-! ## Configuration -/

structure UnitParams where
  minSwapIn : Nat
deriving DecidableEq

structure AmmConfigConsensus where
  units : Table AmountUnit UnitParams
  defaultFeePerMille : Nat
  feeOverrides : Table PoolId Nat
  minFeePerMille : Nat
  maxFeePerMille : Nat

namespace AmmConfigConsensus

def feeFor (c : AmmConfigConsensus) (pool : PoolId) : Nat :=
  (c.feeOverrides.get? pool).getD c.defaultFeePerMille

def feeInBand (c : AmmConfigConsensus) (fee : Nat) : Bool :=
  decide (c.minFeePerMille ≤ fee ∧ fee ≤ c.maxFeePerMille)

/-- The source's `clamp` panics on an inverted band, which a validated configuration does not
have. -/
def clampFeeToBand (c : AmmConfigConsensus) (fee : Nat) : Nat :=
  if fee < c.minFeePerMille then c.minFeePerMille
  else if fee > c.maxFeePerMille then c.maxFeePerMille
  else fee

theorem clampFeeToBand_of_inBand {c : AmmConfigConsensus} {fee : Nat}
    (h : c.feeInBand fee = true) : c.clampFeeToBand fee = fee := by
  have hb : c.minFeePerMille ≤ fee ∧ fee ≤ c.maxFeePerMille := of_decide_eq_true h
  unfold clampFeeToBand
  rw [if_neg (by omega), if_neg (by omega)]

end AmmConfigConsensus

/-! ## Items -/

inductive AmmOutput where
  | swapV0 (unitIn unitOut : AmountUnit) (amountIn minOut : Nat) (recipientPk : PublicKey)
      (tweak pop : Bytes)
  | depositV0 (pool : PoolId) (amountLo amountHi minShares : Nat) (ownerPk : PublicKey)
      (tweak pop : Bytes)
  | default (variant : Nat) (bytes : Bytes)
deriving DecidableEq

inductive AmmInput where
  | claimBalanceV0 (pubkey : PublicKey) (unit : AmountUnit)
  | withdrawV0 (pool : PoolId) (ownerPk : PublicKey) (shares minLo minHi maxLo maxHi : Nat)
  | default (variant : Nat) (bytes : Bytes)
deriving DecidableEq

inductive AmmConsensusItem where
  | feeVoteV0 (pool : PoolId) (feePerMille : Nat)
  | default (variant : Nat) (bytes : Bytes)
deriving DecidableEq

inductive AmmInputError where
  | unknownVariant
  | noSuchBalance
  | noSuchPool
  | noSuchPosition
  | insufficientShares
  | slippageExceeded
  | curve (message : String)
deriving DecidableEq

inductive AmmOutputError where
  | unknownVariant
  | invalidProofOfPossession
  | identicalUnits
  | unknownUnit
  | noSuchPool
  | belowMinSwapIn
  | slippageExceeded
  | reserveCapExceeded
  | kInvariantViolated
  | curve (message : String)
deriving DecidableEq

/-! ## Proof of possession -/

/-- Encoders, digest and signature scheme used by proofs of possession. -/
structure PopCrypto where
  encodeU64 : Nat → Bytes
  encodePublicKey : PublicKey → Bytes
  sha256 : Bytes → Hash
  /-- Schnorr verification of a signature on a digest under an x-only key. -/
  verifySchnorr : Bytes → Hash → Fin (2 ^ 256) → Bool

namespace PopCrypto

def DOMAIN_SWAP : UInt8 := 0

def DOMAIN_DEPOSIT : UInt8 := 1

def swapPopMessage (c : PopCrypto) (unitIn unitOut : AmountUnit) (amountIn minOut : Nat)
    (recipientPk : PublicKey) (tweak : Bytes) : Hash :=
  c.sha256 ([DOMAIN_SWAP] ++ c.encodeU64 unitIn ++ c.encodeU64 unitOut ++ c.encodeU64 amountIn ++
    c.encodeU64 minOut ++ c.encodePublicKey recipientPk ++ tweak)

def depositPopMessage (c : PopCrypto) (pool : PoolId) (amountLo amountHi minShares : Nat)
    (ownerPk : PublicKey) (tweak : Bytes) : Hash :=
  c.sha256 ([DOMAIN_DEPOSIT] ++ c.encodeU64 pool.lo ++ c.encodeU64 pool.hi ++
    c.encodeU64 amountLo ++ c.encodeU64 amountHi ++ c.encodeU64 minShares ++
    c.encodePublicKey ownerPk ++ tweak)

end PopCrypto

def AmmOutput.verifyPop (c : PopCrypto) : AmmOutput → Bool
  | .swapV0 unitIn unitOut amountIn minOut recipientPk tweak pop =>
    c.verifySchnorr pop (c.swapPopMessage unitIn unitOut amountIn minOut recipientPk tweak)
      recipientPk.x
  | .depositV0 pool amountLo amountHi minShares ownerPk tweak pop =>
    c.verifySchnorr pop (c.depositPopMessage pool amountLo amountHi minShares ownerPk tweak)
      ownerPk.x
  | .default _ _ => false

end Experimint.FedimintAmm
