import Experimint.Framework

/-!
# Items, operations and records of the USDT module

Addresses and amounts of the token, user operations with their calls, the transaction and
consensus items, and the records the module keeps.  Hashing, curve arithmetic, ABI encoding and
Merkle proofs are third-party primitives and enter as the parameters `Evm`.

A call that an account executes is kept decoded (`AccountCall`): encoding it and decoding it again
is the identity, and calls of different selectors do not decode as one another.
-/

set_option autoImplicit false

namespace Experimint.FedimintUsdt

/-! ## Addresses, words and amounts -/

/-- Literals of 160-bit types. -/
instance neZeroAddress : NeZero (2 ^ 160) := inferInstance

/-- 20-byte account address. -/
abbrev EvmAddress := Fin (2 ^ 160)

/-- 256-bit machine word. -/
abbrev Word := Fin (2 ^ 256)

/-- Raw token units, six decimals. -/
abbrev UsdtAmount := U64

/-- The token's unit in the framework's amounts. -/
def USDT_UNIT : AmountUnit := 1

/-- The placeholder address. -/
def zeroAddress : EvmAddress := ⟨0, by decide⟩

/-- Saturating addition of block heights. -/
def satAdd64 (a b : Nat) : Nat := min (a + b) U64_MAX

def U128_MAX : Nat := 340282366920938463463374607431768211455

/-- Saturating addition of gas and wei quantities. -/
def satAdd128 (a b : Nat) : Nat := min (a + b) U128_MAX

def satMul128 (a b : Nat) : Nat := min (a * b) U128_MAX

def checkedAdd128 (a b : Nat) : Option Nat := if a + b ≤ U128_MAX then some (a + b) else none

def checkedMul128 (a b : Nat) : Option Nat := if a * b ≤ U128_MAX then some (a * b) else none

/-- Big-endian bytes of `n`, `len` of them. -/
def toBeBytes : Nat → Nat → Bytes
  | 0, _ => []
  | len + 1, n => toBeBytes len (n / 256) ++ [UInt8.ofNat (n % 256)]

/-- ABI word of a number. -/
def wordBytes (n : Nat) : Bytes := toBeBytes 32 n

/-- Bytes of an ASCII literal. -/
def ascii (s : String) : Bytes := s.toList.map fun c => UInt8.ofNat c.toNat

/-- Lower-case hexadecimal digits of a byte. -/
def hexByte (b : UInt8) : List Char :=
  [Nat.digitChar (b.toNat / 16), Nat.digitChar (b.toNat % 16)]

def displayAddress (a : EvmAddress) : String :=
  "0x" ++ String.ofList ((toBeBytes 20 a.val).flatMap hexByte)

/-- Debug rendering of a 32-byte array. -/
def debugHash (h : Hash) : String :=
  "[" ++ String.intercalate ", " ((wordBytes h.val).map fun b => toString b.toNat) ++ "]"

/-! ## User operations -/

/-- Calls an account makes on another contract. -/
inductive ContractCall
  | transfer (recipient : EvmAddress) (amount : Word)
  | withdrawTo (withdrawAddress : EvmAddress) (amount : Word)
deriving DecidableEq

/-- Calls on a `SimpleAccount`. -/
inductive AccountCall
  | execute (dest : EvmAddress) (value : Word) (func : ContractCall)
  | executeBatch (dest : List EvmAddress) (value : List Word) (func : List ContractCall)
deriving DecidableEq

structure UnsignedUserOp where
  sender : EvmAddress
  nonce : Nat
  initCode : Bytes
  callData : AccountCall
  verificationGasLimit : Nat
  callGasLimit : Nat
  preVerificationGas : Nat
  maxPriorityFeePerGas : Nat
  maxFeePerGas : Nat
  paymasterAndData : Bytes
deriving DecidableEq

structure SignedUserOp where
  unsigned : UnsignedUserOp
  signature : Bytes
deriving DecidableEq

/-- What an operation is for, and so how its confirmation settles. -/
inductive UserOpPurpose
  | deployAndSweep (source : EvmAddress)
  | withdraw (outpoints : List OutPoint)
  | recoverResidual (account : EvmAddress)
  | withdrawFees (recipient : EvmAddress) (amount : UsdtAmount)
deriving DecidableEq

/-! ## Votes, proofs and items -/

structure FeeVote where
  maxFeePerGasWei : Nat
  usdtPerEthE6 : Nat
deriving DecidableEq

structure DepositProof where
  blockNumber : Nat
  headerRlp : Bytes
  accountProof : List Bytes
  storageProof : List Bytes
deriving DecidableEq

def DepositProof.encodedLenBytes (p : DepositProof) : Nat :=
  p.headerRlp.length + (p.accountProof.map List.length).sum + (p.storageProof.map List.length).sum

structure BlockHashObservation where
  height : Nat
  blockHash : Hash
deriving DecidableEq

structure BootstrapObservation where
  entryPointOk : Bool
  factoryOk : Bool
  implOk : Bool
  broadcasterFunded : Bool
  rpcHealthy : Bool
deriving DecidableEq

structure UserOpConfirmedObservation where
  success : Bool
  block : Nat
  blockHash : Hash
  swept : UsdtAmount
  actualGasCostWei : UsdtAmount
deriving DecidableEq

structure WithdrawFeesVote where
  recipient : EvmAddress
  amount : UsdtAmount
deriving DecidableEq

abbrev SigningSessionId := Hash

structure MpcRoundItem where
  sessionId : SigningSessionId
  round : Nat
  chunk : Nat
  chunkCount : Nat
  payload : Bytes
deriving DecidableEq

inductive UsdtConsensusItem
  | blockCount (vote : Nat)
  | mpcRound (item : MpcRoundItem)
  | mpcSignature (sessionId : SigningSessionId) (signature : Bytes)
  | rotateSigning (sessionId : SigningSessionId)
  | userOpConfirmed (opHash : Hash) (obs : UserOpConfirmedObservation)
  | feeVote (vote : FeeVote)
  | bootstrapObservation (obs : BootstrapObservation)
  | replaceUserOp (opHash : Hash)
  | blockHash (obs : BlockHashObservation)
  | recoverResidual (account : EvmAddress) (depositWei : Nat)
  | withdrawFeesVote (vote : WithdrawFeesVote)
  | default (variant : Nat) (bytes : Bytes)
deriving DecidableEq

inductive UsdtInput
  | refundV0 (outPoint : OutPoint)
  | depositProofV0 (claimPk : PublicKey) (proof : DepositProof) (fee : UsdtAmount)
  | default (variant : Nat) (bytes : Bytes)
deriving DecidableEq

structure UsdtOutputV0 where
  recipient : EvmAddress
  amount : UsdtAmount
  maxFee : UsdtAmount
  refundPubkey : PublicKey
deriving DecidableEq

inductive UsdtOutput
  | v0 (withdrawal : UsdtOutputV0)
  | default (variant : Nat) (bytes : Bytes)
deriving DecidableEq

inductive UsdtInputError
  | unsupportedInputVariant
  | depositFeeInsufficient (quoted offered : UsdtAmount)
  | feeExceedsAmount (amount fee : UsdtAmount)
  | noFeeQuoteAvailable
  | feeQuoteOverflow
  | unknownRefund
  | depositProofNotAnchored (block : Nat)
  | depositProofInvalid (reason : String)
  | depositProofStale (proven credited : UsdtAmount)
deriving DecidableEq

inductive UsdtOutputError
  | unsupportedOutputVariant
  | noFeeQuoteAvailable
  | feeQuoteOverflow
  | feeQuoteExceeded (quoted maxFee : UsdtAmount)
deriving DecidableEq

/-! ## Third-party primitives -/

inductive TrieNode
  | leaf (value : Bytes)
  | branch
  | extension
  | emptyRoot
deriving DecidableEq

/-- Hashing, curve, ABI and trie functions the module calls. -/
structure Evm where
  keccak256 : Bytes → Hash
  serialize : PublicKey → Bytes
  serializeUncompressed : PublicKey → Bytes
  encodeAccountCall : AccountCall → Bytes
  encodeCreateAccount : EvmAddress → Hash → Bytes
  encodeProxyArgs : EvmAddress → EvmAddress → Bytes
  erc1967ProxyCreationCode : Bytes
  create2 : EvmAddress → Hash → Hash → EvmAddress
  /-- Whether 64 bytes are a compact signature. -/
  isCompact : Bytes → Bool
  /-- Whether a compact signature of a digest verifies under a key. -/
  verifyEcdsa : Hash → Bytes → PublicKey → Bool
  /-- Key recovered from a compact signature with a recovery id. -/
  recover : Bytes → Nat → Hash → Option PublicKey
  /-- State root of an RLP block header. -/
  decodeHeader : Bytes → Option Hash
  decodeTrieNode : Bytes → Option TrieNode
  /-- Storage root of an RLP account leaf. -/
  decodeTrieAccount : Bytes → Option Hash
  decodeU256 : Bytes → Option Nat
  /-- Checks that a trie root maps a key to the value, or to nothing. -/
  verifyProof : Hash → Hash → Option Bytes → List Bytes → Except String Unit

/-- Consensus configuration. -/
structure UsdtConfigConsensus where
  groupPublicKey : PublicKey
  usdtContract : EvmAddress
  chainId : Nat
  confirmationDepth : Nat
  entryPoint : EvmAddress
  accountFactory : EvmAddress
  simpleAccountImpl : EvmAddress
  residualRecoveryRecipient : EvmAddress
deriving DecidableEq

/-- The module of one guardian, as far as consensus decides. -/
structure Usdt where
  cfg : UsdtConfigConsensus
  numPeers : NumPeers
  evm : Evm
  isRunningInTestEnv : Bool

end Experimint.FedimintUsdt
