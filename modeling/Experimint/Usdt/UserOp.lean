import Experimint.Usdt.Types

/-!
# Building, hashing and signing user operations

The account addresses, the operation hash the group key signs, the four operation builders with
their gas bounds, and the decoders that read an operation's token amount back from its call.

* `decodeTransferAmount_sweep` and `decodeBatchTransferTotal_build` are the round trips: what a
  builder puts into the call is what the settlement decodes.
* `assembleEthSignature_ok` says what a 65-byte signature consists of.
-/

set_option autoImplicit false

namespace Experimint.FedimintUsdt

/-! ## Addresses and digests -/

def DEPOSIT_ADDRESS_DOMAIN : Bytes := ascii "fedimint-usdt-deposit-v0"

def POOL_ACCOUNT_DOMAIN : Bytes := ascii "fedimint-usdt-pool-v0"

def SIGNING_SESSION_DOMAIN : Bytes := ascii "fedimint-usdt-signing-v0"

def USDT_BALANCES_SLOT : Nat := 2

/-- Low 20 bytes of a digest. -/
def lowAddress (h : Hash) : EvmAddress := Fin.ofNat (2 ^ 160) h.val

namespace Evm

variable (e : Evm)

/-- Address that owns a key's accounts. -/
def evmAddress (pk : PublicKey) : EvmAddress :=
  lowAddress (e.keccak256 ((e.serializeUncompressed pk).drop 1))

def depositSalt (claimPk : PublicKey) : Hash :=
  e.keccak256 (DEPOSIT_ADDRESS_DOMAIN ++ e.serialize claimPk)

def poolSalt : Hash := e.keccak256 POOL_ACCOUNT_DOMAIN

def depositInitCodeHash (simpleAccountImpl owner : EvmAddress) : Hash :=
  e.keccak256 (e.erc1967ProxyCreationCode ++ e.encodeProxyArgs simpleAccountImpl owner)

def create2SimpleAccount (accountFactory simpleAccountImpl owner : EvmAddress) (salt : Hash) :
    EvmAddress :=
  e.create2 accountFactory salt (e.depositInitCodeHash simpleAccountImpl owner)

def balancesStorageKey (account : EvmAddress) : Hash :=
  e.keccak256 (wordBytes account.val ++ wordBytes USDT_BALANCES_SLOT)

/-- Two 16-byte halves of a word. -/
def packHiLo (hi lo : Nat) : Bytes := toBeBytes 16 hi ++ toBeBytes 16 lo

/-- The digest that identifies an operation on its entry point and chain. -/
def userOpHash (op : UnsignedUserOp) (entryPoint : EvmAddress) (chainId : Nat) : Hash :=
  let inner := e.keccak256
    (wordBytes op.sender.val ++ wordBytes op.nonce ++ wordBytes (e.keccak256 op.initCode).val ++
      wordBytes (e.keccak256 (e.encodeAccountCall op.callData)).val ++
      packHiLo op.verificationGasLimit op.callGasLimit ++ wordBytes op.preVerificationGas ++
      packHiLo op.maxPriorityFeePerGas op.maxFeePerGas ++
      wordBytes (e.keccak256 op.paymasterAndData).val)
  e.keccak256 (wordBytes inner.val ++ wordBytes entryPoint.val ++ wordBytes chainId)

/-- The digest the group key signs for an operation. -/
def ethSignedMessageHash (opHash : Hash) : Hash :=
  e.keccak256 (0x19 :: ascii "Ethereum Signed Message:\n32" ++ wordBytes opHash.val)

def signingSessionId (digest : Hash) (attempt : Nat) : SigningSessionId :=
  e.keccak256 (SIGNING_SESSION_DOMAIN ++ wordBytes digest.val ++ toBeBytes 4 attempt)

end Evm

namespace Usdt

variable (u : Usdt)

/-- Owner of the pool and of every deposit account. -/
def owner : EvmAddress := u.evm.evmAddress u.cfg.groupPublicKey

def depositAccount (claimPk : PublicKey) : EvmAddress :=
  u.evm.create2SimpleAccount u.cfg.accountFactory u.cfg.simpleAccountImpl u.owner
    (u.evm.depositSalt claimPk)

def poolAccount : EvmAddress :=
  u.evm.create2SimpleAccount u.cfg.accountFactory u.cfg.simpleAccountImpl u.owner u.evm.poolSalt

/-- `userOpHash` under the module's entry point and chain. -/
def opHash (op : UnsignedUserOp) : Hash := u.evm.userOpHash op u.cfg.entryPoint u.cfg.chainId

end Usdt

/-! ## Gas bounds -/

structure GasBounds where
  verificationGasLimit : Nat
  callGasLimit : Nat
  preVerificationGas : Nat
  maxPriorityFeePerGas : Nat
  maxFeePerGas : Nat
deriving DecidableEq

namespace GasBounds

def DEPLOY_AND_SWEEP_DEVNET : GasBounds := ⟨500000, 200000, 100000, 1500000000, 30000000000⟩

def RECOVER_RESIDUAL_DEVNET : GasBounds := ⟨100000, 60000, 100000, 1500000000, 30000000000⟩

def withdrawalBatch (withdrawalCount : Nat) (needsDeploy : Bool) : GasBounds where
  verificationGasLimit := if needsDeploy then 500000 else 100000
  callGasLimit := 60000 + satMul128 withdrawalCount 80000
  preVerificationGas := 100000 + satMul128 withdrawalCount 20000
  maxPriorityFeePerGas := 1500000000
  maxFeePerGas := 30000000000

def RECOVER_RESIDUAL_GAS_UNITS : Nat :=
  RECOVER_RESIDUAL_DEVNET.verificationGasLimit + RECOVER_RESIDUAL_DEVNET.callGasLimit +
    RECOVER_RESIDUAL_DEVNET.preVerificationGas

def OP_FEE_FLOOR_WEI : Nat := 1000000000

def OP_FEE_CEILING_WEI : Nat := 200000000000

def OP_PRIORITY_FEE_WEI : Nat := 1000000000

/-- Fees at twice the live price, between the floor and the ceiling. -/
def withMedianFees (g : GasBounds) (medianMaxFeePerGasWei : Option Nat) : GasBounds :=
  let maxFee := min (max (satMul128 (medianMaxFeePerGasWei.getD 0) 2) OP_FEE_FLOOR_WEI)
    OP_FEE_CEILING_WEI
  { g with maxFeePerGas := maxFee, maxPriorityFeePerGas := min OP_PRIORITY_FEE_WEI maxFee }

end GasBounds

/-! ## Builders -/

/-- Machine word of an amount. -/
def amountWord (a : U64) : Word := Fin.ofNat (2 ^ 256) a.raw

/-- Operation that runs `callData` from `sender` under the given bounds. -/
def userOpOf (sender : EvmAddress) (nonce : Nat) (initCode : Bytes) (callData : AccountCall)
    (g : GasBounds) : UnsignedUserOp where
  sender := sender
  nonce := nonce
  initCode := initCode
  callData := callData
  verificationGasLimit := g.verificationGasLimit
  callGasLimit := g.callGasLimit
  preVerificationGas := g.preVerificationGas
  maxPriorityFeePerGas := g.maxPriorityFeePerGas
  maxFeePerGas := g.maxFeePerGas
  paymasterAndData := []

namespace Usdt

variable (u : Usdt)

/-- Deployment code of an account, empty once it exists. -/
def initCode (needsDeploy : Bool) (salt : Hash) : Bytes :=
  if needsDeploy then
    toBeBytes 20 u.cfg.accountFactory.val ++ u.evm.encodeCreateAccount u.owner salt
  else []

def buildDeployAndSweepUserop (depositAccount : EvmAddress) (claimPk : PublicKey)
    (amount : UsdtAmount) (nonce : Nat) (g : GasBounds) : UnsignedUserOp :=
  userOpOf depositAccount nonce (u.initCode (nonce == 0) (u.evm.depositSalt claimPk))
    (.execute u.cfg.usdtContract 0 (.transfer u.poolAccount (amountWord amount))) g

def buildRecoverResidualUserop (depositAccount : EvmAddress) (amountWei : Nat) (nonce : Nat)
    (g : GasBounds) : UnsignedUserOp :=
  userOpOf depositAccount nonce []
    (.execute u.cfg.entryPoint 0
      (.withdrawTo u.cfg.residualRecoveryRecipient (Fin.ofNat (2 ^ 256) amountWei))) g

def buildWithdrawalBatchUserop (pool : EvmAddress) (withdrawals : List (EvmAddress × UsdtAmount))
    (nonce : Nat) (g : GasBounds) : UnsignedUserOp :=
  userOpOf pool nonce (u.initCode (nonce == 0) u.evm.poolSalt)
    (.executeBatch (withdrawals.map fun _ => u.cfg.usdtContract) (withdrawals.map fun _ => 0)
      (withdrawals.map fun w => .transfer w.1 (amountWord w.2))) g

end Usdt

/-! ## Decoders -/

/-- Token amount of a transfer call; `invalid` is the text for any other call. -/
def transferAmount (invalid : String) : ContractCall → Except String UsdtAmount
  | .transfer _ amount =>
    match U64.tryFrom amount.val with
    | some a => .ok a
    | none => .error "transfer() amount overflows u64"
  | .withdrawTo _ _ => .error invalid

/-- Amount a sweep moves. -/
def decodeTransferAmount (op : UnsignedUserOp) : Except String UsdtAmount :=
  match op.callData with
  | .execute _ _ func =>
    transferAmount "execute()'s func arg is not a valid transfer() call" func
  | .executeBatch _ _ _ => .error "call_data is not a valid execute() call"

/-- Total of a list of transfers, refused on overflow. -/
def transferTotal (total : UsdtAmount) : List ContractCall → Except String UsdtAmount
  | [] => .ok total
  | func :: rest =>
    match transferAmount "executeBatch()'s func arg is not a valid transfer() call" func with
    | .error e => .error e
    | .ok amount =>
      match U64.checkedAdd total amount with
      | some t => transferTotal t rest
      | none => .error "batch transfer total overflows u64"

/-- Amount a withdrawal batch moves. -/
def decodeBatchTransferTotal (op : UnsignedUserOp) : Except String UsdtAmount :=
  match op.callData with
  | .execute _ _ _ => .error "call_data is not a valid executeBatch() call"
  | .executeBatch dest value func =>
    if dest.length = value.length ∧ dest.length = func.length then transferTotal U64.zero func
    else .error "executeBatch()'s dest/value/func arrays have mismatched lengths"

@[simp] theorem val_amountWord (a : U64) : (amountWord a).val = a.raw := by
  have h := a.le_max
  unfold U64_MAX at h
  exact Nat.mod_eq_of_lt (by omega)

@[simp] theorem transferAmount_transfer (invalid : String) (recipient : EvmAddress)
    (a : UsdtAmount) : transferAmount invalid (.transfer recipient (amountWord a)) = .ok a := by
  simp only [transferAmount, val_amountWord, U64.tryFrom_raw]

theorem decodeTransferAmount_sweep (u : Usdt) (account : EvmAddress) (pk : PublicKey)
    (a : UsdtAmount) (nonce : Nat) (g : GasBounds) :
    decodeTransferAmount (u.buildDeployAndSweepUserop account pk a nonce g) = .ok a := by
  simp [decodeTransferAmount, Usdt.buildDeployAndSweepUserop, userOpOf]

/-- Transfers add up to their exact sum, or overflow. -/
theorem transferTotal_transfers (t : UsdtAmount) (ws : List (EvmAddress × UsdtAmount)) :
    transferTotal t (ws.map fun w => .transfer w.1 (amountWord w.2)) =
      (U64.tryFrom (t.raw + (ws.map fun w => w.2.raw).sum)).elim
        (.error "batch transfer total overflows u64") .ok := by
  induction ws generalizing t with
  | nil =>
    rw [List.map_nil, List.map_nil, List.sum_nil, Nat.add_zero, U64.tryFrom_raw]
    rfl
  | cons w ws ih =>
    rw [List.map_cons, transferTotal, transferAmount_transfer, List.map_cons, List.sum_cons]
    dsimp only [U64.checkedAdd]
    rcases Nat.lt_or_ge U64_MAX (t.raw + w.2.raw) with hover | hfit
    · rw [U64.tryFrom_of_lt hover, U64.tryFrom_of_lt (by omega)]
      rfl
    · rw [U64.tryFrom_of_le hfit]
      dsimp only
      rw [ih, Nat.add_assoc]

/-- What settlement decodes from a batch: the exact sum of the amounts it was built from. -/
theorem decodeBatchTransferTotal_build (u : Usdt) (pool : EvmAddress)
    (ws : List (EvmAddress × UsdtAmount)) (nonce : Nat) (g : GasBounds) :
    decodeBatchTransferTotal (u.buildWithdrawalBatchUserop pool ws nonce g) =
      (U64.tryFrom (ws.map fun w => w.2.raw).sum).elim
        (.error "batch transfer total overflows u64") .ok := by
  unfold decodeBatchTransferTotal Usdt.buildWithdrawalBatchUserop userOpOf
  dsimp only
  rw [if_pos (by simp), transferTotal_transfers, U64.raw_zero, Nat.zero_add]

theorem decodeBatchTransferTotal_batch {u : Usdt} {pool : EvmAddress}
    {ws : List (EvmAddress × UsdtAmount)} {nonce : Nat} {g : GasBounds} {r : UsdtAmount}
    (h : decodeBatchTransferTotal (u.buildWithdrawalBatchUserop pool ws nonce g) = .ok r) :
    r.raw = (ws.map fun w => w.2.raw).sum := by
  rw [decodeBatchTransferTotal_build] at h
  cases htotal : U64.tryFrom (ws.map fun w => w.2.raw).sum with
  | none =>
    rw [htotal] at h
    cases h
  | some t =>
    rw [htotal] at h
    cases h
    exact U64.tryFrom_eq_some htotal

/-! ## Signatures -/

namespace Usdt

variable (u : Usdt)

/-- 65-byte signature from `(r, s)`, with the recovery id that recovers the owner. -/
def assembleEthSignature (compactRs : Bytes) (signedDigest : Hash) (owner : EvmAddress) :
    Except String Bytes :=
  let recovers (recoveryId : Nat) : Bool :=
    match u.evm.recover compactRs recoveryId signedDigest with
    | some pk => u.evm.evmAddress pk == owner
    | none => false
  if recovers 0 then .ok (compactRs ++ [27])
  else if recovers 1 then .ok (compactRs ++ [28])
  else
    let shown := displayAddress owner
    .error (s!"neither recovery id (0 nor 1) for the given (r, s) recovers to owner {shown} over " ++
      "the given digest -- either the signature was not produced by owner's key, or " ++
      "signed_digest does not match the digest that was actually signed")

theorem assembleEthSignature_ok {rs sig : Bytes} {digest : Hash} {owner : EvmAddress}
    (h : u.assembleEthSignature rs digest owner = .ok sig) :
    ∃ v, sig = rs ++ [v] := by
  unfold assembleEthSignature at h
  dsimp only at h
  split_ifs at h
  · cases h; exact ⟨27, rfl⟩
  · cases h; exact ⟨28, rfl⟩

end Usdt

end Experimint.FedimintUsdt
