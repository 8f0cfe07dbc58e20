import Experimint.Usdt.UserOp

/-!
# Calls as bytes

An operation carries its call as bytes: a builder encodes the inner calls, then the account's call
around them, and a decoder reads both again.  The encodings are the parameter `Abi`; all that is
known of them is that decoding undoes encoding.

* `Abi.decodeTransferAmount_build`, `Abi.decodeBatchTransferTotal_build` and
  `Abi.decodeRecoverResidual_build` — what a builder puts in is what its decoder returns.
* `Abi.encode_sweep`, `Abi.encode_recovery` and `Abi.encode_batch` — the operations the module
  builds, with their calls encoded, are the builders' for its configuration.
-/

set_option autoImplicit false

namespace Experimint.FedimintUsdt

/-! ## Encodings -/

/-- Arguments of `transfer(address to, uint256 amount)`. -/
structure TransferCall where
  recipient : EvmAddress
  amount : Word

/-- Arguments of `withdrawTo(address withdrawAddress, uint256 amount)`. -/
structure WithdrawToCall where
  withdrawAddress : EvmAddress
  amount : Word

/-- Arguments of `execute(address dest, uint256 value, bytes func)`. -/
structure ExecuteCall where
  dest : EvmAddress
  value : Word
  func : Bytes

/-- Arguments of `executeBatch(address[] dest, uint256[] value, bytes[] func)`. -/
structure ExecuteBatchCall where
  dest : List EvmAddress
  value : List Word
  func : List Bytes

/-- Encoding of the calls of one signature. -/
structure CallCodec (Call : Type) where
  abiEncode : Call → Bytes
  abiDecode : Bytes → Option Call
  decode_encode : ∀ call, abiDecode (abiEncode call) = some call

/-- The encodings the module uses. -/
structure Abi where
  transfer : CallCodec TransferCall
  withdrawTo : CallCodec WithdrawToCall
  execute : CallCodec ExecuteCall
  executeBatch : CallCodec ExecuteBatchCall

/-! ## Builders -/

/-- An operation with its call as bytes. -/
structure EncodedUserOp where
  sender : EvmAddress
  nonce : Nat
  initCode : Bytes
  callData : Bytes
  verificationGasLimit : Nat
  callGasLimit : Nat
  preVerificationGas : Nat
  maxPriorityFeePerGas : Nat
  maxFeePerGas : Nat
  paymasterAndData : Bytes

structure DeployAndSweepParams where
  accountFactory : EvmAddress
  usdtContract : EvmAddress
  depositAccount : EvmAddress
  owner : EvmAddress
  claimPk : PublicKey
  amount : UsdtAmount
  pool : EvmAddress
  nonce : Nat
  needsDeploy : Bool
  paymasterAndData : Bytes
  gasBounds : GasBounds

structure RecoverResidualParams where
  depositAccount : EvmAddress
  entryPoint : EvmAddress
  recipient : EvmAddress
  amountWei : Nat
  amountWei_le : amountWei ≤ U128_MAX
  nonce : Nat
  paymasterAndData : Bytes
  gasBounds : GasBounds

structure WithdrawalBatchParams where
  accountFactory : EvmAddress
  usdtContract : EvmAddress
  pool : EvmAddress
  owner : EvmAddress
  withdrawals : List (EvmAddress × UsdtAmount)
  nonce : Nat
  needsDeploy : Bool
  paymasterAndData : Bytes
  gasBounds : GasBounds

/-- Code that deploys an account, empty once it exists. -/
def Evm.initCode (e : Evm) (needsDeploy : Bool) (accountFactory owner : EvmAddress) (salt : Hash) :
    Bytes :=
  if needsDeploy then toBeBytes 20 accountFactory.val ++ e.encodeCreateAccount owner salt else []

namespace Abi

variable (abi : Abi) (e : Evm)

def buildDeployAndSweepUserop (params : DeployAndSweepParams) : EncodedUserOp :=
  let transferCalldata := abi.transfer.abiEncode ⟨params.pool, amountWord params.amount⟩
  { sender := params.depositAccount
    nonce := params.nonce
    initCode := e.initCode params.needsDeploy params.accountFactory params.owner
      (e.depositSalt params.claimPk)
    callData := abi.execute.abiEncode ⟨params.usdtContract, 0, transferCalldata⟩
    verificationGasLimit := params.gasBounds.verificationGasLimit
    callGasLimit := params.gasBounds.callGasLimit
    preVerificationGas := params.gasBounds.preVerificationGas
    maxPriorityFeePerGas := params.gasBounds.maxPriorityFeePerGas
    maxFeePerGas := params.gasBounds.maxFeePerGas
    paymasterAndData := params.paymasterAndData }

def buildRecoverResidualUserop (params : RecoverResidualParams) : EncodedUserOp :=
  let withdrawCalldata :=
    abi.withdrawTo.abiEncode ⟨params.recipient, Fin.ofNat (2 ^ 256) params.amountWei⟩
  { sender := params.depositAccount
    nonce := params.nonce
    initCode := []
    callData := abi.execute.abiEncode ⟨params.entryPoint, 0, withdrawCalldata⟩
    verificationGasLimit := params.gasBounds.verificationGasLimit
    callGasLimit := params.gasBounds.callGasLimit
    preVerificationGas := params.gasBounds.preVerificationGas
    maxPriorityFeePerGas := params.gasBounds.maxPriorityFeePerGas
    maxFeePerGas := params.gasBounds.maxFeePerGas
    paymasterAndData := params.paymasterAndData }

def buildWithdrawalBatchUserop (params : WithdrawalBatchParams) : EncodedUserOp :=
  let dest := params.withdrawals.map fun _ => params.usdtContract
  let value := params.withdrawals.map fun _ => 0
  let func := params.withdrawals.map fun w => abi.transfer.abiEncode ⟨w.1, amountWord w.2⟩
  { sender := params.pool
    nonce := params.nonce
    initCode := e.initCode params.needsDeploy params.accountFactory params.owner e.poolSalt
    callData := abi.executeBatch.abiEncode ⟨dest, value, func⟩
    verificationGasLimit := params.gasBounds.verificationGasLimit
    callGasLimit := params.gasBounds.callGasLimit
    preVerificationGas := params.gasBounds.preVerificationGas
    maxPriorityFeePerGas := params.gasBounds.maxPriorityFeePerGas
    maxFeePerGas := params.gasBounds.maxFeePerGas
    paymasterAndData := params.paymasterAndData }

/-! ## Decoders -/

/-- Token amount of an encoded transfer; `invalid` is the text for any other bytes. -/
def transferAmount (invalid : String) (func : Bytes) : Except String UsdtAmount :=
  match abi.transfer.abiDecode func with
  | none => .error invalid
  | some transfer =>
    match U64.tryFrom transfer.amount.val with
    | some a => .ok a
    | none => .error "transfer() amount overflows u64"

def decodeTransferAmount (op : EncodedUserOp) : Except String UsdtAmount :=
  match abi.execute.abiDecode op.callData with
  | none => .error "call_data is not a valid execute() call"
  | some execute =>
    abi.transferAmount "execute()'s func arg is not a valid transfer() call" execute.func

/-- The target of the account's call, the recipient and the amount in wei. -/
def decodeRecoverResidual (op : EncodedUserOp) : Except String (EvmAddress × EvmAddress × Word) :=
  match abi.execute.abiDecode op.callData with
  | none => .error "call_data is not a valid execute() call"
  | some execute =>
    match abi.withdrawTo.abiDecode execute.func with
    | none => .error "execute()'s func arg is not a valid withdrawTo() call"
    | some withdraw => .ok (execute.dest, withdraw.withdrawAddress, withdraw.amount)

/-- The loop over the encoded transfers of a batch. -/
def transferTotal (total : UsdtAmount) : List Bytes → Except String UsdtAmount
  | [] => .ok total
  | func :: rest =>
    match abi.transferAmount "executeBatch()'s func arg is not a valid transfer() call" func with
    | .error e => .error e
    | .ok amount =>
      match U64.checkedAdd total amount with
      | some t => transferTotal t rest
      | none => .error "batch transfer total overflows u64"

def decodeBatchTransferTotal (op : EncodedUserOp) : Except String UsdtAmount :=
  match abi.executeBatch.abiDecode op.callData with
  | none => .error "call_data is not a valid executeBatch() call"
  | some batch =>
    if batch.dest.length = batch.value.length ∧ batch.dest.length = batch.func.length then
      abi.transferTotal U64.zero batch.func
    else .error "executeBatch()'s dest/value/func arrays have mismatched lengths"

/-! ## Round trips -/

@[simp] theorem transferAmount_abiEncode (invalid : String) (recipient : EvmAddress)
    (a : UsdtAmount) :
    abi.transferAmount invalid (abi.transfer.abiEncode ⟨recipient, amountWord a⟩) = .ok a := by
  simp only [transferAmount, CallCodec.decode_encode, val_amountWord, U64.tryFrom_raw]

/-- The loop over encoded transfers is the loop over the transfers. -/
theorem transferTotal_abiEncode (t : UsdtAmount) (ws : List (EvmAddress × UsdtAmount)) :
    abi.transferTotal t (ws.map fun w => abi.transfer.abiEncode ⟨w.1, amountWord w.2⟩) =
      FedimintUsdt.transferTotal t (ws.map fun w => .transfer w.1 (amountWord w.2)) := by
  induction ws generalizing t with
  | nil => rfl
  | cons w ws ih =>
    rw [List.map_cons, transferTotal, transferAmount_abiEncode, List.map_cons,
      FedimintUsdt.transferTotal, transferAmount_transfer]
    dsimp only
    cases U64.checkedAdd t w.2 with
    | none => rfl
    | some t' => exact ih t'

theorem decodeTransferAmount_build (params : DeployAndSweepParams) :
    abi.decodeTransferAmount (abi.buildDeployAndSweepUserop e params) = .ok params.amount := by
  simp only [decodeTransferAmount, buildDeployAndSweepUserop, CallCodec.decode_encode,
    transferAmount_abiEncode]

theorem decodeRecoverResidual_build (params : RecoverResidualParams) :
    ∃ amount : Word, abi.decodeRecoverResidual (abi.buildRecoverResidualUserop params) =
        .ok (params.entryPoint, params.recipient, amount) ∧
      amount.val = params.amountWei := by
  refine ⟨Fin.ofNat (2 ^ 256) params.amountWei, ?_, ?_⟩
  · simp only [decodeRecoverResidual, buildRecoverResidualUserop, CallCodec.decode_encode]
  · have hle := params.amountWei_le
    unfold U128_MAX at hle
    exact Nat.mod_eq_of_lt (by omega)

theorem decodeBatchTransferTotal_build (params : WithdrawalBatchParams) :
    abi.decodeBatchTransferTotal (abi.buildWithdrawalBatchUserop e params) =
      (U64.tryFrom (params.withdrawals.map fun w => w.2.raw).sum).elim
        (.error "batch transfer total overflows u64") .ok := by
  simp only [decodeBatchTransferTotal, buildWithdrawalBatchUserop, CallCodec.decode_encode]
  rw [if_pos (by simp), transferTotal_abiEncode, transferTotal_transfers, U64.raw_zero,
    Nat.zero_add]

/-! ## The module's operations -/

def encodeContractCall : ContractCall → Bytes
  | .transfer recipient amount => abi.transfer.abiEncode ⟨recipient, amount⟩
  | .withdrawTo withdrawAddress amount => abi.withdrawTo.abiEncode ⟨withdrawAddress, amount⟩

def encodeAccountCall : AccountCall → Bytes
  | .execute dest value func =>
    abi.execute.abiEncode ⟨dest, value, abi.encodeContractCall func⟩
  | .executeBatch dest value func =>
    abi.executeBatch.abiEncode ⟨dest, value, func.map abi.encodeContractCall⟩

/-- An operation with its call encoded. -/
def encode (op : UnsignedUserOp) : EncodedUserOp where
  sender := op.sender
  nonce := op.nonce
  initCode := op.initCode
  callData := abi.encodeAccountCall op.callData
  verificationGasLimit := op.verificationGasLimit
  callGasLimit := op.callGasLimit
  preVerificationGas := op.preVerificationGas
  maxPriorityFeePerGas := op.maxPriorityFeePerGas
  maxFeePerGas := op.maxFeePerGas
  paymasterAndData := op.paymasterAndData

variable (u : Usdt)

theorem encode_sweep (account : EvmAddress) (pk : PublicKey) (amount : UsdtAmount) (nonce : Nat)
    (g : GasBounds) :
    abi.encode (u.buildDeployAndSweepUserop account pk amount nonce g) =
      abi.buildDeployAndSweepUserop u.evm
        ⟨u.cfg.accountFactory, u.cfg.usdtContract, account, u.owner, pk, amount, u.poolAccount,
          nonce, nonce == 0, [], g⟩ :=
  rfl

theorem encode_recovery (account : EvmAddress) (amountWei nonce : Nat) (g : GasBounds)
    (hle : amountWei ≤ U128_MAX) :
    abi.encode (u.buildRecoverResidualUserop account amountWei nonce g) =
      abi.buildRecoverResidualUserop
        ⟨account, u.cfg.entryPoint, u.cfg.residualRecoveryRecipient, amountWei, hle, nonce, [], g⟩ :=
  rfl

theorem encode_batch (pool : EvmAddress) (withdrawals : List (EvmAddress × UsdtAmount))
    (nonce : Nat) (g : GasBounds) :
    abi.encode (u.buildWithdrawalBatchUserop pool withdrawals nonce g) =
      abi.buildWithdrawalBatchUserop u.evm
        ⟨u.cfg.accountFactory, u.cfg.usdtContract, pool, u.owner, withdrawals, nonce, nonce == 0,
          [], g⟩ := by
  simp only [encode, Usdt.buildWithdrawalBatchUserop, userOpOf, encodeAccountCall,
    buildWithdrawalBatchUserop, List.map_map]
  rfl

/-- Only the call decides what is decoded. -/
theorem decodeBatchTransferTotal_congr {op op' : UnsignedUserOp}
    (h : op.callData = op'.callData) :
    abi.decodeBatchTransferTotal (abi.encode op) = abi.decodeBatchTransferTotal (abi.encode op') := by
  simp only [decodeBatchTransferTotal, encode, h]

end Abi

end Experimint.FedimintUsdt
