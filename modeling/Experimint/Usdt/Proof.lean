import Experimint.Usdt.UserOp

/-!
# Deposit proofs

A deposit proof shows the token balance of an account at an anchored block: the header hashes to
the anchored hash, the state root maps the token contract to its storage root, and the storage
root maps the account's balance slot to the balance.  A proven absence is a balance of zero.
-/

set_option autoImplicit false

namespace Experimint.FedimintUsdt

def MAX_DEPOSIT_PROOF_BYTES : Nat := 16384

namespace Evm

variable (e : Evm)

/-- Value of the leaf a proof ends in. -/
def terminalLeafValue (nodes : List Bytes) : Option Bytes :=
  match nodes.getLast? with
  | none => none
  | some node =>
    match e.decodeTrieNode node with
    | some (.leaf value) => some value
    | _ => none

/-- Value a trie maps a key to, or a proof that there is none. -/
def provenValue (root key : Hash) (nodes : List Bytes) : Except String (Option Bytes) :=
  let absent : Except String (Option Bytes) :=
    match e.verifyProof root key none nodes with
    | .ok _ => .ok none
    | .error err => .error s!"proof verification failed: {err}"
  match e.terminalLeafValue nodes with
  | none => absent
  | some candidate =>
    match e.verifyProof root key (some candidate) nodes with
    | .ok _ => .ok (some candidate)
    | .error _ => absent

/-- Token balance of `account` at the block with hash `expectedBlockHash`. -/
def verifyDepositProof (proof : DepositProof) (expectedBlockHash : Hash)
    (usdtContract account : EvmAddress) : Except String UsdtAmount :=
  let encodedLen := proof.encodedLenBytes
  if MAX_DEPOSIT_PROOF_BYTES < encodedLen then
    .error s!"deposit proof is oversized: {encodedLen} > {MAX_DEPOSIT_PROOF_BYTES} bytes"
  else if e.keccak256 proof.headerRlp ≠ expectedBlockHash then
    .error "header_rlp does not hash to expected_block_hash"
  else
    match e.decodeHeader proof.headerRlp with
    | none => .error "decoding block header RLP"
    | some stateRoot =>
      let accountKey := e.keccak256 (toBeBytes 20 usdtContract.val)
      match e.provenValue stateRoot accountKey proof.accountProof with
      | .error _ => .error "account proof"
      | .ok none => .ok U64.zero
      | .ok (some accountRlp) =>
        match e.decodeTrieAccount accountRlp with
        | none => .error "decoding account leaf RLP"
        | some storageRoot =>
          let storageKey := e.keccak256 (wordBytes (e.balancesStorageKey account).val)
          match e.provenValue storageRoot storageKey proof.storageProof with
          | .error _ => .error "storage proof"
          | .ok none => .ok U64.zero
          | .ok (some valueRlp) =>
            match e.decodeU256 valueRlp with
            | none => .error "decoding storage word"
            | some balanceWord =>
              match U64.tryFrom balanceWord with
              | none => .error s!"proven USDT balance {balanceWord} overflows u64"
              | some balance => .ok balance

/-- An accepted proof carries the header of the block it was checked against. -/
theorem verifyDepositProof_header {e : Evm} {proof : DepositProof} {expected : Hash}
    {usdtContract account : EvmAddress} {proven : UsdtAmount}
    (h : e.verifyDepositProof proof expected usdtContract account = .ok proven) :
    e.keccak256 proof.headerRlp = expected := by
  unfold verifyDepositProof at h
  dsimp only at h
  split at h
  · cases h
  split at h
  · cases h
  rename_i hheader
  exact not_not.1 hheader

end Evm

end Experimint.FedimintUsdt
