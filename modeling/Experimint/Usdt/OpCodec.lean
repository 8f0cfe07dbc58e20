import Experimint.Lib.Codec
import Experimint.Usdt.Bytes
import Experimint.Usdt.Server

/-!
# Encodings of a user operation

Two byte strings stand for an operation: its consensus encoding, which mixes fields of a fixed width
with fields the framework delimits, and the digest that is signed, a hash of words some of which are
hashes themselves.

* `consensusDecodePartial_encode`, `consensusEncode_of_decode` — encoding and decoding are inverse.
* `abiEncodeParams_inj` — words can be read back from their concatenation.
* `userOpHash_inj` — through both layers of hashing.
* `userOp_identified` — either encoding determines the operation.
-/

set_option autoImplicit false

namespace Experimint.FedimintUsdt

abbrev U128 := Fin (2 ^ 128)

/-- An unsigned operation with the widths of the source's fields and its call as bytes. -/
structure WireUserOp where
  sender : EvmAddress
  nonce : Word
  initCode : Bytes
  callData : Bytes
  verificationGasLimit : U128
  callGasLimit : U128
  preVerificationGas : Word
  maxPriorityFeePerGas : U128
  maxFeePerGas : U128
  paymasterAndData : Bytes
deriving DecidableEq

/-! ## Consensus encoding -/

/-- Big-endian bytes of one width, read with `read_exact`. -/
def beCodec (len bound : Nat) (h : bound = 256 ^ len) : Codec UInt8 (Fin bound) where
  encode n := toBeBytes len n.val
  decode bytes :=
    if hlen : len ≤ bytes.length then
      some (⟨ofBeBytes (bytes.take len), by
        have hlt := ofBeBytes_lt (bytes.take len)
        rwa [List.length_take_of_le hlen, ← h] at hlt⟩, bytes.drop len)
    else none
  decode_encode n rest := by
    have hfits : n.val < 256 ^ len := h ▸ n.isLt
    have hlen := length_toBeBytes len n.val
    rw [dif_pos (by rw [List.length_append, hlen]; omega)]
    simp only [List.take_left' hlen, List.drop_left' hlen, ofBeBytes_toBeBytes hfits]

theorem beCodec_canonical {len bound : Nat} (h : bound = 256 ^ len) :
    (beCodec len bound h).Canonical := by
  intro bytes n rest hdecode
  unfold beCodec at hdecode ⊢
  dsimp only at hdecode ⊢
  split at hdecode
  · rename_i hlen
    cases hdecode
    have htake := toBeBytes_ofBeBytes (bytes.take len)
    rw [List.length_take_of_le hlen] at htake
    rw [htake, List.take_append_drop]
  · cases hdecode

def wordCodec : Codec UInt8 Word := beCodec 32 (2 ^ 256) (by decide)

def u128Codec : Codec UInt8 U128 := beCodec 16 (2 ^ 128) (by decide)

theorem wordCodec_canonical : wordCodec.Canonical := beCodec_canonical _

theorem u128Codec_canonical : u128Codec.Canonical := beCodec_canonical _

/-- The framework's codecs for addresses and byte vectors. -/
structure FieldCodecs where
  address : Codec UInt8 EvmAddress
  byteVec : Codec UInt8 Bytes
  address_canonical : address.Canonical
  byteVec_canonical : byteVec.Canonical

variable (f : FieldCodecs)

def WireUserOp.consensusEncode (op : WireUserOp) : Bytes :=
  f.address.encode op.sender ++ wordCodec.encode op.nonce ++ f.byteVec.encode op.initCode ++
    f.byteVec.encode op.callData ++ u128Codec.encode op.verificationGasLimit ++
    u128Codec.encode op.callGasLimit ++ wordCodec.encode op.preVerificationGas ++
    u128Codec.encode op.maxPriorityFeePerGas ++ u128Codec.encode op.maxFeePerGas ++
    f.byteVec.encode op.paymasterAndData

def WireUserOp.consensusDecodePartial (d : Bytes) : Option (WireUserOp × Bytes) := do
  let (sender, d) ← f.address.decode d
  let (nonce, d) ← wordCodec.decode d
  let (initCode, d) ← f.byteVec.decode d
  let (callData, d) ← f.byteVec.decode d
  let (verificationGasLimit, d) ← u128Codec.decode d
  let (callGasLimit, d) ← u128Codec.decode d
  let (preVerificationGas, d) ← wordCodec.decode d
  let (maxPriorityFeePerGas, d) ← u128Codec.decode d
  let (maxFeePerGas, d) ← u128Codec.decode d
  let (paymasterAndData, d) ← f.byteVec.decode d
  some (⟨sender, nonce, initCode, callData, verificationGasLimit, callGasLimit, preVerificationGas,
    maxPriorityFeePerGas, maxFeePerGas, paymasterAndData⟩, d)

theorem consensusDecodePartial_encode (op : WireUserOp) (rest : Bytes) :
    WireUserOp.consensusDecodePartial f (op.consensusEncode f ++ rest) = some (op, rest) := by
  simp only [WireUserOp.consensusDecodePartial, WireUserOp.consensusEncode, List.append_assoc,
    Codec.decode_encode, Option.bind_eq_bind, Option.bind_some]

variable {f}

theorem consensusEncode_of_decode {bytes rest : Bytes} {op : WireUserOp}
    (h : WireUserOp.consensusDecodePartial f bytes = some (op, rest)) :
    bytes = op.consensusEncode f ++ rest := by
  simp only [WireUserOp.consensusDecodePartial, Option.bind_eq_bind, Option.bind_eq_some_iff] at h
  obtain ⟨⟨sender, d₁⟩, h₁, ⟨nonce, d₂⟩, h₂, ⟨initCode, d₃⟩, h₃, ⟨callData, d₄⟩, h₄, ⟨vgl, d₅⟩, h₅,
    ⟨cgl, d₆⟩, h₆, ⟨pvg, d₇⟩, h₇, ⟨priority, d₈⟩, h₈, ⟨fee, d₉⟩, h₉, ⟨paymaster, d⟩, h₁₀, hop⟩ := h
  dsimp only at h₂ h₃ h₄ h₅ h₆ h₇ h₈ h₉ h₁₀ hop
  cases hop
  simp only [WireUserOp.consensusEncode, List.append_assoc]
  rw [← f.byteVec_canonical _ _ _ h₁₀, ← u128Codec_canonical _ _ _ h₉,
    ← u128Codec_canonical _ _ _ h₈, ← wordCodec_canonical _ _ _ h₇, ← u128Codec_canonical _ _ _ h₆,
    ← u128Codec_canonical _ _ _ h₅, ← f.byteVec_canonical _ _ _ h₄, ← f.byteVec_canonical _ _ _ h₃,
    ← wordCodec_canonical _ _ _ h₂]
  exact f.address_canonical _ _ _ h₁

/-! ## The digest -/

/-- The operation as the entry point takes it. -/
structure PackedUserOperation where
  sender : EvmAddress
  nonce : Word
  initCode : Bytes
  callData : Bytes
  accountGasLimits : Bytes
  preVerificationGas : Word
  gasFees : Bytes
  paymasterAndData : Bytes
  signature : Bytes

def WireUserOp.pack (op : WireUserOp) : PackedUserOperation where
  sender := op.sender
  nonce := op.nonce
  initCode := op.initCode
  callData := op.callData
  accountGasLimits := Evm.packHiLo op.verificationGasLimit.val op.callGasLimit.val
  preVerificationGas := op.preVerificationGas
  gasFees := Evm.packHiLo op.maxPriorityFeePerGas.val op.maxFeePerGas.val
  paymasterAndData := op.paymasterAndData
  signature := []

/-- ABI encoding of static words: one after the other. -/
def abiEncodeParams (words : List Bytes) : Bytes := words.flatten

variable (e : Evm)

def WireUserOp.innerWords (op : WireUserOp) : List Bytes :=
  let packed := op.pack
  [wordBytes packed.sender.val, wordBytes packed.nonce.val,
    wordBytes (e.keccak256 packed.initCode).val, wordBytes (e.keccak256 packed.callData).val,
    packed.accountGasLimits, wordBytes packed.preVerificationGas.val, packed.gasFees,
    wordBytes (e.keccak256 packed.paymasterAndData).val]

def WireUserOp.innerHash (op : WireUserOp) : Hash := e.keccak256 (abiEncodeParams (op.innerWords e))

def WireUserOp.outerWords (op : WireUserOp) (entryPoint : EvmAddress) (chainId : U64) :
    List Bytes :=
  [wordBytes (op.innerHash e).val, wordBytes entryPoint.val, wordBytes chainId.raw]

def WireUserOp.userOpHash (op : WireUserOp) (entryPoint : EvmAddress) (chainId : U64) : Hash :=
  e.keccak256 (abiEncodeParams (op.outerWords e entryPoint chainId))

/-- The same operation with its call as a value. -/
def WireUserOp.withCall (op : WireUserOp) (call : AccountCall) : UnsignedUserOp where
  sender := op.sender
  nonce := op.nonce.val
  initCode := op.initCode
  callData := call
  verificationGasLimit := op.verificationGasLimit.val
  callGasLimit := op.callGasLimit.val
  preVerificationGas := op.preVerificationGas.val
  maxPriorityFeePerGas := op.maxPriorityFeePerGas.val
  maxFeePerGas := op.maxFeePerGas.val
  paymasterAndData := op.paymasterAndData

/-- The digest of `UserOp` is this one. -/
theorem userOpHash_withCall {op : WireUserOp} {call : AccountCall}
    (h : e.encodeAccountCall call = op.callData) (entryPoint : EvmAddress) (chainId : U64) :
    e.userOpHash (op.withCall call) entryPoint chainId.raw =
      op.userOpHash e entryPoint chainId := by
  simp [Evm.userOpHash, WireUserOp.withCall, WireUserOp.userOpHash, WireUserOp.outerWords,
    WireUserOp.innerHash, WireUserOp.innerWords, WireUserOp.pack, abiEncodeParams, h]

/-! ## The digest determines the operation -/

variable {e}

theorem wordBytes_inj {bound : Nat} (hbound : bound ≤ 256 ^ 32) {a b : Fin bound}
    (h : wordBytes a.val = wordBytes b.val) : a = b :=
  Fin.ext (toBeBytes_inj h (a.isLt.trans_le hbound) (b.isLt.trans_le hbound))

theorem packHiLo_inj {hi lo hi' lo' : U128}
    (h : Evm.packHiLo hi.val lo.val = Evm.packHiLo hi'.val lo'.val) : hi = hi' ∧ lo = lo' := by
  have hfits (n : U128) : n.val < 256 ^ 16 := n.isLt
  obtain ⟨hhi, hlo⟩ := List.append_inj h (by rw [length_toBeBytes, length_toBeBytes])
  exact ⟨Fin.ext (toBeBytes_inj hhi (hfits _) (hfits _)),
    Fin.ext (toBeBytes_inj hlo (hfits _) (hfits _))⟩

/-- Words can be read back from their concatenation. -/
theorem abiEncodeParams_inj {as bs : List Bytes} (hlen : as.length = bs.length)
    (has : ∀ w ∈ as, w.length = 32) (hbs : ∀ w ∈ bs, w.length = 32)
    (h : abiEncodeParams as = abiEncodeParams bs) : as = bs := by
  have hword : SelfDelimitingOn (fun w : Bytes => w.length = 32) id :=
    fun a b s t ha hb heq => List.append_inj heq (ha.trans hb.symm)
  unfold abiEncodeParams at h
  refine (hword.flatMap hlen has hbs (s := []) (t := []) ?_).1
  rw [List.append_nil, List.append_nil, List.flatMap_id, List.flatMap_id, h]

theorem length_wordBytes (n : Nat) : (wordBytes n).length = 32 := length_toBeBytes 32 n

theorem length_packHiLo (hi lo : Nat) : (Evm.packHiLo hi lo).length = 32 := by
  rw [Evm.packHiLo, List.length_append, length_toBeBytes, length_toBeBytes]

theorem length_innerWords (op : WireUserOp) : (op.innerWords e).length = 8 := rfl

theorem length_outerWords (op : WireUserOp) (entryPoint : EvmAddress) (chainId : U64) :
    (op.outerWords e entryPoint chainId).length = 3 := rfl

theorem innerWords_width (op : WireUserOp) : ∀ w ∈ op.innerWords e, w.length = 32 := by
  simp only [WireUserOp.innerWords, WireUserOp.pack, List.forall_mem_cons, length_wordBytes,
    length_packHiLo, true_and, List.not_mem_nil, false_implies, implies_true]

theorem outerWords_width (op : WireUserOp) (entryPoint : EvmAddress) (chainId : U64) :
    ∀ w ∈ op.outerWords e entryPoint chainId, w.length = 32 := by
  simp only [WireUserOp.outerWords, List.forall_mem_cons, length_wordBytes, true_and,
    List.not_mem_nil, false_implies, implies_true]

/-- The strings hashed for the digest of an operation. -/
def WireUserOp.hashed (e : Evm) (op : WireUserOp) (entryPoint : EvmAddress) (chainId : U64) :
    List Bytes :=
  [op.initCode, op.callData, op.paymasterAndData, abiEncodeParams (op.innerWords e),
    abiEncodeParams (op.outerWords e entryPoint chainId)]

theorem inner_mem_hashed {op : WireUserOp} {entryPoint : EvmAddress} {chainId : U64} :
    abiEncodeParams (op.innerWords e) ∈ op.hashed e entryPoint chainId := by
  simp [WireUserOp.hashed]

theorem outer_mem_hashed {op : WireUserOp} {entryPoint : EvmAddress} {chainId : U64} :
    abiEncodeParams (op.outerWords e entryPoint chainId) ∈ op.hashed e entryPoint chainId := by
  simp [WireUserOp.hashed]

/-- No two of the strings have one digest. -/
def CollisionFree (e : Evm) (strings : List Bytes) : Prop :=
  ∀ s ∈ strings, ∀ t ∈ strings, e.keccak256 s = e.keccak256 t → s = t

instance CollisionFree.decidable (e : Evm) (strings : List Bytes) :
    Decidable (CollisionFree e strings) :=
  inferInstanceAs (Decidable (∀ s ∈ strings, ∀ t ∈ strings, e.keccak256 s = e.keccak256 t → s = t))

section Injective

variable {a b : WireUserOp} {e₁ e₂ : EvmAddress} {c₁ c₂ : U64}

theorem innerWords_inj
    (hfree : CollisionFree e (a.hashed e e₁ c₁ ++ b.hashed e e₂ c₂))
    (h : a.innerWords e = b.innerWords e) : a = b := by
  have hhash {s t : Bytes} (hs : s ∈ a.hashed e e₁ c₁) (ht : t ∈ b.hashed e e₂ c₂)
      (hst : wordBytes (e.keccak256 s).val = wordBytes (e.keccak256 t).val) : s = t :=
    hfree s (List.mem_append_left _ hs) t (List.mem_append_right _ ht)
      (wordBytes_inj (by decide) hst)
  simp only [WireUserOp.innerWords, WireUserOp.pack, List.cons.injEq, and_true] at h
  obtain ⟨hsender, hnonce, hinit, hcall, hlimits, hgas, hfees, hpaymaster⟩ := h
  obtain ⟨hvgl, hcgl⟩ := packHiLo_inj hlimits
  obtain ⟨hpriority, hfee⟩ := packHiLo_inj hfees
  have hsender := wordBytes_inj (by decide) hsender
  have hnonce := wordBytes_inj (by decide) hnonce
  have hgas := wordBytes_inj (by decide) hgas
  have hinit := hhash (by simp [WireUserOp.hashed]) (by simp [WireUserOp.hashed]) hinit
  have hcall := hhash (by simp [WireUserOp.hashed]) (by simp [WireUserOp.hashed]) hcall
  have hpaymaster := hhash (by simp [WireUserOp.hashed]) (by simp [WireUserOp.hashed]) hpaymaster
  cases a
  cases b
  simp_all

/-- **The digest determines the operation, the entry point and the chain.** -/
theorem userOpHash_inj
    (hfree : CollisionFree e (a.hashed e e₁ c₁ ++ b.hashed e e₂ c₂))
    (h : a.userOpHash e e₁ c₁ = b.userOpHash e e₂ c₂) : a = b ∧ e₁ = e₂ ∧ c₁ = c₂ := by
  have houter : a.outerWords e e₁ c₁ = b.outerWords e e₂ c₂ :=
    abiEncodeParams_inj (by rw [length_outerWords, length_outerWords])
      (outerWords_width a e₁ c₁) (outerWords_width b e₂ c₂)
      (hfree _ (List.mem_append_left _ outer_mem_hashed) _
        (List.mem_append_right _ outer_mem_hashed) h)
  simp only [WireUserOp.outerWords, List.cons.injEq, and_true] at houter
  obtain ⟨hdigest, hentry, hchain⟩ := houter
  have hinner : a.innerWords e = b.innerWords e :=
    abiEncodeParams_inj (by rw [length_innerWords, length_innerWords])
      (innerWords_width a) (innerWords_width b)
      (hfree _ (List.mem_append_left _ inner_mem_hashed) _
        (List.mem_append_right _ inner_mem_hashed) (wordBytes_inj (by decide) hdigest))
  refine ⟨innerWords_inj hfree hinner, wordBytes_inj (by decide) hentry, ?_⟩
  have hfits (c : U64) : c.raw < 256 ^ 32 := c.le_max.trans_lt (by decide)
  exact U64.ext (toBeBytes_inj hchain (hfits _) (hfits _))

end Injective

/-- **Both encodings determine the operation.**  The consensus encoding is read back in front of
anything, and what is read back re-encodes to the bytes consumed; the digest determines the
operation, its entry point and its chain. -/
theorem userOp_identified (f : FieldCodecs) (e : Evm) :
    (∀ (op : WireUserOp) rest,
      WireUserOp.consensusDecodePartial f (op.consensusEncode f ++ rest) = some (op, rest)) ∧
    (∀ bytes op rest, WireUserOp.consensusDecodePartial f bytes = some (op, rest) →
      bytes = op.consensusEncode f ++ rest) ∧
    ∀ (a b : WireUserOp) e₁ e₂ c₁ c₂,
      CollisionFree e (a.hashed e e₁ c₁ ++ b.hashed e e₂ c₂) →
      a.userOpHash e e₁ c₁ = b.userOpHash e e₂ c₂ → a = b ∧ e₁ = e₂ ∧ c₁ = c₂ :=
  ⟨consensusDecodePartial_encode f, fun _ _ _ => consensusEncode_of_decode,
    fun _ _ _ _ _ _ => userOpHash_inj⟩

/-! ## A sample -/

def sampleFieldCodecs : FieldCodecs where
  address := beCodec 20 (2 ^ 160) (by decide)
  byteVec := .stuffed
  address_canonical := beCodec_canonical _
  byteVec_canonical := Codec.stuffed_canonical

def sampleWireOp : WireUserOp := ⟨1, 0, [1, 2], [3], 100, 200, 300, 4, 5, []⟩

theorem userOp_identified_sample :
    CollisionFree sampleEvm (sampleWireOp.hashed sampleEvm 2 ⟨1, by decide⟩ ++
        { sampleWireOp with maxFeePerGas := 6 }.hashed sampleEvm 2 ⟨1, by decide⟩) ∧
      sampleWireOp.userOpHash sampleEvm 2 ⟨1, by decide⟩ ≠
        { sampleWireOp with maxFeePerGas := 6 }.userOpHash sampleEvm 2 ⟨1, by decide⟩ ∧
      WireUserOp.consensusDecodePartial sampleFieldCodecs
        (sampleWireOp.consensusEncode sampleFieldCodecs ++ [9]) = some (sampleWireOp, [9]) := by
  have hfree : CollisionFree sampleEvm (sampleWireOp.hashed sampleEvm 2 ⟨1, by decide⟩ ++
      { sampleWireOp with maxFeePerGas := 6 }.hashed sampleEvm 2 ⟨1, by decide⟩) := by
    decide +kernel
  obtain ⟨hdecode, -, hinj⟩ := userOp_identified sampleFieldCodecs sampleEvm
  refine ⟨hfree, fun h => ?_, hdecode _ _⟩
  have hfee := congrArg WireUserOp.maxFeePerGas (hinj _ _ _ _ _ _ hfree h).1
  exact absurd hfee (by decide)

end Experimint.FedimintUsdt
