import Experimint.Usdt.Server

/-!
# What a block commits to

A block hash fixes a header, the header a state root, and the state root, through two tries, one
balance of an account.  `committedBalance` reads that balance from the tries themselves; a deposit
proof is accepted for this balance and no other, whatever nodes it brings along.

* `Evm.SoundTrie` — the trie verification accepts only what the trie with that root holds.
* `Evm.provenValue_eq` — inclusion and its fallback to absence agree with the trie.
* `deposit_proof_sound` — accepted proofs return the committed balance, and so all the same.
-/

set_option autoImplicit false

namespace Experimint.FedimintUsdt

namespace Evm

/-- `trie root` is the map of the trie with that root, and verification accepts a value, or an
absence, for a key only if the map has it so. -/
def SoundTrie (e : Evm) (trie : Hash → Hash → Option Bytes) : Prop :=
  ∀ root key value nodes, e.verifyProof root key value nodes = .ok () → trie root key = value

/-- No two byte strings hash to `hash`. -/
def CollisionFreeAt (e : Evm) (hash : Hash) : Prop :=
  ∀ b b', e.keccak256 b = hash → e.keccak256 b' = hash → b = b'

/-- Token balance of `account` in the state with root `stateRoot`; zero without the contract or the
slot, `none` if it does not fit in 64 bits. -/
def committedBalance (e : Evm) (trie : Hash → Hash → Option Bytes) (stateRoot : Hash)
    (usdtContract account : EvmAddress) : Option UsdtAmount :=
  match trie stateRoot (e.keccak256 (toBeBytes 20 usdtContract.val)) with
  | none => some U64.zero
  | some accountRlp =>
    (e.decodeTrieAccount accountRlp).bind fun storageRoot =>
      match trie storageRoot (e.keccak256 (wordBytes (e.balancesStorageKey account).val)) with
      | none => some U64.zero
      | some valueRlp => (e.decodeU256 valueRlp).bind U64.tryFrom

variable {e : Evm} {trie : Hash → Hash → Option Bytes}

/-- A proven value is the trie's.  The candidate comes from the proof, but it is returned only if
verification accepts it. -/
theorem provenValue_eq (htrie : e.SoundTrie trie) {root key : Hash} {nodes : List Bytes}
    {value : Option Bytes} (h : e.provenValue root key nodes = .ok value) :
    trie root key = value := by
  have hverified : e.verifyProof root key value nodes = .ok () := by
    unfold provenValue at h
    dsimp only at h
    repeat' split at h
    all_goals cases h
    all_goals assumption
  exact htrie root key value nodes hverified

/-- An accepted proof returns the balance committed to by the header it carries. -/
theorem verifyDepositProof_committed (htrie : e.SoundTrie trie) {proof : DepositProof}
    {expected : Hash} {usdtContract account : EvmAddress} {proven : UsdtAmount}
    (h : e.verifyDepositProof proof expected usdtContract account = .ok proven) :
    ∃ stateRoot, e.decodeHeader proof.headerRlp = some stateRoot ∧
      e.committedBalance trie stateRoot usdtContract account = some proven := by
  unfold verifyDepositProof at h
  dsimp only at h
  split at h
  · cases h
  split at h
  · cases h
  split at h
  · cases h
  rename_i stateRoot hheader
  refine ⟨stateRoot, hheader, ?_⟩
  unfold committedBalance
  split at h
  · cases h
  · rename_i haccount
    rw [provenValue_eq htrie haccount]
    exact congrArg some (Except.ok.inj h)
  rename_i accountRlp haccount
  rw [provenValue_eq htrie haccount]
  dsimp only
  split at h
  · cases h
  rename_i storageRoot hroot
  rw [hroot, Option.bind_some]
  split at h
  · cases h
  · rename_i hstorage
    rw [provenValue_eq htrie hstorage]
    exact congrArg some (Except.ok.inj h)
  rename_i valueRlp hstorage
  rw [provenValue_eq htrie hstorage]
  dsimp only
  split at h
  · cases h
  rename_i word hword
  rw [hword, Option.bind_some]
  split at h
  · cases h
  · rename_i balance hbalance
    rw [hbalance]
    exact congrArg some (Except.ok.inj h)

end Evm

/-- **Deposit proofs are sound and unique.**  For a block hash that only one header has, every
accepted proof returns the balance the header's state commits to, so any two accepted proofs return
the same. -/
theorem deposit_proof_sound (e : Evm) (trie : Hash → Hash → Option Bytes) (blockHash : Hash)
    (hkeccak : e.CollisionFreeAt blockHash) (htrie : e.SoundTrie trie)
    (usdtContract account : EvmAddress) :
    (∀ proof proven, e.verifyDepositProof proof blockHash usdtContract account = .ok proven →
      ∀ header, e.keccak256 header = blockHash → ∃ stateRoot,
        e.decodeHeader header = some stateRoot ∧
          e.committedBalance trie stateRoot usdtContract account = some proven) ∧
    ∀ proof proof' proven proven',
      e.verifyDepositProof proof blockHash usdtContract account = .ok proven →
      e.verifyDepositProof proof' blockHash usdtContract account = .ok proven' →
      proven = proven' := by
  have hsound : ∀ proof proven,
      e.verifyDepositProof proof blockHash usdtContract account = .ok proven →
      ∀ header, e.keccak256 header = blockHash → ∃ stateRoot,
        e.decodeHeader header = some stateRoot ∧
          e.committedBalance trie stateRoot usdtContract account = some proven := by
    intro proof proven h header hheader
    rw [hkeccak header proof.headerRlp hheader (Evm.verifyDepositProof_header h)]
    exact Evm.verifyDepositProof_committed htrie h
  refine ⟨hsound, ?_⟩
  intro proof proof' proven proven' h h'
  have hheader := Evm.verifyDepositProof_header h'
  obtain ⟨root, hroot, hbalance⟩ := hsound proof proven h proof'.headerRlp hheader
  obtain ⟨root', hroot', hbalance'⟩ := hsound proof' proven' h' proof'.headerRlp hheader
  rw [hroot] at hroot'
  obtain rfl := Option.some.inj hroot'
  rw [hbalance] at hbalance'
  exact Option.some.inj hbalance'

namespace Sample

/-- The contract's account under state root 5, and one balance slot under storage root 6. -/
def chainTrie (root key : Hash) : Option Bytes :=
  if root = 5 ∧ key = 0 then some [1] else if root = 6 ∧ key = 0 then some [9] else none

/-- Hashing that keeps one header apart, and verification against the tries. -/
def chainEvm : Evm :=
  { sampleEvm with
    keccak256 := fun b => if b = [7] then 1 else 0
    decodeHeader := fun _ => some 5
    decodeTrieAccount := fun _ => some 6
    verifyProof := fun root key value _ =>
      if chainTrie root key = value then .ok () else .error "value mismatch" }

end Sample

/-- Two proofs with different nodes are accepted for the same block, for the balance of 9. -/
theorem deposit_proof_sound_sample :
    Sample.chainEvm.verifyDepositProof ⟨3, [7], [[1]], [[9]]⟩ 1 1 2 = .ok (U64.clamp 9) ∧
      Sample.chainEvm.verifyDepositProof ⟨3, [7], [[4], [1]], [[], [9]]⟩ 1 1 2 =
        .ok (U64.clamp 9) ∧
      Sample.chainEvm.committedBalance Sample.chainTrie 5 1 2 = some (U64.clamp 9) ∧
      ∀ proof proven, Sample.chainEvm.verifyDepositProof proof 1 1 2 = .ok proven →
        proven = U64.clamp 9 := by
  have hkeccak : Sample.chainEvm.CollisionFreeAt 1 := by
    have honly : ∀ b, Sample.chainEvm.keccak256 b = 1 → b = [7] := by
      intro b hb
      by_contra hne
      have hzero : Sample.chainEvm.keccak256 b = 0 := if_neg hne
      rw [hzero] at hb
      exact absurd hb (by decide)
    intro b b' hb hb'
    rw [honly b hb, honly b' hb']
  have htrie : Sample.chainEvm.SoundTrie Sample.chainTrie := by
    intro root key value nodes h
    by_contra hne
    have herror : Sample.chainEvm.verifyProof root key value nodes = .error "value mismatch" :=
      if_neg hne
    rw [herror] at h
    cases h
  have haccepted : Sample.chainEvm.verifyDepositProof ⟨3, [7], [[1]], [[9]]⟩ 1 1 2 =
      .ok (U64.clamp 9) := by decide +kernel
  have hsound := deposit_proof_sound Sample.chainEvm Sample.chainTrie 1 hkeccak htrie 1 2
  refine ⟨haccepted, by decide +kernel, by decide +kernel, ?_⟩
  intro proof proven h
  exact hsound.2 proof _ proven _ h haccepted

end Experimint.FedimintUsdt
