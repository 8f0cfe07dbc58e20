import Mathlib.Logic.Equiv.List
import Mathlib.Tactic.DeriveCountable
import Mathlib.Tactic.IntervalCases
import Experimint.Lib.Codec
import Experimint.Lib.Keyset
import Experimint.Lib.Upgrade
import Experimint.Usdt.Bytes
import Experimint.Usdt.Server

/-!
# Database migrations

The database as it is stored: byte rows under keys that begin with their table's byte.  Each
migration drops the rows of tables that are voted on anew or no longer exist, or appends the
encoding of a default to the rows of a record that gained a last field.

* `Fields` are the framework's codecs of the field types; a record is written field after field.
* `migrateDbV0` to `migrateDbV5` are the six steps, `migrate` runs those from a version on.
* `acts_migrate` : what the chain does to a row depends on the first byte of its key only.
* `migrations_keep_obligations` : no obligation is lost or changed from any version on.
-/

set_option autoImplicit false

namespace Experimint.FedimintUsdt

/-! ## Tables -/

/-- First byte of every key of a table. -/
inductive DbKeyPrefix
  | blockCountVote
  | feeVote
  | depositRecord
  | signingSession
  | mpcRoundChunk
  | pendingUserOp
  | submittedUserOp
  | poolState
  | userOpConfirmedVote
  | unclaimedWithdrawal
  | withdrawalState
  | bootstrapVote
  | hasEverBeenReady
  | withdrawalBatchCap
  | refund
  | withdrawalIncurredFee
  | blockHashRing
  | blockHashVote
  | recoverResidualVote
  | withdrawFeesVote
deriving DecidableEq

def DbKeyPrefix.byte : DbKeyPrefix → UInt8
  | .blockCountVote => 0x01
  | .feeVote => 0x02
  | .depositRecord => 0x03
  | .signingSession => 0x06
  | .mpcRoundChunk => 0x07
  | .pendingUserOp => 0x08
  | .submittedUserOp => 0x09
  | .poolState => 0x0A
  | .userOpConfirmedVote => 0x0B
  | .unclaimedWithdrawal => 0x0C
  | .withdrawalState => 0x0D
  | .bootstrapVote => 0x0E
  | .hasEverBeenReady => 0x0F
  | .withdrawalBatchCap => 0x10
  | .refund => 0x11
  | .withdrawalIncurredFee => 0x12
  | .blockHashRing => 0x13
  | .blockHashVote => 0x14
  | .recoverResidualVote => 0x15
  | .withdrawFeesVote => 0x16

def REMOVED_DEPOSIT_OBSERVATION_VOTE_PREFIX : UInt8 := 0x04

def REMOVED_PENDING_CHECK_PREFIX : UInt8 := 0x05

/-- The module's database as it is stored. -/
abbrev RawDb := Table Bytes Bytes

def startsWith (p : UInt8) (k : Bytes) : Bool := decide (k.head? = some p)

def rawRemoveByPrefix (raw : RawDb) (p : UInt8) : RawDb := raw.eraseWhere (startsWith p)

/-- Appends bytes to every row of a table. -/
def appendByPrefix (raw : RawDb) (p : UInt8) (bytes : Bytes) : RawDb :=
  raw.rewriteWhere (startsWith p) (· ++ bytes)

/-! ## Records -/

/-- The point without a known discrete logarithm that stands for a missing refund key. -/
def LEGACY_REFUND_PLACEHOLDER_PUBKEY : Bytes :=
  [0x02, 0x50, 0x92, 0x9b, 0x74, 0xc1, 0xa0, 0x49, 0x54, 0xb7, 0x8b, 0x4b, 0x60, 0x35, 0xe9, 0x7a,
    0x5e, 0x07, 0x8a, 0x5a, 0x0f, 0x28, 0xec, 0x96, 0xd5, 0x47, 0xbf, 0xee, 0x9a, 0xce, 0x80, 0x3a,
    0xc0]

def placeholderKey : PublicKey where
  odd := false
  x := ⟨0x50929b74c1a04954b78b4b6035e97a5e078a5a0f28ec96d547bfee9ace803ac0, by decide⟩

/-- The framework's codecs of the fields' types. -/
structure Fields where
  publicKey : Codec UInt8 PublicKey
  amount : Codec UInt8 UsdtAmount
  u64 : Codec UInt8 Nat
  address : Codec UInt8 EvmAddress
  signedUserOp : Codec UInt8 SignedUserOp
  purpose : Codec UInt8 UserOpPurpose
  bool : Codec UInt8 Bool
  string : Codec UInt8 String
  bool_false : bool.encode false = [0]
  publicKey_placeholder : publicKey.encode placeholderKey = LEGACY_REFUND_PLACEHOLDER_PUBKEY

namespace Fields

variable (c : Fields)

def depositRecord : Layout UInt8 DepositRecord where
  Kept := PublicKey × UsdtAmount × UsdtAmount × Nat × UsdtAmount × Nat
  Added := UsdtAmount
  kept := c.publicKey.pair (c.amount.pair (c.amount.pair (c.u64.pair (c.amount.pair c.u64))))
  added := c.amount
  split :=
    { toFun := fun ((pk, credited, claimed, block, swept, nonce), fees) =>
        ⟨pk, credited, claimed, block, swept, nonce, fees⟩
      invFun := fun r => ((r.claimPk, r.credited, r.claimed, r.lastObservedBlock, r.swept, r.nonce),
        r.feesAccrued)
      left_inv := fun _ => rfl
      right_inv := fun _ => rfl }
  last := 5
  fill := U64.zero

def poolState : Layout UInt8 PoolState where
  Kept := EvmAddress × UsdtAmount × Nat
  Added := UsdtAmount
  kept := c.address.pair (c.amount.pair c.u64)
  added := c.amount
  split :=
    { toFun := fun ((account, balance, nonce), fees) => ⟨account, balance, nonce, fees⟩
      invFun := fun r => ((r.account, r.balance, r.nonce), r.accruedFees)
      left_inv := fun _ => rfl
      right_inv := fun _ => rfl }
  last := 5
  fill := U64.zero

def unclaimedWithdrawal : Layout UInt8 UsdtWithdrawalV0 where
  Kept := EvmAddress × UsdtAmount × UsdtAmount × Nat
  Added := PublicKey
  kept := c.address.pair (c.amount.pair (c.amount.pair c.u64))
  added := c.publicKey
  split :=
    { toFun := fun ((recipient, amount, maxFee, block), pk) => ⟨recipient, amount, maxFee, block, pk⟩
      invFun := fun r => ((r.recipient, r.amount, r.maxFee, r.requestedBlock), r.refundPubkey)
      left_inv := fun _ => rfl
      right_inv := fun _ => rfl }
  last := 3
  fill := placeholderKey

def submittedUserOp : Layout UInt8 SubmittedUserOp where
  Kept := SignedUserOp × UserOpPurpose × Nat
  Added := Bool
  kept := c.signedUserOp.pair (c.purpose.pair c.u64)
  added := c.bool
  split :=
    { toFun := fun ((signed, purpose, block), superseded) => ⟨signed, purpose, block, superseded⟩
      invFun := fun r => ((r.signed, r.purpose, r.submittedBlock), r.superseded)
      left_inv := fun _ => rfl
      right_inv := fun _ => rfl }
  last := 2
  fill := false

def refund : Codec UInt8 Refund :=
  (c.amount.pair (c.publicKey.pair c.string)).map
    { toFun := fun (amount, pk, reason) => ⟨amount, pk, reason⟩
      invFun := fun r => (r.amount, r.refundPubkey, r.reason)
      left_inv := fun _ => rfl
      right_inv := fun _ => rfl }

end Fields

/-! ## The migrations -/

def migrateDbV0 (raw : RawDb) : RawDb := rawRemoveByPrefix raw DbKeyPrefix.feeVote.byte

def migrateDbV1 (raw : RawDb) : RawDb :=
  rawRemoveByPrefix (rawRemoveByPrefix raw REMOVED_DEPOSIT_OBSERVATION_VOTE_PREFIX)
    DbKeyPrefix.userOpConfirmedVote.byte

def migrateDbV2 (raw : RawDb) : RawDb := appendByPrefix raw DbKeyPrefix.submittedUserOp.byte [0]

def migrateDbV3 (raw : RawDb) : RawDb :=
  appendByPrefix (rawRemoveByPrefix raw DbKeyPrefix.userOpConfirmedVote.byte)
    DbKeyPrefix.unclaimedWithdrawal.byte LEGACY_REFUND_PLACEHOLDER_PUBKEY

def migrateDbV4 (raw : RawDb) : RawDb := rawRemoveByPrefix raw REMOVED_PENDING_CHECK_PREFIX

def migrateDbV5 (c : Fields) (raw : RawDb) : RawDb :=
  let zero := c.amount.encode U64.zero
  [DbKeyPrefix.depositRecord.byte, DbKeyPrefix.poolState.byte].foldl
    (fun raw p => appendByPrefix raw p zero) raw

/-- The migration out of each version. -/
def databaseMigrations (c : Fields) : List (RawDb → RawDb) :=
  [migrateDbV0, migrateDbV1, migrateDbV2, migrateDbV3, migrateDbV4, migrateDbV5 c]

/-- Runs the migrations from version `v` on, in order. -/
def migrate (c : Fields) (v : Nat) (raw : RawDb) : RawDb :=
  ((databaseMigrations c).drop v).foldl (fun raw migration => migration raw) raw

/-- The version of the current schema. -/
def CURRENT_VERSION : Nat := 6

/-! ## Audit -/

/-- Adds up the entries of a table; `none` if a row does not decode. -/
def addItems {α : Type} (raw : RawDb) (p : DbKeyPrefix) (read : Bytes → Option α)
    (entry : α → Int) : Option Int :=
  ((raw.scan (startsWith p.byte)).mapM fun row => (read row.2).map entry).map List.sum

/-- The balance sheet over the stored rows, read in the schema of version `v`. -/
def rawAudit (c : Fields) (v : Nat) (raw : RawDb) : Option Int := do
  let deposits ← addItems raw .depositRecord (c.depositRecord.parseAt v)
    fun r => auditEntry (U64.satSub r.credited r.swept)
  let pool ← addItems raw .poolState (c.poolState.parseAt v) fun r => auditEntry r.balance
  let withdrawals ← addItems raw .unclaimedWithdrawal (c.unclaimedWithdrawal.parseAt v)
    fun r => -auditEntry r.amount
  let refunds ← addItems raw .refund c.refund.parse fun r => -auditEntry r.amount
  some (deposits + pool + withdrawals + refunds)

/-! ## What the chain does to a row -/

/-- The edit of each migration, by the first byte of the key. -/
def migrationEdits (c : Fields) : List (Edit (Option UInt8) UInt8) :=
  [.dropTag (some DbKeyPrefix.feeVote.byte),
    (Edit.dropTag (some REMOVED_DEPOSIT_OBSERVATION_VOTE_PREFIX)).andThen
      (.dropTag (some DbKeyPrefix.userOpConfirmedVote.byte)),
    .appendTag (some DbKeyPrefix.submittedUserOp.byte) [0],
    (Edit.dropTag (some DbKeyPrefix.userOpConfirmedVote.byte)).andThen
      (.appendTag (some DbKeyPrefix.unclaimedWithdrawal.byte) LEGACY_REFUND_PLACEHOLDER_PUBKEY),
    .dropTag (some REMOVED_PENDING_CHECK_PREFIX),
    (Edit.appendTag (some DbKeyPrefix.depositRecord.byte) (c.amount.encode U64.zero)).andThen
      (.appendTag (some DbKeyPrefix.poolState.byte) (c.amount.encode U64.zero))]

/-- The edits of the migrations from version `v` on, taken together. -/
def editFrom (c : Fields) (v : Nat) : Edit (Option UInt8) UInt8 :=
  ((migrationEdits c).drop v).foldr Edit.andThen .skip

theorem acts_rawRemoveByPrefix (p : UInt8) :
    Edit.Acts List.head? (.dropTag (some p)) (rawRemoveByPrefix · p) :=
  Edit.acts_eraseWhere (some p)

theorem acts_appendByPrefix (p : UInt8) (bytes : Bytes) :
    Edit.Acts List.head? (.appendTag (some p) bytes) (appendByPrefix · p bytes) :=
  Edit.acts_rewriteWhere (some p) bytes

theorem acts_databaseMigrations (c : Fields) :
    List.Forall₂ (Edit.Acts List.head?) (migrationEdits c) (databaseMigrations c) := by
  refine .cons ?_ (.cons ?_ (.cons ?_ (.cons ?_ (.cons ?_ (.cons ?_ .nil)))))
  · exact acts_rawRemoveByPrefix _
  · exact (acts_rawRemoveByPrefix _).andThen (acts_rawRemoveByPrefix _)
  · exact acts_appendByPrefix _ _
  · exact (acts_rawRemoveByPrefix _).andThen (acts_appendByPrefix _ _)
  · exact acts_rawRemoveByPrefix _
  · exact (acts_appendByPrefix _ _).andThen (acts_appendByPrefix _ _)

/-- **What the migrations do to a row depends on the first byte of its key only.** -/
theorem acts_migrate (c : Fields) (v : Nat) : Edit.Acts List.head? (editFrom c v) (migrate c v) :=
  Edit.Acts.run (List.forall₂_drop v (acts_databaseMigrations c))

theorem get?_migrate (c : Fields) (v : Nat) (raw : RawDb) (k : Bytes) :
    (migrate c v raw).get? k = if (editFrom c v).drop k.head? then none
      else (raw.get? k).map (· ++ (editFrom c v).tail k.head?) :=
  acts_migrate c v raw k

/-- A table whose rows the migrations complete: none is dropped, and each gets the field it lacks.
-/
structure Completes (c : Fields) (v : Nat) (p : DbKeyPrefix) {ρ : Type} (l : Layout UInt8 ρ) :
    Prop where
  kept : (editFrom c v).drop (some p.byte) = false
  completed : (editFrom c v).tail (some p.byte) = l.missing v

-- the chain is evaluated once for each version; the tables' bytes are distinct
theorem completes_depositRecord (c : Fields) {v : Nat} (hv : v ≤ 5) :
    Completes c v .depositRecord c.depositRecord := by
  constructor <;> interval_cases v <;>
    simp [editFrom, migrationEdits, Edit.andThen, Edit.dropTag, Edit.appendTag, Edit.skip,
      DbKeyPrefix.byte, REMOVED_DEPOSIT_OBSERVATION_VOTE_PREFIX, REMOVED_PENDING_CHECK_PREFIX,
      Layout.missing, Fields.depositRecord]

theorem completes_poolState (c : Fields) {v : Nat} (hv : v ≤ 5) :
    Completes c v .poolState c.poolState := by
  constructor <;> interval_cases v <;>
    simp [editFrom, migrationEdits, Edit.andThen, Edit.dropTag, Edit.appendTag, Edit.skip,
      DbKeyPrefix.byte, REMOVED_DEPOSIT_OBSERVATION_VOTE_PREFIX, REMOVED_PENDING_CHECK_PREFIX,
      Layout.missing, Fields.poolState]

theorem completes_unclaimedWithdrawal (c : Fields) {v : Nat} (hv : v ≤ 5) :
    Completes c v .unclaimedWithdrawal c.unclaimedWithdrawal := by
  constructor <;> interval_cases v <;>
    simp [editFrom, migrationEdits, Edit.andThen, Edit.dropTag, Edit.appendTag, Edit.skip,
      DbKeyPrefix.byte, REMOVED_DEPOSIT_OBSERVATION_VOTE_PREFIX, REMOVED_PENDING_CHECK_PREFIX,
      Layout.missing, Fields.unclaimedWithdrawal, c.publicKey_placeholder]

theorem completes_submittedUserOp (c : Fields) {v : Nat} (hv : v ≤ 5) :
    Completes c v .submittedUserOp c.submittedUserOp := by
  constructor <;> interval_cases v <;>
    simp [editFrom, migrationEdits, Edit.andThen, Edit.dropTag, Edit.appendTag, Edit.skip,
      DbKeyPrefix.byte, REMOVED_DEPOSIT_OBSERVATION_VOTE_PREFIX, REMOVED_PENDING_CHECK_PREFIX,
      Layout.missing, Fields.submittedUserOp, c.bool_false]

/-- The tables a migration touches: those it drops and those it completes. -/
def touchedBytes : List UInt8 :=
  [DbKeyPrefix.feeVote.byte, REMOVED_DEPOSIT_OBSERVATION_VOTE_PREFIX,
    DbKeyPrefix.userOpConfirmedVote.byte, REMOVED_PENDING_CHECK_PREFIX,
    DbKeyPrefix.depositRecord.byte, DbKeyPrefix.poolState.byte,
    DbKeyPrefix.unclaimedWithdrawal.byte, DbKeyPrefix.submittedUserOp.byte]

theorem editFrom_untouched (c : Fields) {v : Nat} (hv : v ≤ 5) {x : Option UInt8}
    (hx : ∀ p ∈ touchedBytes, x ≠ some p) :
    (editFrom c v).drop x = false ∧ (editFrom c v).tail x = [] := by
  simp only [touchedBytes, List.forall_mem_cons] at hx
  obtain ⟨h1, h2, h3, h4, h5, h6, h7, h8, -⟩ := hx
  constructor <;> interval_cases v <;>
    simp [editFrom, migrationEdits, Edit.andThen, Edit.dropTag, Edit.appendTag, Edit.skip,
      h1, h2, h3, h4, h5, h6, h7, h8]

/-! ## Rows of a version -/

/-- Every row of a table has been written by this encoding. -/
def Writes (raw : RawDb) (p : DbKeyPrefix) {ρ : Type} (encode : ρ → Bytes) : Prop :=
  ∀ k b, k.head? = some p.byte → raw.get? k = some b → ∃ r, b = encode r

/-- A database of version `v`: the rows of the records that carry obligations are written in that
version's encodings. -/
structure WrittenAt (c : Fields) (v : Nat) (raw : RawDb) : Prop where
  depositRecord : Writes raw .depositRecord (c.depositRecord.encodeAt v)
  poolState : Writes raw .poolState (c.poolState.encodeAt v)
  unclaimedWithdrawal : Writes raw .unclaimedWithdrawal (c.unclaimedWithdrawal.encodeAt v)
  submittedUserOp : Writes raw .submittedUserOp (c.submittedUserOp.encodeAt v)
  refund : Writes raw .refund c.refund.encode

/-- Both databases have the same keys in a table, and a row that held `r` in version `v` decodes as
`grown r` in the current schema. -/
def Carried (raw final : RawDb) (v : Nat) (p : DbKeyPrefix) {ρ : Type} (l : Layout UInt8 ρ)
    (grown : ρ → ρ) : Prop :=
  ∀ k, k.head? = some p.byte → (raw.get? k = none ∧ final.get? k = none) ∨
    ∃ r b, raw.get? k = some (l.encodeAt v r) ∧ final.get? k = some b ∧
      l.current.parse b = some (grown r)

section Tables

variable {c : Fields} {v : Nat} {raw : RawDb} {p : DbKeyPrefix} {ρ : Type} {l : Layout UInt8 ρ}

theorem Completes.get?_migrate (h : Completes c v p l) {k : Bytes} (hk : k.head? = some p.byte) :
    (migrate c v raw).get? k = (raw.get? k).map (· ++ l.missing v) := by
  rw [FedimintUsdt.get?_migrate, hk, h.kept, h.completed]
  rfl

theorem Completes.carried (h : Completes c v p l) (hraw : Writes raw p (l.encodeAt v)) :
    Carried raw (migrate c v raw) v p l (l.grow v) := by
  intro k hk
  rw [h.get?_migrate hk]
  cases hrow : raw.get? k with
  | none => exact .inl ⟨rfl, rfl⟩
  | some b =>
    obtain ⟨r, rfl⟩ := hraw k b hk hrow
    exact .inr ⟨r, _, rfl, rfl, l.parse_append v r⟩

theorem mem_scan_startsWith {row : Bytes × Bytes} (h : row ∈ raw.scan (startsWith p.byte)) :
    row.1.head? = some p.byte ∧ raw.get? row.1 = some row.2 := by
  obtain ⟨hmem, hhead⟩ := List.mem_filter.1 h
  exact ⟨of_decide_eq_true hhead, Table.mem_rows.1 hmem⟩

theorem mapM_congr_mem {α β : Type} {f g : α → Option β} {rows : List α}
    (h : ∀ row ∈ rows, f row = g row) : rows.mapM f = rows.mapM g := by
  induction rows with
  | nil => rfl
  | cons row rest ih =>
    obtain ⟨hrow, hrest⟩ := List.forall_mem_cons.1 h
    rw [List.mapM_cons, List.mapM_cons, hrow, ih hrest]

/-- A table whose rows all decode has a total. -/
theorem addItems_isSome {α : Type} {read : Bytes → Option α} (entry : α → Int)
    (h : ∀ k b, k.head? = some p.byte → raw.get? k = some b → (read b).isSome) :
    (addItems raw p read entry).isSome := by
  rw [addItems, Option.isSome_map]
  refine mapM_isSome fun row hrow => ?_
  obtain ⟨hhead, hget⟩ := mem_scan_startsWith hrow
  rw [Option.isSome_map]
  exact h _ _ hhead hget

/-- Completing the rows of a table does not change its total. -/
theorem Completes.addItems_eq (h : Completes c v p l) (hv : l.last < CURRENT_VERSION)
    (hraw : Writes raw p (l.encodeAt v)) (entry : ρ → Int) :
    addItems (migrate c v raw) p (l.parseAt CURRENT_VERSION) entry =
      addItems raw p (l.parseAt v) entry := by
  have hscan : (migrate c v raw).scan (startsWith p.byte) =
      (raw.scan (startsWith p.byte)).map fun row => (row.1, row.2 ++ l.missing v) :=
    Table.scan_map fun k hk => h.get?_migrate (of_decide_eq_true hk)
  rw [addItems, addItems, hscan, List.mapM_map]
  congr 1
  refine mapM_congr_mem fun row hrow => ?_
  obtain ⟨hhead, hget⟩ := mem_scan_startsWith hrow
  obtain ⟨r, hr⟩ := hraw _ _ hhead hget
  have hcurrent : l.parseAt CURRENT_VERSION (row.2 ++ l.missing v) = some (l.grow v r) := by
    rw [Layout.parseAt, if_neg (Nat.not_le.2 hv), hr, l.parse_append]
  rw [Function.comp_apply, hcurrent, hr, l.parseAt_encodeAt]

theorem Writes.parseAt_isSome (hraw : Writes raw p (l.encodeAt v)) (k b : Bytes)
    (hk : k.head? = some p.byte) (hb : raw.get? k = some b) : (l.parseAt v b).isSome := by
  obtain ⟨r, rfl⟩ := hraw k b hk hb
  rw [l.parseAt_encodeAt]
  rfl

end Tables

/-- Rows of an untouched table are byte-identical. -/
theorem get?_migrate_untouched (c : Fields) {v : Nat} (hv : v ≤ 5) (raw : RawDb) {k : Bytes}
    (hk : ∀ p ∈ touchedBytes, k.head? ≠ some p) : (migrate c v raw).get? k = raw.get? k := by
  obtain ⟨hdrop, htail⟩ := editFrom_untouched c hv hk
  rw [get?_migrate, hdrop, htail]
  simp

/-- **The migrations do not change the audit total.** -/
theorem rawAudit_migrate (c : Fields) {v : Nat} (hv : v ≤ 5) {raw : RawDb}
    (hraw : WrittenAt c v raw) :
    rawAudit c CURRENT_VERSION (migrate c v raw) = rawAudit c v raw := by
  have hrefund : addItems (migrate c v raw) .refund c.refund.parse (fun r => -auditEntry r.amount) =
      addItems raw .refund c.refund.parse fun r => -auditEntry r.amount := by
    rw [addItems, addItems]
    congr 2
    refine Table.scan_congr fun k hk => get?_migrate_untouched c hv raw ?_
    rw [of_decide_eq_true hk]
    simp [touchedBytes, DbKeyPrefix.byte, REMOVED_DEPOSIT_OBSERVATION_VOTE_PREFIX,
      REMOVED_PENDING_CHECK_PREFIX]
  rw [rawAudit, rawAudit,
    (completes_depositRecord c hv).addItems_eq (show 5 < 6 by decide) hraw.depositRecord,
    (completes_poolState c hv).addItems_eq (show 5 < 6 by decide) hraw.poolState,
    (completes_unclaimedWithdrawal c hv).addItems_eq (show 3 < 6 by decide)
      hraw.unclaimedWithdrawal, hrefund]

/-- A database of a version has a total. -/
theorem rawAudit_isSome (c : Fields) {v : Nat} {raw : RawDb} (hraw : WrittenAt c v raw) :
    (rawAudit c v raw).isSome := by
  obtain ⟨deposits, hdeposits⟩ := Option.isSome_iff_exists.1
    (addItems_isSome (fun r => auditEntry (U64.satSub r.credited r.swept))
      hraw.depositRecord.parseAt_isSome)
  obtain ⟨pool, hpool⟩ := Option.isSome_iff_exists.1
    (addItems_isSome (fun r => auditEntry r.balance) hraw.poolState.parseAt_isSome)
  obtain ⟨withdrawals, hwithdrawals⟩ := Option.isSome_iff_exists.1
    (addItems_isSome (fun r => -auditEntry r.amount)
      hraw.unclaimedWithdrawal.parseAt_isSome)
  have hread : ∀ k b, k.head? = some DbKeyPrefix.refund.byte → raw.get? k = some b →
      (c.refund.parse b).isSome := by
    intro k b hk hb
    obtain ⟨r, rfl⟩ := hraw.refund k b hk hb
    rw [c.refund.parse_encode]
    rfl
  obtain ⟨refunds, hrefunds⟩ := Option.isSome_iff_exists.1
    (addItems_isSome (fun r => -auditEntry r.amount) hread)
  rw [rawAudit, hdeposits, hpool, hwithdrawals, hrefunds]
  rfl

/-! ## The typed database -/

/-- The rows of a table decode to these records, in some order. -/
def Loads (raw : RawDb) (p : DbKeyPrefix) {α : Type} (read : Bytes → Option α) (records : List α) :
    Prop :=
  ∃ loaded : List α, loaded.Perm records ∧
    (raw.scan (startsWith p.byte)).map (fun row => read row.2) = loaded.map some

/-- The stored rows are those of the module's tables. -/
structure Stores (c : Fields) (raw : RawDb) (db : Db) : Prop where
  depositRecord : Loads raw .depositRecord c.depositRecord.current.parse db.depositRecord.values
  poolState : Loads raw .poolState c.poolState.current.parse db.poolState.toList
  unclaimedWithdrawal :
    Loads raw .unclaimedWithdrawal c.unclaimedWithdrawal.current.parse db.unclaimedWithdrawal.values
  refund : Loads raw .refund c.refund.parse db.refund.values

theorem mapM_map_some {α β γ : Type} {read : α → Option β} {entry : β → γ} {rows : List α}
    {records : List β} (h : rows.map read = records.map some) :
    (rows.mapM fun row => (read row).map entry) = some (records.map entry) := by
  induction rows generalizing records with
  | nil =>
    rw [List.map_nil, eq_comm, List.map_eq_nil_iff] at h
    subst h
    rfl
  | cons row rest ih =>
    cases records with
    | nil => cases h
    | cons r records =>
      obtain ⟨hr, hrest⟩ := List.cons.inj h
      rw [List.mapM_cons, hr, ih hrest]
      rfl

theorem Loads.addItems_eq {raw : RawDb} {p : DbKeyPrefix} {α : Type} {read : Bytes → Option α}
    {records : List α} (h : Loads raw p read records) (entry : α → Int) :
    addItems raw p read entry = some (records.map entry).sum := by
  obtain ⟨loaded, hperm, hloaded⟩ := h
  rw [addItems, mapM_map_some hloaded, Option.map_some, (hperm.map entry).sum_eq]

/-- **The balance sheet over the stored rows is the module's audit.** -/
theorem rawAudit_eq_audit {c : Fields} {raw : RawDb} {db : Db} (h : Stores c raw db) :
    rawAudit c CURRENT_VERSION raw = some (Usdt.audit db) := by
  have hsum : ∀ {κ ν : Type} [LinearOrder κ] (t : Table κ ν) (entry : ν → Int),
      (t.values.map entry).sum = t.sum fun _ v => entry v := by
    intro κ ν _ t entry
    rw [Table.values, List.map_map]
    rfl
  have hpool : (db.poolState.toList.map fun r => auditEntry r.balance).sum =
      (db.poolState.map fun r => auditEntry r.balance).getD 0 := by
    cases db.poolState <;> simp
  change (do
    let deposits ← addItems raw .depositRecord c.depositRecord.current.parse
      fun r => auditEntry (U64.satSub r.credited r.swept)
    let pool ← addItems raw .poolState c.poolState.current.parse fun r => auditEntry r.balance
    let withdrawals ← addItems raw .unclaimedWithdrawal c.unclaimedWithdrawal.current.parse
      fun r => -auditEntry r.amount
    let refunds ← addItems raw .refund c.refund.parse fun r => -auditEntry r.amount
    some (deposits + pool + withdrawals + refunds)) = _
  rw [h.depositRecord.addItems_eq, h.poolState.addItems_eq, h.unclaimedWithdrawal.addItems_eq,
    h.refund.addItems_eq, hsum, hsum, hsum, hpool]
  rfl

/-! ## No obligation is lost -/

/-- **Migrations lose no obligation.**  From any version on, every deposit record, pool state,
unclaimed withdrawal and submitted operation decodes in the current schema with its old fields
unchanged and the added ones at their defaults; rows of the other tables that are not dropped are
byte-identical; and the audit total, which is that of the typed tables, is unchanged. -/
theorem migrations_keep_obligations (c : Fields) (v : Nat) (hv : v ≤ 5) (raw : RawDb)
    (hraw : WrittenAt c v raw) :
    Carried raw (migrate c v raw) v .depositRecord c.depositRecord
        (fun r => { r with feesAccrued := U64.zero }) ∧
      Carried raw (migrate c v raw) v .poolState c.poolState
        (fun r => { r with accruedFees := U64.zero }) ∧
      Carried raw (migrate c v raw) v .unclaimedWithdrawal c.unclaimedWithdrawal
        (fun r => if v ≤ 3 then { r with refundPubkey := placeholderKey } else r) ∧
      Carried raw (migrate c v raw) v .submittedUserOp c.submittedUserOp
        (fun r => if v ≤ 2 then { r with superseded := false } else r) ∧
      (∀ k, (∀ p ∈ touchedBytes, k.head? ≠ some p) → (migrate c v raw).get? k = raw.get? k) ∧
      ∃ total, rawAudit c v raw = some total ∧
        rawAudit c CURRENT_VERSION (migrate c v raw) = some total ∧
        ∀ db, Stores c (migrate c v raw) db → Usdt.audit db = total := by
  have hdeposit : c.depositRecord.grow v = fun r => { r with feesAccrued := U64.zero } := by
    funext r
    exact if_pos hv
  have hpool : c.poolState.grow v = fun r => { r with accruedFees := U64.zero } := by
    funext r
    exact if_pos hv
  obtain ⟨total, htotal⟩ := Option.isSome_iff_exists.1 (rawAudit_isSome c hraw)
  have hmigrated := (rawAudit_migrate c hv hraw).trans htotal
  refine ⟨?_, ?_, (completes_unclaimedWithdrawal c hv).carried hraw.unclaimedWithdrawal,
    (completes_submittedUserOp c hv).carried hraw.submittedUserOp,
    fun k hk => get?_migrate_untouched c hv raw hk, total, htotal, hmigrated, ?_⟩
  · rw [← hdeposit]
    exact (completes_depositRecord c hv).carried hraw.depositRecord
  · rw [← hpool]
    exact (completes_poolState c hv).carried hraw.poolState
  · intro db hstores
    exact Option.some.inj ((rawAudit_eq_audit hstores).symm.trans hmigrated)

/-! ## Codecs that meet the assumptions -/

instance countableUInt8 : Countable UInt8 :=
  Function.Injective.countable (f := UInt8.toNat) fun _ _ h => UInt8.toNat_inj.1 h

instance countableChar : Countable Char :=
  Function.Injective.countable (f := Char.toNat) fun _ _ h => Char.toNat_inj.1 h

instance countableString : Countable String :=
  Function.Injective.countable (f := String.toList) fun _ _ h => String.toList_inj.1 h

deriving instance Countable for U64, OutPoint, ContractCall, AccountCall

deriving instance Countable for UnsignedUserOp, SignedUserOp, UserOpPurpose

/-- The number of a value in unary, closed by a zero. -/
noncomputable def Sample.unary (α : Type) [Countable α] : Codec UInt8 α :=
  have hex := exists_injective_nat α
  .ofPrefixFree (fun a => List.replicate (Classical.choose hex a) 1 ++ [0]) fun a b s t heq => by
    have hunary : ∀ (m n : Nat) (s t : Bytes), List.replicate m 1 ++ [0] ++ s =
        List.replicate n 1 ++ [0] ++ t → m = n ∧ s = t := by
      intro m
      induction m with
      | zero =>
        intro n s t h
        cases n with
        | zero => exact ⟨rfl, by simpa using h⟩
        | succ n => simp [List.replicate_succ] at h
      | succ m ih =>
        intro n s t h
        cases n with
        | zero => simp [List.replicate_succ] at h
        | succ n =>
          obtain ⟨hm, hs⟩ := ih n s t (by simpa [List.replicate_succ] using h)
          exact ⟨congrArg _ hm, hs⟩
    obtain ⟨hnumber, hrest⟩ := hunary _ _ s t heq
    exact ⟨Classical.choose_spec hex hnumber, hrest⟩

/-- Parity byte and coordinate of a key. -/
def Sample.keyBytes (pk : PublicKey) : Bytes := (if pk.odd then 3 else 2) :: wordBytes pk.x.val

theorem Sample.keyBytes_inj : Function.Injective Sample.keyBytes := by
  intro a b h
  obtain ⟨hparity, hx⟩ := List.cons.inj h
  have hval : a.x.val = b.x.val := toBeBytes_inj hx a.x.isLt b.x.isLt
  have hodd : a.odd = b.odd := by
    cases ha : a.odd <;> cases hb : b.odd <;> simp [ha, hb] at hparity ⊢
  cases a
  cases b
  simp only [PublicKey.mk.injEq]
  exact ⟨hodd, Fin.ext hval⟩

noncomputable def Sample.fields : Fields where
  publicKey := .ofLength Sample.keyBytes 33
    (fun pk => by rw [Sample.keyBytes, List.length_cons, wordBytes, length_toBeBytes])
    Sample.keyBytes_inj
  amount := Sample.unary _
  u64 := Sample.unary _
  address := Sample.unary _
  signedUserOp := Sample.unary _
  purpose := Sample.unary _
  bool := .ofLength (fun b => [if b then 1 else 0]) 1 (fun _ => rfl) (by decide)
  string := Sample.unary _
  bool_false := rfl
  publicKey_placeholder := by decide +kernel

/-- A withdrawal queued before refund keys existed. -/
def Sample.oldWithdrawal : UsdtWithdrawalV0 := ⟨7, U64.clamp 5000, U64.clamp 100, 12, sampleKey⟩

/-- A database of version 0 that holds it, and a vote on the fee. -/
noncomputable def Sample.oldRaw : RawDb :=
  let row := Sample.fields.unclaimedWithdrawal.encodeAt 0 Sample.oldWithdrawal
  (Table.empty.insert [0x0C, 1] row).insert [0x02, 0] [1, 2, 3]

theorem Sample.oldRaw_writtenAt : WrittenAt Sample.fields 0 Sample.oldRaw := by
  have hrow : ∀ k b, Sample.oldRaw.get? k = some b →
      (k = [0x02, 0] ∧ b = [1, 2, 3]) ∨ (k = [0x0C, 1] ∧
        b = Sample.fields.unclaimedWithdrawal.encodeAt 0 Sample.oldWithdrawal) := by
    intro k b h
    rw [Sample.oldRaw, Table.get?_insert, Table.get?_insert, Table.get?_empty] at h
    split at h
    · rename_i hk
      exact .inl ⟨hk.symm, (Option.some.inj h).symm⟩
    split at h
    · rename_i hk
      exact .inr ⟨hk.symm, (Option.some.inj h).symm⟩
    · cases h
  have hempty : ∀ {ρ : Type} (p : DbKeyPrefix) (encode : ρ → Bytes), p.byte ≠ 0x02 →
      p.byte ≠ 0x0C → Writes Sample.oldRaw p encode := by
    intro ρ p encode hfee hwithdrawal k b hk hb
    rcases hrow k b hb with ⟨rfl, -⟩ | ⟨rfl, -⟩
    · exact absurd (Option.some.inj hk).symm hfee
    · exact absurd (Option.some.inj hk).symm hwithdrawal
  refine ⟨hempty _ _ (by decide) (by decide), hempty _ _ (by decide) (by decide), ?_,
    hempty _ _ (by decide) (by decide), hempty _ _ (by decide) (by decide)⟩
  intro k b hk hb
  rcases hrow k b hb with ⟨rfl, -⟩ | ⟨-, hb⟩
  · exact absurd hk (by decide)
  · exact ⟨_, hb⟩

theorem migrations_keep_obligations_sample :
    WrittenAt Sample.fields 0 Sample.oldRaw ∧
      ∃ b, (migrate Sample.fields 0 Sample.oldRaw).get? [0x0C, 1] = some b ∧
        ∃ r, Sample.oldRaw.get? [0x0C, 1] = some (Sample.fields.unclaimedWithdrawal.encodeAt 0 r) ∧
          Sample.fields.unclaimedWithdrawal.current.parse b =
            some { r with refundPubkey := placeholderKey } := by
  refine ⟨Sample.oldRaw_writtenAt, ?_⟩
  obtain ⟨-, -, hcarried, -⟩ :=
    migrations_keep_obligations Sample.fields 0 (by decide) Sample.oldRaw Sample.oldRaw_writtenAt
  rcases hcarried [0x0C, 1] rfl with ⟨hnone, -⟩ | ⟨r, b, hr, hb, hparse⟩
  · rw [Sample.oldRaw, Table.get?_insert_ne _ _ (by decide), Table.get?_insert_self] at hnone
    cases hnone
  · exact ⟨b, hb, r, hr, hparse⟩

end Experimint.FedimintUsdt
