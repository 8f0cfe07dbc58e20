import Mathlib.Data.Set.Finite.Basic
import Experimint.Lib.Keyset
import Experimint.Amm.Server

/-!
# Recovery endpoints of the AMM

A wallet restored from its seed reads the whole balance and position tables, page by page, while
other users keep changing them.  The server scans the raw database, where a key is its encoding
behind a table's own first byte, and resumes after the last key it has returned.

* `recoveryRange`, `recoveryPage` are the server's side; `forEachRecoveryEntry` is the client's
  loop.  Request number `i` of the loop finds the database as it stands at that moment.
* `recoveryPage_eq` : over a table with encoded rows the server's page is a keyset page.
* `recovery_complete_and_confined` : the walk visits what stays in the table exactly once in byte
  order, ends, and no cursor reads another table.
-/

set_option autoImplicit false

namespace Experimint.FedimintAmm

/-! ## The raw database -/

/-- First byte of every key of a table. -/
inductive DbKeyPrefix where
  | pool
  | lpPosition
  | balance
  | feeVote
  | desiredFee
deriving DecidableEq

def DbKeyPrefix.byte : DbKeyPrefix → UInt8
  | .pool => 0x01
  | .lpPosition => 0x02
  | .balance => 0x03
  | .feeVote => 0x04
  | .desiredFee => 0x05

/-- The module's database as it is stored. -/
abbrev RawDb := Table Bytes Bytes

def rawFindByRange (raw : RawDb) (start stop : Bytes) : List (Bytes × Bytes) :=
  raw.scan fun k => decide (start ≤ k ∧ k < stop)

/-- The framework's encoding of one table's records.  A key decodes from one byte string only, the
one it is written as. -/
structure RecordCodec (dbPrefix : UInt8) (K V : Type) where
  keyToBytes : K → Bytes
  keyFromBytes : Bytes → Except String K
  valueToBytes : V → Bytes
  valueFromBytes : Bytes → Except String V
  keyFromBytes_toBytes : ∀ k, keyFromBytes (keyToBytes k) = .ok k
  keyFromBytes_inj : ∀ b b' k, keyFromBytes b = .ok k → keyFromBytes b' = .ok k → b = b'
  keyToBytes_head : ∀ k, (keyToBytes k).head? = some dbPrefix
  valueFromBytes_toBytes : ∀ v, valueFromBytes (valueToBytes v) = .ok v

/-! ## The server's page -/

inductive ApiError where
  | badRequest (message : String)
  | serverError (message : String)
deriving DecidableEq

structure RecoveryPageRequest where
  cursor : Option Bytes
  limit : Option Nat
deriving DecidableEq

structure RecoveryPage (K V : Type) where
  rows : List (K × V)
  nextCursor : Option Bytes

def MAX_RECOVERY_PAGE_SIZE : Nat := 500

def MAX_RECOVERY_CURSOR_LEN : Nat := 256

def recoveryPageLimit (requested : Option Nat) : Nat :=
  let limit := requested.getD MAX_RECOVERY_PAGE_SIZE
  if limit < 1 then 1
  else if limit > MAX_RECOVERY_PAGE_SIZE then MAX_RECOVERY_PAGE_SIZE
  else limit

/-- Half-open byte range of one page, kept inside the table whatever the cursor is. -/
def recoveryRange (dbPrefix : UInt8) (cursor : Option Bytes) : Bytes × Bytes :=
  let prefixStart : Bytes := [dbPrefix]
  let prefixEnd : Bytes := [dbPrefix + 1]
  let start :=
    match cursor with
    | some lastKeyBytes =>
      let candidate := lastKeyBytes ++ [0]
      if candidate < prefixStart then prefixStart
      else if candidate > prefixEnd then prefixEnd
      else candidate
    | none => prefixStart
  (start, prefixEnd)

section Page

variable {dbPrefix : UInt8} {K V : Type}

/-- Rows that one request reads from the database: a page and the row after it. -/
def recoveryScan (dbPrefix : UInt8) (raw : RawDb) (request : RecoveryPageRequest) :
    List (Bytes × Bytes) :=
  let (start, stop) := recoveryRange dbPrefix request.cursor
  (rawFindByRange raw start stop).take (recoveryPageLimit request.limit + 1)

/-- A cursor has to decode as a key of the table. -/
def checkCursor (codec : RecordCodec dbPrefix K V) (cursor : Option Bytes) :
    Except ApiError Unit :=
  match cursor with
  | none => .ok ()
  | some c =>
    match codec.keyFromBytes c with
    | .error e => .error (.badRequest s!"malformed recovery cursor: {e}")
    | .ok _ => .ok ()

def decodeRows (codec : RecordCodec dbPrefix K V) (table : String) :
    List (Bytes × Bytes) → Except ApiError (List (Bytes × K × V))
  | [] => .ok []
  | (keyBytes, valueBytes) :: rest =>
    match codec.keyFromBytes keyBytes with
    | .error e => .error (.serverError s!"corrupt {table} key in database: {e}")
    | .ok key =>
      match codec.valueFromBytes valueBytes with
      | .error e => .error (.serverError s!"corrupt {table} value in database: {e}")
      | .ok value =>
        match decodeRows codec table rest with
        | .error e => .error e
        | .ok rows => .ok ((keyBytes, key, value) :: rows)

def recoveryPage (codec : RecordCodec dbPrefix K V) (raw : RawDb) (table : String)
    (request : RecoveryPageRequest) : Except ApiError (RecoveryPage K V) :=
  if request.cursor.any fun c => decide (c.length > MAX_RECOVERY_CURSOR_LEN) then
    .error (.badRequest "cursor too large") else
  let limit := recoveryPageLimit request.limit
  match checkCursor codec request.cursor with
  | .error e => .error e
  | .ok () =>
    match decodeRows codec table (recoveryScan dbPrefix raw request) with
    | .error e => .error e
    | .ok rows =>
      let hasMore := decide (rows.length > limit)
      let kept := if hasMore then rows.take limit else rows
      let nextCursor := if hasMore then kept.getLast?.map (·.1) else none
      .ok ⟨kept.map fun r => (r.2.1, r.2.2), nextCursor⟩

end Page

/-! ## The two endpoints -/

structure RecoveryResponse (E : Type) where
  entries : List E
  nextCursor : Option Bytes

structure BalanceRecoveryEntry where
  tweak : Bytes
  pubkey : PublicKey
  unit : AmountUnit
  amount : Nat
deriving DecidableEq

structure LpRecoveryEntry where
  tweak : Bytes
  pool : PoolId
  pubkey : PublicKey
  shares : Nat
deriving DecidableEq

/-- Serves one page and maps its rows to the wire type. -/
def recoveryEndpoint {dbPrefix : UInt8} {K V E : Type} (codec : RecordCodec dbPrefix K V)
    (table : String) (entry : K × V → E) (raw : RawDb) (request : RecoveryPageRequest) :
    Except ApiError (RecoveryResponse E) :=
  match recoveryPage codec raw table request with
  | .error e => .error e
  | .ok page => .ok ⟨page.rows.map entry, page.nextCursor⟩

abbrev BalanceCodec := RecordCodec DbKeyPrefix.balance.byte BalanceKey BalanceEntry

abbrev LpPositionCodec := RecordCodec DbKeyPrefix.lpPosition.byte LpPositionKey LpPosition

def balanceRecoveryEntry (r : BalanceKey × BalanceEntry) : BalanceRecoveryEntry :=
  ⟨r.2.tweak, (ofLex r.1).1, (ofLex r.1).2, r.2.amount⟩

def lpRecoveryEntry (r : LpPositionKey × LpPosition) : LpRecoveryEntry :=
  ⟨r.2.tweak, (ofLex r.1).1, (ofLex r.1).2, r.2.shares⟩

def balanceRecovery (codec : BalanceCodec) :
    RawDb → RecoveryPageRequest → Except ApiError (RecoveryResponse BalanceRecoveryEntry) :=
  recoveryEndpoint codec "Balance" balanceRecoveryEntry

def lpRecovery (codec : LpPositionCodec) :
    RawDb → RecoveryPageRequest → Except ApiError (RecoveryResponse LpRecoveryEntry) :=
  recoveryEndpoint codec "LpPosition" lpRecoveryEntry

/-! ## The client's loop -/

/-- Where the loop stands: it has returned, or its next request names this cursor. -/
inductive WalkEnd where
  | returned (result : Except ApiError Unit)
  | asking (cursor : Option Bytes)

/-- Entries that the first `n` requests of the loop visit, and where the loop stands then.  Request
number `i` is answered by `fetchPage i`. -/
def forEachRecoveryEntry {E : Type}
    (fetchPage : Nat → RecoveryPageRequest → Except ApiError (RecoveryResponse E)) :
    Nat → Nat → Option Bytes → List E × WalkEnd
  | 0, _, cursor => ([], .asking cursor)
  | n + 1, i, cursor =>
    match fetchPage i ⟨cursor, none⟩ with
    | .error e => ([], .returned (.error e))
    | .ok page =>
      match page.nextCursor with
      | none => (page.entries, .returned (.ok ()))
      | some next =>
        let rest := forEachRecoveryEntry fetchPage n (i + 1) (some next)
        (page.entries ++ rest.1, rest.2)

/-- The first `n` requests of the balance walk, from no cursor. -/
def forEachBalanceRecoveryEntry (codec : BalanceCodec) (raw : Nat → RawDb) (n : Nat) :
    List BalanceRecoveryEntry × WalkEnd :=
  forEachRecoveryEntry (fun i => balanceRecovery codec (raw i)) n 0 none

/-- The first `n` requests of the position walk, from no cursor. -/
def forEachLpRecoveryEntry (codec : LpPositionCodec) (raw : Nat → RawDb) (n : Nat) :
    List LpRecoveryEntry × WalkEnd :=
  forEachRecoveryEntry (fun i => lpRecovery codec (raw i)) n 0 none

/-! ## What a request reads -/

section Facts

variable {dbPrefix : UInt8} {K V : Type}

theorem recoveryPageLimit_le (requested : Option Nat) :
    recoveryPageLimit requested ≤ MAX_RECOVERY_PAGE_SIZE := by
  unfold recoveryPageLimit MAX_RECOVERY_PAGE_SIZE
  dsimp only
  split
  · omega
  · split <;> omega

theorem lt_succ_byte {p : UInt8} (hp : p < 255) (a : UInt8) : a < p + 1 ↔ a ≤ p := by
  rw [UInt8.lt_iff_toNat_lt] at hp
  rw [UInt8.lt_iff_toNat_lt, UInt8.le_iff_toNat_le, UInt8.toNat_add]
  have hmod : (p.toNat + (1 : UInt8).toNat) % 2 ^ 8 = p.toNat + 1 := Nat.mod_eq_of_lt (by
    have : (255 : UInt8).toNat = 255 := rfl
    have : (1 : UInt8).toNat = 1 := rfl
    omega)
  omega

/-- Keys of a table, by their first byte. -/
theorem own_iff (hp : dbPrefix < 255) (k : Bytes) :
    [dbPrefix] ≤ k ∧ k < [dbPrefix + 1] ↔ k.head? = some dbPrefix :=
  singleton_range_iff (lt_succ_byte hp) k

/-- The clamp: no range starts before the table. -/
theorem le_recoveryRange (hp : dbPrefix < 255) (cursor : Option Bytes) :
    [dbPrefix] ≤ (recoveryRange dbPrefix cursor).1 := by
  unfold recoveryRange
  dsimp only
  split
  · split
    · exact le_rfl
    · split
      · exact ((own_iff hp [dbPrefix]).mpr rfl).2.le
      · rename_i hlow _
        exact not_lt.mp hlow
  · exact le_rfl

/-- **Confinement of the scan.** Whatever the cursor holds, only keys of the table are read. -/
theorem recoveryScan_own (hp : dbPrefix < 255) (raw : RawDb) (request : RecoveryPageRequest)
    {r : Bytes × Bytes} (h : r ∈ recoveryScan dbPrefix raw request) :
    r.1.head? = some dbPrefix := by
  have hr := List.mem_of_mem_take h
  obtain ⟨hstart, hstop⟩ := of_decide_eq_true (List.mem_filter.mp hr).2
  exact (own_iff hp r.1).mp ⟨(le_recoveryRange hp request.cursor).trans hstart, hstop⟩

/-- Resuming behind a key of the table skips that key and nothing else. -/
theorem mem_recoveryRange (hp : dbPrefix < 255) {cursor : Option Bytes}
    (hcursor : ∀ c ∈ cursor, c.head? = some dbPrefix) (k : Bytes) :
    (recoveryRange dbPrefix cursor).1 ≤ k ∧ k < (recoveryRange dbPrefix cursor).2 ↔
      k.head? = some dbPrefix ∧ ∀ c ∈ cursor, c < k := by
  cases cursor with
  | none => simpa [recoveryRange] using own_iff hp k
  | some c =>
    have hown : (c ++ [0]).head? = some dbPrefix := by
      rw [List.head?_append, hcursor c rfl, Option.some_or]
    obtain ⟨hlow, hhigh⟩ := (own_iff hp _).mpr hown
    have hrange : recoveryRange dbPrefix (some c) = (c ++ [0], [dbPrefix + 1]) := by
      unfold recoveryRange
      dsimp only
      rw [if_neg (not_lt.mpr hlow), if_neg (not_lt.mpr hhigh.le)]
    have hzero : ∀ a : UInt8, 0 ≤ a := fun a => UInt8.le_iff_toNat_le.mpr (Nat.zero_le _)
    rw [hrange, ← lt_iff_concat_le hzero]
    constructor
    · rintro ⟨hlt, hstop⟩
      refine ⟨(own_iff hp k).mp ⟨hlow.trans ?_, hstop⟩, by rintro _ ⟨⟩; exact hlt⟩
      exact (lt_iff_concat_le hzero c k).mp hlt
    · rintro ⟨hk, hlt⟩
      exact ⟨hlt c rfl, ((own_iff hp k).mpr hk).2⟩

/-- Rows that decode, with the bytes of their keys. -/
theorem decodeRows_mem {codec : RecordCodec dbPrefix K V} {table : String}
    {raws : List (Bytes × Bytes)} {rows : List (Bytes × K × V)}
    (h : decodeRows codec table raws = .ok rows) :
    rows.length = raws.length ∧ ∀ r ∈ rows, ∃ r' ∈ raws, codec.keyFromBytes r'.1 = .ok r.2.1 := by
  induction raws generalizing rows with
  | nil =>
    rw [← Except.ok.inj h]
    exact ⟨rfl, nofun⟩
  | cons hd rest ih =>
    rw [decodeRows] at h
    cases hkey : codec.keyFromBytes hd.1 with
    | error e => simp [hkey] at h
    | ok key =>
      cases hvalue : codec.valueFromBytes hd.2 with
      | error e => simp [hkey, hvalue] at h
      | ok value =>
        cases hrest : decodeRows codec table rest with
        | error e => simp [hkey, hvalue, hrest] at h
        | ok tl =>
          simp only [hkey, hvalue, hrest, Except.ok.injEq] at h
          obtain ⟨hlen, hmem⟩ := ih hrest
          rw [← h]
          refine ⟨by rw [List.length_cons, List.length_cons, hlen], ?_⟩
          rw [List.forall_mem_cons]
          refine ⟨⟨hd, List.mem_cons_self, hkey⟩, ?_⟩
          intro r hr
          obtain ⟨r', hr', hdec⟩ := hmem r hr
          exact ⟨r', List.mem_cons_of_mem _ hr', hdec⟩

/-- A page holds at most the clamped limit of rows, each decoded from a row that was read. -/
theorem recoveryPage_bounded {codec : RecordCodec dbPrefix K V} {raw : RawDb} {table : String}
    {request : RecoveryPageRequest} {page : RecoveryPage K V}
    (h : recoveryPage codec raw table request = .ok page) :
    page.rows.length ≤ recoveryPageLimit request.limit ∧
      ∀ r ∈ page.rows, ∃ r' ∈ recoveryScan dbPrefix raw request,
        codec.keyFromBytes r'.1 = .ok r.1 := by
  unfold recoveryPage at h
  dsimp only at h
  split at h
  · cases h
  · split at h
    · cases h
    · split at h
      · cases h
      · rename_i rows hrows
        obtain ⟨-, hmem⟩ := decodeRows_mem hrows
        rw [← Except.ok.inj h]
        constructor
        · rw [List.length_map]
          split
          · exact List.length_take_le _ _
          · rename_i hmore
            exact not_lt.mp (by simpa using hmore)
        · intro r hr
          obtain ⟨row, hrow, rfl⟩ := List.mem_map.mp hr
          refine hmem row ?_
          split at hrow
          · exact List.mem_of_mem_take hrow
          · exact hrow

/-! ## The server's page is a keyset page -/

/-- Rows of the table in the raw database. -/
def ownRows (dbPrefix : UInt8) (raw : RawDb) : Table Bytes Bytes :=
  raw.filter fun k _ => decide (k.head? = some dbPrefix)

namespace RecordCodec

/-- A record as the database stores it. -/
def encode (codec : RecordCodec dbPrefix K V) (r : K × V) : Bytes × Bytes :=
  (codec.keyToBytes r.1, codec.valueToBytes r.2)

/-- Cursors that the server itself hands out. -/
def Issued (codec : RecordCodec dbPrefix K V) (cursor : Option Bytes) : Prop :=
  ∀ c ∈ cursor, (∃ k, codec.keyToBytes k = c) ∧ c.length ≤ MAX_RECOVERY_CURSOR_LEN

/-- The raw database holds `t` as the table of this prefix, next to any other tables.  A stored key
is one byte of prefix, a 33-byte public key and at most two units, well below the cursor bound. -/
structure Stores [LinearOrder K] (codec : RecordCodec dbPrefix K V) (raw : RawDb)
    (t : Table K V) : Prop where
  row : ∀ k v, t.get? k = some v → raw.get? (codec.keyToBytes k) = some (codec.valueToBytes v)
  own : ∀ kb vb, raw.get? kb = some vb → kb.head? = some dbPrefix →
    ∃ k v, t.get? k = some v ∧ codec.encode (k, v) = (kb, vb)
  short : ∀ k v, t.get? k = some v → (codec.keyToBytes k).length ≤ MAX_RECOVERY_CURSOR_LEN

variable {codec : RecordCodec dbPrefix K V}

theorem Issued.own {cursor : Option Bytes} (h : codec.Issued cursor) :
    ∀ c ∈ cursor, c.head? = some dbPrefix := by
  intro c hc
  obtain ⟨⟨k, rfl⟩, -⟩ := h c hc
  exact codec.keyToBytes_head k

theorem keyToBytes_injective : Function.Injective codec.keyToBytes := by
  intro k k' h
  have hk := codec.keyFromBytes_toBytes k
  rw [h, codec.keyFromBytes_toBytes] at hk
  exact (Except.ok.inj hk).symm

theorem encode_injective : Function.Injective codec.encode := by
  rintro ⟨k, v⟩ ⟨k', v'⟩ h
  obtain ⟨hk, hv⟩ := Prod.mk.inj h
  have hv' := codec.valueFromBytes_toBytes v
  rw [show codec.valueToBytes v = codec.valueToBytes v' from hv,
    codec.valueFromBytes_toBytes] at hv'
  exact Prod.ext (keyToBytes_injective hk) (Except.ok.inj hv').symm

theorem decodeRows_encode (table : String) (rows : List (K × V)) :
    decodeRows codec table (rows.map codec.encode) =
      .ok (rows.map fun r => (codec.keyToBytes r.1, r.1, r.2)) := by
  induction rows with
  | nil => rfl
  | cons r rest ih =>
    rw [List.map_cons, encode, decodeRows, ih]
    simp only [codec.keyFromBytes_toBytes, codec.valueFromBytes_toBytes, List.map_cons]

theorem Issued.accepted {cursor : Option Bytes} (h : codec.Issued cursor) :
    cursor.any (fun c => decide (c.length > MAX_RECOVERY_CURSOR_LEN)) = false ∧
      checkCursor codec cursor = .ok () := by
  cases cursor with
  | none => exact ⟨rfl, rfl⟩
  | some c =>
    obtain ⟨⟨k, rfl⟩, hshort⟩ := h c rfl
    refine ⟨by simpa using hshort, ?_⟩
    rw [checkCursor, codec.keyFromBytes_toBytes]

/-- The scan behind an issued cursor reads the rows of the table after that cursor. -/
theorem recoveryScan_eq (hp : dbPrefix < 255) (raw : RawDb) {cursor : Option Bytes}
    (hc : codec.Issued cursor) (limit : Option Nat) :
    recoveryScan dbPrefix raw ⟨cursor, limit⟩ =
      (Keyset.after (ownRows dbPrefix raw) cursor).take (recoveryPageLimit limit + 1) := by
  unfold recoveryScan rawFindByRange Keyset.after ownRows Table.filter Table.scan
  dsimp only
  rw [List.filter_filter]
  congr 1
  refine List.filter_congr ?_
  intro r _
  rw [Bool.eq_iff_iff, decide_eq_true_iff, mem_recoveryRange hp hc.own r.1]
  cases cursor <;> simp [and_comm]

section Stored

variable [LinearOrder K] {raw : RawDb} {t : Table K V}

theorem Stores.mem_ownRows (hs : codec.Stores raw t) {r : Bytes × Bytes} :
    r ∈ (ownRows dbPrefix raw).rows ↔ ∃ k v, t.get? k = some v ∧ codec.encode (k, v) = r := by
  obtain ⟨kb, vb⟩ := r
  rw [Table.mem_rows, ownRows, Table.get?_filter_eq_some, decide_eq_true_iff]
  constructor
  · rintro ⟨hrow, hhead⟩
    exact hs.own kb vb hrow hhead
  · rintro ⟨k, v, hkv, henc⟩
    cases henc
    exact ⟨hs.row k v hkv, codec.keyToBytes_head k⟩

/-! Typed writes keep the raw database in step with the tables. -/

theorem stores_empty (codec : RecordCodec dbPrefix K V) : codec.Stores .empty .empty := by
  refine ⟨?_, ?_, ?_⟩
  · intro k v h
    cases h
  · intro kb vb h
    cases h
  · intro k v h
    cases h

theorem Stores.insert (hs : codec.Stores raw t) {k : K}
    (hk : (codec.keyToBytes k).length ≤ MAX_RECOVERY_CURSOR_LEN) (v : V) :
    codec.Stores (raw.insert (codec.keyToBytes k) (codec.valueToBytes v)) (t.insert k v) := by
  refine ⟨?_, ?_, ?_⟩
  · intro k' v' h
    rw [Table.get?_insert] at h ⊢
    split at h
    · rename_i heq
      cases h
      rw [heq, if_pos rfl]
    · rename_i hne
      rw [if_neg fun heq => hne (keyToBytes_injective heq)]
      exact hs.row k' v' h
  · intro kb vb h hhead
    rw [Table.get?_insert] at h
    split at h
    · rename_i heq
      cases h
      exact ⟨k, v, t.get?_insert_self k v, by rw [← heq]; rfl⟩
    · rename_i hne
      obtain ⟨k', v', hrow, henc⟩ := hs.own kb vb h hhead
      refine ⟨k', v', ?_, henc⟩
      rw [t.get?_insert_ne v]
      · exact hrow
      · rintro rfl
        exact hne (Prod.mk.inj henc).1
  · intro k' v' h
    rw [Table.get?_insert] at h
    split at h
    · rename_i heq
      rw [← heq]
      exact hk
    · exact hs.short k' v' h

theorem Stores.erase (hs : codec.Stores raw t) (k : K) :
    codec.Stores (raw.erase (codec.keyToBytes k)) (t.erase k) := by
  refine ⟨?_, ?_, fun k' v' h => hs.short k' v' (Table.get?_of_erase h).2⟩
  · intro k' v' h
    obtain ⟨hne, hrow⟩ := Table.get?_of_erase h
    rw [Table.get?_erase_ne raw fun heq => hne (keyToBytes_injective heq)]
    exact hs.row k' v' hrow
  · intro kb vb h hhead
    obtain ⟨hne, hraw⟩ := Table.get?_of_erase h
    obtain ⟨k', v', hrow, henc⟩ := hs.own kb vb hraw hhead
    refine ⟨k', v', ?_, henc⟩
    rw [Table.get?_erase_ne t]
    · exact hrow
    · rintro rfl
      exact hne (Prod.mk.inj henc).1.symm

/-- Rows of other tables do not matter. -/
theorem Stores.congr (hs : codec.Stores raw t) {raw' : RawDb}
    (h : ∀ kb, kb.head? = some dbPrefix → raw'.get? kb = raw.get? kb) : codec.Stores raw' t := by
  refine ⟨?_, ?_, hs.short⟩
  · intro k v hkv
    rw [h _ (codec.keyToBytes_head k)]
    exact hs.row k v hkv
  · intro kb vb hrow hhead
    exact hs.own kb vb (h kb hhead ▸ hrow) hhead

theorem Stores.insert_other (hs : codec.Stores raw t) {kb : Bytes} (vb : Bytes)
    (hkb : kb.head? ≠ some dbPrefix) : codec.Stores (raw.insert kb vb) t := by
  refine hs.congr ?_
  intro kb' hhead
  exact raw.get?_insert_ne vb fun heq => hkb (heq ▸ hhead)

theorem Stores.erase_other (hs : codec.Stores raw t) {kb : Bytes}
    (hkb : kb.head? ≠ some dbPrefix) : codec.Stores (raw.erase kb) t := by
  refine hs.congr ?_
  intro kb' hhead
  exact raw.get?_erase_ne fun heq => hkb (heq ▸ hhead)

/-- The records that a list of raw rows of the table stands for. -/
theorem Stores.exists_records (hs : codec.Stores raw t) {raws : List (Bytes × Bytes)}
    (h : ∀ r ∈ raws, r ∈ (ownRows dbPrefix raw).rows) :
    ∃ rows : List (K × V), rows.map codec.encode = raws := by
  induction raws with
  | nil => exact ⟨[], rfl⟩
  | cons r rest ih =>
    rw [List.forall_mem_cons] at h
    obtain ⟨k, v, -, henc⟩ := hs.mem_ownRows.mp h.1
    obtain ⟨rows, hrows⟩ := ih h.2
    exact ⟨(k, v) :: rows, by rw [List.map_cons, henc, hrows]⟩

/-- **The page.** Behind an issued cursor the server returns the keyset page of the table, decoded,
and the cursor it hands out is issued. -/
theorem Stores.recoveryPage_eq (hp : dbPrefix < 255) (hs : codec.Stores raw t)
    {cursor : Option Bytes} (hc : codec.Issued cursor) (table : String) (limit : Option Nat) :
    ∃ rows : List (K × V),
      recoveryPage codec raw table ⟨cursor, limit⟩ =
        .ok ⟨rows, (Keyset.page (ownRows dbPrefix raw) (recoveryPageLimit limit) cursor).2⟩ ∧
      rows.map codec.encode =
        (Keyset.page (ownRows dbPrefix raw) (recoveryPageLimit limit) cursor).1 ∧
      codec.Issued (Keyset.page (ownRows dbPrefix raw) (recoveryPageLimit limit) cursor).2 := by
  obtain ⟨records, hrecords⟩ := hs.exists_records fun r hr => (Keyset.mem_after.mp hr).1
  have hissued : codec.Issued
      (Keyset.page (ownRows dbPrefix raw) (recoveryPageLimit limit) cursor).2 := by
    intro c hc
    obtain ⟨vb, hrow⟩ := Keyset.page_resume hc
    obtain ⟨k, v, hkv, henc⟩ := hs.mem_ownRows.mp (Keyset.mem_after.mp hrow).1
    cases henc
    exact ⟨⟨k, rfl⟩, hs.short k v hkv⟩
  refine ⟨records.take (recoveryPageLimit limit), ?_, ?_, hissued⟩
  · unfold recoveryPage Keyset.page
    dsimp only
    rw [hc.accepted.1, hc.accepted.2, recoveryScan_eq hp raw hc, ← hrecords, ← List.map_take,
      decodeRows_encode]
    -- the row read ahead only tells whether more follow
    have hahead : decide (min (recoveryPageLimit limit + 1) records.length >
        recoveryPageLimit limit) = decide (recoveryPageLimit limit < records.length) := by
      rw [decide_eq_decide]
      omega
    simp only [Bool.false_eq_true, if_false, List.length_map, List.length_take, hahead]
    by_cases hmore : recoveryPageLimit limit < records.length
    · simp [hmore, ← List.map_take, List.take_take, Function.comp_def, encode]
    · have hall : records.take (recoveryPageLimit limit + 1) = records :=
        List.take_of_length_le (by omega)
      have hall' : records.take (recoveryPageLimit limit) = records :=
        List.take_of_length_le (by omega)
      simp [hmore, hall, hall', Function.comp_def]
  · rw [List.map_take, hrecords]
    rfl

end Stored

end RecordCodec

end Facts

/-! ## The walk -/

/-- Where the client's loop stands when the keyset walk stands at `rest`. -/
def WalkEnd.ofWalk : Option (Option Bytes) → WalkEnd
  | none => .returned (.ok ())
  | some cursor => .asking cursor

/-- What a recovery walk owes to the wallet: `walk n` is what its first `n` requests visit, and
`t i` the table at request `i`. -/
structure CompleteWalk {K V E : Type} [LinearOrder K] (keyToBytes : K → Bytes)
    (t : Nat → Table K V) (entry : K × V → E) (walk : Nat → List E × WalkEnd) : Prop where
  /-- Rows of the table only, in byte order, each staying key once when the walk has ended. -/
  visits : ∀ n, ∃ rows : List (K × V), (walk n).1 = rows.map entry ∧
    rows.Pairwise (fun a b => keyToBytes a.1 < keyToBytes b.1) ∧
    (∀ r ∈ rows, ∃ i < n, (t i).get? r.1 = some r.2) ∧
    ((walk n).2 = .returned (.ok ()) → ∀ k, (∀ i < n, ∃ v, (t i).get? k = some v) →
      (rows.map Prod.fst).count k = 1)
  succeeds : ∀ n e, (walk n).2 ≠ .returned (.error e)
  ends : {k | ∃ i v, (t i).get? k = some v}.Finite → ∃ n, (walk n).2 = .returned (.ok ())

section Walk

variable {dbPrefix : UInt8} {K V E : Type} [LinearOrder K] {codec : RecordCodec dbPrefix K V}
  {raw : Nat → RawDb} {t : Nat → Table K V}

/-- **Refinement.** The client's loop against the server is a keyset walk over the table. -/
theorem forEachRecoveryEntry_eq (hp : dbPrefix < 255) (hs : ∀ i, codec.Stores (raw i) (t i))
    (table : String) (entry : K × V → E) (n i : Nat) {cursor : Option Bytes}
    (hc : codec.Issued cursor) :
    ∃ rows : List (K × V),
      forEachRecoveryEntry (fun j => recoveryEndpoint codec table entry (raw j)) n i cursor =
        (rows.map entry, .ofWalk (Keyset.walk MAX_RECOVERY_PAGE_SIZE
          (fun j => ownRows dbPrefix (raw j)) n i cursor).2) ∧
      rows.map codec.encode = (Keyset.walk MAX_RECOVERY_PAGE_SIZE
        (fun j => ownRows dbPrefix (raw j)) n i cursor).1 := by
  induction n generalizing i cursor with
  | zero => exact ⟨[], rfl, rfl⟩
  | succ n ih =>
    obtain ⟨rows, hpage, hrows, hissued⟩ := (hs i).recoveryPage_eq hp hc table none
    rw [show recoveryPageLimit none = MAX_RECOVERY_PAGE_SIZE from rfl] at hpage hrows hissued
    rw [forEachRecoveryEntry, recoveryEndpoint, hpage]
    dsimp only
    cases hnext : (Keyset.page (ownRows dbPrefix (raw i)) MAX_RECOVERY_PAGE_SIZE cursor).2 with
    | none =>
      refine ⟨rows, ?_, ?_⟩
      · rw [Keyset.walk_of_last hnext]
        rfl
      · rw [Keyset.walk_of_last hnext, hrows]
    | some c =>
      rw [hnext] at hissued
      obtain ⟨rest, hwalk, hrest⟩ := ih (i + 1) hissued
      refine ⟨rows ++ rest, ?_, ?_⟩
      · rw [Keyset.walk_of_more hnext]
        dsimp only
        rw [hwalk, List.map_append]
      · rw [Keyset.walk_of_more hnext, List.map_append, hrows, hrest]

theorem WalkEnd.ofWalk_returned {rest : Option (Option Bytes)} {result : Except ApiError Unit}
    (h : WalkEnd.ofWalk rest = .returned result) : rest = none ∧ result = .ok () := by
  cases rest with
  | none => exact ⟨rfl, (WalkEnd.returned.inj h).symm⟩
  | some cursor => cases h

/-- Rows in strict byte order have each key once. -/
theorem count_key {rows : List (K × V)}
    (hsorted : rows.Pairwise fun a b => codec.keyToBytes a.1 < codec.keyToBytes b.1) {r : K × V}
    (hr : r ∈ rows) : (rows.map Prod.fst).count r.1 = 1 := by
  refine List.count_eq_one_of_mem ?_ (List.mem_map_of_mem hr)
  refine List.pairwise_map.mpr (hsorted.imp ?_)
  intro a b hab heq
  exact absurd (congrArg codec.keyToBytes heq) hab.ne

/-- Finitely many keys in the tables are finitely many encoded keys. -/
theorem exists_keyBytes (hs : ∀ i, codec.Stores (raw i) (t i))
    (hfin : {k | ∃ i v, (t i).get? k = some v}.Finite) :
    ∃ S : Finset Bytes, ∀ j kb vb, (kb, vb) ∈ (ownRows dbPrefix (raw j)).rows → kb ∈ S := by
  refine ⟨hfin.toFinset.image codec.keyToBytes, ?_⟩
  intro j kb vb hrow
  obtain ⟨k, v, hkv, henc⟩ := (hs j).mem_ownRows.mp hrow
  rw [← (Prod.mk.inj henc).1]
  exact Finset.mem_image_of_mem _ (hfin.mem_toFinset.mpr ⟨j, v, hkv⟩)

/-- The walk from no cursor over a table that is stored at every request. -/
theorem completeWalk (hp : dbPrefix < 255) (hs : ∀ i, codec.Stores (raw i) (t i))
    (table : String) (entry : K × V → E) :
    CompleteWalk codec.keyToBytes t entry fun n =>
      forEachRecoveryEntry (fun i => recoveryEndpoint codec table entry (raw i)) n 0 none := by
  have hstart : codec.Issued none := nofun
  have hwalk := fun n => forEachRecoveryEntry_eq hp hs table entry n 0 hstart
  refine ⟨?_, ?_, ?_⟩
  · intro n
    obtain ⟨rows, hloop, hrows⟩ := hwalk n
    have hsorted := Keyset.walk_ascending MAX_RECOVERY_PAGE_SIZE
      (fun j => ownRows dbPrefix (raw j)) n 0 none
    rw [← hrows, List.pairwise_map] at hsorted
    refine ⟨rows, by rw [hloop], hsorted, ?_, ?_⟩
    · intro r hr
      have hmem : codec.encode r ∈ rows.map codec.encode := List.mem_map_of_mem hr
      rw [hrows] at hmem
      obtain ⟨-, j, -, hj, hrow⟩ := Keyset.walk_mem hmem
      obtain ⟨k, v, hkv, henc⟩ := (hs j).mem_ownRows.mp hrow
      rw [← RecordCodec.encode_injective henc]
      exact ⟨j, by omega, hkv⟩
    · intro hend k hstays
      have hdone := (WalkEnd.ofWalk_returned (hloop ▸ hend)).1
      obtain ⟨vb, hvb⟩ := Keyset.walk_complete (k := codec.keyToBytes k) (by decide) hdone nofun
        (by
          intro j _ hj
          obtain ⟨v, hv⟩ := hstays j (by omega)
          exact ⟨_, (hs j).mem_ownRows.mpr ⟨k, v, hv, rfl⟩⟩)
      rw [← hrows] at hvb
      obtain ⟨r, hr, henc⟩ := List.mem_map.mp hvb
      have hk : r.1 = k := RecordCodec.keyToBytes_injective (Prod.mk.inj henc).1
      rw [← hk]
      exact count_key hsorted hr
  · intro n e h
    obtain ⟨rows, hloop, -⟩ := hwalk n
    have hok := (WalkEnd.ofWalk_returned (hloop ▸ h)).2
    cases hok
  · intro hfin
    obtain ⟨S, hS⟩ := exists_keyBytes hs hfin
    obtain ⟨n, hn⟩ := Keyset.walk_finishes MAX_RECOVERY_PAGE_SIZE _ hS 0 none
    obtain ⟨rows, hloop, -⟩ := hwalk n
    refine ⟨n, ?_⟩
    rw [hloop, hn]
    rfl

end Walk

/-! ## Completeness and confinement -/

/-- What no request can break: only keys of the table are read, and a page holds at most the
clamped limit of rows, all from what was read. -/
def Confined {dbPrefix : UInt8} {K V : Type} (codec : RecordCodec dbPrefix K V)
    (table : String) : Prop :=
  ∀ (raw : RawDb) (request : RecoveryPageRequest),
    (∀ r ∈ recoveryScan dbPrefix raw request, r.1.head? = some dbPrefix) ∧
    ∀ page, recoveryPage codec raw table request = .ok page →
      page.rows.length ≤ recoveryPageLimit request.limit ∧
      recoveryPageLimit request.limit ≤ MAX_RECOVERY_PAGE_SIZE ∧
      ∀ r ∈ page.rows, ∃ r' ∈ recoveryScan dbPrefix raw request,
        codec.keyFromBytes r'.1 = .ok r.1

theorem confined {dbPrefix : UInt8} {K V : Type} (hp : dbPrefix < 255)
    (codec : RecordCodec dbPrefix K V) (table : String) : Confined codec table := by
  intro raw request
  refine ⟨fun r hr => recoveryScan_own hp raw request hr, ?_⟩
  intro page hpage
  obtain ⟨hlen, hrows⟩ := recoveryPage_bounded hpage
  exact ⟨hlen, recoveryPageLimit_le request.limit, hrows⟩

/-- **Recovery.** Whatever happens to the database between requests, both walks visit the rows of
their table that stay exactly once, in byte order, and end; no cursor makes a request read another
table or return more than a page. -/
theorem recovery_complete_and_confined (balances : BalanceCodec) (positions : LpPositionCodec)
    (raw : Nat → RawDb) (db : Nat → Db) (hbalance : ∀ i, balances.Stores (raw i) (db i).balance)
    (hposition : ∀ i, positions.Stores (raw i) (db i).lpPosition) :
    (CompleteWalk balances.keyToBytes (fun i => (db i).balance) balanceRecoveryEntry
        (forEachBalanceRecoveryEntry balances raw) ∧ Confined balances "Balance") ∧
      CompleteWalk positions.keyToBytes (fun i => (db i).lpPosition) lpRecoveryEntry
        (forEachLpRecoveryEntry positions raw) ∧ Confined positions "LpPosition" := by
  have hb : DbKeyPrefix.balance.byte < 255 := by decide
  have hl : DbKeyPrefix.lpPosition.byte < 255 := by decide
  refine ⟨⟨?_, confined hb balances "Balance"⟩, ?_, confined hl positions "LpPosition"⟩
  · exact completeWalk hb hbalance "Balance" balanceRecoveryEntry
  · exact completeWalk hl hposition "LpPosition" lpRecoveryEntry

namespace Sample

/-- Numbers written one behind the other, each as zeros closed by a one. -/
def writeNats (ns : List Nat) : Bytes := ns.flatMap fun n => List.replicate n 0 ++ [1]

def readNats : Nat → Bytes → List Nat
  | _, [] => []
  | zeros, b :: rest => if b = 0 then readNats (zeros + 1) rest else zeros :: readNats 0 rest

theorem readNats_replicate (zeros n : Nat) (rest : Bytes) :
    readNats zeros (List.replicate n 0 ++ 1 :: rest) = (zeros + n) :: readNats 0 rest := by
  induction n generalizing zeros with
  | zero => rfl
  | succ n ih =>
    rw [List.replicate_succ, List.cons_append, readNats, if_pos rfl, ih]
    congr 1
    omega

theorem readNats_writeNats (ns : List Nat) : readNats 0 (writeNats ns) = ns := by
  induction ns with
  | nil => rfl
  | cons n rest ih =>
    rw [writeNats, List.flatMap_cons, List.append_assoc, List.singleton_append,
      readNats_replicate, Nat.zero_add]
    exact congrArg _ ih

/-- A codec from a way to list a record's numbers; decoding accepts what encoding writes. -/
def codec {K V : Type} (dbPrefix : UInt8) (key : K → List Nat) (keyOf : List Nat → K)
    (value : V → List Nat) (valueOf : List Nat → V) (hkey : ∀ k, keyOf (key k) = k)
    (hvalue : ∀ v, valueOf (value v) = v) : RecordCodec dbPrefix K V where
  keyToBytes k := dbPrefix :: writeNats (key k)
  keyFromBytes b :=
    if dbPrefix :: writeNats (key (keyOf (readNats 0 b.tail))) ≠ b then .error "unexpected bytes"
    else .ok (keyOf (readNats 0 b.tail))
  valueToBytes v := writeNats (value v)
  valueFromBytes b := .ok (valueOf (readNats 0 b))
  keyFromBytes_toBytes k := by
    rw [List.tail_cons, readNats_writeNats, hkey, if_neg (not_not.mpr rfl)]
  keyFromBytes_inj b b' k hb hb' := by
    obtain ⟨heq, hk⟩ := of_ite_error hb
    obtain ⟨heq', hk'⟩ := of_ite_error hb'
    rw [← not_not.mp heq, ← not_not.mp heq', Except.ok.inj hk, Except.ok.inj hk']
  keyToBytes_head _ := rfl
  valueFromBytes_toBytes v := by rw [readNats_writeNats, hvalue]

def publicKeyOf (odd x : Nat) : PublicKey := ⟨odd == 1, Fin.ofNat _ x⟩

theorem publicKeyOf_numbers (pk : PublicKey) : publicKeyOf pk.odd.toNat pk.x = pk := by
  obtain ⟨odd, x⟩ := pk
  cases odd <;> simp [publicKeyOf]

theorem tweak_numbers (tweak : Bytes) :
    (tweak.map UInt8.toNat).map UInt8.ofNat = tweak := by
  simp [Function.comp_def]

/-- The other unit of a pool by its distance from the first. -/
theorem add_gap {lo hi : Nat} (h : lo < hi) : lo + (hi - lo - 1) + 1 = hi := by omega

def poolOf (lo gap : Nat) : PoolId := ⟨lo, lo + gap + 1, Nat.lt_succ_of_le (Nat.le_add_right _ _)⟩

theorem poolOf_numbers (p : PoolId) : poolOf p.lo (p.hi - p.lo - 1) = p := by
  obtain ⟨lo, hi, h⟩ := p
  simp only [poolOf, PoolId.mk.injEq, true_and]
  exact add_gap h

def balanceCodec : BalanceCodec :=
  codec _ (fun k => [(ofLex k).1.odd.toNat, (ofLex k).1.x, (ofLex k).2])
    (fun ns => toLex (publicKeyOf (ns.getD 0 0) (ns.getD 1 0), ns.getD 2 0))
    (fun v => v.amount :: v.tweak.map UInt8.toNat)
    (fun ns => ⟨ns.headD 0, ns.tail.map UInt8.ofNat⟩)
    (fun k => by
      show toLex (publicKeyOf (ofLex k).1.odd.toNat (ofLex k).1.x, (ofLex k).2) = k
      rw [publicKeyOf_numbers]
      rfl)
    (fun v => by
      show (⟨v.amount, (v.tweak.map UInt8.toNat).map UInt8.ofNat⟩ : BalanceEntry) = v
      rw [tweak_numbers])

def lpPositionCodec : LpPositionCodec :=
  codec _ (fun k => [(ofLex k).1.lo, (ofLex k).1.hi - (ofLex k).1.lo - 1,
      (ofLex k).2.odd.toNat, (ofLex k).2.x])
    (fun ns => toLex (poolOf (ns.getD 0 0) (ns.getD 1 0), publicKeyOf (ns.getD 2 0) (ns.getD 3 0)))
    (fun v => v.shares :: v.tweak.map UInt8.toNat)
    (fun ns => ⟨ns.headD 0, ns.tail.map UInt8.ofNat⟩)
    (fun k => by
      show toLex (poolOf (ofLex k).1.lo ((ofLex k).1.hi - (ofLex k).1.lo - 1),
        publicKeyOf (ofLex k).2.odd.toNat (ofLex k).2.x) = k
      rw [publicKeyOf_numbers, poolOf_numbers]
      rfl)
    (fun v => by
      show (⟨v.shares, (v.tweak.map UInt8.toNat).map UInt8.ofNat⟩ : LpPosition) = v
      rw [tweak_numbers])

def recoveryPool : PoolId := poolOf 0 0

def recoveryKey : PublicKey := publicKeyOf 1 7

/-- Keys of balances in 25 units for each public key. -/
def gridKey (x : Nat) : BalanceKey := toLex (publicKeyOf 1 (x / 25), x % 25)

theorem gridKey_injOn {x y : Nat} (hx : x < 1000) (hy : y < 1000) (h : gridKey x = gridKey y) :
    x = y := by
  have hunit : x % 25 = y % 25 := congrArg (fun k => (ofLex k).2) h
  have hkey : x / 25 % 2 ^ 256 = y / 25 % 2 ^ 256 :=
    congrArg (fun k : BalanceKey => (ofLex k).1.x.val) h
  omega

theorem gridKey_short {x : Nat} (hx : x < 1000) :
    (balanceCodec.keyToBytes (gridKey x)).length ≤ MAX_RECOVERY_CURSOR_LEN := by
  have hlen : (balanceCodec.keyToBytes (gridKey x)).length =
      1 + ((1 + 1) + ((x / 25 % 2 ^ 256 + 1) + ((x % 25 + 1) + 0))) := by
    simp only [balanceCodec, codec, gridKey, writeNats, publicKeyOf, ofLex_toLex, beq_self_eq_true,
      Bool.toNat_true, Fin.ofNat, List.flatMap_cons, List.flatMap_nil, List.length_cons,
      List.length_append, List.length_replicate, List.length_nil]
    omega
  unfold MAX_RECOVERY_CURSOR_LEN
  omega

/-- The balances of the first `n` keys. -/
def grid : Nat → Table BalanceKey BalanceEntry
  | 0 => .empty
  | n + 1 => (grid n).insert (gridKey n) ⟨n + 1, [9]⟩

theorem grid_get? {n x : Nat} (hx : x < n) : ∃ v, (grid n).get? (gridKey x) = some v := by
  induction n with
  | zero => exact absurd hx (Nat.not_lt_zero _)
  | succ n ih =>
    rw [grid, Table.get?_insert]
    split
    · exact ⟨_, rfl⟩
    · rename_i hne
      refine ih (Nat.lt_of_le_of_ne (Nat.le_of_lt_succ hx) ?_)
      rintro rfl
      exact hne rfl

def gridRaw (raw : RawDb) : Nat → RawDb
  | 0 => raw
  | n + 1 => (gridRaw raw n).insert (balanceCodec.keyToBytes (gridKey n))
      (balanceCodec.valueToBytes ⟨n + 1, [9]⟩)

theorem gridRaw_balance {raw : RawDb} (hs : balanceCodec.Stores raw .empty) {n : Nat}
    (hn : n ≤ 1000) : balanceCodec.Stores (gridRaw raw n) (grid n) := by
  induction n with
  | zero => exact hs
  | succ n ih => exact (ih (by omega)).insert (gridKey_short (by omega)) _

theorem gridRaw_lpPosition {raw : RawDb} {t : Table LpPositionKey LpPosition}
    (hs : lpPositionCodec.Stores raw t) (n : Nat) : lpPositionCodec.Stores (gridRaw raw n) t := by
  induction n with
  | zero => exact hs
  | succ n ih =>
    refine ih.insert_other _ ?_
    rw [balanceCodec.keyToBytes_head]
    decide

/-- A database with six hundred balances and two positions. -/
def recoveryDb : Db where
  pool := .empty
  lpPosition := (Table.empty.insert (toLex (recoveryPool, recoveryKey)) ⟨50, [7]⟩).insert
    (toLex (recoveryPool, publicKeyOf 0 3)) ⟨20, [8]⟩
  balance := grid 600
  feeVote := .empty

/-- The same database as it is stored. -/
def recoveryRaw : RawDb :=
  gridRaw ((Table.empty.insert (lpPositionCodec.keyToBytes (toLex (recoveryPool, recoveryKey)))
      (lpPositionCodec.valueToBytes ⟨50, [7]⟩)).insert
    (lpPositionCodec.keyToBytes (toLex (recoveryPool, publicKeyOf 0 3)))
      (lpPositionCodec.valueToBytes ⟨20, [8]⟩)) 600

/-- After the first request two balances are claimed, one of them on each page, and a new one is
credited; a position is withdrawn. -/
def recoveryDbs (i : Nat) : Db :=
  if i = 0 then recoveryDb
  else { recoveryDb with
    balance := ((recoveryDb.balance.erase (gridKey 550)).erase (gridKey 50)).insert (gridKey 700)
      ⟨5, [3]⟩
    lpPosition := recoveryDb.lpPosition.erase (toLex (recoveryPool, publicKeyOf 0 3)) }

def recoveryRaws (i : Nat) : RawDb :=
  if i = 0 then recoveryRaw
  else
    (((recoveryRaw.erase (balanceCodec.keyToBytes (gridKey 550))).erase
      (balanceCodec.keyToBytes (gridKey 50))).insert (balanceCodec.keyToBytes (gridKey 700))
        (balanceCodec.valueToBytes ⟨5, [3]⟩)).erase
      (lpPositionCodec.keyToBytes (toLex (recoveryPool, publicKeyOf 0 3)))

theorem recoveryRaw_balance : balanceCodec.Stores recoveryRaw recoveryDb.balance :=
  gridRaw_balance (((RecordCodec.stores_empty balanceCodec).insert_other _ (by decide)).insert_other
    _ (by decide)) (by omega)

theorem recoveryRaw_lpPosition : lpPositionCodec.Stores recoveryRaw recoveryDb.lpPosition :=
  gridRaw_lpPosition (((RecordCodec.stores_empty lpPositionCodec).insert (by decide +kernel)
    _).insert (by decide +kernel) _) _

theorem recoveryRaws_balance (i : Nat) :
    balanceCodec.Stores (recoveryRaws i) (recoveryDbs i).balance := by
  unfold recoveryRaws recoveryDbs
  split
  · exact recoveryRaw_balance
  · exact (((recoveryRaw_balance.erase _).erase _).insert (gridKey_short (by omega)) _).erase_other
      (by decide)

theorem recoveryRaws_lpPosition (i : Nat) :
    lpPositionCodec.Stores (recoveryRaws i) (recoveryDbs i).lpPosition := by
  unfold recoveryRaws recoveryDbs
  split
  · exact recoveryRaw_lpPosition
  · exact (((recoveryRaw_lpPosition.erase_other (by decide)).erase_other (by decide)).insert_other
      _ (by decide)).erase _

end Sample

/-- A walk that has ended has visited the keys that stay. -/
theorem CompleteWalk.visits_mem {K V E : Type} [LinearOrder K] {keyToBytes : K → Bytes}
    {t : Nat → Table K V} {entry : K × V → E} {walk : Nat → List E × WalkEnd}
    (h : CompleteWalk keyToBytes t entry walk) (n : Nat) :
    ∃ rows : List (K × V), (walk n).1 = rows.map entry ∧
      ((walk n).2 = .returned (.ok ()) → ∀ k, (∀ i < n, ∃ v, (t i).get? k = some v) →
        k ∈ rows.map Prod.fst) := by
  obtain ⟨rows, hrows, -, -, hcount⟩ := h.visits n
  refine ⟨rows, hrows, fun hend k hstays => List.count_pos_iff.1 ?_⟩
  rw [hcount hend k hstays]
  exact Nat.one_pos

/-- One request visits at most a page. -/
theorem forEachRecoveryEntry_one {dbPrefix : UInt8} {K V E : Type}
    {codec : RecordCodec dbPrefix K V} {table : String} (h : Confined codec table)
    (entry : K × V → E) (raw : Nat → RawDb) :
    (forEachRecoveryEntry (fun i => recoveryEndpoint codec table entry (raw i)) 1 0 none).1.length ≤
      MAX_RECOVERY_PAGE_SIZE := by
  rw [forEachRecoveryEntry, recoveryEndpoint]
  cases hpage : recoveryPage codec (raw 0) table ⟨none, none⟩ with
  | error e => exact Nat.zero_le _
  | ok page =>
    have hlen := ((h (raw 0) ⟨none, none⟩).2 page hpage).1
    dsimp only
    split
    · rw [List.length_map]
      exact hlen
    · rw [List.length_append, List.length_map]
      exact hlen

/-- The walk over the balances takes more than one request, and rows come and go between them. -/
theorem recovery_complete_and_confined_claimed :
    (CompleteWalk Sample.balanceCodec.keyToBytes (fun i => (Sample.recoveryDbs i).balance)
        balanceRecoveryEntry
        (forEachBalanceRecoveryEntry Sample.balanceCodec Sample.recoveryRaws) ∧
      Confined Sample.balanceCodec "Balance") ∧
    (CompleteWalk Sample.lpPositionCodec.keyToBytes (fun i => (Sample.recoveryDbs i).lpPosition)
        lpRecoveryEntry (forEachLpRecoveryEntry Sample.lpPositionCodec Sample.recoveryRaws) ∧
      Confined Sample.lpPositionCodec "LpPosition") ∧
    ∃ cursor, (forEachBalanceRecoveryEntry Sample.balanceCodec Sample.recoveryRaws 1).2 =
      .asking cursor := by
  have hall := recovery_complete_and_confined Sample.balanceCodec Sample.lpPositionCodec
    Sample.recoveryRaws Sample.recoveryDbs Sample.recoveryRaws_balance
    Sample.recoveryRaws_lpPosition
  refine ⟨hall.1, hall.2, ?_⟩
  obtain ⟨rows, hrows, hmem⟩ := hall.1.1.visits_mem 1
  cases hend : (forEachBalanceRecoveryEntry Sample.balanceCodec Sample.recoveryRaws 1).2 with
  | asking cursor => exact ⟨cursor, rfl⟩
  | returned result =>
    cases result with
    | error e => exact absurd hend (hall.1.1.succeeds 1 e)
    | ok =>
      -- a page with all six hundred rows would be too long
      have hkeys : (List.range 600).map Sample.gridKey ⊆ rows.map Prod.fst := by
        intro k hk
        obtain ⟨x, hx, rfl⟩ := List.mem_map.1 hk
        refine hmem hend (Sample.gridKey x) fun i hi => ?_
        obtain rfl : i = 0 := by omega
        exact Sample.grid_get? (List.mem_range.1 hx)
      have hnodup : ((List.range 600).map Sample.gridKey).Nodup := by
        refine List.Nodup.map_on (fun x hx y hy h => ?_) List.nodup_range
        exact Sample.gridKey_injOn ((List.mem_range.1 hx).trans (by omega))
          ((List.mem_range.1 hy).trans (by omega)) h
      have hlong := (hnodup.subperm hkeys).length_le
      have hpage := forEachRecoveryEntry_one hall.1.2 balanceRecoveryEntry Sample.recoveryRaws
      have hlen : (forEachBalanceRecoveryEntry Sample.balanceCodec Sample.recoveryRaws 1).1.length =
          rows.length := by rw [hrows, List.length_map]
      rw [List.length_map, List.length_range, List.length_map, ← hlen] at hlong
      exact absurd (hlong.trans hpage) (by decide)

end Experimint.FedimintAmm
