import Mathlib.Data.List.Nodup
import Experimint.Lib.GapScan
import Experimint.Usdt.ScanTweak

/-!
# The scan for deposits of a seed

The client hands out deposit addresses by index.  After a loss of its database it walks the indices
from zero, asks the federation about two keys at each of them, and stops after a gap of indices
without a credited key.  Indices are natural numbers here: the 64-bit counters of the source could
only wrap after that many key derivations.

* `ClaimKeys` — the derivation, with the two facts about the curve that recovery relies on.
* `ClaimKeys.ground_eq_iff` — when the two keys of an index are one.
* `Probed`, `Visited` — the state after some keys of an index, and after the first `n` indices.
* `recoverDepositsScan_eq` — enough fuel runs the scan to the first gap.
-/

set_option autoImplicit false

namespace Experimint.FedimintUsdt

/-- Derivation of claim keys from a seed: the client's view, the key pair of each index, and the two
facts about the curve that recovery relies on.  A key pair is its secret key. -/
structure ClaimKeys (S P : Type) [Ring S] [AddCommGroup P] [Module S P] extends
    Grinder S P where
  claimKeypairStatic : Nat → Key S
  compressed_injective : Function.Injective curve.compressed
  /-- The group is larger than the range of tweaks. -/
  natCast_ne_zero : ∀ t : Nat, 0 < t → t < MAX_SCAN_GRIND_ITERATIONS → (t : S) ≠ 0

section Keys

variable {S P : Type} [Ring S] [AddCommGroup P] [Module S P]

def ClaimKeys.publicKey (keys : ClaimKeys S P) (sk : Key S) : PublicKey :=
  keys.curve.compressed (keys.curve.publicKey sk)

theorem ClaimKeys.publicKey_injective (keys : ClaimKeys S P) :
    Function.Injective keys.publicKey :=
  fun _ _ h => Curve.publicKey_inj (keys.compressed_injective h)

/-- Public key of the untweaked key pair of an index. -/
def ClaimKeys.claimKeypair (keys : ClaimKeys S P) (index : Nat) : PublicKey :=
  keys.publicKey (keys.claimKeypairStatic index)

def ClaimKeys.depositAddress (keys : ClaimKeys S P) (claimPk : PublicKey) : EvmAddress :=
  keys.evm.create2SimpleAccount keys.cfg.accountFactory keys.cfg.simpleAccountImpl
    (keys.evm.evmAddress keys.cfg.groupPublicKey) (keys.evm.depositSalt claimPk)

/-- The recognisable key of an index. -/
def ClaimKeys.groundClaimKeypairForIndex [DecidableEq P] [DecidableEq S] (keys : ClaimKeys S P)
    (index : Nat) : Except String (Nat × PublicKey × EvmAddress) :=
  match keys.groundClaimKeypairStatic (keys.claimKeypairStatic index) with
  | .error message => .error message
  | .ok (tweak, sk, account) => .ok (tweak, keys.publicKey sk, account)

end Keys

/-- The part of the client's database that allocation and recovery use.  A key pair is kept by its
public key, which determines it. -/
structure DepositDb where
  nextDepositIndex : Option Nat
  claimKey : Table EvmAddress PublicKey

def DepositDb.nextIndex (db : DepositDb) : Nat := db.nextDepositIndex.getD 0

def DepositDb.storeKey (db : DepositDb) (account : EvmAddress) (claimPk : PublicKey) : DepositDb :=
  { db with claimKey := db.claimKey.insert account claimPk }

/-! ## Allocation -/

inductive BootstrapState where
  | awaitingInfra
  | ready
  | degraded
deriving DecidableEq

def BootstrapState.text : BootstrapState → String
  | .awaitingInfra => "AwaitingInfra"
  | .ready => "Ready"
  | .degraded => "Degraded"

structure StatusResponse where
  state : BootstrapState
  entryPointOk : Bool
  factoryOk : Bool
  implOk : Bool
  fundedGuardians : Nat
  healthyGuardians : Nat
  threshold : Nat

def StatusResponse.refusal (status : StatusResponse) : String :=
  "federation not ready to accept deposits (state: " ++ status.state.text ++
    "); entry_point_ok=" ++ toString status.entryPointOk ++
    ", factory_ok=" ++ toString status.factoryOk ++ ", impl_ok=" ++ toString status.implOk ++
    ", funded_guardians=" ++ toString status.fundedGuardians ++
    ", healthy_guardians=" ++ toString status.healthyGuardians ++
    ", threshold=" ++ toString status.threshold

section Client

variable {S P : Type} [Ring S] [AddCommGroup P] [Module S P] [DecidableEq P] [DecidableEq S]

/-- Hands out the next address.  The index is reported with it; the source keeps it in the key. -/
def ClaimKeys.allocateDeposit (keys : ClaimKeys S P) (status : StatusResponse) (db : DepositDb) :
    Except String (Nat × PublicKey × EvmAddress) × DepositDb :=
  if status.state ≠ .ready then (.error status.refusal, db)
  else
    let index := db.nextIndex
    match keys.groundClaimKeypairForIndex index with
    | .error message => (.error message, db)
    | .ok (_, claimPk, account) =>
      (.ok (index, claimPk, account),
        { db with nextDepositIndex := some (index + 1) }.storeKey account claimPk)

end Client

/-! ## Recovery -/

structure DepositStatusResponse where
  account : EvmAddress
  credited : UsdtAmount
  claimed : UsdtAmount
  claimable : UsdtAmount

structure RecoveredAccount where
  index : Nat
  account : EvmAddress
  claimPk : PublicKey
  credited : UsdtAmount
  claimable : UsdtAmount

structure CheckedAccount where
  index : Nat
  account : EvmAddress
  claimPk : PublicKey

structure RecoverySummary where
  recovered : Nat
  totalCredited : UsdtAmount
  totalClaimable : UsdtAmount
  accounts : List RecoveredAccount
  checked : List CheckedAccount

/-- Variables of the scan loop, with the database it writes to as it goes. -/
structure RecoveryState where
  db : DepositDb
  accounts : List RecoveredAccount
  checked : List CheckedAccount
  totalCredited : UsdtAmount
  totalClaimable : UsdtAmount
  highestUsedIndex : Option Nat
  consecutiveMisses : Nat
  index : Nat

def RecoveryState.init (db : DepositDb) : RecoveryState :=
  ⟨db, [], [], U64.zero, U64.zero, none, 0, 0⟩

section Scan

variable {S P : Type} [Ring S] [AddCommGroup P] [Module S P] [DecidableEq P] [DecidableEq S]
variable (keys : ClaimKeys S P) (depositStatus : PublicKey → DepositStatusResponse)
  (checkUncredited : Bool) (gapLimit : Nat)

/-- The federation has credited a deposit of this key. -/
def Credited (claimPk : PublicKey) : Bool := decide (0 < (depositStatus claimPk).credited.raw)

/-- Entry of the summary for a credited key. -/
def recoveredAt (index : Nat) (claimPk : PublicKey) : RecoveredAccount :=
  let status := depositStatus claimPk
  ⟨index, status.account, claimPk, status.credited, status.claimable⟩

/-- Asks for one key at the current index. -/
def RecoveryState.probe (s : RecoveryState) (claimPk : PublicKey) : RecoveryState :=
  let status := depositStatus claimPk
  if Credited depositStatus claimPk then
    { s with
      db := s.db.storeKey status.account claimPk
      totalCredited := U64.satAdd s.totalCredited status.credited
      totalClaimable := U64.satAdd s.totalClaimable status.claimable
      accounts := s.accounts ++ [recoveredAt depositStatus s.index claimPk] }
  else if checkUncredited then
    { s with
      db := s.db.storeKey status.account claimPk
      checked := s.checked ++ [⟨s.index, status.account, claimPk⟩] }
  else s

/-- Keys to ask for at an index; the untweaked one only where it differs. -/
def ClaimKeys.probes (index : Nat) : List PublicKey :=
  match keys.groundClaimKeypairForIndex index with
  | .error _ => []
  | .ok (tweak, ground, _) =>
    if tweak ≠ 0 then [ground, keys.claimKeypair index] else [ground]

/-- An index is a hit if any of its keys is credited. -/
def ClaimKeys.used (index : Nat) : Bool := (keys.probes index).any (Credited depositStatus)

/-- Counts the index as a hit or a miss and moves on. -/
def RecoveryState.count (s : RecoveryState) (indexHit : Bool) : RecoveryState :=
  if indexHit then
    { s with highestUsedIndex := some s.index, consecutiveMisses := 0, index := s.index + 1 }
  else { s with consecutiveMisses := s.consecutiveMisses + 1, index := s.index + 1 }

/-- One turn of the loop. -/
def recoverIndex (s : RecoveryState) : Except String RecoveryState :=
  match keys.groundClaimKeypairForIndex s.index with
  | .error message => .error message
  | .ok _ =>
    .ok (((keys.probes s.index).foldl (RecoveryState.probe depositStatus checkUncredited) s).count
      (keys.used depositStatus s.index))

/-- The loop; `none` when the fuel runs out before it ends.  What it has stored stays stored if the
search for a key fails. -/
def recoverLoop : (fuel : Nat) → RecoveryState → Option (Except String Unit × RecoveryState)
  | 0, s => if s.consecutiveMisses < gapLimit then none else some (.ok (), s)
  | fuel + 1, s =>
    if s.consecutiveMisses < gapLimit then
      match recoverIndex keys depositStatus checkUncredited s with
      | .error e => some (.error e, s)
      | .ok s' => recoverLoop fuel s'
    else some (.ok (), s)

/-- Moves the counter past the highest hit, never back. -/
def RecoveryState.finish (s : RecoveryState) : RecoverySummary × DepositDb :=
  (⟨s.accounts.length, s.totalCredited, s.totalClaimable, s.accounts, s.checked⟩,
    match s.highestUsedIndex with
    | none => s.db
    | some highest => { s.db with nextDepositIndex := some (max s.db.nextIndex (highest + 1)) })

def recoverDepositsScan (fuel : Nat) (db : DepositDb) :
    Option (Except String RecoverySummary × DepositDb) :=
  match recoverLoop keys depositStatus checkUncredited gapLimit fuel (.init db) with
  | none => none
  | some (.error e, s) => some (.error e, s.db)
  | some (.ok (), s) => some (.ok s.finish.1, s.finish.2)

end Scan

variable {S P : Type} [Ring S] [AddCommGroup P] [Module S P] [DecidableEq P] [DecidableEq S]
variable {keys : ClaimKeys S P} {depositStatus : PublicKey → DepositStatusResponse}
  {checkUncredited : Bool} {gapLimit : Nat}

/-! ## The keys of an index -/

/-- The key is the untweaked or the recognisable one of the index. -/
def ClaimKeys.IsKeyAt (keys : ClaimKeys S P) (index : Nat) (claimPk : PublicKey) : Prop :=
  claimPk = keys.claimKeypair index ∨ ∃ tweak account,
    keys.groundClaimKeypairForIndex index = .ok (tweak, claimPk, account)

/-- The recognisable key is the untweaked one exactly where the tweak is zero. -/
theorem ClaimKeys.ground_eq_iff {index tweak : Nat} {ground : PublicKey} {account : EvmAddress}
    (h : keys.groundClaimKeypairForIndex index = .ok (tweak, ground, account)) :
    ground = keys.claimKeypair index ↔ tweak = 0 := by
  unfold ClaimKeys.groundClaimKeypairForIndex at h
  split at h
  · cases h
  · rename_i sk _ hground
    cases h
    obtain ⟨hlt, hsk⟩ := Grinder.groundFrom_ok hground
    unfold ClaimKeys.claimKeypair
    rw [keys.publicKey_injective.eq_iff, ← Subtype.coe_inj, hsk, add_eq_left]
    constructor
    · intro hzero
      by_contra hne
      exact keys.natCast_ne_zero tweak (Nat.pos_of_ne_zero hne) hlt hzero
    · rintro rfl
      exact Nat.cast_zero

theorem ClaimKeys.probes_eq {index tweak : Nat} {ground : PublicKey} {account : EvmAddress}
    (h : keys.groundClaimKeypairForIndex index = .ok (tweak, ground, account)) :
    keys.probes index =
      if tweak ≠ 0 then [ground, keys.claimKeypair index] else [ground] := by
  unfold ClaimKeys.probes
  rw [h]

theorem ClaimKeys.mem_probes {index : Nat} {claimPk : PublicKey}
    (hgrind : ∃ r, keys.groundClaimKeypairForIndex index = .ok r) :
    claimPk ∈ keys.probes index ↔ keys.IsKeyAt index claimPk := by
  obtain ⟨⟨tweak, ground, account⟩, hground⟩ := hgrind
  have hat : keys.IsKeyAt index claimPk ↔
      claimPk = keys.claimKeypair index ∨ claimPk = ground := by
    unfold ClaimKeys.IsKeyAt
    rw [hground]
    constructor
    · rintro (hbase | ⟨t, a, heq⟩)
      · exact .inl hbase
      · exact .inr (congrArg (fun r => r.2.1) (Except.ok.inj heq)).symm
    · rintro (hbase | rfl)
      · exact .inl hbase
      · exact .inr ⟨tweak, account, rfl⟩
  rw [hat, ClaimKeys.probes_eq hground]
  by_cases htweak : tweak = 0
  · -- without a tweak the two keys are the same
    have hsame := (ClaimKeys.ground_eq_iff hground).2 htweak
    rw [if_neg (not_not_intro htweak), hsame, List.mem_singleton, or_self]
  · rw [if_pos htweak, List.mem_cons, List.mem_singleton, or_comm]

theorem ClaimKeys.nodup_probes (keys : ClaimKeys S P) (index : Nat) :
    (keys.probes index).Nodup := by
  cases hground : keys.groundClaimKeypairForIndex index with
  | error message =>
    unfold ClaimKeys.probes
    rw [hground]
    exact List.nodup_nil
  | ok r =>
    obtain ⟨tweak, ground, account⟩ := r
    rw [ClaimKeys.probes_eq hground]
    split
    · rename_i htweak
      refine List.nodup_cons.2 ⟨fun hmem => htweak ?_, List.nodup_singleton _⟩
      exact (ClaimKeys.ground_eq_iff hground).1 (List.mem_singleton.1 hmem)
    · exact List.nodup_singleton _

/-! ## One index -/

/-- What asking for a list of keys does to the state `s`. -/
structure Probed (depositStatus : PublicKey → DepositStatusResponse) (s : RecoveryState)
    (claimPks : List PublicKey) (s' : RecoveryState) : Prop where
  index : s'.index = s.index
  misses : s'.consecutiveMisses = s.consecutiveMisses
  highest : s'.highestUsedIndex = s.highestUsedIndex
  next : s'.db.nextDepositIndex = s.db.nextDepositIndex
  accounts : s'.accounts = s.accounts ++
    (claimPks.filter (Credited depositStatus)).map (recoveredAt depositStatus s.index)
  stored : ∀ account,
    (s'.db.claimKey.get? account = s.db.claimKey.get? account ∧
      ∀ pk ∈ claimPks, Credited depositStatus pk = true → (depositStatus pk).account ≠ account) ∨
    ∃ pk ∈ claimPks, (depositStatus pk).account = account ∧
      s'.db.claimKey.get? account = some pk

theorem probe_probed (s : RecoveryState) (claimPk : PublicKey) :
    Probed depositStatus s [claimPk] (s.probe depositStatus checkUncredited claimPk) := by
  have hstore : ∀ (db : DepositDb) (account : EvmAddress),
      ((db.storeKey (depositStatus claimPk).account claimPk).claimKey.get? account =
          db.claimKey.get? account ∧
        ∀ pk ∈ [claimPk], Credited depositStatus pk = true →
          (depositStatus pk).account ≠ account) ∨
      ∃ pk ∈ [claimPk], (depositStatus pk).account = account ∧
        (db.storeKey (depositStatus claimPk).account claimPk).claimKey.get? account = some pk := by
    intro db account
    by_cases haccount : (depositStatus claimPk).account = account
    · subst haccount
      exact .inr ⟨claimPk, List.mem_singleton_self _, rfl, Table.get?_insert_self _ _ _⟩
    · refine .inl ⟨Table.get?_insert_ne _ _ haccount, ?_⟩
      intro pk hpk _
      rw [List.mem_singleton.1 hpk]
      exact haccount
  unfold RecoveryState.probe
  dsimp only
  split
  · rename_i hcredited
    refine ⟨rfl, rfl, rfl, rfl, ?_, hstore s.db⟩
    rw [List.filter_cons_of_pos hcredited]
    rfl
  · rename_i hcredited
    have hnone : [claimPk].filter (Credited depositStatus) = [] :=
      List.filter_cons_of_neg hcredited
    split
    · refine ⟨rfl, rfl, rfl, rfl, ?_, hstore s.db⟩
      rw [hnone, List.map_nil, List.append_nil]
    · refine ⟨rfl, rfl, rfl, rfl, ?_, fun account => .inl ⟨rfl, ?_⟩⟩
      · rw [hnone, List.map_nil, List.append_nil]
      · intro pk hpk hpos
        rw [List.mem_singleton.1 hpk] at hpos
        exact absurd hpos hcredited

theorem Probed.trans {s s' s'' : RecoveryState} {pks pks' : List PublicKey}
    (h : Probed depositStatus s pks s') (h' : Probed depositStatus s' pks' s'') :
    Probed depositStatus s (pks ++ pks') s'' where
  index := h'.index.trans h.index
  misses := h'.misses.trans h.misses
  highest := h'.highest.trans h.highest
  next := h'.next.trans h.next
  accounts := by
    rw [h'.accounts, h.accounts, h.index, List.filter_append, List.map_append, List.append_assoc]
  stored := by
    intro account
    rcases h'.stored account with ⟨hsame', hnone'⟩ | ⟨pk, hpk, haccount, hget⟩
    · rcases h.stored account with ⟨hsame, hnone⟩ | ⟨pk, hpk, haccount, hget⟩
      · refine .inl ⟨hsame'.trans hsame, ?_⟩
        intro pk hpk
        rcases List.mem_append.1 hpk with hpk | hpk
        · exact hnone pk hpk
        · exact hnone' pk hpk
      · exact .inr ⟨pk, List.mem_append_left _ hpk, haccount, hsame'.trans hget⟩
    · exact .inr ⟨pk, List.mem_append_right _ hpk, haccount, hget⟩

theorem foldl_probed (depositStatus : PublicKey → DepositStatusResponse)
    (checkUncredited : Bool) (claimPks : List PublicKey) (s : RecoveryState) :
    Probed depositStatus s claimPks
      (claimPks.foldl (RecoveryState.probe depositStatus checkUncredited) s) := by
  induction claimPks generalizing s with
  | nil =>
    refine ⟨rfl, rfl, rfl, rfl, (List.append_nil _).symm, fun account => .inl ⟨rfl, ?_⟩⟩
    intro pk hpk
    cases hpk
  | cons pk rest ih => exact (probe_probed s pk).trans (ih _)

/-! ## The scan -/

/-- State of the scan after the indices below `n`. -/
structure Visited (keys : ClaimKeys S P) (depositStatus : PublicKey → DepositStatusResponse)
    (db : DepositDb) (n : Nat) (s : RecoveryState) : Prop where
  index : s.index = n
  misses : s.consecutiveMisses = missesBefore (keys.used depositStatus) n
  next : s.db.nextDepositIndex = db.nextDepositIndex
  accounts : s.accounts = (List.range n).flatMap fun i =>
    ((keys.probes i).filter (Credited depositStatus)).map (recoveredAt depositStatus i)
  highest : ∀ h, s.highestUsedIndex = some h ↔
    h < n ∧ keys.used depositStatus h = true ∧
      ∀ k, k < n → keys.used depositStatus k = true → k ≤ h
  stored : ∀ i, i < n → ∀ pk ∈ keys.probes i, Credited depositStatus pk = true →
    ∃ j pk', pk' ∈ keys.probes j ∧ (depositStatus pk').account = (depositStatus pk).account ∧
      s.db.claimKey.get? (depositStatus pk).account = some pk'

theorem visited_init (db : DepositDb) : Visited keys depositStatus db 0 (.init db) := by
  refine ⟨rfl, rfl, rfl, rfl, ?_, ?_⟩
  · intro h
    constructor
    · intro hsome
      cases hsome
    · rintro ⟨hlt, -⟩
      exact absurd hlt (Nat.not_lt_zero h)
  · intro i hi
    exact absurd hi (Nat.not_lt_zero i)

theorem highest_hit {n h : Nat} (hused : keys.used depositStatus n = true) :
    some n = some h ↔ h < n + 1 ∧ keys.used depositStatus h = true ∧
      ∀ k, k < n + 1 → keys.used depositStatus k = true → k ≤ h := by
  constructor
  · intro heq
    obtain rfl := Option.some.inj heq
    exact ⟨Nat.lt_succ_self n, hused, fun k hk _ => Nat.le_of_lt_succ hk⟩
  · rintro ⟨hlt, -, hmax⟩
    have := hmax n (Nat.lt_succ_self n) hused
    exact congrArg some (by omega)

theorem highest_miss {n h : Nat} {highest : Option Nat} (hused : keys.used depositStatus n = false)
    (hold : highest = some h ↔ h < n ∧ keys.used depositStatus h = true ∧
      ∀ k, k < n → keys.used depositStatus k = true → k ≤ h) :
    highest = some h ↔ h < n + 1 ∧ keys.used depositStatus h = true ∧
      ∀ k, k < n + 1 → keys.used depositStatus k = true → k ≤ h := by
  have hne : ∀ k, keys.used depositStatus k = true → k ≠ n := by
    rintro k hk rfl
    exact Bool.false_ne_true (hused.symm.trans hk)
  rw [hold]
  constructor
  · rintro ⟨hlt, hh, hmax⟩
    refine ⟨Nat.lt_succ_of_lt hlt, hh, ?_⟩
    intro k hk hku
    have := hne k hku
    exact hmax k (by omega) hku
  · rintro ⟨hlt, hh, hmax⟩
    have := hne h hh
    exact ⟨by omega, hh, fun k hk hku => hmax k (Nat.lt_succ_of_lt hk) hku⟩

/-- A credited key of an index visited so far has a key stored under its account. -/
theorem Visited.stored_next {db : DepositDb} {n : Nat} {s t : RecoveryState}
    (h : Visited keys depositStatus db n s) (hprobed : Probed depositStatus s (keys.probes n) t)
    {i : Nat} (hi : i < n + 1) {pk : PublicKey} (hpk : pk ∈ keys.probes i)
    (hcredited : Credited depositStatus pk = true) :
    ∃ j pk', pk' ∈ keys.probes j ∧ (depositStatus pk').account = (depositStatus pk).account ∧
      t.db.claimKey.get? (depositStatus pk).account = some pk' := by
  rcases hprobed.stored (depositStatus pk).account with
    ⟨hsame, hnone⟩ | ⟨pk', hpk', haccount, hget⟩
  · -- not written at this index, so the key is of an earlier one
    rcases Nat.lt_or_eq_of_le (Nat.le_of_lt_succ hi) with hlt | rfl
    · rw [hsame]
      exact h.stored i hlt pk hpk hcredited
    · exact absurd rfl (hnone pk hpk hcredited)
  · exact ⟨n, pk', hpk', haccount, hget⟩

/-- One turn of the loop visits one more index. -/
theorem Visited.next_index {db : DepositDb} {n : Nat} {s : RecoveryState}
    (h : Visited keys depositStatus db n s) (checkUncredited : Bool)
    (hgrind : ∃ r, keys.groundClaimKeypairForIndex n = .ok r) :
    ∃ s', recoverIndex keys depositStatus checkUncredited s = .ok s' ∧
      Visited keys depositStatus db (n + 1) s' := by
  obtain ⟨r, hground⟩ := hgrind
  have hprobed := foldl_probed depositStatus checkUncredited (keys.probes n) s
  have hstep : recoverIndex keys depositStatus checkUncredited s =
      .ok (((keys.probes n).foldl (RecoveryState.probe depositStatus checkUncredited) s).count
        (keys.used depositStatus n)) := by
    unfold recoverIndex
    rw [h.index, hground]
  refine ⟨_, hstep, ?_⟩
  generalize (keys.probes n).foldl (RecoveryState.probe depositStatus checkUncredited) s = t
    at hprobed ⊢
  have haccounts : t.accounts = (List.range (n + 1)).flatMap fun i =>
      ((keys.probes i).filter (Credited depositStatus)).map (recoveredAt depositStatus i) := by
    rw [hprobed.accounts, h.accounts, h.index, List.range_succ, List.flatMap_append,
      List.flatMap_singleton]
  have hindex : t.index + 1 = n + 1 := congrArg (· + 1) (hprobed.index.trans h.index)
  have hnext := hprobed.next.trans h.next
  unfold RecoveryState.count
  cases hused : keys.used depositStatus n with
  | true =>
    rw [if_pos rfl]
    refine ⟨hindex, ?_, hnext, haccounts, ?_,
      fun _ hi _ hpk hcredited => h.stored_next hprobed hi hpk hcredited⟩
    · rw [missesBefore, if_pos hused]
    · intro k
      dsimp only
      rw [hprobed.index, h.index]
      exact highest_hit hused
  | false =>
    rw [if_neg Bool.false_ne_true]
    refine ⟨hindex, ?_, hnext, haccounts, ?_,
      fun _ hi _ hpk hcredited => h.stored_next hprobed hi hpk hcredited⟩
    · rw [missesBefore, hused, if_neg Bool.false_ne_true, ← h.misses, ← hprobed.misses]
    · intro k
      dsimp only
      rw [hprobed.highest]
      exact highest_miss hused (h.highest k)

theorem recoverLoop_of_done {fuel : Nat} {s : RecoveryState} (h : gapLimit ≤ s.consecutiveMisses) :
    recoverLoop keys depositStatus checkUncredited gapLimit fuel s = some (.ok (), s) := by
  cases fuel with
  | zero =>
    unfold recoverLoop
    exact if_neg (Nat.not_lt.2 h)
  | succ fuel =>
    unfold recoverLoop
    exact if_neg (Nat.not_lt.2 h)

theorem recoverLoop_of_ok {fuel : Nat} {s s' : RecoveryState} (h : s.consecutiveMisses < gapLimit)
    (hstep : recoverIndex keys depositStatus checkUncredited s = .ok s') :
    recoverLoop keys depositStatus checkUncredited gapLimit (fuel + 1) s =
      recoverLoop keys depositStatus checkUncredited gapLimit fuel s' := by
  rw [recoverLoop, if_pos h, hstep]

/-- **Enough fuel runs the loop to the first gap**, and more fuel changes nothing. -/
theorem recoverLoop_stops {db : DepositDb} {n m : Nat} {s : RecoveryState}
    (checkUncredited : Bool)
    (hgrind : ∀ i, ∃ r, keys.groundClaimKeypairForIndex i = .ok r)
    (hstop : StopsAt (keys.used depositStatus) gapLimit n)
    (h : Visited keys depositStatus db m s) (hm : m ≤ n) :
    ∃ s', Visited keys depositStatus db n s' ∧ ∀ fuel, n - m ≤ fuel →
      recoverLoop keys depositStatus checkUncredited gapLimit fuel s = some (.ok (), s') := by
  -- on the number of indices still to visit
  induction hk : n - m generalizing m s with
  | zero =>
    obtain rfl : m = n := by omega
    refine ⟨s, h, fun fuel _ => recoverLoop_of_done ?_⟩
    rw [h.misses]
    exact hstop.stops
  | succ k ih =>
    obtain ⟨s', hstep, hnext⟩ := h.next_index checkUncredited (hgrind m)
    obtain ⟨s'', hend, hloop⟩ := ih hnext (by omega) (by omega)
    refine ⟨s'', hend, ?_⟩
    intro fuel hfuel
    obtain ⟨fuel, rfl⟩ : ∃ f, fuel = f + 1 := ⟨fuel - 1, by omega⟩
    have hlt : s.consecutiveMisses < gapLimit := by
      rw [h.misses]
      exact hstop.before m (by omega)
    rw [recoverLoop_of_ok hlt hstep]
    exact hloop fuel (by omega)

theorem recoverDepositsScan_eq (checkUncredited : Bool) (db : DepositDb) {n : Nat}
    (hgrind : ∀ i, ∃ r, keys.groundClaimKeypairForIndex i = .ok r)
    (hstop : StopsAt (keys.used depositStatus) gapLimit n) :
    ∃ s, Visited keys depositStatus db n s ∧ ∀ fuel, n ≤ fuel →
      recoverDepositsScan keys depositStatus checkUncredited gapLimit fuel db =
        some (.ok s.finish.1, s.finish.2) := by
  obtain ⟨s, hs, hloop⟩ := recoverLoop_stops checkUncredited hgrind hstop
    (visited_init db) (Nat.zero_le n)
  refine ⟨s, hs, ?_⟩
  intro fuel hfuel
  unfold recoverDepositsScan
  rw [hloop fuel hfuel]

end Experimint.FedimintUsdt
