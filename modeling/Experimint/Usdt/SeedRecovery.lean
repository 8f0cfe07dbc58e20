import Mathlib.Data.Set.Finite.Lattice
import Experimint.Lib.Run
import Experimint.Usdt.SeedScan

/-!
# Recovery of deposits from the seed

What a scan to the first gap reports and stores, and what its counter means for later calls of the
client.

* `Visited.mem_accounts`, `Visited.nodup_accounts`, `Visited.claimKey_stored` — the report.
* `clientRun_nextIndex` — allocations and further recoveries in any order.
* `seed_recovery_exact` — the reported indices are the reachable ones, and stay taken.
-/

set_option autoImplicit false

namespace Experimint.FedimintUsdt

variable {S P : Type} [Ring S] [AddCommGroup P] [Module S P] [DecidableEq P] [DecidableEq S]
variable {keys : ClaimKeys S P} {depositStatus : PublicKey → DepositStatusResponse}
  {checkUncredited : Bool} {gapLimit : Nat}

/-! ## What a scan reports -/

theorem used_iff {index : Nat} : keys.used depositStatus index = true ↔
    ∃ pk ∈ keys.probes index, Credited depositStatus pk = true := by
  unfold ClaimKeys.used
  rw [List.any_eq_true]

section Report

variable {db : DepositDb} {n : Nat} {s : RecoveryState}

theorem Visited.mem_accounts (h : Visited keys depositStatus db n s) {r : RecoveredAccount} :
    r ∈ s.accounts ↔ ∃ i, i < n ∧ ∃ pk ∈ keys.probes i, Credited depositStatus pk = true ∧
      r = recoveredAt depositStatus i pk := by
  rw [h.accounts, List.mem_flatMap]
  constructor
  · rintro ⟨i, hi, hr⟩
    obtain ⟨pk, hpk, rfl⟩ := List.mem_map.1 hr
    obtain ⟨hpk, hcredited⟩ := List.mem_filter.1 hpk
    exact ⟨i, List.mem_range.1 hi, pk, hpk, hcredited, rfl⟩
  · rintro ⟨i, hi, pk, hpk, hcredited, rfl⟩
    exact ⟨i, List.mem_range.2 hi,
      List.mem_map.2 ⟨pk, List.mem_filter.2 ⟨hpk, hcredited⟩, rfl⟩⟩

/-- No key of an index is reported twice. -/
theorem Visited.nodup_accounts (h : Visited keys depositStatus db n s) :
    (s.accounts.map fun r => (r.index, r.claimPk)).Nodup := by
  rw [h.accounts, List.map_flatMap, List.nodup_flatMap]
  constructor
  · intro i _
    rw [List.map_map]
    refine List.Nodup.map ?_ ((keys.nodup_probes i).filter _)
    intro pk pk' heq
    exact congrArg Prod.snd heq
  · refine List.nodup_range.imp ?_
    intro i j hne x hi hj
    obtain ⟨r, hr, rfl⟩ := List.mem_map.1 hi
    obtain ⟨pk, -, rfl⟩ := List.mem_map.1 hr
    obtain ⟨r', hr', heq⟩ := List.mem_map.1 hj
    obtain ⟨pk', -, rfl⟩ := List.mem_map.1 hr'
    exact hne (congrArg Prod.fst heq).symm

/-- The indices reported are the hits. -/
theorem Visited.index_used (h : Visited keys depositStatus db n s) {i : Nat} :
    (∃ r ∈ s.accounts, r.index = i) ↔ i < n ∧ keys.used depositStatus i = true := by
  rw [used_iff]
  constructor
  · rintro ⟨r, hr, rfl⟩
    obtain ⟨i, hi, pk, hpk, hcredited, rfl⟩ := h.mem_accounts.1 hr
    exact ⟨hi, pk, hpk, hcredited⟩
  · rintro ⟨hi, pk, hpk, hcredited⟩
    exact ⟨_, h.mem_accounts.2 ⟨i, hi, pk, hpk, hcredited, rfl⟩, rfl⟩

theorem Visited.finish_none (h : Visited keys depositStatus db n s) (hnone : s.accounts = []) :
    s.finish.2.nextDepositIndex = db.nextDepositIndex := by
  unfold RecoveryState.finish
  cases hhighest : s.highestUsedIndex with
  | none => exact h.next
  | some k =>
    obtain ⟨hlt, hused, -⟩ := (h.highest k).1 hhighest
    obtain ⟨r, hr, -⟩ := h.index_used.2 ⟨hlt, hused⟩
    rw [hnone] at hr
    cases hr

theorem Visited.finish_some (h : Visited keys depositStatus db n s) {highest : Nat}
    (hmem : ∃ r ∈ s.accounts, r.index = highest) (hmax : ∀ r ∈ s.accounts, r.index ≤ highest) :
    s.finish.2.nextDepositIndex = some (max db.nextIndex (highest + 1)) := by
  obtain ⟨hlt, hused⟩ := h.index_used.1 hmem
  have hhighest : s.highestUsedIndex = some highest := by
    refine (h.highest highest).2 ⟨hlt, hused, ?_⟩
    intro k hk hku
    obtain ⟨r, hr, rfl⟩ := h.index_used.2 ⟨hk, hku⟩
    exact hmax r hr
  have hnext : s.db.nextIndex = db.nextIndex := by
    unfold DepositDb.nextIndex
    rw [h.next]
  unfold RecoveryState.finish
  rw [hhighest, hnext]

/-- Recovered indices lie below the counter. -/
theorem Visited.index_lt_next (h : Visited keys depositStatus db n s) {r : RecoveredAccount}
    (hr : r ∈ s.accounts) : r.index < s.finish.2.nextIndex := by
  obtain ⟨hlt, hused⟩ := h.index_used.1 ⟨r, hr, rfl⟩
  cases hhighest : s.highestUsedIndex with
  | none =>
    -- some hit is the highest one
    let hit : Nat → Prop := fun k => k < n ∧ keys.used depositStatus k = true
    have hgreatest : hit (Nat.findGreatest hit n) :=
      Nat.findGreatest_spec (P := hit) (Nat.le_of_lt hlt) ⟨hlt, hused⟩
    have hsome := (h.highest (Nat.findGreatest hit n)).2 ⟨hgreatest.1, hgreatest.2,
      fun j hj hju => Nat.le_findGreatest (P := hit) (Nat.le_of_lt hj) ⟨hj, hju⟩⟩
    rw [hsome] at hhighest
    cases hhighest
  | some k =>
    have hle := ((h.highest k).1 hhighest).2.2 r.index hlt hused
    unfold RecoveryState.finish DepositDb.nextIndex
    rw [hhighest]
    dsimp only [Option.getD_some]
    omega

end Report

/-! ## Calls of the client -/

inductive ClientCall where
  | allocateDeposit (status : StatusResponse)
  | recoverDeposits (depositStatus : PublicKey → DepositStatusResponse) (checkUncredited : Bool)
      (gapLimit fuel : Nat)

inductive ClientAnswer where
  | allocated (index : Nat) (claimPk : PublicKey) (account : EvmAddress)
  | recovered (summary : RecoverySummary)
  | failed (error : String)

/-- One call, which may see the federation in another state than the last one did. -/
def clientStep (keys : ClaimKeys S P) (db : DepositDb) :
    ClientCall → Option (ClientAnswer × DepositDb)
  | .allocateDeposit status =>
    match keys.allocateDeposit status db with
    | (.ok (index, claimPk, account), db') => some (.allocated index claimPk account, db')
    | (.error e, db') => some (.failed e, db')
  | .recoverDeposits depositStatus checkUncredited gapLimit fuel =>
    match recoverDepositsScan keys depositStatus checkUncredited gapLimit fuel db with
    | none => none
    | some (.ok summary, db') => some (.recovered summary, db')
    | some (.error e, db') => some (.failed e, db')

theorem recoverIndex_next {s s' : RecoveryState}
    (h : recoverIndex keys depositStatus checkUncredited s = .ok s') :
    s'.db.nextDepositIndex = s.db.nextDepositIndex := by
  unfold recoverIndex at h
  split at h
  · cases h
  · obtain rfl := Except.ok.inj h
    have hprobed := foldl_probed depositStatus checkUncredited (keys.probes s.index) s
    unfold RecoveryState.count
    split
    · exact hprobed.next
    · exact hprobed.next

theorem recoverLoop_next {fuel : Nat} {s s' : RecoveryState} {r : Except String Unit}
    (h : recoverLoop keys depositStatus checkUncredited gapLimit fuel s = some (r, s')) :
    s'.db.nextDepositIndex = s.db.nextDepositIndex := by
  induction fuel generalizing s with
  | zero =>
    unfold recoverLoop at h
    split at h
    · cases h
    · cases h
      rfl
  | succ fuel ih =>
    unfold recoverLoop at h
    split at h
    · split at h
      · cases h
        rfl
      · rename_i s₁ hstep
        exact (ih h).trans (recoverIndex_next hstep)
    · cases h
      rfl

theorem nextIndex_le_finish (s : RecoveryState) : s.db.nextIndex ≤ s.finish.2.nextIndex := by
  unfold RecoveryState.finish
  dsimp only
  split
  · exact Nat.le_refl _
  · exact Nat.le_max_left _ _

/-- No recovery, complete or not, moves the counter back. -/
theorem nextIndex_le_recover {fuel : Nat} {db db' : DepositDb} {r : Except String RecoverySummary}
    (h : recoverDepositsScan keys depositStatus checkUncredited gapLimit fuel db = some (r, db')) :
    db.nextIndex ≤ db'.nextIndex := by
  have hkeep : ∀ s : RecoveryState, s.db.nextDepositIndex = db.nextDepositIndex →
      db.nextIndex = s.db.nextIndex := by
    intro s hs
    unfold DepositDb.nextIndex
    rw [hs]
  unfold recoverDepositsScan at h
  split at h
  · cases h
  · rename_i e s hloop
    cases h
    exact Nat.le_of_eq (hkeep s (recoverLoop_next hloop))
  · rename_i s hloop
    cases h
    rw [hkeep s (recoverLoop_next hloop)]
    exact nextIndex_le_finish s

/-- An allocation takes the counter's index and moves it on. -/
theorem allocateDeposit_ok {status : StatusResponse} {db db' : DepositDb} {index : Nat}
    {claimPk : PublicKey} {account : EvmAddress}
    (h : keys.allocateDeposit status db = (.ok (index, claimPk, account), db')) :
    index = db.nextIndex ∧ db'.nextIndex = db.nextIndex + 1 := by
  unfold ClaimKeys.allocateDeposit at h
  split at h
  · cases h
  dsimp only at h
  split at h
  · cases h
  · cases h
    exact ⟨rfl, rfl⟩

theorem allocateDeposit_error {status : StatusResponse} {db db' : DepositDb} {e : String}
    (h : keys.allocateDeposit status db = (.error e, db')) : db' = db := by
  unfold ClaimKeys.allocateDeposit at h
  split at h
  · cases h
    rfl
  dsimp only at h
  split at h
  · cases h
    rfl
  · cases h

theorem clientStep_nextIndex {db db' : DepositDb} {call : ClientCall} {answer : ClientAnswer}
    (h : clientStep keys db call = some (answer, db')) :
    db.nextIndex ≤ db'.nextIndex ∧
      ∀ index claimPk account, answer = .allocated index claimPk account → db.nextIndex ≤ index := by
  cases call with
  | allocateDeposit status =>
    unfold clientStep at h
    dsimp only at h
    split at h
    · rename_i index claimPk account s hallocate
      cases h
      obtain ⟨rfl, hnext⟩ := allocateDeposit_ok hallocate
      refine ⟨by omega, ?_⟩
      rintro index claimPk account ⟨⟩
      exact Nat.le_refl _
    · rename_i e s hallocate
      cases h
      obtain rfl := allocateDeposit_error hallocate
      exact ⟨Nat.le_refl _, by rintro index claimPk account ⟨⟩⟩
  | recoverDeposits depositStatus checkUncredited gapLimit fuel =>
    unfold clientStep at h
    dsimp only at h
    split at h
    · cases h
    · rename_i summary s hscan
      cases h
      exact ⟨nextIndex_le_recover hscan, by rintro index claimPk account ⟨⟩⟩
    · rename_i e s hscan
      cases h
      exact ⟨nextIndex_le_recover hscan, by rintro index claimPk account ⟨⟩⟩

/-- Along any calls the counter never falls, and no index below it is handed out. -/
theorem clientRun_nextIndex {db db' : DepositDb} {tr : List (ClientCall × ClientAnswer)}
    (run : Run (Steps (clientStep keys)) db tr db') :
    db.nextIndex ≤ db'.nextIndex ∧ ∀ e ∈ tr, ∀ index claimPk account,
      e.2 = .allocated index claimPk account → db.nextIndex ≤ index := by
  induction run with
  | start => exact ⟨Nat.le_refl _, fun e he => by cases he⟩
  | next hrun hstep ih =>
    obtain ⟨hle, hearlier⟩ := ih
    obtain ⟨hnext, hindex⟩ := clientStep_nextIndex hstep
    refine ⟨hle.trans hnext, ?_⟩
    intro e he index claimPk account hanswer
    rcases List.mem_cons.1 he with rfl | he
    · exact hle.trans (hindex index claimPk account hanswer)
    · exact hearlier e he index claimPk account hanswer

/-! ## The result -/

/-- An index is a hit exactly if one of its two keys is credited. -/
theorem used_iff_isKeyAt (depositStatus : PublicKey → DepositStatusResponse) {index : Nat}
    (hgrind : ∃ r, keys.groundClaimKeypairForIndex index = .ok r) :
    keys.used depositStatus index = true ↔
      ∃ pk, keys.IsKeyAt index pk ∧ Credited depositStatus pk = true := by
  rw [used_iff]
  constructor
  · rintro ⟨pk, hpk, hcredited⟩
    exact ⟨pk, (ClaimKeys.mem_probes hgrind).1 hpk, hcredited⟩
  · rintro ⟨pk, hpk, hcredited⟩
    exact ⟨pk, (ClaimKeys.mem_probes hgrind).2 hpk, hcredited⟩

/-- The claim key of a reported account is in the table, unless another key has the same account. -/
theorem Visited.claimKey_stored {db : DepositDb} {n : Nat} {s : RecoveryState}
    (h : Visited keys depositStatus db n s)
    (hgrind : ∀ i, ∃ r, keys.groundClaimKeypairForIndex i = .ok r)
    {r : RecoveredAccount} (hr : r ∈ s.accounts)
    (hunique : ∀ i pk, keys.IsKeyAt i pk → (depositStatus pk).account = r.account →
      pk = r.claimPk) :
    s.finish.2.claimKey.get? r.account = some r.claimPk := by
  obtain ⟨i, hi, pk, hpk, hcredited, rfl⟩ := h.mem_accounts.1 hr
  obtain ⟨j, pk', hpk', haccount, hget⟩ := h.stored i hi pk hpk hcredited
  obtain rfl := hunique j pk' ((ClaimKeys.mem_probes (hgrind j)).1 hpk') haccount
  have hkeys : s.finish.2.claimKey = s.db.claimKey := by
    unfold RecoveryState.finish
    dsimp only
    split
    · rfl
    · rfl
  rw [hkeys]
  exact hget

/-- **Seed recovery finds exactly the reachable deposits.**  With finitely many credited indices,
the scan ends.  It reports a key of an index if and only if the key is credited and no run of
`gapLimit` unused indices lies below, each once, with its claim key stored; the counter ends at the
maximum of its old value and one past the highest index reported, and no later call hands out a
reported index or moves the counter back. -/
theorem seed_recovery_exact (keys : ClaimKeys S P)
    (depositStatus : PublicKey → DepositStatusResponse) (checkUncredited : Bool) (gapLimit : Nat)
    (db : DepositDb)
    (hgrind : ∀ i, ∃ r, keys.groundClaimKeypairForIndex i = .ok r)
    (htruthful : ∀ pk, (depositStatus pk).account = keys.depositAddress pk)
    (hfinite : {i | ∃ pk, keys.IsKeyAt i pk ∧ Credited depositStatus pk = true}.Finite) :
    ∃ summary db' steps,
      (∀ fuel, steps ≤ fuel →
        recoverDepositsScan keys depositStatus checkUncredited gapLimit fuel db =
          some (.ok summary, db')) ∧
      (∀ i, keys.used depositStatus i = true ↔
        ∃ pk, keys.IsKeyAt i pk ∧ Credited depositStatus pk = true) ∧
      (∀ i pk, (∃ r ∈ summary.accounts, r.index = i ∧ r.claimPk = pk) ↔
        keys.IsKeyAt i pk ∧ Credited depositStatus pk = true ∧
          WithinGap (keys.used depositStatus) gapLimit i) ∧
      (summary.accounts.map fun r => (r.index, r.claimPk)).Nodup ∧
      (∀ r ∈ summary.accounts, r.account = keys.depositAddress r.claimPk ∧
        r.credited = (depositStatus r.claimPk).credited ∧
        ((∀ i pk, keys.IsKeyAt i pk → keys.depositAddress pk = r.account → pk = r.claimPk) →
          db'.claimKey.get? r.account = some r.claimPk)) ∧
      (summary.accounts = [] → db'.nextDepositIndex = db.nextDepositIndex) ∧
      (∀ highest, (∃ r ∈ summary.accounts, r.index = highest) →
        (∀ r ∈ summary.accounts, r.index ≤ highest) →
        db'.nextDepositIndex = some (max db.nextIndex (highest + 1))) ∧
      ∀ tr db'', Run (Steps (clientStep keys)) db' tr db'' →
        db.nextIndex ≤ db'.nextIndex ∧ db'.nextIndex ≤ db''.nextIndex ∧
          ∀ e ∈ tr, ∀ index claimPk account, e.2 = .allocated index claimPk account →
            ∀ r ∈ summary.accounts, r.index < index := by
  have hused := fun i => used_iff_isKeyAt depositStatus (hgrind i)
  obtain ⟨N, hN⟩ := hfinite.bddAbove
  have hbound : ∀ k, N + 1 ≤ k → keys.used depositStatus k = false := by
    intro k hk
    by_contra hhit
    have hle : k ≤ N := hN ((hused k).1 (Bool.eq_true_of_not_eq_false hhit))
    omega
  obtain ⟨n, hstop⟩ := exists_stopsAt hbound gapLimit
  obtain ⟨s, hs, hscan⟩ := recoverDepositsScan_eq checkUncredited db hgrind hstop
  refine ⟨s.finish.1, s.finish.2, n, hscan, hused, ?_, hs.nodup_accounts, ?_, hs.finish_none,
    fun highest => hs.finish_some, ?_⟩
  · intro i pk
    rw [hstop.withinGap_iff, ← ClaimKeys.mem_probes (hgrind i)]
    constructor
    · rintro ⟨r, hr, rfl, rfl⟩
      obtain ⟨i, hi, pk, hpk, hcredited, rfl⟩ := hs.mem_accounts.1 hr
      exact ⟨hpk, hcredited, hi⟩
    · rintro ⟨hpk, hcredited, hi⟩
      exact ⟨_, hs.mem_accounts.2 ⟨i, hi, pk, hpk, hcredited, rfl⟩, rfl, rfl⟩
  · intro r hr
    refine ⟨?_, ?_, ?_⟩
    · obtain ⟨i, hi, pk, hpk, hcredited, rfl⟩ := hs.mem_accounts.1 hr
      exact htruthful pk
    · obtain ⟨i, hi, pk, hpk, hcredited, rfl⟩ := hs.mem_accounts.1 hr
      rfl
    · intro hunique
      refine hs.claimKey_stored hgrind hr ?_
      intro i pk hpk haccount
      exact hunique i pk hpk ((htruthful pk).symm.trans haccount)
  · intro tr db'' run
    obtain ⟨hle, hindex⟩ := clientRun_nextIndex run
    refine ⟨nextIndex_le_recover (hscan n (Nat.le_refl n)), hle, ?_⟩
    intro e he index claimPk account hanswer r hr
    exact Nat.lt_of_lt_of_le (hs.index_lt_next hr) (hindex e he index claimPk account hanswer)

namespace Sample

/-- Key pairs of ten indices.  Those of odd ones carry the tag, the others two tweaks on. -/
def seedKey (m : Fin 10) : Key SampleGroup :=
  ⟨((256 * m.val + 1 + 2 * (m.val % 2) : Nat) : SampleGroup),
    sampleGroup_natCast_ne_zero (by omega) (by omega)⟩

/-- Indices from nine on share a key pair. -/
def place (i : Nat) : Fin 10 := ⟨min i 9, by omega⟩

def claimKeys : ClaimKeys SampleGroup SampleGroup where
  toGrinder := sampleGrinder
  claimKeypairStatic i := seedKey (place i)
  compressed_injective pk pk' h := by
    have hx := congrArg (fun k : PublicKey => k.x.val) h
    have hx : pk.1.toNat % 2 ^ 256 = pk'.1.toNat % 2 ^ 256 := hx
    refine Subtype.ext (BitVec.eq_of_toNat_eq ?_)
    omega
  natCast_ne_zero t hpos hlt := by
    unfold MAX_SCAN_GRIND_ITERATIONS at hlt
    exact sampleGroup_natCast_ne_zero hpos (by omega)

/-- The recognisable key pair of an index, its tweak and its address. -/
def groundKey (m : Fin 10) : Key SampleGroup :=
  ⟨((256 * m.val + 3 : Nat) : SampleGroup), sampleGroup_natCast_ne_zero (by omega) (by omega)⟩

def groundTweak (m : Fin 10) : Nat := 2 - 2 * (m.val % 2)

def groundAccount (m : Fin 10) : EvmAddress := Fin.ofNat _ (256 * m.val + 3)

theorem claimKeys_ground (i : Nat) :
    claimKeys.groundClaimKeypairForIndex i =
      .ok (groundTweak (place i), claimKeys.publicKey (groundKey (place i)),
        groundAccount (place i)) := by
  have hfind : ∀ m, claimKeys.findScanTweak (claimKeys.curve.publicKey (seedKey m)) 0 256 =
      .ok (some (groundTweak m, claimKeys.curve.publicKey (groundKey m), groundAccount m)) := by
    decide +kernel
  have hkey : ∀ m, Grinder.claimKey (seedKey m) (groundTweak m) (groundAccount m) =
      .ok (groundTweak m, groundKey m, groundAccount m) := by
    decide +kernel
  have hground : claimKeys.groundClaimKeypairStatic (seedKey (place i)) =
      .ok (groundTweak (place i), groundKey (place i), groundAccount (place i)) := by
    unfold Grinder.groundClaimKeypairStatic
    rw [Grinder.groundFrom, if_pos (by decide)]
    have hstop : min (0 + SCAN_GRIND_CHUNK) (2 ^ 64 - 1) = 256 := by decide
    dsimp only
    rw [hstop, hfind]
    exact hkey _
  unfold ClaimKeys.groundClaimKeypairForIndex
  have hbase : claimKeys.claimKeypairStatic i = seedKey (place i) := rfl
  rw [hbase, hground]

theorem isKeyAt_iff {i : Nat} {pk : PublicKey} :
    claimKeys.IsKeyAt i pk ↔ pk = claimKeys.publicKey (seedKey (place i)) ∨
      pk = claimKeys.publicKey (groundKey (place i)) := by
  unfold ClaimKeys.IsKeyAt
  rw [claimKeys_ground]
  constructor
  · rintro (h | ⟨tweak, account, h⟩)
    · exact .inl h
    · cases h
      exact .inr rfl
  · rintro (h | rfl)
    · exact .inl h
    · exact .inr ⟨_, _, rfl⟩

/-- Deposits under the untweaked key of index 0, both keys of index 2, and the recognisable key of
index 6. -/
def creditedStatus (pk : PublicKey) : DepositStatusResponse :=
  let credited := U64.clamp (if pk.x.val ∈ [1, 513, 515, 1539] then 50 else 0)
  ⟨claimKeys.depositAddress pk, credited, U64.zero, credited⟩

theorem credited_iff {i : Nat} :
    (∃ pk, claimKeys.IsKeyAt i pk ∧ Credited creditedStatus pk = true) ↔
      i = 0 ∨ i = 2 ∨ i = 6 := by
  have hall : ∀ m, (Credited creditedStatus (claimKeys.publicKey (seedKey m)) = true ∨
      Credited creditedStatus (claimKeys.publicKey (groundKey m)) = true) ↔
        m.val = 0 ∨ m.val = 2 ∨ m.val = 6 := by
    decide +kernel
  have hplace : (place i).val = min i 9 := rfl
  have hhit := hall (place i)
  constructor
  · rintro ⟨pk, hpk, hcredited⟩
    rcases isKeyAt_iff.1 hpk with rfl | rfl
    · have := hhit.1 (.inl hcredited)
      omega
    · have := hhit.1 (.inr hcredited)
      omega
  · intro hi
    rcases hhit.2 (by omega) with hcredited | hcredited
    · exact ⟨_, isKeyAt_iff.2 (.inl rfl), hcredited⟩
    · exact ⟨_, isKeyAt_iff.2 (.inr rfl), hcredited⟩

/-- No two keys share an address. -/
theorem depositAddress_unique {i : Nat} {pk : PublicKey} (h : claimKeys.IsKeyAt i pk)
    (haddress : claimKeys.depositAddress pk =
      claimKeys.depositAddress (claimKeys.publicKey (groundKey 2))) :
    pk = claimKeys.publicKey (groundKey 2) := by
  have hlegacy : ∀ m, claimKeys.depositAddress (claimKeys.publicKey (seedKey m)) =
      claimKeys.depositAddress (claimKeys.publicKey (groundKey 2)) →
        claimKeys.publicKey (seedKey m) = claimKeys.publicKey (groundKey 2) := by
    decide +kernel
  have hground : ∀ m, claimKeys.depositAddress (claimKeys.publicKey (groundKey m)) =
      claimKeys.depositAddress (claimKeys.publicKey (groundKey 2)) →
        claimKeys.publicKey (groundKey m) = claimKeys.publicKey (groundKey 2) := by
    decide +kernel
  rcases isKeyAt_iff.1 h with rfl | rfl
  · exact hlegacy _ haddress
  · exact hground _ haddress

/-- A database that has handed out four addresses. -/
def clientDb : DepositDb := ⟨some 4, Table.empty⟩

end Sample

/-- With a gap limit of 2, index 0 is recovered by its untweaked key and index 2 by both of its
keys, and index 6, behind a gap of 3, is not. -/
theorem seed_recovery_sample : ∃ summary db' steps,
    (∀ fuel, steps ≤ fuel →
      recoverDepositsScan Sample.claimKeys Sample.creditedStatus false 2 fuel Sample.clientDb =
        some (.ok summary, db')) ∧
    (∃ r ∈ summary.accounts, r.index = 0 ∧
      r.claimPk = Sample.claimKeys.publicKey (Sample.seedKey 0)) ∧
    (¬∃ r ∈ summary.accounts, r.index = 0 ∧
      r.claimPk = Sample.claimKeys.publicKey (Sample.groundKey 0)) ∧
    (∃ r ∈ summary.accounts, r.index = 2 ∧
      r.claimPk = Sample.claimKeys.publicKey (Sample.seedKey 2)) ∧
    (∃ r ∈ summary.accounts, r.index = 2 ∧
      r.claimPk = Sample.claimKeys.publicKey (Sample.groundKey 2) ∧
      db'.claimKey.get? r.account = some r.claimPk) ∧
    (¬∃ r ∈ summary.accounts, r.index = 6) ∧ db'.nextDepositIndex = some 4 := by
  have hfinite : {i | ∃ pk, Sample.claimKeys.IsKeyAt i pk ∧
      Credited Sample.creditedStatus pk = true}.Finite := by
    refine (Set.finite_lt_nat 7).subset fun i hi => ?_
    have hi := Sample.credited_iff.1 hi
    show i < 7
    omega
  obtain ⟨summary, db', steps, hscan, hused, hreported, -, hstored, -, hnext, -⟩ :=
    seed_recovery_exact Sample.claimKeys Sample.creditedStatus false 2 Sample.clientDb
      (fun i => ⟨_, Sample.claimKeys_ground i⟩) (fun _ => rfl) hfinite
  have hhit : ∀ i, Sample.claimKeys.used Sample.creditedStatus i = true ↔
      i = 0 ∨ i = 2 ∨ i = 6 := fun i => (hused i).trans Sample.credited_iff
  have hnear : ∀ i, i ≤ 2 → WithinGap (Sample.claimKeys.used Sample.creditedStatus) 2 i := by
    intro i hi a b _ hb hrun
    -- a run that holds index 0 is not one of misses
    by_contra hlong
    have hzero := (hhit 0).2 (.inl rfl)
    rw [hrun 0 (by omega) (by omega)] at hzero
    cases hzero
  have hfar : ¬∃ r ∈ summary.accounts, r.index = 6 := by
    rintro ⟨r, hr, hindex⟩
    obtain ⟨-, -, hgap⟩ := (hreported 6 r.claimPk).1 ⟨r, hr, hindex, rfl⟩
    have hlong := hgap 3 5 (by omega) (by omega) fun k hlo hhi => by
      by_contra hne
      have := (hhit k).1 (Bool.eq_true_of_not_eq_false hne)
      omega
    omega
  have hlegacy : ∃ r ∈ summary.accounts, r.index = 2 ∧
      r.claimPk = Sample.claimKeys.publicKey (Sample.seedKey 2) :=
    (hreported 2 _).2 ⟨Sample.isKeyAt_iff.2 (.inl rfl), by decide +kernel, hnear 2 (by omega)⟩
  obtain ⟨r, hr, hindex, hpk⟩ := (hreported 2 (Sample.claimKeys.publicKey (Sample.groundKey 2))).2
    ⟨Sample.isKeyAt_iff.2 (.inr rfl), by decide +kernel, hnear 2 (by omega)⟩
  refine ⟨summary, db', steps, hscan, ?_, ?_, hlegacy, ⟨r, hr, hindex, hpk, ?_⟩, hfar, ?_⟩
  · exact (hreported 0 _).2
      ⟨Sample.isKeyAt_iff.2 (.inl rfl), by decide +kernel, hnear 0 (by omega)⟩
  · intro hreport
    have hcredited := ((hreported 0 _).1 hreport).2.1
    revert hcredited
    decide +kernel
  · refine (hstored r hr).2.2 fun i pk hat haddress => ?_
    rw [(hstored r hr).1, hpk] at haddress
    rw [hpk]
    exact Sample.depositAddress_unique hat haddress
  · rw [hnext 2 ⟨r, hr, hindex⟩ fun r' hr' => ?_]
    · rfl
    · -- only the indices 0, 2 and 6 have credited keys
      obtain ⟨hat, hcredited, -⟩ := (hreported r'.index r'.claimPk).1 ⟨r', hr', rfl, rfl⟩
      rcases Sample.credited_iff.1 ⟨_, hat, hcredited⟩ with h | h | h
      · omega
      · omega
      · exact absurd ⟨r', hr', h⟩ hfar

end Experimint.FedimintUsdt
