import Experimint.Amm.Invariant

/-!
# Errors change nothing, successes change what they name

A transaction of the framework is discarded when an item of it fails, but the module does not rely
on that: when `processInput` or `processOutput` returns an error, the database is the one the call
was given.  When it succeeds, the only entries that differ are those the item names.

* `Framed` says both at once for the result of a call; one lemma a processing function.
* `declared_pair_isSome` : the check that stands behind the writes of a deposit never fails.
* `atomic_and_framed` : every input and output from every database, and whole runs.
-/

set_option autoImplicit false

namespace Experimint.FedimintAmm

/-! ## Entries that an item names -/

namespace Item

/-- Pool that an input or output trades with. -/
def namesPool : Item → PoolId → Prop
  | .input (.withdrawV0 pool ..), id => pool = id
  | .output (.swapV0 unitIn unitOut ..), id => PoolId.new unitIn unitOut = some id
  | .output (.depositV0 pool ..), id => pool = id
  | _, _ => False

/-- Position that a deposit or a withdrawal is for. -/
def namesPosition : Item → LpPositionKey → Prop
  | .input (.withdrawV0 pool ownerPk ..), key => toLex (pool, ownerPk) = key
  | .output (.depositV0 pool _ _ _ ownerPk ..), key => toLex (pool, ownerPk) = key
  | _, _ => False

/-- Balance that a swap credits or a claim pays out. -/
def namesBalance : Item → BalanceKey → Prop
  | .input (.claimBalanceV0 pubkey unit), key => toLex (pubkey, unit) = key
  | .output (.swapV0 _ unitOut _ _ recipientPk ..), key => toLex (recipientPk, unitOut) = key
  | _, _ => False

end Item

/-- Entries that the item does not name are the same in both databases. -/
structure Frame (item : Item) (db db' : Db) : Prop where
  pool : ∀ id, ¬ item.namesPool id → db'.pool.get? id = db.pool.get? id
  position : ∀ key, ¬ item.namesPosition key → db'.lpPosition.get? key = db.lpPosition.get? key
  balance : ∀ key, ¬ item.namesBalance key → db'.balance.get? key = db.balance.get? key

/-- The database when a call returns: the one before the call if it failed, and otherwise one that
differs from it in named entries only. -/
def Framed {ε α : Type} (item : Item) (db : Db) : Except ε α × Db → Prop
  | (.error _, db') => db' = db
  | (.ok _, db') => Frame item db db' ∧ db'.feeVote = db.feeVote

/-! ## The four calls -/

theorem claimBalance_framed (db : Db) (pubkey : PublicKey) (unit : AmountUnit) :
    Framed (.input (.claimBalanceV0 pubkey unit)) db (claimBalance db pubkey unit) := by
  unfold claimBalance
  dsimp only
  split
  · exact rfl
  · refine ⟨⟨fun _ _ => rfl, fun _ _ => rfl, ?_⟩, rfl⟩
    intro key hkey
    exact Table.get?_erase_ne _ fun heq => hkey heq.symm

theorem withdraw_framed (db : Db) (pool : PoolId) (ownerPk : PublicKey)
    (shares minLo minHi maxLo maxHi : Nat) :
    Framed (.input (.withdrawV0 pool ownerPk shares minLo minHi maxLo maxHi)) db
      (withdraw db pool ownerPk shares minLo minHi maxLo maxHi) := by
  unfold withdraw
  dsimp only
  split
  · exact rfl
  split
  · exact rfl
  split
  · exact rfl
  split
  · exact rfl
  split
  · exact rfl
  split
  · exact rfl
  refine ⟨⟨?_, ?_, fun _ _ => rfl⟩, rfl⟩
  · intro id hid
    exact Table.get?_insert_ne _ _ hid
  · intro key hkey
    dsimp only
    split
    · exact Table.get?_erase_ne _ fun heq => hkey heq.symm
    · exact Table.get?_insert_ne _ _ hkey

theorem swap_framed (a : Amm) (db : Db) (unitIn unitOut : AmountUnit) (amountIn minOut : Nat)
    (recipientPk : PublicKey) (tweak pop : Bytes) :
    Framed (.output (.swapV0 unitIn unitOut amountIn minOut recipientPk tweak pop)) db
      (swap a db unitIn unitOut amountIn minOut recipientPk tweak) := by
  unfold swap
  split
  · exact rfl
  rename_i poolId hpool
  split
  · exact rfl
  split
  · exact rfl
  dsimp only
  split
  · exact rfl
  split
  · exact rfl
  refine ⟨⟨?_, fun _ _ => rfl, ?_⟩, rfl⟩
  · intro id hid
    refine Table.get?_insert_ne _ _ ?_
    rintro rfl
    exact hid hpool
  · intro key hkey
    exact Table.get?_insert_ne _ _ hkey

/-- Two amounts that fit in 64 bits can be declared for two different units. -/
theorem declared_pair_isSome {x y : Nat} {u v : AmountUnit} (hx : x ≤ U64_MAX) (hy : y ≤ U64_MAX)
    (huv : u ≠ v) :
    ((Amounts.zero.checkedAddUnit x u).bind fun s => s.checkedAddUnit y v).isSome := by
  have hzero : Amounts.zero.of u + x ≤ U64_MAX := by rwa [Amounts.of_zero, Nat.zero_add]
  obtain ⟨s, hs⟩ := Amounts.exists_checkedAddUnit hzero
  -- the second unit is still at zero after the first was added
  have hs' : s.of v + y ≤ U64_MAX := by
    rwa [Amounts.of_checkedAddUnit hs v, if_neg huv, Amounts.of_zero, Nat.zero_add]
  obtain ⟨s', hs'⟩ := Amounts.exists_checkedAddUnit hs'
  rw [hs, Option.bind_some, hs']
  rfl

theorem deposit_framed (a : Amm) (db : Db) (pool : PoolId) (amountLo amountHi minShares : Nat)
    (ownerPk : PublicKey) (tweak pop : Bytes) :
    Framed (.output (.depositV0 pool amountLo amountHi minShares ownerPk tweak pop)) db
      (deposit a db pool amountLo amountHi minShares ownerPk tweak) := by
  unfold deposit
  split
  · exact rfl
  dsimp only
  split
  · exact rfl
  rename_i outcome hmint
  split
  · exact rfl
  split
  · exact rfl
  split
  · exact rfl
  split
  · exact rfl
  split
  · -- both rows are written here, but this check cannot fail
    rename_i hnone
    have hspec := mintShares_spec hmint
    have hcap : MAX_RESERVE ≤ U64_MAX := by decide
    have hlo : amountLo ≤ U64_MAX := ((Nat.le_add_left _ _).trans hspec.lo_le).trans hcap
    have hhi : amountHi ≤ U64_MAX := ((Nat.le_add_left _ _).trans hspec.hi_le).trans hcap
    have hsome := declared_pair_isSome hlo hhi pool.lo_ne_hi
    rw [hnone] at hsome
    cases hsome
  · refine ⟨⟨?_, ?_, fun _ _ => rfl⟩, rfl⟩
    · intro id hid
      exact Table.get?_insert_ne _ _ hid
    · intro key hkey
      exact Table.get?_insert_ne _ _ hkey

/-! ## Every item -/

theorem processInput_framed (db : Db) (input : AmmInput) :
    Framed (.input input) db (processInput db input) := by
  cases input with
  | claimBalanceV0 pubkey unit => exact claimBalance_framed db pubkey unit
  | withdrawV0 pool ownerPk shares minLo minHi maxLo maxHi =>
    exact withdraw_framed db pool ownerPk shares minLo minHi maxLo maxHi
  | default variant bytes => exact rfl

theorem processOutput_framed (a : Amm) (db : Db) (output : AmmOutput) :
    Framed (.output output) db (processOutput a db output) := by
  unfold processOutput
  split
  · exact rfl
  cases output with
  | swapV0 unitIn unitOut amountIn minOut recipientPk tweak pop =>
    exact swap_framed a db unitIn unitOut amountIn minOut recipientPk tweak pop
  | depositV0 pool amountLo amountHi minShares ownerPk tweak pop =>
    exact deposit_framed a db pool amountLo amountHi minShares ownerPk tweak pop
  | default variant bytes => exact rfl

/-- A fee vote reaches none of the three tables. -/
theorem processConsensusItem_frame (a : Amm) (db : Db) (c : AmmConsensusItem) (peer : PeerId) :
    Frame (.consensus c peer) db (processConsensusItem a db c peer).2 := by
  cases c with
  | feeVoteV0 pool feePerMille =>
    unfold processConsensusItem
    dsimp only
    split
    · exact ⟨fun _ _ => rfl, fun _ _ => rfl, fun _ _ => rfl⟩
    split
    · exact ⟨fun _ _ => rfl, fun _ _ => rfl, fun _ _ => rfl⟩
    split <;> exact ⟨fun _ _ => rfl, fun _ _ => rfl, fun _ _ => rfl⟩
  | default variant bytes => exact ⟨fun _ _ => rfl, fun _ _ => rfl, fun _ _ => rfl⟩

/-- One accepted item. -/
theorem Accepts.frame {a : Amm} {db db' : Db} {item : Item} {ans : Answer}
    (h : Accepts a db item ans db') : Frame item db db' := by
  have hstep : step a db item = some (ans, db') := h
  unfold step at hstep
  cases item with
  | input i =>
    have hframed := processInput_framed db i
    dsimp only at hstep
    split at hstep
    · rename_i m db'' heq
      cases hstep
      rw [heq] at hframed
      exact hframed.1
    · cases hstep
  | output o =>
    have hframed := processOutput_framed a db o
    dsimp only at hstep
    split at hstep
    · rename_i t db'' heq
      cases hstep
      rw [heq] at hframed
      exact hframed.1
    · cases hstep
  | consensus c peer =>
    have hframe := processConsensusItem_frame a db c peer
    dsimp only at hstep
    split at hstep
    · rename_i u db'' heq
      cases hstep
      rw [heq] at hframe
      exact hframe
    · cases hstep

/-- Entries that no item of a trace names. -/
structure Spared (tr : List (Item × Answer)) (db db' : Db) : Prop where
  pool : ∀ id, (∀ r ∈ tr, ¬ r.1.namesPool id) → db'.pool.get? id = db.pool.get? id
  position : ∀ key, (∀ r ∈ tr, ¬ r.1.namesPosition key) →
    db'.lpPosition.get? key = db.lpPosition.get? key
  balance : ∀ key, (∀ r ∈ tr, ¬ r.1.namesBalance key) → db'.balance.get? key = db.balance.get? key

/-- A whole run keeps what none of its items names. -/
theorem run_spared {a : Amm} {tr : List (Item × Answer)} {db db' : Db}
    (h : Run (Accepts a) db tr db') : Spared tr db db' := by
  refine Run.historyInvariant (P := fun tr s => Spared tr db s) ?_ ?_ h
  · exact ⟨fun _ _ => rfl, fun _ _ => rfl, fun _ _ => rfl⟩
  · intro tr s item ans s' ih hstep
    have hframe := Accepts.frame hstep
    refine ⟨?_, ?_, ?_⟩
    · intro id hid
      rw [List.forall_mem_cons] at hid
      rw [hframe.pool id hid.1, ih.pool id hid.2]
    · intro key hkey
      rw [List.forall_mem_cons] at hkey
      rw [hframe.position key hkey.1, ih.position key hkey.2]
    · intro key hkey
      rw [List.forall_mem_cons] at hkey
      rw [hframe.balance key hkey.1, ih.balance key hkey.2]

/-- **Atomicity and frame.** From every database, reachable or not, an input or output that fails
has changed nothing and one that succeeds has changed only entries it names; so a run never
changes an entry that none of its items names. -/
theorem atomic_and_framed (a : Amm) (db : Db) :
    (∀ input, Framed (.input input) db (processInput db input)) ∧
      (∀ output, Framed (.output output) db (processOutput a db output)) ∧
      ∀ tr db', Run (Accepts a) db tr db' → Spared tr db db' :=
  ⟨processInput_framed db, processOutput_framed a db, fun _ _ h => run_spared h⟩

/-- A swap that would pay too little changes nothing, and trading leaves a balance alone that none
of its items names. -/
theorem atomic_and_framed_sample :
    (processOutput sampleAmm sampleDb
      (.swapV0 0 1 1000 5000 sampleKey [] (List.replicate 64 0))).2 = sampleDb ∧
    ∃ tr db', Run (Accepts sampleAmm) sampleDb tr db' ∧ tr.length = 3 ∧
      db'.balance.get? (toLex (sampleKey, 1)) = sampleDb.balance.get? (toLex (sampleKey, 1)) ∧
      (sampleDb.balance.get? (toLex (sampleKey, 1))).isSome = true := by
  obtain ⟨-, houtput, hrun⟩ := atomic_and_framed sampleAmm sampleDb
  constructor
  · have hframed := houtput (.swapV0 0 1 1000 5000 sampleKey [] (List.replicate 64 0))
    have hfails : (processOutput sampleAmm sampleDb
        (.swapV0 0 1 1000 5000 sampleKey [] (List.replicate 64 0))).1 =
          .error .slippageExceeded := by
      decide +kernel
    generalize processOutput sampleAmm sampleDb
      (.swapV0 0 1 1000 5000 sampleKey [] (List.replicate 64 0)) = result at hframed hfails ⊢
    obtain ⟨r, db'⟩ := result
    cases hfails
    exact hframed
  · obtain ⟨tr, db', run, hP⟩ := Run.exists_of_exec (step sampleAmm) sampleDb moreItems
      (fun tr _ => decide (tr.map Prod.fst = moreItems.reverse)) (by decide +kernel)
    have hitems := of_decide_eq_true hP
    refine ⟨tr, db', run, ?_, ?_, by decide +kernel⟩
    · rw [← List.length_map (f := Prod.fst), hitems]
      rfl
    · refine (hrun tr db' run).balance _ fun r hr => ?_
      have hr := List.mem_map_of_mem (f := Prod.fst) hr
      rw [hitems] at hr
      simp only [moreItems, List.reverse_cons, List.reverse_nil, List.nil_append, List.cons_append,
        List.mem_cons, List.not_mem_nil, or_false] at hr
      rcases hr with hr | hr | hr <;> rw [hr]
      · exact id
      · exact id
      · show toLex (sampleKey, 0) ≠ toLex (sampleKey, 1)
        decide

end Experimint.FedimintAmm
