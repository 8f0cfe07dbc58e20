import Mathlib.Order.Interval.Finset.Nat
import Experimint.Usdt.Medians

/-!
# The block count over time

The ring of anchored hashes follows the block count: an observation is accepted only in a window
below it, and the block count never falls.  The block count itself moves slowly: honest guardians
propose at most five blocks more than the block count of some state they have seen, however stale,
and no median exceeds every honest vote.

* `ring_window` — the anchored heights span less than the ring's length.
* `bounded_block_count_jumps` — guardians, proposals in transit and the module as one system.
-/

set_option autoImplicit false

namespace Experimint.FedimintUsdt

variable {u : Usdt} {db db' : Db}

/-! ## The ring -/

/-- Anchored heights are confirmation-deep and close to each other. -/
structure RingInv (u : Usdt) (db : Db) : Prop where
  deep : ∀ h x, db.blockHashRing.get? h = some x →
    h ≤ u.consensusBlockCount db - u.cfg.confirmationDepth
  close : ∀ h x h' x', db.blockHashRing.get? h = some x → db.blockHashRing.get? h' = some x' →
    h' < h + BLOCK_HASH_RING_LEN

/-- What a write leaves in the ring. -/
theorem writeBlockHashRing_get? {height h : Nat} {hash x : Hash}
    (hx : (writeBlockHashRing db height hash).blockHashRing.get? h = some x) :
    height < h + BLOCK_HASH_RING_LEN ∧ (h = height ∨ db.blockHashRing.get? h = some x) := by
  unfold writeBlockHashRing at hx
  rw [Table.get?_eraseWhere] at hx
  split_ifs at hx with hout
  have hout : ¬ satAdd64 h BLOCK_HASH_RING_LEN ≤ height := by simpa using hout
  rw [Table.get?_insert] at hx
  constructor
  · have hsat : satAdd64 h BLOCK_HASH_RING_LEN ≤ h + BLOCK_HASH_RING_LEN := Nat.min_le_left _ _
    omega
  · split_ifs at hx with hh
    · exact .inl hh.symm
    · exact .inr hx

/-- A write keeps the window: it is within the freshness bound of every anchored height. -/
theorem RingInv.write {height : Nat} {hash : Hash} (hinv : RingInv u db)
    (hdeep : height ≤ u.consensusBlockCount db - u.cfg.confirmationDepth)
    (hfresh : u.consensusBlockCount db - height ≤
      u.cfg.confirmationDepth + DEPOSIT_VOTE_MAX_AGE_BLOCKS)
    (hring : db'.blockHashRing = (writeBlockHashRing db height hash).blockHashRing)
    (hcount : u.consensusBlockCount db ≤ u.consensusBlockCount db') : RingInv u db' := by
  have hnear : ∀ h x, db.blockHashRing.get? h = some x → h < height + BLOCK_HASH_RING_LEN := by
    intro h x hx
    have := hinv.deep h x hx
    unfold DEPOSIT_VOTE_MAX_AGE_BLOCKS at hfresh
    unfold BLOCK_HASH_RING_LEN
    omega
  have hlen : 0 < BLOCK_HASH_RING_LEN := by decide
  constructor
  · intro h x hx
    rw [hring] at hx
    obtain ⟨-, rfl | hold⟩ := writeBlockHashRing_get? hx
    · omega
    · have := hinv.deep h x hold
      omega
  · intro h x h' x' hx hx'
    rw [hring] at hx hx'
    obtain ⟨hkept, hold⟩ := writeBlockHashRing_get? hx
    obtain ⟨-, rfl | hold'⟩ := writeBlockHashRing_get? hx'
    · exact hkept
    · rcases hold with rfl | hold
      · exact hnear h' x' hold'
      · exact hinv.close h x h' x' hold hold'

theorem RingInv.of_same (hinv : RingInv u db) (hring : db'.blockHashRing = db.blockHashRing)
    (hcount : u.consensusBlockCount db ≤ u.consensusBlockCount db') : RingInv u db' where
  deep h x hx := by
    have := hinv.deep h x (hring ▸ hx)
    omega
  close h x h' x' hx hx' := hinv.close h x h' x' (hring ▸ hx) (hring ▸ hx')

theorem Accepts.ringInv {i : Item} {answer : Answer} (h : Accepts u db i answer db')
    (hcounts : GuardianCounts u db.blockCountVote) (hi : i.FromGuardian u)
    (hinv : RingInv u db) : RingInv u db' := by
  have hcount := Accepts.blockCount_le h hcounts hi
  have hcasts := Accepts.casts h
  generalize hb : db'.ballots = b at hcasts
  have hring : db'.blockHashRing = b.blockHashRing := congrArg Ballots.blockHashRing hb
  cases hcasts with
  | anchor hdeep hfresh _ => exact hinv.write hdeep hfresh hring hcount
  | settle _ _ hclears => exact hinv.of_same (hring.trans hclears.blockHashRing) hcount
  | unchanged | blockCount | feeVote | blockHash | confirm | residual | recover | fees | payout =>
    exact hinv.of_same hring hcount

theorem ringInv_empty (u : Usdt) : RingInv u Db.empty where
  deep _ _ hx := by cases hx
  close _ _ _ _ hx _ := by cases hx

theorem run_ringInv {tr : List (Item × Answer)} (run : Run (Accepts u) Db.empty tr db)
    (htr : FromGuardians u tr) : RingInv u db := by
  have hboth : GuardianCounts u db.blockCountVote ∧ RingInv u db := by
    refine run.historyInvariant (P := fun tr db => FromGuardians u tr →
      GuardianCounts u db.blockCountVote ∧ RingInv u db) ?_ ?_ htr
    · intro _
      exact ⟨fun _ _ hv => (by cases hv), ringInv_empty u⟩
    · intro tr db i answer db' hinv h htr
      obtain ⟨hcounts, hring⟩ := hinv fun t ht => htr t (List.mem_cons_of_mem _ ht)
      have hi := htr _ List.mem_cons_self
      exact ⟨(Accepts.casts h).guardianCounts hcounts hi, Accepts.ringInv h hcounts hi hring⟩
  exact hboth.2

/-- **The ring is a window.**  When `M` is the largest anchored height, every anchored height lies
in `(M - 300, M]`, there are at most 300 of them, and `M` is confirmation-deep. -/
theorem ring_window (u : Usdt) (tr : List (Item × Answer)) (db : Db)
    (run : Run (Accepts u) Db.empty tr db) (htr : FromGuardians u tr) (M : Nat) (x : Hash)
    (hM : ringHashAt db M = some x) (hmax : ∀ h y, ringHashAt db h = some y → h ≤ M) :
    (∀ h y, ringHashAt db h = some y → M < h + 300 ∧ h ≤ M) ∧
      db.blockHashRing.rows.length ≤ 300 ∧
      M ≤ u.consensusBlockCount db - u.cfg.confirmationDepth := by
  have hinv := run_ringInv run htr
  have hwindow : ∀ h y, ringHashAt db h = some y → M < h + 300 ∧ h ≤ M := by
    intro h y hy
    exact ⟨hinv.close h y M x hy hM, hmax h y hy⟩
  refine ⟨hwindow, ?_, hinv.deep M x hM⟩
  have hsub : (db.blockHashRing.rows.map Prod.fst).toFinset ⊆ Finset.Ico (M + 1 - 300) (M + 1) := by
    intro h hh
    obtain ⟨⟨h, y⟩, hr, rfl⟩ := List.mem_map.1 (List.mem_toFinset.1 hh)
    have := hwindow h y (Table.mem_rows.1 hr)
    rw [Finset.mem_Ico]
    omega
  have hcard := Finset.card_le_card hsub
  rw [List.toFinset_card_of_nodup db.blockHashRing.nodup_keys, List.length_map,
    Nat.card_Ico] at hcard
  omega

/-- Three of four guardians anchor 200 and then 150 below it, and much later 450, which drops 150,
and 420. -/
def Sample.windowing : List Item :=
  let anchor (height : Nat) (hash : Hash) : List Item :=
    [0, 1, 2].map fun p => .consensus (.blockHash ⟨height, hash⟩) p
  let count (n : Nat) : List Item := [0, 1, 2].map fun p => .consensus (.blockCount n) p
  count 201 ++ anchor 200 7 ++ anchor 150 8 ++ count 451 ++ anchor 450 9 ++ anchor 420 10

theorem ring_window_four :
    ∃ tr db, Run (Accepts fourGuardians) Db.empty tr db ∧ FromGuardians fourGuardians tr ∧
      db.blockHashRing.rows = [(200, 7), (420, 10), (450, 9)] ∧
      (∀ h y, ringHashAt db h = some y → 450 < h + 300 ∧ h ≤ 450) ∧
      450 ≤ fourGuardians.consensusBlockCount db - fourGuardians.cfg.confirmationDepth := by
  obtain ⟨tr, db, run, hP⟩ := Run.exists_of_exec fourGuardians.step Db.empty Sample.windowing
    (fun tr db => decide (FromGuardians fourGuardians tr) &&
      decide (db.blockHashRing.rows = [(200, 7), (420, 10), (450, 9)]) &&
      decide (ringHashAt db 450 = some 9)) (by decide +kernel)
  simp only [Bool.and_eq_true, decide_eq_true_eq] at hP
  obtain ⟨⟨htr, hrows⟩, hring⟩ := hP
  obtain ⟨hwindow, -, hdeep⟩ := ring_window fourGuardians tr db run htr 450 9 hring fun h y hy => by
    have hmem := Table.mem_rows.2 hy
    rw [hrows] at hmem
    simp only [List.mem_cons, Prod.mk.injEq, List.not_mem_nil, or_false] at hmem
    omega
  exact ⟨tr, db, run, htr, hrows, hwindow, hdeep⟩

/-! ## Proposals -/

/-- Block count that `consensus_proposal` puts forward for a guardian that sees the chain at
`head`. -/
def Usdt.proposeBlockCount (u : Usdt) (db : Db) (ourPeerId : PeerId) (head : Nat) : Option Nat :=
  let currentConsensus := u.consensusBlockCount db
  let vote :=
    if currentConsensus ≠ 0 then
      min head (currentConsensus + if u.isRunningInTestEnv then 100 else 5)
    else head
  let currentVote := (db.blockCountVote.get? ourPeerId).getD 0
  if currentVote < vote then some vote else none

theorem proposeBlockCount_le {p : PeerId} {head vote : Nat} (henv : u.isRunningInTestEnv = false)
    (hpos : 0 < u.consensusBlockCount db) (h : u.proposeBlockCount db p head = some vote) :
    vote ≤ u.consensusBlockCount db + 5 := by
  unfold Usdt.proposeBlockCount at h
  dsimp only at h
  rw [if_pos (Nat.pos_iff_ne_zero.1 hpos), henv, if_neg Bool.false_ne_true] at h
  split at h
  · cases h
    exact Nat.min_le_right _ _
  · cases h

/-! ## The network -/

/-- The module's database with every one it went through, and the honest block-count proposals that
were ever sent: one may arrive late, out of order, and more than once. -/
structure Network where
  db : Db
  past : List Db
  transit : List (PeerId × Nat)

inductive NetItem
  /-- An honest guardian proposes, reading some state reached so far. -/
  | propose (p : PeerId) (snapshot : Nat) (head : Nat)
  /-- A proposal in transit is processed. -/
  | deliver (k : Nat)
  /-- Any other item is processed, a faulty guardian's vote included. -/
  | process (item : Item)

/-- A block-count vote of an honest guardian. -/
def Item.honestCount (faulty : Finset PeerId) : Item → Bool
  | .consensus (.blockCount _) p => decide (p ∉ faulty)
  | _ => false

/-- The module processes an item. -/
def Network.process (u : Usdt) (s : Network) (item : Item) : Option (Unit × Network) :=
  match u.step s.db item with
  | none => none
  | some (_, db') => some ((), { s with db := db', past := db' :: s.past })

def Network.step (u : Usdt) (faulty : Finset PeerId) (s : Network) :
    NetItem → Option (Unit × Network)
  | .propose p snapshot head =>
    match s.past[snapshot]? with
    | none => none
    | some db =>
      match u.proposeBlockCount db p head with
      | none => none
      | some vote =>
        if p < u.numPeers.total ∧ p ∉ faulty then
          some ((), { s with transit := (p, vote) :: s.transit })
        else none
  | .deliver k =>
    match s.transit[k]? with
    | none => none
    | some (p, vote) => s.process u (.consensus (.blockCount vote) p)
  | .process item =>
    if item.FromGuardian u ∧ item.honestCount faulty = false then s.process u item else none

/-- Honest votes, stored and in transit, are at most `ahead` above the block count. -/
structure Paced (u : Usdt) (faulty : Finset PeerId) (ahead : Nat) (s : Network) : Prop where
  counts : GuardianCounts u s.db.blockCountVote
  started : 0 < u.consensusBlockCount s.db
  past : ∀ db ∈ s.past, 0 < u.consensusBlockCount db ∧
    u.consensusBlockCount db ≤ u.consensusBlockCount s.db
  stored : ∀ p, p < u.numPeers.total → p ∉ faulty →
    s.db.blockCountOf p ≤ u.consensusBlockCount s.db + ahead
  transit : ∀ t ∈ s.transit, t.1 < u.numPeers.total ∧ t.1 ∉ faulty ∧
    t.2 ≤ u.consensusBlockCount s.db + ahead

section Network

variable {faulty : Finset PeerId} {s s' : Network} {ahead : Nat}

theorem Network.process_eq {item : Item} {o : Unit} (h : s.process u item = some (o, s')) :
    ∃ answer db', Accepts u s.db item answer db' ∧
      s' = { s with db := db', past := db' :: s.past } := by
  unfold Network.process at h
  split at h
  · cases h
  rename_i answer db' hstep
  obtain ⟨-, rfl⟩ := Prod.mk.inj (Option.some.inj h)
  exact ⟨answer, db', hstep, rfl⟩

/-- The block counts that honest guardians hold after an accepted item. -/
theorem Accepts.stored_le {i : Item} {answer : Answer} {p : PeerId} {c : Nat}
    (h : Accepts u db i answer db') (hold : db.blockCountOf p ≤ c)
    (hnew : ∀ vote, i = .consensus (.blockCount vote) p → vote ≤ c) : db'.blockCountOf p ≤ c := by
  have hcasts := Accepts.casts h
  generalize hb : db'.ballots = b at hcasts
  have hvotes : db'.blockCountVote = b.blockCountVote := congrArg Ballots.blockCountVote hb
  unfold Db.blockCountOf at hold ⊢
  rw [hvotes]
  cases hcasts with
  | @blockCount vote q _ =>
    show ((db.blockCountVote.insert q vote).get? p).getD 0 ≤ c
    rw [Table.get?_insert]
    split_ifs with hq
    · subst hq
      exact hnew vote rfl
    · exact hold
  | settle _ _ hclears =>
    rw [hclears.blockCountVote]
    exact hold
  | unchanged | feeVote | blockHash | anchor | confirm | residual | recover | fees | payout =>
    exact hold

/-- A federation without guardians has no block count. -/
theorem GuardianCounts.pos_of_count (h : GuardianCounts u db.blockCountVote)
    (hpos : 0 < u.consensusBlockCount db) : 0 < u.numPeers.total := by
  rcases Nat.eq_zero_or_pos u.numPeers.total with hn | hn
  · rw [consensusBlockCount_eq h, hn] at hpos
    cases hpos
  · exact hn

/-- **A processed item raises the block count by at most `ahead`**, and the pace is kept, as long as
an honest block count among the items is. -/
theorem Paced.process {i : Item} {answer : Answer} (hinv : Paced u faulty ahead s)
    (hfaulty : faulty.card ≤ u.numPeers.maxEvil) (h : Accepts u s.db i answer db')
    (hi : i.FromGuardian u)
    (hhonest : ∀ vote p, i = .consensus (.blockCount vote) p → p ∉ faulty →
      vote ≤ u.consensusBlockCount s.db + ahead) :
    u.consensusBlockCount db' ≤ u.consensusBlockCount s.db + ahead ∧
      Paced u faulty ahead { s with db := db', past := db' :: s.past } := by
  have hcounts := (Accepts.casts h).guardianCounts hinv.counts hi
  have hmono := Accepts.blockCount_le h hinv.counts hi
  have hstored : ∀ p, p < u.numPeers.total → p ∉ faulty →
      db'.blockCountOf p ≤ u.consensusBlockCount s.db + ahead := by
    intro p hp hgood
    exact Accepts.stored_le h (hinv.stored p hp hgood) fun vote he => hhonest vote p he hgood
  have hpos : 0 < u.consensusBlockCount db' := lt_of_lt_of_le hinv.started hmono
  refine ⟨?_, hcounts, hpos, ?_, ?_, ?_⟩
  · -- the median is at most some honest vote
    obtain ⟨-, p, hp, hgood, hle⟩ :=
      consensusBlockCount_between (hcounts.pos_of_count hpos) hfaulty hcounts
    exact hle.trans (hstored p hp hgood)
  · intro d hd
    rcases List.mem_cons.1 hd with rfl | hd
    · exact ⟨hpos, Nat.le_refl _⟩
    · obtain ⟨hd0, hdle⟩ := hinv.past d hd
      exact ⟨hd0, hdle.trans hmono⟩
  · intro p hp hgood
    exact (hstored p hp hgood).trans (Nat.add_le_add_right hmono ahead)
  · intro t ht
    obtain ⟨htn, hgood, hle⟩ := hinv.transit t ht
    exact ⟨htn, hgood, hle.trans (Nat.add_le_add_right hmono ahead)⟩

theorem Paced.step {i : NetItem} {o : Unit} (hinv : Paced u faulty 5 s)
    (henv : u.isRunningInTestEnv = false) (hfaulty : faulty.card ≤ u.numPeers.maxEvil)
    (h : Steps (Network.step u faulty) s i o s') :
    u.consensusBlockCount s'.db ≤ u.consensusBlockCount s.db + 5 ∧ Paced u faulty 5 s' := by
  cases i with
  | propose p snapshot head =>
    simp only [Steps, Network.step] at h
    split at h
    · cases h
    rename_i db hpast
    split at h
    · cases h
    rename_i vote hvote
    split at h
    · rename_i hp
      obtain ⟨-, rfl⟩ := Prod.mk.inj (Option.some.inj h)
      refine ⟨Nat.le_add_right _ _, { hinv with transit := ?_ }⟩
      intro t ht
      rcases List.mem_cons.1 ht with rfl | ht
      · -- the snapshot's block count was positive, and is not above the present one
        obtain ⟨hpos, hle⟩ := hinv.past db (List.mem_of_getElem? hpast)
        have := proposeBlockCount_le henv hpos hvote
        exact ⟨hp.1, hp.2, by dsimp only; omega⟩
      · exact hinv.transit t ht
    · cases h
  | deliver k =>
    simp only [Steps, Network.step] at h
    split at h
    · cases h
    rename_i p vote hk
    obtain ⟨answer, db', haccept, rfl⟩ := Network.process_eq h
    obtain ⟨hp, hgood, hle⟩ := hinv.transit (p, vote) (List.mem_of_getElem? hk)
    refine hinv.process hfaulty haccept hp ?_
    intro vote' p' he _
    cases he
    exact hle
  | process item =>
    simp only [Steps, Network.step] at h
    split at h
    · rename_i hitem
      obtain ⟨answer, db', haccept, rfl⟩ := Network.process_eq h
      refine hinv.process hfaulty haccept hitem.1 ?_
      rintro vote p rfl hgood
      exact absurd hitem.2 (by simp [Item.honestCount, hgood])
    · cases h

end Network

/-- **Bounded block-count jumps.**  From a state with a positive block count, in which the honest
block counts stored and in transit are at most five ahead of it, every item processed later raises
the block count by at most five. -/
theorem bounded_block_count_jumps (u : Usdt) (henv : u.isRunningInTestEnv = false)
    (faulty : Finset PeerId) (hfaulty : faulty.card ≤ u.numPeers.maxEvil) (db₀ : Db)
    (transit₀ : List (PeerId × Nat)) (hcounts : GuardianCounts u db₀.blockCountVote)
    (hpos : 0 < u.consensusBlockCount db₀)
    (hstored : ∀ p, p < u.numPeers.total → p ∉ faulty →
      db₀.blockCountOf p ≤ u.consensusBlockCount db₀ + 5)
    (htransit : ∀ t ∈ transit₀, t.1 < u.numPeers.total ∧ t.1 ∉ faulty ∧
      t.2 ≤ u.consensusBlockCount db₀ + 5) (tr : List (NetItem × Unit)) (s : Network)
    (run : Run (Steps (Network.step u faulty)) ⟨db₀, [db₀], transit₀⟩ tr s) (i : NetItem)
    (s' : Network) (h : Steps (Network.step u faulty) s i () s') :
    u.consensusBlockCount s'.db ≤ u.consensusBlockCount s.db + 5 := by
  have hstart : Paced u faulty 5 ⟨db₀, [db₀], transit₀⟩ := by
    refine ⟨hcounts, hpos, ?_, hstored, htransit⟩
    intro db hdb
    rw [List.mem_singleton.1 hdb]
    exact ⟨hpos, Nat.le_refl _⟩
  have hinv : Paced u faulty 5 s :=
    run.invariant (P := Paced u faulty 5) hstart fun _ _ _ _ hinv hs =>
      (hinv.step henv hfaulty hs).2
  exact (hinv.step henv hfaulty h).1

/-- Three honest guardians of four propose, one of them from a state already passed, while the
faulty one jumps. -/
def Sample.network : List NetItem :=
  [.process (.consensus (.blockCount 1000) 3), .propose 0 0 50, .propose 1 1 50, .deliver 1,
    .deliver 0, .propose 2 0 12]

theorem bounded_block_count_jumps_four :
    ∃ db₀ tr s s', 0 < fourGuardians.consensusBlockCount db₀ ∧
      Run (Steps (Network.step fourGuardians {3})) ⟨db₀, [db₀], []⟩ tr s ∧
      Steps (Network.step fourGuardians {3}) s (.deliver 0) () s' ∧
      fourGuardians.consensusBlockCount s'.db ≤ fourGuardians.consensusBlockCount s.db + 5 := by
  let db₀ : Db := { Db.empty with
    blockCountVote := ((Table.empty.insert 0 2).insert 1 3).insert 2 4 }
  have hrun : ((exec (Network.step fourGuardians {3}) [] ⟨db₀, [db₀], []⟩ Sample.network).any
      fun r => (Network.step fourGuardians {3} r.2 (.deliver 0)).isSome) = true := by decide +kernel
  obtain ⟨tr, s, run, hs⟩ := Run.exists_of_exec (Network.step fourGuardians {3})
    ⟨db₀, [db₀], []⟩ Sample.network
    (fun _ s => (Network.step fourGuardians {3} s (.deliver 0)).isSome) hrun
  obtain ⟨⟨⟨⟩, s'⟩, hs'⟩ := Option.isSome_iff_exists.1 hs
  refine ⟨db₀, tr, s, s', by decide, run, hs', ?_⟩
  refine bounded_block_count_jumps fourGuardians rfl {3} (by decide) db₀ [] ?_ (by decide) ?_ ?_ tr
    s run (.deliver 0) s' hs'
  · intro p v hv
    have hrows : ∀ r ∈ db₀.blockCountVote.rows, r.1 < 4 := by decide
    exact hrows _ (Table.mem_rows.2 hv)
  · decide
  · nofun

end Experimint.FedimintUsdt
