import Experimint.Lib.OrderStatistics
import Experimint.Usdt.Quorum

/-!
# Aggregates of votes stay in the honest range

Three numbers are medians of votes: the block count, padded with zeros to the size of the
federation; the two fields of the fee median, over the fresh votes; and the gas residual of an
account, over its votes.  Each index leaves fewer faulty votes on either side than there can be, so
the selected vote is bracketed by honest ones.

* `consensusBlockCount_eq` — the block count as an order statistic over all guardians.
* `medians_in_honest_range` — the result.
-/

set_option autoImplicit false

namespace Experimint.FedimintUsdt

variable {u : Usdt} {db db' : Db} {faulty : Finset PeerId}

/-! ## Order statistics of votes -/

theorem sortedAt_eq_some {l : List Nat} {i : Nat} (h : i < l.length) :
    (l.insertionSort (· ≤ ·))[i]? = some (sortedAt i l) := by
  obtain ⟨x, hx⟩ := exists_getElem?_insertionSort h
  rw [sortedAt, hx, Option.getD_some]

theorem sortedAt_between {β : Type} {l : List β} {bad : β → Bool} {i f : Nat} (val : β → Nat)
    (hbad : (l.filter bad).length ≤ f) (hlo : f ≤ i) (hhi : i + f < l.length) :
    (∃ r ∈ l, bad r = false ∧ val r ≤ sortedAt i (l.map val)) ∧
      ∃ r ∈ l, bad r = false ∧ sortedAt i (l.map val) ≤ val r :=
  orderStat_between hbad hlo hhi (sortedAt_eq_some (by rw [List.length_map]; omega))

theorem sortedAt_mono {β : Type} {l : List β} {val val' : β → Nat} {i : Nat} (hi : i < l.length)
    (hle : ∀ r ∈ l, val r ≤ val' r) : sortedAt i (l.map val) ≤ sortedAt i (l.map val') :=
  orderStat_mono hle (sortedAt_eq_some (by rw [List.length_map]; exact hi))
    (sortedAt_eq_some (by rw [List.length_map]; exact hi))

/-- The median of at least a threshold of votes of distinct guardians lies between honest votes. -/
theorem median_between {β : Type} {l : List β} {tag : β → PeerId} (val : β → Nat)
    (hn : 0 < u.numPeers.total) (hfaulty : faulty.card ≤ u.numPeers.maxEvil)
    (hnd : (l.map tag).Nodup) (hquorum : u.numPeers.threshold ≤ l.length) :
    (∃ r ∈ l, tag r ∉ faulty ∧ val r ≤ sortedAt (l.length / 2) (l.map val)) ∧
      ∃ r ∈ l, tag r ∉ faulty ∧ sortedAt (l.length / 2) (l.map val) ≤ val r := by
  have hbad : (l.filter fun r => decide (tag r ∈ faulty)).length ≤ u.numPeers.maxEvil :=
    (length_filter_le_card hnd faulty fun r _ hr => of_decide_eq_true hr).trans hfaulty
  have hsize := NumPeers.three_mul_maxEvil_lt hn
  unfold NumPeers.threshold at hquorum
  have hboth := sortedAt_between val hbad (i := l.length / 2) (by omega) (by omega)
  simpa using hboth

/-! ## Block count -/

/-- Block count a guardian has voted for; zero without a vote. -/
def Db.blockCountOf (db : Db) (p : PeerId) : Nat := (db.blockCountVote.get? p).getD 0

/-- Block-count votes are the guardians'. -/
def GuardianCounts (u : Usdt) (t : Table PeerId Nat) : Prop :=
  ∀ p v, t.get? p = some v → p < u.numPeers.total

theorem consensusBlockCount_eq (h : GuardianCounts u db.blockCountVote) :
    u.consensusBlockCount db =
      sortedAt (u.numPeers.total / 2) ((List.range u.numPeers.total).map db.blockCountOf) := by
  have hperm := Table.perm_padded (t := db.blockCountVote) (List.nodup_range (n := u.numPeers.total))
    (fun k v hv => List.mem_range.2 (h k v hv)) 0
  rw [List.length_range] at hperm
  unfold Usdt.consensusBlockCount sortedAt
  dsimp only
  rw [insertionSort_congr hperm]
  rfl

theorem consensusBlockCount_between (hn : 0 < u.numPeers.total)
    (hfaulty : faulty.card ≤ u.numPeers.maxEvil) (h : GuardianCounts u db.blockCountVote) :
    (∃ p, p < u.numPeers.total ∧ p ∉ faulty ∧ db.blockCountOf p ≤ u.consensusBlockCount db) ∧
      ∃ p, p < u.numPeers.total ∧ p ∉ faulty ∧ u.consensusBlockCount db ≤ db.blockCountOf p := by
  have hquorum : u.numPeers.threshold ≤ (List.range u.numPeers.total).length := by
    rw [List.length_range]
    exact Nat.sub_le _ _
  have hnd : ((List.range u.numPeers.total).map id).Nodup := by
    rw [List.map_id]
    exact List.nodup_range
  have hboth := median_between db.blockCountOf hn hfaulty hnd hquorum
  rw [List.length_range, ← consensusBlockCount_eq h] at hboth
  simpa using hboth

/-- A vote that is larger than the guardian's last one never lowers the block count. -/
theorem consensusBlockCount_mono (h : GuardianCounts u db.blockCountVote)
    (h' : GuardianCounts u db'.blockCountVote)
    (hle : ∀ p, db.blockCountOf p ≤ db'.blockCountOf p) :
    u.consensusBlockCount db ≤ u.consensusBlockCount db' := by
  rw [consensusBlockCount_eq h, consensusBlockCount_eq h']
  rcases Nat.eq_zero_or_pos u.numPeers.total with hn | hn
  · rw [hn]
    exact Nat.le_refl _
  · exact sortedAt_mono (by rw [List.length_range]; omega) fun p _ => hle p

theorem Casts.blockCountOf_le {i : Item} (h : Casts u db i db'.ballots) (p : PeerId) :
    db.blockCountOf p ≤ db'.blockCountOf p := by
  generalize hb : db'.ballots = b at h
  have hvotes : db'.blockCountVote = b.blockCountVote := congrArg Ballots.blockCountVote hb
  unfold Db.blockCountOf
  rw [hvotes]
  cases h with
  | @blockCount vote q hmore =>
    show _ ≤ ((db.blockCountVote.insert q vote).get? p).getD 0
    rw [Table.get?_insert]
    split_ifs with hq
    · subst hq
      exact Nat.le_of_lt hmore
    · exact Nat.le_refl _
  | settle _ _ hclears =>
    rw [hclears.blockCountVote]
    exact Nat.le_refl _
  | unchanged | feeVote | blockHash | anchor | confirm | residual | recover | fees | payout =>
    exact Nat.le_refl _

theorem Casts.guardianCounts {i : Item} {b : Ballots} (h : Casts u db i b)
    (hinv : GuardianCounts u db.blockCountVote) (hi : i.FromGuardian u) :
    GuardianCounts u b.blockCountVote := by
  cases h with
  | @blockCount vote q hmore =>
    intro p v hv
    rw [Table.get?_insert] at hv
    split_ifs at hv with hq
    · subst hq
      exact hi
    · exact hinv p v hv
  | settle _ _ hclears =>
    rw [hclears.blockCountVote]
    exact hinv
  | unchanged | feeVote | blockHash | anchor | confirm | residual | recover | fees | payout =>
    exact hinv

theorem run_guardianCounts {tr : List (Item × Answer)} (run : Run (Accepts u) Db.empty tr db)
    (htr : FromGuardians u tr) : GuardianCounts u db.blockCountVote := by
  refine run.historyInvariant (P := fun tr db => FromGuardians u tr →
    GuardianCounts u db.blockCountVote) ?_ ?_ htr
  · intro _ p v hv
    cases hv
  · intro tr db i answer db' hinv h htr
    exact (Accepts.casts h).guardianCounts (hinv fun t ht => htr t (List.mem_cons_of_mem _ ht))
      (htr _ List.mem_cons_self)

theorem Accepts.blockCount_le {i : Item} {answer : Answer} (h : Accepts u db i answer db')
    (hinv : GuardianCounts u db.blockCountVote) (hi : i.FromGuardian u) :
    u.consensusBlockCount db ≤ u.consensusBlockCount db' :=
  consensusBlockCount_mono hinv ((Accepts.casts h).guardianCounts hinv hi)
    (Accepts.casts h).blockCountOf_le

/-! ## Fee median -/

/-- A guardian's stored fee vote that is recent enough to count. -/
def Usdt.FreshVote (u : Usdt) (db : Db) (p : PeerId) (stored : StoredFeeVote) : Prop :=
  db.feeVote.get? p = some stored ∧
    u.consensusBlockCount db - stored.recordedBlock ≤ FEE_VOTE_TTL_BLOCKS

/-- A value of a fee field lies between those of fresh honest votes. -/
def BetweenFreshVotes (u : Usdt) (db : Db) (faulty : Finset PeerId) (field : FeeVote → Nat)
    (x : Nat) : Prop :=
  (∃ p stored, p ∉ faulty ∧ u.FreshVote db p stored ∧ field stored.vote ≤ x) ∧
    ∃ p stored, p ∉ faulty ∧ u.FreshVote db p stored ∧ x ≤ field stored.vote

/-- Rows of the fresh fee votes. -/
def Usdt.freshRows (u : Usdt) (db : Db) : List (PeerId × StoredFeeVote) :=
  db.feeVote.rows.filter fun r =>
    decide (u.consensusBlockCount db - r.2.recordedBlock ≤ FEE_VOTE_TTL_BLOCKS)

theorem freshVote_of_mem {r : PeerId × StoredFeeVote} (h : r ∈ u.freshRows db) :
    u.FreshVote db r.1 r.2 := by
  obtain ⟨hmem, hfresh⟩ := List.mem_filter.1 h
  exact ⟨Table.mem_rows.1 hmem, of_decide_eq_true hfresh⟩

/-- The fee median, field by field, over the rows of the fresh votes. -/
theorem feeVoteMedian_eq {median : FeeVote} (h : u.feeVoteMedian db = some median) :
    u.numPeers.threshold ≤ (u.freshRows db).length ∧
      median.maxFeePerGasWei = sortedAt ((u.freshRows db).length / 2)
        ((u.freshRows db).map fun r => r.2.vote.maxFeePerGasWei) ∧
      median.usdtPerEthE6 = sortedAt ((u.freshRows db).length / 2)
        ((u.freshRows db).map fun r => r.2.vote.usdtPerEthE6) := by
  have hvotes : (db.feeVote.values.filter fun stored =>
      decide (u.consensusBlockCount db - stored.recordedBlock ≤ FEE_VOTE_TTL_BLOCKS)).map
        (·.vote) = (u.freshRows db).map fun r => r.2.vote := by
    rw [Table.values, List.filter_map, List.map_map]
    rfl
  unfold Usdt.feeVoteMedian at h
  dsimp only at h
  rw [hvotes] at h
  split at h
  · cases h
  rename_i hquorum
  rw [List.length_map] at hquorum
  rw [← Option.some.inj h, List.length_map, List.map_map, List.map_map]
  exact ⟨Nat.le_of_not_lt hquorum, rfl, rfl⟩

theorem freshRows_between (hn : 0 < u.numPeers.total)
    (hfaulty : faulty.card ≤ u.numPeers.maxEvil)
    (hquorum : u.numPeers.threshold ≤ (u.freshRows db).length) (field : FeeVote → Nat) :
    BetweenFreshVotes u db faulty field
      (sortedAt ((u.freshRows db).length / 2) ((u.freshRows db).map fun r => field r.2.vote)) := by
  have hnd : ((u.freshRows db).map Prod.fst).Nodup :=
    db.feeVote.nodup_keys.sublist (List.filter_sublist.map _)
  obtain ⟨⟨r, hr, hgood, hle⟩, r', hr', hgood', hle'⟩ :=
    median_between (fun r => field r.2.vote) hn hfaulty hnd hquorum
  exact ⟨⟨r.1, r.2, hgood, freshVote_of_mem hr, hle⟩,
    ⟨r'.1, r'.2, hgood', freshVote_of_mem hr', hle'⟩⟩

/-- Stored fee votes have passed the range check. -/
def SaneVotes (db : Db) : Prop :=
  ∀ p stored, db.feeVote.get? p = some stored → feeVoteInSaneRange stored.vote = true

theorem Accepts.saneVotes {i : Item} {answer : Answer} (h : Accepts u db i answer db')
    (hsane : SaneVotes db) : SaneVotes db' := by
  intro q stored hstored
  have hcasts := Accepts.casts h
  generalize hb : db'.ballots = b at hcasts
  have hvotes : db'.feeVote = b.feeVote := congrArg Ballots.feeVote hb
  rw [hvotes] at hstored
  cases hcasts with
  | @feeVote vote p =>
    have hvote : feeVoteInSaneRange vote = true := (processFeeVote_ok h.consensus).1
    have hstored : (db.feeVote.insert p ⟨vote, u.consensusBlockCount db⟩).get? q = some stored :=
      hstored
    rw [Table.get?_insert] at hstored
    split_ifs at hstored with hq
    · cases hstored
      exact hvote
    · exact hsane q stored hstored
  | settle _ _ hclears =>
    rw [hclears.feeVote] at hstored
    exact hsane q stored hstored
  | unchanged | blockCount | blockHash | anchor | confirm | residual | recover | fees | payout =>
    exact hsane q stored hstored

theorem saneVotes_empty : SaneVotes Db.empty := fun _ _ h => by cases h

theorem run_saneVotes {tr : List (Item × Answer)} (run : Run (Accepts u) Db.empty tr db) :
    SaneVotes db :=
  run.invariant (P := SaneVotes) saneVotes_empty fun _ _ _ _ hsane h =>
    Accepts.saneVotes h hsane

/-- The median of votes in range is in range. -/
theorem feeVoteMedian_sane {median : FeeVote} (hn : 0 < u.numPeers.total) (hsane : SaneVotes db)
    (h : u.feeVoteMedian db = some median) : feeVoteInSaneRange median = true := by
  obtain ⟨hquorum, hfee, hrate⟩ := feeVoteMedian_eq h
  have hbetween := freshRows_between hn
    (show (∅ : Finset PeerId).card ≤ u.numPeers.maxEvil by simp) hquorum
  obtain ⟨⟨p₁, v₁, -, hv₁, hlo₁⟩, p₂, v₂, -, hv₂, hhi₂⟩ := hbetween (·.maxFeePerGasWei)
  obtain ⟨⟨p₃, v₃, -, hv₃, hlo₃⟩, p₄, v₄, -, hv₄, hhi₄⟩ := hbetween (·.usdtPerEthE6)
  have h₁ := hsane p₁ v₁ hv₁.1
  have h₂ := hsane p₂ v₂ hv₂.1
  have h₃ := hsane p₃ v₃ hv₃.1
  have h₄ := hsane p₄ v₄ hv₄.1
  rw [← hfee] at hlo₁ hhi₂
  rw [← hrate] at hlo₃ hhi₄
  beta_reduce at hlo₁ hhi₂ hlo₃ hhi₄
  rw [feeVoteInSaneRange_iff] at h₁ h₂ h₃ h₄ ⊢
  omega

/-! ## Residual recovery -/

/-- What a recovery withdraws, with its worst gas cost, is covered by an honest vote. -/
def RecoveryCovered (u : Usdt) (faulty : Finset PeerId) (db : Db) (a : EvmAddress)
    (op : UnsignedUserOp) : Prop :=
  ∃ recipient amount p vote,
    op.callData = .execute u.cfg.entryPoint 0 (.withdrawTo recipient amount) ∧ p ∉ faulty ∧
      db.recoverResidualVote.get? (toLex (a, p)) = some vote ∧
      amount.val + GasBounds.RECOVER_RESIDUAL_GAS_UNITS * op.maxFeePerGas ≤ vote

theorem recoveryCovered {a : EvmAddress} {amount nonce : Nat} {g : GasBounds}
    (hn : 0 < u.numPeers.total) (hfaulty : faulty.card ≤ u.numPeers.maxEvil)
    (hquorum : u.numPeers.threshold ≤ (Usdt.residualVotes db a).length)
    (hcovered : amount + GasBounds.RECOVER_RESIDUAL_GAS_UNITS * g.maxFeePerGas ≤
      sortedAt ((Usdt.residualVotes db a).length / 2) (Usdt.residualVotes db a)) :
    RecoveryCovered u faulty db a (u.buildRecoverResidualUserop a amount nonce g) := by
  have hkey : ∀ k : EvmAddress ×ₗ PeerId, decide ((ofLex k).1 = a) = true → (ofLex k).1 = a :=
    fun _ hk => of_decide_eq_true hk
  unfold Usdt.residualVotes at hquorum hcovered
  rw [List.length_map] at hquorum hcovered
  obtain ⟨-, r, hr, hgood, hle⟩ := median_between Prod.snd hn hfaulty
    (db.recoverResidualVote.nodup_scan hkey) hquorum
  refine ⟨u.cfg.residualRecoveryRecipient, _, (ofLex r.1).2, r.2, rfl, hgood,
    Table.get?_of_mem_scan hkey hr, ?_⟩
  -- the call holds the amount as a machine word, which is no larger
  have hword : amount % 2 ^ 256 ≤ amount := Nat.mod_le _ _
  calc amount % 2 ^ 256 + GasBounds.RECOVER_RESIDUAL_GAS_UNITS * g.maxFeePerGas
      ≤ amount + GasBounds.RECOVER_RESIDUAL_GAS_UNITS * g.maxFeePerGas := by omega
    _ ≤ _ := hcovered
    _ ≤ r.2 := hle

theorem Casts.recoveries {i : Item} (h : Casts u db i db'.ballots)
    (hfaulty : faulty.card ≤ u.numPeers.maxEvil) (hi : i.FromGuardian u) :
    ∃ new, acts db'.history = new ++ acts db.history ∧
      ∀ a op, .recovery a op ∈ new → RecoveryCovered u faulty db' a op := by
  generalize hb : db'.ballots = b at h
  have hacts : acts db'.history = b.acts := congrArg Ballots.acts hb
  have hvotes : db'.recoverResidualVote = b.recoverResidualVote :=
    congrArg Ballots.recoverResidualVote hb
  rw [hacts]
  cases h with
  | @settle h obs p s _ hs _ hclears =>
    refine ⟨[.settled s.signed.unsigned obs.success], hclears.acts, ?_⟩
    intro a op hmem
    cases List.mem_singleton.1 hmem
  | @recover a wei amount nonce p g votes hresidual hquorum hcovered =>
    refine ⟨[.recovery a (u.buildRecoverResidualUserop a amount nonce g)], rfl, ?_⟩
    intro a' op hmem
    cases List.mem_singleton.1 hmem
    have hsame : votes = Usdt.residualVotes db' a := by
      rw [hresidual, Usdt.residualVotes, Usdt.residualVotes, hvotes]
    rw [hsame] at hquorum hcovered
    exact recoveryCovered (lt_of_le_of_lt (Nat.zero_le _) hi) hfaulty hquorum hcovered
  | @payout vote v p _ =>
    refine ⟨[.payout v.recipient v.amount], rfl, ?_⟩
    intro a op hmem
    cases List.mem_singleton.1 hmem
  | unchanged | blockCount | feeVote | blockHash | anchor | confirm | residual | fees =>
    exact ⟨[], rfl, nofun⟩

/-! ## Result -/

/-- **Medians stay in the honest range.**  The block count never falls and lies between block
counts of honest guardians, a fee median lies between fresh honest fee votes in either field, and
an enqueued recovery is covered by an honest vote for its account. -/
theorem medians_in_honest_range (u : Usdt) (hn : 1 ≤ u.numPeers.total) (faulty : Finset PeerId)
    (hfaulty : faulty.card ≤ u.numPeers.maxEvil) (tr : List (Item × Answer)) (db : Db)
    (run : Run (Accepts u) Db.empty tr db) (htr : FromGuardians u tr) :
    (∀ item answer db', Accepts u db item answer db' → item.FromGuardian u →
      u.consensusBlockCount db ≤ u.consensusBlockCount db') ∧
    (∃ p, p < u.numPeers.total ∧ p ∉ faulty ∧ db.blockCountOf p ≤ u.consensusBlockCount db) ∧
    (∃ p, p < u.numPeers.total ∧ p ∉ faulty ∧ u.consensusBlockCount db ≤ db.blockCountOf p) ∧
    (∀ median, u.feeVoteMedian db = some median →
      BetweenFreshVotes u db faulty (·.maxFeePerGasWei) median.maxFeePerGasWei ∧
        BetweenFreshVotes u db faulty (·.usdtPerEthE6) median.usdtPerEthE6) ∧
    ∀ item answer db', Accepts u db item answer db' → item.FromGuardian u →
      ∃ new, acts db'.history = new ++ acts db.history ∧
        ∀ a op, .recovery a op ∈ new → RecoveryCovered u faulty db' a op := by
  have hcounts := run_guardianCounts run htr
  obtain ⟨hlow, hhigh⟩ := consensusBlockCount_between hn hfaulty hcounts
  refine ⟨?_, hlow, hhigh, ?_, ?_⟩
  · intro item answer db' h hitem
    exact Accepts.blockCount_le h hcounts hitem
  · intro median hmedian
    obtain ⟨hquorum, hgas, hprice⟩ := feeVoteMedian_eq hmedian
    rw [hgas, hprice]
    exact ⟨freshRows_between hn hfaulty hquorum _, freshRows_between hn hfaulty hquorum _⟩
  · intro item answer db' h hitem
    exact (Accepts.casts h).recoveries hfaulty hitem

/-- Four guardians vote on the block count and on fees, the last of them wildly. -/
def Sample.voting : List Item :=
  [(0, 10), (1, 20), (2, 30), (3, 1000)].map (fun v => .consensus (.blockCount v.2) v.1) ++
    [(0, 5), (1, 6), (2, 7), (3, 900)].map fun v => .consensus (.feeVote ⟨v.2, v.2⟩) v.1

theorem medians_in_honest_range_four :
    ∃ tr db, Run (Accepts fourGuardians) Db.empty tr db ∧ FromGuardians fourGuardians tr ∧
      fourGuardians.consensusBlockCount db = 30 ∧
      fourGuardians.feeVoteMedian db = some ⟨7, 7⟩ ∧
      BetweenFreshVotes fourGuardians db {3} (·.maxFeePerGasWei) 7 := by
  obtain ⟨tr, db, run, hP⟩ := Run.exists_of_exec fourGuardians.step Db.empty Sample.voting
    (fun tr db => decide (FromGuardians fourGuardians tr) &&
      decide (fourGuardians.consensusBlockCount db = 30) &&
      decide (fourGuardians.feeVoteMedian db = some ⟨7, 7⟩)) (by decide +kernel)
  simp only [Bool.and_eq_true, decide_eq_true_eq] at hP
  obtain ⟨⟨htr, hcount⟩, hmedian⟩ := hP
  obtain ⟨-, -, -, hfees, -⟩ :=
    medians_in_honest_range fourGuardians (by decide) {3} (by decide) tr db run htr
  exact ⟨tr, db, run, htr, hcount, hmedian, (hfees _ hmedian).1⟩

end Experimint.FedimintUsdt
