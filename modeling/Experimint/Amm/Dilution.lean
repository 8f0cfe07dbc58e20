import Experimint.Amm.Invariant

/-!
# Providers cannot dilute each other

Deposits and withdrawals round against whoever makes them, so a leg of the pool never backs a share
by less than before.  The product order of `Market.Worth` would let one leg fall while the other
rises; here both legs are followed on their own, which swaps would not allow.

* `Accepts.keeps_backing` — one deposit or withdrawal by somebody else.
* `redeem_run` — withdrawals of one owner in pieces.
* `providers_cannot_dilute` — whole runs, and the round trip of one deposit.
-/

set_option autoImplicit false

namespace Experimint.FedimintAmm

/-- Owner of the position that an item adds liquidity to or takes it from. -/
def provider : Item → Option PublicKey
  | .input (.withdrawV0 _ ownerPk _ _ _ _ _) => some ownerPk
  | .output (.depositV0 _ _ _ _ ownerPk _ _) => some ownerPk
  | _ => none

/-- Shares of a position; none without a row. -/
def sharesHeld (db : Db) (id : PoolId) (owner : PublicKey) : Nat :=
  ((db.lpPosition.get? (toLex (id, owner))).map (·.shares)).getD 0

/-- The item withdraws from the owner's position in the pool. -/
def IsWithdrawal (id : PoolId) (owner : PublicKey) (i : Item) : Prop :=
  ∃ shares minLo minHi maxLo maxHi, i = .input (.withdrawV0 id owner shares minLo minHi maxLo maxHi)

/-- Shares an item withdraws. -/
def sharesWithdrawn : Item → Nat
  | .input (.withdrawV0 _ _ shares _ _ _ _) => shares
  | _ => 0

/-- Amount of `u` that an answer pays out of the module. -/
def paidOut (u : AmountUnit) : Answer → Nat
  | .funded m => m.amount.amounts.of u
  | _ => 0

section Steps

variable {a : Amm} {db db' : Db} {id : PoolId} {owner : PublicKey} {ans : Answer}

theorem Accepts.withdrawn {shares minLo minHi maxLo maxHi : Nat}
    (h : Accepts a db (.input (.withdrawV0 id owner shares minLo minHi maxLo maxHi)) ans db') :
    ∃ m, ans = .funded m ∧ withdraw db id owner shares minLo minHi maxLo maxHi = (.ok m, db') := by
  unfold Accepts Steps step processInput at h
  dsimp only at h
  split at h
  · rename_i m s hin
    cases h
    exact ⟨m, rfl, hin⟩
  · cases h

theorem Accepts.deposited {da dB minShares : Nat} {tweak pop : Bytes}
    (h : Accepts a db (.output (.depositV0 id da dB minShares owner tweak pop)) ans db') :
    ∃ t, ans = .consumed t ∧ deposit a db id da dB minShares owner tweak = (.ok t, db') := by
  unfold Accepts Steps step processOutput at h
  dsimp only at h
  split at h
  · rename_i t s hout
    cases h
    split at hout
    · cases hout
    exact ⟨t, rfl, hout⟩
  · cases h

theorem setPosition_ne {t : Table LpPositionKey LpPosition} {key key' : LpPositionKey}
    (position : LpPosition) (left : Nat) (h : key ≠ key') :
    (setPosition t key position left).get? key' = t.get? key' := by
  unfold setPosition
  split
  · exact Table.get?_erase_ne _ h.symm
  · exact Table.get?_insert_ne _ _ h

/-- Another owner's deposit or withdrawal leaves the position alone and no leg thinner. -/
theorem Accepts.keeps_backing {i : Item} {other : PublicKey} {p : Pool} (hi : Inv db)
    (h : Accepts a db i ans db') (hprovider : provider i = some other) (hne : other ≠ owner)
    (hp : db.pool.get? id = some p) :
    db'.lpPosition.get? (toLex (id, owner)) = db.lpPosition.get? (toLex (id, owner)) ∧
      ∃ p', db'.pool.get? id = some p' ∧ p.market.Backs p'.market := by
  have hkey : ∀ id' : PoolId, (toLex (id', other) : LpPositionKey) ≠ toLex (id, owner) := by
    intro id' heq
    exact hne (congrArg Prod.snd heq)
  unfold provider at hprovider
  split at hprovider
  · obtain rfl := Option.some.inj hprovider
    rename_i id' other shares minLo minHi maxLo maxHi
    obtain ⟨m, -, hw⟩ := h.withdrawn
    obtain ⟨q, position, o, amounts, hpool, -, -, hburn, -, -, rfl⟩ := withdraw_eq_ok hw
    refine ⟨setPosition_ne _ _ (hkey id'), ?_⟩
    by_cases hid : id' = id
    · subst hid
      rw [hp] at hpool
      obtain rfl := Option.some.inj hpool
      exact ⟨_, Table.get?_insert_self _ _ _, (burnShares_spec hburn).backs⟩
    · exact ⟨p, (Table.get?_insert_ne _ _ hid).trans hp, Market.Backs.refl _⟩
  · obtain rfl := Option.some.inj hprovider
    rename_i id' da dB minShares other tweak pop
    obtain ⟨t, -, hd⟩ := h.deposited
    obtain ⟨q, o, amounts, hpool, hmint, -, -, rfl⟩ := deposit_eq_ok hd
    refine ⟨Table.get?_insert_ne _ _ (hkey id'), ?_⟩
    by_cases hid : id' = id
    · subst hid
      rw [hp, Option.getD_some] at hpool
      subst hpool
      have hpos : p.totalShares ≠ 0 := Nat.pos_iff_ne_zero.1 (hi.pools _ _ hp).total_pos
      exact ⟨_, Table.get?_insert_self _ _ _, mintShares_backs hpos hmint⟩
    · exact ⟨p, (Table.get?_insert_ne _ _ hid).trans hp, Market.Backs.refl _⟩
  · cases hprovider

end Steps

section Runs

variable {a : Amm} {db db' : Db} {id : PoolId} {owner : PublicKey} {p : Pool}
  {tr : List (Item × Answer)}

theorem backing_run (hi : Inv db) (hrun : Run (Accepts a) db tr db')
    (hothers : ∀ e ∈ tr, ∃ other, provider e.1 = some other ∧ other ≠ owner)
    (hp : db.pool.get? id = some p) :
    Inv db' ∧ db'.lpPosition.get? (toLex (id, owner)) = db.lpPosition.get? (toLex (id, owner)) ∧
      ∃ p', db'.pool.get? id = some p' ∧ p.market.Backs p'.market := by
  induction hrun with
  | start => exact ⟨hi, rfl, p, hp, Market.Backs.refl _⟩
  | next hrun hstep ih =>
    obtain ⟨⟨other, hprovider, hne⟩, hearlier⟩ := List.forall_mem_cons.1 hothers
    obtain ⟨his, hposition, q, hq, hback⟩ := ih hearlier
    obtain ⟨hsame, q', hq', hback'⟩ := hstep.keeps_backing his hprovider hne hq
    exact ⟨inv_step his hstep.effect, hsame.trans hposition, q', hq',
      hback.trans (his.pools id q hq).total_pos hback'⟩

/-- Pool after redemptions of `n` shares that paid `lo` and `hi`. -/
structure Redeemed (id : PoolId) (p : Pool) (n lo hi : Nat) (db : Db) : Prop where
  inv : Inv db
  pool : ∃ q, db.pool.get? id = some q ∧ p.market.Backs q.market ∧
    q.totalShares + n = p.totalShares ∧ q.reserveLo + lo = p.reserveLo ∧
    q.reserveHi + hi = p.reserveHi

theorem Redeemed.next {n lo hi : Nat} {i : Item} {ans : Answer} (h : Redeemed id p n lo hi db)
    (hstep : Accepts a db i ans db') (hitem : IsWithdrawal id owner i) :
    Redeemed id p (n + sharesWithdrawn i) (lo + paidOut id.lo ans) (hi + paidOut id.hi ans) db' := by
  obtain ⟨hinv, q, hq, hback, htotal, hlo, hhi⟩ := h
  have hinv' := inv_step hinv hstep.effect
  obtain ⟨shares, minLo, minHi, maxLo, maxHi, rfl⟩ := hitem
  obtain ⟨m, rfl, hw⟩ := hstep.withdrawn
  obtain ⟨q', position, o, amounts, hpool, -, -, hburn, hamounts, rfl, rfl⟩ := withdraw_eq_ok hw
  rw [hq] at hpool
  obtain rfl := Option.some.inj hpool
  have hspec := burnShares_spec hburn
  have hshares := hspec.shares_le
  obtain ⟨hda, hdb⟩ := hspec.le
  have hpaidLo : paidOut id.lo (.funded ⟨⟨amounts, Amounts.zero⟩, owner⟩) = o.da := by
    dsimp only [paidOut]
    rw [hamounts, if_pos rfl, if_neg id.lo_ne_hi.symm, Nat.add_zero]
  have hpaidHi : paidOut id.hi (.funded ⟨⟨amounts, Amounts.zero⟩, owner⟩) = o.db := by
    dsimp only [paidOut]
    rw [hamounts, if_neg id.lo_ne_hi, if_pos rfl, Nat.zero_add]
  rw [hpaidLo, hpaidHi]
  refine ⟨hinv', _, Table.get?_insert_self _ _ _,
    hback.trans (hinv.pools id q hq).total_pos hspec.backs, ?_, ?_, ?_⟩
  · dsimp only [sharesWithdrawn]
    rw [hspec.total_eq]
    omega
  · dsimp only
    omega
  · dsimp only
    omega

theorem redeem_run (hinv : Inv db) (hp : db.pool.get? id = some p)
    (hrun : Run (Accepts a) db tr db') (hitems : ∀ e ∈ tr, IsWithdrawal id owner e.1) :
    Redeemed id p (tr.map fun e => sharesWithdrawn e.1).sum (tr.map fun e => paidOut id.lo e.2).sum
      (tr.map fun e => paidOut id.hi e.2).sum db' := by
  induction hrun with
  | start => exact ⟨hinv, p, hp, Market.Backs.refl _, rfl, rfl, rfl⟩
  | next hrun hstep ih =>
    obtain ⟨hlast, hearlier⟩ := List.forall_mem_cons.1 hitems
    have hnext := (ih hearlier).next hstep hlast
    simp only [List.map_cons, List.sum_cons]
    rwa [Nat.add_comm (sharesWithdrawn _), Nat.add_comm (paidOut id.lo _),
      Nat.add_comm (paidOut id.hi _)]

/-- The pool a deposit leaves, and what its shares are worth there. -/
theorem Accepts.issue_le {da dB minShares : Nat} {tweak pop : Bytes} {ans : Answer} (hinv : Inv db)
    (h : Accepts a db (.output (.depositV0 id da dB minShares owner tweak pop)) ans db') :
    ∃ p, db'.pool.get? id = some p ∧
      p.reserveLo * (sharesHeld db' id owner - sharesHeld db id owner) ≤ da * p.totalShares ∧
      p.reserveHi * (sharesHeld db' id owner - sharesHeld db id owner) ≤ dB * p.totalShares := by
  obtain ⟨t, -, hd⟩ := h.deposited
  obtain ⟨p, o, amounts, hpool, hmint, -, -, rfl⟩ := deposit_eq_ok hd
  have hempty : p.totalShares = 0 → p.reserveLo = 0 ∧ p.reserveHi = 0 := by
    intro hzero
    cases hget : db.pool.get? id with
    | none =>
      rw [hget, Option.getD_none] at hpool
      subst hpool
      exact ⟨rfl, rfl⟩
    | some q =>
      rw [hget, Option.getD_some] at hpool
      subst hpool
      exact absurd hzero (Nat.ne_of_gt (hinv.pools id q hget).total_pos)
  have hheld : sharesHeld { db with
      pool := db.pool.insert id ⟨p.reserveLo + da, p.reserveHi + dB, o.newTotalShares⟩
      lpPosition := db.lpPosition.insert (toLex (id, owner))
        ⟨((db.lpPosition.get? (toLex (id, owner))).map (·.shares)).getD 0 + o.toOwner, tweak⟩ }
      id owner = sharesHeld db id owner + o.toOwner := by
    unfold sharesHeld
    rw [Table.get?_insert_self]
    rfl
  rw [hheld, Nat.add_sub_cancel_left]
  exact ⟨_, Table.get?_insert_self _ _ _, (mintShares_spec hmint).issue_le hempty⟩

end Runs

/-- **Providers cannot dilute each other.**  While only others deposit and withdraw, a position
keeps its shares, neither leg of what any number of shares would pay falls, and a redemption that
was possible stays so.  And withdrawing the shares a deposit minted right after it, in any number of
pieces, pays on each leg at most what was deposited there. -/
theorem providers_cannot_dilute (a : Amm) :
    (∀ (tr tr' : List (Item × Answer)) (db db' : Db) (id : PoolId) (owner : PublicKey) (p : Pool)
      (position : LpPosition), Run (Accepts a) Db.empty tr db → db.pool.get? id = some p →
      db.lpPosition.get? (toLex (id, owner)) = some position → Run (Accepts a) db tr' db' →
      (∀ e ∈ tr', ∃ other, provider e.1 = some other ∧ other ≠ owner) →
      ∃ p', db'.pool.get? id = some p' ∧
        db'.lpPosition.get? (toLex (id, owner)) = some position ∧
        (∀ s, p.reserveLo * s / p.totalShares ≤ p'.reserveLo * s / p'.totalShares ∧
          p.reserveHi * s / p.totalShares ≤ p'.reserveHi * s / p'.totalShares) ∧
        ∀ s o, s ≤ position.shares →
          burnShares p.reserveLo p.reserveHi p.totalShares s = .ok o →
          ∃ o', burnShares p'.reserveLo p'.reserveHi p'.totalShares s = .ok o' ∧
            o.da ≤ o'.da ∧ o.db ≤ o'.db) ∧
    ∀ (tr tr' : List (Item × Answer)) (db db' db'' : Db) (id : PoolId) (owner : PublicKey)
      (da dB minShares : Nat) (tweak pop : Bytes) (ans : Answer),
      Run (Accepts a) Db.empty tr db →
      Accepts a db (.output (.depositV0 id da dB minShares owner tweak pop)) ans db' →
      Run (Accepts a) db' tr' db'' → (∀ e ∈ tr', IsWithdrawal id owner e.1) →
      (tr'.map fun e => sharesWithdrawn e.1).sum ≤
        sharesHeld db' id owner - sharesHeld db id owner →
      (tr'.map fun e => paidOut id.lo e.2).sum ≤ da ∧
        (tr'.map fun e => paidOut id.hi e.2).sum ≤ dB := by
  refine ⟨?_, ?_⟩
  · intro tr tr' db db' id owner p position hreach hp hposition hrun hothers
    obtain ⟨hinv, hsame, p', hp', hback⟩ := backing_run (inv_reachable hreach) hrun hothers hp
    have hok := hinv.pools id p' hp'
    rw [hposition] at hsame
    have hpays : ∀ s, p.reserveLo * s / p.totalShares ≤ p'.reserveLo * s / p'.totalShares ∧
        p.reserveHi * s / p.totalShares ≤ p'.reserveHi * s / p'.totalShares := fun s =>
      ⟨Market.floor_share_mono hok.total_pos hback.lo s,
        Market.floor_share_mono hok.total_pos hback.hi s⟩
    refine ⟨p', hp', hsame, hpays, ?_⟩
    intro s o hs hburn
    have hspec := burnShares_spec hburn
    have hpaid := hspec.paid
    obtain ⟨hlo, hhi⟩ := hpays s
    rw [hspec.da_eq, hspec.db_eq] at hpaid ⊢
    have hshares : s ≤ p'.totalShares := by
      have hle := shares_le_sharesOf hsame
      have htotal := hok.total_eq
      omega
    refine ⟨_, burnShares_of_paid hok.lo_le hok.hi_le hspec.shares_pos hshares ?_, hlo, hhi⟩
    rintro ⟨hzeroLo, hzeroHi⟩
    rw [hzeroLo] at hlo
    rw [hzeroHi] at hhi
    exact hpaid ⟨Nat.le_zero.1 hlo, Nat.le_zero.1 hhi⟩
  · intro tr tr' db db' db'' id owner da dB minShares tweak pop ans hreach hstep hrun hitems hsum
    have hinv := inv_reachable hreach
    have hinv' := inv_step hinv hstep.effect
    obtain ⟨p, hp, hlo, hhi⟩ := hstep.issue_le hinv
    have hpos := (hinv'.pools id p hp).total_pos
    obtain ⟨-, q, -, hback, htotal, hpaidLo, hpaidHi⟩ := redeem_run hinv' hp hrun hitems
    have hleft : q.totalShares = p.totalShares - (tr'.map fun e => sharesWithdrawn e.1).sum := by
      omega
    have hbackLo := hback.lo
    have hbackHi := hback.hi
    unfold Pool.market at hbackLo hbackHi
    dsimp only at hbackLo hbackHi
    rw [hleft] at hbackLo hbackHi
    have hLo := Market.redeemed_le hpos hbackLo hsum hlo
    have hHi := Market.redeemed_le hpos hbackHi hsum hhi
    exact ⟨by omega, by omega⟩

def otherKey : PublicKey := ⟨false, 8⟩

/-- Another provider deposits and withdraws again, in pieces. -/
def otherDeposit : AmmOutput :=
  .depositV0 samplePool 401 703 1 otherKey [] (List.replicate 64 0)

def otherWithdrawals : List Item :=
  [.input (.withdrawV0 samplePool otherKey 150 0 0 100000 100000),
   .input (.withdrawV0 samplePool otherKey 200 0 0 100000 100000)]

theorem isWithdrawal_otherWithdrawals {i : Item} (h : i ∈ otherWithdrawals) :
    IsWithdrawal samplePool otherKey i := by
  unfold otherWithdrawals at h
  rcases List.mem_cons.1 h with rfl | h
  · exact ⟨_, _, _, _, _, rfl⟩
  · rw [List.mem_singleton.1 h]
    exact ⟨_, _, _, _, _, rfl⟩

/-- What the deposit has minted is withdrawn. -/
theorem otherWithdrawals_accepted {ans : Answer} {db : Db}
    (hdeposit : step sampleAmm sampleDb (.output otherDeposit) = some (ans, db)) :
    ∃ tr db', Run (Accepts sampleAmm) db tr db' ∧ tr.map Prod.fst = otherWithdrawals.reverse ∧
      (tr.map fun e => sharesWithdrawn e.1).sum ≤
        sharesHeld db samplePool otherKey - sharesHeld sampleDb samplePool otherKey := by
  have hall : (step sampleAmm sampleDb (.output otherDeposit)).all (fun s : Answer × Db =>
      (exec (step sampleAmm) [] s.2 otherWithdrawals).any fun r =>
        decide (r.1.map Prod.fst = otherWithdrawals.reverse) &&
          decide ((r.1.map fun e => sharesWithdrawn e.1).sum ≤
            sharesHeld s.2 samplePool otherKey - sharesHeld sampleDb samplePool otherKey)) =
              true := by
    decide +kernel
  rw [hdeposit] at hall
  obtain ⟨tr, db', run, hP⟩ := Run.exists_of_exec (step sampleAmm) db otherWithdrawals
    (fun tr _ => decide (tr.map Prod.fst = otherWithdrawals.reverse) &&
      decide ((tr.map fun e => sharesWithdrawn e.1).sum ≤
        sharesHeld db samplePool otherKey - sharesHeld sampleDb samplePool otherKey)) hall
  simp only [Bool.and_eq_true, decide_eq_true_eq] at hP
  exact ⟨tr, db', run, hP⟩

theorem providers_cannot_dilute_sample :
    (∃ tr db' p', Run (Accepts sampleAmm) sampleDb tr db' ∧ tr.length = 3 ∧
      db'.pool.get? samplePool = some p' ∧
      ∃ o, burnShares p'.reserveLo p'.reserveHi p'.totalShares 2000 = .ok o ∧
        1667 ≤ o.da ∧ 2402 ≤ o.db) ∧
    ∃ db' ans tr db'', Accepts sampleAmm sampleDb (.output otherDeposit) ans db' ∧
      Run (Accepts sampleAmm) db' tr db'' ∧ tr.length = 2 ∧
      (tr.map fun e => paidOut samplePool.lo e.2).sum ≤ 401 ∧
      (tr.map fun e => paidOut samplePool.hi e.2).sum ≤ 703 := by
  obtain ⟨hothers, hround⟩ := providers_cannot_dilute sampleAmm
  have hreach := Run.of_isSome sampleItems_accepted
  have hpool : sampleDb.pool.get? samplePool = some ⟨3334, 4804, 4000⟩ := by decide +kernel
  constructor
  · obtain ⟨tr, db', run, hP⟩ := Run.exists_of_exec (step sampleAmm) sampleDb
      (.output otherDeposit :: otherWithdrawals)
      (fun tr _ => decide (tr.length = 3) && tr.all fun e => decide (provider e.1 = some otherKey))
      (by decide +kernel)
    simp only [Bool.and_eq_true, decide_eq_true_eq, List.all_eq_true] at hP
    obtain ⟨position, hposition, hshares⟩ : ∃ position : LpPosition,
        sampleDb.lpPosition.get? (toLex (samplePool, sampleKey)) = some position ∧
          2000 ≤ position.shares := by
      have hany : (sampleDb.lpPosition.get? (toLex (samplePool, sampleKey))).any
          (fun position => decide (2000 ≤ position.shares)) = true := by decide +kernel
      simpa only [Option.any_eq_true, decide_eq_true_eq] using hany
    obtain ⟨p', hp', -, -, hburn⟩ := hothers _ tr _ db' samplePool sampleKey _ position hreach hpool
      hposition run fun e he => ⟨otherKey, hP.2 e he, by decide⟩
    obtain ⟨o', ho', hda, hdb⟩ := hburn 2000 ⟨1667, 2402, 2000⟩ hshares (by decide +kernel)
    exact ⟨tr, db', p', run, hP.1, hp', o', ho', hda, hdb⟩
  · obtain ⟨⟨ans, db'⟩, hdeposit⟩ : ∃ r, step sampleAmm sampleDb (.output otherDeposit) = some r :=
      Option.isSome_iff_exists.1 (by decide +kernel)
    obtain ⟨tr, db'', run, hitems, hsum⟩ := otherWithdrawals_accepted hdeposit
    have hlen : tr.length = 2 := by
      rw [← List.length_map (f := Prod.fst), hitems]
      rfl
    have hwithdrawals : ∀ e ∈ tr, IsWithdrawal samplePool otherKey e.1 := by
      intro e he
      have he := List.mem_map_of_mem (f := Prod.fst) he
      rw [hitems, List.mem_reverse] at he
      exact isWithdrawal_otherWithdrawals he
    obtain ⟨hlo, hhi⟩ := hround _ tr _ db' db'' samplePool otherKey 401 703 1 [] _ ans hreach
      hdeposit run hwithdrawals hsum
    exact ⟨db', ans, tr, db'', hdeposit, run, hlen, hlo, hhi⟩

end Experimint.FedimintAmm
