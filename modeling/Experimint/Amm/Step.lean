import Experimint.Amm.Server

/-!
# What an accepted item does

`Effect` lists the five things an accepted item can do to the database, with everything its checks
established; `Accepts.effect` is the inversion of the processing functions.  Every result about
runs is a case analysis over `Effect`, so none of them unfolds the server again.
-/

set_option autoImplicit false

namespace Experimint.FedimintAmm

/-- Pool after a swap of `dx` against `dy`. -/
def Pool.swapped (p : Pool) (inIsLo : Bool) (dx dy : Nat) : Pool :=
  if inIsLo then { p with reserveLo := p.reserveLo + dx, reserveHi := p.reserveHi - dy }
  else { p with reserveHi := p.reserveHi + dx, reserveLo := p.reserveLo - dy }

/-- Positions after one of them is set to `left` shares; an empty one is removed. -/
def setPosition (t : Table LpPositionKey LpPosition) (key : LpPositionKey) (position : LpPosition)
    (left : Nat) : Table LpPositionKey LpPosition :=
  if left = 0 then t.erase key else t.insert key { position with shares := left }

/-- Effects of accepted items. -/
inductive Effect : Db → Answer → Db → Prop
  | claim {db : Db} {owner : PublicKey} {unit : AmountUnit} {entry : BalanceEntry}
      (hentry : db.balance.get? (toLex (owner, unit)) = some entry) :
      Effect db (.funded ⟨⟨Amounts.newCustom unit entry.amount, Amounts.zero⟩, owner⟩)
        { db with balance := db.balance.erase (toLex (owner, unit)) }
  | withdraw {db : Db} {id : PoolId} {owner : PublicKey} {p : Pool} {position : LpPosition}
      {shares : Nat} {o : BurnOutcome} {amounts : Amounts}
      (hpool : db.pool.get? id = some p)
      (hposition : db.lpPosition.get? (toLex (id, owner)) = some position)
      (hshares : shares ≤ position.shares)
      (hburn : burnShares p.reserveLo p.reserveHi p.totalShares shares = .ok o)
      (hamounts : ∀ u, amounts.of u =
        (if id.lo = u then o.da else 0) + (if id.hi = u then o.db else 0)) :
      Effect db (.funded ⟨⟨amounts, Amounts.zero⟩, owner⟩)
        { db with
          pool := db.pool.insert id
            ⟨p.reserveLo - o.da, p.reserveHi - o.db, o.newTotalShares⟩
          lpPosition := setPosition db.lpPosition (toLex (id, owner)) position
            (position.shares - shares) }
  | swap {db : Db} {id : PoolId} {p : Pool} {recipient : PublicKey} {tweak : Bytes}
      {inIsLo : Bool} {dx dy fee : Nat}
      (hpool : db.pool.get? id = some p)
      (hout : AmountOutSpec (if inIsLo then p.reserveLo else p.reserveHi)
        (if inIsLo then p.reserveHi else p.reserveLo) dx fee dy)
      (hcap : (if inIsLo then p.reserveLo else p.reserveHi) + dx ≤ MAX_RESERVE)
      (hbalance : ((db.balance.get? (toLex (recipient, if inIsLo then id.hi else id.lo))).map
        (·.amount)).getD 0 + dy ≤ MAX_RESERVE) :
      Effect db (.consumed ⟨Amounts.newCustom (if inIsLo then id.lo else id.hi) dx, Amounts.zero⟩)
        { db with
          pool := db.pool.insert id (p.swapped inIsLo dx dy)
          balance := db.balance.insert (toLex (recipient, if inIsLo then id.hi else id.lo))
            ⟨((db.balance.get? (toLex (recipient, if inIsLo then id.hi else id.lo))).map
              (·.amount)).getD 0 + dy, tweak⟩ }
  | deposit {db : Db} {id : PoolId} {p : Pool} {owner : PublicKey} {tweak : Bytes}
      {da dB : Nat} {o : MintOutcome} {amounts : Amounts}
      (hpool : (db.pool.get? id).getD ⟨0, 0, 0⟩ = p)
      (hmint : mintShares p.reserveLo p.reserveHi p.totalShares da dB = .ok o)
      (hamounts : ∀ u, amounts.of u =
        (if id.lo = u then da else 0) + (if id.hi = u then dB else 0)) :
      Effect db (.consumed ⟨amounts, Amounts.zero⟩)
        { db with
          pool := db.pool.insert id ⟨p.reserveLo + da, p.reserveHi + dB, o.newTotalShares⟩
          lpPosition := db.lpPosition.insert (toLex (id, owner))
            ⟨((db.lpPosition.get? (toLex (id, owner))).map (·.shares)).getD 0 + o.toOwner,
              tweak⟩ }
  | vote {db : Db} {key : FeeVoteKey} {fee : Nat} :
      Effect db .recorded { db with feeVote := db.feeVote.insert key fee }

/-! ## Inversion -/

theorem declared_pair {a b u v : Nat} {amounts : Amounts}
    (h : (Amounts.zero.checkedAddUnit a u).bind (fun x => x.checkedAddUnit b v) = some amounts)
    (w : AmountUnit) :
    amounts.of w = (if u = w then a else 0) + (if v = w then b else 0) := by
  obtain ⟨x, hx, hy⟩ := Option.bind_eq_some_iff.1 h
  rw [Amounts.of_checkedAddUnit hy w, Amounts.of_checkedAddUnit hx w, Amounts.of_zero, Nat.zero_add]

theorem claimBalance_effect {db db' : Db} {owner : PublicKey} {unit : AmountUnit} {m : InputMeta}
    (h : claimBalance db owner unit = (.ok m, db')) : Effect db (.funded m) db' := by
  unfold claimBalance at h
  dsimp only at h
  split at h
  · cases h
  · rename_i entry hentry
    cases h
    exact .claim hentry

/-- Everything an accepted withdrawal has checked and done. -/
theorem withdraw_eq_ok {db db' : Db} {id : PoolId} {owner : PublicKey}
    {shares minLo minHi maxLo maxHi : Nat} {m : InputMeta}
    (h : withdraw db id owner shares minLo minHi maxLo maxHi = (.ok m, db')) :
    ∃ p position o amounts, db.pool.get? id = some p ∧
      db.lpPosition.get? (toLex (id, owner)) = some position ∧ shares ≤ position.shares ∧
      burnShares p.reserveLo p.reserveHi p.totalShares shares = .ok o ∧
      (∀ u, amounts.of u = (if id.lo = u then o.da else 0) + (if id.hi = u then o.db else 0)) ∧
      m = ⟨⟨amounts, Amounts.zero⟩, owner⟩ ∧
      db' = { db with
        pool := db.pool.insert id ⟨p.reserveLo - o.da, p.reserveHi - o.db, o.newTotalShares⟩
        lpPosition := setPosition db.lpPosition (toLex (id, owner)) position
          (position.shares - shares) } := by
  unfold withdraw at h
  split at h
  · cases h
  rename_i p hpool
  dsimp only at h
  split at h
  · cases h
  rename_i position hposition
  split at h
  · cases h
  rename_i hshares
  split at h
  · cases h
  rename_i o hburn
  split at h
  · cases h
  split at h
  · cases h
  rename_i amounts hamounts
  cases h
  exact ⟨p, position, o, amounts, hpool, hposition, by omega, hburn, declared_pair hamounts, rfl, rfl⟩

theorem withdraw_effect {db db' : Db} {id : PoolId} {owner : PublicKey}
    {shares minLo minHi maxLo maxHi : Nat} {m : InputMeta}
    (h : withdraw db id owner shares minLo minHi maxLo maxHi = (.ok m, db')) :
    Effect db (.funded m) db' := by
  obtain ⟨p, position, o, amounts, hpool, hposition, hshares, hburn, hamounts, rfl, rfl⟩ :=
    withdraw_eq_ok h
  exact .withdraw hpool hposition hshares hburn hamounts

theorem creditedBalance_ok {e : Option BalanceEntry} {dy c : Nat} (hdy : dy ≤ MAX_RESERVE)
    (h : creditedBalance e dy = .ok c) :
    c = (e.map (·.amount)).getD 0 + dy ∧ c ≤ MAX_RESERVE := by
  unfold creditedBalance at h
  split at h
  · split at h
    · cases h
    rename_i credited hc
    have hc := checkedAdd_eq_some hc
    split at h
    · cases h
    cases h
    exact ⟨hc, by omega⟩
  · cases h
    exact ⟨(Nat.zero_add _).symm, hdy⟩

/-- What an accepted quote has checked. -/
theorem quoteSwap_ok {a : Amm} {db : Db} {p : Pool} {id : PoolId} {unitIn : AmountUnit}
    {dx : Nat} {minOut : Option Nat} {q : SwapQuote}
    (h : quoteSwap a db p id unitIn dx minOut = .ok q) :
    q.inIsLo = decide (unitIn = id.lo) ∧
      q.reserveIn = (if q.inIsLo then p.reserveLo else p.reserveHi) ∧
      q.reserveOut = (if q.inIsLo then p.reserveHi else p.reserveLo) ∧
      AmountOutSpec q.reserveIn q.reserveOut dx (consensusFeeFor a db id) q.dy ∧
      q.reserveInNew = q.reserveIn + dx ∧ q.reserveInNew ≤ MAX_RESERVE := by
  unfold quoteSwap at h
  split at h
  · cases h
  dsimp only at h
  split at h
  · cases h
  split at h
  · cases h
  split at h
  · cases h
  split at h
  · cases h
  rename_i dy hdy
  split at h
  · cases h
  split at h
  · cases h
  rename_i new hnew
  have hnew := checkedAdd_eq_some hnew
  split at h
  · cases h
  cases h
  exact ⟨rfl, rfl, rfl, amountOut_spec hdy, hnew, by dsimp only; omega⟩

/-- A swap without a slippage bound that meets the minimum, is paid and keeps within the reserve cap
is accepted. -/
theorem quoteSwap_of_paid {a : Amm} {db : Db} {p : Pool} {id : PoolId} {unitIn unitOut : AmountUnit}
    {params : UnitParams} {dx dy : Nat} (hin : a.cfg.units.get? unitIn = some params)
    (hother : id.other unitIn = some unitOut) (hout : a.cfg.units.contains unitOut = true)
    (hmin : params.minSwapIn ≤ dx)
    (hpaid : amountOut (if decide (unitIn = id.lo) then p.reserveLo else p.reserveHi)
      (if decide (unitIn = id.lo) then p.reserveHi else p.reserveLo) dx (consensusFeeFor a db id) =
      .ok dy)
    (hcap : (if decide (unitIn = id.lo) then p.reserveLo else p.reserveHi) + dx ≤ MAX_RESERVE) :
    quoteSwap a db p id unitIn dx none =
      .ok ⟨dy, decide (unitIn = id.lo), if decide (unitIn = id.lo) then p.reserveLo else p.reserveHi,
        if decide (unitIn = id.lo) then p.reserveHi else p.reserveLo,
        (if decide (unitIn = id.lo) then p.reserveLo else p.reserveHi) + dx⟩ := by
  have hmax : MAX_RESERVE ≤ U64_MAX := by decide
  unfold quoteSwap
  rw [hin, hother]
  dsimp only
  rw [if_neg (by simp [hout]), if_neg (by omega), hpaid]
  dsimp only
  rw [if_neg (by simp), checkedAdd_of_le (Nat.le_trans hcap hmax)]
  dsimp only
  rw [if_neg (by omega)]

/-- The side a swap enters on fixes both units. -/
theorem side_units {unitIn unitOut : AmountUnit} {id : PoolId}
    (h : PoolId.new unitIn unitOut = some id) :
    unitIn = (if decide (unitIn = id.lo) then id.lo else id.hi) ∧
      unitOut = (if decide (unitIn = id.lo) then id.hi else id.lo) := by
  rcases PoolId.new_sides h with ⟨hin, hout⟩ | ⟨hin, hout⟩
  · rw [if_pos (by simpa using hin), if_pos (by simpa using hin)]
    exact ⟨hin, hout⟩
  · have hne : ¬(decide (unitIn = id.lo) = true) := by
      simpa [hin] using id.lo_ne_hi.symm
    rw [if_neg hne, if_neg hne]
    exact ⟨hin, hout⟩

/-- The source writes the two legs by orientation; `Pool.swapped` is the same record. -/
theorem quoteSwap_swapped {a : Amm} {db : Db} {p : Pool} {id : PoolId} {unitIn : AmountUnit}
    {dx : Nat} {minOut : Option Nat} {q : SwapQuote}
    (hq : quoteSwap a db p id unitIn dx minOut = .ok q) :
    (if q.inIsLo = true then
        { p with reserveLo := q.reserveInNew, reserveHi := q.reserveOut - q.dy }
      else { p with reserveHi := q.reserveInNew, reserveLo := q.reserveOut - q.dy }) =
      p.swapped q.inIsLo dx q.dy := by
  obtain ⟨-, hin, hout, -, hnew, -⟩ := quoteSwap_ok hq
  unfold Pool.swapped
  rw [hnew, hin, hout]
  split <;> rfl

theorem swap_effect {a : Amm} {db db' : Db} {unitIn unitOut : AmountUnit} {dx minOut : Nat}
    {recipient : PublicKey} {tweak : Bytes} {t : TransactionItemAmounts}
    (h : swap a db unitIn unitOut dx minOut recipient tweak = (.ok t, db')) :
    Effect db (.consumed t) db' := by
  unfold swap at h
  split at h
  · cases h
  rename_i id hid
  split at h
  · cases h
  rename_i p hpool
  split at h
  · cases h
  rename_i q hq
  obtain ⟨hside, hin, hout, hspec, hnew, hcap⟩ := quoteSwap_ok hq
  obtain ⟨hunitIn, hunitOut⟩ := side_units hid
  rw [← hside] at hunitIn hunitOut
  dsimp only at h
  split at h
  · cases h
  split at h
  · cases h
  rename_i credited hcredited
  have hdy : q.dy ≤ MAX_RESERVE := (Nat.le_of_lt hspec.out_lt).trans hspec.reserveOut_le
  obtain ⟨rfl, hbal⟩ := creditedBalance_ok hdy hcredited
  rw [hin, hout] at hspec
  rw [hnew, hin] at hcap
  rw [hunitOut] at hbal
  have heff := @Effect.swap db id p recipient tweak q.inIsLo dx q.dy _ hpool hspec hcap hbal
  rw [quoteSwap_swapped hq] at h
  cases h
  rw [← hunitIn, ← hunitOut] at heff
  exact heff

/-- Everything an accepted deposit has checked and done. -/
theorem deposit_eq_ok {a : Amm} {db db' : Db} {id : PoolId} {da dB minShares : Nat}
    {owner : PublicKey} {tweak : Bytes} {t : TransactionItemAmounts}
    (h : deposit a db id da dB minShares owner tweak = (.ok t, db')) :
    ∃ p o amounts, (db.pool.get? id).getD ⟨0, 0, 0⟩ = p ∧
      mintShares p.reserveLo p.reserveHi p.totalShares da dB = .ok o ∧
      (∀ u, amounts.of u = (if id.lo = u then da else 0) + (if id.hi = u then dB else 0)) ∧
      t = ⟨amounts, Amounts.zero⟩ ∧
      db' = { db with
        pool := db.pool.insert id ⟨p.reserveLo + da, p.reserveHi + dB, o.newTotalShares⟩
        lpPosition := db.lpPosition.insert (toLex (id, owner))
          ⟨((db.lpPosition.get? (toLex (id, owner))).map (·.shares)).getD 0 + o.toOwner,
            tweak⟩ } := by
  unfold deposit at h
  split at h
  · cases h
  dsimp only at h
  split at h
  · cases h
  rename_i o hmint
  split at h
  · cases h
  split at h
  · cases h
  rename_i shares hshares
  have hshares := checkedAdd_eq_some hshares
  split at h
  · cases h
  rename_i lo hlo
  have hlo := checkedAdd_eq_some hlo
  split at h
  · cases h
  rename_i hi hhi
  have hhi := checkedAdd_eq_some hhi
  split at h
  · cases h
  rename_i amounts hamounts
  cases h
  rw [hshares, hlo, hhi]
  exact ⟨_, o, amounts, rfl, hmint, declared_pair hamounts, rfl, rfl⟩

theorem deposit_effect {a : Amm} {db db' : Db} {id : PoolId} {da dB minShares : Nat}
    {owner : PublicKey} {tweak : Bytes} {t : TransactionItemAmounts}
    (h : deposit a db id da dB minShares owner tweak = (.ok t, db')) :
    Effect db (.consumed t) db' := by
  obtain ⟨p, o, amounts, hpool, hmint, hamounts, rfl, rfl⟩ := deposit_eq_ok h
  exact .deposit hpool hmint hamounts

theorem processConsensusItem_effect {a : Amm} {db db' : Db} {c : AmmConsensusItem} {peer : PeerId}
    (h : processConsensusItem a db c peer = (.ok (), db')) : Effect db .recorded db' := by
  cases c with
  | feeVoteV0 id fee =>
    unfold processConsensusItem at h
    dsimp only at h
    split at h
    · cases h
    split at h
    · cases h
    split at h
    · cases h
    cases h
    exact .vote
  | default v b => cases h

/-- **Inversion of the server**: an accepted item has one of the listed effects. -/
theorem Accepts.effect {a : Amm} {db db' : Db} {i : Item} {ans : Answer}
    (h : Accepts a db i ans db') : Effect db ans db' := by
  unfold Accepts Steps step at h
  split at h
  · split at h
    · rename_i i _ m db'' hin
      cases h
      cases i with
      | claimBalanceV0 owner unit => exact claimBalance_effect hin
      | withdrawV0 id owner shares minLo minHi maxLo maxHi => exact withdraw_effect hin
      | default v b => cases hin
    · cases h
  · split at h
    · rename_i o _ t db'' hout
      cases h
      unfold processOutput at hout
      split at hout
      · cases hout
      cases o with
      | swapV0 unitIn unitOut dx minOut recipient tweak pop => exact swap_effect hout
      | depositV0 id da dB minShares owner tweak pop => exact deposit_effect hout
      | default v b => cases hout
    · cases h
  · split at h
    · rename_i c peer _ u db'' hvote
      cases h
      exact processConsensusItem_effect hvote
    · cases h

end Experimint.FedimintAmm
