import Mathlib.Tactic.Linarith
import Experimint.Lib.Run
import Experimint.Amm.Step

/-!
# Pool and share invariant

In every state the module can reach, reserves are positive and capped, the shares of a pool are
the burned minimum plus its positions, and the square of the shares is at most the product of the
reserves.  The last bound is checked nowhere in the source: it follows from the value-per-share
order of `Market`, which every effect respects.

* `Effect.pool_worth` — one accepted item never lowers the value of a share of any pool.
* `inv_step`, `inv_reachable` — the invariant, one step and every run.
* `share_value_never_decreases` — the value of a share over whole runs.
* `pools_and_shares_sound` — bounds, unreachable overflows and the audit in every reachable state.
-/

set_option autoImplicit false

namespace Experimint.FedimintAmm

/-- The pool as a market of the abstract order. -/
def Pool.market (p : Pool) : Market := ⟨p.reserveLo, p.reserveHi, p.totalShares⟩

/-- Shares of all positions of a pool. -/
def sharesOf (t : Table LpPositionKey LpPosition) (id : PoolId) : Nat :=
  t.sum fun k v => if (ofLex k).1 = id then v.shares else 0

/-- Well-formedness of one pool against the positions. -/
structure PoolOk (positions : Table LpPositionKey LpPosition) (id : PoolId) (p : Pool) : Prop where
  lo_pos : 1 ≤ p.reserveLo
  lo_le : p.reserveLo ≤ MAX_RESERVE
  hi_pos : 1 ≤ p.reserveHi
  hi_le : p.reserveHi ≤ MAX_RESERVE
  total_eq : p.totalShares = MINIMUM_LIQUIDITY + sharesOf positions id
  sq_le : p.totalShares ^ 2 ≤ p.reserveLo * p.reserveHi

/-- Invariant of the module's tables. -/
structure Inv (db : Db) : Prop where
  pools : ∀ id p, db.pool.get? id = some p → PoolOk db.lpPosition id p
  positions : ∀ key v, db.lpPosition.get? key = some v →
    0 < v.shares ∧ ∃ p, db.pool.get? (ofLex key).1 = some p
  balances : ∀ key b, db.balance.get? key = some b → 0 < b.amount ∧ b.amount ≤ MAX_RESERVE

theorem PoolOk.total_pos {t : Table LpPositionKey LpPosition} {id : PoolId} {p : Pool}
    (h : PoolOk t id p) : 0 < p.totalShares := by
  have := h.total_eq
  unfold MINIMUM_LIQUIDITY at this
  omega

/-! ## Shares along a change of one position -/

theorem sharesOf_setPosition {t : Table LpPositionKey LpPosition} {pool : PoolId}
    {owner : PublicKey} {position : LpPosition} (h : t.get? (toLex (pool, owner)) = some position)
    (left : Nat) (id : PoolId) :
    sharesOf (setPosition t (toLex (pool, owner)) position left) id +
        (if pool = id then position.shares else 0) =
      sharesOf t id + (if pool = id then left else 0) := by
  unfold sharesOf setPosition
  by_cases hleft : left = 0
  · have hsum := Table.sum_erase_add t
      (fun k v => if (ofLex k).1 = id then v.shares else 0) (toLex (pool, owner))
    rw [h, Option.map_some, Option.getD_some] at hsum
    rw [if_pos hleft, hleft, ite_self, Nat.add_zero]
    exact hsum
  · have hsum := Table.sum_insert_add t
      (fun k v => if (ofLex k).1 = id then v.shares else 0) (toLex (pool, owner))
      { position with shares := left }
    rw [h, Option.map_some, Option.getD_some] at hsum
    rw [if_neg hleft]
    exact hsum

theorem sharesOf_add (t : Table LpPositionKey LpPosition) (pool : PoolId) (owner : PublicKey)
    (m : Nat) (tweak : Bytes) (id : PoolId) :
    sharesOf (t.insert (toLex (pool, owner))
        ⟨((t.get? (toLex (pool, owner))).map (·.shares)).getD 0 + m, tweak⟩) id =
      sharesOf t id + (if pool = id then m else 0) := by
  unfold sharesOf
  have hsum := Table.sum_insert_add t (fun k v => if (ofLex k).1 = id then v.shares else 0)
    (toLex (pool, owner)) ⟨((t.get? (toLex (pool, owner))).map (·.shares)).getD 0 + m, tweak⟩
  rw [ofLex_toLex] at hsum
  cases h : t.get? (toLex (pool, owner)) with
  | none =>
    rw [h] at hsum
    simp only [Option.map_none, Option.getD_none, Nat.zero_add, Nat.add_zero] at hsum ⊢
    exact hsum
  | some v =>
    rw [h] at hsum
    simp only [Option.map_some, Option.getD_some] at hsum ⊢
    split_ifs at hsum ⊢ with hid <;> omega

theorem shares_le_sharesOf {t : Table LpPositionKey LpPosition} {id : PoolId} {owner : PublicKey}
    {v : LpPosition} (h : t.get? (toLex (id, owner)) = some v) : v.shares ≤ sharesOf t id := by
  have hle := Table.le_sum (fun k v => if (ofLex k).1 = id then v.shares else 0) h
  simpa [sharesOf] using hle

theorem sharesOf_eq_zero {db : Db} (hi : Inv db) {id : PoolId} (h : db.pool.get? id = none) :
    sharesOf db.lpPosition id = 0 := by
  apply Table.sum_eq_zero
  intro key v hv
  obtain ⟨-, p, hp⟩ := hi.positions key v hv
  rw [if_neg]
  rintro rfl
  rw [hp] at h
  cases h

/-! ## Value of a share, one step -/

theorem swapped_worth {p : Pool} {inIsLo : Bool} {dx dy fee : Nat}
    (h : AmountOutSpec (if inIsLo then p.reserveLo else p.reserveHi)
      (if inIsLo then p.reserveHi else p.reserveLo) dx fee dy) :
    p.market.Worth (p.swapped inIsLo dx dy).market := by
  have hprod := h.product_le
  cases inIsLo with
  | true => exact Market.worth_of_swap rfl hprod
  | false =>
    refine Market.worth_of_swap rfl ?_
    show p.reserveLo * p.reserveHi ≤ (p.reserveLo - dy) * (p.reserveHi + dx)
    rw [Nat.mul_comm, Nat.mul_comm (p.reserveLo - dy)]
    exact hprod

/-- **One accepted item never lowers the value of a share**, and no pool disappears. -/
theorem Effect.pool_worth {db db' : Db} {ans : Answer} (hi : Inv db) (h : Effect db ans db')
    {id : PoolId} {p : Pool} (hp : db.pool.get? id = some p) :
    ∃ p', db'.pool.get? id = some p' ∧ p.market.Worth p'.market := by
  cases h with
  | claim hentry => exact ⟨p, hp, Market.Worth.refl _⟩
  | vote => exact ⟨p, hp, Market.Worth.refl _⟩
  | @withdraw id' owner q position shares o amounts hpool hposition hshares hburn hamounts =>
    by_cases hid : id' = id
    · subst hid
      rw [hp] at hpool
      cases hpool
      exact ⟨_, Table.get?_insert_self _ _ _, burnShares_worth hburn⟩
    · exact ⟨p, (Table.get?_insert_ne _ _ hid).trans hp, Market.Worth.refl _⟩
  | @swap id' q recipient tweak inIsLo dx dy fee hpool hout hcap hbalance =>
    by_cases hid : id' = id
    · subst hid
      rw [hp] at hpool
      cases hpool
      exact ⟨_, Table.get?_insert_self _ _ _, swapped_worth hout⟩
    · exact ⟨p, (Table.get?_insert_ne _ _ hid).trans hp, Market.Worth.refl _⟩
  | @deposit id' q owner tweak da dB o amounts hpool hmint hamounts =>
    by_cases hid : id' = id
    · subst hid
      rw [hp, Option.getD_some] at hpool
      subst hpool
      have hne : p.totalShares ≠ 0 := Nat.pos_iff_ne_zero.1 (hi.pools _ _ hp).total_pos
      exact ⟨_, Table.get?_insert_self _ _ _, mintShares_worth hne hmint⟩
    · exact ⟨p, (Table.get?_insert_ne _ _ hid).trans hp, Market.Worth.refl _⟩

/-- The square bound of a changed pool follows from the value order. -/
theorem PoolOk.sq_le_of_worth {t : Table LpPositionKey LpPosition} {id : PoolId} {p p' : Pool}
    (h : PoolOk t id p) (hw : p.market.Worth p'.market) :
    p'.totalShares ^ 2 ≤ p'.reserveLo * p'.reserveHi :=
  Market.Worth.sq_le (p := p.market) (q := p'.market) h.lo_pos h.hi_pos h.sq_le hw

/-! ## The invariant -/

theorem inv_empty : Inv Db.empty where
  pools := by intro id p h; cases h
  positions := by intro key v h; cases h
  balances := by intro key b h; cases h

theorem PoolOk.congr {t t' : Table LpPositionKey LpPosition} {id : PoolId} {p : Pool}
    (h : PoolOk t id p) (hshares : sharesOf t' id = sharesOf t id) : PoolOk t' id p where
  lo_pos := h.lo_pos
  lo_le := h.lo_le
  hi_pos := h.hi_pos
  hi_le := h.hi_le
  total_eq := by rw [hshares]; exact h.total_eq
  sq_le := h.sq_le

/-- Writing one pool together with positions of its own keeps the invariant. -/
theorem Inv.setPool {db : Db} (hi : Inv db) {id : PoolId} {p : Pool}
    {positions : Table LpPositionKey LpPosition} (hok : PoolOk positions id p)
    (hother : ∀ id', id ≠ id' → sharesOf positions id' = sharesOf db.lpPosition id')
    (hpositions : ∀ key v, positions.get? key = some v →
      0 < v.shares ∧ ((ofLex key).1 = id ∨ ∃ v', db.lpPosition.get? key = some v')) :
    Inv { db with pool := db.pool.insert id p, lpPosition := positions } := by
  refine ⟨?_, ?_, hi.balances⟩
  · intro id' p' hp'
    rw [Table.get?_insert] at hp'
    split_ifs at hp' with hid
    · subst hid
      cases hp'
      exact hok
    · exact (hi.pools id' p' hp').congr (hother id' hid)
  · intro key v hv
    obtain ⟨hpos, hkey⟩ := hpositions key v hv
    refine ⟨hpos, ?_⟩
    dsimp only
    rw [Table.get?_insert]
    split_ifs with hid
    · exact ⟨p, rfl⟩
    · rcases hkey with hkey | ⟨v', hv'⟩
      · exact absurd hkey.symm hid
      · exact (hi.positions key v' hv').2

theorem inv_withdraw {db : Db} {id : PoolId} {owner : PublicKey} {p : Pool}
    {position : LpPosition} {shares : Nat} {o : BurnOutcome} (hi : Inv db)
    (hpool : db.pool.get? id = some p)
    (hposition : db.lpPosition.get? (toLex (id, owner)) = some position)
    (hshares : shares ≤ position.shares)
    (hburn : burnShares p.reserveLo p.reserveHi p.totalShares shares = .ok o) :
    Inv { db with
      pool := db.pool.insert id ⟨p.reserveLo - o.da, p.reserveHi - o.db, o.newTotalShares⟩
      lpPosition := setPosition db.lpPosition (toLex (id, owner)) position
        (position.shares - shares) } := by
  have hok := hi.pools id p hpool
  have hspec := burnShares_spec hburn
  have hheld := shares_le_sharesOf hposition
  -- the burned minimum is in nobody's position, so a redemption never takes the last share
  have hlt : shares < p.totalShares := by
    have := hok.total_eq
    unfold MINIMUM_LIQUIDITY at this
    omega
  obtain ⟨hda, hdb⟩ := hspec.leaves hok.lo_pos hok.hi_pos hlt
  have hset := sharesOf_setPosition hposition (position.shares - shares)
  refine hi.setPool ?_ ?_ ?_
  · have hs := hset id
    rw [if_pos rfl, if_pos rfl] at hs
    have hlo := hok.lo_le
    have hhi := hok.hi_le
    have htotal := hok.total_eq
    refine ⟨by dsimp only; omega, by dsimp only; omega, by dsimp only; omega,
      by dsimp only; omega, ?_, hok.sq_le_of_worth (burnShares_worth hburn)⟩
    rw [hspec.total_eq]
    dsimp only
    omega
  · intro id' hid
    have hs := hset id'
    rwa [if_neg hid, if_neg hid, Nat.add_zero, Nat.add_zero] at hs
  · intro key v hv
    unfold setPosition at hv
    split_ifs at hv with hleft
    · obtain ⟨-, hv⟩ := Table.get?_of_erase hv
      exact ⟨(hi.positions key v hv).1, .inr ⟨v, hv⟩⟩
    · rw [Table.get?_insert] at hv
      split_ifs at hv with hkey
      · subst hkey
        cases hv
        exact ⟨Nat.pos_of_ne_zero hleft, .inl rfl⟩
      · exact ⟨(hi.positions key v hv).1, .inr ⟨v, hv⟩⟩

theorem PoolOk.swapped {t : Table LpPositionKey LpPosition} {id : PoolId} {p : Pool}
    {inIsLo : Bool} {dx dy fee : Nat} (hok : PoolOk t id p)
    (hout : AmountOutSpec (if inIsLo then p.reserveLo else p.reserveHi)
      (if inIsLo then p.reserveHi else p.reserveLo) dx fee dy)
    (hcap : (if inIsLo then p.reserveLo else p.reserveHi) + dx ≤ MAX_RESERVE) :
    PoolOk t id (p.swapped inIsLo dx dy) := by
  have hsq := hok.sq_le_of_worth (swapped_worth hout)
  obtain ⟨hlo, hloMax, hhi, hhiMax, htotal, -⟩ := hok
  have hlt := hout.out_lt
  cases inIsLo with
  | true =>
    have hlt : dy < p.reserveHi := hlt
    refine ⟨?_, hcap, ?_, ?_, htotal, hsq⟩
    · show 1 ≤ p.reserveLo + dx; omega
    · show 1 ≤ p.reserveHi - dy; omega
    · show p.reserveHi - dy ≤ MAX_RESERVE; omega
  | false =>
    have hlt : dy < p.reserveLo := hlt
    refine ⟨?_, ?_, ?_, hcap, htotal, hsq⟩
    · show 1 ≤ p.reserveLo - dy; omega
    · show p.reserveLo - dy ≤ MAX_RESERVE; omega
    · show 1 ≤ p.reserveHi + dx; omega

theorem inv_swap {db : Db} {id : PoolId} {p : Pool} {inIsLo : Bool} {dx dy fee : Nat}
    {key : BalanceKey} {b : BalanceEntry} (hi : Inv db) (hpool : db.pool.get? id = some p)
    (hout : AmountOutSpec (if inIsLo then p.reserveLo else p.reserveHi)
      (if inIsLo then p.reserveHi else p.reserveLo) dx fee dy)
    (hcap : (if inIsLo then p.reserveLo else p.reserveHi) + dx ≤ MAX_RESERVE)
    (hb : 0 < b.amount ∧ b.amount ≤ MAX_RESERVE) :
    Inv { db with
      pool := db.pool.insert id (p.swapped inIsLo dx dy)
      balance := db.balance.insert key b } := by
  have hset := hi.setPool ((hi.pools id p hpool).swapped hout hcap) (fun _ _ => rfl)
    fun key v hv => ⟨(hi.positions key v hv).1, .inr ⟨v, hv⟩⟩
  refine ⟨hset.pools, hset.positions, ?_⟩
  intro key' b' hb'
  rw [Table.get?_insert] at hb'
  split_ifs at hb'
  · cases hb'
    exact hb
  · exact hi.balances key' b' hb'

/-- Shares after a deposit, counted with the burned minimum, and the square bound. -/
theorem deposit_total {db : Db} {id : PoolId} {p : Pool} {da dB : Nat} {o : MintOutcome}
    (hi : Inv db) (hpool : (db.pool.get? id).getD ⟨0, 0, 0⟩ = p)
    (hmint : mintShares p.reserveLo p.reserveHi p.totalShares da dB = .ok o) :
    o.newTotalShares = MINIMUM_LIQUIDITY + (sharesOf db.lpPosition id + o.toOwner) ∧
      o.newTotalShares ^ 2 ≤ (p.reserveLo + da) * (p.reserveHi + dB) := by
  have hspec := mintShares_spec hmint
  have htotal := hspec.total_eq
  cases hget : db.pool.get? id with
  | none =>
    rw [hget, Option.getD_none] at hpool
    subst hpool
    rw [if_pos rfl] at htotal
    rw [sharesOf_eq_zero hi hget, Nat.zero_add, Nat.zero_add, Nat.zero_add]
    refine ⟨htotal, ?_⟩
    rw [hspec.creation rfl, Nat.pow_two]
    exact Nat.sqrt_le _
  | some q =>
    rw [hget, Option.getD_some] at hpool
    subst hpool
    have hok := hi.pools id _ hget
    have hne : q.totalShares ≠ 0 := Nat.pos_iff_ne_zero.1 hok.total_pos
    rw [if_neg hne, hok.total_eq] at htotal
    have hworth : q.market.Worth
        (⟨q.reserveLo + da, q.reserveHi + dB, o.newTotalShares⟩ : Pool).market :=
      mintShares_worth hne hmint
    exact ⟨by omega, hok.sq_le_of_worth hworth⟩

theorem inv_deposit {db : Db} {id : PoolId} {p : Pool} (owner : PublicKey) (tweak : Bytes)
    {da dB : Nat} {o : MintOutcome} (hi : Inv db)
    (hpool : (db.pool.get? id).getD ⟨0, 0, 0⟩ = p)
    (hmint : mintShares p.reserveLo p.reserveHi p.totalShares da dB = .ok o) :
    Inv { db with
      pool := db.pool.insert id ⟨p.reserveLo + da, p.reserveHi + dB, o.newTotalShares⟩
      lpPosition := db.lpPosition.insert (toLex (id, owner))
        ⟨((db.lpPosition.get? (toLex (id, owner))).map (·.shares)).getD 0 + o.toOwner,
          tweak⟩ } := by
  have hspec := mintShares_spec hmint
  have hshares := sharesOf_add db.lpPosition id owner o.toOwner tweak
  obtain ⟨htotal, hsq⟩ := deposit_total hi hpool hmint
  refine hi.setPool ?_ ?_ ?_
  · have hs := hshares id
    rw [if_pos rfl] at hs
    have hda := hspec.da_pos
    have hdb := hspec.db_pos
    exact ⟨by dsimp only; omega, hspec.lo_le, by dsimp only; omega, hspec.hi_le,
      by rw [hs]; exact htotal, hsq⟩
  · intro id' hid
    have hs := hshares id'
    rwa [if_neg hid, Nat.add_zero] at hs
  · intro key v hv
    rw [Table.get?_insert] at hv
    split_ifs at hv with hkey
    · subst hkey
      cases hv
      have := hspec.owner_pos
      exact ⟨by dsimp only; omega, .inl rfl⟩
    · exact ⟨(hi.positions key v hv).1, .inr ⟨v, hv⟩⟩

theorem inv_step {db db' : Db} {ans : Answer} (hi : Inv db) (h : Effect db ans db') : Inv db' := by
  cases h with
  | claim hentry =>
    refine ⟨hi.pools, hi.positions, ?_⟩
    intro key b hb
    exact hi.balances key b (Table.get?_of_erase hb).2
  | withdraw hpool hposition hshares hburn _ => exact inv_withdraw hi hpool hposition hshares hburn
  | swap hpool hout hcap hbalance =>
    have := hout.out_pos
    exact inv_swap hi hpool hout hcap ⟨by dsimp only; omega, hbalance⟩
  | @deposit _ _ owner tweak _ _ _ _ hpool hmint _ => exact inv_deposit owner tweak hi hpool hmint
  | vote => exact ⟨hi.pools, hi.positions, hi.balances⟩

/-- The invariant holds in every state a run of accepted items reaches. -/
theorem inv_reachable {a : Amm} {tr : List (Item × Answer)} {db : Db}
    (h : Run (Accepts a) Db.empty tr db) : Inv db :=
  Run.invariant inv_empty (fun _ _ _ _ hi hstep => inv_step hi hstep.effect) h

/-! ## Value of a share, whole runs -/

theorem worth_run {a : Amm} {tr : List (Item × Answer)} {db db' : Db} (hi : Inv db)
    (h : Run (Accepts a) db tr db') {id : PoolId} {p : Pool} (hp : db.pool.get? id = some p) :
    ∃ p', db'.pool.get? id = some p' ∧ p.market.Worth p'.market := by
  have hrun : Inv db' ∧ ∃ p', db'.pool.get? id = some p' ∧ p.market.Worth p'.market := by
    refine Run.invariant (P := fun db' => Inv db' ∧
      ∃ p', db'.pool.get? id = some p' ∧ p.market.Worth p'.market)
      ⟨hi, p, hp, Market.Worth.refl _⟩ ?_ h
    rintro s i ans s' ⟨his, q, hq, hworth⟩ hstep
    obtain ⟨q', hq', hworth'⟩ := (Accepts.effect hstep).pool_worth his hq
    exact ⟨inv_step his (Accepts.effect hstep), q', hq',
      hworth.trans (his.pools id q hq).total_pos hworth'⟩
  exact hrun.2

/-- **The value of a share never decreases.**  Over any accepted sequence of items, by anyone and
at whatever fees the votes set on the way, the reserve product per squared share of an existing
pool does not fall; a sequence that returns to the same number of shares leaves the product no
smaller. -/
theorem share_value_never_decreases {a : Amm} {tr tr' : List (Item × Answer)} {db db' : Db}
    (hreach : Run (Accepts a) Db.empty tr db) (hrun : Run (Accepts a) db tr' db') {id : PoolId}
    {p : Pool} (hp : db.pool.get? id = some p) :
    ∃ p', db'.pool.get? id = some p' ∧
      p.reserveLo * p.reserveHi * p'.totalShares ^ 2 ≤
        p'.reserveLo * p'.reserveHi * p.totalShares ^ 2 ∧
      (p'.totalShares = p.totalShares →
        p.reserveLo * p.reserveHi ≤ p'.reserveLo * p'.reserveHi) := by
  have hi := inv_reachable hreach
  obtain ⟨p', hp', hworth⟩ := worth_run hi hrun hp
  refine ⟨p', hp', hworth, ?_⟩
  intro heq
  have hpos : 0 < p.totalShares ^ 2 := Nat.pow_pos (hi.pools id p hp).total_pos
  unfold Market.Worth Pool.market at hworth
  rw [heq] at hworth
  exact Nat.le_of_mul_le_mul_right hworth hpos

/-! ## Consequences -/

theorem PoolOk.total_le {t : Table LpPositionKey LpPosition} {id : PoolId} {p : Pool}
    (h : PoolOk t id p) : p.totalShares ≤ MAX_RESERVE := by
  have h2 : p.totalShares ^ 2 ≤ MAX_RESERVE ^ 2 := by
    rw [Nat.pow_two MAX_RESERVE]
    exact h.sq_le.trans (Nat.mul_le_mul h.lo_le h.hi_le)
  exact (Nat.pow_le_pow_iff_left (by omega)).1 h2

theorem i64TryFrom_isSome {n : Nat} (h : n ≤ MAX_RESERVE) :
    ((i64TryFrom n).map fun v => -v).isSome := by
  unfold i64TryFrom
  rw [if_pos (h.trans (by decide))]
  rfl

theorem audit_isSome {db : Db} (hi : Inv db) : (audit db).isSome := by
  have hpool : ∀ p ∈ db.pool.values, p.reserveLo ≤ MAX_RESERVE ∧ p.reserveHi ≤ MAX_RESERVE := by
    intro p hp
    obtain ⟨id, hid⟩ := Table.mem_values.1 hp
    exact ⟨(hi.pools id p hid).lo_le, (hi.pools id p hid).hi_le⟩
  have hbalance : ∀ b ∈ db.balance.values, b.amount ≤ MAX_RESERVE := by
    intro b hb
    obtain ⟨key, hkey⟩ := Table.mem_values.1 hb
    exact (hi.balances key b hkey).2
  have hlo := mapM_isSome fun p hp => i64TryFrom_isSome (hpool p hp).1
  have hhi := mapM_isSome fun p hp => i64TryFrom_isSome (hpool p hp).2
  have hbal := mapM_isSome fun b hb => i64TryFrom_isSome (hbalance b hb)
  unfold audit
  split
  · rename_i h; rw [h] at hlo; cases hlo
  split
  · rename_i h; rw [h] at hhi; cases hhi
  split
  · rename_i h; rw [h] at hbal; cases hbal
  rfl

/-- The pool a deposit starts from: the stored one, or an empty one. -/
theorem depositPool_ok {db : Db} (hi : Inv db) (id : PoolId) :
    ((db.pool.get? id).getD ⟨0, 0, 0⟩).reserveLo ≤ MAX_RESERVE ∧
      ((db.pool.get? id).getD ⟨0, 0, 0⟩).reserveHi ≤ MAX_RESERVE ∧
      ((db.pool.get? id).getD ⟨0, 0, 0⟩).totalShares ^ 2 ≤
        ((db.pool.get? id).getD ⟨0, 0, 0⟩).reserveLo *
          ((db.pool.get? id).getD ⟨0, 0, 0⟩).reserveHi := by
  cases h : db.pool.get? id with
  | none => exact ⟨Nat.zero_le _, Nat.zero_le _, Nat.le_refl _⟩
  | some p =>
    have hok := hi.pools id p h
    exact ⟨hok.lo_le, hok.hi_le, hok.sq_le⟩

theorem mapCurveError_ne {e : CurveError} (h : e ≠ .overflow) :
    mapCurveError e ≠ .curve CurveError.overflow.text ∧ mapCurveError e ≠ .curve "share overflow" := by
  cases e <;> first | exact absurd rfl h | decide

/-- An owner's shares and a new issue fit 64 bits together. -/
theorem existing_add_le {db : Db} (hi : Inv db) {id : PoolId} {owner : PublicKey} {da dB : Nat}
    {o : MintOutcome}
    (hmint : mintShares ((db.pool.get? id).getD ⟨0, 0, 0⟩).reserveLo
      ((db.pool.get? id).getD ⟨0, 0, 0⟩).reserveHi
      ((db.pool.get? id).getD ⟨0, 0, 0⟩).totalShares da dB = .ok o) :
    ((db.lpPosition.get? (toLex (id, owner))).map (·.shares)).getD 0 + o.toOwner ≤ U64_MAX := by
  have hdep := inv_deposit owner [] hi rfl hmint
  have hok := hdep.pools id _ (Table.get?_insert_self _ _ _)
  have hheld := shares_le_sharesOf (Table.get?_insert_self db.lpPosition (toLex (id, owner))
    (⟨((db.lpPosition.get? (toLex (id, owner))).map (·.shares)).getD 0 + o.toOwner, []⟩ :
      LpPosition))
  have htotal := hok.total_eq
  have hle := hok.total_le
  dsimp only at hheld htotal hle
  have hmax : MAX_RESERVE ≤ U64_MAX := by decide
  omega

/-- Neither of the two overflow messages an output can be refused with. -/
def NotOverflow (e : AmmOutputError) : Prop :=
  e ≠ .curve "share overflow" ∧ e ≠ .curve CurveError.overflow.text

theorem deposit_no_overflow {a : Amm} {db db' : Db} (hi : Inv db) {pool : PoolId}
    {da dB minShares : Nat} {owner : PublicKey} {tweak : Bytes} {e : AmmOutputError}
    (h : deposit a db pool da dB minShares owner tweak = (.error e, db')) : NotOverflow e := by
  obtain ⟨hlo, hhi, hsq⟩ := depositPool_ok hi pool
  unfold deposit at h
  split at h
  · cases h; exact ⟨by simp, by simp⟩
  dsimp only at h
  split at h
  · rename_i c hmint
    have hne : c ≠ .overflow := by
      rintro rfl
      exact mintShares_ne_overflow hlo hhi hsq hmint
    cases h
    exact (mapCurveError_ne hne).symm
  rename_i o hmint
  split at h
  · cases h; exact ⟨by simp, by simp⟩
  rw [checkedAdd_of_le (existing_add_le hi hmint)] at h
  dsimp only at h
  split at h
  · cases h; exact ⟨by simp, by simp⟩
  split at h
  · cases h; exact ⟨by simp, by simp⟩
  split at h
  · cases h; exact ⟨by simp, by simp⟩
  cases h

theorem quoteSwap_no_overflow {a : Amm} {db : Db} {p : Pool} {id : PoolId} {unitIn : AmountUnit}
    {dx : Nat} {minOut : Option Nat} {e : AmmOutputError}
    (h : quoteSwap a db p id unitIn dx minOut = .error e) : NotOverflow e := by
  unfold quoteSwap at h
  split at h
  · cases h; exact ⟨by simp, by simp⟩
  dsimp only at h
  split at h
  · cases h; exact ⟨by simp, by simp⟩
  split at h
  · cases h; exact ⟨by simp, by simp⟩
  split at h
  · cases h; exact ⟨by simp, by simp⟩
  split at h
  · rename_i c hout
    have hne : c ≠ .overflow := by
      rintro rfl
      exact amountOut_ne_overflow _ _ _ _ hout
    cases h
    exact (mapCurveError_ne hne).symm
  split at h
  · cases h; exact ⟨by simp, by simp⟩
  split at h
  · cases h; exact ⟨by simp, by simp⟩
  split at h <;> cases h
  exact ⟨by simp, by simp⟩

theorem creditedBalance_error {e : Option BalanceEntry} {dy : Nat} {err : AmmOutputError}
    (h : creditedBalance e dy = .error err) : err = .reserveCapExceeded := by
  unfold creditedBalance at h
  split at h
  · split at h
    · cases h; rfl
    · split at h <;> cases h
      rfl
  · cases h

theorem swap_no_overflow {a : Amm} {db db' : Db} {unitIn unitOut : AmountUnit} {dx minOut : Nat}
    {recipient : PublicKey} {tweak : Bytes} {e : AmmOutputError}
    (h : swap a db unitIn unitOut dx minOut recipient tweak = (.error e, db')) : NotOverflow e := by
  unfold swap at h
  split at h
  · cases h; exact ⟨by simp, by simp⟩
  split at h
  · cases h; exact ⟨by simp, by simp⟩
  split at h
  · rename_i c hq
    cases h
    exact quoteSwap_no_overflow hq
  dsimp only at h
  split at h
  · cases h; exact ⟨by simp, by simp⟩
  split at h
  · rename_i c hc
    cases h
    rw [creditedBalance_error hc]
    exact ⟨by simp, by simp⟩
  cases h

/-- No output is refused for an overflow in a state that satisfies the invariant. -/
theorem processOutput_no_overflow {a : Amm} {db db' : Db} (hi : Inv db) {output : AmmOutput}
    {e : AmmOutputError} (h : processOutput a db output = (.error e, db')) : NotOverflow e := by
  unfold processOutput at h
  split at h
  · cases h; exact ⟨by simp, by simp⟩
  cases output with
  | swapV0 unitIn unitOut dx minOut recipient tweak pop => exact swap_no_overflow h
  | depositV0 id da dB minShares owner tweak pop => exact deposit_no_overflow hi h
  | default v b => cases h; exact ⟨by simp, by simp⟩

/-- **Pool and share invariant.**  In every reachable state, reserves lie in `[1, MAX_RESERVE]`;
the shares of a pool are the burned minimum plus its positions, all positive; their square is at
most the product of the reserves, so they stay below `2 ^ 58` and no issue or output fails on an
overflow; balances are positive and capped; and the audit does not panic. -/
theorem pools_and_shares_sound {a : Amm} {tr : List (Item × Answer)} {db : Db}
    (h : Run (Accepts a) Db.empty tr db) :
    (∀ id p, db.pool.get? id = some p →
      (1 ≤ p.reserveLo ∧ p.reserveLo ≤ MAX_RESERVE) ∧ (1 ≤ p.reserveHi ∧ p.reserveHi ≤ MAX_RESERVE) ∧
      p.totalShares = 1000 + db.lpPosition.sum (fun key v => if (ofLex key).1 = id then v.shares else 0) ∧
      p.totalShares ^ 2 ≤ p.reserveLo * p.reserveHi ∧ p.totalShares ≤ 2 ^ 58 ∧
      ∀ da dB, mintShares p.reserveLo p.reserveHi p.totalShares da dB ≠ .error .overflow) ∧
    (∀ key v, db.lpPosition.get? key = some v → 0 < v.shares) ∧
    (∀ output e db', processOutput a db output = (.error e, db') →
      e ≠ .curve "share overflow" ∧ e ≠ .curve "arithmetic overflow") ∧
    (∀ key b, db.balance.get? key = some b → 0 < b.amount ∧ b.amount ≤ MAX_RESERVE) ∧
    (audit db).isSome := by
  have hi := inv_reachable h
  refine ⟨?_, fun key v hv => (hi.positions key v hv).1,
    fun output e db' he => processOutput_no_overflow hi he, hi.balances, audit_isSome hi⟩
  intro id p hp
  have hok := hi.pools id p hp
  exact ⟨⟨hok.lo_pos, hok.lo_le⟩, ⟨hok.hi_pos, hok.hi_le⟩, hok.total_eq, hok.sq_le, hok.total_le,
    fun da dB => mintShares_ne_overflow hok.lo_le hok.hi_le hok.sq_le⟩

/-! ## A sample federation -/

/-- Four guardians, two units and a signature scheme that accepts any 64-byte signature. -/
def sampleAmm : Amm where
  cfg := {
    units := (Table.empty.insert 0 ⟨1⟩).insert 1 ⟨1⟩
    defaultFeePerMille := 3
    feeOverrides := .empty
    minFeePerMille := 0
    maxFeePerMille := 999 }
  numPeers := ⟨4⟩
  pop := {
    encodeU64 := fun n => [UInt8.ofNat n]
    encodePublicKey := fun k => [if k.odd then 3 else 2, UInt8.ofNat k.x.val]
    sha256 := fun b => Fin.ofNat _ (b.foldl (fun h x => h * 257 + x.toNat) 0)
    verifySchnorr := fun sig _ _ => decide (sig.length = 64) }

def samplePool : PoolId := ⟨0, 1, by decide⟩

def sampleKey : PublicKey := ⟨true, 7⟩

/-- A pool is created, swapped against, voted on and partly withdrawn. -/
def sampleItems : List Item :=
  [.output (.depositV0 samplePool 4000 9000 1 sampleKey [] (List.replicate 64 0)),
   .output (.swapV0 0 1 1000 1 sampleKey [] (List.replicate 64 0)),
   .consensus (.feeVoteV0 samplePool 5) 2,
   .input (.withdrawV0 samplePool sampleKey 2000 0 0 100000 100000)]

theorem sampleItems_accepted : (exec (step sampleAmm) [] Db.empty sampleItems).isSome := by
  decide +kernel

/-- The database the sample items lead to. -/
def sampleDb : Db := ((exec (step sampleAmm) [] Db.empty sampleItems).get sampleItems_accepted).2

/-- More trading on the same pool, in both directions, with a deposit and a withdrawal. -/
def moreItems : List Item :=
  [.output (.swapV0 1 0 700 1 sampleKey [] (List.replicate 64 0)),
   .output (.depositV0 samplePool 400 700 1 sampleKey [] (List.replicate 64 0)),
   .input (.withdrawV0 samplePool sampleKey 30 0 0 100000 100000)]

theorem moreItems_accepted : (exec (step sampleAmm) [] sampleDb moreItems).isSome := by
  decide +kernel

theorem share_value_sample :
    ∃ p', (((exec (step sampleAmm) [] sampleDb moreItems).get moreItems_accepted).2).pool.get?
      samplePool = some p' ∧ 3334 * 4804 * p'.totalShares ^ 2 ≤
        p'.reserveLo * p'.reserveHi * 4000 ^ 2 := by
  have hpool : sampleDb.pool.get? samplePool = some ⟨3334, 4804, 4000⟩ := by decide +kernel
  obtain ⟨p', hp', hworth, -⟩ := share_value_never_decreases
    (Run.of_isSome sampleItems_accepted) (Run.of_isSome moreItems_accepted) hpool
  exact ⟨p', hp', hworth⟩

theorem pools_and_shares_sound_sample :
    sampleDb.pool.get? samplePool = some ⟨3334, 4804, 4000⟩ ∧ (4000 : Nat) ^ 2 ≤ 3334 * 4804 ∧
      (audit sampleDb).isSome := by
  have hpool : sampleDb.pool.get? samplePool = some ⟨3334, 4804, 4000⟩ := by decide +kernel
  have h := pools_and_shares_sound (Run.of_isSome sampleItems_accepted)
  exact ⟨hpool, (h.1 samplePool _ hpool).2.2.2.1, h.2.2.2.2⟩

end Experimint.FedimintAmm
