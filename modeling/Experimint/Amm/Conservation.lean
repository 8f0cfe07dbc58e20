import Experimint.Amm.Invariant

/-!
# Per-unit conservation

What the module owes in a unit is the sum of all reserves denominated in it and of all balances in
it.  An accepted item changes that sum by exactly what it declares for the unit: outputs add,
inputs subtract, and a swap moves value between a reserve and a balance of the other unit without
declaring it.

* `Effect.liability_eq` — one accepted item.
* `liability_conserved` — every step from every reachable state, and every whole run.
* `audit_sum` — the audit reports the negated liabilities of all rows.
-/

set_option autoImplicit false

namespace Experimint.FedimintAmm

/-- Reserves of a pool denominated in `u`. -/
def reserveIn (u : AmountUnit) (id : PoolId) (p : Pool) : Nat :=
  (if id.lo = u then p.reserveLo else 0) + (if id.hi = u then p.reserveHi else 0)

/-- Amount of a balance row denominated in `u`. -/
def balanceIn (u : AmountUnit) (key : BalanceKey) (b : BalanceEntry) : Nat :=
  if (ofLex key).2 = u then b.amount else 0

/-- What the module owes in unit `u`. -/
def liability (db : Db) (u : AmountUnit) : Nat :=
  db.pool.sum (reserveIn u) + db.balance.sum (balanceIn u)

/-- Change of the liability that an answer declares for `u`. -/
def declared (u : AmountUnit) : Answer → Int
  | .consumed t => t.amounts.of u
  | .funded m => -(m.amount.amounts.of u : Int)
  | .recorded => 0

/-! ## One step -/

theorem pool_sum_insert (t : Table PoolId Pool) (u : AmountUnit) (id : PoolId) (p : Pool) :
    (t.insert id p).sum (reserveIn u) + reserveIn u id ((t.get? id).getD ⟨0, 0, 0⟩) =
      t.sum (reserveIn u) + reserveIn u id p := by
  have hsum := Table.sum_insert_add t (reserveIn u) id p
  cases h : t.get? id with
  | none =>
    rw [h] at hsum
    simpa [reserveIn] using hsum
  | some q =>
    rw [h] at hsum
    simpa using hsum

theorem balanceIn_key (u unit : AmountUnit) (owner : PublicKey) (b : BalanceEntry) :
    balanceIn u (toLex (owner, unit)) b = if unit = u then b.amount else 0 := rfl

theorem balance_sum_add (t : Table BalanceKey BalanceEntry) (u unit : AmountUnit)
    (owner : PublicKey) (dy : Nat) (tweak : Bytes) :
    (t.insert (toLex (owner, unit))
        ⟨((t.get? (toLex (owner, unit))).map (·.amount)).getD 0 + dy, tweak⟩).sum (balanceIn u) =
      t.sum (balanceIn u) + if unit = u then dy else 0 := by
  have hsum := Table.sum_insert_add t (balanceIn u) (toLex (owner, unit))
    ⟨((t.get? (toLex (owner, unit))).map (·.amount)).getD 0 + dy, tweak⟩
  rw [balanceIn_key] at hsum
  cases h : t.get? (toLex (owner, unit)) with
  | none =>
    rw [h] at hsum
    simpa using hsum
  | some b =>
    rw [h] at hsum
    simp only [Option.map_some, Option.getD_some, balanceIn_key] at hsum ⊢
    split_ifs at hsum ⊢ <;> omega

theorem withdraw_liability {db : Db} {id : PoolId} {p : Pool} {shares : Nat} {o : BurnOutcome}
    (u : AmountUnit) (hpool : db.pool.get? id = some p)
    (hburn : burnShares p.reserveLo p.reserveHi p.totalShares shares = .ok o) :
    (db.pool.insert id ⟨p.reserveLo - o.da, p.reserveHi - o.db, o.newTotalShares⟩).sum
        (reserveIn u) + ((if id.lo = u then o.da else 0) + (if id.hi = u then o.db else 0)) =
      db.pool.sum (reserveIn u) := by
  have hspec := burnShares_spec hburn
  have hpos : 0 < p.totalShares := Nat.lt_of_lt_of_le hspec.shares_pos hspec.shares_le
  have hle : ∀ r, r * shares / p.totalShares ≤ r := fun r =>
    Nat.div_le_of_le_mul (by
      rw [Nat.mul_comm p.totalShares]
      exact Nat.mul_le_mul_left _ hspec.shares_le)
  have hda : o.da ≤ p.reserveLo := hspec.da_eq ▸ hle _
  have hdb : o.db ≤ p.reserveHi := hspec.db_eq ▸ hle _
  have hsum := pool_sum_insert db.pool u id
    ⟨p.reserveLo - o.da, p.reserveHi - o.db, o.newTotalShares⟩
  rw [hpool, Option.getD_some] at hsum
  unfold reserveIn at hsum ⊢
  dsimp only at hsum
  split_ifs at hsum ⊢ <;> omega

theorem swap_liability {db : Db} {id : PoolId} {p : Pool} {inIsLo : Bool} {dx dy fee : Nat}
    (u : AmountUnit) (hpool : db.pool.get? id = some p)
    (hout : AmountOutSpec (if inIsLo then p.reserveLo else p.reserveHi)
      (if inIsLo then p.reserveHi else p.reserveLo) dx fee dy) :
    (db.pool.insert id (p.swapped inIsLo dx dy)).sum (reserveIn u) +
        (if (if inIsLo then id.hi else id.lo) = u then dy else 0) =
      db.pool.sum (reserveIn u) + (if (if inIsLo then id.lo else id.hi) = u then dx else 0) := by
  have hlt := hout.out_lt
  have hsum := pool_sum_insert db.pool u id (p.swapped inIsLo dx dy)
  rw [hpool, Option.getD_some] at hsum
  cases inIsLo with
  | true =>
    have hlt : dy < p.reserveHi := hlt
    simp only [reserveIn, Pool.swapped, if_true] at hsum ⊢
    split_ifs at hsum ⊢ <;> omega
  | false =>
    have hlt : dy < p.reserveLo := hlt
    simp only [reserveIn, Pool.swapped, Bool.false_eq_true, if_false] at hsum ⊢
    split_ifs at hsum ⊢ <;> omega

/-- **An accepted item changes the liability in every unit by what it declares for it.** -/
theorem Effect.liability_eq {db db' : Db} {ans : Answer} (h : Effect db ans db')
    (u : AmountUnit) : (liability db' u : Int) = liability db u + declared u ans := by
  cases h with
  | @claim owner unit entry hentry =>
    have hsum := Table.sum_erase (balanceIn u) hentry
    have hof := Amounts.of_newCustom u unit entry.amount
    rw [balanceIn_key] at hsum
    simp only [liability, declared, hof, hsum]
    omega
  | @withdraw id owner p position shares o amounts hpool hposition hshares hburn hamounts =>
    have hsum := withdraw_liability u hpool hburn
    simp only [liability, declared, hamounts u]
    omega
  | @swap id p recipient tweak inIsLo dx dy fee hpool hout hcap hbalance =>
    have hpools := swap_liability u hpool hout
    have hbalances := balance_sum_add db.balance u (if inIsLo then id.hi else id.lo) recipient dy
      tweak
    have hof := Amounts.of_newCustom u (if inIsLo then id.lo else id.hi) dx
    simp only [liability, declared, hof]
    omega
  | @deposit id p owner tweak da dB o amounts hpool hmint hamounts =>
    have hsum := pool_sum_insert db.pool u id
      ⟨p.reserveLo + da, p.reserveHi + dB, o.newTotalShares⟩
    rw [hpool] at hsum
    have hadd : reserveIn u id ⟨p.reserveLo + da, p.reserveHi + dB, o.newTotalShares⟩ =
        reserveIn u id p + ((if id.lo = u then da else 0) + (if id.hi = u then dB else 0)) := by
      unfold reserveIn
      dsimp only
      split_ifs <;> omega
    simp only [liability, declared, hamounts u]
    omega
  | vote => simp [liability, declared]

/-! ## Whole runs -/

/-- Net amount of `u` declared along a trace. -/
def declaredTotal (u : AmountUnit) (tr : List (Item × Answer)) : Int :=
  (tr.map fun x => declared u x.2).sum

theorem liability_run {a : Amm} {tr : List (Item × Answer)} {db : Db}
    (h : Run (Accepts a) Db.empty tr db) (u : AmountUnit) :
    (liability db u : Int) = declaredTotal u tr := by
  refine Run.historyInvariant (P := fun tr db => (liability db u : Int) = declaredTotal u tr)
    rfl ?_ h
  intro tr db i ans db' ih hstep
  rw [(Accepts.effect hstep).liability_eq u, ih, declaredTotal, declaredTotal, List.map_cons,
    List.sum_cons, Int.add_comm]

/-- **Conservation.**  From every reachable state, an accepted output raises the liability in each
unit by exactly the amount it declares, an accepted input lowers it by exactly the amount it
declares, and after a whole run the liability is what outputs declared minus what inputs did. -/
theorem liability_conserved {a : Amm} {tr : List (Item × Answer)} {db : Db}
    (h : Run (Accepts a) Db.empty tr db) :
    (∀ o t db', Accepts a db (.output o) (.consumed t) db' →
      ∀ u, liability db' u = liability db u + t.amounts.of u) ∧
    (∀ i m db', Accepts a db (.input i) (.funded m) db' →
      ∀ u, liability db' u + m.amount.amounts.of u = liability db u) ∧
    ∀ u, (liability db u : Int) = declaredTotal u tr := by
  refine ⟨?_, ?_, liability_run h⟩
  · intro o t db' hstep u
    have heq := (Accepts.effect hstep).liability_eq u
    simp only [declared] at heq
    omega
  · intro i m db' hstep u
    have heq := (Accepts.effect hstep).liability_eq u
    simp only [declared] at heq
    omega

/-- A swap back, accepted in the sample state. -/
def sampleSwap : AmmOutput := .swapV0 1 0 700 1 sampleKey [] (List.replicate 64 0)

/-- A claim of the sample recipient's balance. -/
def sampleClaim : AmmInput := .claimBalanceV0 sampleKey 1

theorem liability_conserved_sample :
    (∃ t db', Accepts sampleAmm sampleDb (.output sampleSwap) (.consumed t) db' ∧
      liability db' 1 = liability sampleDb 1 + 700 ∧ liability db' 0 = liability sampleDb 0) ∧
    (∃ m db', Accepts sampleAmm sampleDb (.input sampleClaim) (.funded m) db' ∧
      liability db' 1 + 1795 = liability sampleDb 1) ∧
    (liability sampleDb 0 : Int) =
      declaredTotal 0 ((exec (step sampleAmm) [] Db.empty sampleItems).get sampleItems_accepted).1 := by
  have h := liability_conserved (Run.of_isSome sampleItems_accepted)
  have hswap : Accepts sampleAmm sampleDb (.output sampleSwap)
      (.consumed ⟨Amounts.newCustom 1 700, Amounts.zero⟩)
      (processOutput sampleAmm sampleDb sampleSwap).2 := by
    unfold Accepts Steps
    decide +kernel
  have hclaim : Accepts sampleAmm sampleDb (.input sampleClaim)
      (.funded ⟨⟨Amounts.newCustom 1 1795, Amounts.zero⟩, sampleKey⟩)
      (processInput sampleDb sampleClaim).2 := by
    unfold Accepts Steps
    decide +kernel
  exact ⟨⟨_, _, hswap, h.1 _ _ _ hswap 1, h.1 _ _ _ hswap 0⟩, ⟨_, _, hclaim, h.2.1 _ _ _ hclaim 1⟩,
    h.2.2 0⟩

/-! ## The audit -/

theorem mapM_neg_sum {α : Type} {g : α → Nat} {l : List α} {items : List Int}
    (h : l.mapM (fun x => (i64TryFrom (g x)).map fun v => -v) = some items) :
    items.sum = -((l.map g).sum : Int) := by
  induction l generalizing items with
  | nil => cases h; rfl
  | cons x xs ih =>
    rw [List.mapM_cons] at h
    obtain ⟨y, hy, h⟩ := Option.bind_eq_some_iff.1 h
    obtain ⟨ys, hys, h⟩ := Option.bind_eq_some_iff.1 h
    cases h
    have hx : y = -(g x : Int) := by
      unfold i64TryFrom at hy
      split at hy <;> cases hy
      rfl
    rw [List.sum_cons, List.map_cons, List.sum_cons, ih hys, hx]
    push_cast
    omega

/-- The audit reports every reserve and every balance, negated. -/
theorem audit_sum {db : Db} {items : List Int} (h : audit db = some items) :
    items.sum = -(db.pool.sum (fun _ p => p.reserveLo + p.reserveHi) +
      db.balance.sum (fun _ b => b.amount) : Nat) := by
  unfold audit at h
  split at h
  · cases h
  rename_i lo hlo
  split at h
  · cases h
  rename_i hi hhi
  split at h
  · cases h
  rename_i balances hbalances
  cases h
  have hsplit : ∀ l : List Pool, (l.map fun p => p.reserveLo + p.reserveHi).sum =
      (l.map Pool.reserveLo).sum + (l.map Pool.reserveHi).sum := fun l => List.sum_map_add
  rw [List.sum_append, List.sum_append, mapM_neg_sum hlo, mapM_neg_sum hhi, mapM_neg_sum hbalances]
  have hp : db.pool.sum (fun _ p => p.reserveLo + p.reserveHi) =
      (db.pool.values.map fun p => p.reserveLo + p.reserveHi).sum := by
    unfold Table.sum Table.values
    rw [List.map_map]
    rfl
  have hb : db.balance.sum (fun _ b => b.amount) = (db.balance.values.map BalanceEntry.amount).sum := by
    unfold Table.sum Table.values
    rw [List.map_map]
    rfl
  rw [hp, hb, hsplit]
  push_cast
  omega

end Experimint.FedimintAmm
