import Experimint.Amm.Quote

/-!
# Splitting a swap

A trader may send an amount in one swap or in pieces.  Each piece leaves its fee and its rounding in
the pool, and a later piece can recover part of the rounding but never all of it: `SplitInv` bounds
what any number of pieces leave behind from below by what the single swap would leave.

* `SplitInv.step`, `SplitInv.swapPieces` — one piece, and a list of them.
* `splitting_never_profits` — on the curve, and for every run of settled swaps of the module.
-/

set_option autoImplicit false

namespace Experimint.FedimintAmm

/-- Successive swaps in one direction; each adds its full input to the input reserve. -/
def swapPieces (fee : Nat) : (reserveIn reserveOut : Nat) → List Nat → Option (List Nat)
  | _, _, [] => some []
  | reserveIn, reserveOut, dx :: rest =>
    match amountOut reserveIn reserveOut dx fee with
    | .error _ => none
    | .ok dy =>
      if reserveIn + dx ≤ MAX_RESERVE then
        (swapPieces fee (reserveIn + dx) (reserveOut - dy) rest).map (dy :: ·)
      else none

/-- Reserves `x'` and `y'` after pieces of `total` in all: the output reserve is at least what the
single swap would leave. -/
structure SplitInv (x y fee total x' y' : Nat) : Prop where
  reserveIn_eq : x' = x + total
  reserveOut_le : y' ≤ y
  kept : x * 1000 * y ≤ (x * 1000 + total * (1000 - fee)) * y'

section Curve

variable {x y fee total x' y' : Nat}

theorem SplitInv.refl (x y fee : Nat) : SplitInv x y fee 0 x y :=
  ⟨rfl, Nat.le_refl _, by rw [Nat.zero_mul, Nat.add_zero]⟩

theorem SplitInv.step {dx dy : Nat} (h : SplitInv x y fee total x' y')
    (hspec : AmountOutSpec x' y' dx fee dy) :
    SplitInv x y fee (total + dx) (x' + dx) (y' - dy) := by
  obtain ⟨rfl, hle, hkept⟩ := h
  refine ⟨by omega, by omega, ?_⟩
  have hfee : total * (1000 - fee) ≤ total * 1000 := Nat.mul_le_mul_left _ (by omega)
  have hpiece : (x + total) * 1000 * y' ≤
      (y' - dy) * ((x + total) * 1000 + dx * (1000 - fee)) := by
    rw [hspec.out_eq]
    exact Market.floor_payout_leaves _ _ _
  have hstep := Market.split_step (b := x * 1000 + total * (1000 - fee)) (by omega)
    (Nat.sub_le _ _) hkept hpiece
  rwa [Nat.add_mul total, ← Nat.add_assoc]

theorem SplitInv.swapPieces {dxs dys : List Nat} (h : SplitInv x y fee total x' y')
    (hpieces : swapPieces fee x' y' dxs = some dys) :
    SplitInv x y fee (total + dxs.sum) (x' + dxs.sum) (y' - dys.sum) ∧ dys.sum ≤ y' ∧
      (x' ≤ MAX_RESERVE → x' + dxs.sum ≤ MAX_RESERVE) ∧ (dxs ≠ [] → 0 < dys.sum) := by
  -- on the pieces still to come; the invariant accounts for those already settled
  induction dxs generalizing total x' y' dys with
  | nil =>
    cases hpieces
    exact ⟨h, Nat.zero_le _, fun hx => hx, fun hne => absurd rfl hne⟩
  | cons dx rest ih =>
    unfold FedimintAmm.swapPieces at hpieces
    split at hpieces
    · cases hpieces
    rename_i dy hdy
    split at hpieces
    · rename_i hcap
      obtain ⟨dys, hrest, rfl⟩ := Option.map_eq_some_iff.1 hpieces
      have hspec := amountOut_spec hdy
      have hlt := hspec.out_lt
      have hpos := hspec.out_pos
      obtain ⟨hinv, hle, hmax, -⟩ := ih (h.step hspec) hrest
      rw [List.sum_cons, List.sum_cons]
      refine ⟨?_, by omega, fun _ => ?_, fun _ => by omega⟩
      · rw [← Nat.add_assoc, ← Nat.add_assoc, ← Nat.sub_sub]
        exact hinv
      · have := hmax hcap
        omega
    · cases hpieces

/-- The single swap pays at least what the pieces took. -/
theorem SplitInv.single (h : SplitInv x y fee total x' y') (htrade : Tradable x y fee)
    (hcap : total ≤ MAX_RESERVE) (hlt : y' < y) :
    ∃ out, amountOut x y total fee = .ok out ∧ y - y' ≤ out := by
  have hpos := htrade.reserveIn_pos
  have hout : y - y' ≤ curveOut x y total fee :=
    Market.le_floor_payout (by omega) h.kept
  rcases htrade.amountOut hcap with ⟨e, -, -, hzero⟩ | ⟨-, -, hok⟩
  · have hnone : curveOut x y total fee = 0 := by
      rcases hzero with hzero | hzero
      · rw [hzero, curveOut, Nat.zero_mul, Nat.zero_mul, Nat.zero_div]
      · exact hzero
    omega
  · exact ⟨_, hok, hout⟩

theorem amountOut_of_swapPieces {dxs dys : List Nat} (hne : dxs ≠ [])
    (h : swapPieces fee x y dxs = some dys) :
    ∃ out, amountOut x y dxs.sum fee = .ok out ∧ x + dxs.sum ≤ MAX_RESERVE ∧ dys.sum ≤ out := by
  have htrade : Tradable x y fee := by
    cases dxs with
    | nil => exact absurd rfl hne
    | cons dx rest =>
      unfold swapPieces at h
      split at h
      · cases h
      rename_i dy hdy
      exact (amountOut_spec hdy).tradable
  obtain ⟨hinv, hle, hmax, hpos⟩ := (SplitInv.refl x y fee).swapPieces h
  have hcap := hmax htrade.reserveIn_le
  have hpaid := hpos hne
  rw [Nat.zero_add] at hinv
  obtain ⟨out, hok, hout⟩ := hinv.single htrade (by omega) (by omega)
  exact ⟨out, hok, hcap, by omega⟩

end Curve

/-! ## Settled pieces -/

/-- Reserves of a pool, input side first. -/
def Pool.legs (p : Pool) (inIsLo : Bool) : Nat × Nat :=
  (if inIsLo then p.reserveLo else p.reserveHi, if inIsLo then p.reserveHi else p.reserveLo)

theorem legs_swapped (p : Pool) (inIsLo : Bool) (dx dy : Nat) :
    (p.swapped inIsLo dx dy).legs inIsLo = ((p.legs inIsLo).1 + dx, (p.legs inIsLo).2 - dy) := by
  cases inIsLo <;> rfl

/-- The item swaps one unit for another. -/
def IsSwap (unitIn unitOut : AmountUnit) (i : Item) : Prop :=
  ∃ dx minOut recipient tweak pop, i = .output (.swapV0 unitIn unitOut dx minOut recipient tweak pop)

/-- Amount an item swaps. -/
def swapAmount : Item → Nat
  | .output (.swapV0 _ _ dx _ _ _ _) => dx
  | _ => 0

section Runs

variable {a : Amm} {db db' : Db} {unitIn unitOut : AmountUnit} {id : PoolId} {p : Pool}

/-- One settled piece. -/
theorem Accepts.swapped {i : Item} {ans : Answer} (h : Accepts a db i ans db')
    (hswap : IsSwap unitIn unitOut i) (hid : PoolId.new unitIn unitOut = some id)
    (hpool : db.pool.get? id = some p) :
    ∃ q, quoteSwap a db p id unitIn (swapAmount i) none = .ok q ∧
      db'.pool.get? id = some (p.swapped (decide (unitIn = id.lo)) (swapAmount i) q.dy) ∧
      consensusFeeFor a db' id = consensusFeeFor a db id := by
  obtain ⟨dx, minOut, recipient, tweak, pop, rfl⟩ := hswap
  unfold Accepts Steps step processOutput at h
  dsimp only at h
  split at h
  · rename_i t db'' hout
    cases h
    split at hout
    · cases hout
    obtain ⟨id', p', q, hid', hpool', hq, -, rfl⟩ := swap_eq_ok hout
    rw [hid] at hid'
    cases hid'
    rw [hpool] at hpool'
    cases hpool'
    rw [(quoteSwap_ok hq).1]
    exact ⟨q, hq, Table.get?_insert_self _ _ _, rfl⟩
  · cases h

/-- A swap of this size was admitted: its units are listed and it meets the minimum. -/
def Admits (a : Amm) (id : PoolId) (unitIn : AmountUnit) (dx : Nat) : Prop :=
  ∃ params unitOut, a.cfg.units.get? unitIn = some params ∧ id.other unitIn = some unitOut ∧
    a.cfg.units.contains unitOut = true ∧ params.minSwapIn ≤ dx

/-- What pieces of `total` in all have done to the pool, whose reserves were `x` and `y`. -/
structure Pieces (a : Amm) (id : PoolId) (unitIn : AmountUnit) (x y fee total : Nat) (db : Db) :
    Prop where
  fee_eq : consensusFeeFor a db id = fee
  pool : ∃ p, db.pool.get? id = some p ∧
    SplitInv x y fee total (p.legs (decide (unitIn = id.lo))).1
      (p.legs (decide (unitIn = id.lo))).2 ∧
    (total ≠ 0 → Tradable x y fee ∧ x + total ≤ MAX_RESERVE ∧
      (p.legs (decide (unitIn = id.lo))).2 < y ∧ Admits a id unitIn total)

theorem SplitInv.reserveOut_eq {x y fee y' : Nat} (h : SplitInv x y fee 0 x y') (hx : 0 < x) :
    y' = y := by
  have hkept := h.kept
  rw [Nat.zero_mul, Nat.add_zero] at hkept
  exact Nat.le_antisymm h.reserveOut_le (Nat.le_of_mul_le_mul_left hkept (by omega))

theorem Pieces.next {x y fee total : Nat} {s s' : Db} {i : Item} {ans : Answer}
    (h : Pieces a id unitIn x y fee total s) (hstep : Accepts a s i ans s')
    (hswap : IsSwap unitIn unitOut i) (hid : PoolId.new unitIn unitOut = some id) :
    Pieces a id unitIn x y fee (total + swapAmount i) s' := by
  obtain ⟨hfee, p', hp', hinv, hbefore⟩ := h
  obtain ⟨q, hq, hpool, hsame⟩ := hstep.swapped hswap hid hp'
  obtain ⟨hside, hin, hout, hspec, hnew, hcap⟩ := quoteSwap_ok hq
  obtain ⟨params, unit, hparams, hother, hcontains, hmin⟩ := quoteSwap_admitted hq
  rw [hin, hside] at hnew
  rw [hnew] at hcap
  rw [hin, hout, hside, hfee] at hspec
  have hlt := hspec.out_lt
  have hpos := hspec.out_pos
  have htrade : Tradable x y fee := by
    by_cases hzero : total = 0
    · -- before the first piece the reserves are the initial ones
      subst hzero
      have hx := hinv.reserveIn_eq
      rw [Nat.add_zero] at hx
      rw [hx] at hinv
      have hy := hinv.reserveOut_eq (hx ▸ hspec.reserveIn_pos)
      exact hx ▸ hy ▸ hspec.tradable
    · exact (hbefore hzero).1
  refine ⟨hsame.trans hfee, _, hpool, ?_, fun _ => ⟨htrade, ?_, ?_, ?_⟩⟩
  · rw [legs_swapped]
    exact hinv.step hspec
  · have hx := hinv.reserveIn_eq
    change (p'.legs (decide (unitIn = id.lo))).1 + swapAmount i ≤ MAX_RESERVE at hcap
    omega
  · have hy := hinv.reserveOut_le
    rw [legs_swapped]
    change q.dy < (p'.legs (decide (unitIn = id.lo))).2 at hlt
    dsimp only
    omega
  · exact ⟨params, unit, hparams, hother, hcontains, by omega⟩

theorem pieces_run {tr : List (Item × Answer)} (hrun : Run (Accepts a) db tr db')
    (hswaps : ∀ e ∈ tr, IsSwap unitIn unitOut e.1) (hid : PoolId.new unitIn unitOut = some id)
    (hpool : db.pool.get? id = some p) :
    Pieces a id unitIn (p.legs (decide (unitIn = id.lo))).1 (p.legs (decide (unitIn = id.lo))).2
      (consensusFeeFor a db id) (tr.map fun e => swapAmount e.1).sum db' := by
  induction hrun with
  | start => exact ⟨rfl, p, hpool, SplitInv.refl _ _ _, fun h => absurd rfl h⟩
  | next hrun hstep ih =>
    obtain ⟨hlast, hearlier⟩ := List.forall_mem_cons.1 hswaps
    rw [List.map_cons, List.sum_cons, Nat.add_comm]
    exact (ih hearlier).next hstep hlast hid

end Runs

/-- **Splitting a swap never profits.**  If successive swaps in one direction all succeed, so does
the single swap of their summed input on the initial reserves, and it pays at least as much.  In the
module: over any run of settled swaps of one unit for another, the single swap would have been
quoted on the first state, for at least what the run took out of the pool. -/
theorem splitting_never_profits :
    (∀ (x y fee : Nat) (dxs dys : List Nat), dxs ≠ [] → swapPieces fee x y dxs = some dys →
      ∃ out, amountOut x y dxs.sum fee = .ok out ∧ x + dxs.sum ≤ MAX_RESERVE ∧ dys.sum ≤ out) ∧
    ∀ (a : Amm) (db db' : Db) (unitIn unitOut : AmountUnit) (id : PoolId) (p : Pool)
      (tr : List (Item × Answer)), PoolId.new unitIn unitOut = some id → db.pool.get? id = some p →
      Run (Accepts a) db tr db' → tr ≠ [] → (∀ e ∈ tr, IsSwap unitIn unitOut e.1) →
      ∃ q p', quoteSwap a db p id unitIn (tr.map fun e => swapAmount e.1).sum none = .ok q ∧
        db'.pool.get? id = some p' ∧
        (p.legs (decide (unitIn = id.lo))).2 - (p'.legs (decide (unitIn = id.lo))).2 ≤ q.dy := by
  refine ⟨fun x y fee dxs dys hne h => amountOut_of_swapPieces hne h, ?_⟩
  intro a db db' unitIn unitOut id p tr hid hpool hrun hne hswaps
  obtain ⟨-, p', hp', hinv, hafter⟩ := pieces_run hrun hswaps hid hpool
  have htotal : (tr.map fun e => swapAmount e.1).sum ≠ 0 := by
    cases hrun with
    | start => exact absurd rfl hne
    | next hearlier hstep =>
      obtain ⟨hlast, hswaps⟩ := List.forall_mem_cons.1 hswaps
      obtain ⟨-, s, hs, -⟩ := pieces_run hearlier hswaps hid hpool
      obtain ⟨q, hq, -, -⟩ := hstep.swapped hlast hid hs
      have hpos := (quoteSwap_ok hq).2.2.2.1.amount_pos
      rw [List.map_cons, List.sum_cons]
      exact Nat.ne_of_gt (Nat.lt_of_lt_of_le hpos (Nat.le_add_right _ _))
  obtain ⟨htrade, hcap, hlt, params, unit, hparams, hother, hcontains, hmin⟩ := hafter htotal
  obtain ⟨out, hout, hle⟩ := hinv.single htrade (by omega) hlt
  exact ⟨_, p', quoteSwap_of_paid hparams hother hcontains hmin hout hcap, hp', hle⟩

/-- Two swaps of 300 and 400. -/
def splitItems : List Item :=
  [.output (.swapV0 0 1 300 1 sampleKey [] (List.replicate 64 0)),
   .output (.swapV0 0 1 400 1 sampleKey [] (List.replicate 64 0))]

theorem splitting_never_profits_sample :
    (∃ dys out, swapPieces 3 4000 9000 [400, 600] = some dys ∧
      amountOut 4000 9000 1000 3 = .ok out ∧ dys.sum ≤ out) ∧
    ∃ tr db' q p', Run (Accepts sampleAmm) sampleDb tr db' ∧
      (tr.map fun e => swapAmount e.1).sum = 700 ∧
      quoteSwap sampleAmm sampleDb ⟨3334, 4804, 4000⟩ samplePool 0 700 none = .ok q ∧
      db'.pool.get? samplePool = some p' ∧ 4804 - p'.reserveHi ≤ q.dy := by
  obtain ⟨hcurve, hruns⟩ := splitting_never_profits
  constructor
  · obtain ⟨dys, hdys⟩ : ∃ dys, swapPieces 3 4000 9000 [400, 600] = some dys :=
      Option.isSome_iff_exists.1 (by decide +kernel)
    obtain ⟨out, hout, -, hle⟩ := hcurve 4000 9000 3 [400, 600] dys (by simp) hdys
    exact ⟨dys, out, hdys, hout, hle⟩
  · obtain ⟨tr, db', run, hP⟩ := Run.exists_of_exec (step sampleAmm) sampleDb splitItems
      (fun tr _ => decide (tr.map Prod.fst = splitItems.reverse)) (by decide +kernel)
    have hitems := of_decide_eq_true hP
    have hpool : sampleDb.pool.get? samplePool = some ⟨3334, 4804, 4000⟩ := by decide +kernel
    have hsum : (tr.map fun e => swapAmount e.1).sum = 700 := by
      have hmap : (tr.map fun e => swapAmount e.1) = (tr.map Prod.fst).map swapAmount := by
        rw [List.map_map]
        rfl
      rw [hmap, hitems]
      rfl
    have hne : tr ≠ [] := by
      rintro rfl
      cases hitems
    have hswaps : ∀ e ∈ tr, IsSwap 0 1 e.1 := by
      intro e he
      have he := List.mem_map_of_mem (f := Prod.fst) he
      rw [hitems] at he
      simp only [splitItems, List.reverse_cons, List.reverse_nil, List.nil_append,
        List.cons_append, List.mem_cons, List.not_mem_nil, or_false] at he
      rcases he with he | he <;> exact ⟨_, _, _, _, _, he⟩
    obtain ⟨q, p', hq, hp', hle⟩ := hruns sampleAmm sampleDb db' 0 1 samplePool _ tr rfl hpool run
      hne hswaps
    rw [hsum] at hq
    exact ⟨tr, db', q, p', run, hsum, hq, hp', hle⟩

end Experimint.FedimintAmm
