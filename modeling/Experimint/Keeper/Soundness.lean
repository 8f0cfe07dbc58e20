import Experimint.Keeper.Sizing
import Experimint.Amm.Step

/-!
# The keeper's trades

* `decide_eq_trade` — what the policy has checked when it trades.
* `quoteSwap_of_reads` — the module accepts a swap whose checks the keeper has made on the same
  pool, fee and minimums.
* `closer_of_fall`, `closer_of_rise` — a swap towards the oracle's price that does not pass it
  leaves a price strictly closer.
* `keeper_trades_sound` — the three together.
-/

set_option autoImplicit false

namespace Experimint.AmmPriceKeeper

open FedimintAmm (Amm Db PoolId Pool amountOut amountOut_spec consensusFeeFor quoteSwap
  quoteSwap_of_paid MAX_RESERVE)
open FedimintUsdt (satMul128 U128_MAX)

variable {pool : PoolState} {minSwapIn : MinSwapIn} {oracleMicro : Nat} {balances : Balances}
  {cfg : KeeperConfig} {unitIn unitOut : AmountUnit} {amountIn : Nat}

/-! ## The decision -/

/-- What has been checked of a trade. -/
structure Checked (pool : PoolState) (minSwapIn : MinSwapIn) (oracleMicro : Nat)
    (balances : Balances) (cfg : KeeperConfig) (side : Side) (amountIn dy : Nat) : Prop where
  fits : pool.reserveLo * oracleMicro ≤ U128_MAX
  outside : (side = .sellBtc ∧ pool.reserveLo * oracleMicro < pool.reserveHi * DECIMAL_GAP) ∨
    (side = .buyBtc ∧ pool.reserveHi * DECIMAL_GAP < pool.reserveLo * oracleMicro)
  found : pool.largestNonCrossing side oracleMicro ≠ 0
  le_largest : amountIn ≤ pool.largestNonCrossing side oracleMicro
  le_cap : amountIn ≤ maxTradeCap side cfg.maxTradeMicroUsd oracleMicro
  le_inventory : amountIn ≤ (limitsFor cfg balances minSwapIn side).balance -
    (limitsFor cfg balances minSwapIn side).floor
  min_le : (limitsFor cfg balances minSwapIn side).minIn ≤ amountIn
  paid : amountOut (pool.reservesFor side).1 (pool.reservesFor side).2 amountIn
    pool.feePerMille = .ok dy

theorem sideOf_eq_some {deviation : Int} {bandBps : Nat} {side : Side}
    (h : sideOf deviation bandBps = some side) :
    (side = .sellBtc ∧ 0 < deviation) ∨ (side = .buyBtc ∧ deviation < 0) := by
  unfold sideOf at h
  split at h
  · exact .inl ⟨(Option.some.inj h).symm, by omega⟩
  split at h
  · exact .inr ⟨(Option.some.inj h).symm, by omega⟩
  · cases h

theorem decide_eq_trade
    (h : pool.decide minSwapIn oracleMicro balances cfg = .trade unitIn unitOut amountIn) :
    ∃ side dy, pool.unitsFor side = (unitIn, unitOut) ∧
      Checked pool minSwapIn oracleMicro balances cfg side amountIn dy := by
  unfold PoolState.decide at h
  split at h
  · cases h
  split at h
  · cases h
  split at h
  · cases h
  split at h
  · cases h
  rename_i deviation hdev
  split at h
  · cases h
  rename_i side hside
  dsimp only at h
  split at h
  · cases h
  rename_i hfound
  split at h
  · cases h
  rename_i hmin
  split at h
  · cases h
  rename_i dy hpaid
  cases h
  refine ⟨side, dy, rfl, (devBps_eq_some hdev).1, ?_, hfound, by omega, by omega, by omega,
    by omega, hpaid⟩
  rcases sideOf_eq_some hside with ⟨hsell, hpos⟩ | ⟨hbuy, hneg⟩
  · exact .inl ⟨hsell, devBps_pos hdev hpos⟩
  · exact .inr ⟨hbuy, devBps_neg hdev hneg⟩

/-- The cap never exceeds the exact conversion at the oracle's price. -/
theorem maxTradeCap_le (maxTradeMicroUsd oracleMicro : Nat) :
    maxTradeCap .sellBtc maxTradeMicroUsd oracleMicro ≤
        maxTradeMicroUsd * DECIMAL_GAP / oracleMicro ∧
      maxTradeCap .buyBtc maxTradeMicroUsd oracleMicro ≤ maxTradeMicroUsd := by
  refine ⟨?_, Nat.min_le_left _ _⟩
  unfold maxTradeCap
  dsimp only
  split
  · exact Nat.zero_le _
  · refine Nat.le_trans (Nat.min_le_left _ _) (Nat.div_le_div_right ?_)
    exact Nat.min_le_left _ _

namespace Checked

variable {side : Side} {dy : Nat}

theorem cap_le (h : Checked pool minSwapIn oracleMicro balances cfg side amountIn dy) :
    (pool.reservesFor side).1 + amountIn ≤ MAX_RESERVE := by
  have hcap := (largestNonCrossing_spec h.found).1
  have hle := h.le_largest
  omega

/-- The clamps only make the swap smaller, so it does not pass the oracle's price either. -/
theorem not_passes (h : Checked pool minSwapIn oracleMicro balances cfg side amountIn dy) :
    ¬ pool.Passes side oracleMicro amountIn dy := by
  rw [← crossesTarget_of_ok h.fits h.paid]
  intro hcross
  have hlarger := crossesTarget_mono h.fits _ _ h.le_largest hcross
  rw [(largestNonCrossing_spec h.found).2] at hlarger
  cases hlarger

end Checked

/-! ## The module -/

/-- The pool, its fee and the minimums are those the keeper has read. -/
structure Reads (a : Amm) (db : Db) (id : PoolId) (p : Pool) (pool : PoolState)
    (minSwapIn : MinSwapIn) : Prop where
  unitLo : pool.unitLo = id.lo
  unitHi : pool.unitHi = id.hi
  reserveLo : pool.reserveLo = p.reserveLo
  reserveHi : pool.reserveHi = p.reserveHi
  fee : pool.feePerMille = consensusFeeFor a db id
  minLo : a.cfg.units.get? id.lo = some ⟨minSwapIn.lo⟩
  minHi : a.cfg.units.get? id.hi = some ⟨minSwapIn.hi⟩

/-- The module accepts a swap that meets its minimum, is paid and keeps within the reserve cap. -/
theorem quoteSwap_of_reads {a : Amm} {db : Db} {id : PoolId} {p : Pool} {side : Side} {dy : Nat}
    (hreads : Reads a db id p pool minSwapIn)
    (hmin : (limitsFor cfg balances minSwapIn side).minIn ≤ amountIn)
    (hpaid : amountOut (pool.reservesFor side).1 (pool.reservesFor side).2 amountIn
      pool.feePerMille = .ok dy)
    (hcap : (pool.reservesFor side).1 + amountIn ≤ MAX_RESERVE) :
    quoteSwap a db p id (pool.unitsFor side).1 amountIn none =
      .ok ⟨dy, decide (side = .sellBtc), (pool.reservesFor side).1, (pool.reservesFor side).2,
        (pool.reservesFor side).1 + amountIn⟩ := by
  obtain ⟨hlo, hhi, hrlo, hrhi, hfee, hminLo, hminHi⟩ := hreads
  have hne : id.hi ≠ id.lo := (ne_of_lt id.lo_lt_hi).symm
  rw [hfee] at hpaid
  cases side with
  | sellBtc =>
    simp only [PoolState.unitsFor, PoolState.reservesFor, hlo, hrlo, hrhi] at hpaid hcap ⊢
    have hside : decide (id.lo = id.lo) = true := decide_eq_true rfl
    have hother : id.other id.lo = some id.hi := if_pos rfl
    have hquote : quoteSwap a db p id id.lo amountIn none = _ := quoteSwap_of_paid hminLo hother
      (by simp [Table.contains, hminHi]) hmin (by rw [hside]; exact hpaid) (by rw [hside]; exact hcap)
    rw [hquote, hside]
    rfl
  | buyBtc =>
    simp only [PoolState.unitsFor, PoolState.reservesFor, hhi, hrlo, hrhi] at hpaid hcap ⊢
    have hside : decide (id.hi = id.lo) = false := decide_eq_false hne
    have hother : id.other id.hi = some id.lo := by simp [PoolId.other, hne]
    have hquote : quoteSwap a db p id id.hi amountIn none = _ := quoteSwap_of_paid hminHi hother
      (by simp [Table.contains, hminLo]) hmin (by rw [hside]; exact hpaid) (by rw [hside]; exact hcap)
    rw [hquote, hside]
    rfl

/-! ## The price -/

/-- How far the pool's price is above the oracle's, cleared of the bitcoin reserve. -/
def priceGap (reserveLo reserveHi oracleMicro : Nat) : Int :=
  (reserveHi * DECIMAL_GAP : Nat) - (reserveLo * oracleMicro : Nat)

theorem priceGap_nonneg_iff {lo hi : Nat} :
    0 ≤ priceGap lo hi oracleMicro ↔ lo * oracleMicro ≤ hi * DECIMAL_GAP := by
  unfold priceGap
  omega

theorem priceGap_nonpos_iff {lo hi : Nat} :
    priceGap lo hi oracleMicro ≤ 0 ↔ hi * DECIMAL_GAP ≤ lo * oracleMicro := by
  unfold priceGap
  omega

/-- A falling price that has not passed below the oracle's is strictly closer to it. -/
theorem closer_of_fall {lo hi lo' hi' : Nat} (hpos : 0 < lo) (hlo : lo ≤ lo') (hhi : hi' < hi)
    (habove : lo * oracleMicro < hi * DECIMAL_GAP)
    (hnot : lo' * oracleMicro ≤ hi' * DECIMAL_GAP) :
    (priceGap lo' hi' oracleMicro).natAbs * lo < (priceGap lo hi oracleMicro).natAbs * lo' := by
  have hgap : 0 < DECIMAL_GAP := by decide +kernel
  obtain ⟨k, hk⟩ := Nat.le.dest (Nat.le_of_lt habove)
  obtain ⟨k', hk'⟩ := Nat.le.dest hnot
  have habs : (priceGap lo hi oracleMicro).natAbs = k := by
    unfold priceGap
    omega
  have habs' : (priceGap lo' hi' oracleMicro).natAbs = k' := by
    unfold priceGap
    omega
  rw [habs, habs']
  have hlt : lo * lo' * oracleMicro + k' * lo < lo * lo' * oracleMicro + k * lo' := by
    calc lo * lo' * oracleMicro + k' * lo = (lo' * oracleMicro + k') * lo := by ring
      _ = hi' * DECIMAL_GAP * lo := by rw [hk']
      _ < hi * DECIMAL_GAP * lo :=
        Nat.mul_lt_mul_of_pos_right (Nat.mul_lt_mul_of_pos_right hhi hgap) hpos
      _ ≤ hi * DECIMAL_GAP * lo' := Nat.mul_le_mul_left _ hlo
      _ = (lo * oracleMicro + k) * lo' := by rw [hk]
      _ = lo * lo' * oracleMicro + k * lo' := by ring
  exact Nat.lt_of_add_lt_add_left hlt

/-- A rising price that has not passed above the oracle's is strictly closer to it. -/
theorem closer_of_rise {lo hi lo' hi' : Nat} (hpos : 0 < hi) (hhi : hi ≤ hi') (hlo : lo' < lo)
    (hbelow : hi * DECIMAL_GAP < lo * oracleMicro)
    (hnot : hi' * DECIMAL_GAP ≤ lo' * oracleMicro) :
    (priceGap lo' hi' oracleMicro).natAbs * lo < (priceGap lo hi oracleMicro).natAbs * lo' := by
  have hgap : 0 < DECIMAL_GAP := by decide +kernel
  obtain ⟨k, hk⟩ := Nat.le.dest (Nat.le_of_lt hbelow)
  obtain ⟨k', hk'⟩ := Nat.le.dest hnot
  have habs : (priceGap lo hi oracleMicro).natAbs = k := by
    unfold priceGap
    omega
  have habs' : (priceGap lo' hi' oracleMicro).natAbs = k' := by
    unfold priceGap
    omega
  rw [habs, habs']
  have heq : hi' * DECIMAL_GAP * lo + k' * lo = hi * DECIMAL_GAP * lo' + k * lo' := by
    calc hi' * DECIMAL_GAP * lo + k' * lo = (hi' * DECIMAL_GAP + k') * lo := by ring
      _ = lo' * oracleMicro * lo := by rw [hk']
      _ = lo * oracleMicro * lo' := by ring
      _ = (hi * DECIMAL_GAP + k) * lo' := by rw [hk]
      _ = hi * DECIMAL_GAP * lo' + k * lo' := by ring
  have hlt : hi * DECIMAL_GAP * lo' < hi' * DECIMAL_GAP * lo := by
    calc hi * DECIMAL_GAP * lo' < hi * DECIMAL_GAP * lo :=
        Nat.mul_lt_mul_of_pos_left hlo (Nat.mul_pos hpos hgap)
      _ ≤ hi' * DECIMAL_GAP * lo := Nat.mul_le_mul_right _ (Nat.mul_le_mul_right _ hhi)
  omega

/-- A checked trade moves the price towards the oracle's and not past it. -/
theorem Checked.closer {side : Side} {dy lo' hi' : Nat}
    (h : Checked pool minSwapIn oracleMicro balances cfg side amountIn dy)
    (hafter : reservesAfter side ((pool.reservesFor side).1 + amountIn)
      ((pool.reservesFor side).2 - dy) = (lo', hi')) :
    (0 < priceGap pool.reserveLo pool.reserveHi oracleMicro →
        0 ≤ priceGap lo' hi' oracleMicro) ∧
      (priceGap pool.reserveLo pool.reserveHi oracleMicro < 0 →
        priceGap lo' hi' oracleMicro ≤ 0) ∧
      (priceGap lo' hi' oracleMicro).natAbs * pool.reserveLo <
        (priceGap pool.reserveLo pool.reserveHi oracleMicro).natAbs * lo' := by
  obtain ⟨-, hx, hy, -, -, -, -, -, hpos, hlt⟩ := amountOut_spec h.paid
  have hnot := h.not_passes
  rcases h.outside with ⟨rfl, habove⟩ | ⟨rfl, hbelow⟩
  · cases hafter
    change 0 < pool.reserveLo at hx
    change dy < pool.reserveHi at hlt
    have hnot := Nat.le_of_not_lt hnot
    refine ⟨fun _ => priceGap_nonneg_iff.2 hnot, fun hneg => ?_, ?_⟩
    · exact absurd (priceGap_nonneg_iff.2 (Nat.le_of_lt habove)) (not_le.2 hneg)
    · exact closer_of_fall hx (Nat.le_add_right _ _) (Nat.sub_lt hy hpos) habove hnot
  · cases hafter
    change 0 < pool.reserveHi at hx
    change dy < pool.reserveLo at hlt
    have hnot := Nat.le_of_not_lt hnot
    refine ⟨fun habove => ?_, fun _ => priceGap_nonpos_iff.2 hnot, ?_⟩
    · exact absurd (priceGap_nonpos_iff.2 (Nat.le_of_lt hbelow)) (not_le.2 habove)
    · exact closer_of_rise hx (Nat.le_add_right _ _) (Nat.sub_lt hy hpos) hbelow hnot

/-- The reserves a checked trade is expected to leave are those the module's curve gives. -/
theorem Checked.applyTrade {side : Side} {dy : Nat}
    (h : Checked pool minSwapIn oracleMicro balances cfg side amountIn dy)
    (hunits : pool.unitLo ≠ pool.unitHi) :
    pool.applyTrade (pool.unitsFor side).1 amountIn =
      some (reservesAfter side ((pool.reservesFor side).1 + amountIn)
        ((pool.reservesFor side).2 - dy)) := by
  have hcap := h.cap_le
  have hlt := (amountOut_spec h.paid).out_lt
  have hmax : MAX_RESERVE ≤ U64_MAX := by decide
  have hadd : ¬ (U64_MAX < (pool.reservesFor side).1 + amountIn ∨
      (pool.reservesFor side).2 < dy) := by
    omega
  have hside : pool.sideFor (pool.unitsFor side).1 = some side := by
    cases side with
    | sellBtc => exact if_pos rfl
    | buyBtc => exact (if_neg hunits.symm).trans (if_pos rfl)
  unfold PoolState.applyTrade
  rw [hside]
  dsimp only
  rw [h.paid]
  exact if_neg hadd

/-- **The keeper's trades are sound.**  A trade it decides on is paid by the curve and accepted by
the module that holds the pool it has read; it meets the minimum, the cap at the oracle's price and
the inventory floor; and it leaves a price strictly closer to the oracle's and not past it, compared
by exact cross-multiplication. -/
theorem keeper_trades_sound (pool : PoolState) (minSwapIn : MinSwapIn) (oracleMicro : Nat)
    (balances : Balances) (cfg : KeeperConfig) (unitIn unitOut : AmountUnit) (amountIn : Nat)
    (h : pool.decide minSwapIn oracleMicro balances cfg = .trade unitIn unitOut amountIn) :
    ∃ side dy lo' hi', pool.unitsFor side = (unitIn, unitOut) ∧
      amountOut (pool.reservesFor side).1 (pool.reservesFor side).2 amountIn pool.feePerMille =
        .ok dy ∧
      (pool.reservesFor side).1 + amountIn ≤ MAX_RESERVE ∧
      (∀ (a : Amm) (db : Db) (id : PoolId) (p : Pool), Reads a db id p pool minSwapIn →
        ∃ quote, quoteSwap a db p id unitIn amountIn none = .ok quote ∧ quote.dy = dy) ∧
      (limitsFor cfg balances minSwapIn side).minIn ≤ amountIn ∧
      (side = .sellBtc → amountIn ≤ cfg.maxTradeMicroUsd * DECIMAL_GAP / oracleMicro) ∧
      (side = .buyBtc → amountIn ≤ cfg.maxTradeMicroUsd) ∧
      amountIn + (limitsFor cfg balances minSwapIn side).floor ≤
        (limitsFor cfg balances minSwapIn side).balance ∧
      reservesAfter side ((pool.reservesFor side).1 + amountIn) ((pool.reservesFor side).2 - dy) =
        (lo', hi') ∧
      (pool.unitLo ≠ pool.unitHi → pool.applyTrade unitIn amountIn = some (lo', hi')) ∧
      (0 < priceGap pool.reserveLo pool.reserveHi oracleMicro →
        0 ≤ priceGap lo' hi' oracleMicro) ∧
      (priceGap pool.reserveLo pool.reserveHi oracleMicro < 0 →
        priceGap lo' hi' oracleMicro ≤ 0) ∧
      (priceGap lo' hi' oracleMicro).natAbs * pool.reserveLo <
        (priceGap pool.reserveLo pool.reserveHi oracleMicro).natAbs * lo' := by
  obtain ⟨side, dy, hunits, hchecked⟩ := decide_eq_trade h
  have hin : unitIn = (pool.unitsFor side).1 := by rw [hunits]
  have hpos := (amountOut_spec hchecked.paid).amount_pos
  have hinventory := hchecked.le_inventory
  refine ⟨side, dy, _, _, hunits, hchecked.paid, hchecked.cap_le, ?_, hchecked.min_le, ?_, ?_,
    by omega, rfl, ?_, hchecked.closer rfl⟩
  · intro a db id p hreads
    rw [hin]
    exact ⟨_, quoteSwap_of_reads hreads hchecked.min_le hchecked.paid hchecked.cap_le, rfl⟩
  · rintro rfl
    exact Nat.le_trans hchecked.le_cap (maxTradeCap_le _ _).1
  · rintro rfl
    exact Nat.le_trans hchecked.le_cap (maxTradeCap_le _ oracleMicro).2
  · intro hne
    rw [hin]
    exact hchecked.applyTrade hne

/-- A pool that prices bitcoin a tenth above the oracle. -/
def Sample.dearPool : PoolState := ⟨0, 1, 1000000000, 1000000000, 3⟩

def Sample.config : KeeperConfig := ⟨50, 1000000000, 0, 0⟩

theorem keeper_trades_sound_sample :
    Sample.dearPool.decide ⟨1000, 1000⟩ 90000000000 ⟨10000000000, 10000000000⟩ Sample.config =
        .trade 0 1 54173817 ∧
      ∃ lo' hi', Sample.dearPool.applyTrade 0 54173817 = some (lo', hi') ∧
        0 ≤ priceGap lo' hi' 90000000000 := by
  have htrade : Sample.dearPool.decide ⟨1000, 1000⟩ 90000000000 ⟨10000000000, 10000000000⟩
      Sample.config = .trade 0 1 54173817 := by decide +kernel
  obtain ⟨-, -, lo', hi', -, -, -, -, -, -, -, -, -, happly, habove, -⟩ :=
    keeper_trades_sound _ _ _ _ _ _ _ _ htrade
  exact ⟨htrade, lo', hi', happly (by decide), habove (by decide +kernel)⟩

end Experimint.AmmPriceKeeper
