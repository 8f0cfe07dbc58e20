import Mathlib.Data.Nat.Sqrt
import Experimint.Framework
import Experimint.Lib.ConstantProduct

/-!
# Constant-product arithmetic

`amountOut`, `mintShares` and `burnShares` with every admission check in source order.  The source
computes in 128-bit intermediates; `quotient_fits` shows that those of a capped swap stay below
`2 ^ 128`, and products of two 64-bit values do so by themselves, so natural numbers compute the
same results.  The narrowing casts and checked additions keep their 64-bit bound.

* `amountOut_spec`, `mintShares_spec`, `burnShares_spec` — what an accepted call guarantees.
* `amountOut_product_le` — a swap never lowers the product of the reserves.
* `mintShares_worth`, `burnShares_worth` — issue and redemption never lower the value of a share.
-/

set_option autoImplicit false

namespace Experimint.FedimintAmm

/-- Upper bound on any reserve or swap input. -/
def MAX_RESERVE : Nat := 288230376151711744

/-- Shares permanently burned on pool creation. -/
def MINIMUM_LIQUIDITY : Nat := 1000

inductive CurveError where
  | zeroAmount
  | zeroReserve
  | reserveCapExceeded
  | invalidFee
  | outputRoundsToZero
  | insufficientLiquidity
  | insufficientInitialLiquidity
  | insufficientShares
  | overflow
deriving DecidableEq

def CurveError.text : CurveError → String
  | .zeroAmount => "amount must be non-zero"
  | .zeroReserve => "reserves must be non-zero"
  | .reserveCapExceeded => "value exceeds MAX_RESERVE"
  | .invalidFee => "fee_per_mille must be < 1000"
  | .outputRoundsToZero => "output rounds to zero"
  | .insufficientLiquidity => "pool has insufficient liquidity"
  | .insufficientInitialLiquidity => "initial liquidity must exceed MINIMUM_LIQUIDITY"
  | .insufficientShares => "not enough shares"
  | .overflow => "arithmetic overflow"

/-- Narrowing cast to 64 bits. -/
def toU64 (n : Nat) : Except CurveError Nat := if n ≤ U64_MAX then .ok n else .error .overflow

/-- Output of a swap; the caller adds the full `amountIn` to the input reserve, fee included. -/
def amountOut (reserveIn reserveOut amountIn feePerMille : Nat) : Except CurveError Nat :=
  if amountIn = 0 then .error .zeroAmount else
  if reserveIn = 0 ∨ reserveOut = 0 then .error .zeroReserve else
  if amountIn > MAX_RESERVE ∨ reserveIn > MAX_RESERVE ∨ reserveOut > MAX_RESERVE then
    .error .reserveCapExceeded else
  if feePerMille ≥ 1000 then .error .invalidFee else
  let inWithFee := amountIn * (1000 - feePerMille)
  let numerator := inWithFee * reserveOut
  let denominator := reserveIn * 1000 + inWithFee
  let out := numerator / denominator
  if out = 0 then .error .outputRoundsToZero else
  if out ≥ reserveOut then .error .insufficientLiquidity else
  toU64 out

structure MintOutcome where
  toOwner : Nat
  newTotalShares : Nat
deriving DecidableEq

/-- Shares issued for a deposit of `da` and `db`. -/
def mintShares (reserveLo reserveHi totalShares da db : Nat) : Except CurveError MintOutcome :=
  if da = 0 ∨ db = 0 then .error .zeroAmount else
  if da > MAX_RESERVE ∨ db > MAX_RESERVE then .error .reserveCapExceeded else
  if (checkedAdd reserveLo da).all (fun r => decide (r > MAX_RESERVE)) ||
      (checkedAdd reserveHi db).all (fun r => decide (r > MAX_RESERVE)) then
    .error .reserveCapExceeded else
  if totalShares = 0 then
    -- pool creation: all but `MINIMUM_LIQUIDITY` goes to the depositor
    match toU64 (Nat.sqrt (da * db)) with
    | .error e => .error e
    | .ok minted =>
      if minted ≤ MINIMUM_LIQUIDITY then .error .insufficientInitialLiquidity
      else .ok ⟨minted - MINIMUM_LIQUIDITY, minted⟩
  else
    if reserveLo = 0 ∨ reserveHi = 0 then .error .zeroReserve else
    let viaLo := da * totalShares / reserveLo
    let viaHi := db * totalShares / reserveHi
    match toU64 (min viaLo viaHi) with
    | .error e => .error e
    | .ok minted =>
      if minted = 0 then .error .outputRoundsToZero else
      match checkedAdd totalShares minted with
      | none => .error .overflow
      | some newTotalShares => .ok ⟨minted, newTotalShares⟩

structure BurnOutcome where
  da : Nat
  db : Nat
  newTotalShares : Nat
deriving DecidableEq

/-- Reserves paid for `shares`; both legs floor. -/
def burnShares (reserveLo reserveHi totalShares shares : Nat) : Except CurveError BurnOutcome :=
  if shares = 0 then .error .zeroAmount else
  if shares > totalShares then .error .insufficientShares else
  if totalShares = 0 then .error .insufficientShares else
  match toU64 (reserveLo * shares / totalShares) with
  | .error e => .error e
  | .ok da =>
    match toU64 (reserveHi * shares / totalShares) with
    | .error e => .error e
    | .ok db =>
      if da = 0 ∧ db = 0 then .error .outputRoundsToZero
      else .ok ⟨da, db, totalShares - shares⟩

/-- Whether a swap keeps the product of the reserves. -/
def kNonDecreasing (rInOld rOutOld rInNew rOutNew : Nat) : Bool :=
  decide (rInNew * rOutNew ≥ rInOld * rOutOld)

/-! ## Casts -/

theorem toU64_ok {n m : Nat} (h : toU64 n = .ok m) : m = n := by
  unfold toU64 at h
  split at h <;> cases h
  rfl

theorem toU64_of_le {n : Nat} (h : n ≤ U64_MAX) : toU64 n = .ok n := if_pos h

theorem checkedAdd_eq_some {a b c : Nat} (h : checkedAdd a b = some c) : c = a + b := by
  unfold checkedAdd at h
  split at h <;> cases h
  rfl

theorem checkedAdd_of_le {a b : Nat} (h : a + b ≤ U64_MAX) : checkedAdd a b = some (a + b) :=
  if_pos h

theorem cap_of_checkedAdd {a b : Nat}
    (h : (checkedAdd a b).all (fun r => decide (r > MAX_RESERVE)) = false) :
    a + b ≤ MAX_RESERVE := by
  unfold checkedAdd at h
  split at h
  · simpa using h
  · simp at h

/-! ## Swaps -/

/-- What an accepted swap guarantees. -/
structure AmountOutSpec (x y dx fee dy : Nat) : Prop where
  amount_pos : 0 < dx
  reserveIn_pos : 0 < x
  reserveOut_pos : 0 < y
  amount_le : dx ≤ MAX_RESERVE
  reserveIn_le : x ≤ MAX_RESERVE
  reserveOut_le : y ≤ MAX_RESERVE
  fee_lt : fee < 1000
  out_eq : dy = dx * (1000 - fee) * y / (x * 1000 + dx * (1000 - fee))
  out_pos : 0 < dy
  out_lt : dy < y

theorem amountOut_spec {x y dx fee dy : Nat} (h : amountOut x y dx fee = .ok dy) :
    AmountOutSpec x y dx fee dy := by
  unfold amountOut at h
  split at h
  · cases h
  rename_i hdx
  split at h
  · cases h
  rename_i hxy
  split at h
  · cases h
  rename_i hcap
  split at h
  · cases h
  rename_i hfee
  dsimp only at h
  split at h
  · cases h
  rename_i hpos
  split at h
  · cases h
  rename_i hlt
  have hdy := toU64_ok h
  exact ⟨by omega, by omega, by omega, by omega, by omega, by omega, by omega, hdy, by omega,
    by omega⟩

/-- Reserves and a fee that swaps can be made at. -/
structure Tradable (x y fee : Nat) : Prop where
  reserveIn_pos : 0 < x
  reserveOut_pos : 0 < y
  reserveIn_le : x ≤ MAX_RESERVE
  reserveOut_le : y ≤ MAX_RESERVE
  fee_lt : fee < 1000

/-- The curve itself. -/
def curveOut (x y dx fee : Nat) : Nat := dx * (1000 - fee) * y / (x * 1000 + dx * (1000 - fee))

theorem curveOut_mono {x y dx dx' fee : Nat} (hx : 0 < x) (h : dx ≤ dx') :
    curveOut x y dx fee ≤ curveOut x y dx' fee :=
  Market.floor_payout_mono (by omega) (Nat.mul_le_mul_right _ h)

theorem AmountOutSpec.tradable {x y dx fee dy : Nat} (h : AmountOutSpec x y dx fee dy) :
    Tradable x y fee :=
  ⟨h.reserveIn_pos, h.reserveOut_pos, h.reserveIn_le, h.reserveOut_le, h.fee_lt⟩

/-- Errors of a swap whose input is too small to be paid for. -/
def CurveError.isDust : CurveError → Bool
  | .zeroAmount | .outputRoundsToZero => true
  | _ => false

/-- At tradable reserves an input within the cap is paid what the curve says, or is dust. -/
theorem Tradable.amountOut {x y dx fee : Nat} (h : Tradable x y fee) (hdx : dx ≤ MAX_RESERVE) :
    (∃ e, e.isDust ∧ amountOut x y dx fee = .error e ∧ (dx = 0 ∨ curveOut x y dx fee = 0)) ∨
      (0 < dx ∧ 0 < curveOut x y dx fee ∧
        amountOut x y dx fee = .ok (curveOut x y dx fee)) := by
  obtain ⟨hx, hy, hxle, hyle, hfee⟩ := h
  have hlt : curveOut x y dx fee < y := Market.floor_payout_lt (by omega) hy
  have hmax : MAX_RESERVE ≤ U64_MAX := by decide
  by_cases hzero : dx = 0
  · exact .inl ⟨.zeroAmount, rfl, if_pos hzero, .inl hzero⟩
  have heq : FedimintAmm.amountOut x y dx fee =
      if curveOut x y dx fee = 0 then .error .outputRoundsToZero
      else if curveOut x y dx fee ≥ y then .error .insufficientLiquidity
      else toU64 (curveOut x y dx fee) := by
    unfold FedimintAmm.amountOut
    rw [if_neg hzero, if_neg (by omega), if_neg (by omega), if_neg (by omega)]
    rfl
  rw [heq]
  by_cases hout : curveOut x y dx fee = 0
  · rw [if_pos hout]
    exact .inl ⟨.outputRoundsToZero, rfl, rfl, .inr hout⟩
  · rw [if_neg hout, if_neg (by omega)]
    exact .inr ⟨by omega, by omega, toU64_of_le (by omega)⟩

/-- Anything else refuses a swap for another reason than its size. -/
theorem not_isDust_of_amountOut {x y dx fee : Nat} (hdx : dx ≠ 0)
    (h : ¬ (Tradable x y fee ∧ dx ≤ MAX_RESERVE)) :
    ∃ e : CurveError, e.isDust = false ∧ amountOut x y dx fee = .error e := by
  unfold amountOut
  rw [if_neg hdx]
  by_cases hpos : x = 0 ∨ y = 0
  · exact ⟨.zeroReserve, rfl, if_pos hpos⟩
  rw [if_neg hpos]
  by_cases hcap : dx > MAX_RESERVE ∨ x > MAX_RESERVE ∨ y > MAX_RESERVE
  · exact ⟨.reserveCapExceeded, rfl, if_pos hcap⟩
  rw [if_neg hcap]
  by_cases hfee : fee ≥ 1000
  · exact ⟨.invalidFee, rfl, if_pos hfee⟩
  exact absurd ⟨⟨by omega, by omega, by omega, by omega, by omega⟩, by omega⟩ h

/-- The numerator and the denominator of a swap within the caps fit 128 bits. -/
theorem quotient_fits {x y dx : Nat} (fee : Nat) (hdx : dx ≤ MAX_RESERVE) (hx : x ≤ MAX_RESERVE)
    (hy : y ≤ MAX_RESERVE) :
    dx * (1000 - fee) * y < 2 ^ 128 ∧ x * 1000 + dx * (1000 - fee) < 2 ^ 128 := by
  have hin : dx * (1000 - fee) ≤ MAX_RESERVE * 1000 := Nat.mul_le_mul hdx (by omega)
  constructor
  · calc dx * (1000 - fee) * y ≤ MAX_RESERVE * 1000 * MAX_RESERVE := Nat.mul_le_mul hin hy
      _ < 2 ^ 128 := by decide
  · unfold MAX_RESERVE at *
    omega

/-- The output of a swap is below a capped reserve, so its narrowing cast never fails. -/
theorem amountOut_ne_overflow (x y dx fee : Nat) : amountOut x y dx fee ≠ .error .overflow := by
  intro h
  unfold amountOut at h
  split at h
  · cases h
  split at h
  · cases h
  split at h
  · cases h
  rename_i hcap
  split at h
  · cases h
  dsimp only at h
  split at h
  · cases h
  split at h
  · cases h
  rename_i hlt
  have hmax : MAX_RESERVE ≤ U64_MAX := by decide
  rw [toU64_of_le (by omega)] at h
  cases h

theorem AmountOutSpec.product_le {x y dx fee dy : Nat} (h : AmountOutSpec x y dx fee dy) :
    x * y ≤ (x + dx) * (y - dy) := by
  refine Market.product_le_of_swap (c := 1000) (a := dx * (1000 - fee)) (by omega) ?_
    (Nat.le_of_lt h.out_lt) ?_
  · rw [Nat.mul_comm 1000]
    exact Nat.mul_le_mul_left _ (by omega)
  · rw [h.out_eq]
    exact Nat.div_mul_le_self _ _

/-- **A swap never lowers the product of the reserves**, so the settlement's own product check
passes on every accepted quote. -/
theorem amountOut_product_le {x y dx fee dy : Nat} (h : amountOut x y dx fee = .ok dy) :
    kNonDecreasing x y (x + dx) (y - dy) = true :=
  decide_eq_true (amountOut_spec h).product_le

/-! ## Issue and redemption -/

/-- What an accepted issue guarantees. -/
structure MintSpec (x y s da db : Nat) (o : MintOutcome) : Prop where
  da_pos : 0 < da
  db_pos : 0 < db
  lo_le : x + da ≤ MAX_RESERVE
  hi_le : y + db ≤ MAX_RESERVE
  owner_pos : 0 < o.toOwner
  /-- Creation burns `MINIMUM_LIQUIDITY` of the new shares; later issues burn none. -/
  total_eq : o.newTotalShares = (if s = 0 then MINIMUM_LIQUIDITY else s) + o.toOwner
  creation : s = 0 → o.newTotalShares = Nat.sqrt (da * db)
  pro_rata : s ≠ 0 → 0 < x ∧ 0 < y ∧ o.toOwner * x ≤ da * s ∧ o.toOwner * y ≤ db * s

theorem min_floor_mul_le {a b s x y : Nat} :
    min (a * s / x) (b * s / y) * x ≤ a * s ∧ min (a * s / x) (b * s / y) * y ≤ b * s :=
  ⟨(Nat.mul_le_mul_right _ (Nat.min_le_left _ _)).trans (Nat.div_mul_le_self _ _),
    (Nat.mul_le_mul_right _ (Nat.min_le_right _ _)).trans (Nat.div_mul_le_self _ _)⟩

theorem mintShares_spec {x y s da db : Nat} {o : MintOutcome}
    (h : mintShares x y s da db = .ok o) : MintSpec x y s da db o := by
  unfold mintShares at h
  split at h
  · cases h
  rename_i h0
  split at h
  · cases h
  split at h
  · cases h
  rename_i hcap
  rw [Bool.or_eq_true, not_or, Bool.not_eq_true, Bool.not_eq_true] at hcap
  have hlo := cap_of_checkedAdd hcap.1
  have hhi := cap_of_checkedAdd hcap.2
  split at h
  · rename_i hs
    split at h
    · cases h
    rename_i minted hm
    have hm := toU64_ok hm
    split at h
    · cases h
    rename_i hmin
    have ho := Except.ok.inj h
    subst ho
    have htotal : minted = MINIMUM_LIQUIDITY + (minted - MINIMUM_LIQUIDITY) := by omega
    exact ⟨by omega, by omega, hlo, hhi, Nat.sub_pos_of_lt (by omega), by rw [if_pos hs]; exact htotal,
      fun _ => hm, fun hne => absurd hs hne⟩
  · rename_i hs
    split at h
    · cases h
    rename_i hxy
    dsimp only at h
    split at h
    · cases h
    rename_i minted hm
    have hm := toU64_ok hm
    split at h
    · cases h
    split at h
    · cases h
    rename_i total ht
    have ht := checkedAdd_eq_some ht
    cases h
    have hpr := min_floor_mul_le (a := da) (b := db) (s := s) (x := x) (y := y)
    rw [← hm] at hpr
    exact ⟨by omega, by omega, hlo, hhi, by dsimp only; omega, by rw [if_neg hs]; exact ht,
      fun h => absurd h hs, fun _ => ⟨by omega, by omega, hpr.1, hpr.2⟩⟩

theorem mintShares_backs {x y s da db : Nat} {o : MintOutcome} (hs : s ≠ 0)
    (h : mintShares x y s da db = .ok o) :
    Market.Backs ⟨x, y, s⟩ ⟨x + da, y + db, o.newTotalShares⟩ := by
  have hspec := mintShares_spec h
  have htotal := hspec.total_eq
  rw [if_neg hs] at htotal
  rw [htotal]
  obtain ⟨-, -, hx, hy⟩ := hspec.pro_rata hs
  exact Market.backs_of_mint hx hy

theorem mintShares_worth {x y s da db : Nat} {o : MintOutcome} (hs : s ≠ 0)
    (h : mintShares x y s da db = .ok o) :
    Market.Worth ⟨x, y, s⟩ ⟨x + da, y + db, o.newTotalShares⟩ :=
  (mintShares_backs hs h).worth

/-- The shares issued are worth at most the deposit, on each leg of the pool it leaves; a pool
without shares is empty. -/
theorem MintSpec.issue_le {x y s da db : Nat} {o : MintOutcome} (h : MintSpec x y s da db o)
    (hempty : s = 0 → x = 0 ∧ y = 0) :
    (x + da) * o.toOwner ≤ da * o.newTotalShares ∧
      (y + db) * o.toOwner ≤ db * o.newTotalShares := by
  have htotal := h.total_eq
  by_cases hs : s = 0
  · obtain ⟨rfl, rfl⟩ := hempty hs
    rw [if_pos hs] at htotal
    rw [Nat.zero_add, Nat.zero_add]
    exact ⟨Nat.mul_le_mul_left _ (by omega), Nat.mul_le_mul_left _ (by omega)⟩
  · obtain ⟨-, -, hx, hy⟩ := h.pro_rata hs
    rw [if_neg hs] at htotal
    rw [htotal, Nat.add_mul, Nat.add_mul, Nat.mul_add, Nat.mul_add, Nat.mul_comm x, Nat.mul_comm y]
    exact ⟨Nat.add_le_add_right hx _, Nat.add_le_add_right hy _⟩

/-- What an accepted redemption guarantees. -/
structure BurnSpec (x y s shares : Nat) (o : BurnOutcome) : Prop where
  shares_pos : 0 < shares
  shares_le : shares ≤ s
  da_eq : o.da = x * shares / s
  db_eq : o.db = y * shares / s
  total_eq : o.newTotalShares = s - shares
  paid : ¬(o.da = 0 ∧ o.db = 0)

theorem burnShares_spec {x y s shares : Nat} {o : BurnOutcome}
    (h : burnShares x y s shares = .ok o) : BurnSpec x y s shares o := by
  unfold burnShares at h
  split at h
  · cases h
  rename_i h0
  split at h
  · cases h
  rename_i hle
  split at h
  · cases h
  split at h
  · cases h
  rename_i da hda
  have hda := toU64_ok hda
  split at h
  · cases h
  rename_i db hdb
  have hdb := toU64_ok hdb
  split at h
  · cases h
  rename_i hpaid
  cases h
  exact ⟨by omega, by omega, hda, hdb, rfl, hpaid⟩

theorem BurnSpec.backs {x y s shares : Nat} {o : BurnOutcome} (h : BurnSpec x y s shares o) :
    Market.Backs ⟨x, y, s⟩ ⟨x - o.da, y - o.db, o.newTotalShares⟩ := by
  rw [h.total_eq, h.da_eq, h.db_eq]
  exact Market.backs_of_burn (Nat.div_mul_le_self _ _) (Nat.div_mul_le_self _ _)

theorem burnShares_worth {x y s shares : Nat} {o : BurnOutcome}
    (h : burnShares x y s shares = .ok o) :
    Market.Worth ⟨x, y, s⟩ ⟨x - o.da, y - o.db, o.newTotalShares⟩ :=
  (burnShares_spec h).backs.worth

/-- A redemption pays at most the reserves. -/
theorem BurnSpec.le {x y s shares : Nat} {o : BurnOutcome} (h : BurnSpec x y s shares o) :
    o.da ≤ x ∧ o.db ≤ y := by
  have hle : ∀ r, r * shares / s ≤ r := fun r =>
    Nat.div_le_of_le_mul (by rw [Nat.mul_comm s]; exact Nat.mul_le_mul_left r h.shares_le)
  rw [h.da_eq, h.db_eq]
  exact ⟨hle x, hle y⟩

/-- Shares that some leg pays for are redeemed, reserves within the cap. -/
theorem burnShares_of_paid {x y s shares : Nat} (hx : x ≤ MAX_RESERVE) (hy : y ≤ MAX_RESERVE)
    (hpos : 0 < shares) (hle : shares ≤ s)
    (hpaid : ¬(x * shares / s = 0 ∧ y * shares / s = 0)) :
    burnShares x y s shares = .ok ⟨x * shares / s, y * shares / s, s - shares⟩ := by
  have hfit : ∀ r, r ≤ MAX_RESERVE → toU64 (r * shares / s) = .ok (r * shares / s) := by
    intro r hr
    have hdiv : r * shares / s ≤ r :=
      Nat.div_le_of_le_mul (by rw [Nat.mul_comm s]; exact Nat.mul_le_mul_left r hle)
    have hmax : MAX_RESERVE ≤ U64_MAX := by decide
    unfold toU64
    rw [if_pos (by omega)]
  unfold burnShares
  rw [if_neg (by omega), if_neg (by omega), if_neg (by omega), hfit x hx]
  dsimp only
  rw [hfit y hy]
  dsimp only
  rw [if_neg hpaid]

/-- A redemption that leaves shares outstanding leaves both reserves non-empty. -/
theorem BurnSpec.leaves {x y s shares : Nat} {o : BurnOutcome} (h : BurnSpec x y s shares o)
    (hx : 0 < x) (hy : 0 < y) (hlt : shares < s) : o.da < x ∧ o.db < y := by
  rw [h.da_eq, h.db_eq]
  exact ⟨Market.floor_lt_of_lt hx hlt, Market.floor_lt_of_lt hy hlt⟩

/-- **No issue overflows** while the reserves respect the cap and the shares their square bound:
the narrowing cast and the checked addition of the source never fail there. -/
theorem mintShares_ne_overflow {x y s da db : Nat} (hx : x ≤ MAX_RESERVE) (hy : y ≤ MAX_RESERVE)
    (hs : s ^ 2 ≤ x * y) : mintShares x y s da db ≠ .error .overflow := by
  intro h
  have hle : s ≤ MAX_RESERVE := by
    have h2 : s ^ 2 ≤ MAX_RESERVE ^ 2 := by
      rw [Nat.pow_two MAX_RESERVE]
      exact hs.trans (Nat.mul_le_mul hx hy)
    exact (Nat.pow_le_pow_iff_left (by omega)).1 h2
  have hmax : MAX_RESERVE + MAX_RESERVE ≤ U64_MAX := by decide
  unfold mintShares at h
  split at h
  · cases h
  split at h
  · cases h
  rename_i hcap
  have hda : da ≤ MAX_RESERVE := by omega
  have hdb : db ≤ MAX_RESERVE := by omega
  split at h
  · cases h
  split at h
  · -- creation: the root of a product of two capped amounts is capped
    have hroot : Nat.sqrt (da * db) ≤ MAX_RESERVE :=
      (Nat.sqrt_le_sqrt (Nat.mul_le_mul hda hdb)).trans_eq (Nat.sqrt_eq _)
    rw [toU64_of_le (hroot.trans (by omega))] at h
    dsimp only at h
    split at h <;> cases h
  · split at h
    · cases h
    rename_i hxy
    dsimp only at h
    have hpr := min_floor_mul_le (a := da) (b := db) (s := s) (x := x) (y := y)
    have hminted : min (da * s / x) (db * s / y) ≤ MAX_RESERVE :=
      Market.min_floor_le hs (Nat.mul_pos (by omega) (by omega)) hda hdb hpr.1 hpr.2
    rw [toU64_of_le (by omega)] at h
    dsimp only at h
    split at h
    · cases h
    rw [checkedAdd_of_le (by omega)] at h
    cases h

end Experimint.FedimintAmm
