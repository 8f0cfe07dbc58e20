import Experimint.Amm.Invariant

/-!
# Quotes and settlement

`quote` is the endpoint that tells a client what a swap would pay.  It and settlement share
`quoteSwap`; settlement then checks the slippage bound, the product of the reserves and the
recipient's balance.

* `quoteSwap_some_iff` — a slippage bound only adds its own comparison.
* `swap_eq_of_quote` — settlement, given the quote: the product check never rejects, so what is left
  is the recipient's balance.
* `quote_is_settlement` — a quoted swap settles for the quoted output, and an error settles not.
-/

set_option autoImplicit false

namespace Experimint.FedimintAmm

/-! ## The endpoint -/

def AmmOutputError.text : AmmOutputError → String
  | .unknownVariant => "unknown output variant"
  | .invalidProofOfPossession => "invalid proof of possession for the named key"
  | .identicalUnits => "unit_in and unit_out must differ"
  | .unknownUnit => "unit not in the federation's allowlist"
  | .noSuchPool => "no such pool"
  | .belowMinSwapIn => "amount_in below the unit's min_swap_in"
  | .slippageExceeded => "output below min_out, or shares below min_shares"
  | .reserveCapExceeded => "would exceed MAX_RESERVE"
  | .kInvariantViolated => "k invariant violated"
  | .curve message => "arithmetic error: " ++ message

/-- How much worse than the spot price a swap is paid. -/
def priceImpactPerMille (reserveIn reserveOut amountIn amountOut : Nat) : Nat :=
  let denominator := amountIn * reserveOut
  if denominator = 0 then 0
  else 1000 - min (1000 * amountOut * reserveIn / denominator) U64_MAX

inductive QuoteError where
  | badRequest (message : String)
  | notFound (message : String)
deriving DecidableEq

structure QuoteResponse where
  amountOut : Nat
  priceImpactPerMille : Nat
deriving DecidableEq

def quote (a : Amm) (db : Db) (unitIn unitOut : AmountUnit) (amountIn : Nat) :
    Except QuoteError QuoteResponse :=
  match PoolId.new unitIn unitOut with
  | none => .error (.badRequest "unit_in and unit_out must differ")
  | some poolId =>
    match db.pool.get? poolId with
    | none => .error (.notFound "no such pool")
    | some pool =>
      match quoteSwap a db pool poolId unitIn amountIn none with
      | .error e => .error (.badRequest e.text)
      | .ok q => .ok ⟨q.dy, priceImpactPerMille q.reserveIn q.reserveOut amountIn q.dy⟩

section Settlement

variable {a : Amm} {db : Db} {unitIn unitOut : AmountUnit} {dx : Nat}

theorem quoteSwap_some_iff {p : Pool} {id : PoolId} {minOut : Nat} {q : SwapQuote} :
    quoteSwap a db p id unitIn dx (some minOut) = .ok q ↔
      quoteSwap a db p id unitIn dx none = .ok q ∧ minOut ≤ q.dy := by
  unfold quoteSwap
  split
  · simp
  dsimp only
  split
  · simp
  split
  · simp
  split
  · simp
  split
  · simp
  rename_i dy hdy
  rw [if_neg (show ¬ (none : Option Nat).any (fun m => decide (dy < m)) = true by simp)]
  by_cases hmin : minOut ≤ dy
  · rw [if_neg (by simpa using hmin)]
    split
    · simp
    split
    · simp
    · refine ⟨fun h => ⟨h, ?_⟩, fun h => h.1⟩
      cases h
      exact hmin
  · rw [if_pos (by simpa using hmin)]
    split
    · simp
    split
    · simp
    · constructor
      · intro h
        cases h
      · rintro ⟨h, hle⟩
        cases h
        exact absurd hle hmin

/-- Amount a recipient already holds. -/
def heldBalance (db : Db) (recipient : PublicKey) (unit : AmountUnit) : Nat :=
  ((db.balance.get? (toLex (recipient, unit))).map (·.amount)).getD 0

theorem creditedBalance_eq {recipient : PublicKey} {dy : Nat} (hdy : dy ≤ MAX_RESERVE) :
    creditedBalance (db.balance.get? (toLex (recipient, unitOut))) dy =
      if heldBalance db recipient unitOut + dy ≤ MAX_RESERVE then
        .ok (heldBalance db recipient unitOut + dy)
      else .error .reserveCapExceeded := by
  have hmax : MAX_RESERVE ≤ U64_MAX := by decide
  unfold heldBalance creditedBalance
  cases db.balance.get? (toLex (recipient, unitOut)) with
  | none =>
    change Except.ok dy = if 0 + dy ≤ MAX_RESERVE then Except.ok (0 + dy) else _
    rw [Nat.zero_add, if_pos hdy]
  | some entry =>
    change _ = if entry.amount + dy ≤ MAX_RESERVE then Except.ok (entry.amount + dy) else _
    by_cases hle : entry.amount + dy ≤ MAX_RESERVE
    · rw [if_pos hle]
      dsimp only
      rw [checkedAdd_of_le (Nat.le_trans hle hmax)]
      exact if_neg (Nat.not_lt.2 hle)
    · rw [if_neg hle]
      dsimp only [checkedAdd]
      split
      · rfl
      · rename_i credited hcredited
        obtain rfl := checkedAdd_eq_some hcredited
        exact if_pos (Nat.not_le.1 hle)

theorem kNonDecreasing_of_quote {p : Pool} {id : PoolId} {minOut : Option Nat} {q : SwapQuote}
    (hq : quoteSwap a db p id unitIn dx minOut = .ok q) :
    kNonDecreasing q.reserveIn q.reserveOut q.reserveInNew (q.reserveOut - q.dy) = true := by
  obtain ⟨-, -, -, hspec, hnew, -⟩ := quoteSwap_ok hq
  rw [hnew]
  exact decide_eq_true hspec.product_le

/-- Settlement of a quoted swap whose bound is met: only the recipient's balance is left to check.
-/
theorem swap_eq_of_quote {p : Pool} {id : PoolId} {q : SwapQuote} {minOut : Nat}
    (hid : PoolId.new unitIn unitOut = some id) (hpool : db.pool.get? id = some p)
    (hq : quoteSwap a db p id unitIn dx none = .ok q) (hmin : minOut ≤ q.dy)
    (recipient : PublicKey) (tweak : Bytes) :
    swap a db unitIn unitOut dx minOut recipient tweak =
      if heldBalance db recipient unitOut + q.dy ≤ MAX_RESERVE then
        (.ok ⟨Amounts.newCustom unitIn dx, Amounts.zero⟩,
          { db with
            pool := db.pool.insert id (p.swapped q.inIsLo dx q.dy)
            balance := db.balance.insert (toLex (recipient, unitOut))
              ⟨heldBalance db recipient unitOut + q.dy, tweak⟩ })
      else (.error .reserveCapExceeded, db) := by
  have hsome := quoteSwap_some_iff.2 ⟨hq, hmin⟩
  obtain ⟨-, -, -, hspec, -, -⟩ := quoteSwap_ok hq
  have hdy : q.dy ≤ MAX_RESERVE := Nat.le_trans (Nat.le_of_lt hspec.out_lt) hspec.reserveOut_le
  unfold swap
  rw [hid]
  dsimp only
  rw [hpool]
  dsimp only
  rw [hsome]
  dsimp only
  rw [kNonDecreasing_of_quote hq, creditedBalance_eq hdy, quoteSwap_swapped hq]
  by_cases hle : heldBalance db recipient unitOut + q.dy ≤ MAX_RESERVE
  · rw [if_pos hle, if_pos hle]
    rfl
  · rw [if_neg hle, if_neg hle]
    rfl

/-- Settlement needs a quote and its bound. -/
theorem swap_rejected {minOut : Nat}
    (h : ∀ id p q, PoolId.new unitIn unitOut = some id → db.pool.get? id = some p →
      quoteSwap a db p id unitIn dx none = .ok q → q.dy < minOut)
    (recipient : PublicKey) (tweak : Bytes) :
    ∃ e, swap a db unitIn unitOut dx minOut recipient tweak = (.error e, db) := by
  unfold swap
  cases hid : PoolId.new unitIn unitOut with
  | none => exact ⟨_, rfl⟩
  | some id =>
    dsimp only
    cases hpool : db.pool.get? id with
    | none => exact ⟨_, rfl⟩
    | some p =>
      dsimp only
      cases hq : quoteSwap a db p id unitIn dx (some minOut) with
      | error e => exact ⟨_, rfl⟩
      | ok q =>
        obtain ⟨hnone, hle⟩ := quoteSwap_some_iff.1 hq
        exact absurd hle (Nat.not_le.2 (h id p q hid hpool hnone))

/-- What an accepted swap has done. -/
theorem swap_eq_ok {db' : Db} {minOut : Nat} {recipient : PublicKey} {tweak : Bytes}
    {t : TransactionItemAmounts}
    (h : swap a db unitIn unitOut dx minOut recipient tweak = (.ok t, db')) :
    ∃ id p q, PoolId.new unitIn unitOut = some id ∧ db.pool.get? id = some p ∧
      quoteSwap a db p id unitIn dx none = .ok q ∧ minOut ≤ q.dy ∧
      db' = { db with
        pool := db.pool.insert id (p.swapped q.inIsLo dx q.dy)
        balance := db.balance.insert (toLex (recipient, unitOut))
          ⟨heldBalance db recipient unitOut + q.dy, tweak⟩ } := by
  by_contra hnone
  obtain ⟨e, he⟩ : ∃ e, swap a db unitIn unitOut dx minOut recipient tweak = (.error e, db) := by
    refine swap_rejected ?_ recipient tweak
    intro id p q hid hpool hq
    by_contra hmin
    refine hnone ⟨id, p, q, hid, hpool, hq, Nat.not_lt.1 hmin, ?_⟩
    rw [swap_eq_of_quote hid hpool hq (Nat.not_lt.1 hmin)] at h
    split at h
    · exact (Prod.ext_iff.1 h).2.symm
    · cases h
  rw [he] at h
  cases h

/-- What a quote has admitted. -/
theorem quoteSwap_admitted {p : Pool} {id : PoolId} {minOut : Option Nat} {q : SwapQuote}
    (h : quoteSwap a db p id unitIn dx minOut = .ok q) :
    ∃ params unitOut, a.cfg.units.get? unitIn = some params ∧ id.other unitIn = some unitOut ∧
      a.cfg.units.contains unitOut = true ∧ params.minSwapIn ≤ dx := by
  unfold quoteSwap at h
  split at h
  · cases h
  rename_i params hparams
  dsimp only at h
  split at h
  · cases h
  rename_i unitOut hother
  split at h
  · cases h
  rename_i hcontains
  split at h
  · cases h
  rename_i hmin
  exact ⟨params, unitOut, hparams, hother, by simpa using hcontains, Nat.not_lt.1 hmin⟩

/-- What a response of the endpoint has computed. -/
theorem quote_eq_ok {r : QuoteResponse} (h : quote a db unitIn unitOut dx = .ok r) :
    ∃ id p q, PoolId.new unitIn unitOut = some id ∧ db.pool.get? id = some p ∧
      quoteSwap a db p id unitIn dx none = .ok q ∧ r.amountOut = q.dy := by
  unfold quote at h
  split at h
  · cases h
  rename_i id hid
  split at h
  · cases h
  rename_i p hpool
  split at h
  · cases h
  rename_i q hq
  cases h
  exact ⟨id, p, q, hid, hpool, hq, rfl⟩

/-- An error of the endpoint leaves no quote. -/
theorem quote_eq_error {e : QuoteError} (h : quote a db unitIn unitOut dx = .error e) (id : PoolId)
    (p : Pool) (q : SwapQuote) (hid : PoolId.new unitIn unitOut = some id)
    (hpool : db.pool.get? id = some p) : quoteSwap a db p id unitIn dx none ≠ .ok q := by
  intro hq
  unfold quote at h
  rw [hid] at h
  dsimp only at h
  rw [hpool] at h
  dsimp only at h
  rw [hq] at h
  cases h

end Settlement

/-- **A quote is what settlement pays.**  A swap with a valid proof of possession, on the state it
was quoted on, settles for exactly the quoted output if its bound is at most that and the
recipient's balance stays within `MAX_RESERVE`; it is rejected otherwise, and for any bound if the
quote is an error.  The product check passes on every quote. -/
theorem quote_is_settlement (a : Amm) (db : Db) (unitIn unitOut : AmountUnit) (dx : Nat) :
    (∀ r, quote a db unitIn unitOut dx = .ok r →
      ∀ (minOut : Nat) (recipient : PublicKey) (tweak pop : Bytes),
        (AmmOutput.swapV0 unitIn unitOut dx minOut recipient tweak pop).verifyPop a.pop = true →
        (minOut ≤ r.amountOut →
          heldBalance db recipient unitOut + r.amountOut ≤ MAX_RESERVE →
          ∃ t db', processOutput a db (.swapV0 unitIn unitOut dx minOut recipient tweak pop) =
              (.ok t, db') ∧
            heldBalance db' recipient unitOut =
              heldBalance db recipient unitOut + r.amountOut) ∧
        (minOut ≤ r.amountOut →
          MAX_RESERVE < heldBalance db recipient unitOut + r.amountOut →
          processOutput a db (.swapV0 unitIn unitOut dx minOut recipient tweak pop) =
            (.error .reserveCapExceeded, db)) ∧
        (r.amountOut < minOut →
          ∃ e, processOutput a db (.swapV0 unitIn unitOut dx minOut recipient tweak pop) =
            (.error e, db))) ∧
      (∀ e, quote a db unitIn unitOut dx = .error e →
        ∀ (minOut : Nat) (recipient : PublicKey) (tweak pop : Bytes),
          ∃ e', processOutput a db (.swapV0 unitIn unitOut dx minOut recipient tweak pop) =
            (.error e', db)) ∧
      ∀ (id : PoolId) (p : Pool) (q : SwapQuote) (minOut : Option Nat),
        quoteSwap a db p id unitIn dx minOut = .ok q →
        kNonDecreasing q.reserveIn q.reserveOut q.reserveInNew (q.reserveOut - q.dy) = true := by
  refine ⟨?_, ?_, fun id p q minOut hq => kNonDecreasing_of_quote hq⟩
  · intro r hr minOut recipient tweak pop hpop
    obtain ⟨id, p, q, hid, hpool, hq, hout⟩ := quote_eq_ok hr
    rw [hout]
    unfold processOutput
    rw [hpop]
    dsimp only [Bool.not_true]
    rw [if_neg (by simp)]
    refine ⟨?_, ?_, ?_⟩
    · intro hmin hle
      rw [swap_eq_of_quote hid hpool hq hmin, if_pos hle]
      refine ⟨_, _, rfl, ?_⟩
      rw [heldBalance, Table.get?_insert_self]
      rfl
    · intro hmin hover
      rw [swap_eq_of_quote hid hpool hq hmin, if_neg (Nat.not_le.2 hover)]
    · intro hmin
      refine swap_rejected ?_ recipient tweak
      intro id' p' q' hid' hpool' hq'
      rw [hid] at hid'
      cases hid'
      rw [hpool] at hpool'
      cases hpool'
      rw [hq] at hq'
      cases hq'
      exact hmin
  · intro e he minOut recipient tweak pop
    unfold processOutput
    split
    · exact ⟨_, rfl⟩
    · refine swap_rejected ?_ recipient tweak
      intro id p q hid hpool hq
      exact absurd hq (quote_eq_error he id p q hid hpool)

/-- A quote, the swap it stands for, and the two reasons for which a swap at that quote fails. -/
theorem quote_is_settlement_sample :
    ∃ r, quote sampleAmm sampleDb 0 1 500 = .ok r ∧
      (∃ t db', processOutput sampleAmm sampleDb
          (.swapV0 0 1 500 r.amountOut sampleKey [] (List.replicate 64 0)) = (.ok t, db') ∧
        heldBalance db' sampleKey 1 = heldBalance sampleDb sampleKey 1 + r.amountOut) ∧
      (∃ e, processOutput sampleAmm sampleDb
        (.swapV0 0 1 500 (r.amountOut + 1) sampleKey [] (List.replicate 64 0)) =
          (.error e, sampleDb)) ∧
      ∃ e, processOutput sampleAmm sampleDb
        (.swapV0 2 1 500 0 sampleKey [] (List.replicate 64 0)) = (.error e, sampleDb) := by
  obtain ⟨hok, -, -⟩ := quote_is_settlement sampleAmm sampleDb 0 1 500
  obtain ⟨-, herror, -⟩ := quote_is_settlement sampleAmm sampleDb 2 1 500
  cases hquote : quote sampleAmm sampleDb 0 1 500 with
  | error e =>
    have hnone : (quote sampleAmm sampleDb 0 1 500).toOption.isSome = true := by decide +kernel
    rw [hquote] at hnone
    cases hnone
  | ok r =>
    have hpop : ∀ minOut, (AmmOutput.swapV0 0 1 500 minOut sampleKey []
        (List.replicate 64 0)).verifyPop sampleAmm.pop = true := fun _ => rfl
    have hroom : heldBalance sampleDb sampleKey 1 + r.amountOut ≤ MAX_RESERVE := by
      have hall : ((quote sampleAmm sampleDb 0 1 500).toOption.all fun r =>
        decide (heldBalance sampleDb sampleKey 1 + r.amountOut ≤ MAX_RESERVE)) = true := by
        decide +kernel
      rw [hquote] at hall
      exact of_decide_eq_true hall
    refine ⟨r, rfl, ?_, ?_, ?_⟩
    · exact (hok r hquote r.amountOut sampleKey [] (List.replicate 64 0) (hpop _)).1 le_rfl hroom
    · exact (hok r hquote (r.amountOut + 1) sampleKey [] (List.replicate 64 0) (hpop _)).2.2
        (Nat.lt_succ_self _)
    · cases hnone : quote sampleAmm sampleDb 2 1 500 with
      | error e => exact herror e hnone 0 sampleKey [] (List.replicate 64 0)
      | ok r =>
        have hfails : (quote sampleAmm sampleDb 2 1 500).toOption.isNone = true := by
          decide +kernel
        rw [hnone] at hfails
        cases hfails

end Experimint.FedimintAmm
