import Mathlib.Tactic.Ring
import Mathlib.Tactic.GCongr
import Mathlib.Algebra.Order.Ring.Nat

/-!
# Constant-product markets

Two reserves and the shares issued against them, with the order by reserve product per squared
share, cleared of denominators.  The lemmas say what a rounded trade, issue or redemption does in
that order; nothing here depends on how the rounded quantity was computed.

* `Market.worth_of_swap`, `backs_of_mint`, `backs_of_burn` — one rounded operation.
* `Market.Backs.trans`, `floor_share_mono`, `redeemed_le` — what a holder of shares can count on.
* `Market.floor_payout_mono` — the floored payout of a swap grows with its input.
* `Market.Worth.trans` — operations compose as long as shares stay outstanding.
* `Market.Worth.sq_le` — the square of the shares stays below the reserve product.
-/

set_option autoImplicit false

namespace Experimint

/-- Reserves of a two-sided market and the shares outstanding against them. -/
structure Market where
  lo : Nat
  hi : Nat
  shares : Nat

namespace Market

/-- `q` backs a share by at least the reserve product that `p` does. -/
def Worth (p q : Market) : Prop := p.lo * p.hi * q.shares ^ 2 ≤ q.lo * q.hi * p.shares ^ 2

theorem Worth.refl (p : Market) : Worth p p := Nat.le_refl _

/-- `q` backs a share by at least what `p` does, on each leg. -/
structure Backs (p q : Market) : Prop where
  lo : p.lo * q.shares ≤ q.lo * p.shares
  hi : p.hi * q.shares ≤ q.hi * p.shares

theorem Backs.refl (p : Market) : Backs p p := ⟨Nat.le_refl _, Nat.le_refl _⟩

/-- Cross-multiplied fractions compose through a positive denominator. -/
theorem cross_trans {a b c r s t : Nat} (hs : 0 < s) (h1 : a * s ≤ b * r) (h2 : b * t ≤ c * s) :
    a * t ≤ c * r := by
  refine Nat.le_of_mul_le_mul_right ?_ hs
  calc a * t * s = a * s * t := by ring
    _ ≤ b * r * t := Nat.mul_le_mul_right t h1
    _ = b * t * r := by ring
    _ ≤ c * s * r := Nat.mul_le_mul_right r h2
    _ = c * r * s := by ring

theorem Backs.trans {p q r : Market} (hpos : 0 < q.shares) (h1 : Backs p q) (h2 : Backs q r) :
    Backs p r :=
  ⟨cross_trans hpos h1.lo h2.lo, cross_trans hpos h1.hi h2.hi⟩

/-- The floored payout of any number of shares follows a leg's backing. -/
theorem floor_share_mono {x x' s s' : Nat} (hs' : 0 < s') (h : x * s' ≤ x' * s) (n : Nat) :
    x * n / s ≤ x' * n / s' := by
  rw [Nat.le_div_iff_mul_le hs']
  rcases Nat.eq_zero_or_pos s with rfl | hs
  · rw [Nat.div_zero, Nat.zero_mul]
    exact Nat.zero_le _
  · have hle : x * n / s * s ≤ x * n := Nat.div_mul_le_self _ _
    refine Nat.le_of_mul_le_mul_right ?_ hs
    calc x * n / s * s' * s = x * n / s * s * s' := by ring
      _ ≤ x * n * s' := Nat.mul_le_mul_right s' hle
      _ = x * s' * n := by ring
      _ ≤ x' * s * n := Nat.mul_le_mul_right n h
      _ = x' * n * s := by ring

/-- Raising each leg per share raises the product per squared share. -/
theorem Backs.worth {p q : Market} (h : Backs p q) : Worth p q := by
  unfold Worth
  calc p.lo * p.hi * q.shares ^ 2 = p.lo * q.shares * (p.hi * q.shares) := by ring
    _ ≤ q.lo * p.shares * (q.hi * p.shares) := Nat.mul_le_mul h.lo h.hi
    _ = q.lo * q.hi * p.shares ^ 2 := by ring

theorem Worth.trans {p q r : Market} (hpos : 0 < q.shares) (h1 : Worth p q) (h2 : Worth q r) :
    Worth p r := by
  unfold Worth at *
  have hq : 0 < q.shares ^ 2 := Nat.pow_pos hpos
  refine Nat.le_of_mul_le_mul_right ?_ hq
  calc p.lo * p.hi * r.shares ^ 2 * q.shares ^ 2
      = p.lo * p.hi * q.shares ^ 2 * r.shares ^ 2 := by ring
    _ ≤ q.lo * q.hi * p.shares ^ 2 * r.shares ^ 2 := Nat.mul_le_mul_right _ h1
    _ = q.lo * q.hi * r.shares ^ 2 * p.shares ^ 2 := by ring
    _ ≤ r.lo * r.hi * q.shares ^ 2 * p.shares ^ 2 := Nat.mul_le_mul_right _ h2
    _ = r.lo * r.hi * p.shares ^ 2 * q.shares ^ 2 := by ring

/-- The bound `shares² ≤ lo · hi` is inherited along the order. -/
theorem Worth.sq_le {p q : Market} (hlo : 0 < p.lo) (hhi : 0 < p.hi)
    (hp : p.shares ^ 2 ≤ p.lo * p.hi) (h : Worth p q) : q.shares ^ 2 ≤ q.lo * q.hi := by
  unfold Worth at h
  have hpos : 0 < p.lo * p.hi := Nat.mul_pos hlo hhi
  refine Nat.le_of_mul_le_mul_left ?_ hpos
  calc p.lo * p.hi * q.shares ^ 2 ≤ q.lo * q.hi * p.shares ^ 2 := h
    _ ≤ q.lo * q.hi * (p.lo * p.hi) := Nat.mul_le_mul_left _ hp
    _ = p.lo * p.hi * (q.lo * q.hi) := by ring

/-! ## One rounded operation -/

/-- A payout of at most `a · y / (c · x + a)` for an effective input `a ≤ c · dx` never lowers the
product of the reserves. -/
theorem product_le_of_swap {x y dx dy a c : Nat} (hc : 0 < c) (ha : a ≤ c * dx) (hdy : dy ≤ y)
    (h : dy * (x * c + a) ≤ a * y) : x * y ≤ (x + dx) * (y - dy) := by
  obtain ⟨k, rfl⟩ : ∃ k, y = dy + k := ⟨y - dy, by omega⟩
  rw [Nat.add_sub_cancel_left]
  have h1 : c * (x * dy) ≤ a * k := by
    have : c * (x * dy) + a * dy ≤ a * k + a * dy := by
      calc c * (x * dy) + a * dy = dy * (x * c + a) := by ring
        _ ≤ a * (dy + k) := h
        _ = a * k + a * dy := by ring
    omega
  have h2 : c * (x * dy) ≤ c * (dx * k) := by
    calc c * (x * dy) ≤ a * k := h1
      _ ≤ c * dx * k := Nat.mul_le_mul_right _ ha
      _ = c * (dx * k) := by ring
  have h3 : x * dy ≤ dx * k := Nat.le_of_mul_le_mul_left h2 hc
  calc x * (dy + k) = x * k + x * dy := by ring
    _ ≤ x * k + dx * k := Nat.add_le_add_left h3 _
    _ = (x + dx) * k := by ring

/-- The floored payout leaves something of the output reserve. -/
theorem floor_payout_lt {a b y : Nat} (hb : 0 < b) (hy : 0 < y) : a * y / (b + a) < y := by
  rw [Nat.div_lt_iff_lt_mul (by omega), Nat.mul_comm a y]
  exact Nat.mul_lt_mul_of_pos_left (by omega) hy

/-- A larger effective input is paid at least as much. -/
theorem floor_payout_mono {a a' b y : Nat} (hb : 0 < b) (h : a ≤ a') :
    a * y / (b + a) ≤ a' * y / (b + a') := by
  obtain ⟨k, rfl⟩ : ∃ k, a' = a + k := ⟨a' - a, by omega⟩
  have hle : a * y / (b + a) * (b + a) ≤ a * y := Nat.div_mul_le_self _ _
  have hy : a * y / (b + a) ≤ y := by
    refine Nat.div_le_of_le_mul ?_
    exact Nat.mul_le_mul_right y (by omega)
  rw [Nat.le_div_iff_mul_le (by omega)]
  calc a * y / (b + a) * (b + (a + k))
      = a * y / (b + a) * (b + a) + a * y / (b + a) * k := by ring
    _ ≤ a * y + y * k := Nat.add_le_add hle (Nat.mul_le_mul_right k hy)
    _ = (a + k) * y := by ring

/-- One more piece of a split trade.  `a` and `b` are the scaled input reserve after the earlier
pieces with their fees and without; the fee that stays in the pool only makes the next piece dearer.
-/
theorem split_step {a b g k y y' : Nat} (hba : b ≤ a) (hy : y' ≤ y) (hkept : k ≤ b * y)
    (hpiece : a * y ≤ y' * (a + g)) : k ≤ (b + g) * y' := by
  obtain ⟨d, rfl⟩ := Nat.le.dest hy
  have hgain : a * d ≤ y' * g := by
    have : a * y' + a * d ≤ a * y' + y' * g := by
      calc a * y' + a * d = a * (y' + d) := by ring
        _ ≤ y' * (a + g) := hpiece
        _ = a * y' + y' * g := by ring
    omega
  calc k ≤ b * (y' + d) := hkept
    _ = b * y' + b * d := by ring
    _ ≤ b * y' + a * d := Nat.add_le_add_left (Nat.mul_le_mul_right _ hba) _
    _ ≤ b * y' + y' * g := Nat.add_le_add_left hgain _
    _ = (b + g) * y' := by ring

/-- What a floored payout leaves. -/
theorem floor_payout_leaves (a b y : Nat) :
    b * y ≤ (y - a * y / (b + a)) * (b + a) := by
  have hle : a * y / (b + a) * (b + a) ≤ a * y := Nat.div_mul_le_self _ _
  have hsplit : y * (b + a) = b * y + a * y := by ring
  rw [Nat.sub_mul]
  omega

/-- A payout that leaves `y'` is at most the floored one if the product allows it. -/
theorem le_floor_payout {a b y y' : Nat} (hb : 0 < b) (h : b * y ≤ (b + a) * y') :
    y - y' ≤ a * y / (b + a) := by
  rw [Nat.le_div_iff_mul_le (by omega), Nat.sub_mul]
  have hsplit : y * (b + a) = b * y + a * y := by ring
  have hcomm : y' * (b + a) = (b + a) * y' := Nat.mul_comm _ _
  omega

theorem worth_of_swap {p q : Market} (hs : q.shares = p.shares)
    (h : p.lo * p.hi ≤ q.lo * q.hi) : Worth p q := by
  unfold Worth
  rw [hs]
  exact Nat.mul_le_mul_right _ h

/-- Shares issued at most pro rata to both legs. -/
theorem backs_of_mint {x y s dx dy m : Nat} (hx : m * x ≤ dx * s) (hy : m * y ≤ dy * s) :
    Backs ⟨x, y, s⟩ ⟨x + dx, y + dy, s + m⟩ := by
  have leg : ∀ r d, m * r ≤ d * s → r * (s + m) ≤ (r + d) * s := fun r d h => by
    calc r * (s + m) = r * s + m * r := by ring
      _ ≤ r * s + d * s := Nat.add_le_add_left h _
      _ = (r + d) * s := by ring
  exact ⟨leg x dx hx, leg y dy hy⟩

/-- Legs paid out at most pro rata to the shares redeemed. -/
theorem backs_of_burn {x y s dx dy m : Nat} (hx : dx * s ≤ x * m) (hy : dy * s ≤ y * m) :
    Backs ⟨x, y, s⟩ ⟨x - dx, y - dy, s - m⟩ := by
  have leg : ∀ r d, d * s ≤ r * m → r * (s - m) ≤ (r - d) * s := fun r d h => by
    rw [Nat.mul_sub, Nat.sub_mul]
    exact Nat.sub_le_sub_left h _
  exact ⟨leg x dx hx, leg y dy hy⟩

/-- A leg that keeps backing the shares left has paid at most `d`, if the shares redeemed since
were issued for `d`. -/
theorem redeemed_le {x x' s m n d : Nat} (hs : 0 < s) (hback : x * (s - n) ≤ x' * s)
    (hn : n ≤ m) (hissue : x * m ≤ d * s) : x - x' ≤ d := by
  refine Nat.le_of_mul_le_mul_right ?_ hs
  rw [Nat.mul_sub] at hback
  rw [Nat.sub_mul]
  have hle : x * n ≤ x * m := Nat.mul_le_mul_left x hn
  omega

/-- A floored share of a leg leaves something behind unless every share is redeemed. -/
theorem floor_lt_of_lt {r m s : Nat} (hr : 0 < r) (hm : m < s) : r * m / s < r := by
  rw [Nat.div_lt_iff_lt_mul (by omega)]
  exact Nat.mul_lt_mul_of_pos_left hm hr

/-- Shares issued pro rata to two legs of at most `c` stay at most `c` while `s² ≤ x · y`. -/
theorem min_floor_le {x y s dx dy c m : Nat} (hs : s ^ 2 ≤ x * y) (hpos : 0 < x * y)
    (hdx : dx ≤ c) (hdy : dy ≤ c) (hmx : m * x ≤ dx * s) (hmy : m * y ≤ dy * s) : m ≤ c := by
  have h1 : m ^ 2 * (x * y) ≤ c ^ 2 * (x * y) := by
    calc m ^ 2 * (x * y) = m * x * (m * y) := by ring
      _ ≤ dx * s * (dy * s) := Nat.mul_le_mul hmx hmy
      _ = dx * dy * s ^ 2 := by ring
      _ ≤ c * c * (x * y) := Nat.mul_le_mul (Nat.mul_le_mul hdx hdy) hs
      _ = c ^ 2 * (x * y) := by ring
  have h2 : m ^ 2 ≤ c ^ 2 := Nat.le_of_mul_le_mul_right h1 hpos
  exact (Nat.pow_le_pow_iff_left (by omega)).1 h2

end Market

end Experimint
