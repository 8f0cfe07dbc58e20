import Mathlib.Order.Basic
import Mathlib.Order.Fin.Basic
import Mathlib.Data.Prod.Lex
import Experimint.Lib.Table
import Experimint.Lib.Saturating

/-!
# The federation framework's types

The part of the module framework that both modules are written against: peers and their
thresholds, keys, out points, and the amounts a transaction item declares.
-/

set_option autoImplicit false

namespace Experimint

/-- Literals of 256-bit types. -/
instance neZeroWord : NeZero (2 ^ 256) := inferInstance

/-- 256-bit digest. -/
abbrev Hash := Fin (2 ^ 256)

/-- Byte string. -/
abbrev Bytes := List UInt8

/-- Guardian index. -/
abbrev PeerId := Nat

/-- Compressed secp256k1 key: parity of `y` and the `x` coordinate. -/
structure PublicKey where
  odd : Bool
  x : Fin (2 ^ 256)
deriving DecidableEq

instance : LinearOrder PublicKey :=
  LinearOrder.lift' (fun k => toLex (k.odd, k.x)) fun a b h => by
    cases a; cases b; simpa using h

/-- Position of an output in a transaction. -/
structure OutPoint where
  txid : Hash
  outIdx : Nat
deriving DecidableEq

instance : LinearOrder OutPoint :=
  LinearOrder.lift' (fun o => toLex (o.txid, o.outIdx)) fun a b h => by
    cases a; cases b; simpa using h

/-- Number of guardians of a federation. -/
structure NumPeers where
  total : Nat
deriving DecidableEq

/-- The most faulty guardians the federation tolerates. -/
def NumPeers.maxEvil (n : NumPeers) : Nat := (n.total - 1) / 3

/-- The guardians that have to agree. -/
def NumPeers.threshold (n : NumPeers) : Nat := n.total - n.maxEvil

theorem NumPeers.maxEvil_lt_threshold {n : NumPeers} (h : 0 < n.total) :
    n.maxEvil < n.threshold := by
  unfold NumPeers.threshold NumPeers.maxEvil
  omega

theorem NumPeers.three_mul_maxEvil_lt {n : NumPeers} (h : 0 < n.total) :
    3 * n.maxEvil < n.total := by
  unfold NumPeers.maxEvil
  omega

/-- Currency of an amount. -/
abbrev AmountUnit := Nat

/-- 64-bit addition that reports overflow. -/
def checkedAdd (a b : Nat) : Option Nat := if a + b ≤ U64_MAX then some (a + b) else none

/-- Amounts by unit; a zero amount has no row. -/
abbrev Amounts := Table AmountUnit Nat

namespace Amounts

def zero : Amounts := Table.empty

/-- Adds `amount` of `unit`. -/
def checkedAddUnit (a : Amounts) (amount : Nat) (unit : AmountUnit) : Option Amounts :=
  if amount = 0 then some a
  else (checkedAdd ((a.get? unit).getD 0) amount).map fun s => a.insert unit s

def newCustom (unit : AmountUnit) (amount : Nat) : Amounts :=
  if amount = 0 then zero else zero.insert unit amount

/-- Amount declared for `unit`. -/
def of (a : Amounts) (unit : AmountUnit) : Nat := (a.get? unit).getD 0

@[simp] theorem of_zero (u : AmountUnit) : zero.of u = 0 := rfl

theorem of_newCustom (u unit : AmountUnit) (amount : Nat) :
    (newCustom unit amount).of u = if unit = u then amount else 0 := by
  unfold newCustom of
  by_cases h0 : amount = 0
  · rw [if_pos h0, h0, ite_self]; rfl
  · rw [if_neg h0, Table.get?_insert]
    split_ifs <;> rfl

theorem of_checkedAddUnit {a b : Amounts} {amount : Nat} {unit : AmountUnit}
    (h : a.checkedAddUnit amount unit = some b) (u : AmountUnit) :
    b.of u = a.of u + if unit = u then amount else 0 := by
  unfold checkedAddUnit at h
  split_ifs at h with h0
  · cases h; rw [h0, ite_self, Nat.add_zero]
  · obtain ⟨s, hs, rfl⟩ := Option.map_eq_some_iff.1 h
    unfold checkedAdd at hs
    split_ifs at hs
    cases hs
    unfold of
    rw [Table.get?_insert]
    split_ifs with hu
    · subst hu; rfl
    · rfl

theorem exists_checkedAddUnit {a : Amounts} {amount : Nat} {unit : AmountUnit}
    (h : a.of unit + amount ≤ U64_MAX) : ∃ b, a.checkedAddUnit amount unit = some b := by
  have hadd : checkedAdd ((a.get? unit).getD 0) amount = some (a.of unit + amount) := if_pos h
  unfold checkedAddUnit
  split
  · exact ⟨a, rfl⟩
  · exact ⟨_, by rw [hadd]; rfl⟩

end Amounts

/-- What a transaction item declares: the value it moves and the fees it pays. -/
structure TransactionItemAmounts where
  amounts : Amounts
  fees : Amounts
deriving DecidableEq

/-- What an accepted input declares, and the key that has to sign for it. -/
structure InputMeta where
  amount : TransactionItemAmounts
  pubKey : PublicKey
deriving DecidableEq

/-! ## Checks of fallible code -/

section Checks

variable {ε α : Type} {c : Prop} [Decidable c] {e : ε} {x : Except ε α} {a b y : α}

/-- A check that was passed. -/
theorem of_ite_error (h : (if c then .error e else x) = .ok y) : ¬ c ∧ x = .ok y := by
  split at h
  · cases h
  · rename_i hc
    exact ⟨hc, h⟩

theorem of_ite_ok (h : (if c then .ok a else .ok b : Except ε α) = .ok y) :
    (c ∧ y = a) ∨ (¬ c ∧ y = b) := by
  split at h
  · rename_i hc
    exact .inl ⟨hc, (Except.ok.inj h).symm⟩
  · rename_i hc
    exact .inr ⟨hc, (Except.ok.inj h).symm⟩

end Checks

end Experimint
