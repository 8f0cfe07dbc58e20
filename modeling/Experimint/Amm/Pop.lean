import Experimint.Lib.Codec
import Experimint.Amm.Invariant

/-!
# Messages of proofs of possession

An output carries a signature on the digest of its other fields.  The two layouts differ in their
first byte and in the number of integers; within one layout every field can be read back.

* `PopPayload` — both layouts as one: domain byte, integers, key, tweak.
* `PopCrypto.encode_inj` — the bytes determine the payload.
* `popMessage_unambiguous` — equal messages belong to equal outputs, so a signature that two
  different outputs accept is a signature on two messages.
-/

set_option autoImplicit false

namespace Experimint.FedimintAmm

/-! ## What is signed -/

/-- The message that an output's proof of possession must sign. -/
def AmmOutput.popMessage (c : PopCrypto) : AmmOutput → Option Hash
  | .swapV0 unitIn unitOut amountIn minOut recipientPk tweak _ =>
    some (c.swapPopMessage unitIn unitOut amountIn minOut recipientPk tweak)
  | .depositV0 pool amountLo amountHi minShares ownerPk tweak _ =>
    some (c.depositPopMessage pool amountLo amountHi minShares ownerPk tweak)
  | .default _ _ => none

/-- The key whose possession is proved. -/
def AmmOutput.popKey : AmmOutput → Option PublicKey
  | .swapV0 _ _ _ _ recipientPk _ _ => some recipientPk
  | .depositV0 _ _ _ _ ownerPk _ _ => some ownerPk
  | .default _ _ => none

/-- The output with another signature. -/
def AmmOutput.sign (pop : Bytes) : AmmOutput → AmmOutput
  | .swapV0 unitIn unitOut amountIn minOut recipientPk tweak _ =>
    .swapV0 unitIn unitOut amountIn minOut recipientPk tweak pop
  | .depositV0 pool amountLo amountHi minShares ownerPk tweak _ =>
    .depositV0 pool amountLo amountHi minShares ownerPk tweak pop
  | .default variant bytes => .default variant bytes

/-- The fields that are encoded, in order. -/
structure PopPayload where
  domain : UInt8
  integers : List Nat
  key : PublicKey
  tweak : Bytes

def AmmOutput.popPayload : AmmOutput → Option PopPayload
  | .swapV0 unitIn unitOut amountIn minOut recipientPk tweak _ =>
    some ⟨PopCrypto.DOMAIN_SWAP, [unitIn, unitOut, amountIn, minOut], recipientPk, tweak⟩
  | .depositV0 pool amountLo amountHi minShares ownerPk tweak _ =>
    some ⟨PopCrypto.DOMAIN_DEPOSIT, [pool.lo, pool.hi, amountLo, amountHi, minShares], ownerPk,
      tweak⟩
  | .default _ _ => none

/-- The integers of the output are 64-bit, as the source's types have them. -/
def AmmOutput.Fits (o : AmmOutput) : Prop :=
  ∀ p, o.popPayload = some p → ∀ n ∈ p.integers, n < 2 ^ 64

namespace PopCrypto

variable {c : PopCrypto}

def encode (c : PopCrypto) (p : PopPayload) : Bytes :=
  [p.domain] ++ (p.integers.flatMap c.encodeU64 ++ (c.encodePublicKey p.key ++ p.tweak))

/-- The framework's encodings of integers and keys are self-delimiting. -/
structure SelfDelimiting (c : PopCrypto) : Prop where
  encodeU64 : SelfDelimitingOn (· < 2 ^ 64) c.encodeU64
  encodePublicKey : SelfDelimitingOn (fun _ => True) c.encodePublicKey

/-- **The bytes determine the payload**, where the first byte determines the number of integers. -/
theorem encode_inj (hc : c.SelfDelimiting) {p q : PopPayload}
    (hlen : p.domain = q.domain → p.integers.length = q.integers.length)
    (hp : ∀ n ∈ p.integers, n < 2 ^ 64) (hq : ∀ n ∈ q.integers, n < 2 ^ 64)
    (h : c.encode p = c.encode q) : p = q := by
  obtain ⟨hdomain, hrest⟩ := List.cons.inj h
  obtain ⟨hintegers, hrest⟩ := hc.encodeU64.flatMap (hlen hdomain) hp hq hrest
  obtain ⟨hkey, htweak⟩ := hc.encodePublicKey _ _ _ _ trivial trivial hrest
  cases p
  cases q
  simp_all

end PopCrypto

/-! ## Outputs and their messages -/

variable {c : PopCrypto} {a b : AmmOutput} {p q : PopPayload}

theorem popMessage_eq (c : PopCrypto) (o : AmmOutput) :
    o.popMessage c = o.popPayload.map fun p => c.sha256 (c.encode p) := by
  cases o with
  | swapV0 =>
    simp [AmmOutput.popMessage, AmmOutput.popPayload, PopCrypto.swapPopMessage, PopCrypto.encode]
  | depositV0 =>
    simp [AmmOutput.popMessage, AmmOutput.popPayload, PopCrypto.depositPopMessage,
      PopCrypto.encode]
  | default => rfl

/-- The domain byte belongs to one layout. -/
theorem length_integers_eq (ha : a.popPayload = some p) (hb : b.popPayload = some q)
    (hdomain : p.domain = q.domain) : p.integers.length = q.integers.length := by
  cases a <;> cases b <;> cases ha <;> cases hb <;> first | rfl | cases hdomain

/-- The payload is all of the output but its signature. -/
theorem sign_eq_of_popPayload (ha : a.popPayload = some p) (hb : b.popPayload = some p)
    (pop : Bytes) : a.sign pop = b.sign pop := by
  cases a with
  | swapV0 =>
    cases ha
    cases b with
    | swapV0 =>
      cases hb
      rfl
    | depositV0 => cases hb
    | default => cases hb
  | depositV0 pool =>
    cases ha
    cases b with
    | swapV0 => cases hb
    | depositV0 pool' =>
      cases pool
      cases pool'
      cases hb
      rfl
    | default => cases hb
  | default => cases ha

/-- What an accepted proof is. -/
theorem verifyPop_sign {pop : Bytes} (h : (a.sign pop).verifyPop c = true) :
    ∃ m k, a.popMessage c = some m ∧ a.popKey = some k ∧ c.verifySchnorr pop m k.x = true := by
  cases a with
  | swapV0 => exact ⟨_, _, rfl, rfl, h⟩
  | depositV0 => exact ⟨_, _, rfl, rfl, h⟩
  | default => cases h

/-- The digests of the two payloads do not collide. -/
def NoCollision (c : PopCrypto) (a b : AmmOutput) : Prop :=
  ∀ p q, a.popPayload = some p → b.popPayload = some q →
    c.sha256 (c.encode p) = c.sha256 (c.encode q) → c.encode p = c.encode q

theorem sign_eq_of_popMessage (hc : c.SelfDelimiting) (ha : a.Fits) (hb : b.Fits)
    (hsha : NoCollision c a b) {m : Hash} (hma : a.popMessage c = some m)
    (hmb : b.popMessage c = some m) (pop : Bytes) : a.sign pop = b.sign pop := by
  rw [popMessage_eq, Option.map_eq_some_iff] at hma hmb
  obtain ⟨p, hp, rfl⟩ := hma
  obtain ⟨q, hq, hdigest⟩ := hmb
  obtain rfl : p = q := PopCrypto.encode_inj hc (length_integers_eq hp hq) (ha p hp) (hb q hq)
    (hsha p q hp hq hdigest.symm)
  exact sign_eq_of_popPayload hp hq pop

/-- **A message belongs to one output.**  Outputs with one message agree in their kind and in all
their fields but the signature; so a signature that two different outputs accept verifies for two
messages. -/
theorem popMessage_unambiguous (c : PopCrypto) (hc : c.SelfDelimiting) (a b : AmmOutput)
    (ha : a.Fits) (hb : b.Fits) (hsha : NoCollision c a b) :
    (∀ m, a.popMessage c = some m → b.popMessage c = some m → ∀ pop, a.sign pop = b.sign pop) ∧
    ∀ pop, (a.sign pop).verifyPop c = true → (b.sign pop).verifyPop c = true →
      a.sign pop ≠ b.sign pop →
        ∃ m m' k k', a.popMessage c = some m ∧ b.popMessage c = some m' ∧ m ≠ m' ∧
          a.popKey = some k ∧ b.popKey = some k' ∧
          c.verifySchnorr pop m k.x = true ∧ c.verifySchnorr pop m' k'.x = true := by
  refine ⟨fun m hma hmb => sign_eq_of_popMessage hc ha hb hsha hma hmb, ?_⟩
  intro pop hva hvb hne
  obtain ⟨m, k, hma, hka, hsiga⟩ := verifyPop_sign hva
  obtain ⟨m', k', hmb, hkb, hsigb⟩ := verifyPop_sign hvb
  refine ⟨m, m', k, k', hma, hmb, ?_, hka, hkb, hsiga, hsigb⟩
  rintro rfl
  exact hne (sign_eq_of_popMessage hc ha hb hsha hma hmb pop)

/-! ## A sample -/

def unaryBytes (n : Nat) : Bytes := List.replicate n 1 ++ [0]

theorem unaryBytes_selfDelimiting (D : Nat → Prop) : SelfDelimitingOn D unaryBytes := by
  intro m n s t hm hn h
  clear hm hn
  induction m generalizing n with
  | zero =>
    cases n with
    | zero => exact ⟨rfl, List.append_cancel_left h⟩
    | succ n => cases h
  | succ m ih =>
    cases n with
    | zero => cases h
    | succ n =>
      obtain ⟨hmn, hst⟩ := ih n (List.cons.inj h).2
      exact ⟨congrArg Nat.succ hmn, hst⟩

def unaryPop : PopCrypto where
  encodeU64 := unaryBytes
  encodePublicKey k := (if k.odd then 3 else 2) :: unaryBytes k.x.val
  sha256 bytes := Fin.ofNat _ (bytes.foldl (fun h x => h * 257 + x.toNat) 0)
  verifySchnorr sig _ _ := decide (sig.length = 64)

theorem unaryPop_selfDelimiting : unaryPop.SelfDelimiting := by
  refine ⟨unaryBytes_selfDelimiting _, ?_⟩
  rintro ⟨odd, x⟩ ⟨odd', x'⟩ s t _ _ h
  obtain ⟨hodd, hx⟩ := List.cons.inj h
  obtain ⟨hx, hst⟩ := unaryBytes_selfDelimiting (fun _ => True) _ _ _ _ trivial trivial hx
  obtain rfl : odd = odd' := by
    cases odd <;> cases odd' <;> first | rfl | cases hodd
  exact ⟨congrArg (PublicKey.mk odd) (Fin.ext hx), hst⟩

def popSwap : AmmOutput := .swapV0 0 1 5 4 ⟨false, 7⟩ (List.replicate 16 0) []

def popDeposit : AmmOutput := .depositV0 samplePool 5 4 3 ⟨false, 7⟩ (List.replicate 16 0) []

theorem popMessage_unambiguous_sample :
    popSwap.popMessage unaryPop ≠ popDeposit.popMessage unaryPop ∧
      ∃ m m' k k', popSwap.popMessage unaryPop = some m ∧
        popDeposit.popMessage unaryPop = some m' ∧ m ≠ m' ∧
        popSwap.popKey = some k ∧ popDeposit.popKey = some k' ∧
        unaryPop.verifySchnorr (List.replicate 64 0) m k.x = true ∧
        unaryPop.verifySchnorr (List.replicate 64 0) m' k'.x = true := by
  have hne : popSwap.popMessage unaryPop ≠ popDeposit.popMessage unaryPop := by decide +kernel
  have hswap : popSwap.Fits := by
    intro p hp
    cases hp
    decide
  have hdeposit : popDeposit.Fits := by
    intro p hp
    cases hp
    decide
  have hsha : NoCollision unaryPop popSwap popDeposit := by
    intro p q hp hq h
    refine absurd ?_ hne
    rw [popMessage_eq, popMessage_eq, hp, hq, Option.map_some, Option.map_some, h]
  exact ⟨hne, (popMessage_unambiguous unaryPop unaryPop_selfDelimiting popSwap popDeposit hswap
    hdeposit hsha).2 (List.replicate 64 0) (by decide) (by decide) (by decide)⟩

end Experimint.FedimintAmm
