import Mathlib.Tactic.IntervalCases
import Experimint.Lib.Text
import Experimint.Usdt.Bytes

/-!
# Addresses as text

`EvmAddress.fromStr` reads an address by cutting the text into pairs of bytes and handing each pair
to the standard library's parser of 8-bit numbers.  Two things follow that a reader of hexadecimal
would not expect:

* a pair of bytes that splits a character is not a slice, and the cut panics;
* the number parser takes a sign, so `+` followed by a digit is a byte.

`parsePairs_verdict` says which of the three outcomes the loop has; `fromStr_exact_iff` says on
which texts the function is what its documentation says, the inverse of `displayAddress`.
-/

set_option autoImplicit false

namespace Experimint.FedimintUsdt

open String (utf8Len)

/-! ## Numbers from text -/

/-- Why a text is no number. -/
inductive IntErrorKind where
  | empty
  | invalidDigit
  | posOverflow
deriving DecidableEq

/-- `char::to_digit` in base 16. -/
def toDigit (c : Char) : Option Nat :=
  if '0' ≤ c ∧ c ≤ '9' then some (c.toNat - '0'.toNat)
  else if 'a' ≤ c ∧ c ≤ 'f' then some (c.toNat - 'a'.toNat + 10)
  else if 'A' ≤ c ∧ c ≤ 'F' then some (c.toNat - 'A'.toNat + 10)
  else none

/-- The digits after a sign, most significant first. -/
def u8FromDigits : List Char → Nat → Except IntErrorKind Nat
  | [], result => .ok result
  | c :: digits, result =>
    match toDigit c with
    | none => .error .invalidDigit
    | some x =>
      if 255 < result * 16 + x then .error .posOverflow else u8FromDigits digits (result * 16 + x)

/-- `u8::from_str_radix` in base 16.  A leading `+` is a sign; `-` is not one for unsigned types. -/
def u8FromStrRadix (src : List Char) : Except IntErrorKind UInt8 :=
  if src = [] then .error .empty
  else if src = ['+'] ∨ src = ['-'] then .error .invalidDigit
  else
    let digits := if src.head? = some '+' then src.tail else src
    (u8FromDigits digits 0).map UInt8.ofNat

/-! ## Parsing -/

inductive AddressError where
  /-- "EvmAddress must be a (optionally 0x-prefixed) 20-byte hex address, got .. hex chars in .." -/
  | length (got : Nat)
  /-- "invalid hex byte at position .. in .." -/
  | invalidHexByte (position : Nat) (cause : IntErrorKind)
deriving DecidableEq

/-- The text without a leading `0x`. -/
def hexStr (s : String) : List Char :=
  match s.toList with
  | '0' :: 'x' :: rest => rest
  | text => text

/-- The loop over the pairs of bytes from position `i` on; `none` where a slice panics. -/
def parsePairs (text : List Char) : (count i : Nat) → Option (Except AddressError Bytes)
  | 0, _ => some (.ok [])
  | count + 1, i =>
    match sliceBytes text (i * 2) (i * 2 + 2) with
    | none => none
    | some digits =>
      match u8FromStrRadix digits with
      | .error cause => some (.error (.invalidHexByte i cause))
      | .ok byte => (parsePairs text count (i + 1)).map fun rest => rest.map (byte :: ·)

def EvmAddress.ofBytes (bytes : Bytes) : EvmAddress := Fin.ofNat (2 ^ 160) (ofBeBytes bytes)

/-- `EvmAddress::from_str`; `none` where it panics. -/
def EvmAddress.fromStr (s : String) : Option (Except AddressError EvmAddress) :=
  if utf8Len (hexStr s) ≠ 40 then some (.error (.length (utf8Len (hexStr s))))
  else (parsePairs (hexStr s) 20 0).map fun bytes => bytes.map EvmAddress.ofBytes

/-! ## Hexadecimal digits -/

def hexDigits : List Char := "0123456789abcdefABCDEF".toList

theorem mem_hexDigits_of_range {c : Char} (first len : Nat)
    (hall : ∀ n ∈ List.range' first len, Char.ofNat n ∈ hexDigits) (hlow : first ≤ c.toNat)
    (hhigh : c.toNat < first + len) : c ∈ hexDigits := by
  rw [← c.ofNat_toNat]
  exact hall _ (List.mem_range'_1.2 ⟨hlow, hhigh⟩)

theorem toDigit_eq_none {c : Char} (h : c ∉ hexDigits) : toDigit c = none := by
  unfold toDigit
  rw [if_neg, if_neg, if_neg]
  · rintro ⟨hlow, hhigh⟩
    exact h (mem_hexDigits_of_range 65 6 (by decide) hlow (Nat.lt_succ_of_le hhigh))
  · rintro ⟨hlow, hhigh⟩
    exact h (mem_hexDigits_of_range 97 6 (by decide) hlow (Nat.lt_succ_of_le hhigh))
  · rintro ⟨hlow, hhigh⟩
    exact h (mem_hexDigits_of_range 48 10 (by decide) hlow (Nat.lt_succ_of_le hhigh))

/-- The value of a digit, zero for other characters. -/
def digit (c : Char) : Nat := (toDigit c).getD 0

theorem hexDigits_spec : ∀ c ∈ hexDigits, c.utf8Size = 1 ∧ c ≠ '+' ∧ c ≠ 'x' ∧ digit c < 16 ∧
    toDigit c = some (digit c) ∧ Nat.digitChar (digit c) = c.toLower := by
  have hall : hexDigits.all (fun c => decide (c.utf8Size = 1 ∧ c ≠ '+' ∧ c ≠ 'x' ∧ digit c < 16 ∧
      toDigit c = some (digit c) ∧ Nat.digitChar (digit c) = c.toLower)) = true := by decide
  exact fun c hc => of_decide_eq_true (List.all_eq_true.1 hall c hc)

/-- A digit in print is a digit, of the value printed. -/
theorem digitChar_spec : ∀ n < 16, Nat.digitChar n ∈ hexDigits ∧ digit (Nat.digitChar n) = n := by
  decide

/-! ## Pairs -/

/-- Two characters that the number parser takes for a byte. -/
def PairAccepted (c d : Char) : Prop := (c = '+' ∨ c ∈ hexDigits) ∧ d ∈ hexDigits

instance decidablePairAccepted (c d : Char) : Decidable (PairAccepted c d) :=
  inferInstanceAs (Decidable ((c = '+' ∨ c ∈ hexDigits) ∧ d ∈ hexDigits))

def pairByte (c d : Char) : UInt8 := UInt8.ofNat (digit c * 16 + digit d)

theorem PairAccepted.utf8Size {c d : Char} (h : PairAccepted c d) :
    c.utf8Size = 1 ∧ d.utf8Size = 1 := by
  refine ⟨?_, (hexDigits_spec d h.2).1⟩
  rcases h.1 with rfl | hc
  · decide
  · exact (hexDigits_spec c hc).1

theorem u8FromDigits_cons {c : Char} (digits : List Char) {result : Nat} (hc : c ∈ hexDigits)
    (hresult : result < 16) :
    u8FromDigits (c :: digits) result = u8FromDigits digits (result * 16 + digit c) := by
  obtain ⟨-, -, -, hlt, hdigit, -⟩ := hexDigits_spec c hc
  have hfits : ¬ 255 < result * 16 + digit c := by omega
  rw [u8FromDigits, hdigit]
  exact if_neg hfits

theorem u8FromDigits_of_not_mem {c : Char} (digits : List Char) (result : Nat)
    (hc : c ∉ hexDigits) : u8FromDigits (c :: digits) result = .error .invalidDigit := by
  rw [u8FromDigits, toDigit_eq_none hc]

theorem u8FromStrRadix_sign (d : Char) :
    u8FromStrRadix ['+', d] = (u8FromDigits [d] 0).map UInt8.ofNat := by
  unfold u8FromStrRadix
  rw [if_neg (by simp), if_neg (by simp)]
  rfl

theorem u8FromStrRadix_digits {c : Char} {rest : List Char} (hsign : c ≠ '+')
    (hminus : c :: rest ≠ ['-']) :
    u8FromStrRadix (c :: rest) = (u8FromDigits (c :: rest) 0).map UInt8.ofNat := by
  unfold u8FromStrRadix
  rw [if_neg (by simp), if_neg (by simp [hsign, hminus]), if_neg (by simpa using hsign)]

theorem u8FromStrRadix_pair (c d : Char) :
    u8FromStrRadix [c, d] =
      if PairAccepted c d then .ok (pairByte c d) else .error .invalidDigit := by
  by_cases hsign : c = '+'
  · subst hsign
    rw [u8FromStrRadix_sign]
    by_cases hd : d ∈ hexDigits
    · rw [if_pos ⟨.inl rfl, hd⟩, u8FromDigits_cons [] hd (by decide)]
      rfl
    · rw [if_neg (fun h => hd h.2), u8FromDigits_of_not_mem [] 0 hd]
      rfl
  · rw [u8FromStrRadix_digits hsign (by simp)]
    by_cases hc : c ∈ hexDigits
    · obtain ⟨-, -, -, hlt, -, -⟩ := hexDigits_spec c hc
      rw [u8FromDigits_cons [d] hc (by decide), Nat.zero_mul, Nat.zero_add]
      by_cases hd : d ∈ hexDigits
      · rw [if_pos ⟨.inr hc, hd⟩, u8FromDigits_cons [] hd hlt]
        rfl
      · rw [if_neg (fun h => hd h.2), u8FromDigits_of_not_mem [] _ hd]
        rfl
    · rw [if_neg (fun h => h.1.elim hsign hc), u8FromDigits_of_not_mem [d] 0 hc]
      rfl

/-- A character of two bytes is no number. -/
theorem u8FromStrRadix_wide {c : Char} (h : c.utf8Size = 2) :
    u8FromStrRadix [c] = .error .invalidDigit := by
  have hsign : c ≠ '+' := by rintro rfl; exact absurd h (by decide)
  have hminus : [c] ≠ ['-'] := by
    intro hc
    cases hc
    exact absurd h (by decide)
  have hmem : c ∉ hexDigits := by
    intro hc
    rw [(hexDigits_spec c hc).1] at h
    cases h
  rw [u8FromStrRadix_digits hsign hminus, u8FromDigits_of_not_mem [] 0 hmem]
  rfl

/-! ## The loop -/

/-- Every pair of characters is read as a byte. -/
def pairsRead : List Char → Bool
  | [] => true
  | [_] => false
  | c :: d :: rest => decide (PairAccepted c d) && pairsRead rest

/-- The first two bytes that are not read as a number are whole characters, so they are refused. -/
def refusedFirst : List Char → Bool
  | [] => false
  | [c] => c.utf8Size == 2
  | c :: d :: rest =>
    if PairAccepted c d then refusedFirst rest
    else c.utf8Size == 2 || (c.utf8Size == 1 && d.utf8Size == 1)

def pairBytes : List Char → Bytes
  | c :: d :: rest => pairByte c d :: pairBytes rest
  | _ => []

theorem refusedFirst_of_pairsRead {text : List Char} (h : pairsRead text = true) :
    refusedFirst text = false := by
  fun_induction pairsRead text with
  | case1 => rfl
  | case2 c => cases h
  | case3 c d rest ih =>
    rw [Bool.and_eq_true, decide_eq_true_eq] at h
    rw [refusedFirst, if_pos h.1]
    exact ih h.2

/-- What the loop makes of the rest of a text. -/
def Verdict (rest : List Char) (outcome : Option (Except AddressError Bytes)) : Prop :=
  (pairsRead rest = true ∧ outcome = some (.ok (pairBytes rest))) ∨
    (pairsRead rest = false ∧
      ((refusedFirst rest = true ∧ ∃ e, outcome = some (.error e)) ∨
        (refusedFirst rest = false ∧ outcome = none)))

theorem parsePairs_of_slice {text digits : List Char} {i : Nat} (count : Nat)
    (h : sliceBytes text (i * 2) (i * 2 + 2) = some digits) :
    parsePairs text (count + 1) i =
      match u8FromStrRadix digits with
      | .error cause => some (.error (.invalidHexByte i cause))
      | .ok byte => (parsePairs text count (i + 1)).map fun rest => rest.map (byte :: ·) := by
  rw [parsePairs, h]

theorem parsePairs_of_split {text : List Char} {i : Nat} (count : Nat)
    (h : sliceBytes text (i * 2) (i * 2 + 2) = none) : parsePairs text (count + 1) i = none := by
  rw [parsePairs, h]

theorem not_pairAccepted_of_wide {c d : Char} (h : c.utf8Size ≠ 1 ∨ d.utf8Size ≠ 1) :
    ¬ PairAccepted c d := by
  intro haccepted
  obtain ⟨hc, hd⟩ := haccepted.utf8Size
  exact h.elim (fun h => h hc) fun h => h hd

theorem pairsRead_of_wide {c : Char} (rest : List Char) (h : c.utf8Size ≠ 1) :
    pairsRead (c :: rest) = false := by
  cases rest with
  | nil => rfl
  | cons d rest =>
    rw [pairsRead, decide_eq_false (not_pairAccepted_of_wide (.inl h)), Bool.false_and]

theorem refusedFirst_of_wide {c : Char} (rest : List Char) (h : c.utf8Size ≠ 1) :
    refusedFirst (c :: rest) = (c.utf8Size == 2) := by
  cases rest with
  | nil => rfl
  | cons d rest =>
    rw [refusedFirst, if_neg (not_pairAccepted_of_wide (.inl h)), beq_eq_false_iff_ne.2 h,
      Bool.false_and, Bool.or_false]

theorem splitAtByte_two_narrow {c d : Char} (rest : List Char) (hc : c.utf8Size = 1)
    (hd : d.utf8Size = 1) : splitAtByte (c :: d :: rest) 2 = some ([c, d], rest) := by
  rw [splitAtByte_cons_of_le (by omega), hc, splitAtByte_cons_of_le (by omega), hd,
    splitAtByte_zero]
  rfl

theorem splitAtByte_two_wide {c : Char} (rest : List Char) (hc : c.utf8Size = 2) :
    splitAtByte (c :: rest) 2 = some ([c], rest) := by
  rw [splitAtByte_cons_of_le (by omega), hc, splitAtByte_zero]
  rfl

/-- The second of the two bytes is inside a character. -/
theorem splitAtByte_two_inside {c d : Char} (rest : List Char) (hc : c.utf8Size = 1)
    (hd : d.utf8Size ≠ 1) : splitAtByte (c :: d :: rest) 2 = none := by
  have hpos := d.utf8Size_pos
  rw [splitAtByte_cons_of_le (by omega), hc, splitAtByte_cons_of_lt (by omega) (by omega)]
  rfl

theorem Verdict.read {c d : Char} {rest : List Char} {outcome : Option (Except AddressError Bytes)}
    (haccepted : PairAccepted c d) (h : Verdict rest outcome) :
    Verdict (c :: d :: rest)
      (outcome.map fun bytes => bytes.map (pairByte c d :: ·)) := by
  unfold Verdict at h ⊢
  rw [pairsRead, refusedFirst, decide_eq_true haccepted, Bool.true_and, pairBytes,
    if_pos haccepted]
  rcases h with ⟨hread, rfl⟩ | ⟨hread, ⟨href, e, rfl⟩ | ⟨href, rfl⟩⟩
  · exact .inl ⟨hread, rfl⟩
  · exact .inr ⟨hread, .inl ⟨href, e, rfl⟩⟩
  · exact .inr ⟨hread, .inr ⟨href, rfl⟩⟩

theorem Verdict.of_not_accepted {c d : Char} (rest : List Char)
    {outcome : Option (Except AddressError Bytes)} (hc : c.utf8Size = 1)
    (haccepted : ¬ PairAccepted c d)
    (h : d.utf8Size = 1 ∧ (∃ e, outcome = some (.error e)) ∨ d.utf8Size ≠ 1 ∧ outcome = none) :
    Verdict (c :: d :: rest) outcome := by
  unfold Verdict
  rw [pairsRead, refusedFirst, decide_eq_false haccepted, Bool.false_and, if_neg haccepted, hc]
  rcases h with ⟨hd, herror⟩ | ⟨hd, hnone⟩
  · exact .inr ⟨rfl, .inl ⟨by rw [hd]; rfl, herror⟩⟩
  · exact .inr ⟨rfl, .inr ⟨by rw [beq_eq_false_iff_ne.2 hd]; rfl, hnone⟩⟩

theorem Verdict.of_wide {c : Char} (rest : List Char)
    {outcome : Option (Except AddressError Bytes)} (hc : c.utf8Size ≠ 1)
    (h : c.utf8Size = 2 ∧ (∃ e, outcome = some (.error e)) ∨ c.utf8Size ≠ 2 ∧ outcome = none) :
    Verdict (c :: rest) outcome := by
  refine .inr ⟨pairsRead_of_wide rest hc, ?_⟩
  rw [refusedFirst_of_wide rest hc]
  rcases h with ⟨htwo, herror⟩ | ⟨htwo, hnone⟩
  · exact .inl ⟨by rw [htwo]; rfl, herror⟩
  · exact .inr ⟨beq_eq_false_iff_ne.2 htwo, hnone⟩

/-- **The loop reads the text as bytes, refuses it at the first pair that is no number, or panics at
the first pair that splits a character.** -/
theorem parsePairs_verdict {before rest : List Char} {count i : Nat}
    (hbefore : utf8Len before = i * 2) (hrest : utf8Len rest = count * 2) :
    Verdict rest (parsePairs (before ++ rest) count i) := by
  -- `before` has been read; its length keeps the byte offset at the head of `rest`
  induction count generalizing before rest i with
  | zero =>
    obtain rfl := String.utf8Len_eq_zero.1 (hrest.trans (Nat.zero_mul 2))
    exact .inl ⟨rfl, rfl⟩
  | succ count ih =>
    have hslice : sliceBytes (before ++ rest) (i * 2) (i * 2 + 2) =
        (splitAtByte rest 2).map Prod.fst := by
      rw [sliceBytes_append hbefore, Nat.add_sub_cancel_left]
    rcases rest with - | ⟨c, rest⟩
    · rw [String.utf8Len_nil] at hrest
      omega
    rw [String.utf8Len_cons] at hrest
    have hpos := c.utf8Size_pos
    by_cases hc : c.utf8Size = 1
    · rcases rest with - | ⟨d, rest⟩
      · rw [String.utf8Len_nil] at hrest
        omega
      rw [String.utf8Len_cons] at hrest
      by_cases hd : d.utf8Size = 1
      · rw [splitAtByte_two_narrow rest hc hd] at hslice
        rw [parsePairs_of_slice count hslice, u8FromStrRadix_pair]
        by_cases haccepted : PairAccepted c d
        · have hlen : utf8Len (before ++ [c, d]) = (i + 1) * 2 := by
            simp only [String.utf8Len_append, String.utf8Len_cons, String.utf8Len_nil]
            omega
          have hstep : Verdict rest (parsePairs (before ++ [c, d] ++ rest) count (i + 1)) :=
            ih hlen (by omega)
          rw [List.append_assoc] at hstep
          rw [if_pos haccepted]
          exact hstep.read haccepted
        · rw [if_neg haccepted]
          exact .of_not_accepted rest hc haccepted (.inl ⟨hd, _, rfl⟩)
      · rw [splitAtByte_two_inside rest hc hd] at hslice
        exact .of_not_accepted rest hc (not_pairAccepted_of_wide (.inr hd))
          (.inr ⟨hd, parsePairs_of_split count hslice⟩)
    · by_cases htwo : c.utf8Size = 2
      · rw [splitAtByte_two_wide rest htwo] at hslice
        rw [parsePairs_of_slice count hslice, u8FromStrRadix_wide htwo]
        exact .of_wide rest hc (.inl ⟨htwo, _, rfl⟩)
      · rw [splitAtByte_cons_of_lt (by omega) (by omega)] at hslice
        exact .of_wide rest hc (.inr ⟨htwo, parsePairs_of_split count hslice⟩)

/-! ## Texts of addresses -/

/-- Forty hexadecimal digits, with or without `0x` before them. -/
def AddressText (s : String) (digits : List Char) : Prop :=
  (s.toList = digits ∨ s.toList = '0' :: 'x' :: digits) ∧ digits.length = 40 ∧
    ∀ c ∈ digits, c ∈ hexDigits

theorem hexStr_of_marked {s : String} {digits : List Char} (h : s.toList = '0' :: 'x' :: digits) :
    hexStr s = digits := by
  simp [hexStr, h]

theorem hexStr_of_hex {s : String} (h : ∀ c ∈ s.toList, c ∈ hexDigits) : hexStr s = s.toList := by
  unfold hexStr
  split
  · rename_i hmarked
    have hx := h 'x' (by rw [hmarked]; exact .tail _ (.head _))
    exact absurd rfl (hexDigits_spec 'x' hx).2.2.1
  · rfl

/-- `x` is no digit, so the marker is found if and only if it is one. -/
theorem addressText_iff {s : String} {digits : List Char} :
    AddressText s digits ↔
      digits = hexStr s ∧ digits.length = 40 ∧ ∀ c ∈ digits, c ∈ hexDigits := by
  constructor
  · rintro ⟨rfl | hmarked, hlen, hhex⟩
    · exact ⟨(hexStr_of_hex hhex).symm, hlen, hhex⟩
    · exact ⟨(hexStr_of_marked hmarked).symm, hlen, hhex⟩
  · rintro ⟨rfl, hlen, hhex⟩
    refine ⟨?_, hlen, hhex⟩
    unfold hexStr
    split
    · rename_i hmarked
      exact .inr hmarked
    · exact .inl rfl

theorem utf8Len_of_hex {text : List Char} (h : ∀ c ∈ text, c ∈ hexDigits) :
    utf8Len text = text.length :=
  utf8Len_of_narrow fun c hc => (hexDigits_spec c (h c hc)).1

theorem exists_pair {n : Nat} {text : List Char} (h : text.length = (n + 1) * 2) :
    ∃ c d rest, text = c :: d :: rest ∧ rest.length = n * 2 := by
  rcases text with - | ⟨c, - | ⟨d, rest⟩⟩
  · rw [List.length_nil] at h
    omega
  · rw [List.length_singleton] at h
    omega
  · refine ⟨c, d, rest, rfl, ?_⟩
    rw [List.length_cons, List.length_cons] at h
    omega

theorem pairsRead_of_hex {n : Nat} {text : List Char} (hlen : text.length = n * 2)
    (h : ∀ c ∈ text, c ∈ hexDigits) : pairsRead text = true := by
  induction n generalizing text with
  | zero =>
    obtain rfl := List.length_eq_zero_iff.1 (hlen.trans (Nat.zero_mul 2))
    rfl
  | succ n ih =>
    obtain ⟨c, d, rest, rfl, hrest⟩ := exists_pair hlen
    have haccepted : PairAccepted c d := ⟨.inr (h c (.head _)), h d (.tail _ (.head _))⟩
    rw [pairsRead, decide_eq_true haccepted, Bool.true_and]
    exact ih hrest fun e he => h e (.tail _ (.tail _ he))

/-- Two digits in print are the byte they denote. -/
theorem hexByte_pairByte {c d : Char} (hc : c ∈ hexDigits) (hd : d ∈ hexDigits) :
    hexByte (pairByte c d) = [c.toLower, d.toLower] := by
  obtain ⟨-, -, -, hclt, -, hcprint⟩ := hexDigits_spec c hc
  obtain ⟨-, -, -, hdlt, -, hdprint⟩ := hexDigits_spec d hd
  have hbyte : (pairByte c d).toNat = digit c * 16 + digit d := by
    rw [pairByte, UInt8.toNat_ofNat']
    omega
  have hhigh : (digit c * 16 + digit d) / 16 = digit c := by omega
  have hlow : (digit c * 16 + digit d) % 16 = digit d := by omega
  rw [hexByte, hbyte, hhigh, hlow, hcprint, hdprint]

theorem flatMap_hexByte_pairBytes {n : Nat} {text : List Char} (hlen : text.length = n * 2)
    (h : ∀ c ∈ text, c ∈ hexDigits) :
    (pairBytes text).flatMap hexByte = text.map Char.toLower ∧ (pairBytes text).length = n := by
  induction n generalizing text with
  | zero =>
    obtain rfl := List.length_eq_zero_iff.1 (hlen.trans (Nat.zero_mul 2))
    exact ⟨rfl, rfl⟩
  | succ n ih =>
    obtain ⟨c, d, rest, rfl, hrest⟩ := exists_pair hlen
    obtain ⟨hprint, hcount⟩ := ih hrest fun e he => h e (.tail _ (.tail _ he))
    have hbyte := hexByte_pairByte (h c (.head _)) (h d (.tail _ (.head _)))
    rw [pairBytes, List.flatMap_cons, hbyte, hprint, List.length_cons, hcount]
    exact ⟨rfl, rfl⟩

/-- The digits of a byte are read back as the byte. -/
theorem pairBytes_flatMap_hexByte (bytes : Bytes) :
    pairBytes (bytes.flatMap hexByte) = bytes ∧
      (∀ c ∈ bytes.flatMap hexByte, c ∈ hexDigits) ∧
      (bytes.flatMap hexByte).length = bytes.length * 2 := by
  induction bytes with
  | nil => exact ⟨rfl, by simp, rfl⟩
  | cons b bytes ih =>
    obtain ⟨hread, hhex, hlen⟩ := ih
    have hb := b.toNat_lt
    obtain ⟨hhigh, hhighDigit⟩ := digitChar_spec (b.toNat / 16) (by omega)
    obtain ⟨hlow, hlowDigit⟩ := digitChar_spec (b.toNat % 16) (by omega)
    rw [List.flatMap_cons, hexByte, List.cons_append, List.cons_append, List.nil_append]
    refine ⟨?_, ?_, ?_⟩
    · have hvalue : b.toNat / 16 * 16 + b.toNat % 16 = b.toNat := by omega
      rw [pairBytes, hread, pairByte, hhighDigit, hlowDigit, hvalue, UInt8.ofNat_toNat]
    · simpa [hhigh, hlow] using hhex
    · rw [List.length_cons, List.length_cons, hlen, List.length_cons]
      omega

/-! ## Parsing and printing -/

theorem EvmAddress.ofBytes_toBeBytes (a : EvmAddress) :
    EvmAddress.ofBytes (toBeBytes 20 a.val) = a := by
  have hbound : 256 ^ 20 = 2 ^ 160 := by decide +kernel
  have hlt : a.val < 256 ^ 20 := by rw [hbound]; exact a.isLt
  apply Fin.ext
  rw [EvmAddress.ofBytes, ofBeBytes_toBeBytes hlt]
  exact Nat.mod_eq_of_lt a.isLt

theorem toBeBytes_ofBytes {bytes : Bytes} (h : bytes.length = 20) :
    toBeBytes 20 (EvmAddress.ofBytes bytes).val = bytes := by
  have hbound : 256 ^ 20 = 2 ^ 160 := by decide +kernel
  have hlt : ofBeBytes bytes < 2 ^ 160 := by
    rw [← hbound, ← h]
    exact ofBeBytes_lt bytes
  have hval : (EvmAddress.ofBytes bytes).val = ofBeBytes bytes := Nat.mod_eq_of_lt hlt
  rw [hval, ← h]
  exact toBeBytes_ofBeBytes bytes

theorem toList_displayAddress (a : EvmAddress) :
    (displayAddress a).toList = '0' :: 'x' :: (toBeBytes 20 a.val).flatMap hexByte := by
  have hmark : "0x".toList = ['0', 'x'] := by decide
  rw [displayAddress, String.toList_append, hmark, String.toList_ofList, List.cons_append,
    List.cons_append, List.nil_append]

theorem fromStr_of_length {s : String} (h : utf8Len (hexStr s) = 40) :
    EvmAddress.fromStr s =
      (parsePairs (hexStr s) 20 0).map fun bytes => bytes.map EvmAddress.ofBytes := by
  unfold EvmAddress.fromStr
  rw [if_neg (fun hne => hne h)]

/-- The outcome of parsing a text of forty bytes. -/
theorem fromStr_verdict {s : String} (h : utf8Len (hexStr s) = 40) :
    Verdict (hexStr s) (parsePairs (hexStr s) 20 0) :=
  @parsePairs_verdict [] (hexStr s) 20 0 rfl h

theorem fromStr_of_addressText {s : String} {digits : List Char} (h : AddressText s digits) :
    EvmAddress.fromStr s = some (.ok (EvmAddress.ofBytes (pairBytes digits))) := by
  obtain ⟨rfl, hlen, hhex⟩ := addressText_iff.1 h
  have hbytes : utf8Len (hexStr s) = 40 := (utf8Len_of_hex hhex).trans hlen
  rw [fromStr_of_length hbytes]
  rcases fromStr_verdict hbytes with ⟨-, hok⟩ | ⟨hread, -⟩
  · rw [hok]
    rfl
  · rw [@pairsRead_of_hex 20 _ hlen hhex] at hread
    cases hread

/-- **Printing an address parsed from digits gives them in lower case.** -/
theorem displayAddress_of_addressText {s : String} {digits : List Char} (h : AddressText s digits) :
    displayAddress (EvmAddress.ofBytes (pairBytes digits)) =
      String.ofList ('0' :: 'x' :: digits.map Char.toLower) := by
  obtain ⟨hprint, hcount⟩ := @flatMap_hexByte_pairBytes 20 digits h.2.1 h.2.2
  rw [← String.ofList_toList (s := displayAddress _), toList_displayAddress,
    toBeBytes_ofBytes hcount, hprint]

/-- **Parsing what was printed gives the address back.** -/
theorem fromStr_displayAddress (a : EvmAddress) :
    EvmAddress.fromStr (displayAddress a) = some (.ok a) := by
  obtain ⟨hread, hhex, hlen⟩ := pairBytes_flatMap_hexByte (toBeBytes 20 a.val)
  rw [length_toBeBytes] at hlen
  have htext : AddressText (displayAddress a) ((toBeBytes 20 a.val).flatMap hexByte) :=
    ⟨.inr (toList_displayAddress a), hlen, hhex⟩
  rw [fromStr_of_addressText htext, hread, EvmAddress.ofBytes_toBeBytes]

/-- Parsing returns, accepts exactly the texts of addresses, and printing the result gives the
digits in lower case. -/
def EvmAddress.ReadsExactly (s : String) : Prop :=
  ∃ outcome, EvmAddress.fromStr s = some outcome ∧
    ((∃ a, outcome = .ok a) ↔ ∃ digits, AddressText s digits) ∧
    ∀ a digits, outcome = .ok a → AddressText s digits →
      displayAddress a = String.ofList ('0' :: 'x' :: digits.map Char.toLower)

/-- The text is not of forty bytes, it is all digits, or the first two bytes of it that are not read
as a number are whole characters. -/
def EvmAddress.Legible (s : String) : Prop :=
  utf8Len (hexStr s) ≠ 40 ∨ (∀ c ∈ hexStr s, c ∈ hexDigits) ∨ refusedFirst (hexStr s) = true

theorem readsExactly_of_addressText {s : String} {digits : List Char} (h : AddressText s digits) :
    EvmAddress.ReadsExactly s := by
  refine ⟨_, fromStr_of_addressText h, iff_of_true ⟨_, rfl⟩ ⟨digits, h⟩, ?_⟩
  intro a digits' hok h'
  cases hok
  rw [(addressText_iff.1 h).1, ← (addressText_iff.1 h').1]
  exact displayAddress_of_addressText h'

theorem readsExactly_of_error {s : String} {e : AddressError}
    (h : EvmAddress.fromStr s = some (.error e)) (hnot : ¬ ∃ digits, AddressText s digits) :
    EvmAddress.ReadsExactly s := by
  refine ⟨_, h, iff_of_false ?_ hnot, ?_⟩
  · rintro ⟨a, hok⟩
    cases hok
  · intro a digits hok
    cases hok

theorem not_addressText {s : String}
    (h : utf8Len (hexStr s) ≠ 40 ∨ ¬ ∀ c ∈ hexStr s, c ∈ hexDigits) :
    ¬ ∃ digits, AddressText s digits := by
  rintro ⟨digits, htext⟩
  obtain ⟨rfl, hlen, hhex⟩ := addressText_iff.1 htext
  rcases h with hbytes | hnot
  · exact hbytes ((utf8Len_of_hex hhex).trans hlen)
  · exact hnot hhex

/-- **Where parsing is the inverse of printing.**  Parsing a text returns, accepts it exactly if it
is forty digits after an optional `0x`, and prints as those digits in lower case, if and only if the
text is legible; an address in print is always read back. -/
theorem fromStr_exact_iff (s : String) (a : EvmAddress) :
    (EvmAddress.ReadsExactly s ↔ EvmAddress.Legible s) ∧
      EvmAddress.fromStr (displayAddress a) = some (.ok a) := by
  refine ⟨?_, fromStr_displayAddress a⟩
  by_cases hbytes : utf8Len (hexStr s) = 40
  swap
  · have herror : EvmAddress.fromStr s = some (.error (.length (utf8Len (hexStr s)))) :=
      if_pos hbytes
    exact iff_of_true (readsExactly_of_error herror (not_addressText (.inl hbytes))) (.inl hbytes)
  by_cases hhex : ∀ c ∈ hexStr s, c ∈ hexDigits
  · have htext : AddressText s (hexStr s) :=
      addressText_iff.2 ⟨rfl, (utf8Len_of_hex hhex).symm.trans hbytes, hhex⟩
    exact iff_of_true (readsExactly_of_addressText htext) (.inr (.inl hhex))
  have hnot : ¬ ∃ digits, AddressText s digits := not_addressText (.inr hhex)
  have houtcome := fromStr_of_length hbytes
  rcases fromStr_verdict hbytes with ⟨hread, hok⟩ | ⟨-, ⟨href, e, herror⟩ | ⟨href, hnone⟩⟩
  · -- a sign was read as a digit
    rw [hok] at houtcome
    refine iff_of_false ?_ ?_
    · rintro ⟨outcome, hreturns, haccepts, -⟩
      rw [houtcome] at hreturns
      cases hreturns
      exact hnot (haccepts.1 ⟨_, rfl⟩)
    · rintro (h | h | h)
      · exact h hbytes
      · exact hhex h
      · rw [refusedFirst_of_pairsRead hread] at h
        cases h
  · rw [herror] at houtcome
    exact iff_of_true (readsExactly_of_error houtcome hnot) (.inr (.inr href))
  · rw [hnone] at houtcome
    refine iff_of_false ?_ ?_
    · rintro ⟨outcome, hreturns, -, -⟩
      rw [houtcome] at hreturns
      cases hreturns
    · rintro (h | h | h)
      · exact h hbytes
      · exact hhex h
      · rw [href] at h
        cases h

/-- A letter followed by a character of two bytes: the first slice ends inside it.  Twenty pairs of
a sign and a digit: accepted, although no two of them are digits. -/
theorem fromStr_not_exact :
    EvmAddress.fromStr "aéaaaaaaaaaaaaaaaaaaaaaaaaaaaaaaaaaaaaa" = none ∧
      EvmAddress.fromStr "+1+1+1+1+1+1+1+1+1+1+1+1+1+1+1+1+1+1+1+1" =
        some (.ok (EvmAddress.ofBytes (List.replicate 20 1))) ∧
      ¬ EvmAddress.ReadsExactly "aéaaaaaaaaaaaaaaaaaaaaaaaaaaaaaaaaaaaaa" := by
  have hpanics :
      EvmAddress.fromStr "aéaaaaaaaaaaaaaaaaaaaaaaaaaaaaaaaaaaaaa" = none := by decide +kernel
  refine ⟨hpanics, by decide +kernel, ?_⟩
  rintro ⟨outcome, hreturns, -, -⟩
  rw [hpanics] at hreturns
  cases hreturns

end Experimint.FedimintUsdt
