import Experimint.Lib.Text
import Experimint.Keeper.DayNumber

/-!
# Oracle timestamps

`parseRfc3339Utc` reads the time at which the oracle published its price: it checks the first 19
bytes one by one, reads the fields from slices of the text, and discards a fraction.

* `checked_iff` — the byte check passes exactly on the fixed fields of a timestamp; bytes of longer
  characters never pass, so every slice falls between characters.
* `parseRfc3339Utc_exact` — the accepted language, and the value of each text of it.
* `timestamps_exact_iff` — these together with the order of instants and the range of day numbers.
-/

set_option autoImplicit false

namespace Experimint.AmmPriceKeeper

open String (utf8Len)

/-! ## Parsing -/

/-- The digits after a sign; `step` adds a digit, or subtracts it after a minus. -/
def i64FromDigits (step : Int → Int → Int) : List Char → Int → Option Int
  | [], result => some result
  | c :: digits, result =>
    if c.isDigit then
      (checked (result * 10)).bind fun scaled =>
        (checked (step scaled (c.toNat - '0'.toNat : Nat))).bind fun result =>
          i64FromDigits step digits result
    else none

/-- `str::parse::<i64>`. -/
def i64FromStr (src : List Char) : Option Int :=
  if src = [] ∨ src = ['+'] ∨ src = ['-'] then none
  else if src.head? = some '-' then i64FromDigits (· - ·) src.tail 0
  else i64FromDigits (· + ·) (if src.head? = some '+' then src.tail else src) 0

/-- What each of the first 19 bytes has to be. -/
def fieldByte (i : Nat) (b : UInt8) : Bool :=
  if i = 4 ∨ i = 7 then b == asciiByte '-'
  else if i = 10 then b == asciiByte 'T' || b == asciiByte 't'
  else if i = 13 ∨ i = 16 then b == asciiByte ':'
  else decide (48 ≤ b.toNat ∧ b.toNat ≤ 57)

def num (text : List Char) (start stop : Nat) : Option Int :=
  (sliceBytes text start stop).bind i64FromStr

structure Stamp where
  year : Int
  month : Int
  day : Int
  hour : Int
  minute : Int
  second : Int

def stampFields (text : List Char) : Option Stamp := do
  let year ← num text 0 4
  let month ← num text 5 7
  let day ← num text 8 10
  let hour ← num text 11 13
  let minute ← num text 14 16
  let second ← num text 17 19
  return ⟨year, month, day, hour, minute, second⟩

def Stamp.inRange (stamp : Stamp) : Bool :=
  !(!decide (1 ≤ stamp.month ∧ stamp.month ≤ 12) || decide (stamp.day < 1) ||
    decide (daysInMonth stamp.year stamp.month < stamp.day)) &&
  !(decide (23 < stamp.hour) || decide (59 < stamp.minute) || decide (60 < stamp.second))

/-- What follows a fraction, if there is one.  The outer `none` is a slice that panics, the inner
one a fraction without digits. -/
def skipFraction (rest : List Char) : Option (Option (List Char)) :=
  if rest.head? = some '.' then
    let frac := rest.tail
    let digits := utf8Len frac - utf8Len (frac.dropWhile Char.isDigit)
    if digits = 0 then some none else (splitAtByte frac digits).map fun cut => some cut.2
  else some (some rest)

/-- Seconds since the epoch; `none` is a panic. -/
def Stamp.seconds (profile : Profile) (stamp : Stamp) : Option Int := do
  let i64 := i64 profile
  let days ← daysFromCivil profile stamp.year stamp.month stamp.day
  let days ← i64 (days * 86400)
  let hours ← i64 (stamp.hour * 3600)
  let seconds ← i64 (days + hours)
  let minutes ← i64 (stamp.minute * 60)
  let seconds ← i64 (seconds + minutes)
  i64 (seconds + stamp.second)

/-- The value of a stamp whose zone is UTC. -/
def Stamp.withZone (profile : Profile) (stamp : Stamp) :
    Option (Option (List Char)) → Option (Option Int)
  | none => none
  | some none => some none
  | some (some rest) =>
    if rest = ['Z'] ∨ rest = ['z'] then (stamp.seconds profile).map some else some none

/-- `parse_rfc3339_utc`; the outer `none` is a panic. -/
def parseRfc3339Utc (profile : Profile) (s : String) : Option (Option Int) :=
  let text := s.toList
  let bytes := utf8Bytes text
  if bytes.length < 19 then some none
  else if !((bytes.take 19).zipIdx.all fun field => fieldByte field.2 field.1) then some none
  else
    match stampFields text with
    | none => some none
    | some stamp =>
      if !stamp.inRange then some none
      else
        match splitAtByte text 19 with
        | none => none
        | some cut => stamp.withZone profile (skipFraction cut.2)

/-! ## The fixed fields -/

/-- `fieldByte` on characters. -/
def fieldChar (i : Nat) (c : Char) : Bool :=
  if i = 4 ∨ i = 7 then c == '-'
  else if i = 10 then c == 'T' || c == 't'
  else if i = 13 ∨ i = 16 then c == ':'
  else c.isDigit

theorem isDigit_iff {c : Char} : c.isDigit = true ↔ 48 ≤ c.toNat ∧ c.toNat ≤ 57 := by
  unfold Char.isDigit
  rw [Bool.and_eq_true, decide_eq_true_eq, decide_eq_true_eq]
  exact Iff.rfl

theorem utf8Size_of_isDigit {c : Char} (h : c.isDigit = true) : c.utf8Size = 1 := by
  have hle : c.toNat ≤ 127 := by
    have := (isDigit_iff.1 h).2
    omega
  exact Char.utf8Size_eq_one_iff.2 hle

theorem beq_asciiByte {c d : Char} (hc : c.utf8Size = 1) (hd : d.utf8Size = 1) :
    (asciiByte c == asciiByte d) = (c == d) := by
  rw [Bool.eq_iff_iff, beq_iff_eq, beq_iff_eq, asciiByte_inj hc hd]

theorem fieldByte_asciiByte {c : Char} (hc : c.utf8Size = 1) (i : Nat) :
    fieldByte i (asciiByte c) = fieldChar i c := by
  unfold fieldByte fieldChar
  rw [beq_asciiByte hc (by decide), beq_asciiByte hc (by decide), beq_asciiByte hc (by decide),
    beq_asciiByte hc (by decide), toNat_asciiByte hc]
  have hdigit : decide (48 ≤ c.toNat ∧ c.toNat ≤ 57) = c.isDigit := by
    rw [Bool.eq_iff_iff, decide_eq_true_eq, isDigit_iff]
  rw [hdigit]

/-- The check of characters from position `k` on. -/
def fieldsFrom (k : Nat) (chars : List Char) : Bool :=
  (chars.zipIdx k).all fun field => fieldChar field.2 field.1

theorem fieldsFrom_append (k : Nat) (xs ys : List Char) :
    fieldsFrom k (xs ++ ys) = (fieldsFrom k xs && fieldsFrom (k + xs.length) ys) := by
  rw [fieldsFrom, List.zipIdx_append, List.all_append]
  rfl

theorem fieldsFrom_cons (k : Nat) (c : Char) (chars : List Char) :
    fieldsFrom k (c :: chars) = (fieldChar k c && fieldsFrom (k + 1) chars) := by
  rw [fieldsFrom, List.zipIdx_cons, List.all_cons]
  rfl

theorem fieldsFrom_digits {k : Nat} {chars : List Char}
    (h : ∀ i, k ≤ i → i < k + chars.length → i ∉ [4, 7, 10, 13, 16]) :
    fieldsFrom k chars = chars.all Char.isDigit := by
  induction chars generalizing k with
  | nil => rfl
  | cons c chars ih =>
    have hk := h k (Nat.le_refl k) (by simp)
    have hfield : fieldChar k c = c.isDigit := by
      simp only [List.mem_cons, List.not_mem_nil, or_false, not_or] at hk
      unfold fieldChar
      rw [if_neg (by omega), if_neg (by omega), if_neg (by omega)]
    rw [fieldsFrom_cons, List.all_cons, hfield, ih]
    intro i hlow hhigh
    exact h i (by omega) (by rw [List.length_cons]; omega)

theorem all_fieldByte_map {head : List Char} (k : Nat) (hnarrow : ∀ c ∈ head, c.utf8Size = 1) :
    ((head.map asciiByte).zipIdx k).all (fun field => fieldByte field.2 field.1) =
      fieldsFrom k head := by
  induction head generalizing k with
  | nil => rfl
  | cons c head ih =>
    have hrest := ih (k + 1) fun d hd => hnarrow d (.tail _ hd)
    rw [List.map_cons, List.zipIdx_cons, List.all_cons, hrest, fieldsFrom_cons,
      fieldByte_asciiByte (hnarrow c (.head _))]

/-- The bytes of a text that begins with characters of one byte, checked as characters. -/
theorem all_fieldByte {head : List Char} (rest : List Char) (hlen : head.length = 19)
    (hnarrow : ∀ c ∈ head, c.utf8Size = 1) :
    (((utf8Bytes (head ++ rest)).take 19).zipIdx.all fun field => fieldByte field.2 field.1) =
      fieldsFrom 0 head := by
  have hmap : (head.map asciiByte).length = 19 := by rw [List.length_map, hlen]
  rw [utf8Bytes_append_of_narrow rest hnarrow, ← hmap, List.take_left]
  exact all_fieldByte_map 0 hnarrow

theorem fieldByte_lt {i : Nat} {b : UInt8} (h : fieldByte i b = true) : b.toNat < 128 := by
  unfold fieldByte at h
  split at h
  · rw [beq_iff_eq.1 h]
    decide
  split at h
  · rcases Bool.or_eq_true_iff.1 h with h | h
    · rw [beq_iff_eq.1 h]
      decide
    · rw [beq_iff_eq.1 h]
      decide
  split at h
  · rw [beq_iff_eq.1 h]
    decide
  · have := (decide_eq_true_iff.1 h).2
    omega

/-! ## The form of a timestamp -/

/-- The parts of a timestamp. -/
structure StampText where
  yyyy : List Char
  mm : List Char
  dd : List Char
  sep : Char
  hh : List Char
  nn : List Char
  ss : List Char
  frac : List Char
  zone : Char

/-- `n` decimal digits. -/
def Digits (n : Nat) (chars : List Char) : Prop :=
  chars.length = n ∧ ∀ c ∈ chars, c.isDigit = true

instance (n : Nat) (chars : List Char) : Decidable (Digits n chars) :=
  decidable_of_iff ((decide (chars.length = n) && chars.all Char.isDigit) = true) (by
    rw [Bool.and_eq_true, decide_eq_true_eq, List.all_eq_true, Digits])

/-- The number that decimal digits after those of `result` denote. -/
def decimalFrom (result : Int) (digits : List Char) : Int :=
  digits.foldl (fun n c => n * 10 + ((c.toNat - '0'.toNat : Nat) : Int)) result

/-- The number that decimal digits denote. -/
def decimal (digits : List Char) : Int := decimalFrom 0 digits

namespace StampText

variable (t : StampText)

/-- `YYYY-MM-DDTHH:MM:SS`. -/
def head : List Char :=
  t.yyyy ++ '-' :: (t.mm ++ '-' :: (t.dd ++ t.sep :: (t.hh ++ ':' :: (t.nn ++ ':' :: t.ss))))

def chars : List Char := t.head ++ (t.frac ++ [t.zone])

def stamp : Stamp :=
  ⟨decimal t.yyyy, decimal t.mm, decimal t.dd, decimal t.hh, decimal t.nn, decimal t.ss⟩

/-- The fields are digits around `T` or `t`. -/
structure HeadFormed : Prop where
  yyyy : Digits 4 t.yyyy
  mm : Digits 2 t.mm
  dd : Digits 2 t.dd
  sep : t.sep = 'T' ∨ t.sep = 't'
  hh : Digits 2 t.hh
  nn : Digits 2 t.nn
  ss : Digits 2 t.ss

/-- The form of a timestamp: a fraction, if there is one, has a digit, and the zone is UTC. -/
structure WellFormed : Prop extends HeadFormed t where
  frac : t.frac = [] ∨
    ∃ digits, t.frac = '.' :: digits ∧ digits ≠ [] ∧ ∀ c ∈ digits, c.isDigit = true
  zone : t.zone = 'Z' ∨ t.zone = 'z'

end StampText

theorem Digits.narrow {n : Nat} {chars : List Char} (h : Digits n chars) :
    ∀ c ∈ chars, c.utf8Size = 1 := fun c hc => utf8Size_of_isDigit (h.2 c hc)

theorem Digits.utf8Len {n : Nat} {chars : List Char} (h : Digits n chars) :
    String.utf8Len chars = n := (utf8Len_of_narrow h.narrow).trans h.1

theorem exists_split {α : Type} {l : List α} (n m : Nat) (h : l.length = n + m) :
    ∃ xs ys, l = xs ++ ys ∧ xs.length = n ∧ ys.length = m :=
  ⟨l.take n, l.drop n, (List.take_append_drop n l).symm, by rw [List.length_take]; omega,
    by rw [List.length_drop]; omega⟩

theorem exists_field {α : Type} {l : List α} (n m : Nat) (h : l.length = n + (m + 1)) :
    ∃ xs y ys, l = xs ++ y :: ys ∧ xs.length = n ∧ ys.length = m := by
  obtain ⟨xs, l, rfl, hxs, hl⟩ := exists_split n (m + 1) h
  obtain ⟨y, ys, rfl⟩ := List.exists_cons_of_length_eq_add_one hl
  exact ⟨xs, y, ys, rfl, hxs, by simpa using hl⟩

/-- The segments between the separators. -/
theorem fieldsFrom_segment {k n : Nat} {chars : List Char} (hlen : chars.length = n)
    (h : ∀ i ∈ [4, 7, 10, 13, 16], i < k ∨ k + n ≤ i) :
    fieldsFrom k chars = true ↔ Digits n chars := by
  rw [fieldsFrom_digits, List.all_eq_true]
  · exact ⟨fun hall => ⟨hlen, hall⟩, fun hdigits => hdigits.2⟩
  · intro i hlow hhigh hi
    have := h i hi
    omega

theorem fieldsFrom_head {yyyy mm dd hh nn ss : List Char} {a b sep d e : Char}
    (hy : yyyy.length = 4) (hm : mm.length = 2) (hd : dd.length = 2) (hh' : hh.length = 2)
    (hn : nn.length = 2) (hs : ss.length = 2) :
    fieldsFrom 0 (yyyy ++ a :: (mm ++ b :: (dd ++ sep :: (hh ++ d :: (nn ++ e :: ss))))) = true ↔
      Digits 4 yyyy ∧ a = '-' ∧ Digits 2 mm ∧ b = '-' ∧ Digits 2 dd ∧ (sep = 'T' ∨ sep = 't') ∧
        Digits 2 hh ∧ d = ':' ∧ Digits 2 nn ∧ e = ':' ∧ Digits 2 ss := by
  have hdash : ∀ c, fieldChar 4 c = (c == '-') ∧ fieldChar 7 c = (c == '-') :=
    fun c => ⟨rfl, rfl⟩
  have hsep : fieldChar 10 sep = (sep == 'T' || sep == 't') := rfl
  have hcolon : ∀ c, fieldChar 13 c = (c == ':') ∧ fieldChar 16 c = (c == ':') :=
    fun c => ⟨rfl, rfl⟩
  simp only [fieldsFrom_append, fieldsFrom_cons, hy, hm, hd, hh', hn, Bool.and_eq_true,
    Nat.zero_add, Nat.reduceAdd, (hdash a).1, (hdash b).2, hsep, (hcolon d).1, (hcolon e).2,
    Bool.or_eq_true, beq_iff_eq]
  rw [fieldsFrom_segment hy (by decide), fieldsFrom_segment hm (by decide),
    fieldsFrom_segment hd (by decide), fieldsFrom_segment hh' (by decide),
    fieldsFrom_segment hn (by decide), fieldsFrom_segment hs (by decide)]

/-- **The check passes exactly on the fixed fields of a timestamp.** -/
theorem fieldsFrom_zero_iff {chars : List Char} (hlen : chars.length = 19) :
    fieldsFrom 0 chars = true ↔ ∃ t : StampText, t.HeadFormed ∧ chars = t.head := by
  constructor
  · intro h
    obtain ⟨yyyy, a, chars, rfl, hy, hlen⟩ := exists_field 4 14 hlen
    obtain ⟨mm, b, chars, rfl, hm, hlen⟩ := exists_field 2 11 hlen
    obtain ⟨dd, sep, chars, rfl, hd, hlen⟩ := exists_field 2 8 hlen
    obtain ⟨hh, d, chars, rfl, hh', hlen⟩ := exists_field 2 5 hlen
    obtain ⟨nn, e, ss, rfl, hn, hs⟩ := exists_field 2 2 hlen
    obtain ⟨hyyyy, rfl, hmm, rfl, hdd, hsep, hhh, rfl, hnn, rfl, hss⟩ :=
      (fieldsFrom_head hy hm hd hh' hn hs).1 h
    exact ⟨⟨yyyy, mm, dd, sep, hh, nn, ss, [], 'Z'⟩,
      ⟨hyyyy, hmm, hdd, hsep, hhh, hnn, hss⟩, rfl⟩
  · rintro ⟨t, ht, rfl⟩
    exact (fieldsFrom_head ht.yyyy.1 ht.mm.1 ht.dd.1 ht.hh.1 ht.nn.1 ht.ss.1).2
      ⟨ht.yyyy, rfl, ht.mm, rfl, ht.dd, ht.sep, ht.hh, rfl, ht.nn, rfl, ht.ss⟩

namespace StampText.HeadFormed

variable {t : StampText}

theorem sep_narrow (h : t.HeadFormed) : t.sep.utf8Size = 1 := by
  rcases h.sep with hs | hs
  · rw [hs]; decide
  · rw [hs]; decide

theorem narrow (h : t.HeadFormed) : ∀ c ∈ t.head, c.utf8Size = 1 := by
  have hdash : '-'.utf8Size = 1 := by decide
  have hcolon : ':'.utf8Size = 1 := by decide
  simp only [head, List.forall_mem_append, List.forall_mem_cons]
  exact ⟨h.yyyy.narrow, hdash, h.mm.narrow, hdash, h.dd.narrow, h.sep_narrow, h.hh.narrow, hcolon,
    h.nn.narrow, hcolon, h.ss.narrow⟩

theorem length (h : t.HeadFormed) : t.head.length = 19 := by
  simp only [head, List.length_append, List.length_cons, h.yyyy.1, h.mm.1, h.dd.1, h.hh.1, h.nn.1,
    h.ss.1]

end StampText.HeadFormed

/-- **A text passes the length and byte checks exactly if it begins with the fixed fields.** -/
theorem checked_iff (text : List Char) :
    (19 ≤ (utf8Bytes text).length ∧
      (((utf8Bytes text).take 19).zipIdx.all fun field => fieldByte field.2 field.1) = true) ↔
      ∃ (t : StampText) (rest : List Char), t.HeadFormed ∧ text = t.head ++ rest := by
  constructor
  · rintro ⟨hlen, hall⟩
    have hascii : ∀ b ∈ (utf8Bytes text).take 19, b.toNat < 128 := by
      intro b hb
      obtain ⟨i, hi, rfl⟩ := List.mem_iff_getElem.1 hb
      have hmem : (((utf8Bytes text).take 19)[i], i) ∈ ((utf8Bytes text).take 19).zipIdx :=
        List.mem_zipIdx_iff_getElem?.2 (List.getElem?_eq_getElem hi)
      exact fieldByte_lt (List.all_eq_true.1 hall _ hmem)
    obtain ⟨before, after, rfl, hbefore, hnarrow⟩ := exists_ascii_head hlen hascii
    rw [all_fieldByte after hbefore hnarrow, fieldsFrom_zero_iff hbefore] at hall
    obtain ⟨t, ht, rfl⟩ := hall
    exact ⟨t, after, ht, rfl⟩
  · rintro ⟨t, rest, ht, rfl⟩
    rw [all_fieldByte rest ht.length ht.narrow]
    refine ⟨?_, (fieldsFrom_zero_iff ht.length).2 ⟨t, ht, rfl⟩⟩
    rw [utf8Bytes_append_of_narrow rest ht.narrow, List.length_append, List.length_map, ht.length]
    exact Nat.le_add_right 19 _

/-! ## The values of the fields -/

/-- Digits that fit are read as the number they denote. -/
theorem i64FromDigits_add {chars : List Char} {k : Nat} {result : Int}
    (hdigits : ∀ c ∈ chars, c.isDigit = true) (hfits : k + chars.length ≤ 18) (hpos : 0 ≤ result)
    (hlt : result < 10 ^ k) :
    i64FromDigits (· + ·) chars result = some (decimalFrom result chars) ∧
      0 ≤ decimalFrom result chars ∧ decimalFrom result chars < 10 ^ (k + chars.length) := by
  induction chars generalizing k result with
  | nil => exact ⟨rfl, hpos, hlt⟩
  | cons c chars ih =>
    have hc := hdigits c (.head _)
    have hvalue : c.toNat - '0'.toNat ≤ 9 := by
      have := (isDigit_iff.1 hc).2
      have hzero : '0'.toNat = 48 := by decide
      omega
    rw [List.length_cons] at hfits
    have hnext : result * 10 + (c.toNat - '0'.toNat : Nat) < 10 ^ (k + 1) := by
      rw [Int.pow_succ]
      omega
    have hbound : (10 : Int) ^ (k + 1) ≤ 10 ^ 18 := by
      have := Nat.pow_le_pow_right (show 0 < 10 by decide) (show k + 1 ≤ 18 by omega)
      exact_mod_cast this
    have hmax : (10 : Int) ^ 18 ≤ I64_MAX := by decide
    have hmin : I64_MIN ≤ 0 := by decide
    have hstep : i64FromDigits (· + ·) (c :: chars) result =
        i64FromDigits (· + ·) chars (result * 10 + (c.toNat - '0'.toNat : Nat)) := by
      rw [i64FromDigits, if_pos hc, checked_of_fits ⟨by omega, by omega⟩, Option.bind_some,
        checked_of_fits ⟨by omega, by omega⟩, Option.bind_some]
    have hfold : decimalFrom result (c :: chars) =
        decimalFrom (result * 10 + (c.toNat - '0'.toNat : Nat)) chars := List.foldl_cons ..
    rw [hstep, hfold, List.length_cons, Nat.add_comm chars.length 1, ← Nat.add_assoc]
    exact ih (fun d hd => hdigits d (.tail _ hd)) (by omega) (by omega) hnext

theorem i64FromStr_digits {n : Nat} {chars : List Char} (h : Digits n chars) (hpos : 0 < n)
    (hn : n ≤ 18) :
    i64FromStr chars = some (decimal chars) ∧ 0 ≤ decimal chars ∧ decimal chars < 10 ^ n := by
  obtain ⟨hlen, hdigits⟩ := h
  obtain ⟨c, rest, rfl⟩ := List.exists_cons_of_length_pos (hlen ▸ hpos)
  have hc := hdigits c (.head _)
  have hplus : c ≠ '+' := by rintro rfl; exact absurd hc (by decide)
  have hminus : c ≠ '-' := by rintro rfl; exact absurd hc (by decide)
  have hread := @i64FromDigits_add (c :: rest) 0 0 hdigits (by omega) (Int.le_refl 0) (by decide)
  rw [Nat.zero_add, hlen] at hread
  refine ⟨?_, hread.2⟩
  unfold i64FromStr
  rw [if_neg (by simp [hplus, hminus]), if_neg (by simp [hminus]), if_neg (by simp [hplus])]
  exact hread.1

theorem num_of_append {text field : List Char} (before after : List Char) {start stop n : Nat}
    (htext : text = before ++ (field ++ after)) (hbefore : utf8Len before = start)
    (hfield : Digits n field) (hstop : stop - start = n) (hpos : 0 < n) (hn : n ≤ 18) :
    num text start stop = some (decimal field) := by
  rw [htext, num, sliceBytes_of_append after hbefore (hfield.utf8Len.trans hstop.symm),
    Option.bind_some]
  exact (i64FromStr_digits hfield hpos hn).1

/-- **The fields are read as written.** -/
theorem stampFields_head {t : StampText} (h : t.HeadFormed) (rest : List Char) :
    stampFields (t.head ++ rest) = some t.stamp := by
  have hsep := h.sep_narrow
  have hdash : '-'.utf8Size = 1 := by decide
  have hcolon : ':'.utf8Size = 1 := by decide
  have hy := h.yyyy.utf8Len
  have hm := h.mm.utf8Len
  have hd := h.dd.utf8Len
  have hh := h.hh.utf8Len
  have hn := h.nn.utf8Len
  have hyear : num (t.head ++ rest) 0 4 = some (decimal t.yyyy) :=
    num_of_append [] ('-' :: (t.mm ++ '-' :: (t.dd ++ t.sep :: (t.hh ++ ':' :: (t.nn ++ ':' ::
      t.ss)))) ++ rest) (by simp [StampText.head]) rfl h.yyyy rfl (by decide) (by decide)
  have hmonth : num (t.head ++ rest) 5 7 = some (decimal t.mm) :=
    num_of_append (t.yyyy ++ ['-']) ('-' :: (t.dd ++ t.sep :: (t.hh ++ ':' :: (t.nn ++ ':' ::
      t.ss))) ++ rest) (by simp [StampText.head]) (by simp [hy, hdash]) h.mm rfl (by decide)
      (by decide)
  have hday : num (t.head ++ rest) 8 10 = some (decimal t.dd) :=
    num_of_append (t.yyyy ++ '-' :: (t.mm ++ ['-'])) (t.sep :: (t.hh ++ ':' :: (t.nn ++ ':' ::
      t.ss)) ++ rest) (by simp [StampText.head]) (by simp [hy, hm, hdash]) h.dd rfl (by decide)
      (by decide)
  have hhour : num (t.head ++ rest) 11 13 = some (decimal t.hh) :=
    num_of_append (t.yyyy ++ '-' :: (t.mm ++ '-' :: (t.dd ++ [t.sep]))) (':' :: (t.nn ++ ':' ::
      t.ss) ++ rest) (by simp [StampText.head]) (by simp [hy, hm, hd, hdash, hsep]) h.hh rfl
      (by decide) (by decide)
  have hminute : num (t.head ++ rest) 14 16 = some (decimal t.nn) :=
    num_of_append (t.yyyy ++ '-' :: (t.mm ++ '-' :: (t.dd ++ t.sep :: (t.hh ++ [':']))))
      (':' :: t.ss ++ rest) (by simp [StampText.head])
      (by simp [hy, hm, hd, hh, hdash, hsep, hcolon]) h.nn rfl (by decide) (by decide)
  have hsecond : num (t.head ++ rest) 17 19 = some (decimal t.ss) :=
    num_of_append (t.yyyy ++ '-' :: (t.mm ++ '-' :: (t.dd ++ t.sep :: (t.hh ++ ':' ::
      (t.nn ++ [':']))))) rest (by simp [StampText.head])
      (by simp [hy, hm, hd, hh, hn, hdash, hsep, hcolon]) h.ss rfl (by decide) (by decide)
  rw [stampFields, hyear, hmonth, hday, hhour, hminute, hsecond]
  rfl

/-! ## The fraction and the zone -/

theorem skipFraction_dot (frac : List Char) :
    skipFraction ('.' :: frac) =
      some (if frac.takeWhile Char.isDigit = [] then none
        else some (frac.dropWhile Char.isDigit)) := by
  have hsplit : frac.takeWhile Char.isDigit ++ frac.dropWhile Char.isDigit = frac :=
    List.takeWhile_append_dropWhile
  have hlen : utf8Len frac =
      utf8Len (frac.takeWhile Char.isDigit) + utf8Len (frac.dropWhile Char.isDigit) := by
    rw [← String.utf8Len_append, hsplit]
  have hdigits : utf8Len frac - utf8Len (frac.dropWhile Char.isDigit) =
      utf8Len (frac.takeWhile Char.isDigit) := by omega
  unfold skipFraction
  rw [if_pos List.head?_cons, List.tail_cons]
  dsimp only
  rw [hdigits]
  by_cases hnone : frac.takeWhile Char.isDigit = []
  · rw [if_pos hnone, hnone]
    rfl
  · have hcut := splitAtByte_append (frac.takeWhile Char.isDigit) (frac.dropWhile Char.isDigit)
    rw [hsplit] at hcut
    rw [if_neg hnone, if_neg (fun h => hnone (String.utf8Len_eq_zero.1 h)), hcut]
    rfl

theorem skipFraction_of_ne {rest : List Char} (h : rest.head? ≠ some '.') :
    skipFraction rest = some (some rest) := by
  unfold skipFraction
  rw [if_neg h]

/-- Looking for a fraction never panics. -/
theorem skipFraction_ne_none (rest : List Char) : ∃ outcome, skipFraction rest = some outcome := by
  by_cases hdot : rest.head? = some '.'
  · obtain ⟨frac, rfl⟩ := List.head?_eq_some_iff.1 hdot
    exact ⟨_, skipFraction_dot frac⟩
  · exact ⟨_, skipFraction_of_ne hdot⟩

/-- What is left is a zone exactly if the text was an optional fraction and a zone. -/
theorem skipFraction_zone_iff (rest : List Char) (zone : Char)
    (hzone : zone = 'Z' ∨ zone = 'z') :
    skipFraction rest = some (some [zone]) ↔
      rest = [zone] ∨ ∃ digits, rest = '.' :: (digits ++ [zone]) ∧ digits ≠ [] ∧
        ∀ c ∈ digits, c.isDigit = true := by
  have hnotDigit : zone.isDigit = false := by rcases hzone with rfl | rfl <;> decide
  have hnotDot : zone ≠ '.' := by rcases hzone with rfl | rfl <;> decide
  by_cases hdot : rest.head? = some '.'
  · obtain ⟨frac, rfl⟩ := List.head?_eq_some_iff.1 hdot
    rw [skipFraction_dot]
    constructor
    · intro h
      split at h
      · cases h
      · rename_i hnone
        have hrest : frac.dropWhile Char.isDigit = [zone] := by simpa using h
        refine .inr ⟨frac.takeWhile Char.isDigit, ?_, hnone, fun c hc => ?_⟩
        · rw [← hrest, List.takeWhile_append_dropWhile]
        · exact List.all_eq_true.1 List.all_takeWhile c hc
    · rintro (h | ⟨digits, h, hnonempty, hdigits⟩)
      · exact absurd (List.cons.inj h).1.symm hnotDot
      · obtain ⟨-, rfl⟩ := List.cons.inj h
        rw [List.takeWhile_append_of_pos hdigits, List.dropWhile_append_of_pos hdigits]
        simp [hnotDigit, hnonempty]
  · rw [skipFraction_of_ne hdot]
    constructor
    · intro h
      exact .inl (by simpa using h)
    · rintro (rfl | ⟨digits, rfl, -⟩)
      · rfl
      · exact absurd rfl hdot

/-! ## Instants -/

/-- The fields name a day of the calendar and a time of day; second 60 is a leap second. -/
structure Stamp.At (stamp : Stamp) (d : Date) : Prop where
  year : d.year = stamp.year
  month : d.month = stamp.month
  day : d.day = stamp.day
  hour : stamp.hour ≤ 23
  minute : stamp.minute ≤ 59
  second : stamp.second ≤ 60

/-- Seconds from the start of the epoch to a time of a day. -/
def secondsAt (d : Date) (stamp : Stamp) : Int :=
  (d.number - epoch.number) * 86400 + stamp.hour * 3600 + stamp.minute * 60 + stamp.second

theorem Stamp.inRange_iff (stamp : Stamp) : stamp.inRange = true ↔ ∃ d, stamp.At d := by
  simp only [Stamp.inRange, Bool.and_eq_true, Bool.not_eq_true', Bool.or_eq_false_iff,
    Bool.not_eq_false', decide_eq_true_eq, decide_eq_false_iff_not]
  constructor
  · rintro ⟨⟨⟨hmonth, hday⟩, hlast⟩, ⟨hhour, hminute⟩, hsecond⟩
    rw [daysInMonth_eq hmonth.1 hmonth.2] at hlast
    exact ⟨⟨stamp.year, stamp.month, stamp.day, hmonth, by omega, by omega⟩, rfl, rfl, rfl,
      by omega, by omega, by omega⟩
  · rintro ⟨d, hat⟩
    have hmonth := d.month_mem
    have hday := d.day_mem
    rw [hat.month] at hmonth
    rw [hat.year, hat.month, hat.day] at hday
    rw [daysInMonth_eq hmonth.1 hmonth.2]
    exact ⟨⟨⟨hmonth, by omega⟩, by omega⟩, ⟨by have := hat.hour; omega,
      by have := hat.minute; omega⟩, by have := hat.second; omega⟩

/-- The fields are those of digits: none is negative, and the year has four. -/
structure Stamp.Written (stamp : Stamp) : Prop where
  year : 0 ≤ stamp.year ∧ stamp.year ≤ 9999
  hour : 0 ≤ stamp.hour
  minute : 0 ≤ stamp.minute
  second : 0 ≤ stamp.second

theorem StampText.HeadFormed.written {t : StampText} (h : t.HeadFormed) : t.stamp.Written := by
  have hyear := (i64FromStr_digits h.yyyy (by decide) (by decide)).2
  have hpow : (10 : Int) ^ 4 = 10000 := by decide
  exact ⟨⟨hyear.1, by have := hyear.2; change decimal t.yyyy ≤ 9999; omega⟩,
    (i64FromStr_digits h.hh (by decide) (by decide)).2.1,
    (i64FromStr_digits h.nn (by decide) (by decide)).2.1,
    (i64FromStr_digits h.ss (by decide) (by decide)).2.1⟩

theorem Stamp.seconds_of_dev {profile : Profile} {stamp : Stamp} {n : Int}
    (h : stamp.seconds .dev = some n) : stamp.seconds profile = some n := by
  unfold Stamp.seconds at h ⊢
  obtain ⟨days, hdays, h⟩ := Option.bind_eq_some_iff.1 h
  rw [daysFromCivil_of_dev hdays]
  refine i64_bind_of_dev h fun _ h => i64_bind_of_dev h fun _ h => i64_bind_of_dev h fun _ h => ?_
  exact i64_bind_of_dev h fun _ h => i64_bind_of_dev h fun _ h => i64_of_dev h

/-- A four-digit year is far from overflow. -/
theorem Stamp.seconds_eq (profile : Profile) {stamp : Stamp} {d : Date} (hat : stamp.At d)
    (hwritten : stamp.Written) : stamp.seconds profile = some (secondsAt d stamp) := by
  refine Stamp.seconds_of_dev ?_
  obtain ⟨hyear, hhour, hminute, hsecond⟩ := hwritten
  have hhour' := hat.hour
  have hminute' := hat.minute
  have hsecond' := hat.second
  have hdays : daysFromCivil .dev stamp.year stamp.month stamp.day =
      some (d.number - epoch.number) := by
    rw [← hat.year, ← hat.month, ← hat.day, daysFromCivil_date]
    have hfirst : firstDay.year = -25252734927764585 := rfl
    have hlast : lastDay.year = 25252734927766554 := rfl
    rw [← hat.year] at hyear
    refine ⟨rfl, ?_, ?_⟩
    · unfold Date.Before
      omega
    · unfold Date.Before
      omega
  have hnumber : -1000000 ≤ d.number - epoch.number ∧ d.number - epoch.number ≤ 4000000 := by
    have hmem := d.number_mem
    have hlow := @yearStart_mono 0 d.year (by rw [hat.year]; exact hyear.1)
    have hhigh := @yearStart_mono (d.year + 1) 10000 (by rw [hat.year]; omega)
    have hzero : yearStart 0 = -366 := by decide
    have hten : yearStart 10000 = 3652059 := by decide
    rw [epoch_number]
    omega
  unfold Stamp.seconds secondsAt
  rw [hdays]
  simp only [Option.bind_eq_bind, Option.bind_some, i64_dev_bind_eq_some, i64_dev_eq_some, and_true]
  unfold Fits I64_MIN I64_MAX
  omega

/-- One instant comes before another: days before times of day. -/
def Earlier (d : Date) (a : Stamp) (e : Date) (b : Stamp) : Prop :=
  d.Before e ∨ d = e ∧ (a.hour < b.hour ∨
    a.hour = b.hour ∧ (a.minute < b.minute ∨ a.minute = b.minute ∧ a.second < b.second))

theorem secondsAt_lt {d e : Date} {a b : Stamp} (ha : a.At d) (hb : b.Written)
    (hminute : 0 ≤ a.minute) (hsecond : a.second ≤ 59) (h : Earlier d a e b) :
    secondsAt d a < secondsAt e b := by
  have hhour := ha.hour
  have hminute' := ha.minute
  obtain ⟨-, hbhour, hbminute, hbsecond⟩ := hb
  unfold secondsAt
  rcases h with hday | ⟨rfl, htime⟩
  · have := Date.number_lt hday
    omega
  · omega

/-! ## The whole timestamp -/

/-- A timestamp in its form, on a day of the calendar. -/
def Denotes (s : String) (t : StampText) (d : Date) : Prop :=
  s.toList = t.chars ∧ t.WellFormed ∧ t.stamp.At d

variable (profile : Profile)

theorem parse_of_unchecked {s : String}
    (h : ¬ ∃ (t : StampText) (rest : List Char), t.HeadFormed ∧ s.toList = t.head ++ rest) :
    parseRfc3339Utc profile s = some none := by
  rw [← checked_iff, not_and_or] at h
  unfold parseRfc3339Utc
  dsimp only
  by_cases hlen : (utf8Bytes s.toList).length < 19
  · rw [if_pos hlen]
  · rw [if_neg hlen]
    rcases h with h | h
    · exact absurd (Nat.le_of_not_lt hlen) h
    · rw [if_pos (by simpa using h)]

/-- Past the checks, what is left to decide is the ranges and the rest of the text. -/
theorem parse_of_checked {s : String} {t : StampText} {rest : List Char} (ht : t.HeadFormed)
    (htext : s.toList = t.head ++ rest) :
    parseRfc3339Utc profile s =
      if !t.stamp.inRange then some none else t.stamp.withZone profile (skipFraction rest) := by
  have hchecked := (checked_iff s.toList).2 ⟨t, rest, ht, htext⟩
  have hcut : splitAtByte (t.head ++ rest) 19 = some (t.head, rest) := by
    have hbytes : utf8Len t.head = 19 := (utf8Len_of_narrow ht.narrow).trans ht.length
    rw [← hbytes]
    exact splitAtByte_append t.head rest
  unfold parseRfc3339Utc
  dsimp only
  rw [if_neg (Nat.not_lt.2 hchecked.1), hchecked.2, htext, stampFields_head ht rest]
  dsimp only
  rw [hcut]
  rfl

/-- The fields and the rest of a text do not depend on how it is taken apart. -/
theorem denotes_iff {s : String} {t : StampText} {rest : List Char} (ht : t.HeadFormed)
    (htext : s.toList = t.head ++ rest) (stamp : Stamp) (d : Date) :
    (∃ t', Denotes s t' d ∧ t'.stamp = stamp) ↔
      stamp = t.stamp ∧ stamp.At d ∧
        ∃ zone, (zone = 'Z' ∨ zone = 'z') ∧ skipFraction rest = some (some [zone]) := by
  constructor
  · rintro ⟨t', ⟨hchars, hformed, hat⟩, rfl⟩
    rw [StampText.chars] at hchars
    have hfields := stampFields_head ht rest
    rw [← htext, hchars, stampFields_head hformed.toHeadFormed] at hfields
    have hsame : t.head ++ rest = t'.head ++ (t'.frac ++ [t'.zone]) := htext.symm.trans hchars
    obtain ⟨-, hrest⟩ := List.append_inj hsame
      (by rw [ht.length, hformed.toHeadFormed.length])
    refine ⟨Option.some.inj hfields, hat, t'.zone, hformed.zone, ?_⟩
    rw [skipFraction_zone_iff rest t'.zone hformed.zone, hrest]
    rcases hformed.frac with hfrac | ⟨digits, hfrac, hnonempty, hdigits⟩
    · exact .inl (by rw [hfrac]; rfl)
    · exact .inr ⟨digits, by rw [hfrac]; rfl, hnonempty, hdigits⟩
  · rintro ⟨rfl, hat, zone, hzone, hskip⟩
    rw [skipFraction_zone_iff rest zone hzone] at hskip
    rcases hskip with rfl | ⟨digits, rfl, hnonempty, hdigits⟩
    · exact ⟨{ t with frac := [], zone := zone }, ⟨htext, ⟨⟨ht.yyyy, ht.mm, ht.dd, ht.sep, ht.hh,
        ht.nn, ht.ss⟩, .inl rfl, hzone⟩, hat⟩, rfl⟩
    · exact ⟨{ t with frac := '.' :: digits, zone := zone }, ⟨htext, ⟨⟨ht.yyyy, ht.mm, ht.dd,
        ht.sep, ht.hh, ht.nn, ht.ss⟩, .inr ⟨digits, rfl, hnonempty, hdigits⟩, hzone⟩, hat⟩, rfl⟩

theorem withZone_eq {stamp : Stamp} {d : Date} (hat : stamp.At d) (hwritten : stamp.Written)
    (outcome : Option (List Char)) :
    stamp.withZone profile (some outcome) =
      some (if outcome = some ['Z'] ∨ outcome = some ['z'] then some (secondsAt d stamp)
        else none) := by
  cases outcome with
  | none => rfl
  | some rest =>
    simp only [Stamp.withZone, Stamp.seconds_eq profile hat hwritten, Option.some.injEq]
    split <;> rfl

theorem Stamp.At.unique {stamp : Stamp} {d e : Date} (hd : stamp.At d) (he : stamp.At e) : d = e :=
  Date.ext (hd.year.trans he.year.symm) (hd.month.trans he.month.symm) (hd.day.trans he.day.symm)

/-- **Parsing never panics, and returns a value exactly for timestamps: the seconds from the epoch
to the instant they denote.** -/
theorem parseRfc3339Utc_exact (s : String) :
    ∃ outcome, parseRfc3339Utc profile s = some outcome ∧
      ∀ value, outcome = some value ↔ ∃ t d, Denotes s t d ∧ value = secondsAt d t.stamp := by
  by_cases hhead : ∃ (t : StampText) (rest : List Char), t.HeadFormed ∧ s.toList = t.head ++ rest
  swap
  · refine ⟨none, parse_of_unchecked profile hhead, fun value => iff_of_false (by simp) ?_⟩
    rintro ⟨t, d, ⟨hchars, hformed, -⟩, -⟩
    exact hhead ⟨t, _, hformed.toHeadFormed, hchars⟩
  obtain ⟨t, rest, ht, htext⟩ := hhead
  have hparse := parse_of_checked profile ht htext
  by_cases hrange : t.stamp.inRange = true
  swap
  · rw [Bool.not_eq_true] at hrange
    rw [hrange] at hparse
    refine ⟨none, hparse, fun value => iff_of_false (by simp) ?_⟩
    rintro ⟨t', d, hdenotes, -⟩
    obtain ⟨hstamp, hat, -⟩ := (denotes_iff ht htext t'.stamp d).1 ⟨t', hdenotes, rfl⟩
    rw [hstamp] at hat
    rw [t.stamp.inRange_iff.2 ⟨d, hat⟩] at hrange
    cases hrange
  obtain ⟨d, hat⟩ := t.stamp.inRange_iff.1 hrange
  obtain ⟨outcome, hskip⟩ := skipFraction_ne_none rest
  rw [hrange, hskip, withZone_eq profile hat ht.written] at hparse
  refine ⟨_, hparse, fun value => ?_⟩
  constructor
  · intro h
    split at h
    · rename_i hzone
      have hzone : ∃ zone, (zone = 'Z' ∨ zone = 'z') ∧ skipFraction rest = some (some [zone]) := by
        rcases hzone with hzone | hzone
        · exact ⟨'Z', .inl rfl, by rw [hskip, hzone]⟩
        · exact ⟨'z', .inr rfl, by rw [hskip, hzone]⟩
      obtain ⟨t', hdenotes, hstamp⟩ := (denotes_iff ht htext t.stamp d).2 ⟨rfl, hat, hzone⟩
      exact ⟨t', d, hdenotes, by rw [hstamp]; exact (Option.some.inj h).symm⟩
    · cases h
  · rintro ⟨t', e, hdenotes, rfl⟩
    obtain ⟨hstamp, hat', zone, hzone, hskip'⟩ :=
      (denotes_iff ht htext t'.stamp e).1 ⟨t', hdenotes, rfl⟩
    rw [hstamp] at hat' ⊢
    obtain rfl := hat.unique hat'
    rw [hskip] at hskip'
    obtain rfl := Option.some.inj hskip'
    rw [if_pos]
    rcases hzone with rfl | rfl
    · exact .inl rfl
    · exact .inr rfl

/-- **Timestamps are read exactly**, in every profile; 1970-01-01 is day 0, and day numbers advance
by one from each day to the next between the first and the last day whose number 64 bits can compute.
Beyond them the dev profile has no numbers. -/
theorem timestamps_exact (profile : Profile) (s s' : String) (d : Date) :
    (∃ outcome, parseRfc3339Utc profile s = some outcome ∧
      ∀ value, outcome = some value ↔ ∃ t e, Denotes s t e ∧ value = secondsAt e t.stamp) ∧
    (∀ t t' e e', Denotes s t e → Denotes s' t' e' → t.stamp.second ≠ 60 →
      t'.stamp.second ≠ 60 → Earlier e t.stamp e' t'.stamp →
        secondsAt e t.stamp < secondsAt e' t'.stamp) ∧
    daysFromCivil profile epoch.year epoch.month epoch.day = some 0 ∧
    (¬ d.Before firstDay → d.Before lastDay → CountsOn profile d) ∧
    (CountsOn .dev d → ¬ d.Before firstDay ∧ d.Before lastDay) := by
  refine ⟨parseRfc3339Utc_exact profile s, ?_, daysFromCivil_of_dev (by decide), ?_,
    (countsOn_dev_iff d).1⟩
  · rintro t t' e e' ⟨-, hformed, hat⟩ ⟨-, hformed', -⟩ hleap - hearlier
    have hwritten := hformed.toHeadFormed.written
    have hsecond := hat.second
    exact secondsAt_lt hat hformed'.toHeadFormed.written hwritten.minute (by omega) hearlier
  · intro hfirst hlast
    exact countsOn_of_dev ((countsOn_dev_iff d).2 ⟨hfirst, hlast⟩)

def Sample.leapDay : Date := ⟨2024, 2, 29, by decide, by decide⟩

def Sample.lastSecond : StampText :=
  ⟨['2', '0', '2', '4'], ['0', '2'], ['2', '9'], 'T', ['2', '3'], ['5', '9'], ['5', '9'], [], 'Z'⟩

/-- The second after it, with a fraction. -/
def Sample.nextSecond : StampText :=
  ⟨['2', '0', '2', '4'], ['0', '3'], ['0', '1'], 't', ['0', '0'], ['0', '0'], ['0', '0'],
    ['.', '5'], 'z'⟩

theorem timestamps_exact_sample :
    parseRfc3339Utc .release "2024-02-29T23:59:59Z" =
        some (some (secondsAt Sample.leapDay Sample.lastSecond.stamp)) ∧
      secondsAt Sample.leapDay Sample.lastSecond.stamp <
        secondsAt Sample.leapDay.next Sample.nextSecond.stamp ∧
      CountsOn .release Sample.leapDay := by
  obtain ⟨⟨outcome, hparse, hvalue⟩, hearlier, -, hcounts, -⟩ := timestamps_exact .release
    "2024-02-29T23:59:59Z" "2024-03-01t00:00:00.5z" Sample.leapDay
  have hlast : Denotes "2024-02-29T23:59:59Z" Sample.lastSecond Sample.leapDay :=
    ⟨by decide, ⟨⟨by decide, by decide, by decide, .inl rfl, by decide, by decide, by decide⟩,
      .inl rfl, .inl rfl⟩, ⟨rfl, rfl, rfl, by decide, by decide, by decide⟩⟩
  have hnext : Denotes "2024-03-01t00:00:00.5z" Sample.nextSecond Sample.leapDay.next :=
    ⟨by decide, ⟨⟨by decide, by decide, by decide, .inr rfl, by decide, by decide, by decide⟩,
      .inr ⟨['5'], rfl, by decide, List.all_eq_true.1 rfl⟩, .inr rfl⟩,
      ⟨rfl, rfl, rfl, by decide, by decide, by decide⟩⟩
  rw [(hvalue _).2 ⟨_, _, hlast, rfl⟩] at hparse
  refine ⟨hparse, hearlier _ _ _ _ hlast hnext (by decide) (by decide) (.inl (by decide)), ?_⟩
  exact hcounts (by decide) (by decide)

/-- The day whose number is the largest of 64 bits: the dev profile panics on it, and the release
profile wraps on the day after it. -/
theorem daysFromCivil_overflows :
    daysFromCivil .dev 25252734927768524 7 27 = none ∧
      daysFromCivil .release 25252734927768524 7 27 = some I64_MAX ∧
      daysFromCivil .release 25252734927768524 7 28 = some I64_MIN ∧
      ∀ profile, ¬ CountsOn profile ⟨25252734927768524, 7, 27, by decide, by decide⟩ := by
  have hpanics : daysFromCivil .dev 25252734927768524 7 27 = none := by decide
  have hlargest : daysFromCivil .release 25252734927768524 7 27 = some I64_MAX := by decide
  have hwraps : daysFromCivil .release 25252734927768524 7 28 = some I64_MIN := by decide
  refine ⟨hpanics, hlargest, hwraps, ?_⟩
  rintro (_ | _) ⟨n, hn, hnext⟩
  · rw [hpanics] at hn
    cases hn
  · have hnext : daysFromCivil .release 25252734927768524 7 28 = some (n + 1) := hnext
    rw [hlargest] at hn
    rw [hwraps, ← Option.some.inj hn] at hnext
    exact absurd hnext (by decide)

end Experimint.AmmPriceKeeper
