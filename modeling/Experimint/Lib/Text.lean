import Mathlib.Data.String.Basic

/-!
# Byte offsets in a text

A text is a list of characters, and a byte offset counts their lengths in UTF-8
(`String.utf8Len`).  An offset inside a character or past the end is no place to cut a text:
`splitAtByte` has no result there.

A byte below 128 is a whole character: a text that begins with `n` such bytes begins with `n`
characters of that length (`exists_ascii_head`).
-/

set_option autoImplicit false

namespace Experimint

open String (utf8Len)

/-- The text before and after a byte offset. -/
def splitAtByte : (text : List Char) → (n : Nat) → Option (List Char × List Char)
  | text, 0 => some ([], text)
  | [], _ + 1 => none
  | c :: text, n + 1 =>
    if c.utf8Size ≤ n + 1 then
      (splitAtByte text (n + 1 - c.utf8Size)).map fun cut => (c :: cut.1, cut.2)
    else none

/-- The text between two byte offsets. -/
def sliceBytes (text : List Char) (start stop : Nat) : Option (List Char) :=
  (splitAtByte text start).bind fun cut => (splitAtByte cut.2 (stop - start)).map Prod.fst

@[simp] theorem splitAtByte_zero (text : List Char) : splitAtByte text 0 = some ([], text) := by
  rw [splitAtByte]

theorem splitAtByte_append (before after : List Char) :
    splitAtByte (before ++ after) (utf8Len before) = some (before, after) := by
  induction before with
  | nil => exact splitAtByte_zero after
  | cons c before ih =>
    have hpos := c.utf8Size_pos
    obtain ⟨n, hn⟩ : ∃ n, utf8Len before + c.utf8Size = n + 1 :=
      ⟨utf8Len before + c.utf8Size - 1, by omega⟩
    rw [List.cons_append, String.utf8Len_cons, hn, splitAtByte, if_pos (by omega), ← hn,
      Nat.add_sub_cancel, ih, Option.map_some]

/-- A slice that starts where a part of the text ends. -/
theorem sliceBytes_append {before after : List Char} {start stop : Nat}
    (h : utf8Len before = start) :
    sliceBytes (before ++ after) start stop = (splitAtByte after (stop - start)).map Prod.fst := by
  rw [sliceBytes, ← h, splitAtByte_append, Option.bind_some]

theorem splitAtByte_cons_of_le {c : Char} {text : List Char} {n : Nat} (h : c.utf8Size ≤ n) :
    splitAtByte (c :: text) n =
      (splitAtByte text (n - c.utf8Size)).map fun cut => (c :: cut.1, cut.2) := by
  have hpos := c.utf8Size_pos
  obtain ⟨m, rfl⟩ : ∃ m, n = m + 1 := ⟨n - 1, by omega⟩
  rw [splitAtByte, if_pos h]

/-- An offset inside the first character. -/
theorem splitAtByte_cons_of_lt {c : Char} {text : List Char} {n : Nat} (hpos : 0 < n)
    (h : n < c.utf8Size) : splitAtByte (c :: text) n = none := by
  obtain ⟨m, rfl⟩ : ∃ m, n = m + 1 := ⟨n - 1, by omega⟩
  rw [splitAtByte, if_neg (by omega)]

/-- A slice that is a part of the text. -/
theorem sliceBytes_of_append {before field : List Char} (after : List Char) {start stop : Nat}
    (hbefore : utf8Len before = start) (hfield : utf8Len field = stop - start) :
    sliceBytes (before ++ (field ++ after)) start stop = some field := by
  rw [sliceBytes_append hbefore, ← hfield, splitAtByte_append, Option.map_some]

/-! ## Bytes -/

/-- The text in UTF-8. -/
def utf8Bytes (text : List Char) : List UInt8 := text.flatMap String.utf8EncodeChar

/-- The byte of a character of length one. -/
def asciiByte (c : Char) : UInt8 := UInt8.ofNat c.toNat

theorem utf8EncodeChar_of_narrow {c : Char} (h : c.utf8Size = 1) :
    String.utf8EncodeChar c = [asciiByte c] := by
  have hval : c.val.toNat ≤ 127 := Char.utf8Size_eq_one_iff.1 h
  unfold String.utf8EncodeChar
  rw [if_pos hval]
  rfl

theorem toNat_asciiByte {c : Char} (h : c.utf8Size = 1) : (asciiByte c).toNat = c.toNat := by
  have hval : c.toNat ≤ 127 := Char.utf8Size_eq_one_iff.1 h
  rw [asciiByte, UInt8.toNat_ofNat']
  omega

theorem asciiByte_inj {c d : Char} (hc : c.utf8Size = 1) (hd : d.utf8Size = 1) :
    asciiByte c = asciiByte d ↔ c = d := by
  refine ⟨fun h => ?_, congrArg asciiByte⟩
  have hnat : c.toNat = d.toNat := by
    rw [← toNat_asciiByte hc, h, toNat_asciiByte hd]
  rw [← c.ofNat_toNat, hnat, d.ofNat_toNat]

/-- The first byte of a longer character is not below 128. -/
theorem utf8EncodeChar_of_wide {c : Char} (h : c.utf8Size ≠ 1) :
    ∃ b rest, String.utf8EncodeChar c = b :: rest ∧ 128 ≤ b.toNat := by
  have hval : ¬ c.val.toNat ≤ 127 := fun hle => h (Char.utf8Size_eq_one_iff.2 hle)
  unfold String.utf8EncodeChar
  rw [if_neg hval]
  split
  · refine ⟨_, _, rfl, ?_⟩
    rw [UInt8.toNat_ofNat']
    omega
  split
  · refine ⟨_, _, rfl, ?_⟩
    rw [UInt8.toNat_ofNat']
    omega
  · refine ⟨_, _, rfl, ?_⟩
    rw [UInt8.toNat_ofNat']
    omega

theorem utf8Bytes_append_of_narrow {before : List Char} (after : List Char)
    (h : ∀ c ∈ before, c.utf8Size = 1) :
    utf8Bytes (before ++ after) = before.map asciiByte ++ utf8Bytes after := by
  induction before with
  | nil => rfl
  | cons c before ih =>
    have hrest := ih fun d hd => h d (.tail _ hd)
    unfold utf8Bytes at hrest ⊢
    rw [List.cons_append, List.flatMap_cons, utf8EncodeChar_of_narrow (h c (.head _)), hrest]
    rfl

theorem utf8Len_of_narrow {text : List Char} (h : ∀ c ∈ text, c.utf8Size = 1) :
    utf8Len text = text.length := by
  induction text with
  | nil => rfl
  | cons c text ih =>
    rw [String.utf8Len_cons, List.length_cons, ih fun d hd => h d (.tail _ hd), h c (.head _)]

/-- **Bytes below 128 are characters.** -/
theorem exists_ascii_head {text : List Char} {n : Nat} (hlen : n ≤ (utf8Bytes text).length)
    (hascii : ∀ b ∈ (utf8Bytes text).take n, b.toNat < 128) :
    ∃ before after, text = before ++ after ∧ before.length = n ∧
      ∀ c ∈ before, c.utf8Size = 1 := by
  induction n generalizing text with
  | zero => exact ⟨[], text, rfl, rfl, by simp⟩
  | succ n ih =>
    cases text with
    | nil => exact absurd hlen (Nat.not_succ_le_zero n)
    | cons c text =>
      rw [utf8Bytes, List.flatMap_cons] at hlen hascii
      have hc : c.utf8Size = 1 := by
        by_contra hwide
        obtain ⟨b, rest, hbytes, hb⟩ := utf8EncodeChar_of_wide hwide
        rw [hbytes] at hascii
        have := hascii b (.head _)
        omega
      rw [utf8EncodeChar_of_narrow hc] at hlen hascii
      obtain ⟨before, after, rfl, hcount, hnarrow⟩ :=
        @ih text (Nat.le_of_succ_le_succ hlen) fun b hb => hascii b (.tail _ hb)
      refine ⟨c :: before, after, rfl, by rw [List.length_cons, hcount], ?_⟩
      intro d hd
      rcases List.mem_cons.1 hd with rfl | hd
      · exact hc
      · exact hnarrow d hd

end Experimint
