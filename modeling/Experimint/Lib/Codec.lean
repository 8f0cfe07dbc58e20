import Mathlib.Logic.Equiv.Defs

/-!
# Prefix-free codecs and records that have grown

A codec reads its own encoding in front of anything (`decode_encode`), so fields are written one
after the other and nothing has to say where one ends.

A `Layout` is a record that gained its last field in some version: rows of that version and before
end where the field would begin.  `Layout.parse_append` is the whole content of an upgrade by
appending: the old bytes followed by the encoding of a default are the encoding of the old record
with the default filled in.
-/

set_option autoImplicit false

namespace Experimint

/-- An encoding that is read back whatever follows it. -/
structure Codec (σ α : Type) where
  encode : α → List σ
  decode : List σ → Option (α × List σ)
  decode_encode : ∀ a rest, decode (encode a ++ rest) = some (a, rest)

namespace Codec

variable {σ α β : Type}

/-- Two fields, one after the other. -/
def pair (c : Codec σ α) (d : Codec σ β) : Codec σ (α × β) where
  encode p := c.encode p.1 ++ d.encode p.2
  decode bytes := (c.decode bytes).bind fun x => (d.decode x.2).map fun y => ((x.1, y.1), y.2)
  decode_encode := by
    intro p rest
    rw [List.append_assoc, c.decode_encode, Option.bind_some, d.decode_encode]
    rfl

/-- The same bytes read as another type. -/
def map (c : Codec σ α) (e : α ≃ β) : Codec σ β where
  encode b := c.encode (e.symm b)
  decode bytes := (c.decode bytes).map fun x => (e x.1, x.2)
  decode_encode := by
    intro b rest
    rw [c.decode_encode, Option.map_some, Equiv.apply_symm_apply]

/-- Decodes a whole row. -/
def parse (c : Codec σ α) (bytes : List σ) : Option α :=
  match c.decode bytes with
  | some (a, []) => some a
  | _ => none

theorem parse_encode (c : Codec σ α) (a : α) : c.parse (c.encode a) = some a := by
  have h := c.decode_encode a []
  rw [List.append_nil] at h
  rw [parse, h]

/-- What is decoded is encoded by the bytes that were read. -/
def Canonical (c : Codec σ α) : Prop :=
  ∀ bytes a rest, c.decode bytes = some (a, rest) → bytes = c.encode a ++ rest

/-- Any encoding that determines its value and what follows it. -/
noncomputable def ofPrefixFree (encode : α → List σ)
    (h : ∀ a b s t, encode a ++ s = encode b ++ t → a = b ∧ s = t) : Codec σ α where
  encode := encode
  decode bytes :=
    open Classical in
    if hex : ∃ x : α × List σ, encode x.1 ++ x.2 = bytes then some (Classical.choose hex) else none
  decode_encode := by
    intro a rest
    have hex : ∃ x : α × List σ, encode x.1 ++ x.2 = encode a ++ rest := ⟨(a, rest), rfl⟩
    rw [dif_pos hex]
    obtain ⟨hvalue, hrest⟩ := h _ _ _ _ (Classical.choose_spec hex)
    exact congrArg some (Prod.ext hvalue hrest)

/-- Encodings of one length. -/
noncomputable def ofLength (encode : α → List σ) (n : Nat) (hlen : ∀ a, (encode a).length = n)
    (hinj : Function.Injective encode) : Codec σ α :=
  ofPrefixFree encode fun a b s t heq => by
    obtain ⟨hvalue, hrest⟩ := List.append_inj heq (by rw [hlen, hlen])
    exact ⟨hinj hvalue, hrest⟩

end Codec

/-- The encodings of values of `D` determine the value and what follows it. -/
def SelfDelimitingOn {σ α : Type} (D : α → Prop) (encode : α → List σ) : Prop :=
  ∀ a b s t, D a → D b → encode a ++ s = encode b ++ t → a = b ∧ s = t

/-- Fields of one kind, as many of them on both sides. -/
theorem SelfDelimitingOn.flatMap {σ α : Type} {D : α → Prop} {encode : α → List σ}
    (h : SelfDelimitingOn D encode) {as bs : List α} {s t : List σ} (hlen : as.length = bs.length)
    (has : ∀ a ∈ as, D a) (hbs : ∀ b ∈ bs, D b)
    (heq : as.flatMap encode ++ s = bs.flatMap encode ++ t) : as = bs ∧ s = t := by
  induction as generalizing bs with
  | nil =>
    obtain rfl : bs = [] := List.length_eq_zero_iff.1 hlen.symm
    exact ⟨rfl, heq⟩
  | cons a as ih =>
    obtain ⟨b, bs, rfl⟩ := List.exists_cons_of_length_eq_add_one hlen.symm
    rw [List.flatMap_cons, List.flatMap_cons, List.append_assoc, List.append_assoc] at heq
    obtain ⟨hab, hrest⟩ := h a b _ _ (has a (List.mem_cons_self ..)) (hbs b (List.mem_cons_self ..))
      heq
    obtain ⟨htail, hst⟩ := ih (Nat.succ.inj hlen) (fun x hx => has x (List.mem_cons_of_mem _ hx))
      (fun x hx => hbs x (List.mem_cons_of_mem _ hx)) hrest
    exact ⟨by rw [hab, htail], hst⟩

/-! ## Byte strings -/

/-- Each byte behind a 1, and a 0 at the end. -/
def stuff (bytes : List UInt8) : List UInt8 := bytes.flatMap (fun x => [1, x]) ++ [0]

def unstuff : List UInt8 → Option (List UInt8 × List UInt8)
  | [] => none
  | [m] => if m = 0 then some ([], []) else none
  | m :: x :: rest =>
    if m = 0 then some ([], x :: rest)
    else if m = 1 then (unstuff rest).map fun r => (x :: r.1, r.2)
    else none

theorem unstuff_stuff (bytes rest : List UInt8) :
    unstuff (stuff bytes ++ rest) = some (bytes, rest) := by
  induction bytes with
  | nil => cases rest <;> rfl
  | cons x bytes ih =>
    have h : unstuff (stuff (x :: bytes) ++ rest) =
        (unstuff (stuff bytes ++ rest)).map fun r => (x :: r.1, r.2) := rfl
    rw [h, ih]
    rfl

theorem stuff_of_unstuff {bytes : List UInt8} {r : List UInt8 × List UInt8}
    (h : unstuff bytes = some r) : bytes = stuff r.1 ++ r.2 := by
  induction bytes using unstuff.induct generalizing r with
  | case1 => cases h
  | case2 =>
    cases h
    rfl
  | case3 m hm => simp [unstuff, hm] at h
  | case4 x rest =>
    cases h
    rfl
  | case5 x rest hm ih =>
    obtain ⟨s, hs, rfl⟩ := Option.map_eq_some_iff.1 h
    exact congrArg (fun t => 1 :: x :: t) (ih hs)
  | case6 m x rest hm hm' => simp [unstuff, hm, hm'] at h

/-- Byte strings of any length, delimited by stuffing. -/
def Codec.stuffed : Codec UInt8 (List UInt8) := ⟨stuff, unstuff, unstuff_stuff⟩

theorem Codec.stuffed_canonical : stuffed.Canonical := fun _ _ _ => stuff_of_unstuff

/-! ## Records that have grown -/

/-- A record whose last field is missing from rows of version `last` and before. -/
structure Layout (σ ρ : Type) where
  Kept : Type
  Added : Type
  kept : Codec σ Kept
  added : Codec σ Added
  split : Kept × Added ≃ ρ
  last : Nat
  fill : Added

namespace Layout

variable {σ ρ : Type} (l : Layout σ ρ)

/-- How version `v` writes a record; a field it does not have is not looked at. -/
def encodeAt (v : Nat) (r : ρ) : List σ :=
  l.kept.encode (l.split.symm r).1 ++
    if v ≤ l.last then [] else l.added.encode (l.split.symm r).2

/-- The codec of the versions that have the field. -/
def current : Codec σ ρ := (l.kept.pair l.added).map l.split

/-- How version `v` reads a row. -/
def parseAt (v : Nat) (bytes : List σ) : Option ρ :=
  if v ≤ l.last then (l.kept.parse bytes).map fun k => l.split (k, l.fill)
  else l.current.parse bytes

/-- The record with a field that version `v` does not have at its default. -/
def grow (v : Nat) (r : ρ) : ρ :=
  if v ≤ l.last then l.split ((l.split.symm r).1, l.fill) else r

/-- What an upgrade from version `v` has to append. -/
def missing (v : Nat) : List σ := if v ≤ l.last then l.added.encode l.fill else []

theorem parseAt_encodeAt (v : Nat) (r : ρ) : l.parseAt v (l.encodeAt v r) = some (l.grow v r) := by
  unfold parseAt encodeAt grow
  split
  · rw [List.append_nil, Codec.parse_encode, Option.map_some]
  · exact l.current.parse_encode r

/-- **Appending the default to a row of an old version gives a row of the current one**, with the
old fields unchanged. -/
theorem parse_append (v : Nat) (r : ρ) :
    l.current.parse (l.encodeAt v r ++ l.missing v) = some (l.grow v r) := by
  unfold encodeAt missing grow
  split
  · have h := l.current.parse_encode (l.split ((l.split.symm r).1, l.fill))
    rw [List.append_nil]
    simpa [current, Codec.map, Codec.pair] using h
  · rw [List.append_nil]
    exact l.current.parse_encode r

end Layout

end Experimint
