import Mathlib.Data.List.Lex
import Mathlib.Data.Finset.Card
import Experimint.Lib.Table

/-!
# Keyset pagination

A reader walks a table page by page: each request names the last key it has seen, and the answer
holds the next rows in key order together with the key to resume from.  The table may change in
any way between two requests.

* `lt_iff_concat_le` : over lexicographic strings the strings after `x` start at `x` followed by
  the least letter, so a half-open range can exclude exactly one key.
* `singleton_range_iff` : the strings with a given first letter form a half-open range.
* `walk_ascending`, `walk_complete`, `walk_finishes` : a walk ascends, misses no key that stays,
  and ends when finitely many keys ever appear.
-/

set_option autoImplicit false

namespace Experimint

/-! ## Strings in lexicographic order -/

instance byteLinearOrder : LinearOrder UInt8 where
  le_refl := UInt8.le_refl
  le_trans _ _ _ := UInt8.le_trans
  le_antisymm _ _ := UInt8.le_antisymm
  le_total := UInt8.le_total
  lt_iff_le_not_ge a b := by
    rw [UInt8.lt_iff_toNat_lt, UInt8.le_iff_toNat_le, UInt8.le_iff_toNat_le]
    omega
  toDecidableLE := inferInstance

section Lexicographic

variable {α : Type} [LinearOrder α]

theorem nil_le (x : List α) : [] ≤ x := not_lt.mp (List.not_lt_nil x)

theorem cons_le_cons_iff {a c : α} {x y : List α} :
    a :: x ≤ c :: y ↔ a < c ∨ a = c ∧ x ≤ y := by
  rw [le_iff_lt_or_eq, List.cons_lt_cons_iff, List.cons.injEq, le_iff_lt_or_eq]
  tauto

/-- Nothing lies strictly between a string and its extension by the least letter. -/
theorem lt_iff_concat_le {b : α} (hb : ∀ a, b ≤ a) (x y : List α) : x < y ↔ x ++ [b] ≤ y := by
  induction x generalizing y with
  | nil =>
    cases y with
    | nil => simp
    | cons c y =>
      have hc : b < c ∨ b = c := (hb c).lt_or_eq
      simpa [cons_le_cons_iff, nil_le] using hc
  | cons a x ih =>
    cases y with
    | nil => simp
    | cons c y => rw [List.cons_append, List.cons_lt_cons_iff, cons_le_cons_iff, ih]

/-- The strings between two adjacent letters are those that start with the first. -/
theorem singleton_range_iff {p q : α} (hq : ∀ a, a < q ↔ a ≤ p) (x : List α) :
    [p] ≤ x ∧ x < [q] ↔ x.head? = some p := by
  cases x with
  | nil => simp
  | cons c x =>
    have hnil : ¬ x < [] := List.not_lt_nil x
    rw [cons_le_cons_iff, List.cons_lt_cons_iff, hq, List.head?_cons, Option.some.injEq]
    constructor
    · rintro ⟨h | ⟨h, -⟩, hle | ⟨-, hlt⟩⟩
      · exact absurd hle (not_le.mpr h)
      · exact absurd hlt hnil
      · exact h.symm
      · exact absurd hlt hnil
    · rintro rfl
      exact ⟨Or.inr ⟨rfl, nil_le x⟩, Or.inl le_rfl⟩

end Lexicographic

namespace Keyset

variable {κ ν : Type} [LinearOrder κ]

/-! ## One page -/

/-- Rows of a table strictly after a cursor, in key order. -/
def after (t : Table κ ν) (cursor : Option κ) : List (κ × ν) :=
  t.scan fun k => cursor.all fun c => decide (c < k)

/-- At most `limit` rows after the cursor and, when more remain, the key to resume from. -/
def page (t : Table κ ν) (limit : Nat) (cursor : Option κ) : List (κ × ν) × Option κ :=
  let rows := after t cursor
  (rows.take limit,
    if limit < rows.length then (rows.take limit).getLast?.map Prod.fst else none)

theorem mem_after {t : Table κ ν} {cursor : Option κ} {r : κ × ν} :
    r ∈ after t cursor ↔ r ∈ t.rows ∧ ∀ c ∈ cursor, c < r.1 := by
  cases cursor <;> simp [after, Table.scan]

theorem sorted_after (t : Table κ ν) (cursor : Option κ) :
    (after t cursor).Pairwise fun a b => a.1 < b.1 :=
  t.sorted.sublist List.filter_sublist

/-- A page without a key to resume from holds everything after its cursor. -/
theorem page_last {t : Table κ ν} {limit : Nat} {cursor : Option κ} (hlimit : 0 < limit)
    (h : (page t limit cursor).2 = none) : (page t limit cursor).1 = after t cursor := by
  unfold page at h ⊢
  dsimp only at h ⊢
  split at h
  · rename_i hlt
    rw [Option.map_eq_none_iff, List.getLast?_eq_none_iff, List.take_eq_nil_iff] at h
    rcases h with h | h
    · omega
    · rw [h] at hlt
      exact absurd hlt (Nat.not_lt_zero _)
  · exact List.take_of_length_le (by omega)

/-- A page with a key to resume from ends in the row of that key. -/
theorem page_more {t : Table κ ν} {limit : Nat} {cursor : Option κ} {c : κ}
    (h : (page t limit cursor).2 = some c) :
    ∃ front v rest, (page t limit cursor).1 = front ++ [(c, v)] ∧
      after t cursor = (front ++ [(c, v)]) ++ rest := by
  unfold page at h ⊢
  dsimp only at h ⊢
  split at h
  · obtain ⟨⟨c', v⟩, hlast, rfl⟩ := Option.map_eq_some_iff.mp h
    obtain ⟨front, hfront⟩ := List.getLast?_eq_some_iff.mp hlast
    refine ⟨front, v, (after t cursor).drop limit, hfront, ?_⟩
    rw [← hfront, List.take_append_drop]
  · cases h

/-- What a page with a key to resume from has covered: the keys up to that key, and no others. -/
theorem page_covers {t : Table κ ν} {limit : Nat} {cursor : Option κ} {c : κ}
    (h : (page t limit cursor).2 = some c) {r : κ × ν} :
    r ∈ (page t limit cursor).1 ↔ r ∈ after t cursor ∧ r.1 ≤ c := by
  obtain ⟨front, v, rest, hpage, hafter⟩ := page_more h
  have hsorted := sorted_after t cursor
  rw [hafter, List.append_assoc, List.pairwise_append] at hsorted
  obtain ⟨-, hback, hfront⟩ := hsorted
  rw [hpage, hafter]
  constructor
  · intro hr
    refine ⟨List.mem_append_left _ hr, ?_⟩
    rcases List.mem_append.mp hr with hr | hr
    · exact (hfront r hr (c, v) (by simp)).le
    · rw [List.mem_singleton.mp hr]
  · rintro ⟨hr, hle⟩
    rcases List.mem_append.mp hr with hr | hr
    · exact hr
    · have hlt : c < r.1 := (List.pairwise_cons.mp hback).1 r hr
      exact absurd hle (not_le.mpr hlt)

/-- The key to resume from is the key of a row after the cursor. -/
theorem page_resume {t : Table κ ν} {limit : Nat} {cursor : Option κ} {c : κ}
    (h : (page t limit cursor).2 = some c) : ∃ v, (c, v) ∈ after t cursor := by
  obtain ⟨front, v, rest, -, hafter⟩ := page_more h
  exact ⟨v, by simp [hafter]⟩

theorem page_subset (t : Table κ ν) (limit : Nat) (cursor : Option κ) :
    (page t limit cursor).1.Sublist (after t cursor) := List.take_sublist _ _

/-! ## A walk -/

/-- Rows that the first `n` requests of a walk visit and, unless it has ended, the cursor of the
next request.  Request number `i` finds the table as `tables i`. -/
def walk (limit : Nat) (tables : Nat → Table κ ν) :
    Nat → Nat → Option κ → List (κ × ν) × Option (Option κ)
  | 0, _, cursor => ([], some cursor)
  | n + 1, i, cursor =>
    match page (tables i) limit cursor with
    | (rows, none) => (rows, none)
    | (rows, some c) =>
      (rows ++ (walk limit tables n (i + 1) (some c)).1, (walk limit tables n (i + 1) (some c)).2)

variable {limit : Nat} {tables : Nat → Table κ ν}

theorem walk_of_last {n i : Nat} {cursor : Option κ}
    (h : (page (tables i) limit cursor).2 = none) :
    walk limit tables (n + 1) i cursor = ((page (tables i) limit cursor).1, none) := by
  rw [walk]
  split
  · rename_i rows heq
    rw [heq]
  · rename_i rows c heq
    rw [heq] at h
    cases h

theorem walk_of_more {n i : Nat} {cursor : Option κ} {c : κ}
    (h : (page (tables i) limit cursor).2 = some c) :
    walk limit tables (n + 1) i cursor =
      ((page (tables i) limit cursor).1 ++ (walk limit tables n (i + 1) (some c)).1,
        (walk limit tables n (i + 1) (some c)).2) := by
  rw [walk]
  split
  · rename_i rows heq
    rw [heq] at h
    cases h
  · rename_i rows c' heq
    rw [heq] at h ⊢
    cases h
    rfl

/-- Every visited row lies after the cursor and was in the table at one of the requests. -/
theorem walk_mem {n i : Nat} {cursor : Option κ} {r : κ × ν}
    (h : r ∈ (walk limit tables n i cursor).1) :
    (∀ c ∈ cursor, c < r.1) ∧ ∃ j, i ≤ j ∧ j < i + n ∧ r ∈ (tables j).rows := by
  induction n generalizing i cursor with
  | zero => cases h
  | succ n ih =>
    -- a row of the first page, in the two places it can stand
    have hpage : r ∈ (page (tables i) limit cursor).1 →
        (∀ c ∈ cursor, c < r.1) ∧ ∃ j, i ≤ j ∧ j < i + (n + 1) ∧ r ∈ (tables j).rows := by
      intro hr
      obtain ⟨hrow, hlt⟩ := mem_after.mp ((page_subset _ _ _).subset hr)
      exact ⟨hlt, i, le_rfl, by omega, hrow⟩
    cases hnext : (page (tables i) limit cursor).2 with
    | none =>
      rw [walk_of_last hnext] at h
      exact hpage h
    | some c =>
      rw [walk_of_more hnext] at h
      rcases List.mem_append.mp h with h | h
      · exact hpage h
      · obtain ⟨hlt, j, hij, hj, hrow⟩ := ih h
        obtain ⟨v, hc⟩ := page_resume hnext
        refine ⟨?_, j, by omega, by omega, hrow⟩
        intro c' hc'
        exact ((mem_after.mp hc).2 c' hc').trans (hlt c rfl)

/-- **Order.** A walk visits strictly ascending keys, so none twice. -/
theorem walk_ascending (limit : Nat) (tables : Nat → Table κ ν) (n i : Nat)
    (cursor : Option κ) :
    (walk limit tables n i cursor).1.Pairwise fun a b => a.1 < b.1 := by
  induction n generalizing i cursor with
  | zero => exact List.Pairwise.nil
  | succ n ih =>
    have hpage : (page (tables i) limit cursor).1.Pairwise fun a b => a.1 < b.1 :=
      (sorted_after _ _).sublist (page_subset _ _ _)
    cases hnext : (page (tables i) limit cursor).2 with
    | none =>
      rw [walk_of_last hnext]
      exact hpage
    | some c =>
      rw [walk_of_more hnext]
      refine List.pairwise_append.mpr ⟨hpage, ih _ _, ?_⟩
      intro a ha b hb
      exact ((page_covers hnext).mp ha).2.trans_lt ((walk_mem hb).1 c rfl)

/-- **Completeness.** An ended walk has visited every key that was there at each request. -/
theorem walk_complete (hlimit : 0 < limit) {n i : Nat} {cursor : Option κ} {k : κ}
    (hend : (walk limit tables n i cursor).2 = none) (hk : ∀ c ∈ cursor, c < k)
    (hstays : ∀ j, i ≤ j → j < i + n → ∃ v, (k, v) ∈ (tables j).rows) :
    ∃ v, (k, v) ∈ (walk limit tables n i cursor).1 := by
  induction n generalizing i cursor with
  | zero => cases hend
  | succ n ih =>
    obtain ⟨v, hrow⟩ := hstays i le_rfl (by omega)
    have hafter : (k, v) ∈ after (tables i) cursor := mem_after.mpr ⟨hrow, hk⟩
    cases hnext : (page (tables i) limit cursor).2 with
    | none =>
      rw [walk_of_last hnext]
      exact ⟨v, by rw [page_last hlimit hnext]; exact hafter⟩
    | some c =>
      rw [walk_of_more hnext] at hend ⊢
      rcases le_or_gt k c with hle | hlt
      · exact ⟨v, List.mem_append_left _ ((page_covers hnext).mpr ⟨hafter, hle⟩)⟩
      · obtain ⟨v', hv'⟩ := ih hend (by rintro _ ⟨⟩; exact hlt) fun j hij hj =>
          hstays j (by omega) (by omega)
        exact ⟨v', List.mem_append_right _ hv'⟩

/-- **Termination.** A walk ends when finitely many keys ever appear. -/
theorem walk_finishes (limit : Nat) (tables : Nat → Table κ ν) {S : Finset κ}
    (hS : ∀ j k v, (k, v) ∈ (tables j).rows → k ∈ S)
    (i : Nat) (cursor : Option κ) : ∃ n, (walk limit tables n i cursor).2 = none := by
  -- each further request has fewer keys of `S` ahead of its cursor
  induction hm : (S.filter fun k => ∀ c ∈ cursor, c < k).card using Nat.strong_induction_on
    generalizing i cursor with
  | _ m ih =>
    cases hnext : (page (tables i) limit cursor).2 with
    | none => exact ⟨1, by rw [walk_of_last hnext]⟩
    | some c =>
      obtain ⟨v, hc⟩ := page_resume hnext
      obtain ⟨hrow, hlt⟩ := mem_after.mp hc
      have hfewer : (S.filter fun k => ∀ c' ∈ some c, c' < k).card < m := by
        rw [← hm]
        refine Finset.card_lt_card (Finset.ssubset_iff_of_subset ?_ |>.mpr ⟨c, ?_, ?_⟩)
        · intro k hk
          obtain ⟨hkS, hck⟩ := Finset.mem_filter.mp hk
          exact Finset.mem_filter.mpr ⟨hkS, fun c' hc' => (hlt c' hc').trans (hck c rfl)⟩
        · exact Finset.mem_filter.mpr ⟨hS i c v hrow, hlt⟩
        · intro hmem
          exact lt_irrefl c ((Finset.mem_filter.mp hmem).2 c rfl)
      obtain ⟨n, hn⟩ := ih _ hfewer (i + 1) (some c) rfl
      exact ⟨n + 1, by rw [walk_of_more hnext]; exact hn⟩

end Keyset
end Experimint
