import Mathlib.Data.List.Sort
import Mathlib.Data.Prod.Lex
import Mathlib.Algebra.BigOperators.Group.List.Basic
import Mathlib.Algebra.Order.BigOperators.Group.List
import Mathlib.Algebra.Ring.Int.Defs
import Mathlib.Data.Nat.Cast.Basic

/-!
# Ordered finite tables

A key-value store as a database sees it: finitely many rows, one value a key, scanned in key
order.  The representation is the scan itself, a list with strictly increasing keys, so a table
is determined by its lookups (`Table.ext_get?`) and two rows of one key cannot be written down.

* `get?_insert`, `get?_erase`, `get?_eraseWhere` describe the three mutations by lookups.
* `mem_rows` says a scan visits exactly the rows that lookups find.
* `get?_insertAll`, `get?_eraseAll` do the same for a mutation of several keys.
* `sum_insert`, `sum_erase`, `sum_eraseAll_add` keep a total over all rows up to date along
  mutations.
-/

set_option autoImplicit false

namespace Experimint

/-- Finite table with strictly increasing keys. -/
structure Table (κ ν : Type) [LinearOrder κ] where
  rows : List (κ × ν)
  sorted : rows.Pairwise (fun a b => a.1 < b.1)

namespace Table

variable {κ ν : Type} [LinearOrder κ]

instance [DecidableEq ν] : DecidableEq (Table κ ν) := fun a b =>
  decidable_of_iff (a.rows = b.rows) (by cases a; cases b; simp)

theorem ext_rows {a b : Table κ ν} (h : a.rows = b.rows) : a = b := by
  cases a; cases b; cases h; rfl

/-! ## Operations -/

/-- First value stored under `k`. -/
def find (k : κ) : List (κ × ν) → Option ν
  | [] => none
  | (k', v) :: rest => if k' = k then some v else find k rest

/-- Sorted insertion, replacing the row of an equal key. -/
def put (k : κ) (v : ν) : List (κ × ν) → List (κ × ν)
  | [] => [(k, v)]
  | (k', v') :: rest =>
    if k < k' then (k, v) :: (k', v') :: rest
    else if k = k' then (k, v) :: rest
    else (k', v') :: put k v rest

theorem mem_put {k : κ} {v : ν} {r : κ × ν} {l : List (κ × ν)} (h : r ∈ put k v l) :
    r = (k, v) ∨ r ∈ l := by
  induction l with
  | nil => simpa [put] using h
  | cons hd tl ih =>
    obtain ⟨k', v'⟩ := hd
    rw [put] at h
    split_ifs at h with h1 h2
    · simpa using h
    · rcases List.mem_cons.1 h with h | h
      · exact Or.inl h
      · exact Or.inr (List.mem_cons_of_mem _ h)
    · rcases List.mem_cons.1 h with h | h
      · exact Or.inr (h ▸ List.mem_cons_self)
      · exact (ih h).imp id (List.mem_cons_of_mem _)

theorem sorted_put (k : κ) (v : ν) {l : List (κ × ν)} (h : l.Pairwise (fun a b => a.1 < b.1)) :
    (put k v l).Pairwise (fun a b => a.1 < b.1) := by
  induction l with
  | nil => simp [put]
  | cons hd tl ih =>
    obtain ⟨k', v'⟩ := hd
    obtain ⟨hhd, htl⟩ := List.pairwise_cons.1 h
    rw [put]
    split_ifs with h1 h2
    · refine List.pairwise_cons.2 ⟨?_, h⟩
      intro r hr
      rcases List.mem_cons.1 hr with rfl | hr
      · exact h1
      · exact h1.trans (hhd r hr)
    · subst h2
      exact List.pairwise_cons.2 ⟨hhd, htl⟩
    · refine List.pairwise_cons.2 ⟨?_, ih htl⟩
      intro r hr
      rcases mem_put hr with rfl | hr
      · exact lt_of_le_of_ne (not_lt.1 h1) (Ne.symm h2)
      · exact hhd r hr

/-- The table without rows. -/
def empty : Table κ ν := ⟨[], List.Pairwise.nil⟩

/-- Value stored under `k`, if any. -/
def get? (t : Table κ ν) (k : κ) : Option ν := find k t.rows

/-- Stores `v` under `k`, replacing what was there. -/
def insert (t : Table κ ν) (k : κ) (v : ν) : Table κ ν := ⟨put k v t.rows, sorted_put k v t.sorted⟩

/-- Removes every row whose key satisfies `p`. -/
def eraseWhere (t : Table κ ν) (p : κ → Bool) : Table κ ν :=
  ⟨t.rows.filter fun r => !p r.1, t.sorted.filter _⟩

/-- Keeps the rows that satisfy `p`. -/
def filter (t : Table κ ν) (p : κ → ν → Bool) : Table κ ν :=
  ⟨t.rows.filter fun r => p r.1 r.2, t.sorted.filter _⟩

/-- Removes the row of `k`. -/
def erase (t : Table κ ν) (k : κ) : Table κ ν := t.eraseWhere fun k' => decide (k' = k)

/-- Whether `k` has a row. -/
def contains (t : Table κ ν) (k : κ) : Bool := (t.get? k).isSome

/-- The stored values in key order. -/
def values (t : Table κ ν) : List ν := t.rows.map Prod.snd

/-- The rows whose key satisfies `p`, in key order. -/
def scan (t : Table κ ν) (p : κ → Bool) : List (κ × ν) := t.rows.filter fun r => p r.1

/-- Stores `v` under each of `ks`. -/
def insertAll (t : Table κ ν) (ks : List κ) (v : ν) : Table κ ν :=
  ks.foldl (fun t k => t.insert k v) t

/-- Removes the rows of `ks`. -/
def eraseAll (t : Table κ ν) (ks : List κ) : Table κ ν := ks.foldl erase t

/-- Total of `f` over all rows. -/
def sum {M : Type} [AddCommMonoid M] (t : Table κ ν) (f : κ → ν → M) : M :=
  (t.rows.map fun r => f r.1 r.2).sum

/-! ## Lookups -/

theorem find_eq_some_of_mem {k : κ} {v : ν} {l : List (κ × ν)}
    (hs : l.Pairwise (fun a b => a.1 < b.1)) (h : (k, v) ∈ l) : find k l = some v := by
  induction l with
  | nil => cases h
  | cons hd tl ih =>
    obtain ⟨hhd, htl⟩ := List.pairwise_cons.1 hs
    rcases List.mem_cons.1 h with rfl | h
    · simp [find]
    · have hne : hd.1 ≠ k := ne_of_lt (hhd _ h)
      rw [find, if_neg hne, ih htl h]

theorem mem_of_find_eq_some {k : κ} {v : ν} {l : List (κ × ν)} (h : find k l = some v) :
    (k, v) ∈ l := by
  induction l with
  | nil => cases h
  | cons hd tl ih =>
    obtain ⟨k', v'⟩ := hd
    rw [find] at h
    split_ifs at h with hk
    · cases h; subst hk; exact List.mem_cons_self
    · exact List.mem_cons_of_mem _ (ih h)

/-- A scan visits exactly the rows lookups find. -/
theorem mem_rows {t : Table κ ν} {k : κ} {v : ν} : (k, v) ∈ t.rows ↔ t.get? k = some v :=
  ⟨find_eq_some_of_mem t.sorted, mem_of_find_eq_some⟩

theorem mem_values {t : Table κ ν} {v : ν} : v ∈ t.values ↔ ∃ k, t.get? k = some v := by
  simp only [values, List.mem_map, Prod.exists, exists_eq_right, mem_rows]

theorem nodup_keys (t : Table κ ν) : (t.rows.map Prod.fst).Nodup :=
  List.pairwise_map.2 (t.sorted.imp fun hlt => ne_of_lt hlt)

theorem mem_keys {t : Table κ ν} {k : κ} : k ∈ t.rows.map Prod.fst ↔ (t.get? k).isSome := by
  simp only [List.mem_map, Prod.exists, exists_and_right, exists_eq_right, mem_rows,
    Option.isSome_iff_exists]

/-- The second parts of scanned keys with one first part are distinct. -/
theorem nodup_scan {κ' : Type} [LinearOrder κ'] (t : Table (κ ×ₗ κ') ν) {k : κ}
    {p : κ ×ₗ κ' → Bool} (hp : ∀ x, p x = true → (ofLex x).1 = k) :
    ((t.scan p).map fun r => (ofLex r.1).2).Nodup := by
  unfold scan
  rw [List.Nodup, List.pairwise_map, List.pairwise_filter]
  refine t.sorted.imp ?_
  intro r q hlt hr hq hsnd
  have hfst : (ofLex r.1).1 = (ofLex q.1).1 := (hp _ hr).trans (hp _ hq).symm
  exact absurd (ofLex.injective (Prod.ext hfst hsnd)) (ne_of_lt hlt)

theorem get?_of_mem_scan {κ' : Type} [LinearOrder κ'] {t : Table (κ ×ₗ κ') ν} {k : κ}
    {p : κ ×ₗ κ' → Bool} (hp : ∀ x, p x = true → (ofLex x).1 = k) {r : (κ ×ₗ κ') × ν}
    (h : r ∈ t.scan p) : t.get? (toLex (k, (ofLex r.1).2)) = some r.2 := by
  obtain ⟨hmem, hkey⟩ := List.mem_filter.1 h
  have hk : toLex (k, (ofLex r.1).2) = r.1 := by
    rw [← hp _ hkey]
    rfl
  rw [hk]
  exact mem_rows.1 hmem

/-- A table whose keys are among `ks`, padded with `d`, lists what every key of `ks` maps to. -/
theorem perm_padded {t : Table κ ν} {ks : List κ} (hnd : ks.Nodup)
    (hkeys : ∀ k v, t.get? k = some v → k ∈ ks) (d : ν) :
    (t.values ++ List.replicate (ks.length - t.values.length) d).Perm
      (ks.map fun k => (t.get? k).getD d) := by
  have hpresent : (t.rows.map Prod.fst).Perm (ks.filter fun k => (t.get? k).isSome) := by
    refine (List.perm_ext_iff_of_nodup t.nodup_keys (hnd.filter _)).2 ?_
    intro k
    rw [mem_keys, List.mem_filter]
    constructor
    · intro hk
      obtain ⟨v, hv⟩ := Option.isSome_iff_exists.1 hk
      exact ⟨hkeys k v hv, hk⟩
    · exact And.right
  have hvalues : t.values = (t.rows.map Prod.fst).map fun k => (t.get? k).getD d := by
    rw [values, List.map_map]
    apply List.map_congr_left
    intro r hr
    show r.2 = (t.get? r.1).getD d
    rw [mem_rows.1 hr, Option.getD_some]
  have hlen : t.values.length = (ks.filter fun k => (t.get? k).isSome).length := by
    rw [values, List.length_map, ← hpresent.length_eq, List.length_map]
  have habsent : (ks.filter fun k => !(t.get? k).isSome).map (fun k => (t.get? k).getD d) =
      List.replicate (ks.length - t.values.length) d := by
    rw [List.eq_replicate_iff]
    constructor
    · have hsplit := List.length_eq_length_filter_add (l := ks) fun k => (t.get? k).isSome
      rw [List.length_map]
      omega
    · intro v hv
      obtain ⟨k, hk, rfl⟩ := List.mem_map.1 hv
      have hnone : t.get? k = none := by simpa using (List.mem_filter.1 hk).2
      rw [hnone, Option.getD_none]
  rw [← habsent, hvalues]
  refine ((hpresent.map _).append_right _).trans ?_
  rw [← List.map_append]
  exact (List.filter_append_perm _ ks).map _

theorem find_put (k k' : κ) (v : ν) (l : List (κ × ν)) :
    find k' (put k v l) = if k = k' then some v else find k' l := by
  induction l with
  | nil => rfl
  | cons hd tl ih =>
    obtain ⟨k'', v''⟩ := hd
    by_cases h1 : k < k''
    · rw [put, if_pos h1, find]
    · by_cases h2 : k = k''
      · subst h2
        rw [put, if_neg h1, if_pos rfl, find, find]
        split_ifs <;> rfl
      · rw [put, if_neg h1, if_neg h2, find, find, ih]
        split_ifs with h3 h4
        · exact absurd (h4.trans h3.symm) h2
        all_goals rfl

@[simp] theorem get?_empty (k : κ) : (empty : Table κ ν).get? k = none := rfl

theorem get?_insert (t : Table κ ν) (k k' : κ) (v : ν) :
    (t.insert k v).get? k' = if k = k' then some v else t.get? k' :=
  find_put k k' v t.rows

@[simp] theorem get?_insert_self (t : Table κ ν) (k : κ) (v : ν) :
    (t.insert k v).get? k = some v := by
  rw [get?_insert, if_pos rfl]

theorem get?_insert_ne (t : Table κ ν) {k k' : κ} (v : ν) (h : k ≠ k') :
    (t.insert k v).get? k' = t.get? k' := by
  rw [get?_insert, if_neg h]

theorem get?_eraseWhere (t : Table κ ν) (p : κ → Bool) (k : κ) :
    (t.eraseWhere p).get? k = if p k then none else t.get? k := by
  apply Option.ext
  intro v
  rw [← mem_rows, eraseWhere, List.mem_filter, mem_rows]
  cases hp : p k <;> simp

theorem get?_filter_eq_some {t : Table κ ν} {p : κ → ν → Bool} {k : κ} {v : ν} :
    (t.filter p).get? k = some v ↔ t.get? k = some v ∧ p k v = true := by
  rw [← mem_rows, filter, List.mem_filter, mem_rows]

theorem get?_erase (t : Table κ ν) (k k' : κ) :
    (t.erase k).get? k' = if k' = k then none else t.get? k' := by
  rw [erase, get?_eraseWhere]; simp only [decide_eq_true_eq]

@[simp] theorem get?_erase_self (t : Table κ ν) (k : κ) : (t.erase k).get? k = none := by
  rw [get?_erase, if_pos rfl]

theorem get?_erase_ne (t : Table κ ν) {k k' : κ} (h : k' ≠ k) :
    (t.erase k).get? k' = t.get? k' := by
  rw [get?_erase, if_neg h]

theorem get?_of_erase {t : Table κ ν} {k k' : κ} {v : ν} (h : (t.erase k).get? k' = some v) :
    k' ≠ k ∧ t.get? k' = some v := by
  rw [get?_erase] at h
  split_ifs at h with hk
  exact ⟨hk, h⟩

/-- Every row of `t` is a row of `t'`. -/
def Within (t t' : Table κ ν) : Prop := ∀ k v, t.get? k = some v → t'.get? k = some v

theorem Within.refl (t : Table κ ν) : t.Within t := fun _ _ h => h

theorem Within.trans {t t' t'' : Table κ ν} (h : t.Within t') (h' : t'.Within t'') :
    t.Within t'' :=
  fun k v hv => h' k v (h k v hv)

theorem within_eraseWhere (t : Table κ ν) (p : κ → Bool) : (t.eraseWhere p).Within t := by
  intro k v hv
  rw [get?_eraseWhere] at hv
  split_ifs at hv
  exact hv

theorem within_empty (t : Table κ ν) : (empty : Table κ ν).Within t := nofun

theorem get?_insertAll (t : Table κ ν) (ks : List κ) (v : ν) (k : κ) :
    (t.insertAll ks v).get? k = if k ∈ ks then some v else t.get? k := by
  induction ks generalizing t with
  | nil => simp [insertAll]
  | cons k' ks ih =>
    rw [insertAll, List.foldl_cons, ← insertAll, ih, get?_insert]
    by_cases hk : k ∈ ks
    · simp [hk]
    · by_cases hk' : k' = k
      · simp [hk']
      · simp [hk, hk', Ne.symm hk']

theorem get?_eraseAll (t : Table κ ν) (ks : List κ) (k : κ) :
    (t.eraseAll ks).get? k = if k ∈ ks then none else t.get? k := by
  induction ks generalizing t with
  | nil => simp [eraseAll]
  | cons k' ks ih =>
    rw [eraseAll, List.foldl_cons, ← eraseAll, ih, get?_erase]
    by_cases hk : k ∈ ks
    · simp [hk]
    · simp [hk]

/-- A table is determined by its lookups. -/
theorem ext_get? {a b : Table κ ν} (h : ∀ k, a.get? k = b.get? k) : a = b := by
  apply ext_rows
  have hmem : ∀ r, r ∈ a.rows ↔ r ∈ b.rows := fun ⟨k, v⟩ => by rw [mem_rows, mem_rows, h k]
  have hnd : ∀ t : Table κ ν, t.rows.Nodup := fun t =>
    t.sorted.imp fun hlt => fun he => absurd (congrArg Prod.fst he) (ne_of_lt hlt)
  exact ((List.perm_ext_iff_of_nodup (hnd a) (hnd b)).2 hmem).eq_of_pairwise
    (fun _ _ _ _ hab hba => absurd hab (not_lt.2 hba.le)) a.sorted b.sorted

/-- A scan sees only the keys it selects. -/
theorem scan_congr {t t' : Table κ ν} {p : κ → Bool}
    (h : ∀ k, p k = true → t.get? k = t'.get? k) : t.scan p = t'.scan p := by
  have hkept : t.eraseWhere (fun k => !p k) = t'.eraseWhere fun k => !p k := by
    apply ext_get?
    intro k
    rw [get?_eraseWhere, get?_eraseWhere]
    cases hp : p k with
    | true => simpa using h k hp
    | false => simp
  have hrows := congrArg rows hkept
  simpa [eraseWhere, scan] using hrows

theorem insert_get?_self {t : Table κ ν} {k : κ} {v : ν} (h : t.get? k = some v) :
    t.insert k v = t := by
  apply ext_get?
  intro k'
  rw [get?_insert]
  split_ifs with hk
  · rw [← hk, h]
  · rfl

theorem erase_of_get?_none {t : Table κ ν} {k : κ} (h : t.get? k = none) : t.erase k = t := by
  apply ext_get?
  intro k'
  rw [get?_erase]
  split_ifs with hk
  · rw [hk, h]
  · rfl

theorem erase_insert (t : Table κ ν) (k : κ) (v : ν) : (t.insert k v).erase k = t.erase k := by
  apply ext_get?
  intro k'
  rw [get?_erase, get?_erase]
  split_ifs with hk
  · rfl
  · exact get?_insert_ne t v (Ne.symm hk)

/-- Removing the rows that satisfy `p` one by one. -/
theorem eraseAll_keys (t : Table κ ν) (p : κ × ν → Bool) :
    t.eraseAll ((t.rows.filter p).map (·.1)) = t.filter fun k v => !p (k, v) := by
  apply ext_get?
  intro k
  have hkey : k ∈ (t.rows.filter p).map (·.1) ↔ ∃ v, t.get? k = some v ∧ p (k, v) = true := by
    simp only [List.mem_map, List.mem_filter, Prod.exists, exists_and_right, exists_eq_right,
      mem_rows]
  apply Option.ext
  intro v
  rw [get?_eraseAll, get?_filter_eq_some]
  split_ifs with hk
  · obtain ⟨w, hw, hp⟩ := hkey.1 hk
    rw [hw]
    simp only [Option.some.injEq, false_iff, not_and]
    rintro rfl
    simp [hp]
  · refine ⟨fun h => ⟨h, ?_⟩, And.left⟩
    by_contra hp
    exact hk (hkey.2 ⟨v, h, by simpa using hp⟩)

theorem filter_congr {t : Table κ ν} {p q : κ → ν → Bool}
    (h : ∀ k v, t.get? k = some v → p k v = q k v) : t.filter p = t.filter q :=
  ext_rows (List.filter_congr fun r hr => h r.1 r.2 (mem_rows.1 hr))

theorem filter_erase (t : Table κ ν) (k : κ) (p : κ → ν → Bool) :
    (t.erase k).filter p = t.filter fun k' v => decide (k' ≠ k) && p k' v := by
  apply ext_rows
  simp only [filter, erase, eraseWhere, List.filter_filter]
  refine List.filter_congr fun r _ => ?_
  rw [Bool.and_comm]
  simp

/-! ## Totals -/

variable {M : Type} [AddCommMonoid M]

@[simp] theorem sum_empty (f : κ → ν → M) : (empty : Table κ ν).sum f = 0 := rfl

theorem sum_put_filter (f : κ → ν → M) (k : κ) (v : ν) {l : List (κ × ν)}
    (hs : l.Pairwise (fun a b => a.1 < b.1)) :
    ((put k v l).map fun r => f r.1 r.2).sum =
      ((l.filter fun r => !decide (r.1 = k)).map fun r => f r.1 r.2).sum + f k v := by
  induction l with
  | nil => simp [put]
  | cons hd tl ih =>
    obtain ⟨k', v'⟩ := hd
    obtain ⟨hhd, htl⟩ := List.pairwise_cons.1 hs
    -- past the insertion point every key is larger than `k`, so the filter keeps all of it
    have hkeep : ∀ l : List (κ × ν), (∀ r ∈ l, k < r.1) →
        (l.filter fun r => !decide (r.1 = k)) = l := fun l hl =>
      List.filter_eq_self.2 fun r hr => by simpa using (ne_of_gt (hl r hr))
    rw [put]
    split_ifs with h1 h2
    · rw [hkeep _ (by
        intro r hr
        rcases List.mem_cons.1 hr with rfl | hr
        · exact h1
        · exact h1.trans (hhd r hr))]
      simp only [List.map_cons, List.sum_cons]
      rw [add_comm]
    · subst h2
      rw [List.filter_cons_of_neg (by simp), hkeep _ hhd]
      simp only [List.map_cons, List.sum_cons]
      rw [add_comm]
    · rw [List.filter_cons_of_pos (by simpa using Ne.symm h2)]
      simp only [List.map_cons, List.sum_cons]
      rw [ih htl, add_assoc]

theorem sum_insert (t : Table κ ν) (f : κ → ν → M) (k : κ) (v : ν) :
    (t.insert k v).sum f = (t.erase k).sum f + f k v :=
  sum_put_filter f k v t.sorted

/-- The total splits at a row. -/
theorem sum_erase {t : Table κ ν} {k : κ} {v : ν} (f : κ → ν → M) (h : t.get? k = some v) :
    t.sum f = (t.erase k).sum f + f k v := by
  conv_lhs => rw [← insert_get?_self h]
  exact sum_insert t f k v

theorem sum_insert_new {t : Table κ ν} {k : κ} (f : κ → ν → M) (v : ν) (h : t.get? k = none) :
    (t.insert k v).sum f = t.sum f + f k v := by
  rw [sum_insert, erase_of_get?_none h]

/-- Insertion replaces the row's old contribution by the new one. -/
theorem sum_insert_add (t : Table κ ν) (f : κ → ν → M) (k : κ) (v : ν) :
    (t.insert k v).sum f + ((t.get? k).map (f k)).getD 0 = t.sum f + f k v := by
  cases h : t.get? k with
  | none => rw [sum_insert_new f v h, Option.map_none, Option.getD_none, add_zero]
  | some w => rw [sum_insert, sum_erase f h, Option.map_some, Option.getD_some, add_right_comm]

/-- The same with a default row that counts nothing. -/
theorem sum_insert_getD (t : Table κ ν) (f : κ → ν → M) (k : κ) (v : ν) {d : ν} (hd : f k d = 0) :
    (t.insert k v).sum f + f k ((t.get? k).getD d) = t.sum f + f k v := by
  rw [← sum_insert_add t f k v]
  cases h : t.get? k with
  | none => rw [Option.getD_none, Option.map_none, Option.getD_none, hd]
  | some w => rw [Option.getD_some, Option.map_some, Option.getD_some]

theorem sum_erase_add (t : Table κ ν) (f : κ → ν → M) (k : κ) :
    (t.erase k).sum f + ((t.get? k).map (f k)).getD 0 = t.sum f := by
  cases h : t.get? k with
  | none => rw [erase_of_get?_none h, Option.map_none, Option.getD_none, add_zero]
  | some w => rw [sum_erase f h, Option.map_some, Option.getD_some]

/-- The total splits at distinct keys. -/
theorem sum_eraseAll_add (t : Table κ ν) (f : κ → ν → M) {ks : List κ} (hks : ks.Nodup) :
    (t.eraseAll ks).sum f + (ks.map fun k => ((t.get? k).map (f k)).getD 0).sum = t.sum f := by
  induction ks generalizing t with
  | nil => simp [eraseAll]
  | cons k ks ih =>
    obtain ⟨hk, hks⟩ := List.nodup_cons.1 hks
    have hrest : (ks.map fun k' => (((t.erase k).get? k').map (f k')).getD 0) =
        ks.map fun k' => ((t.get? k').map (f k')).getD 0 := by
      refine List.map_congr_left ?_
      intro k' hk'
      rw [get?_erase_ne t (ne_of_mem_of_not_mem hk' hk)]
    rw [eraseAll, List.foldl_cons, ← eraseAll, List.map_cons, List.sum_cons, ← hrest,
      add_left_comm, ih (t.erase k) hks, add_comm, sum_erase_add]

theorem sum_eq_zero {t : Table κ ν} {f : κ → ν → M}
    (h : ∀ k v, t.get? k = some v → f k v = 0) : t.sum f = 0 := by
  unfold sum
  apply List.sum_eq_zero
  intro x hx
  obtain ⟨⟨k, v⟩, hr, rfl⟩ := List.mem_map.1 hx
  exact h k v (mem_rows.1 hr)

theorem sum_congr {t : Table κ ν} {f g : κ → ν → M}
    (h : ∀ k v, t.get? k = some v → f k v = g k v) : t.sum f = t.sum g :=
  congrArg List.sum (List.map_congr_left fun r hr => h r.1 r.2 (mem_rows.1 hr))

theorem sum_add (t : Table κ ν) (f g : κ → ν → M) :
    t.sum (fun k v => f k v + g k v) = t.sum f + t.sum g :=
  List.sum_map_add

/-- A total seen through a homomorphism. -/
theorem map_sum {N : Type} [AddCommMonoid N] (φ : M →+ N) (t : Table κ ν) (f : κ → ν → M) :
    φ (t.sum f) = t.sum fun k v => φ (f k v) := by
  rw [sum, sum, map_list_sum, List.map_map]
  rfl

theorem natCast_sum (t : Table κ ν) (f : κ → ν → Nat) :
    ((t.sum f : Nat) : Int) = t.sum fun k v => (f k v : Int) :=
  map_sum (Nat.castAddMonoidHom Int) t f

theorem sum_neg (t : Table κ ν) (f : κ → ν → Int) : t.sum (fun k v => -f k v) = -t.sum f :=
  (map_sum negAddMonoidHom t f).symm

theorem sum_le_sum [PartialOrder M] [IsOrderedAddMonoid M] {t : Table κ ν} {f g : κ → ν → M}
    (h : ∀ k v, t.get? k = some v → f k v ≤ g k v) : t.sum f ≤ t.sum g :=
  List.sum_le_sum fun r hr => h r.1 r.2 (mem_rows.1 hr)

theorem le_sum [PartialOrder M] [IsOrderedAddMonoid M] [CanonicallyOrderedAdd M]
    {t : Table κ ν} {k : κ} {v : ν} (f : κ → ν → M) (h : t.get? k = some v) :
    f k v ≤ t.sum f := by
  rw [sum_erase f h]
  exact le_add_self

end Table

/-- Rows that can each be read can be read together. -/
theorem mapM_isSome {α β : Type} {f : α → Option β} {l : List α}
    (h : ∀ x ∈ l, (f x).isSome) : (l.mapM f).isSome := by
  induction l with
  | nil => rfl
  | cons x xs ih =>
    obtain ⟨y, hy⟩ := Option.isSome_iff_exists.1 (h x List.mem_cons_self)
    obtain ⟨ys, hys⟩ := Option.isSome_iff_exists.1 (ih fun z hz => h z (List.mem_cons_of_mem _ hz))
    rw [List.mapM_cons, hy, hys]
    rfl

end Experimint
