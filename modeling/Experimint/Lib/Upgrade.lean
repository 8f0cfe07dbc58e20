import Experimint.Lib.Table

/-!
# Upgrades of a raw table

A table of byte rows is upgraded in steps; each step drops the rows of some tags and appends bytes
to the rows of others.  An `Edit` says so tag by tag, and `Acts` that a step does just that.  Edits
compose (`Acts.run`), so what a whole chain of steps does to a row can be read off its tag.

* `Table.rewriteWhere` — the loop that collects the rows of a tag and writes each one back.
* `Table.scan_map` — a scan of rows that a step has changed in one way.
-/

set_option autoImplicit false

namespace Experimint

namespace Table

variable {κ ν : Type} [LinearOrder κ]

/-- Collects the selected rows, then writes each one back changed. -/
def rewriteWhere (t : Table κ ν) (p : κ → Bool) (f : ν → ν) : Table κ ν :=
  (t.scan p).foldl (fun t row => t.insert row.1 (f row.2)) t

theorem get?_foldl_insert (f : ν → ν) (l : List (κ × ν)) (hnd : (l.map Prod.fst).Nodup)
    (t : Table κ ν) (k : κ) :
    (l.foldl (fun t row => t.insert row.1 (f row.2)) t).get? k =
      ((find k l).map f).or (t.get? k) := by
  induction l generalizing t with
  | nil => rfl
  | cons row rest ih =>
    obtain ⟨hrow, hrest⟩ := List.nodup_cons.1 hnd
    rw [List.foldl_cons, ih hrest, get?_insert, find]
    by_cases hk : row.1 = k
    · have hnone : find k rest = none := by
        cases hfind : find k rest with
        | none => rfl
        | some v =>
          have hmem := mem_of_find_eq_some hfind
          exact absurd (List.mem_map_of_mem hmem) (hk ▸ hrow)
      simp [hk, hnone]
    · simp [hk]

theorem find_scan (t : Table κ ν) (p : κ → Bool) (k : κ) :
    find k (t.scan p) = if p k then t.get? k else none := by
  have hkept : find k (t.scan p) = (t.eraseWhere fun k => !p k).get? k := by
    simp [eraseWhere, scan, get?]
  rw [hkept, get?_eraseWhere]
  cases p k <;> rfl

theorem get?_rewriteWhere (t : Table κ ν) (p : κ → Bool) (f : ν → ν) (k : κ) :
    (t.rewriteWhere p f).get? k = if p k then (t.get? k).map f else t.get? k := by
  have hnd : ((t.scan p).map Prod.fst).Nodup := t.nodup_keys.sublist (List.filter_sublist.map _)
  rw [rewriteWhere, get?_foldl_insert f _ hnd, find_scan]
  cases hp : p k with
  | false => rfl
  | true => cases t.get? k <;> rfl

/-- Every row changed in one way. -/
def mapValues (t : Table κ ν) (f : ν → ν) : Table κ ν where
  rows := t.rows.map fun row => (row.1, f row.2)
  sorted := List.pairwise_map.2 t.sorted

theorem get?_mapValues (t : Table κ ν) (f : ν → ν) (k : κ) :
    (t.mapValues f).get? k = (t.get? k).map f := by
  change find k (t.rows.map fun row => (row.1, f row.2)) = (find k t.rows).map f
  induction t.rows with
  | nil => rfl
  | cons row rest ih =>
    rw [List.map_cons, find, find, ih]
    split_ifs <;> rfl

/-- A scan of rows that were all changed in one way. -/
theorem scan_map {t t' : Table κ ν} {p : κ → Bool} {f : ν → ν}
    (h : ∀ k, p k = true → t'.get? k = (t.get? k).map f) :
    t'.scan p = (t.scan p).map fun row => (row.1, f row.2) := by
  have hsame : t'.scan p = (t.mapValues f).scan p :=
    scan_congr fun k hk => by rw [h k hk, get?_mapValues]
  rw [hsame, scan, scan, mapValues, List.filter_map]
  rfl

end Table

/-- What an upgrade does to the rows of each tag. -/
structure Edit (τ σ : Type) where
  drop : τ → Bool
  tail : τ → List σ

namespace Edit

variable {κ τ σ : Type} [LinearOrder κ] {tag : κ → τ}

/-- The step leaves no row of a dropped tag and appends the tag's bytes to any other. -/
def Acts (tag : κ → τ) (e : Edit τ σ) (step : Table κ (List σ) → Table κ (List σ)) : Prop :=
  ∀ t k, (step t).get? k =
    if e.drop (tag k) then none else (t.get? k).map (· ++ e.tail (tag k))

/-- One edit after the other. -/
def andThen (e e' : Edit τ σ) : Edit τ σ where
  drop x := e.drop x || e'.drop x
  tail x := e.tail x ++ e'.tail x

/-- No edit. -/
def skip : Edit τ σ where
  drop _ := false
  tail _ := []

/-- Drops the rows of one tag. -/
def dropTag [DecidableEq τ] (x : τ) : Edit τ σ where
  drop y := decide (y = x)
  tail _ := []

/-- Appends to the rows of one tag. -/
def appendTag [DecidableEq τ] (x : τ) (bytes : List σ) : Edit τ σ where
  drop _ := false
  tail y := if y = x then bytes else []

theorem acts_eraseWhere [DecidableEq τ] (x : τ) :
    Acts tag (dropTag x : Edit τ σ) (Table.eraseWhere · fun k => decide (tag k = x)) := by
  intro t k
  rw [Table.get?_eraseWhere]
  simp [dropTag]

theorem acts_rewriteWhere [DecidableEq τ] (x : τ) (bytes : List σ) :
    Acts tag (appendTag x bytes)
      (Table.rewriteWhere · (fun k => decide (tag k = x)) (· ++ bytes)) := by
  intro t k
  rw [Table.get?_rewriteWhere]
  by_cases hk : tag k = x <;> simp [appendTag, hk]

theorem Acts.andThen {e e' : Edit τ σ} {step step' : Table κ (List σ) → Table κ (List σ)}
    (h : Acts tag e step) (h' : Acts tag e' step') :
    Acts tag (e.andThen e') fun t => step' (step t) := by
  intro t k
  rw [h', h]
  dsimp only [Edit.andThen]
  by_cases hdrop : e.drop (tag k) <;> by_cases hdrop' : e'.drop (tag k) <;>
    simp [hdrop, hdrop', Function.comp_def]

/-- **A chain of steps acts by the composed edit.** -/
theorem Acts.run {es : List (Edit τ σ)} {steps : List (Table κ (List σ) → Table κ (List σ))}
    (h : List.Forall₂ (Acts tag) es steps) :
    Acts tag (es.foldr Edit.andThen skip) fun t => steps.foldl (fun t step => step t) t := by
  induction h with
  | nil =>
    intro t k
    simp [skip]
  | cons hstep _ ih => exact hstep.andThen ih

end Edit

end Experimint
