import Mathlib.Data.List.Sort
import Mathlib.Data.Finset.Card

/-!
# Order statistics and minorities

The element at a fixed index of a sorted list is characterised by counting: it is at most `c`
exactly when more than `index` elements are.  Together with a bound on how many rows belong to a
minority this decides when a selected element is bracketed by the rest.

* `mem_take_iff_of_sorted` — the first elements of a sorted list, by counting.
* `orderStat_iff` — the selected element against a bound, by counting.
* `orderStat_between` — the selected element between elements outside a minority.
* `orderStat_mono` — the selected element rises with the elements.
* `le_topStat_iff` — the same for a descending sort.
* `length_filter_le_card` — rows with distinct tags from a finite set are at most as many.
* `exists_outside` — more rows than a minority has are not all the minority's.
-/

set_option autoImplicit false

namespace Experimint

variable {α β : Type}

/-- A sorted list meets a condition that passes to earlier elements up to some index. -/
theorem getElem?_iff_of_sorted {r : α → α → Prop} {p : α → Bool}
    (hp : ∀ a b, r a b → p b = true → p a = true) {l : List α} (hs : l.Pairwise r) {i : Nat} {x : α}
    (h : l[i]? = some x) : p x = true ↔ i < l.countP p := by
  induction l generalizing i with
  | nil => cases h
  | cons y ys ih =>
    obtain ⟨hy, hys⟩ := List.pairwise_cons.1 hs
    by_cases hpy : p y = true
    · rw [List.countP_cons_of_pos hpy]
      cases i with
      | zero =>
        cases h
        exact ⟨fun _ => Nat.succ_pos _, fun _ => hpy⟩
      | succ i =>
        rw [ih hys h]
        omega
    · -- the list is sorted, so nothing behind `y` meets the condition either
      have hnone : (y :: ys).countP p = 0 := by
        rw [List.countP_eq_zero]
        intro z hz hpz
        rcases List.mem_cons.1 hz with rfl | hz
        · exact hpy hpz
        · exact hpy (hp y z (hy z hz) hpz)
      rw [hnone]
      refine ⟨fun hpx => absurd ?_ hpy, fun hlt => absurd hlt (Nat.not_lt_zero _)⟩
      rcases List.mem_cons.1 (List.mem_of_getElem? h) with rfl | hx
      · exact hpx
      · exact hp y x (hy x hx) hpx

/-- The first `n` elements of a list sorted by a key are those with fewer than `n` smaller keys. -/
theorem mem_take_iff_of_sorted {κ : Type} [LinearOrder κ] {key : α → κ} {l : List α}
    (hs : l.Pairwise fun a b => key a < key b) {n : Nat} {x : α} :
    x ∈ l.take n ↔ x ∈ l ∧ (l.countP fun y => decide (key y < key x)) < n := by
  induction l generalizing n with
  | nil => simp
  | cons y ys ih =>
    obtain ⟨hy, hys⟩ := List.pairwise_cons.1 hs
    cases n with
    | zero => simp
    | succ n =>
      rw [List.take_succ_cons, List.mem_cons, List.mem_cons, ih hys]
      constructor
      · rintro (rfl | ⟨hx, hlt⟩)
        · -- nothing behind the head is smaller than it
          have hnone : (x :: ys).countP (fun z => decide (key z < key x)) = 0 := by
            rw [List.countP_eq_zero]
            intro z hz
            rcases List.mem_cons.1 hz with rfl | hz
            · simp
            · simpa using (hy z hz).le
          exact ⟨.inl rfl, by omega⟩
        · rw [List.countP_cons_of_pos (by simpa using hy x hx)]
          exact ⟨.inr hx, by omega⟩
      · rintro ⟨rfl | hx, hlt⟩
        · exact .inl rfl
        · rw [List.countP_cons_of_pos (by simpa using hy x hx)] at hlt
          exact .inr ⟨hx, by omega⟩

/-- Below a running minimum is below its start and below every value met. -/
theorem lt_foldl_min_iff {f : α → Nat} {l : List α} {init n : Nat} :
    n < l.foldl (fun m x => min m (f x)) init ↔ n < init ∧ ∀ x ∈ l, n < f x := by
  induction l generalizing init with
  | nil => simp
  | cons y ys ih =>
    rw [List.foldl_cons, ih, lt_min_iff, List.forall_mem_cons, and_assoc]

variable [LinearOrder α]

/-- The element a sort puts at `i` meets a condition that passes to smaller elements exactly when
more than `i` elements do. -/
theorem orderStat_iff {p : α → Bool} (hp : ∀ a b, a ≤ b → p b = true → p a = true) {l : List α}
    {i : Nat} {x : α} (h : (l.insertionSort (· ≤ ·))[i]? = some x) :
    p x = true ↔ i < l.countP p := by
  rw [getElem?_iff_of_sorted hp (List.pairwise_insertionSort _ l) h,
    (List.perm_insertionSort (· ≤ ·) l).countP_eq]

theorem orderStat_le_iff {l : List α} {i : Nat} {x : α}
    (h : (l.insertionSort (· ≤ ·))[i]? = some x) (c : α) :
    x ≤ c ↔ i < l.countP fun y => decide (y ≤ c) := by
  have hiff := orderStat_iff (p := fun y => decide (y ≤ c)) ?_ h
  · simpa using hiff
  · intro a b hab hb
    simpa using hab.trans (by simpa using hb)

theorem orderStat_lt_iff {l : List α} {i : Nat} {x : α}
    (h : (l.insertionSort (· ≤ ·))[i]? = some x) (c : α) :
    x < c ↔ i < l.countP fun y => decide (y < c) := by
  have hiff := orderStat_iff (p := fun y => decide (y < c)) ?_ h
  · simpa using hiff
  · intro a b hab hb
    simpa using lt_of_le_of_lt hab (by simpa using hb)

/-- The same for a descending sort. -/
theorem le_topStat_iff {l : List α} {i : Nat} {x : α}
    (h : (l.insertionSort (· ≥ ·))[i]? = some x) (c : α) :
    c ≤ x ↔ i < l.countP fun y => decide (c ≤ y) := by
  have hiff := getElem?_iff_of_sorted (p := fun y => decide (c ≤ y)) ?_
    (List.pairwise_insertionSort (· ≥ ·) l) h
  · rw [(List.perm_insertionSort (· ≥ ·) l).countP_eq] at hiff
    simpa using hiff
  · intro a b hab hb
    have hb : c ≤ b := by simpa using hb
    simpa using hb.trans hab

/-- With fewer than `i + 1` bad rows, and fewer than `l.length - i`, the selected value lies between
values of good rows. -/
theorem orderStat_between {l : List β} {val : β → α} {bad : β → Bool} {i f : Nat} {x : α}
    (hbad : (l.filter bad).length ≤ f) (hlo : f ≤ i) (hhi : i + f < l.length)
    (h : ((l.map val).insertionSort (· ≤ ·))[i]? = some x) :
    (∃ r ∈ l, bad r = false ∧ val r ≤ x) ∧ ∃ r ∈ l, bad r = false ∧ x ≤ val r := by
  rw [← List.countP_eq_length_filter] at hbad
  constructor
  · by_contra hnone
    have hmany := (orderStat_le_iff h x).1 (le_refl x)
    rw [List.countP_map] at hmany
    have hfew : l.countP ((fun y => decide (y ≤ x)) ∘ val) ≤ l.countP bad := by
      apply List.countP_mono_left
      intro r hr hle
      by_contra hgood
      exact hnone ⟨r, hr, by simpa using hgood, by simpa using hle⟩
    omega
  · by_contra hnone
    have hfew := mt (orderStat_lt_iff h x).2 (lt_irrefl x)
    rw [List.countP_map] at hfew
    have hmany : l.countP (fun r => !bad r) ≤ l.countP ((fun y => decide (y < x)) ∘ val) := by
      apply List.countP_mono_left
      intro r hr hgood
      have hgood : bad r = false := by simpa using hgood
      have hlt : ¬ x ≤ val r := fun hle => hnone ⟨r, hr, hgood, hle⟩
      simpa using hlt
    have hsplit := List.length_eq_countP_add_countP bad (l := l)
    have hnot : l.countP (fun r => !bad r) = l.countP fun r => decide ¬ bad r = true := by
      apply List.countP_congr
      intro r _
      simp
    omega

/-- Raising values raises the selected value. -/
theorem orderStat_mono {l : List β} {val val' : β → α} (hle : ∀ r ∈ l, val r ≤ val' r) {i : Nat}
    {x x' : α} (h : ((l.map val).insertionSort (· ≤ ·))[i]? = some x)
    (h' : ((l.map val').insertionSort (· ≤ ·))[i]? = some x') : x ≤ x' := by
  rw [orderStat_le_iff h]
  have hcount := (orderStat_le_iff h' x').1 (le_refl x')
  rw [List.countP_map] at hcount ⊢
  refine lt_of_lt_of_le hcount (List.countP_mono_left ?_)
  intro r hr hr'
  simpa using (hle r hr).trans (by simpa using hr')

/-- Sorting forgets the order. -/
theorem insertionSort_congr {l l' : List α} (h : l.Perm l') :
    l.insertionSort (· ≤ ·) = l'.insertionSort (· ≤ ·) :=
  List.Perm.eq_of_pairwise (fun _ _ _ _ hab hba => le_antisymm hab hba)
    (List.pairwise_insertionSort _ l) (List.pairwise_insertionSort _ l')
    (((List.perm_insertionSort _ l).trans h).trans (List.perm_insertionSort _ l').symm)

theorem exists_getElem?_insertionSort {l : List α} {i : Nat} (h : i < l.length) :
    ∃ x, (l.insertionSort (· ≤ ·))[i]? = some x :=
  ⟨_, List.getElem?_eq_getElem (by rw [List.length_insertionSort]; exact h)⟩

/-- Rows whose tags are distinct and lie in a finite set are at most as many as the set. -/
theorem length_filter_le_card {γ : Type} [DecidableEq γ] {l : List β} {tag : β → γ}
    (hnd : (l.map tag).Nodup) (s : Finset γ) {p : β → Bool}
    (hp : ∀ r ∈ l, p r = true → tag r ∈ s) : (l.filter p).length ≤ s.card := by
  have hnd' : ((l.filter p).map tag).Nodup := hnd.sublist ((List.filter_sublist).map tag)
  have hsub : ((l.filter p).map tag).toFinset ⊆ s := by
    intro g hg
    obtain ⟨r, hr, rfl⟩ := List.mem_map.1 (List.mem_toFinset.1 hg)
    obtain ⟨hmem, hpr⟩ := List.mem_filter.1 hr
    exact hp r hmem hpr
  have hcard := Finset.card_le_card hsub
  rwa [List.toFinset_card_of_nodup hnd', List.length_map] at hcard

theorem exists_outside {γ : Type} [DecidableEq γ] {l : List β} {tag : β → γ}
    (hnd : (l.map tag).Nodup) {s : Finset γ} {p : β → Bool} (hmany : s.card < l.countP p) :
    ∃ r ∈ l, p r = true ∧ tag r ∉ s := by
  by_contra hnone
  have hall : ∀ r ∈ l, p r = true → tag r ∈ s := by
    intro r hr hpr
    by_contra hout
    exact hnone ⟨r, hr, hpr, hout⟩
  have hfew := length_filter_le_card hnd s hall
  rw [← List.countP_eq_length_filter] at hfew
  omega

end Experimint
