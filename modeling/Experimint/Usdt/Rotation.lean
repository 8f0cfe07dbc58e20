import Mathlib.Data.List.Lex
import Mathlib.Data.List.NodupEquivFin
import Mathlib.Data.Finset.Sort
import Mathlib.Data.Finset.Powerset
import Mathlib.Data.Nat.ModEq
import Experimint.Lib.OrderStatistics
import Experimint.Lib.Enumeration
import Experimint.Usdt.Server

/-!
# Signer rotation

A session's attempts walk through all combinations of `t` guardians.  The combinations are made by
a loop over ascending index vectors that moves the rightmost index with room.

* `advanceIndices_succeeds` — the loop's step is the lexicographic successor.
* `mem_tCombinations`, `tCombinations_ascending` — all combinations, in lexicographic order.
* `rotation_covers` — a full period of attempts meets every subset of signers once, and so a
  subset without any faulty guardian.
-/

set_option autoImplicit false

namespace Experimint.FedimintUsdt

/-! ## Index vectors -/

/-- Index at position `j`, as the loop reads it. -/
def indexAt (idx : List Nat) (j : Nat) : Nat := (idx[j]?).getD 0

/-- `t` ascending indices below `n`. -/
structure IndexVector (n t : Nat) (idx : List Nat) : Prop where
  length : idx.length = t
  sorted : idx.Pairwise (· < ·)
  bound : ∀ x ∈ idx, x < n

theorem indexAt_mem {idx : List Nat} {j : Nat} (hj : j < idx.length) : indexAt idx j ∈ idx := by
  rw [indexAt, List.getElem?_eq_getElem hj]
  exact List.getElem_mem hj

namespace IndexVector

variable {n t : Nat} {idx c : List Nat}

theorem indexAt_lt (h : IndexVector n t idx) {j k : Nat} (hjk : j < k) (hk : k < t) :
    indexAt idx j < indexAt idx k := by
  have hk' : k < idx.length := by rw [h.length]; exact hk
  rw [indexAt, indexAt, List.getElem?_eq_getElem hk', List.getElem?_eq_getElem (hjk.trans hk')]
  exact List.pairwise_iff_getElem.mp h.sorted j k (hjk.trans hk') hk' hjk

/-- Ascending indices are at least as far apart as their positions. -/
theorem indexAt_add_le (h : IndexVector n t idx) {j d : Nat} (hd : j + d < t) :
    indexAt idx j + d ≤ indexAt idx (j + d) := by
  induction d with
  | zero => exact le_rfl
  | succ d ih =>
    have hstep := h.indexAt_lt (j := j + d) (k := j + (d + 1)) (by omega) hd
    have := ih (by omega)
    omega

/-- Largest index a position can hold. -/
theorem indexAt_le (h : IndexVector n t idx) {j : Nat} (hj : j < t) :
    indexAt idx j ≤ j + n - t := by
  have hlast : indexAt idx (t - 1) < n := by
    refine h.bound _ (indexAt_mem ?_)
    rw [h.length]
    omega
  have hadd := h.indexAt_add_le (j := j) (d := t - 1 - j) (by omega)
  rw [show j + (t - 1 - j) = t - 1 by omega] at hadd
  omega

/-- Lexicographic order by the first position that differs. -/
theorem lt_iff (h : IndexVector n t idx) (hc : IndexVector n t c) :
    idx < c ↔ ∃ i < t, (∀ j < i, indexAt idx j = indexAt c j) ∧ indexAt idx i < indexAt c i := by
  rw [List.lt_iff_exists]
  constructor
  · rintro (⟨-, hlt⟩ | ⟨i, h₁, h₂, heq, hlt⟩)
    · rw [h.length, hc.length] at hlt
      exact absurd hlt (lt_irrefl t)
    · refine ⟨i, by rw [← h.length]; exact h₁, ?_, ?_⟩
      · intro j hj
        rw [indexAt, indexAt, List.getElem?_eq_getElem (hj.trans h₁),
          List.getElem?_eq_getElem (hj.trans h₂)]
        exact heq j hj
      · rw [indexAt, indexAt, List.getElem?_eq_getElem h₁, List.getElem?_eq_getElem h₂]
        exact hlt
  · rintro ⟨i, hi, heq, hlt⟩
    have h₁ : i < idx.length := by rw [h.length]; exact hi
    have h₂ : i < c.length := by rw [hc.length]; exact hi
    refine Or.inr ⟨i, h₁, h₂, ?_, ?_⟩
    · intro j hj
      have hj' := heq j hj
      rw [indexAt, indexAt, List.getElem?_eq_getElem (hj.trans h₁),
        List.getElem?_eq_getElem (hj.trans h₂)] at hj'
      exact hj'
    · rw [indexAt, indexAt, List.getElem?_eq_getElem h₁, List.getElem?_eq_getElem h₂] at hlt
      exact hlt

theorem le_of_indexAt_le (h : IndexVector n t idx) (hc : IndexVector n t c)
    (hle : ∀ j < t, indexAt idx j ≤ indexAt c j) : idx ≤ c := by
  rw [← not_lt, hc.lt_iff h]
  rintro ⟨i, hi, -, hlt⟩
  have := hle i hi
  omega

end IndexVector

/-! ## The step of the loop -/

section Step

variable {n t : Nat} {idx idx' : List Nat}

/-- The position that moves is the rightmost one with room. -/
theorem advanceIndices_some (h : advanceIndices n t idx = some idx') :
    ∃ i < t, indexAt idx i < i + n - t ∧ (∀ j, i < j → j < t → j + n - t ≤ indexAt idx j) ∧
      idx' = idx.take i ++ (List.range (t - i)).map (indexAt idx i + 1 + ·) := by
  unfold advanceIndices at h
  split at h
  · cases h
  · rename_i i hfind
    obtain ⟨hi, as, bs, hsplit, has⟩ := List.find?_eq_some_iff_append.mp hfind
    have hmem : i ∈ (List.range t).reverse := by rw [hsplit]; simp
    refine ⟨i, by simpa using hmem, of_decide_eq_true hi, ?_, (Option.some.inj h).symm⟩
    intro j hij hj
    have hjmem : j ∈ (List.range t).reverse := by simpa using hj
    rw [hsplit] at hjmem
    rcases List.mem_append.mp hjmem with hjas | hjbs
    · have := has j hjas
      simpa [indexAt] using this
    · -- what follows `i` in the reversed range is smaller
      have hsorted : (List.range t).reverse.Pairwise (· > ·) :=
        List.pairwise_reverse.mpr List.pairwise_lt_range
      rw [hsplit, List.pairwise_append] at hsorted
      rcases List.mem_cons.mp hjbs with rfl | hjbs
      · exact absurd hij (lt_irrefl j)
      · have := (List.pairwise_cons.mp hsorted.2.1).1 j hjbs
        omega

theorem advanceIndices_none (h : advanceIndices n t idx = none) :
    ∀ j < t, j + n - t ≤ indexAt idx j := by
  unfold advanceIndices at h
  split at h
  · rename_i hfind
    intro j hj
    have := List.find?_eq_none.mp hfind j (by simpa using hj)
    simpa [indexAt] using this
  · cases h

/-- Indices after a step: unchanged before the position that moves, consecutive from there. -/
theorem indexAt_advanced {i j : Nat} (hi : i ≤ idx.length) (hj : j < t) (base : Nat) :
    indexAt (idx.take i ++ (List.range (t - i)).map (base + ·)) j =
      if j < i then indexAt idx j else base + (j - i) := by
  have hlen : (idx.take i).length = i := by rw [List.length_take]; omega
  unfold indexAt
  split
  · rename_i hji
    rw [List.getElem?_append_left (by omega), List.getElem?_take_of_lt hji]
  · rename_i hji
    rw [List.getElem?_append_right (by omega), hlen, List.getElem?_map,
      List.getElem?_range (by omega)]
    rfl

theorem advanced_indexVector (h : IndexVector n t idx) {i : Nat} (hi : i < t)
    (hroom : indexAt idx i < i + n - t) :
    IndexVector n t (idx.take i ++ (List.range (t - i)).map (indexAt idx i + 1 + ·)) := by
  have hlen := h.length
  -- what stands before the position stays below it
  have hbefore : ∀ x ∈ idx.take i, x < indexAt idx i := by
    intro x hx
    obtain ⟨j, hj, rfl⟩ := List.mem_take_iff_getElem.mp hx
    have hlt := h.indexAt_lt (j := j) (k := i) (by omega) hi
    rwa [indexAt, List.getElem?_eq_getElem (by omega)] at hlt
  refine ⟨?_, ?_, ?_⟩
  · simp only [List.length_append, List.length_take, List.length_map, List.length_range]
    omega
  · refine List.pairwise_append.mpr ⟨h.sorted.sublist (List.take_sublist _ _), ?_, ?_⟩
    · refine List.pairwise_map.mpr (List.pairwise_lt_range.imp ?_)
      intro a b hab
      omega
    · intro x hx y hy
      obtain ⟨k, -, rfl⟩ := List.mem_map.mp hy
      have := hbefore x hx
      omega
  · intro x hx
    rcases List.mem_append.mp hx with hx | hx
    · exact h.bound x (List.mem_of_mem_take hx)
    · obtain ⟨k, hk, rfl⟩ := List.mem_map.mp hx
      have := List.mem_range.mp hk
      omega

/-- All vectors of `t` ascending indices below `n`. -/
def indexVectors (n t : Nat) : Finset (List Nat) :=
  ((Finset.range n).powersetCard t).image fun s => s.sort (· ≤ ·)

theorem mem_indexVectors : idx ∈ indexVectors n t ↔ IndexVector n t idx := by
  unfold indexVectors
  rw [Finset.mem_image]
  constructor
  · rintro ⟨s, hs, rfl⟩
    obtain ⟨hsub, hcard⟩ := Finset.mem_powersetCard.mp hs
    refine ⟨by rw [Finset.length_sort, hcard], s.sortedLT_sort.pairwise, ?_⟩
    intro x hx
    exact Finset.mem_range.mp (hsub ((Finset.mem_sort _).mp hx))
  · intro h
    have hnodup : idx.Nodup := h.sorted.imp ne_of_lt
    refine ⟨idx.toFinset, Finset.mem_powersetCard.mpr ⟨?_, ?_⟩, ?_⟩
    · intro x hx
      exact Finset.mem_range.mpr (h.bound x (List.mem_toFinset.mp hx))
    · rw [List.toFinset_card_of_nodup hnodup, h.length]
    · exact (List.toFinset_sort _ hnodup).mpr (h.sorted.imp le_of_lt)

theorem card_indexVectors (n t : Nat) : (indexVectors n t).card = n.choose t := by
  unfold indexVectors
  rw [Finset.card_image_of_injective, Finset.card_powersetCard, Finset.card_range]
  intro s s' h
  rw [← Finset.sort_toFinset (· ≤ ·) (s := s), ← Finset.sort_toFinset (· ≤ ·) (s := s')]
  exact congrArg List.toFinset h

/-- **The step is the lexicographic successor.** -/
theorem advanceIndices_succeeds (n t : Nat) :
    Succeeds (indexVectors n t) (advanceIndices n t) where
  mem := by
    intro idx idx' hidx h
    obtain ⟨i, hi, hroom, -, rfl⟩ := advanceIndices_some h
    exact mem_indexVectors.mpr (advanced_indexVector (mem_indexVectors.mp hidx) hi hroom)
  lt := by
    intro idx idx' hidx h
    obtain ⟨i, hi, hroom, -, rfl⟩ := advanceIndices_some h
    have hv := mem_indexVectors.mp hidx
    have hilen : i ≤ idx.length := by rw [hv.length]; omega
    rw [hv.lt_iff (advanced_indexVector hv hi hroom)]
    refine ⟨i, hi, ?_, ?_⟩
    · intro j hj
      rw [indexAt_advanced hilen (hj.trans hi), if_pos hj]
    · rw [indexAt_advanced hilen hi, if_neg (lt_irrefl i)]
      omega
  least := by
    intro idx idx' c hidx h hc hlt
    obtain ⟨i, hi, hroom, hfull, rfl⟩ := advanceIndices_some h
    have hv := mem_indexVectors.mp hidx
    have hcv := mem_indexVectors.mp hc
    have hilen : i ≤ idx.length := by rw [hv.length]; omega
    have hadv := advanced_indexVector hv hi hroom
    obtain ⟨m, hm, heq, hmlt⟩ := (hv.lt_iff hcv).mp hlt
    -- the positions after `i` are full, so the first difference is not behind `i`
    have hmi : m ≤ i := by
      by_contra hgt
      have h₁ := hfull m (by omega) hm
      have h₂ := hcv.indexAt_le hm
      omega
    rcases hmi.lt_or_eq with hmi | rfl
    · refine le_of_lt ((hadv.lt_iff hcv).mpr ⟨m, hm, ?_, ?_⟩)
      · intro j hj
        rw [indexAt_advanced hilen (hj.trans hm), if_pos (hj.trans hmi)]
        exact heq j hj
      · rw [indexAt_advanced hilen hm, if_pos hmi]
        exact hmlt
    · refine hadv.le_of_indexAt_le hcv ?_
      intro j hj
      rw [indexAt_advanced hilen hj]
      split
      · rename_i hjm
        exact (heq j hjm).le
      · have hadd := hcv.indexAt_add_le (j := m) (d := j - m) (by omega)
        rw [show m + (j - m) = j by omega] at hadd
        omega
  last := by
    intro idx c hidx h hc
    have hfull := advanceIndices_none h
    refine (mem_indexVectors.mp hc).le_of_indexAt_le (mem_indexVectors.mp hidx) ?_
    intro j hj
    have h₁ := (mem_indexVectors.mp hc).indexAt_le hj
    have h₂ := hfull j hj
    omega

theorem range_indexVector (h : t ≤ n) : IndexVector n t (List.range t) := by
  refine ⟨List.length_range, List.pairwise_lt_range, ?_⟩
  intro x hx
  have := List.mem_range.mp hx
  omega

/-- The loop starts at the least vector. -/
theorem range_le (hn : t ≤ n) (h : IndexVector n t idx) : List.range t ≤ idx := by
  refine (range_indexVector hn).le_of_indexAt_le h ?_
  intro j hj
  have hadd := h.indexAt_add_le (j := 0) (d := j) (by omega)
  rw [Nat.zero_add] at hadd
  rw [indexAt, List.getElem?_range hj]
  exact (Nat.le_add_left _ _).trans hadd

end Step

/-! ## Combinations -/

section Combinations

variable {α : Type} {items : List α} {t : Nat}

/-- Items at the given indices. -/
def select (items : List α) (idx : List Nat) : List α := idx.filterMap fun i => items[i]?

theorem tCombinationsLoop_eq (items : List α) (t fuel : Nat) (idx : List Nat) :
    tCombinationsLoop items t fuel idx =
      (walkFrom (advanceIndices items.length t) fuel idx).map (select items) := by
  induction fuel generalizing idx with
  | zero => rfl
  | succ fuel ih =>
    rw [tCombinationsLoop, walkFrom]
    cases advanceIndices items.length t idx with
    | none => rfl
    | some idx' => exact congrArg _ (ih idx')

theorem select_map_val (items : List α) (is : List (Fin items.length)) :
    select items (is.map Fin.val) = is.map fun i => items[i] := by
  induction is with
  | nil => rfl
  | cons i is ih =>
    rw [select, List.map_cons, List.filterMap_cons, List.getElem?_eq_getElem i.isLt]
    exact congrArg _ ih

theorem exists_fin {idx : List Nat} (h : IndexVector items.length t idx) :
    ∃ is : List (Fin items.length), is.map Fin.val = idx ∧ is.Pairwise (· < ·) := by
  have hmap : (idx.pmap Fin.mk h.bound).map Fin.val = idx := by simp [List.map_pmap]
  refine ⟨idx.pmap Fin.mk h.bound, hmap, ?_⟩
  have hsorted := h.sorted
  rw [← hmap, List.pairwise_map] at hsorted
  exact hsorted

/-- Ascending indices select exactly the sublists. -/
theorem exists_select_iff (s : List α) :
    (∃ idx, IndexVector items.length t idx ∧ select items idx = s) ↔
      s.Sublist items ∧ s.length = t := by
  constructor
  · rintro ⟨idx, hidx, rfl⟩
    obtain ⟨is, rfl, hsorted⟩ := exists_fin hidx
    rw [select_map_val]
    refine ⟨List.map_getElem_sublist hsorted, ?_⟩
    have hlen := hidx.length
    rwa [List.length_map] at hlen ⊢
  · rintro ⟨hsub, hlen⟩
    obtain ⟨is, rfl, hsorted⟩ := List.sublist_eq_map_getElem hsub
    refine ⟨is.map Fin.val, ⟨?_, List.pairwise_map.mpr hsorted, ?_⟩, select_map_val items is⟩
    · rw [List.length_map] at hlen ⊢
      exact hlen
    · intro x hx
      obtain ⟨i, -, rfl⟩ := List.mem_map.mp hx
      exact i.isLt

/-- Positions of selected items, when the items are distinct. -/
theorem map_idxOf_select [DecidableEq α] (hitems : items.Nodup) {idx : List Nat}
    (h : IndexVector items.length t idx) : (select items idx).map items.idxOf = idx := by
  obtain ⟨is, rfl, -⟩ := exists_fin h
  rw [select_map_val, List.map_map]
  refine List.map_congr_left ?_
  intro i _
  exact hitems.idxOf_getElem i.val i.isLt

/-- The loop of the combinations, with any fuel that lasts. -/
theorem mem_tCombinationsLoop (ht : t ≤ items.length) {fuel : Nat}
    (hfuel : items.length.choose t ≤ fuel) (s : List α) :
    s ∈ tCombinationsLoop items t fuel (List.range t) ↔ s.Sublist items ∧ s.length = t := by
  have hstart := mem_indexVectors.mpr (range_indexVector ht)
  have hcard := Finset.card_filter_le (indexVectors items.length t) (List.range t ≤ ·)
  rw [card_indexVectors] at hcard
  rw [tCombinationsLoop_eq, List.mem_map, ← exists_select_iff]
  constructor
  · rintro ⟨idx, hidx, hs⟩
    rw [mem_walkFrom (advanceIndices_succeeds _ _) hstart (hcard.trans hfuel)] at hidx
    exact ⟨idx, mem_indexVectors.mp hidx.1, hs⟩
  · rintro ⟨idx, hidx, hs⟩
    refine ⟨idx, ?_, hs⟩
    rw [mem_walkFrom (advanceIndices_succeeds _ _) hstart (hcard.trans hfuel)]
    exact ⟨mem_indexVectors.mpr hidx, range_le ht hidx⟩

/-- More fuel than combinations changes nothing: the loop ends by itself. -/
theorem tCombinationsLoop_fuel (ht : t ≤ items.length) {fuel : Nat}
    (hfuel : items.length.choose t ≤ fuel) :
    tCombinationsLoop items t fuel (List.range t) = tCombinations items t := by
  have hstart := mem_indexVectors.mpr (range_indexVector ht)
  have hcard := Finset.card_filter_le (indexVectors items.length t) (List.range t ≤ ·)
  rw [card_indexVectors] at hcard
  have hfixed : tCombinationsLoop items t fuel (List.range t) =
      tCombinationsLoop items t (items.length.choose t) (List.range t) := by
    rw [tCombinationsLoop_eq, tCombinationsLoop_eq,
      walkFrom_eq (advanceIndices_succeeds _ _) hstart (hcard.trans hfuel) hcard]
  rw [hfixed, tCombinations, if_neg (by omega)]
  split
  · rename_i hzero
    subst hzero
    rw [Nat.choose_zero_right]
    rfl
  · rfl

theorem mem_tCombinations (ht : t ≤ items.length) (s : List α) :
    s ∈ tCombinations items t ↔ s.Sublist items ∧ s.length = t := by
  rw [← tCombinationsLoop_fuel ht le_rfl]
  exact mem_tCombinationsLoop ht le_rfl s

/-- **Lexicographic order** of the positions. -/
theorem tCombinations_ascending [DecidableEq α] (hitems : items.Nodup) (ht : t ≤ items.length) :
    (tCombinations items t).Pairwise fun a b => a.map items.idxOf < b.map items.idxOf := by
  have hstart := mem_indexVectors.mpr (range_indexVector ht)
  obtain ⟨hsorted, hmem⟩ := walkFrom_sorted (advanceIndices_succeeds items.length t)
    (items.length.choose t) hstart
  rw [← tCombinationsLoop_fuel ht le_rfl, tCombinationsLoop_eq, List.pairwise_map]
  refine hsorted.imp_of_mem ?_
  intro idx idx' hidx hidx' hlt
  rw [map_idxOf_select hitems (mem_indexVectors.mp (hmem idx hidx).1),
    map_idxOf_select hitems (mem_indexVectors.mp (hmem idx' hidx').1)]
  exact hlt

theorem tCombinations_nodup [DecidableEq α] (hitems : items.Nodup) (ht : t ≤ items.length) :
    (tCombinations items t).Nodup := by
  refine (tCombinations_ascending hitems ht).imp ?_
  rintro a b hlt rfl
  exact lt_irrefl _ hlt

theorem length_tCombinations (ht : t ≤ items.length) :
    (tCombinations items t).length = items.length.choose t := by
  have hstart := mem_indexVectors.mpr (range_indexVector ht)
  have hcard := Finset.card_filter_le (indexVectors items.length t) (List.range t ≤ ·)
  rw [card_indexVectors] at hcard
  have hsorted := (walkFrom_sorted (advanceIndices_succeeds items.length t)
    (items.length.choose t) hstart).1
  rw [← tCombinationsLoop_fuel ht le_rfl, tCombinationsLoop_eq, List.length_map,
    ← List.toFinset_card_of_nodup (hsorted.imp ne_of_lt)]
  refine (congrArg Finset.card ?_).trans (card_indexVectors items.length t)
  ext idx
  rw [List.mem_toFinset, mem_walkFrom (advanceIndices_succeeds _ _) hstart hcard]
  constructor
  · exact fun h => h.1
  · exact fun h => ⟨h, range_le ht (mem_indexVectors.mp h)⟩

end Combinations

/-! ## Rotation -/

/-- Residues reached within one period from any offset. -/
theorem exists_offset (x : Nat) {k period : Nat} (hk : k < period) :
    ∃ i < period, (x + i) % period = k := by
  have hx := Nat.mod_lt x (by omega : period > 0)
  have hdiv := Nat.div_add_mod x period
  rcases le_or_gt (x % period) k with hle | hgt
  · refine ⟨k - x % period, by omega, ?_⟩
    rw [show x + (k - x % period) = k + period * (x / period) by omega, Nat.add_mul_mod_self_left,
      Nat.mod_eq_of_lt hk]
  · refine ⟨k + period - x % period, by omega, ?_⟩
    have hnext : period * (x / period + 1) = period * (x / period) + period := Nat.mul_succ _ _
    rw [show x + (k + period - x % period) = k + period * (x / period + 1) by omega,
      Nat.add_mul_mod_self_left, Nat.mod_eq_of_lt hk]

theorem offset_injective (x : Nat) {i j period : Nat} (hi : i < period) (hj : j < period)
    (h : (x + i) % period = (x + j) % period) : i = j :=
  Nat.ModEq.eq_of_lt_of_lt (Nat.ModEq.add_left_cancel' x h) hi hj

/-- At most the faulty peers are missing from what is left of a list. -/
theorem length_le_honest {peers : List PeerId} (hpeers : peers.Nodup) (faulty : Finset PeerId) :
    peers.length ≤ (peers.filter fun p => !decide (p ∈ faulty)).length + faulty.card := by
  have hsplit := List.length_eq_length_filter_add (l := peers) fun p => decide (p ∈ faulty)
  have hnd : (peers.map fun p => p).Nodup := by rwa [List.map_id']
  have hfew : (peers.filter fun p => decide (p ∈ faulty)).length ≤ faulty.card :=
    length_filter_le_card hnd faulty fun p _ hp => of_decide_eq_true hp
  omega

/-- Guardians outside a tolerated faulty set make up a whole signer subset. -/
theorem exists_honest_signers (n : NumPeers) {faulty : Finset PeerId}
    (hfaulty : faulty.card ≤ n.maxEvil) :
    ∃ s : List PeerId, s.Sublist (List.range n.total) ∧ s.length = n.threshold ∧
      ∀ p ∈ s, p ∉ faulty := by
  have hmany := length_le_honest (List.nodup_range : (List.range n.total).Nodup) faulty
  rw [List.length_range] at hmany
  refine ⟨((List.range n.total).filter fun p => !decide (p ∈ faulty)).take n.threshold,
    (List.take_sublist _ _).trans List.filter_sublist, ?_, ?_⟩
  · rw [List.length_take]
    unfold NumPeers.threshold
    omega
  · intro p hp
    have := (List.mem_filter.mp (List.mem_of_mem_take hp)).2
    simpa using this

/-- The attempt's subset stands at its place in the period. -/
theorem signerSubset_eq (u : Usdt) (digest : Hash) (attempt : Nat) :
    (tCombinations (List.range u.numPeers.total) u.numPeers.threshold)[
        (digest.val / 2 ^ 192 + attempt) % u.numPeers.total.choose u.numPeers.threshold]? =
      some (u.signerSubset digest attempt) := by
  have ht : u.numPeers.threshold ≤ (List.range u.numPeers.total).length := by
    rw [List.length_range]
    exact Nat.sub_le _ _
  have hlen := length_tCombinations ht
  rw [List.length_range] at hlen ht
  have hpos := Nat.choose_pos ht
  unfold Usdt.signerSubset
  dsimp only
  rw [hlen, List.getElem?_eq_getElem (by rw [hlen]; exact Nat.mod_lt _ hpos), Option.getD_some]

theorem signerSubset_mem (u : Usdt) (digest : Hash) (attempt : Nat) :
    (u.signerSubset digest attempt).Sublist (List.range u.numPeers.total) ∧
      (u.signerSubset digest attempt).length = u.numPeers.threshold := by
  have ht : u.numPeers.threshold ≤ (List.range u.numPeers.total).length := by
    rw [List.length_range]
    exact Nat.sub_le _ _
  exact (mem_tCombinations ht _).1 (List.mem_of_getElem? (signerSubset_eq u digest attempt))

/-- **Rotation.** Over distinct items the loop ends and lists each sublist of `t` items once, in
lexicographic order of positions; so every attempt's signers are a threshold of the guardians, in
every period of attempts they are pairwise different, and for every faulty set that is tolerated one
of them avoids it. -/
theorem rotation_covers (u : Usdt) (digest : Hash) (attempt : Nat) :
    (∀ {α : Type} [DecidableEq α] (items : List α) (t : Nat), items.Nodup → 1 ≤ t →
      t ≤ items.length →
        (∀ fuel ≥ items.length.choose t,
          tCombinationsLoop items t fuel (List.range t) = tCombinations items t) ∧
        (∀ s ∈ tCombinations items t, s.Sublist items ∧ s.length = t) ∧
        (∀ s, s.Sublist items → s.length = t → (tCombinations items t).count s = 1) ∧
        (tCombinations items t).Pairwise fun a b => a.map items.idxOf < b.map items.idxOf) ∧
    (∀ a, (u.signerSubset digest a).Sublist (List.range u.numPeers.total) ∧
      (u.signerSubset digest a).length = u.numPeers.threshold) ∧
    (∀ i j, i < j → j < u.numPeers.total.choose u.numPeers.threshold →
      u.signerSubset digest (attempt + i) ≠ u.signerSubset digest (attempt + j)) ∧
    ∀ faulty : Finset PeerId, faulty.card ≤ u.numPeers.maxEvil →
      ∃ i < u.numPeers.total.choose u.numPeers.threshold,
        ∀ p ∈ u.signerSubset digest (attempt + i), p ∉ faulty := by
  have ht : u.numPeers.threshold ≤ (List.range u.numPeers.total).length := by
    rw [List.length_range]
    exact Nat.sub_le _ _
  have hlen := length_tCombinations ht
  rw [List.length_range] at hlen
  refine ⟨?_, signerSubset_mem u digest, ?_, ?_⟩
  · intro α _ items t hitems _ ht
    refine ⟨fun fuel hfuel => tCombinationsLoop_fuel ht hfuel,
      fun s => (mem_tCombinations ht s).mp, ?_, tCombinations_ascending hitems ht⟩
    intro s hsub hslen
    exact List.count_eq_one_of_mem (tCombinations_nodup hitems ht)
      ((mem_tCombinations ht s).mpr ⟨hsub, hslen⟩)
  · intro i j hij hj heq
    have hi := signerSubset_eq u digest (attempt + i)
    rw [heq, ← signerSubset_eq u digest (attempt + j), ← Nat.add_assoc, ← Nat.add_assoc] at hi
    have hpos : 0 < u.numPeers.total.choose u.numPeers.threshold := by omega
    have hplace := (List.getElem?_inj (by rw [hlen]; exact Nat.mod_lt _ hpos)
      (tCombinations_nodup List.nodup_range ht)).mp hi
    have := offset_injective (digest.val / 2 ^ 192 + attempt) (hij.trans hj) hj hplace
    omega
  · intro faulty hfaulty
    obtain ⟨s, hsub, hslen, hgood⟩ := exists_honest_signers u.numPeers hfaulty
    obtain ⟨k, hk, hget⟩ := List.getElem_of_mem ((mem_tCombinations ht s).mpr ⟨hsub, hslen⟩)
    rw [hlen] at hk
    obtain ⟨i, hi, hplace⟩ := exists_offset (digest.val / 2 ^ 192 + attempt) hk
    refine ⟨i, hi, ?_⟩
    have heq := signerSubset_eq u digest (attempt + i)
    rw [← Nat.add_assoc, hplace, List.getElem?_eq_getElem (by omega), hget] at heq
    rw [← Option.some.inj heq]
    exact hgood

/-- Four guardians, one of whom may be faulty. -/
def Sample.four : Usdt := { sampleUsdt with numPeers := ⟨4⟩ }

theorem rotation_covers_four :
    (tCombinations ["a", "b", "c", "d"] 3).count ["a", "c", "d"] = 1 ∧
      (Sample.four.signerSubset 5 7).length = 3 ∧
      Sample.four.signerSubset 5 7 ≠ Sample.four.signerSubset 5 10 ∧
      ∃ i < 4, 2 ∉ Sample.four.signerSubset 5 (7 + i) := by
  obtain ⟨hlist, hsigners, hdifferent, havoids⟩ := rotation_covers Sample.four 5 7
  obtain ⟨-, -, honce, -⟩ := hlist ["a", "b", "c", "d"] 3 (by decide) (by decide) (by decide)
  obtain ⟨i, hi, hgood⟩ := havoids {2} (by decide)
  exact ⟨honce ["a", "c", "d"] (by decide) rfl, (hsigners 7).2,
    hdifferent 0 3 (by decide) (by decide), i, hi, fun hmem => hgood 2 hmem (by decide)⟩

end Experimint.FedimintUsdt
