import Mathlib.Data.List.Sort
import Mathlib.Data.Finset.Card
import Mathlib.Order.Interval.Finset.Defs

/-!
# Enumeration by a successor function

A loop that starts at the least element of a finite set and moves on by a successor function until
there is none visits every element once, in ascending order.

* `Succeeds` — the successor is the least greater element, and is missing only at the top.
* `mem_walkFrom`, `walkFrom_sorted` — what a walk visits, and in which order.
* `walkFrom_eq` — the walk ends by itself: more fuel than there are elements changes nothing.
-/

set_option autoImplicit false

namespace Experimint

variable {α : Type}

/-- Elements visited from `a` along `next`, at most `fuel` of them. -/
def walkFrom (next : α → Option α) : Nat → α → List α
  | 0, _ => []
  | fuel + 1, a =>
    a :: match next a with
      | none => []
      | some b => walkFrom next fuel b

variable [LinearOrder α] {S : Finset α} {next : α → Option α}

/-- `next` moves on to the least greater element of `S`. -/
structure Succeeds (S : Finset α) (next : α → Option α) : Prop where
  mem : ∀ {a b}, a ∈ S → next a = some b → b ∈ S
  lt : ∀ {a b}, a ∈ S → next a = some b → a < b
  least : ∀ {a b c}, a ∈ S → next a = some b → c ∈ S → a < c → b ≤ c
  last : ∀ {a c}, a ∈ S → next a = none → c ∈ S → c ≤ a

/-- Fewer elements remain after a step. -/
theorem Succeeds.card_lt (h : Succeeds S next) {a b : α} (ha : a ∈ S) (hb : next a = some b) :
    (S.filter (b ≤ ·)).card < (S.filter (a ≤ ·)).card := by
  have hab := h.lt ha hb
  have hsub : S.filter (b ≤ ·) ⊆ S.filter (a ≤ ·) := by
    intro c hc
    obtain ⟨hcS, hbc⟩ := Finset.mem_filter.mp hc
    exact Finset.mem_filter.mpr ⟨hcS, hab.le.trans hbc⟩
  refine Finset.card_lt_card ((Finset.ssubset_iff_of_subset hsub).mpr ⟨a, ?_, ?_⟩)
  · exact Finset.mem_filter.mpr ⟨ha, le_rfl⟩
  · intro hmem
    exact absurd (Finset.mem_filter.mp hmem).2 (not_le.mpr hab)

/-- **Completeness.** With fuel for every element ahead, a walk visits exactly those. -/
theorem mem_walkFrom (h : Succeeds S next) {fuel : Nat} {a : α} (ha : a ∈ S)
    (hfuel : (S.filter (a ≤ ·)).card ≤ fuel) (c : α) :
    c ∈ walkFrom next fuel a ↔ c ∈ S ∧ a ≤ c := by
  induction fuel generalizing a with
  | zero =>
    have hmem : a ∈ S.filter (a ≤ ·) := Finset.mem_filter.mpr ⟨ha, le_rfl⟩
    have := Finset.card_pos.mpr ⟨a, hmem⟩
    omega
  | succ fuel ih =>
    rw [walkFrom, List.mem_cons]
    cases hnext : next a with
    | none =>
      simp only [List.not_mem_nil, or_false]
      constructor
      · rintro rfl
        exact ⟨ha, le_rfl⟩
      · rintro ⟨hc, hac⟩
        exact le_antisymm (h.last ha hnext hc) hac
    | some b =>
      have hfewer := h.card_lt ha hnext
      simp only [ih (h.mem ha hnext) (by omega)]
      constructor
      · rintro (rfl | ⟨hc, hbc⟩)
        · exact ⟨ha, le_rfl⟩
        · exact ⟨hc, (h.lt ha hnext).le.trans hbc⟩
      · rintro ⟨hc, hac⟩
        rcases hac.eq_or_lt with rfl | hlt
        · exact Or.inl rfl
        · exact Or.inr ⟨hc, h.least ha hnext hc hlt⟩

/-- **Order.** Whatever the fuel, a walk ascends. -/
theorem walkFrom_sorted (h : Succeeds S next) (fuel : Nat) {a : α} (ha : a ∈ S) :
    (walkFrom next fuel a).Pairwise (· < ·) ∧ ∀ c ∈ walkFrom next fuel a, c ∈ S ∧ a ≤ c := by
  induction fuel generalizing a with
  | zero => simp [walkFrom]
  | succ fuel ih =>
    rw [walkFrom]
    cases hnext : next a with
    | none => simp [ha]
    | some b =>
      have hab := h.lt ha hnext
      obtain ⟨hsorted, hmem⟩ := ih (h.mem ha hnext)
      refine ⟨List.pairwise_cons.mpr ⟨?_, hsorted⟩, ?_⟩
      · intro c hc
        exact hab.trans_le (hmem c hc).2
      · intro c hc
        rcases List.mem_cons.mp hc with rfl | hc
        · exact ⟨ha, le_rfl⟩
        · exact ⟨(hmem c hc).1, hab.le.trans (hmem c hc).2⟩

/-- **Termination.** Fuel beyond the elements ahead is not used. -/
theorem walkFrom_eq (h : Succeeds S next) {fuel fuel' : Nat} {a : α} (ha : a ∈ S)
    (hfuel : (S.filter (a ≤ ·)).card ≤ fuel) (hfuel' : (S.filter (a ≤ ·)).card ≤ fuel') :
    walkFrom next fuel a = walkFrom next fuel' a := by
  refine List.Perm.eq_of_pairwise ?_ (walkFrom_sorted h fuel ha).1
    (walkFrom_sorted h fuel' ha).1 ?_
  · intro c d _ _ hcd hdc
    exact absurd hcd hdc.asymm
  · refine (List.perm_ext_iff_of_nodup ?_ ?_).mpr ?_
    · exact (walkFrom_sorted h fuel ha).1.imp ne_of_lt
    · exact (walkFrom_sorted h fuel' ha).1.imp ne_of_lt
    · intro c
      rw [mem_walkFrom h ha hfuel, mem_walkFrom h ha hfuel']

end Experimint
