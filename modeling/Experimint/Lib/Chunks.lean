import Mathlib.Algebra.BigOperators.Group.List.Basic
import Mathlib.Algebra.GroupWithZero.Nat
import Mathlib.Algebra.Order.BigOperators.Group.Finset
import Mathlib.Data.List.Basic

/-!
# Chunks of a list

A list cut into pieces of `n` elements, the last one shorter.  In order, the pieces are the list
again; any set of them holds at most its length.
-/

set_option autoImplicit false

namespace Experimint

variable {α : Type} {n : Nat} {l : List α}

def chunksOf (n : Nat) (l : List α) : List (List α) :=
  (List.range ((l.length + (n - 1)) / n)).map fun i => (l.drop (i * n)).take n

@[simp] theorem length_chunksOf (n : Nat) (l : List α) :
    (chunksOf n l).length = (l.length + (n - 1)) / n := by
  simp [chunksOf]

theorem length_le_of_mem_chunksOf {c : List α} (h : c ∈ chunksOf n l) : c.length ≤ n := by
  obtain ⟨i, -, rfl⟩ := List.mem_map.1 h
  exact List.length_take_le _ _

/-- The first `k` pieces are the first `k * n` elements. -/
theorem flatten_map_chunk (n : Nat) (l : List α) (k : Nat) :
    ((List.range k).map fun i => (l.drop (i * n)).take n).flatten = l.take (k * n) := by
  induction k with
  | zero => simp
  | succ k ih =>
    rw [List.range_succ, List.map_append, List.flatten_append, ih, Nat.succ_mul, List.take_add]
    simp

/-- **Nothing is lost.** -/
theorem flatten_chunksOf (hn : 0 < n) (l : List α) : (chunksOf n l).flatten = l := by
  rw [chunksOf, flatten_map_chunk]
  apply List.take_of_length_le
  have := Nat.div_add_mod (l.length + (n - 1)) n
  have := Nat.mod_lt (l.length + (n - 1)) hn
  rw [Nat.mul_comm]
  omega

/-- Pieces at distinct positions hold no more than all of them. -/
theorem sum_length_le_flatten (cs : List (List α)) {is : List Nat} (hnodup : is.Nodup)
    (hlt : ∀ i ∈ is, i < cs.length) :
    (is.map fun i => (cs.getD i []).length).sum ≤ cs.flatten.length := by
  have hall : cs.flatten.length = ((List.range cs.length).map fun i => (cs.getD i []).length).sum := by
    rw [List.length_flatten]
    congr 1
    apply List.ext_getElem
    · simp
    · intro i h₁ h₂
      simp at h₁
      simp [h₁]
  rw [hall, ← List.sum_toFinset _ hnodup, ← List.sum_toFinset _ List.nodup_range]
  apply Finset.sum_le_sum_of_subset
  intro i hi
  simpa using hlt i (List.mem_toFinset.1 hi)

end Experimint
