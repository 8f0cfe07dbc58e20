import Mathlib.Data.List.Basic

/-!
# What a queue holds

A queue that is filled at one end and emptied at the other holds a stretch of the list of
everything ever sent: from the number of items taken to the number of items put in.

* `window l r m` — items `r, …, m - 1` of `l`.
* `window_push`, `window_pop` — the two operations, on the counters.
* `window_append` — items sent later do not change what the queue holds.
-/

set_option autoImplicit false

namespace Experimint

variable {α : Type} {l rest : List α} {r m : Nat} {x : α}

def window (l : List α) (r m : Nat) : List α := (l.take m).drop r

/-- What a list starts with stays where it is in the longer list. -/
theorem getElem?_prefix_mono {l' : List α} {k : Nat} (h : l <+: l') (hk : l[k]? = some x) :
    l'[k]? = some x := by
  obtain ⟨more, rfl⟩ := h
  rw [List.getElem?_append_left (List.getElem?_eq_some_iff.1 hk).1]
  exact hk

theorem window_push (h : r ≤ m) (hx : l[m]? = some x) :
    window l r m ++ [x] = window l r (m + 1) := by
  have hm : m < l.length := (List.getElem?_eq_some_iff.1 hx).1
  have hr : r ≤ (l.take m).length := by
    rw [List.length_take]
    omega
  unfold window
  rw [List.take_add_one, hx, Option.toList_some, List.drop_append_of_le_length hr]

theorem window_pop (h : window l r m = x :: rest) :
    l[r]? = some x ∧ r < m ∧ rest = window l (r + 1) m := by
  have hhead : (window l r m)[0]? = some x := by rw [h]; rfl
  have htail : rest = (window l r m).drop 1 := by rw [h]; rfl
  unfold window at hhead htail
  rw [List.getElem?_drop, Nat.add_zero, List.getElem?_take] at hhead
  split at hhead
  · rename_i hr
    rw [List.drop_drop] at htail
    exact ⟨hhead, hr, htail⟩
  · cases hhead

theorem window_append (l' : List α) (h : m ≤ l.length) : window (l ++ l') r m = window l r m := by
  unfold window
  rw [List.take_append_of_le_length h]

theorem window_ne_nil (h : r < m) (hm : m ≤ l.length) : window l r m ≠ [] := by
  unfold window
  rw [Ne, List.drop_eq_nil_iff, List.length_take]
  omega

end Experimint
