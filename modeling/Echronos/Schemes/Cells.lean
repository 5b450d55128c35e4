import Mathlib.Data.List.Basic
import Mathlib.Logic.Function.Basic

/-! # The contents of an array

    An array is a function of the index, and its contents are the values of the first indices. -/

namespace Schemes

variable {α : Type*} {cells cells' : ℕ → α} {i n : ℕ} {a : α}

/-- The first `n` values. -/
def contents (cells : ℕ → α) (n : ℕ) : List α := (List.range n).map cells

@[simp] theorem length_contents : (contents cells n).length = n := by
  rw [contents, List.length_map, List.length_range]

@[simp] theorem contents_zero : contents cells 0 = [] := rfl

theorem contents_succ : contents cells (n + 1) = contents cells n ++ [cells n] := by
  rw [contents, List.range_succ, List.map_append]
  rfl

theorem contents_congr (h : ∀ i < n, cells i = cells' i) : contents cells n = contents cells' n :=
  List.map_congr_left fun i hi => h i (List.mem_range.mp hi)

/-- A value behind the contents changes nothing. -/
theorem contents_update (h : n ≤ i) : contents (Function.update cells i a) n = contents cells n :=
  contents_congr fun j hj => Function.update_of_ne (by omega) _ _

/-- A value put behind the contents is their last one. -/
theorem contents_update_succ :
    contents (Function.update cells n a) (n + 1) = contents cells n ++ [a] := by
  rw [contents_succ, contents_update (Nat.le_refl n), Function.update_self]

theorem drop_contents (h : i < n) :
    (contents cells n).drop i = cells i :: (contents cells n).drop (i + 1) := by
  rw [List.drop_eq_getElem_cons (by simpa using h)]
  simp [contents]

theorem drop_reverse_contents (h : i < n) :
    (contents cells n).reverse.drop i = cells (n - 1 - i) :: (contents cells n).reverse.drop (i + 1) := by
  rw [List.drop_eq_getElem_cons (by simpa using h)]
  simp [contents]

end Schemes
