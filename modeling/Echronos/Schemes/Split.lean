import Mathlib.Data.List.Basic
import Mathlib.Data.List.TakeWhile

/-! # Splitting from either end

    A list is cut at its first separators, or at its last ones, until a number of cuts is made. -/

namespace Schemes

variable {α : Type*} [DecidableEq α]

/-- The pieces between the first `n` separators, and what is behind them. -/
def splitFirst (sep : α) : ℕ → List α → List (List α)
  | _, [] => [[]]
  | 0, a :: l => [a :: l]
  | n + 1, a :: l =>
    if a = sep then [] :: splitFirst sep n l
    else (splitFirst sep (n + 1) l).modifyHead (a :: ·)

/-- What is before the last `n` separators, and the pieces between them. -/
def splitLast (sep : α) (n : ℕ) (l : List α) : List (List α) :=
  ((splitFirst sep n l.reverse).map List.reverse).reverse

variable {sep : α} {head tail l : List α}

@[simp] theorem splitFirst_zero : ∀ l : List α, splitFirst sep 0 l = [l]
  | [] => rfl
  | _ :: _ => rfl

theorem splitFirst_append_cons (n : ℕ) (tail : List α) : ∀ {head : List α}, sep ∉ head →
    splitFirst sep (n + 1) (head ++ sep :: tail) = head :: splitFirst sep n tail
  | [], _ => by rw [List.nil_append, splitFirst, if_pos rfl]
  | a :: head, h => by
    obtain ⟨ha, hhead⟩ := List.ne_and_not_mem_of_not_mem_cons h
    rw [List.cons_append, splitFirst, if_neg (Ne.symm ha), splitFirst_append_cons n tail hhead]
    rfl

@[simp] theorem splitLast_zero (l : List α) : splitLast sep 0 l = [l] := by
  rw [splitLast, splitFirst_zero, List.map_singleton, List.reverse_reverse, List.reverse_singleton]

theorem splitLast_append_cons (n : ℕ) (head : List α) (h : sep ∉ tail) :
    splitLast sep (n + 1) (head ++ sep :: tail) = splitLast sep n head ++ [tail] := by
  have hreverse : (head ++ sep :: tail).reverse = tail.reverse ++ sep :: head.reverse := by
    rw [List.reverse_append, List.reverse_cons, List.append_assoc, List.singleton_append]
  have htail : sep ∉ tail.reverse := by rwa [List.mem_reverse]
  rw [splitLast, hreverse, splitFirst_append_cons n _ htail, List.map_cons, List.reverse_cons,
    List.reverse_reverse, splitLast]

/-- What is behind the last separator, if there is one. -/
theorem takeWhile_reverse_append_cons (head : List α) (h : sep ∉ tail) :
    ((head ++ sep :: tail).reverse.takeWhile (· ≠ sep)).reverse = tail := by
  have htail : ∀ a ∈ tail.reverse, decide (a ≠ sep) = true := fun a ha =>
    decide_eq_true fun heq => h (heq ▸ List.mem_reverse.mp ha)
  rw [List.reverse_append, List.reverse_cons, List.append_assoc, List.singleton_append,
    List.takeWhile_append_of_pos htail, List.takeWhile_cons_of_neg (by simp), List.append_nil,
    List.reverse_reverse]

theorem takeWhile_reverse_of_notMem (h : sep ∉ l) : (l.reverse.takeWhile (· ≠ sep)).reverse = l := by
  have hl : ∀ a ∈ l.reverse, decide (a ≠ sep) = true := fun a ha =>
    decide_eq_true fun heq => h (heq ▸ List.mem_reverse.mp ha)
  rw [List.takeWhile_eq_self_iff.mpr hl, List.reverse_reverse]

end Schemes
