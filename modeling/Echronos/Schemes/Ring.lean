import Mathlib.Data.List.Range
import Mathlib.Data.Nat.ModEq

/-! # Bounded queues and their ring representation

    `Fifo α n` is a queue of at most `n` elements, as a list that carries its bound. A ring stores
    such a queue in `n` cells: its `i`-th element is in cell `(head + i) % n`. `ringList` reads a
    ring back as a list, and the lemmas below say what writing the next free cell, and moving the
    head, do to that list. -/

namespace Schemes

variable {α : Type*}

/-- A queue of at most `n` elements, oldest first. -/
structure Fifo (α : Type*) (n : ℕ) where
  items : List α
  length_le : items.length ≤ n

namespace Fifo

variable {n : ℕ}

def empty : Fifo α n := ⟨[], Nat.zero_le n⟩

/-- Append an element; false if the queue is full. -/
def put (x : α) (f : Fifo α n) : Bool × Fifo α n :=
  if h : f.items.length < n then (true, ⟨f.items ++ [x], by rw [List.length_append]; exact h⟩) else (false, f)

/-- Remove the oldest element; `none` if the queue is empty. -/
def get (f : Fifo α n) : Option (α × Fifo α n) :=
  match h : f.items with
  | [] => none
  | x :: xs => some (x, ⟨xs, by have := f.length_le; simp [h] at this; omega⟩)

theorem get_of_nil {f : Fifo α n} (h : f.items = []) : f.get = none := by
  obtain ⟨items, hle⟩ := f
  subst h
  rfl

theorem get_of_cons {f : Fifo α n} {x : α} {xs : List α} (h : f.items = x :: xs) :
    ∃ g, f.get = some (x, g) ∧ g.items = xs := by
  obtain ⟨items, hle⟩ := f
  subst h
  exact ⟨_, rfl, rfl⟩

end Fifo

/-- The elements of a ring of `n` cells. -/
def ringList (read : ℕ → α) (n head count : ℕ) : List α :=
  (List.range count).map fun i => read ((head + i) % n)

variable {read read' : ℕ → α} {n head count : ℕ}

@[simp] theorem length_ringList : (ringList read n head count).length = count := by
  simp [ringList]

theorem ringSlot_injective {i j : ℕ} (hi : i < n) (hj : j < n)
    (h : (head + i) % n = (head + j) % n) : i = j := by
  have : i % n = j % n := Nat.ModEq.add_left_cancel' head h
  rwa [Nat.mod_eq_of_lt hi, Nat.mod_eq_of_lt hj] at this

theorem ringList_congr (h : ∀ i < count, read' ((head + i) % n) = read ((head + i) % n)) :
    ringList read' n head count = ringList read n head count :=
  List.map_congr_left fun i hi => h i (List.mem_range.mp hi)

/-- Writing the cell after the last element appends an element. -/
theorem ringList_put {x : α} (hcount : count < n)
    (hself : read' ((head + count) % n) = x)
    (hother : ∀ k < n, k ≠ (head + count) % n → read' k = read k) :
    ringList read' n head (count + 1) = ringList read n head count ++ [x] := by
  have hold : ringList read' n head count = ringList read n head count := by
    refine ringList_congr fun i hi => hother _ (Nat.mod_lt _ (by omega)) fun h => ?_
    have := ringSlot_injective (by omega) hcount h
    omega
  rw [← hold, ← hself]
  simp [ringList, List.range_succ]

/-- Moving the head removes the first element. -/
theorem ringList_get (read : ℕ → α) (count : ℕ) (hhead : head < n) : ringList read n head (count + 1) =
    read head :: ringList read n ((head + 1) % n) count := by
  simp only [ringList, List.range_succ_eq_map, List.map_cons, List.map_map, Nat.add_zero,
    Nat.mod_eq_of_lt hhead, List.cons.injEq, true_and]
  refine List.map_congr_left fun i _ => ?_
  simp only [Function.comp, Nat.succ_eq_add_one, Nat.mod_add_mod]
  congr 2
  omega

end Schemes
