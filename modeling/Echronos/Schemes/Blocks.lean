import Mathlib.Data.List.Basic

/-! # Lists in blocks

    Some elements of a list are headers. What is behind a header, up to the next one, is its block, and
    what is before the first header belongs to none. -/

namespace Schemes

variable {α κ : Type*} {header : α → Option κ}

/-- What is before the first header, and the blocks. -/
def blocks (header : α → Option κ) : List α → List α × List (κ × List α)
  | [] => ([], [])
  | x :: l =>
    match header x with
    | some k => ([], (k, (blocks header l).1) :: (blocks header l).2)
    | none => (x :: (blocks header l).1, (blocks header l).2)

theorem blocks_cons_of_some {x : α} {k : κ} (h : header x = some k) (l : List α) :
    blocks header (x :: l) = ([], (k, (blocks header l).1) :: (blocks header l).2) := by
  rw [blocks, h]

theorem blocks_cons_of_none {x : α} (h : header x = none) (l : List α) :
    blocks header (x :: l) = (x :: (blocks header l).1, (blocks header l).2) := by
  rw [blocks, h]

/-- What has no header in it comes before the first one. -/
theorem blocks_append (l : List α) : ∀ {front : List α}, (∀ x ∈ front, header x = none) →
    blocks header (front ++ l) = (front ++ (blocks header l).1, (blocks header l).2)
  | [], _ => rfl
  | x :: front, h => by
    obtain ⟨hx, hfront⟩ := List.forall_mem_cons.mp h
    rw [List.cons_append, blocks_cons_of_none hx, blocks_append l hfront]
    rfl

/-- Blocks that are written one behind the other are read back. -/
theorem blocks_flatMap {β : Type*} {head : β → α} {key : β → κ} {body : β → List α}
    (hhead : ∀ b, header (head b) = some (key b)) (hbody : ∀ b, ∀ x ∈ body b, header x = none) :
    ∀ bs : List β, blocks header (bs.flatMap fun b => head b :: body b) =
      ([], bs.map fun b => (key b, body b))
  | [] => rfl
  | b :: bs => by
    rw [List.flatMap_cons, List.cons_append, blocks_cons_of_some (hhead b), blocks_append _ (hbody b),
      blocks_flatMap hhead hbody bs, List.append_nil]
    rfl

end Schemes
