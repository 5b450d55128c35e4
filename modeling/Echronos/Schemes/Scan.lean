import Mathlib.Data.List.FinRange
import Mathlib.Data.Fintype.Basic

/-! # Scans over a finite index range

    A `for` loop over all indices whose body touches only the entries of its own index. `scan` is
    the loop as a left fold; the lemmas read its result off entry by entry, so a proof about a loop
    never unrolls it. -/

namespace Schemes

variable {σ ι β : Type*}

/-- The loop `for i in 0..n-1 { s = body s i }`. -/
def scan {n : ℕ} (body : σ → Fin n → σ) (s : σ) : σ := (List.finRange n).foldl body s

theorem foldl_invariant {p : σ → Prop} {body : σ → ι → σ} (step : ∀ s i, p s → p (body s i)) :
    ∀ (l : List ι) (s : σ), p s → p (l.foldl body s)
  | [], _, h => h
  | i :: l, s, h => foldl_invariant step l (body s i) (step s i h)

/-- What every turn of the loop preserves, the loop preserves. -/
theorem scan_invariant {n : ℕ} {p : σ → Prop} {body : σ → Fin n → σ} {s : σ}
    (step : ∀ s i, p s → p (body s i)) (h : p s) : p (scan body s) :=
  foldl_invariant step _ s h

/-- A part of the state that no turn changes is not changed by the loop. -/
theorem scan_unchanged {n : ℕ} {body : σ → Fin n → σ} (view : σ → β)
    (step : ∀ s i, view (body s i) = view s) (s : σ) : view (scan body s) = view s :=
  scan_invariant (p := fun t => view t = view s) (fun t i h => (step t i).trans h) rfl

theorem foldl_rest {p : List ι → σ → Prop} {body : σ → ι → σ}
    (step : ∀ i l s, p (i :: l) s → p l (body s i)) :
    ∀ (l : List ι) (s : σ), p l s → p [] (l.foldl body s)
  | [], _, h => h
  | i :: l, s, h => foldl_rest step l (body s i) (step i l s h)

/-- An invariant that may mention the indices the loop has yet to visit. -/
theorem scan_rest {n : ℕ} {p : List (Fin n) → σ → Prop} {body : σ → Fin n → σ} {s : σ}
    (step : ∀ i l s, p (i :: l) s → p l (body s i)) (h : p (List.finRange n) s) :
    p [] (scan body s) :=
  foldl_rest step _ s h

theorem foldl_entry [DecidableEq ι] {body : σ → ι → σ} (view : σ → ι → β) (turn : ι → β → β)
    (own : ∀ s i, view (body s i) i = turn i (view s i))
    (other : ∀ s i j, j ≠ i → view (body s i) j = view s j) :
    ∀ (l : List ι) (s : σ) (j : ι), l.Nodup →
      view (l.foldl body s) j = if j ∈ l then turn j (view s j) else view s j
  | [], _, _, _ => by simp
  | i :: l, s, j, hl => by
    obtain ⟨hi, hl⟩ := List.nodup_cons.mp hl
    rw [List.foldl_cons, foldl_entry view turn own other l _ j hl]
    by_cases hji : j = i
    · subst hji
      simp [hi, own]
    · simp [hji, other s i j hji]

/-- If turn `i` rewrites entry `i` as a function of that entry alone and leaves the others, the
    loop rewrites every entry exactly once. -/
theorem scan_entry {n : ℕ} {body : σ → Fin n → σ} (view : σ → Fin n → β)
    (turn : Fin n → β → β) (own : ∀ s i, view (body s i) i = turn i (view s i))
    (other : ∀ s i j, j ≠ i → view (body s i) j = view s j) (s : σ) (j : Fin n) :
    view (scan body s) j = turn j (view s j) := by
  rw [scan, foldl_entry view turn own other _ s j (List.nodup_finRange n),
    if_pos (List.mem_finRange j)]

end Schemes
