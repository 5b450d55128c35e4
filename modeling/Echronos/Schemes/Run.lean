import Mathlib.Logic.Basic
import Mathlib.Data.Option.Basic
import Mathlib.Data.List.Basic

/-! # Runs of a partial step function

    A system is a partial step function `step : α → σ → Option σ`: `α` labels the choice the
    environment makes (which task acts, which interrupt fires), `none` says the choice is not
    possible in that state. `run` executes a list of choices, `Reach` collects the states reached
    through choices that all meet a side condition `ok`, and the lemmas below are the induction
    principles every property of the development goes through. -/

namespace Schemes

variable {σ α : Type*}

/-- Execute a list of choices from left to right, as long as each passes a check. -/
def run (step : α → σ → Option σ) (check : α → σ → Bool) : List α → σ → Option σ
  | [], s => some s
  | a :: as, s => if check a s then (step a s).bind (run step check as) else none

/-- The states reached from `s₀` by steps that all meet `ok`. -/
inductive Reach (step : α → σ → Option σ) (ok : α → σ → Prop) (s₀ : σ) : σ → Prop
  | start : Reach step ok s₀ s₀
  | next {s s' : σ} (a : α) : Reach step ok s₀ s → ok a s → step a s = some s' →
      Reach step ok s₀ s'

variable {step : α → σ → Option σ} {ok : α → σ → Prop} {s₀ s s' : σ}

/-- An invariant that holds at the start and is preserved by every admitted step holds in every
    state reached; the step may use that its source is itself reached. -/
theorem Reach.invariant {I : σ → Prop} (h : Reach step ok s₀ s) (start : I s₀)
    (next : ∀ s a s', Reach step ok s₀ s → I s → ok a s → step a s = some s' → I s') : I s := by
  induction h with
  | start => exact start
  | next a hs ha hstep ih => exact next _ a _ hs ih ha hstep

/-- A list of choices that can be executed leads to a state reached by them. -/
theorem Reach.of_run {check : α → σ → Bool} : ∀ {as : List α} {s : σ}, Reach step ok s₀ s →
    (∀ a ∈ as, ∀ s, check a s = true → ok a s) → run step check as s = some s' →
    Reach step ok s₀ s'
  | [], s, h, _, hrun => by
    obtain rfl : s = s' := by simpa [run] using hrun
    exact h
  | a :: as, s, h, has, hrun => by
    obtain ⟨hcheck, hrun⟩ := Option.ite_none_right_eq_some.mp hrun
    obtain ⟨t, ht, hrest⟩ := Option.bind_eq_some_iff.mp hrun
    exact (Reach.next a h (has a List.mem_cons_self s hcheck) ht).of_run
      (fun b hb => has b (List.mem_cons_of_mem a hb)) hrest

/-- An invariant of what the choices have put out. -/
theorem run_invariant {β : Type*} {out : α → List β} {I : List β → σ → Prop} {check : α → σ → Bool}
    (next : ∀ l s a s', I l s → check a s = true → step a s = some s' → I (l ++ out a) s') :
    ∀ {as : List α} {l : List β} {s : σ}, I l s → run step check as s = some s' → I (l ++ as.flatMap out) s'
  | [], l, s, h, hrun => by
    obtain rfl : s = s' := by simpa [run] using hrun
    rwa [List.flatMap_nil, List.append_nil]
  | a :: as, l, s, h, hrun => by
    obtain ⟨hcheck, hrun⟩ := Option.ite_none_right_eq_some.mp hrun
    obtain ⟨t, ht, hrest⟩ := Option.bind_eq_some_iff.mp hrun
    rw [List.flatMap_cons, ← List.append_assoc]
    exact run_invariant next (next l s a t h hcheck ht) hrest

/-- A run that ends where `p` holds shows that such a state is reached. -/
theorem exists_reach_of_run {check : α → σ → Bool} {as : List α} {p : σ → Bool}
    (has : ∀ a ∈ as, ∀ s, check a s = true → ok a s) (h : (run step check as s₀).any p = true) :
    ∃ s, Reach step ok s₀ s ∧ p s = true := by
  cases hrun : run step check as s₀ with
  | none => simp [hrun] at h
  | some s => exact ⟨s, .of_run .start has hrun, by simpa [hrun] using h⟩

end Schemes
