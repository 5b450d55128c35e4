import Echronos.Schemes.Run

/-! # Reaching a goal within a number of turns

    Some of the choices of a run count as turns. `within k s` says that from `s` the goal is at most
    `k` turns away: no step moves it further away, and a turn brings it closer. -/

namespace Schemes

variable {σ α : Type*} {step : α → σ → Option σ} {check : α → σ → Bool} {goal : σ → Prop}
  {turn : α → Bool}

/-- A run with enough turns passes through the goal. -/
theorem exists_goal_of_run (within : ℕ → σ → Prop) (zero : ∀ s, ¬ within 0 s)
    (stay : ∀ k s a s', within k s → ¬ goal s → turn a = false → step a s = some s' →
      goal s' ∨ within k s')
    (closer : ∀ k s a s', within (k + 1) s → ¬ goal s → turn a = true → step a s = some s' →
      goal s' ∨ within k s') :
    ∀ {as : List α} {k : ℕ} {s s' : σ}, within k s → run step check as s = some s' →
      k ≤ as.countP turn →
      ∃ as₁ as₂ u, as = as₁ ++ as₂ ∧ run step check as₁ s = some u ∧ goal u
  | as, k, s, s', hw, hrun, hk => by
    by_cases hg : goal s
    · exact ⟨[], as, s, rfl, rfl, hg⟩
    cases as with
    | nil =>
      obtain rfl : k = 0 := by simpa using hk
      exact absurd hw (zero s)
    | cons a as =>
      obtain ⟨hcheck, hrest⟩ := Option.ite_none_right_eq_some.mp hrun
      obtain ⟨t, ht, hrest⟩ := Option.bind_eq_some_iff.mp hrest
      -- the rest of the run, from the state after this step
      have later {k' : ℕ} (hw' : goal t ∨ within k' t) (hk' : k' ≤ as.countP turn) :
          ∃ as₁ as₂ u, a :: as = as₁ ++ as₂ ∧ run step check as₁ s = some u ∧ goal u := by
        have prefixed {as₁ as₂ : List α} {u : σ} (has : as = as₁ ++ as₂)
            (hu : run step check as₁ t = some u) (hgu : goal u) :
            ∃ as₁ as₂ u, a :: as = as₁ ++ as₂ ∧ run step check as₁ s = some u ∧ goal u :=
          ⟨a :: as₁, as₂, u, by rw [has, List.cons_append], by simp [run, hcheck, ht, hu], hgu⟩
        rcases hw' with hgt | hw'
        · exact prefixed (List.nil_append as).symm rfl hgt
        · obtain ⟨as₁, as₂, u, has, hu, hgu⟩ := exists_goal_of_run within zero stay closer hw' hrest hk'
          exact prefixed has hu hgu
      cases hturn : turn a with
      | false =>
        rw [List.countP_cons_of_neg (by simp [hturn])] at hk
        exact later (stay k s a t hw hg hturn ht) hk
      | true =>
        rw [List.countP_cons_of_pos hturn] at hk
        cases k with
        | zero => exact absurd hw (zero s)
        | succ k => exact later (closer k s a t hw hg hturn ht) (by omega)

end Schemes
