import Mathlib.Order.Lattice
import Mathlib.Logic.Function.Basic

/-! # Immediate priority ceilings

    Tasks have a base priority, resources a ceiling above the base priority of every task that takes
    them, and a task runs at the highest of its base priority and the ceilings of what it holds. If
    only a task of highest effective priority takes resources, then of any two holders one has a base
    priority above everything the other holds: this invariant keeps resources free when they are
    taken, however tasks are interrupted and in whatever order resources are released. -/

namespace Schemes

variable {T R P : Type*} [LinearOrder P]

/-- The base priority of `t` is above the ceilings of everything `u` holds. -/
def Outranks (base : T → P) (ceiling : R → P) (holder : R → Option T) (t u : T) : Prop :=
  ∀ r, holder r = some u → ceiling r < base t

/-- A priority at which `t` may run. -/
def Effective (base : T → P) (ceiling : R → P) (holder : R → Option T) (t : T) (p : P) : Prop :=
  p = base t ∨ ∃ r, holder r = some t ∧ p = ceiling r

structure CeilingSound (base : T → P) (ceiling : R → P) (holder : R → Option T) : Prop where
  below : ∀ r t, holder r = some t → base t < ceiling r
  ordered : ∀ t u, t ≠ u →
    Outranks base ceiling holder t u ∨ Outranks base ceiling holder u t

/-- No task that is ready has a higher effective priority than `t`. -/
def Top (base : T → P) (ceiling : R → P) (holder : R → Option T) (ready : T → Prop) (t : T) : Prop :=
  ∀ u p, ready u → Effective base ceiling holder u p →
    ∃ q, Effective base ceiling holder t q ∧ p ≤ q

namespace CeilingSound

variable {base : T → P} {ceiling : R → P} {holder : R → Option T} {ready : T → Prop} {t : T} {r : R}

/-- A task of highest effective priority outranks all other holders. -/
theorem outranks (h : CeilingSound base ceiling holder) (hne : ∀ t r, base t ≠ ceiling r)
    (htop : Top base ceiling holder ready t) {u : T} (hut : u ≠ t)
    (hready : (∃ r, holder r = some u) → ready u) : Outranks base ceiling holder t u := by
  intro l hl
  rcases h.ordered t u hut.symm with ho | ho
  · exact ho l hl
  · obtain ⟨q, hq, hle⟩ := htop u (ceiling l) (hready ⟨l, hl⟩) (.inr ⟨l, hl, rfl⟩)
    rcases hq with rfl | ⟨m, hm, rfl⟩
    · exact lt_of_le_of_ne hle (hne t l).symm
    · -- everything `t` holds is below the base priority of `u`, hence below `l`
      exact absurd hle (not_le_of_gt (lt_trans (ho m hm) (h.below l u hl)))

/-- It finds a resource with a higher ceiling free, or holds it itself. -/
theorem free (h : CeilingSound base ceiling holder) (hne : ∀ t r, base t ≠ ceiling r)
    (htop : Top base ceiling holder ready t) (hready : ∀ u, (∃ r, holder r = some u) → ready u)
    (hr : base t < ceiling r) (hself : holder r ≠ some t) : holder r = none := by
  cases hu : holder r with
  | none => rfl
  | some u =>
    have hut : u ≠ t := by rintro rfl; exact hself hu
    exact absurd (h.outranks hne htop hut (hready u) r hu) (not_lt_of_gt hr)

theorem acquire [DecidableEq R] (h : CeilingSound base ceiling holder)
    (hne : ∀ t r, base t ≠ ceiling r) (htop : Top base ceiling holder ready t)
    (hready : ∀ u, (∃ r, holder r = some u) → ready u) (hr : base t < ceiling r) :
    CeilingSound base ceiling (Function.update holder r (some t)) := by
  have hheld : ∀ {u l}, u ≠ t → Function.update holder r (some t) l = some u →
      holder l = some u := by
    intro u l hut hl
    by_cases hlr : l = r
    · subst hlr
      exact absurd (Option.some.inj (by simpa using hl)).symm hut
    · simpa [hlr] using hl
  refine ⟨fun l u hl => ?_, fun u v huv => ?_⟩
  · by_cases hut : u = t
    · subst hut
      by_cases hlr : l = r
      · subst hlr; exact hr
      · exact h.below l u (by simpa [hlr] using hl)
    · exact h.below l u (hheld hut hl)
  · by_cases hut : u = t
    · subst hut
      exact .inl fun l hl => h.outranks hne htop huv.symm (hready v) l (hheld huv.symm hl)
    · by_cases hvt : v = t
      · subst hvt
        exact .inr fun l hl => h.outranks hne htop hut (hready u) l (hheld hut hl)
      · exact (h.ordered u v huv).imp (fun ho l hl => ho l (hheld hvt hl))
          fun ho l hl => ho l (hheld hut hl)

theorem release [DecidableEq R] (h : CeilingSound base ceiling holder) (r : R) :
    CeilingSound base ceiling (Function.update holder r none) := by
  have hheld : ∀ {u l}, Function.update holder r none l = some u → holder l = some u := by
    intro u l hl
    by_cases hlr : l = r
    · subst hlr; simp at hl
    · simpa [hlr] using hl
  exact ⟨fun l u hl => h.below l u (hheld hl), fun u v huv =>
    (h.ordered u v huv).imp (fun ho l hl => ho l (hheld hl)) fun ho l hl => ho l (hheld hl)⟩

end CeilingSound

end Schemes
