import Mathlib.Logic.Function.Basic

/-! # Waiter tables

    A table `waiters` records for each task the object it registered for, `inside` is the object a
    task's code is waiting for, `woken` holds of a task that will find out by itself, and `busy t o`
    is what entitles `t` to stay registered for `o`. In a sound table no registration outlives its
    reason, and no task inside a wait is forgotten. Objects are released by a loop that clears every
    registration for the object and wakes those tasks. -/

namespace Schemes

variable {T O : Type*}

structure WaitersSound (waiters inside : T → Option O) (woken : T → Prop) (busy : T → O → Prop) :
    Prop where
  busy : ∀ t o, waiters t = some o → busy t o
  registered : ∀ t o, inside t = some o → ¬ woken t → waiters t = some o

namespace WaitersSound

variable {waiters waiters' inside inside' : T → Option O} {woken woken' : T → Prop}
  {busy busy' : T → O → Prop}

/-- A step that leaves the table alone, and starts no wait, keeps it sound if registered tasks stay
    entitled. -/
theorem frame (h : WaitersSound waiters inside woken busy)
    (hinside : ∀ t o, inside' t = some o → inside t = some o ∧ (woken t → woken' t))
    (hbusy : ∀ t o, waiters t = some o → busy t o → busy' t o) :
    WaitersSound waiters inside' woken' busy' where
  busy t o ht := hbusy t o ht (h.busy t o ht)
  registered t o ht hw := by
    obtain ⟨hi, hwoken⟩ := hinside t o ht
    exact h.registered t o hi (mt hwoken hw)

/-- Waking every task registered for `o` allows `o` to be released. -/
theorem wake [DecidableEq O] (h : WaitersSound waiters inside woken busy) (o : O)
    (hwaiters : ∀ t, waiters' t = if waiters t = some o then none else waiters t)
    (hinside : ∀ t p, inside' t = some p → inside t = some p)
    (hwoken : ∀ t, woken t ∨ waiters t = some o → woken' t)
    (hbusy : ∀ t p, p ≠ o → waiters t = some p → busy t p → busy' t p) :
    WaitersSound waiters' inside' woken' busy' where
  busy t p ht := by
    rw [hwaiters] at ht
    split at ht
    · cases ht
    · rename_i hto
      exact hbusy t p (fun hp => hto (hp ▸ ht)) ht (h.busy t p ht)
  registered t p ht hw := by
    have hreg := h.registered t p (hinside t p ht) fun hw' => hw (hwoken t (.inl hw'))
    rw [hwaiters, if_neg fun hto => hw (hwoken t (.inr hto)), hreg]

/-- A task registers for a busy object before it waits for it. -/
theorem register [DecidableEq T] (h : WaitersSound waiters inside woken busy) (t : T) (o : O)
    (hwaiters : waiters' = Function.update waiters t (some o))
    (hself : ∀ p, inside' t = some p → p = o)
    (hinside : ∀ u p, u ≠ t → inside' u = some p → inside u = some p ∧ (woken u → woken' u))
    (ho : busy' t o) (hbusy : ∀ u p, u ≠ t → waiters u = some p → busy u p → busy' u p) :
    WaitersSound waiters' inside' woken' busy' where
  busy u p hu := by
    rw [hwaiters] at hu
    by_cases hut : u = t
    · subst hut
      obtain rfl : o = p := by simpa using hu
      exact ho
    · rw [Function.update_of_ne hut] at hu
      exact hbusy u p hut hu (h.busy u p hu)
  registered u p hu hw := by
    rw [hwaiters]
    by_cases hut : u = t
    · subst hut
      obtain rfl := hself p hu
      simp
    · obtain ⟨hi, hwoken⟩ := hinside u p hut hu
      rw [Function.update_of_ne hut]
      exact h.registered u p hi (mt hwoken hw)

end WaitersSound

end Schemes
