import Echronos.Kernel.Steps
import Echronos.Variants.PrioInherit

/-! # Inheritance chains

    `sched_get_next` of Kochab follows `blocked_on` from task to task and ends only if every chain
    does. A task that blocks on the holder of a mutex adds a link, and closes a cycle if the holder
    already waits for that task: the loop then never ends, no tick is processed any more, and no
    timeout ends the deadlock. Otherwise chains stay finite. -/

namespace Echronos

open Schemes

variable {c : Config}

namespace State

open Echronos.Core

/-- The step leaves its task blocked on another that waited for it, directly or through others. -/
def ClosesCycle (a : Act c) (s : State c (kochabSched c.tasks c.mutexes)) : Prop :=
  ∃ s' u, step a s = some s' ∧ s'.core.link s.currentTask = some u ∧ u ≠ s.currentTask ∧
    Leads s.core.link s.currentTask u

theorem step_ends {a : Act c} {s s' : State c (kochabSched c.tasks c.mutexes)}
    (hstep : step a s = some s') (ha : ¬ ClosesCycle a s) (hs : ∀ t, Ends s.core.link t)
    (t : c.TaskId) : Ends s'.core.link t := by
  rcases step_moves hstep with hm | hsw
  · refine Ends.relink hs (fun u hu => ?_)
      (fun u hu hne hl => ha ⟨s', u, hstep, hu, hne, hl⟩) t
    exact (hm.other hu).link.imp_left And.left
  · rw [hsw.link]
    exact hs t

theorem ReachedBy.ends {s : State c (kochabSched c.tasks c.mutexes)}
    (h : s.ReachedBy fun a s => ¬ ClosesCycle a s) (t : c.TaskId) : Ends s.core.link t := by
  obtain ⟨memory, h⟩ := h
  exact h.invariant (I := fun s => ∀ t, Ends s.core.link t) (fun t => .root rfl)
    (fun s a s' _ hs ha hstep => step_ends hstep ha hs) t

end State

open State

/-- While no task blocks on one that waits for it, `sched_get_next` ends, and the turn of
    `interrupt_event_get_next` that called it goes on. -/
theorem schedGetNext_terminates (s : State c (kochabSched c.tasks c.mutexes))
    (h : s.ReachedBy fun a s => ¬ ClosesCycle a s) :
    ∃ fuel, (PrioInherit.schedGetNext fuel s.core.sched).isSome ∧
      (s.core.halted = none → s.core.phase = .select →
        (step (.kernel (.schedGetNext fuel false)) s).isSome) := by
  have hends : ∀ t, Ends (s.core.sched : PrioInherit.State c.tasks) t := h.ends
  obtain ⟨fuel, hfuel⟩ := PrioInherit.searchFrom_isSome hends (List.finRange c.tasks)
  obtain ⟨r, hr⟩ := Option.isSome_iff_exists.mp (hfuel fuel le_rfl)
  refine ⟨fuel, by simp [PrioInherit.schedGetNext, hr], fun hhalt hphase => ?_⟩
  have hnext : (kochabSched c.tasks c.mutexes).schedGetNext fuel s.core.sched =
      some (r.map Fin.val, s.core.sched) := by
    simp [kochabSched, PrioInherit.schedGetNext, hr]
  cases r with
  | none => simp [step, hhalt, Core.act, hphase, Core.schedGetNext, hnext]
  | some task => simp [step, hhalt, Core.act, hphase, Core.schedGetNext, hnext]

/-- A task may block on one that waits for an event. -/
def blocksOnLast (a : Act c) (s : State c (kochabSched c.tasks c.mutexes)) : Bool :=
  (step a s).all fun s' => decide (∀ u, s'.core.link s.currentTask = some u →
    u = s.currentTask ∨ s.core.link u = none)

theorem not_closesCycle {a : Act c} {s : State c (kochabSched c.tasks c.mutexes)}
    (h : blocksOnLast a s = true) : ¬ ClosesCycle a s := by
  rintro ⟨s', u, hstep, hu, hne, hl⟩
  have hlast := of_decide_eq_true (p := ∀ u, s'.core.link s.currentTask = some u →
    u = s.currentTask ∨ s.core.link u = none) (by simpa [blocksOnLast, hstep] using h) u hu
  cases hl with
  | here => exact hne rfl
  | next hnext _ => simp [hlast.resolve_left hne] at hnext

/-- A task waits for a mutex that a sleeping task holds. -/
theorem schedGetNext_terminates_contended :
    ∃ s : State (.plain 2 1 0 0 true false Nat.two_pos) (kochabSched 2 1),
      s.core.link 1 = some 0 ∧
      ∃ fuel, (PrioInherit.schedGetNext fuel (s.core.sched : PrioInherit.State 2)).isSome := by
  obtain ⟨s, hs, hp⟩ := exists_reachedBy_of_run
    (c := .plain 2 1 0 0 true false Nat.two_pos) (S := kochabSched 2 1)
    (fun a s => ¬ ClosesCycle a s) blocksOnLast
    (.call (.mutex (.lock 0)) :: .call (.core (.sleep 5)) :: reschedule ++
      [.call (.mutex (.lock 0))])
    (fun s => s.core.link 1 = some 0) (fun _ _ _ => not_closesCycle) (by decide +kernel)
  obtain ⟨fuel, hfuel, -⟩ := schedGetNext_terminates s hs
  exact ⟨s, of_decide_eq_true hp, fuel, hfuel⟩

/-- Two tasks that each hold a mutex and lock the other's, one of them with a timeout. -/
def crossedLocks : List (Act (.plain 2 2 0 0 true false Nat.two_pos)) :=
  [Act.call (.mutex (.lock 0)), .call (.core (.sleep 1))] ++ reschedule ++
    [Act.call (.mutex (.lock 1)), .kernel .timerTick, .kernel .preempt] ++ reschedule ++
    [Act.resume, .call (.mutex (.lock 1))] ++ reschedule ++
    [Act.call (.mutex (.lockTimeout 0 5)), .resume]

/-- After `crossedLocks` the scheduler runs forever. -/
theorem schedGetNext_diverges :
    ¬ ∀ s : State (.plain 2 2 0 0 true false Nat.two_pos) (kochabSched 2 2), s.Reached →
      ∃ fuel, (PrioInherit.schedGetNext fuel (s.core.sched : PrioInherit.State 2)).isSome := by
  intro hends
  obtain ⟨s, hs, hp⟩ := exists_reached_of_run
    (c := .plain 2 2 0 0 true false Nat.two_pos) (S := kochabSched 2 2) crossedLocks
    (fun s => s.core.link 0 = some 1 ∧ s.core.link 1 = some 0) (by decide +kernel)
  obtain ⟨h0, h1⟩ := of_decide_eq_true hp
  obtain ⟨fuel, hfuel⟩ := hends s hs
  have hnone : PrioInherit.schedGetNext fuel (s.core.sched : PrioInherit.State 2) = none :=
    PrioInherit.schedGetNext_of_cycle (n := 0) h0 h1 fuel
  simp [hnone] at hfuel

end Echronos
