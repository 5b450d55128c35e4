import Echronos.Kernel.Expiries
import Echronos.Variants.PrioInherit

/-! # What an expiry addresses

    A timer that expires either calls `fatal_error` or sends its signals to a task. `timers/timer/task`
    is optional: for a timer without task and without error, `timer_process_one` goes to
    `signal_send_set` with `TASK_ID_NONE` instead of to `fatal_error`. -/

namespace Echronos

open Schemes

variable {c : Config} {S : Sched c.tasks c.mutexes}

/-- The expiry calls `fatal_error`, or reads and sends the signals of a task. -/
def Expiry.Addressed (e : Expiry c S) : Prop :=
  (∃ errorId, (Core.timerProcessOne e.timer e.core).halted = some (.fatalError errorId)) ∨
    ∃ (t : c.TaskId) (set : c.SignalSet),
      (Core.timerProcessOne e.timer e.core).history = .sent t set :: e.core.history

/-- The timer has an error, or a task. -/
def Timer.HasTarget {tasks signalsetSize : ℕ} (tm : Timer tasks signalsetSize) : Prop :=
  tm.errorId ≠ 0 ∨ tm.taskId ≠ none

namespace Core

theorem timerProcessOne_of_error {i : c.TimerId} {k : Core c S} (h : (k.timers i).errorId ≠ 0) :
    (timerProcessOne i k).halted = some (.fatalError (k.timers i).errorId) := by
  have herror := (rearm_action (k.timers i)).1
  unfold timerProcessOne
  dsimp only
  rw [herror, if_pos h]
  rfl

theorem timerProcessOne_of_task {i : c.TimerId} {k : Core c S} {t : c.TaskId}
    (herror : (k.timers i).errorId = 0) (ht : (k.timers i).taskId = some t) :
    (timerProcessOne i k).history = .sent t (k.timers i).signalSet :: k.history := by
  obtain ⟨herror', htask, hset, -⟩ := rearm_action (k.timers i)
  unfold timerProcessOne
  simp only [herror', htask, hset, herror, ht, ne_eq, not_true, if_false]
  rfl

/-- Without error and task, the signals of no task are accessed. -/
theorem timerProcessOne_of_none {i : c.TimerId} {k : Core c S} (herror : (k.timers i).errorId = 0)
    (htask : (k.timers i).taskId = none) :
    (timerProcessOne i k).halted = some .undefined ∧ (timerProcessOne i k).history = k.history := by
  obtain ⟨herror', htask', -, -⟩ := rearm_action (k.timers i)
  unfold timerProcessOne
  simp only [herror', htask', herror, htask, ne_eq, not_true, if_false]
  exact ⟨rfl, rfl⟩

end Core

open Echronos.Core

theorem Expiry.addressed_iff (e : Expiry c S) :
    e.Addressed ↔ (e.core.timers e.timer).HasTarget := by
  constructor
  · intro h
    by_contra hnone
    obtain ⟨herror, htask⟩ := not_or.mp hnone
    obtain ⟨hhalted, hhistory⟩ := timerProcessOne_of_none (not_not.mp herror) (not_not.mp htask)
    obtain ⟨errorId, h⟩ | ⟨t, set, h⟩ := h
    · cases hhalted.symm.trans h
    · exact List.cons_ne_self _ _ (h.symm.trans hhistory)
  · intro h
    by_cases herror : (e.core.timers e.timer).errorId = 0
    · obtain ⟨t, ht⟩ := Option.ne_none_iff_exists'.mp (h.resolve_left (not_not.mpr herror))
      exact .inr ⟨t, _, timerProcessOne_of_task herror ht⟩
    · exact .inl ⟨_, timerProcessOne_of_error herror⟩

namespace State

variable {s s' : State c S}

/-- No function of the RTOS takes a timer's task away. -/
theorem step_taskId {i : c.TimerId} {a : Act c} (hstep : step a s = some s')
    (hs : (s.core.timers i).taskId ≠ none) : (s'.core.timers i).taskId ≠ none ∧
      ∀ e ∈ expiries a s, (e.core.timers i).taskId ≠ none := by
  refine step_timer_invariant (P := fun tm => tm.taskId ≠ none) (fun now tm tm' hset htm => ?_)
    (fun tm overflow htm => htm) (fun tm htm => ?_) hstep hs
  · cases hset with
    | signal => exact Option.some_ne_none _
    | disable | enable | reload | error => exact htm
  · rw [(rearm_action tm).2.1]
    exact htm

theorem Reached.taskId {i : c.TimerId} (h : Reached s) (hc : (c.timersInit i).taskId ≠ none) :
    (s.core.timers i).taskId ≠ none := by
  obtain ⟨memory, hreach⟩ := h
  exact hreach.invariant (I := fun s => (s.core.timers i).taskId ≠ none) hc
    fun s a s' _ hs _ hstep => (step_taskId hstep hs).1

end State

open State

/-- An expiry calls `fatal_error` or addresses a task if and only if its timer has an error or a task
    then. That is so for every expiry of every run if and only if every timer is configured with a
    task. -/
theorem expiry_addressed_iff : (∀ e : Expiry c S, e.Addressed ↔ (e.core.timers e.timer).HasTarget) ∧
    ((∀ (s s' : State c S) (a : Act c), Reached s → step a s = some s' →
        ∀ e ∈ expiries a s, e.Addressed) ↔
      ∀ i, (c.timersInit i).taskId ≠ none) := by
  refine ⟨Expiry.addressed_iff, fun h i htask => ?_, fun hc s s' a hs hstep e he => ?_⟩
  · -- the error of the timer is cleared, and then it is set to expire at once
    let s₁ : State c S := (start fun _ => 0).onCore fun k =>
      setTimer i { k.timers i with errorId := 0 } k
    have hs₁ : Reached s₁ :=
      Reached.next ⟨fun _ => 0, .start⟩ (.call (.core (.timerErrorSet i 0))) rfl
    have hmem : ⟨i, timerReloadSet i 0 s₁.core⟩ ∈ oneshotExpiries i 0 s₁.core := by
      rw [oneshotExpiries_zero]
      exact List.mem_singleton.mpr rfl
    have haddressed := h s₁ _ (.call (.core (.timerOneshot i 0))) hs₁ rfl _ hmem
    obtain herror | hnone := (Expiry.addressed_iff _).mp haddressed
    · exact herror (by simp [s₁, onCore, timerReloadSet, setTimer])
    · refine hnone ?_
      simp only [s₁, onCore, timerReloadSet, setTimer, Function.update_self]
      exact htask
  · exact e.addressed_iff.mpr (.inr ((step_taskId hstep (hs.taskId (hc e.timer))).2 e he))

/-- A timer without task, error and period is enabled: it accesses the signals of a task that does not
    exist. -/
theorem not_expiry_addressed_noTask :
    ¬ ∀ (s s' : State (.withTimer (.generated false 0 0 none 0)) (kochabSched 1 0)) (a : Act _),
      Reached s → step a s = some s' → ∀ e ∈ expiries a s, e.Addressed := by
  intro h
  have haddressed := h (start fun _ => 0) _ (.call (.core (.timerEnable 0))) ⟨_, .start⟩ rfl
    ⟨0, Core.start⟩ (List.mem_singleton.mpr rfl)
  obtain herror | hnone := (Expiry.addressed_iff _).mp haddressed
  · exact herror rfl
  · exact hnone rfl

end Echronos
