import Echronos.Variants.Preemptive

/-! # What tasks do to the scheduler, and how they are switched

    The code of the RTOS that a task executes between `preempt_disable()` and `preempt_enable()`
    changes the scheduler's state through `unblock`, `block`, `mutex_try_lock` and `mutex_unlock`
    only. Which of them a task executes, how often and for which tasks and mutexes is left open.

    A list of `Switch` is not a variable of the RTOS: it records when and how tasks were switched
    out and in, the last time first. -/

namespace Echronos

variable {tasks mutexes : ℕ}

/-- The scheduler, the current task and the holders of the mutexes. -/
structure Tasks (S : Sched tasks mutexes) where
  io : Io S
  currentTask : Fin tasks
  /-- `mutexes[m].holder` -/
  holder : Fin mutexes → Option (Fin tasks)

/-- A piece of a function of the RTOS that does not switch tasks. -/
inductive Op (tasks mutexes : ℕ)
  | unblock (t : Fin tasks)
  | mutexTryLock (m : Fin mutexes)
  | mutexUnlock (m : Fin mutexes) (woken : List (Fin tasks))

inductive Switch (tasks : ℕ)
  /-- An interrupt switched `t` out. -/
  | preempted (t : Fin tasks)
  /-- `t` gave up the processor, to return with preemption disabled or not. -/
  | yielded (t : Fin tasks) (preemptDisabled : Bool)
  | restored (t : Fin tasks) (preemptDisabled : Bool)

/-- Whether `t` must resume with preemption disabled. A task that has not run yet must. -/
def Switch.owed (t : Fin tasks) : List (Switch tasks) → Bool
  | [] => true
  | .preempted u :: rest => if u = t then false else owed t rest
  | .yielded u preemptDisabled :: rest => if u = t then preemptDisabled else owed t rest
  | .restored _ _ :: rest => owed t rest

/-- Every task was restored with the preemption status it had to have. -/
def Switch.Resumed : List (Switch tasks) → Prop
  | [] => True
  | .restored t preemptDisabled :: rest => preemptDisabled = owed t rest ∧ Resumed rest
  | .preempted _ :: rest | .yielded _ _ :: rest => Resumed rest

variable {pos : 0 < tasks} {v : Preemptive tasks mutexes}

namespace Tasks

/-- The state `start()` leaves when it switches to the first task, with interrupts disabled or
    not. -/
def start (v : Preemptive tasks mutexes) (pos : 0 < tasks) (interruptsEnabled : Bool) :
    Tasks (v.sched pos) :=
  ⟨⟨⟨interruptsEnabled, 0, 0, false⟩, (v.sched pos).start⟩, ⟨0, pos⟩, fun _ => none⟩

/-- `mutex_try_lock`; only Phact tells its scheduler. -/
def mutexTryLock (m : Fin mutexes) (s : Tasks (v.sched pos)) : Tasks (v.sched pos) :=
  if s.holder m = none then
    { s with
      holder := Function.update s.holder m (some s.currentTask)
      io := { s.io with sched := (v.sched pos).schedSetMutexLockedBy m s.currentTask s.io.sched } }
  else s

/-- `mutex_core_unlocked` -/
def mutexCoreUnlocked (m : Fin mutexes) (s : Tasks (v.sched pos)) : Tasks (v.sched pos) :=
  { s with io := ⟨s.io.irq.preemptPend, (v.sched pos).schedSetMutexUnlocked m s.io.sched⟩ }

/-- The body of `mutex_unlock`, which wakes the tasks registered as waiting for the mutex. -/
def mutexUnlock (m : Fin mutexes) (woken : List (Fin tasks)) (s : Tasks (v.sched pos)) :
    Tasks (v.sched pos) :=
  let s := if v.prioCeiling then mutexCoreUnlocked m s else s
  { s with
    io := s.io.wake true woken
    holder := Function.update s.holder m none }

def op : Op tasks mutexes → Tasks (v.sched pos) → Tasks (v.sched pos)
  | .unblock t, s => { s with io := s.io.unblock true t }
  | .mutexTryLock m, s => mutexTryLock m s
  | .mutexUnlock m woken, s => mutexUnlock m woken s

/-- `block_on`, and `block` for a scheduler without inheritance, up to its `yield()`. -/
def blockOn (blocker : Option (Fin tasks)) (s : Tasks (v.sched pos)) : Tasks (v.sched pos) :=
  { s with io := { s.io with sched := (v.sched pos).schedSetBlockedOn s.currentTask blocker s.io.sched } }

def Agrees (s : Tasks (v.sched pos)) : Prop := v.Agrees s.holder s.io.sched

theorem agrees_wake {holder : Fin mutexes → Option (Fin tasks)} {k : Io (v.sched pos)}
    (h : v.Agrees holder k.sched) (preemption : Bool) (woken : List (Fin tasks)) :
    v.Agrees holder (k.wake preemption woken).sched := by
  induction woken generalizing k with
  | nil => exact h
  | cons t ts ih => exact ih (k := k.unblock preemption t) (h.setRunnable t)

theorem current_wake {π : Port} {k : Io (v.sched pos)} {t : Fin tasks} (h : Io.Current π k t)
    (woken : List (Fin tasks)) : Io.Current π (k.wake true woken) t := by
  cases woken with
  | nil => exact h
  | cons u us =>
    have hpend : ((k.unblock true u).wake true us).irq.preemptPending = true := by
      rcases Io.irq_wake true us (k.unblock true u) with hirq | hirq
      · rw [hirq]
        rfl
      · rw [hirq]
        rfl
    exact .inl hpend

theorem agrees_getNextStep {π : Port} {holder : Fin mutexes → Option (Fin tasks)}
    {k : Io (v.sched pos)} (h : v.Agrees holder k.sched) {woken : List (Fin tasks)} {fuel : ℕ}
    {turn : Turn π} {r : (Turn π ⊕ Fin tasks) × Io (v.sched pos)}
    (hstep : Io.getNextStep woken fuel turn k = some r) : v.Agrees holder r.2.sched := by
  cases turn with
  | process p =>
    cases hstep
    dsimp only
    split_ifs
    · exact agrees_wake (k := ⟨(π.interruptEventProcess p k.irq).2, k.sched⟩) h π.preemption woken
    · exact h
  | tickProcess pendingTicks =>
    obtain ⟨-, ⟨⟩⟩ := Option.ite_none_left_eq_some.mp hstep
    dsimp only
    split_ifs
    · exact h
    · exact agrees_wake h π.preemption woken
  | select =>
    simp only [Io.getNextStep] at hstep
    split at hstep
    · cases hstep
    · rename_i sched hnext
      cases hstep
      obtain rfl : sched = k.sched := Preemptive.state_schedGetNext _ _ _ hnext
      exact h
    · rename_i next sched hnext
      split_ifs at hstep
      cases hstep
      obtain rfl : sched = k.sched := Preemptive.state_schedGetNext _ _ _ hnext
      exact h
  | tick | tickTake | tickEnable pendingTicks | wait | waitCheck | waitInstruction | waitEnable =>
    cases hstep
    exact h

theorem Agrees.op {s : Tasks (v.sched pos)} (h : s.Agrees) (o : Op tasks mutexes) :
    (s.op o).Agrees := by
  cases o with
  | unblock t => exact Preemptive.Agrees.setRunnable h t
  | mutexTryLock m =>
    rw [Tasks.op, mutexTryLock]
    split_ifs
    · exact Preemptive.Agrees.setMutexLockedBy h m s.currentTask
    · exact h
  | mutexUnlock m woken =>
    cases v with
    | kochab => trivial
    | phact tables => exact agrees_wake (Preemptive.Agrees.setMutexUnlocked h m) true woken

theorem Agrees.blockOn {s : Tasks (v.sched pos)} (h : s.Agrees) (blocker : Option (Fin tasks)) :
    (s.blockOn blocker).Agrees :=
  Preemptive.Agrees.setBlockedOn h s.currentTask blocker

theorem currentTask_op {s : Tasks (v.sched pos)} (o : Op tasks mutexes) :
    (s.op o).currentTask = s.currentTask := by
  cases o with
  | unblock t => rfl
  | mutexTryLock m =>
    rw [Tasks.op, mutexTryLock]
    split_ifs <;> rfl
  | mutexUnlock m woken =>
    rw [Tasks.op, mutexUnlock]
    split_ifs <;> rfl

/-- Unless a preemption is pending, the current task is still the one to run after a piece of a
    function that changed the scheduler's state. -/
theorem current_op {π : Port} {s : Tasks (v.sched pos)} (h : Io.Current π s.io s.currentTask)
    (hs : s.Agrees) (o : Op tasks mutexes) : Io.Current π (s.op o).io (s.op o).currentTask := by
  cases o with
  | unblock t => exact .inl rfl
  | mutexTryLock m =>
    rw [Tasks.op, mutexTryLock]
    split_ifs with hm
    · exact h.imp id fun ⟨hquiet, ht⟩ => ⟨hquiet, Preemptive.Agrees.selects_lockedBy hs hm ht⟩
    · exact h
  | mutexUnlock m woken =>
    cases v with
    | kochab => exact current_wake (v := .kochab) h woken
    | phact tables =>
      have hpend : Io.Current π (s.mutexCoreUnlocked m).io s.currentTask := .inl rfl
      exact current_wake (v := .phact tables) hpend woken

end Tasks

end Echronos
