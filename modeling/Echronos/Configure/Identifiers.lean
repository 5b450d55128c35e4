import Echronos.Configure.Kochab
import Echronos.Schemes.Counter
import Echronos.Schemes.Sentinel
import Echronos.Variants.PrioInherit

/-! # Kochab's identifiers and the loops over them

    The identifiers of the generated code are unsigned integers of a fixed width, with the greatest
    one as sentinel. The loops that the scheduler and the kernel run over identifiers are written
    here with such integers, as the templates render them for a configuration; a table has as many
    entries as there are configured objects, and an access beyond it is an exit of its own. -/

namespace Echronos.Configure.Kochab

open Echronos Schemes

variable {n w : ℕ}

namespace Config

/-- `TASK_ID_<name>` -/
def taskId (config : Config) (t : Task XmlTask) : BitVec config.taskidSize := BitVec.ofNat _ t.idx

/-- `TIMER_ID_<name>` -/
def timerId (t : TimerEntry) : BitVec 8 := BitVec.ofNat 8 t.idx

/-- `MUTEX_ID_<name>` and `SEM_ID_<name>`, by position. -/
def objectId (idx : ℕ) : BitVec 8 := BitVec.ofNat 8 idx

/-- `TIMER_ID_MAX`, which is `(TimerId) n - 1U` where `UINT8_C` adds no suffix: the cast is of `n` alone,
    and the subtraction one of unsigned integers. -/
def timerIdMax (config : Config) : BitVec 32 :=
  (BitVec.ofNat 8 config.timers.length).setWidth 32 - 1

/-- `sched_max_index()` -/
def schedMaxIndex (config : Config) : BitVec config.taskidSize :=
  BitVec.ofNat _ config.tasks.length - 1

/-- The condition `timer_id <= TIMER_ID_MAX` of the loop in `timer_tick_process`. -/
def timerLoop (config : Config) (timerId : BitVec 8) : Bool :=
  decide (timerId.setWidth 32 ≤ config.timerIdMax)

/-- The condition `idx <= sched_max_index()` of the loop in `sched_get_next`. -/
def schedLoop (config : Config) (idx : BitVec config.taskidSize) : Bool :=
  decide (idx ≤ config.schedMaxIndex)

/-- The condition `t < TASK_ID_END` of the loops in `mutex_unlock` and `sem_post`, where
    `TASK_ID_END` is an `int`. -/
def waiterLoop (config : Config) (t : BitVec config.taskidSize) : Bool :=
  decide (t.toNat < config.tasks.length)

/-- Each identifier fits its type and is none of the sentinels. -/
structure IdsFit (config : Config) : Prop where
  task : ∀ t ∈ config.tasks, (config.taskId t).toNat = t.idx ∧ config.taskId t ≠ idNone _
  timer : ∀ t ∈ config.timers, (timerId t).toNat = t.idx
  mutex : ∀ idx < config.mutexes.length, (objectId idx).toNat = idx ∧ objectId idx ≠ idNone 8
  sem : ∀ idx < config.semaphores.length, (objectId idx).toNat = idx ∧ objectId idx ≠ idNone 8

/-- The loops over identifiers end and visit each configured object once. The timer loop is only
    generated if there are timers, and `mutex_unlock` only if there are mutexes. -/
structure LoopsVisitEach (config : Config) : Prop where
  timerTickProcess : config.timers ≠ [] → VisitsEach config.timers.length config.timerLoop
  schedGetNext : VisitsEach config.tasks.length config.schedLoop
  mutexUnlock : config.mutexes ≠ [] → VisitsEach config.tasks.length config.waiterLoop
  semPost : VisitsEach config.tasks.length config.waiterLoop

end Config

/-! ### `sched_get_next` on the generated table -/

/-- How `sched_get_next` leaves its loops. -/
inductive Exit (w : ℕ)
  | found (task : BitVec w)
  | outOfBounds
  deriving DecidableEq

/-- `SCHED_OBJ(task).blocked_on` -/
def blockedOn (s : PrioInherit.State n) (task : BitVec w) : Option (BitVec w) :=
  if h : task.toNat < n then some (idOption w (s ⟨task.toNat, h⟩)) else none

/-- The `do`-`while` loop. -/
def followChain (s : PrioInherit.State n) :
    ℕ → BitVec w → Option (Except (Exit w) (BitVec w))
  | 0, _ => none
  | fuel + 1, task =>
    match blockedOn s task with
    | none => some (.error .outOfBounds)
    | some nextTask =>
      if nextTask = task then some (.error (.found task))
      else if nextTask = idNone w then some (.ok nextTask)
      else followChain s fuel nextTask

/-- `sched_get_next`, where `task` is what the local variable happens to hold at first. -/
def schedGetNext (config : Config) (s : PrioInherit.State config.tasks.length) (fuel : ℕ)
    (task : BitVec config.taskidSize) :
    Option (Except (Exit config.taskidSize) (BitVec config.taskidSize)) :=
  countFrom config.schedLoop (fun idx _ => followChain s fuel idx) fuel 0 task

end Echronos.Configure.Kochab
