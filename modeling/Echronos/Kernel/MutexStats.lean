import Echronos.Kernel.Ticks

/-! # Mutex statistics

    What `mutex.stats` adds to component `blocking-mutex`. `mutex_lock` reads the clock before its
    `preempt_disable()`, and `mutex_stats_update()` runs after its `preempt_enable()`: wherever it
    accesses `mutex_lock_max_wait_time`, other tasks may have run since the access before. The system
    takes its other steps meanwhile, but for calls of `mutex_lock_timeout`.

    `start`, `waited` and `waits` are not variables of the RTOS: they record processed ticks as
    integers. -/

namespace Echronos

open Schemes

/-- `struct mutex_stat` -/
structure MutexStat where
  mutexLockCounter : BitVec 32
  mutexLockContendedCounter : BitVec 32
  mutexLockMaxWaitTime : BitVec 16
  deriving DecidableEq

/-- Where a task is in code that the statistics add or that they measure, with its local variables.
    `start` is the number of ticks processed when `wait_start_ticks` was read, and `waited` the number
    of those processed from then on until `wait_time` was computed. -/
inductive StatsPoint (c : Config)
  /-- `mutex_lock` before its `preempt_disable()` -/
  | entered (m : c.MutexId) (waitStartTicks : BitVec 32) (start : ℕ)
  /-- The loop of `mutex_lock`, once it has set `contended` -/
  | contended (m : c.MutexId) (waitStartTicks : BitVec 32) (start : ℕ)
  /-- `mutex_stats_update(m, contended, wait_start_ticks)` -/
  | update (m : c.MutexId) (contended : Bool) (waitStartTicks : BitVec 32) (start : ℕ)
  /-- `if (wait_time > mutex_stats[m].mutex_lock_max_wait_time)` -/
  | compare (m : c.MutexId) (waitTime : BitVec 16) (waited : ℕ)
  /-- `mutex_stats[m].mutex_lock_max_wait_time = wait_time` -/
  | store (m : c.MutexId) (waitTime : BitVec 16) (waited : ℕ)
  /-- The loop of `mutex_stats_clear` -/
  | clear (mutexIndex : ℕ)
  deriving DecidableEq

structure StatsMachine (c : Config) (S : Sched c.tasks c.mutexes) where
  system : State c S
  mutexStatsEnabled : Bool
  mutexStats : c.MutexId → MutexStat
  /-- Where each task is in that code. -/
  point : c.TaskId → Option (StatsPoint c)
  /-- The ticks that contended calls of `mutex_lock` waited, those recorded since the statistics of the
      mutex were cleared. -/
  waits : c.MutexId → List ℕ

namespace StatsMachine

variable {c : Config} {S : Sched c.tasks c.mutexes}

inductive Act (c : Config)
  | mutexLock (m : c.MutexId)
  | mutexStatsClear
  /-- Application code writes `mutex_stats_enabled`. -/
  | enable (enabled : Bool)
  | next
  | system (a : Echronos.Act c)

def start (memory : Memory) : StatsMachine c S :=
  ⟨State.start memory, false, fun _ => ⟨0, 0, 0⟩, fun _ => none, fun _ => []⟩

/-- The current task moves to another place in its code. -/
def goto (p : Option (StatsPoint c)) (s : StatsMachine c S) : StatsMachine c S :=
  { s with point := Function.update s.point s.system.currentTask p }

def setStat (m : c.MutexId) (stat : MutexStat) (s : StatsMachine c S) : StatsMachine c S :=
  { s with mutexStats := Function.update s.mutexStats m stat }

/-- A contended call of `mutex_lock` returns. -/
def recorded (m : c.MutexId) (waited : ℕ) (s : StatsMachine c S) : StatsMachine c S :=
  goto none { s with waits := Function.update s.waits m (waited :: s.waits m) }

/-- A turn of the loop of `mutex_stats_clear` -/
def cleared (m : c.MutexId) (s : StatsMachine c S) : StatsMachine c S :=
  { setStat m ⟨0, 0, 0⟩ s with waits := Function.update s.waits m [] }

/-- Execute the next statements of the current task, up to an access of
    `mutex_lock_max_wait_time` or to a context switch. -/
def next (s : StatsMachine c S) : StatsPoint c → Option (StatsMachine c S)
  | .entered m waitStartTicks start =>
    (State.step (.call (.mutex (.lock m))) s.system).map fun system =>
      let p := match system.core.pc s.system.currentTask with
        | .app => .update m false waitStartTicks start
        | _ => .contended m waitStartTicks start
      { goto (some p) s with system := system }
  | .contended _ _ _ => none
  | .update m contended waitStartTicks start =>
    if s.mutexStatsEnabled then
      let stat := { s.mutexStats m with mutexLockCounter := (s.mutexStats m).mutexLockCounter + 1 }
      if contended then
        let waitTime := (s.system.core.timerCurrentTicks - waitStartTicks).setWidth 16
        some (goto (some (.compare m waitTime (s.system.core.processed - start)))
          (setStat m { stat with mutexLockContendedCounter := stat.mutexLockContendedCounter + 1 } s))
      else some (goto none (setStat m stat s))
    else some (goto none s)
  | .compare m waitTime waited =>
    if (s.mutexStats m).mutexLockMaxWaitTime < waitTime then some (goto (some (.store m waitTime waited)) s)
    else some (recorded m waited s)
  | .store m waitTime waited =>
    some (recorded m waited (setStat m { s.mutexStats m with mutexLockMaxWaitTime := waitTime } s))
  | .clear mutexIndex =>
    if h : mutexIndex < c.mutexes then
      some (goto (some (.clear (mutexIndex + 1))) (cleared ⟨mutexIndex, h⟩ s))
    else some (goto none s)

/-- The current task executes code that has nothing to do with the statistics. -/
def inApp (s : StatsMachine c S) : Bool := s.system.inApp && (s.point s.system.currentTask).isNone

/-- The steps of the system that are taken outside of that code. -/
def takes (s : StatsMachine c S) : Echronos.Act c → Bool
  | .kernel _ | .resume => true
  | .call (.mutex (.lock _)) | .call (.mutex (.lockTimeout _ _)) => false
  | .call _ | .store _ _ => s.inApp

/-- A task that leaves the loop of `mutex_lock` goes on with the statistics. -/
def afterLoop (pc : Pc c) : StatsPoint c → StatsPoint c
  | .contended m waitStartTicks start =>
    match pc with
    | .app => .update m true waitStartTicks start
    | _ => .contended m waitStartTicks start
  | p => p

/-- One step; none after the system has stopped. -/
def step (a : Act c) (s : StatsMachine c S) : Option (StatsMachine c S) :=
  if s.system.core.halted.isSome then none
  else match a with
    | .mutexLock m =>
      if s.inApp then
        some (goto (some (.entered m s.system.core.timerCurrentTicks s.system.core.processed)) s)
      else none
    | .mutexStatsClear => if s.inApp then some (goto (some (.clear 0)) s) else none
    | .enable enabled => if s.inApp then some { s with mutexStatsEnabled := enabled } else none
    | .next => if s.system.inApp then (s.point s.system.currentTask).bind (next s) else none
    | .system a =>
      if s.takes a then
        (State.step a s.system).map fun system =>
          { s with system := system, point := fun t => (s.point t).map (afterLoop (system.core.pc t)) }
      else none

/-- The states reached by steps that all meet `ok`, from the start of the system. -/
def ReachedBy (ok : Act c → StatsMachine c S → Prop) (s : StatsMachine c S) : Prop :=
  ∃ memory, Reach step ok (start memory) s

/-- A run that ends where `p` holds, found by executing it. -/
theorem exists_reachedBy_of_run (ok : Act c → StatsMachine c S → Prop)
    (check : Act c → StatsMachine c S → Bool) (as : List (Act c)) (p : StatsMachine c S → Bool)
    (has : ∀ a ∈ as, ∀ s, check a s = true → ok a s)
    (h : (run step check as (start fun _ => 0)).any p = true) : ∃ s, ReachedBy ok s ∧ p s = true := by
  obtain ⟨s, hs, hp⟩ := exists_reach_of_run has h
  exact ⟨s, ⟨_, hs⟩, hp⟩

/-- `mutex_stats[m].mutex_lock_max_wait_time` -/
def maxWaitTime (s : StatsMachine c S) (m : c.MutexId) : ℕ := (s.mutexStats m).mutexLockMaxWaitTime.toNat

/-! ### What the pieces of a step leave alone -/

@[simp] theorem goto_system (p : Option (StatsPoint c)) (s : StatsMachine c S) :
    (goto p s).system = s.system := rfl
@[simp] theorem goto_point (p : Option (StatsPoint c)) (s : StatsMachine c S) :
    (goto p s).point = Function.update s.point s.system.currentTask p := rfl
@[simp] theorem goto_waits (p : Option (StatsPoint c)) (s : StatsMachine c S) :
    (goto p s).waits = s.waits := rfl
@[simp] theorem goto_maxWaitTime (p : Option (StatsPoint c)) (s : StatsMachine c S) :
    (goto p s).maxWaitTime = s.maxWaitTime := rfl

@[simp] theorem setStat_system (m : c.MutexId) (stat : MutexStat) (s : StatsMachine c S) :
    (setStat m stat s).system = s.system := rfl
@[simp] theorem setStat_point (m : c.MutexId) (stat : MutexStat) (s : StatsMachine c S) :
    (setStat m stat s).point = s.point := rfl
@[simp] theorem setStat_waits (m : c.MutexId) (stat : MutexStat) (s : StatsMachine c S) :
    (setStat m stat s).waits = s.waits := rfl
@[simp] theorem setStat_maxWaitTime (m : c.MutexId) (stat : MutexStat) (s : StatsMachine c S) :
    (setStat m stat s).maxWaitTime = Function.update s.maxWaitTime m stat.mutexLockMaxWaitTime.toNat := by
  funext l
  by_cases hl : l = m
  · subst hl
    simp [maxWaitTime, setStat]
  · simp [maxWaitTime, setStat, hl]

@[simp] theorem recorded_system (m : c.MutexId) (waited : ℕ) (s : StatsMachine c S) :
    (recorded m waited s).system = s.system := rfl
@[simp] theorem recorded_point (m : c.MutexId) (waited : ℕ) (s : StatsMachine c S) :
    (recorded m waited s).point = Function.update s.point s.system.currentTask none := rfl
@[simp] theorem recorded_waits (m : c.MutexId) (waited : ℕ) (s : StatsMachine c S) :
    (recorded m waited s).waits = Function.update s.waits m (waited :: s.waits m) := rfl
@[simp] theorem recorded_maxWaitTime (m : c.MutexId) (waited : ℕ) (s : StatsMachine c S) :
    (recorded m waited s).maxWaitTime = s.maxWaitTime := rfl

@[simp] theorem cleared_system (m : c.MutexId) (s : StatsMachine c S) : (cleared m s).system = s.system := rfl
@[simp] theorem cleared_point (m : c.MutexId) (s : StatsMachine c S) : (cleared m s).point = s.point := rfl
@[simp] theorem cleared_waits (m : c.MutexId) (s : StatsMachine c S) :
    (cleared m s).waits = Function.update s.waits m [] := rfl
@[simp] theorem cleared_maxWaitTime (m : c.MutexId) (s : StatsMachine c S) :
    (cleared m s).maxWaitTime = Function.update s.maxWaitTime m 0 := setStat_maxWaitTime m ⟨0, 0, 0⟩ s

/-- Other fields of the statistics are written. -/
theorem maxWaitTime_update (s : StatsMachine c S) (m : c.MutexId) :
    Function.update s.maxWaitTime m (s.mutexStats m).mutexLockMaxWaitTime.toNat = s.maxWaitTime :=
  Function.update_eq_self m s.maxWaitTime

end StatsMachine

end Echronos
