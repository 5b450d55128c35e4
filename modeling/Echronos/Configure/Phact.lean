import Echronos.Configure.Module

/-! # `PhactModule.configure`

    Phact schedules tasks and mutexes by one table, sorted by priority; a mutex's priority is its
    ceiling. -/

namespace Echronos.Configure.Phact

structure XmlTask where
  name : String
  priority : ℤ
  deriving DecidableEq

structure XmlMutex where
  name : String
  priority : ℤ
  deriving DecidableEq

structure XmlConfig where
  signalsetSize : ℕ
  namePrefix : Option String
  signalLabels : List String
  tasks : List XmlTask
  timers : List XmlTimer
  mutexes : List XmlMutex

structure Mutex where
  entry : XmlMutex
  idx : ℕ
  deriving DecidableEq

/-- An entry of `mutex_tasks`. -/
inductive MutexTask
  | task (t : Task XmlTask)
  | mutex (m : Mutex)
  deriving DecidableEq

def MutexTask.priority : MutexTask → ℤ
  | task t => t.entry.priority
  | mutex m => m.entry.priority

/-- An entry of `mutex_tasks` with the `sched_idx` it gets. -/
structure Scheduled where
  entry : MutexTask
  schedIdx : ℕ
  deriving DecidableEq

structure Config where
  signalsetSize : ℕ
  prefixes : NamePrefixes
  signalLabels : List SignalLabel
  signalSets : List SignalSet
  tasks : List (Task XmlTask)
  timers : List TimerEntry
  mutexes : List Mutex
  mutexTasks : List Scheduled
  mutexTasksLength : ℕ
  schedindexSize : ℕ

/-- The width of the scheduling queue's index type. -/
def schedindexSize (mutexTasksLength : ℕ) : ℕ :=
  if 65536 ≤ mutexTasksLength then 32 else if 256 ≤ mutexTasksLength then 16 else 8

/-- `configure` -/
def configure (xml : XmlConfig) : Config :=
  let labels := withTaskTimer xml.signalLabels
  let tasks := sortByPriority XmlTask.priority xml.tasks
  let created := createTaskTimers XmlTask.name 0 tasks (addIndex xml.timers)
  let mutexes := (sortByPriority XmlMutex.priority xml.mutexes).mapIdx fun idx m => ⟨m, idx⟩
  let mutexTasks := created.1.map MutexTask.task ++ mutexes.map MutexTask.mutex
  { signalsetSize := xml.signalsetSize
    prefixes := namePrefixes xml.namePrefix
    signalLabels := labels
    signalSets := labels.map SignalLabel.signalSet
    tasks := created.1
    timers := created.2
    mutexes := mutexes
    mutexTasks := (sortByPriority MutexTask.priority mutexTasks).mapIdx fun idx mt => ⟨mt, idx⟩
    mutexTasksLength := mutexTasks.length
    schedindexSize := schedindexSize mutexTasks.length }

end Echronos.Configure.Phact
