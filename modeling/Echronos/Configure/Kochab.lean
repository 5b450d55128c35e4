import Echronos.Configure.Module

/-! # `KochabModule.configure` -/

namespace Echronos.Configure.Kochab

structure XmlTask where
  name : String
  priority : ℤ
  deriving DecidableEq

/-- The system description after parsing. `signalset_size` is 8, 16 or 32 by the manual, and
    `taskid_size` names one of the types `uint<N>_t`; nothing checks either of them. -/
structure XmlConfig where
  signalsetSize : ℕ
  taskidSize : ℕ
  namePrefix : Option String
  signalLabels : List String
  tasks : List XmlTask
  timers : List XmlTimer
  mutexes : List String
  semaphores : List String

structure Config where
  signalsetSize : ℕ
  taskidSize : ℕ
  prefixes : NamePrefixes
  signalLabels : List SignalLabel
  signalSets : List SignalSet
  tasks : List (Task XmlTask)
  timers : List TimerEntry
  mutexes : List String
  semaphores : List String

/-- `configure` -/
def configure (xml : XmlConfig) : Config :=
  let tasks := sortByPriority XmlTask.priority xml.tasks
  let labels := withTaskTimer xml.signalLabels
  let created := createTaskTimers XmlTask.name 0 tasks (addIndex xml.timers)
  { signalsetSize := xml.signalsetSize
    taskidSize := xml.taskidSize
    prefixes := namePrefixes xml.namePrefix
    signalLabels := labels
    signalSets := labels.map SignalLabel.signalSet
    tasks := created.1
    timers := created.2
    mutexes := xml.mutexes
    semaphores := xml.semaphores }

variable {xml : XmlConfig}

theorem length_tasks : (configure xml).tasks.length = xml.tasks.length := by
  simp [configure]

theorem length_timers :
    (configure xml).timers.length = xml.timers.length + xml.tasks.length := by
  simp [configure, createTaskTimers_timers]

end Echronos.Configure.Kochab
