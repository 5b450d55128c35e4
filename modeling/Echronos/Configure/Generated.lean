import Echronos.Configure.Identifiers
import Echronos.Kernel.Core

/-! # The tables generated for Kochab

    The templates write the timers, the tasks' timers and the interrupt events as arrays whose
    entries refer to tasks, timers and signals by name, in upper case. What they generate for a
    system description that compiles is a `Config` of the kernel: the timer that `configure` adds for
    a task is the one the kernel finds in `task_timers`, bound to that task and `_task_timer`. -/

namespace Echronos.Configure

open Schemes

section Lookup

variable {α : Type} {name : α → String} {l : List α}

/-- The position of the entry that the macro for a name belongs to, if there is one. -/
def lookup (name : α → String) (l : List α) (s : String) : Option (Fin l.length) :=
  l.findFinIdx? fun a => (name a).toUpper == s.toUpper

/-- No two entries have one macro. -/
def UniqueNames (name : α → String) (l : List α) : Prop := (l.map fun a => (name a).toUpper).Nodup

theorem UniqueNames.lookup_getElem (h : UniqueNames name l) (i : Fin l.length) :
    lookup name l (name l[i]) = some i := by
  refine List.findFinIdx?_eq_some_iff.mpr ⟨by simp, fun j hji heq => ?_⟩
  have hne := List.pairwise_iff_getElem.mp (List.pairwise_map.mp h) j i (j.isLt) i.isLt hji
  exact hne (by simpa using heq)

end Lookup

namespace Kochab

/-- An entry of `interrupt_events`. -/
structure XmlInterruptEvent where
  task : String
  sigSet : String

/-- What the templates take from the system description as it is. -/
structure Passed where
  interruptEvents : List XmlInterruptEvent
  semaphoreValueSize : ℕ
  semaphoreEnableMax : Bool

namespace Config

/-- `TASK_ID_<name>` -/
def taskIdOf (config : Config) : String → Option (Fin config.tasks.length) :=
  lookup (·.entry.name) config.tasks

/-- `TIMER_ID_<name>` -/
def timerIdOf (config : Config) : String → Option (Fin config.timers.length) :=
  lookup (·.name) config.timers

/-- `SIGNAL_SET_<name>` -/
def signalSetOf (config : Config) (s : String) : Option (BitVec config.signalsetSize) :=
  (lookup (·.name) config.signalSets s).map fun i => config.signalSets[i].constant _

/-- The initialiser of an entry of `timers`. -/
def timerInit (config : Config) (t : TimerEntry) :
    Option (Timer config.tasks.length config.signalsetSize) := do
  let taskId ← match t.task with
    | some task => (config.taskIdOf task).map some
    | none => some none
  let signalSet ← match t.sigSet with
    | some sigSet => config.signalSetOf sigSet
    | none => some 0
  return .generated t.enabled (BitVec.ofInt 16 t.reload) (BitVec.ofInt 8 t.error).toNat taskId signalSet

/-- The initialiser of an entry of `interrupt_events`. -/
def interruptEventInit (config : Config) (e : XmlInterruptEvent) :
    Option (InterruptEventHandler config.tasks.length config.signalsetSize) := do
  let task ← config.taskIdOf e.task
  let sigSet ← config.signalSetOf e.sigSet
  return ⟨task, sigSet⟩

/-- Every macro is defined once, and those that the tables refer to are defined. -/
structure Compiles (config : Config) (passed : Passed) : Prop where
  tasks : UniqueNames (·.entry.name) config.tasks
  timers : UniqueNames (·.name) config.timers
  signalSets : UniqueNames (·.name) config.signalSets
  timerInit : ∀ t ∈ config.timers, (config.timerInit t).isSome
  interruptEventInit : ∀ e ∈ passed.interruptEvents, (config.interruptEventInit e).isSome

end Config

variable {xml : XmlConfig} {passed : Passed}

/-! ### The timers of the tasks -/

/-- The position of the timer of task `t`: the tasks' timers follow the user's. -/
def timerIdxOf (t : Fin (configure xml).tasks.length) : Fin (configure xml).timers.length :=
  ⟨xml.timers.length + t, by rw [length_timers, ← length_tasks]; omega⟩

theorem timers_timerIdxOf (t : Fin (configure xml).tasks.length) :
    (configure xml).timers[timerIdxOf t] = (configure xml).tasks[t].timer := by
  have htimers : (configure xml).timers =
      addIndex xml.timers ++ (configure xml).tasks.map (·.timer) := by
    simp only [configure, createTaskTimers_timers]
  simp [timerIdxOf, htimers]

theorem timerIdOf_taskTimer (h : UniqueNames (·.name) (configure xml).timers)
    (t : Fin (configure xml).tasks.length) :
    (configure xml).timerIdOf (configure xml).tasks[t].timer.name = some (timerIdxOf t) := by
  rw [← timers_timerIdxOf]
  exact h.lookup_getElem (timerIdxOf t)

theorem taskTimer_of_mem {t : Task XmlTask} (h : t ∈ (configure xml).tasks) :
    ∃ i, t.timer = taskTimer t.entry.name i :=
  createTaskTimers_timer 0 _ _ t h

theorem signalSetOf_taskTimer (h : UniqueNames (·.name) (configure xml).signalSets) :
    (configure xml).signalSetOf "_task_timer" = some (BitVec.twoPow _ xml.signalLabels.length) := by
  have hlen : xml.signalLabels.length < (configure xml).signalSets.length := by
    simp [configure, withTaskTimer]
  have hget : (configure xml).signalSets[xml.signalLabels.length] =
      ⟨"_task_timer", 1 <<< xml.signalLabels.length, true⟩ := by
    simp [configure, withTaskTimer, SignalLabel.signalSet]
  have hlookup := h.lookup_getElem ⟨xml.signalLabels.length, hlen⟩
  simp only [Fin.getElem_fin, hget] at hlookup
  rw [Config.signalSetOf, hlookup]
  simp only [Option.map_some, Fin.getElem_fin, hget, SignalSet.constant, Nat.one_shiftLeft]
  refine congrArg some (BitVec.eq_of_toNat_eq ?_)
  rw [BitVec.toNat_ofNat, BitVec.toNat_twoPow]

theorem timerInit_taskTimer (h : (configure xml).Compiles passed)
    (t : Fin (configure xml).tasks.length) :
    (configure xml).timerInit (configure xml).tasks[t].timer =
      some ⟨false, false, 0, 0, 0, some t, BitVec.twoPow _ xml.signalLabels.length⟩ := by
  obtain ⟨i, hi⟩ := taskTimer_of_mem (List.getElem_mem t.isLt)
  have htask : (configure xml).taskIdOf (configure xml).tasks[t].entry.name = some t :=
    h.tasks.lookup_getElem t
  simp only [Fin.getElem_fin] at hi htask ⊢
  rw [hi]
  simp [Config.timerInit, taskTimer, htask, signalSetOf_taskTimer h.signalSets, Timer.generated]

/-! ### The kernel's configuration -/

/-- The configuration of the kernel that the templates generate. -/
def kernelConfig (xml : XmlConfig) (passed : Passed) (h : (configure xml).Compiles passed)
    (hpos : 0 < xml.tasks.length) (hlabels : xml.signalLabels.length < xml.signalsetSize) :
    Echronos.Config where
  tasks := (configure xml).tasks.length
  mutexes := (configure xml).mutexes.length
  semaphores := (configure xml).semaphores.length
  messageQueues := 0
  timers := (configure xml).timers.length
  interruptEvents := passed.interruptEvents.length
  signalsetSize := (configure xml).signalsetSize
  taskTimerIdx := ⟨xml.signalLabels.length, hlabels⟩
  taskTimers t := ((configure xml).timerIdOf (configure xml).tasks[t].timer.name).get (by
    rw [timerIdOf_taskTimer h.timers]
    rfl)
  timersInit i := ((configure xml).timerInit (configure xml).timers[i]).get
    (h.timerInit _ (List.getElem_mem i.isLt))
  interruptEventsInit i := ((configure xml).interruptEventInit passed.interruptEvents[i]).get
    (h.interruptEventInit _ (List.getElem_mem i.isLt))
  semaphoreValueSize := passed.semaphoreValueSize
  semaphoreEnableMax := passed.semaphoreEnableMax
  messages i := i.elim0
  messageSize i := i.elim0
  queueLength i := i.elim0
  preemptive := true
  lockTimeout := true
  tasks_pos := length_tasks ▸ hpos
  taskTimers_injective := by
    intro t u htu
    simp only [timerIdOf_taskTimer h.timers, Option.get_some, timerIdxOf, Fin.mk.injEq] at htu
    exact Fin.ext (Nat.add_left_cancel htu)
  taskTimers_init := by
    intro t
    simp only [timerIdOf_taskTimer h.timers, Option.get_some, timers_timerIdxOf,
      timerInit_taskTimer h]
  messageSize_pos i := i.elim0
  messageSize_le i := i.elim0
  queueLength_pos i := i.elim0
  queueLength_le i := i.elim0

/-- Two tasks, one of them with a timer of its own from the user. -/
def twoTasks : XmlConfig where
  signalsetSize := 8
  taskidSize := 8
  namePrefix := none
  signalLabels := ["rx", "tx"]
  tasks := [⟨"low", 1⟩, ⟨"high", 2⟩]
  timers := [⟨"tick", true, 10, 0, some "low", some "rx"⟩]
  mutexes := ["m"]
  semaphores := []

/-- The second task handles an interrupt event. -/
def oneEvent : Passed := ⟨[⟨"high", "tx"⟩], 8, false⟩

theorem compiles_twoTasks : (configure twoTasks).Compiles oneEvent :=
  ⟨by unfold UniqueNames; decide +kernel, by unfold UniqueNames; decide +kernel,
    by unfold UniqueNames; decide +kernel, by decide +kernel, by decide +kernel⟩

/-! ### The kernel's loops

    The loops as they are generated, over identifiers of a fixed width. -/

section Loops

variable {c : Echronos.Config} {S : Sched c.tasks c.mutexes} {ι : Type} [DecidableEq ι] {w : ℕ}

/-- `timer_tick_process` -/
def timerTickProcess (timerLoop : BitVec 8 → Bool) (fuel : ℕ) (k : Core c S) :
    Option (Except Unit (Core c S)) :=
  if 1 < k.timerPendingTicks then
    some (.ok (Core.halt (.fatalError errorIdTickOverflow) { k with timerPendingTicks := 0 }))
  else if k.timerPendingTicks = 0 then some (.ok { k with timerPendingTicks := 0 })
  else
    let k := Core.countTick k
    countFrom timerLoop (entryTurn (Core.tickTurn (Core.currentTimeout k))) fuel 0 k

/-- The loop of `mutex_unlock` and `sem_post`. -/
def wakeWaiters (waiterLoop : BitVec w → Bool) (o : ι) (waiters : c.TaskId → Option ι) (fuel : ℕ)
    (k : Core c S) : Option (Except Unit ((c.TaskId → Option ι) × Core c S)) :=
  countFrom waiterLoop (entryTurn fun s t => if s.1 t = some o then
    (Function.update s.1 t none, Core.signalSendSet t c.signalIdTaskTimer s.2) else s)
    fuel 0 (waiters, k)

theorem timerTickProcess_eq {timerLoop : BitVec 8 → Bool} (h : VisitsEach c.timers timerLoop)
    (k : Core c S) : ∃ fuel, ∀ m, fuel ≤ m →
      timerTickProcess timerLoop m k = some (.ok (Core.timerTickProcess k)) := by
  by_cases hmany : 1 < k.timerPendingTicks
  · exact ⟨0, fun _ _ => by simp only [timerTickProcess, Core.timerTickProcess, hmany, if_true]⟩
  by_cases hnone : k.timerPendingTicks = 0
  · exact ⟨0, fun _ _ => by simp [timerTickProcess, Core.timerTickProcess, hnone]⟩
  simp only [timerTickProcess, Core.timerTickProcess, hmany, hnone, if_false]
  exact h _ _

theorem wakeWaiters_eq {waiterLoop : BitVec w → Bool} (h : VisitsEach c.tasks waiterLoop) (o : ι)
    (waiters : c.TaskId → Option ι) (k : Core c S) : ∃ fuel, ∀ m, fuel ≤ m →
      wakeWaiters waiterLoop o waiters m k = some (.ok (Core.wakeWaiters o waiters k)) :=
  h _ _

end Loops

end Kochab

end Echronos.Configure
