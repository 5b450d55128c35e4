import Mathlib.Algebra.GroupWithZero.Nat
import Mathlib.Logic.Function.Basic
import Mathlib.Data.Fin.Basic

/-! # System configuration

    What a generated RTOS fixes at build time: how many tasks, mutexes, semaphores, message queues,
    timers and interrupt events there are, their constant properties, and which variant's options
    are on. An identifier of a configured object is a `Fin` of its count, and an identifier that may
    be one of the `*_ID_NONE` sentinels is an `Option`, so a sentinel is never a valid identifier.

    `configure` adds one timer to the user's timers for every task (`_task_<name>`) and one signal
    label, `_task_timer`, which that timer sends to its task. -/

namespace Echronos

/-- `struct timer`. An `error_id` of `0` is `ERROR_ID_NONE`. -/
structure Timer (tasks signalsetSize : ℕ) where
  enabled : Bool
  overflow : Bool
  expiry : BitVec 16
  reload : BitVec 16
  errorId : ℕ
  taskId : Option (Fin tasks)
  signalSet : BitVec signalsetSize
  deriving DecidableEq

/-- An entry of `timers` as it is generated: an enabled timer first expires after its reload value. -/
def Timer.generated {tasks signalsetSize : ℕ} (enabled : Bool) (reload : BitVec 16) (errorId : ℕ)
    (taskId : Option (Fin tasks)) (signalSet : BitVec signalsetSize) : Timer tasks signalsetSize :=
  ⟨enabled, false, if enabled then reload else 0, reload, errorId, taskId, signalSet⟩

/-- `struct interrupt_event_handler`: the task and the signals an interrupt event is bridged to. -/
structure InterruptEventHandler (tasks signalsetSize : ℕ) where
  task : Fin tasks
  sigSet : BitVec signalsetSize
  deriving DecidableEq

/-- A configuration that `configure` accepts, with the properties of the generated tables the code
    relies on. -/
structure Config where
  tasks : ℕ
  mutexes : ℕ
  semaphores : ℕ
  messageQueues : ℕ
  timers : ℕ
  interruptEvents : ℕ
  signalsetSize : ℕ
  /-- The bit of the `_task_timer` signal label. -/
  taskTimerIdx : Fin signalsetSize
  /-- `task_timers`: the timer that belongs to each task. -/
  taskTimers : Fin tasks → Fin timers
  timersInit : Fin timers → Timer tasks signalsetSize
  interruptEventsInit : Fin interruptEvents → InterruptEventHandler tasks signalsetSize
  semaphoreValueSize : ℕ
  semaphoreEnableMax : Bool
  /-- Address of the array `message_queue_<name>_messages`. -/
  messages : Fin messageQueues → ℕ
  messageSize : Fin messageQueues → ℕ
  queueLength : Fin messageQueues → ℕ
  /-- Whether interrupts preempt tasks (Kochab, Phact) or not (Rigel). -/
  preemptive : Bool
  /-- Whether `mutex_lock_timeout` exists (Kochab, Phact). -/
  lockTimeout : Bool
  tasks_pos : 0 < tasks
  taskTimers_injective : Function.Injective taskTimers
  /-- `configure` creates each task timer disabled, without reload or error, and bound to its task
      and the `_task_timer` signal. -/
  taskTimers_init : ∀ t, timersInit (taskTimers t) =
    ⟨false, false, 0, 0, 0, some t, BitVec.twoPow signalsetSize taskTimerIdx⟩
  messageSize_pos : ∀ q, 0 < messageSize q
  messageSize_le : ∀ q, messageSize q ≤ 255
  queueLength_pos : ∀ q, 0 < queueLength q
  queueLength_le : ∀ q, queueLength q ≤ 255

namespace Config

abbrev TaskId (c : Config) := Fin c.tasks
abbrev MutexId (c : Config) := Fin c.mutexes
abbrev SemId (c : Config) := Fin c.semaphores
abbrev MessageQueueId (c : Config) := Fin c.messageQueues
abbrev TimerId (c : Config) := Fin c.timers
abbrev InterruptEventId (c : Config) := Fin c.interruptEvents
abbrev SignalSet (c : Config) := BitVec c.signalsetSize
abbrev SemValue (c : Config) := BitVec c.semaphoreValueSize

/-- `TASK_ID_ZERO`. -/
def taskIdZero (c : Config) : c.TaskId := ⟨0, c.tasks_pos⟩

/-- `SIGNAL_ID__TASK_TIMER`, configured as `1 << idx`. -/
def signalIdTaskTimer (c : Config) : c.SignalSet := BitVec.twoPow c.signalsetSize c.taskTimerIdx

-- In small configurations numerals stand for the objects.
instance neZero_one : NeZero 1 := ⟨by decide⟩

instance neZero_two : NeZero 2 := ⟨by decide⟩

/-- A configuration without timers, interrupt events and options of its own: signal sets and
    semaphores have eight bits, and message queues hold two messages of one byte. -/
abbrev plain (tasks mutexes semaphores messageQueues : ℕ) (preemptive enableMax : Bool)
    (pos : 0 < tasks) : Config where
  tasks := tasks
  mutexes := mutexes
  semaphores := semaphores
  messageQueues := messageQueues
  timers := tasks
  interruptEvents := 0
  signalsetSize := 8
  taskTimerIdx := 0
  taskTimers := id
  timersInit t := ⟨false, false, 0, 0, 0, some t, BitVec.twoPow 8 0⟩
  interruptEventsInit := nofun
  semaphoreValueSize := 8
  semaphoreEnableMax := enableMax
  messages q := 16 + 2 * q
  messageSize _ := 1
  queueLength _ := 2
  preemptive := preemptive
  lockTimeout := preemptive
  tasks_pos := pos
  taskTimers_injective := Function.injective_id
  taskTimers_init _ := rfl
  messageSize_pos _ := by decide
  messageSize_le _ := by decide
  queueLength_pos _ := by decide
  queueLength_le _ := by decide

/-- One task, with one timer besides the one `configure` adds for the task. -/
abbrev withTimer (tm : Timer 1 8) : Config where
  tasks := 1
  mutexes := 0
  semaphores := 0
  messageQueues := 0
  timers := 2
  interruptEvents := 0
  signalsetSize := 8
  taskTimerIdx := 0
  taskTimers _ := 1
  timersInit i := if i = 0 then tm else ⟨false, false, 0, 0, 0, some 0, BitVec.twoPow 8 0⟩
  interruptEventsInit := nofun
  semaphoreValueSize := 8
  semaphoreEnableMax := false
  messages := nofun
  messageSize := nofun
  queueLength := nofun
  preemptive := true
  lockTimeout := true
  tasks_pos := Nat.one_pos
  taskTimers_injective := Function.injective_of_subsingleton _
  taskTimers_init t := by
    rw [if_neg (by decide), Subsingleton.elim t 0]
    rfl
  messageSize_pos := nofun
  messageSize_le := nofun
  queueLength_pos := nofun
  queueLength_le := nofun

end Config

/-- What the kernel uses of a scheduler component, and what it relies on. `link s t` is the task
    whose progress `t` is waiting for: `t` itself when `t` is runnable, and `none` when `t` waits for
    an event. Only a scheduler with `inherits` records the task a blocked task waits for.

    `schedGetNext fuel s` runs the selection loop for at most `fuel` turns: `none` if it has not
    ended by then, else the identifier it returns (`none` for `TASK_ID_NONE`). -/
structure Sched (tasks mutexes : ℕ) where
  State : Type
  /-- The scheduler state after `start()` has made every task runnable. -/
  start : State
  schedSetRunnable : Fin tasks → State → State
  schedSetBlockedOn : Fin tasks → Option (Fin tasks) → State → State
  schedSetMutexLockedBy : Fin mutexes → Fin tasks → State → State
  schedSetMutexUnlocked : Fin mutexes → State → State
  schedGetNext : ℕ → State → Option (Option ℕ × State)
  inherits : Bool
  link : State → Fin tasks → Option (Fin tasks)
  link_start : ∀ t, link start t = some t
  link_setRunnable : ∀ t s, link (schedSetRunnable t s) = Function.update (link s) t (some t)
  link_setBlockedOn : ∀ t b s,
    link (schedSetBlockedOn t b s) = Function.update (link s) t (if inherits then b else none)
  link_setMutexLockedBy : ∀ m t s, link (schedSetMutexLockedBy m t s) = link s
  link_setMutexUnlocked : ∀ m s, link (schedSetMutexUnlocked m s) = link s
  link_getNext : ∀ fuel s r, schedGetNext fuel s = some r → link r.2 = link s

end Echronos
