import Echronos.Kernel.Core

/-! # State of a system

    The kernel core with the static state of the mutex, semaphore and message-queue components. A
    variant without one of them is a configuration with no object of that kind. -/

namespace Echronos

/-- `struct semaphore`. Without `semaphore_enable_max` the field `max` stays `0`. -/
structure Semaphore (c : Config) where
  value : c.SemValue
  max : c.SemValue
  deriving DecidableEq

/-- `struct message_queue`: the address of its messages, and `uint8_t` fields. -/
structure MessageQueue where
  messages : ℕ
  messageSize : ℕ
  queueLength : ℕ
  head : ℕ
  available : ℕ
  deriving DecidableEq

abbrev Memory := ℕ → BitVec 8

structure State (c : Config) (S : Sched c.tasks c.mutexes) where
  core : Core c S
  /-- `mutexes[m].holder` -/
  mutexes : c.MutexId → Option c.TaskId
  mutexWaiters : c.TaskId → Option c.MutexId
  semaphores : c.SemId → Semaphore c
  semWaiters : c.TaskId → Option c.SemId
  messageQueues : c.MessageQueueId → MessageQueue
  messageQueueWaiters : c.TaskId → Option c.MessageQueueId
  memory : Memory

variable {c : Config} {S : Sched c.tasks c.mutexes}

namespace State

/-- The state after `start()`, with any contents of the memory. -/
def start (memory : Memory) : State c S where
  core := Core.start
  mutexes _ := none
  mutexWaiters _ := none
  semaphores _ := ⟨0, 0⟩
  semWaiters _ := none
  messageQueues q := ⟨c.messages q, c.messageSize q, c.queueLength q, 0, 0⟩
  messageQueueWaiters _ := none
  memory := memory

/-- `get_current_task()` -/
def currentTask (s : State c S) : c.TaskId := s.core.currentTask

/-- Apply a function of the kernel core. -/
def onCore (f : Core c S → Core c S) (s : State c S) : State c S := { s with core := f s.core }

/-- `timer_oneshot(task_timers[get_current_task()], ticks)` followed by a wait for `_task_timer`:
    `mutex_core_block_on_timeout`, `sem_core_block_timeout` and `sleep` up to their context
    switch. -/
def blockTimeout (blocker : Option c.TaskId) (ticks : BitVec 16) (cont : Cont c) :
    State c S → State c S :=
  onCore fun k => Core.andThen (Core.signalWaitSet c.signalIdTaskTimer blocker cont)
    (Core.timerOneshot (Core.ownTimer k) ticks k)

/-- `absolute_timeout = timer_current_ticks + timeout`, as 32-bit values. -/
def deadline (timeout : BitVec 16) (s : State c S) : Deadline :=
  ⟨s.core.timerCurrentTicks + timeout.setWidth 32, timeout, s.core.processed⟩

/-- `absolute_timeout > timer_current_ticks` -/
def before (d : Deadline) (s : State c S) : Bool := s.core.timerCurrentTicks < d.absoluteTimeout

/-- `absolute_timeout - timer_current_ticks`, passed as a `TicksRelative`. -/
def remaining (d : Deadline) (s : State c S) : BitVec 16 :=
  (d.absoluteTimeout - s.core.timerCurrentTicks).setWidth 16

/-- `timer_disable(task_timers[get_current_task()])` -/
def disableOwnTimer : State c S → State c S :=
  onCore fun k => Core.timerDisable (Core.ownTimer k) k

/-- A call with a timeout returns false. -/
def giveUp (d : Deadline) : State c S → State c S :=
  onCore fun k => Core.record (.timedOut k.currentTask d k.processed) k

end State

end Echronos
