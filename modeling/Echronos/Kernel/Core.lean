import Echronos.Kernel.Config
import Echronos.Schemes.Scan
import Mathlib.Data.BitVec

/-! # Kernel core: tasks, signals, timers, interrupt events

    The state every component shares and the internal functions on it. A task is outside any kernel
    wait (`Pc.app`), between the first reads of an API function and its `preempt_disable()`
    (`Pc.entered`), or inside `signal_wait_set` (`Pc.wait`), where `Cont` is what the caller does
    once the signals are received. The current task either executes (`Phase.task`) or is inside
    `interrupt_event_get_next()`, whose loop runs `interrupt_event_process()`,
    `timer_tick_process()` and `sched_get_next()` in that order.

    `processed` and `history` are not variables of the RTOS: they record the number of processed
    ticks as an integer, and what happened, so that properties of runs can be stated. -/

namespace Echronos

open Schemes

/-- Local variables of a call with a timeout: `absolute_timeout` and its argument, with the number
    of ticks that had been processed when `absolute_timeout` was computed. -/
structure Deadline where
  absoluteTimeout : BitVec 32
  timeout : BitVec 16
  start : ℕ

/-- What the caller of `signal_wait_set` is. -/
inductive Cont (c : Config)
  | signalWaitSet
  | sleep (ticks : BitVec 16) (start : ℕ)
  | mutexLock (m : c.MutexId)
  | mutexLockTimeout (m : c.MutexId) (d : Deadline)
  | semWait (s : c.SemId)
  | semWaitTimeout (s : c.SemId) (d : Deadline)
  | messageQueuePut (q : c.MessageQueueId) (message : ℕ)
  | messageQueuePutTimeout (q : c.MessageQueueId) (message : ℕ) (d : Deadline)
  | messageQueueGet (q : c.MessageQueueId) (message : ℕ)
  | messageQueueGetTimeout (q : c.MessageQueueId) (message : ℕ) (d : Deadline)

/-- A task inside `signal_wait_set`: `blocked` in the `do`-`while` loop around `block()`, otherwise
    in the `yield()` of the branch for signals that are already pending. -/
structure Wait (c : Config) where
  requested : c.SignalSet
  blocker : Option c.TaskId
  blocked : Bool
  cont : Cont c

/-- API functions that read or check something before their `preempt_disable()` or, for
    `sem_max_init`, have none. -/
inductive Entry (c : Config)
  | mutexLockTimeout (m : c.MutexId) (d : Deadline)
  | semWaitTimeout (s : c.SemId) (d : Deadline)
  | semMaxInit (s : c.SemId) (max : c.SemValue)

inductive Pc (c : Config)
  | app
  | entered (e : Entry c)
  | wait (w : Wait c)

inductive Phase
  | task | process | tick | select
  deriving DecidableEq

/-- Why a system stops: `fatal_error`, which does not return, or an array access out of bounds. -/
inductive Halt
  | fatalError (errorId : ℕ)
  | undefined

inductive Event (c : Config)
  | sent (t : c.TaskId) (set : c.SignalSet)
  | received (t : c.TaskId) (requested received : c.SignalSet)
  | slept (t : c.TaskId) (ticks : BitVec 16) (start now : ℕ)
  | acquired (t : c.TaskId) (m : c.MutexId)
  | released (t : c.TaskId) (m : c.MutexId)
  | posted (t : c.TaskId) (s : c.SemId)
  | took (t : c.TaskId) (s : c.SemId)
  | maxInit (s : c.SemId) (max : c.SemValue)
  | timedOut (t : c.TaskId) (d : Deadline) (now : ℕ)

/-- `ERROR_ID_TICK_OVERFLOW` and `ERROR_ID_SEMAPHORE_MAX_EXCEEDED`. -/
def errorIdTickOverflow : ℕ := 1
def errorIdSemaphoreMaxExceeded : ℕ := 28

structure Core (c : Config) (S : Sched c.tasks c.mutexes) where
  sched : S.State
  currentTask : c.TaskId
  phase : Phase
  pc : c.TaskId → Pc c
  signals : c.TaskId → c.SignalSet
  timers : c.TimerId → Timer c.tasks c.signalsetSize
  timerCurrentTicks : BitVec 32
  timerPendingTicks : ℕ
  interruptEvent : c.InterruptEventId → Bool
  interruptEvents : c.InterruptEventId → InterruptEventHandler c.tasks c.signalsetSize
  halted : Option Halt
  processed : ℕ
  history : List (Event c)

variable {c : Config} {S : Sched c.tasks c.mutexes}

namespace Core

/-- The state after `start()`: every task is runnable and the first one is switched to. -/
def start : Core c S where
  sched := S.start
  currentTask := c.taskIdZero
  phase := .task
  pc _ := .app
  signals _ := 0
  timers := c.timersInit
  timerCurrentTicks := 0
  timerPendingTicks := 0
  interruptEvent _ := false
  interruptEvents := c.interruptEventsInit
  halted := none
  processed := 0
  history := []

def link (k : Core c S) (t : c.TaskId) : Option c.TaskId := S.link k.sched t

/-- `t` is runnable for the scheduler. -/
def runnable (k : Core c S) (t : c.TaskId) : Prop := k.link t = some t

instance (k : Core c S) (t : c.TaskId) : Decidable (k.runnable t) :=
  inferInstanceAs (Decidable (_ = _))

def record (e : Event c) (k : Core c S) : Core c S := { k with history := e :: k.history }

/-- Move the current task to another place in its code. -/
def setPc (p : Pc c) (k : Core c S) : Core c S :=
  { k with pc := Function.update k.pc k.currentTask p }

/-- Stop the system. -/
def halt (h : Halt) (k : Core c S) : Core c S := { k with halted := some h }

/-- Go on after a function that may have called `fatal_error`, which does not return. -/
def andThen (f : Core c S → Core c S) (k : Core c S) : Core c S :=
  if k.halted.isSome then k else f k

/-! ### Signals -/

/-- `signal_peek` -/
def signalPeek (pending requested : c.SignalSet) : Bool := pending &&& requested != 0

/-- `signal_pending` -/
def signalPending (k : Core c S) (t : c.TaskId) (mask : c.SignalSet) : Bool :=
  k.signals t &&& mask == mask

/-- `unblock` -/
def unblock (t : c.TaskId) (k : Core c S) : Core c S :=
  { k with sched := S.schedSetRunnable t k.sched }

/-- The internal `signal_send_set`. -/
def signalSendSet (t : c.TaskId) (set : c.SignalSet) (k : Core c S) : Core c S :=
  unblock t { k with
    signals := Function.update k.signals t (k.signals t ||| set)
    history := .sent t set :: k.history }

/-- `signal_recv` on the pending signals of `t`: the signals received and the state left. -/
def signalRecv (t : c.TaskId) (requested : c.SignalSet) (k : Core c S) :
    c.SignalSet × Core c S :=
  let received := k.signals t &&& requested
  (received, { k with
    signals := Function.update k.signals t (k.signals t &&& ~~~received)
    history := .received t requested received :: k.history })

/-- Enter `interrupt_event_get_next()`: `yield()`, and the scheduler's part of a preemption. -/
def getNext (k : Core c S) : Core c S := { k with phase := .process }

/-- `block_on`, and `block` for a scheduler without inheritance, up to its context switch. -/
def blockOn (blocker : Option c.TaskId) (k : Core c S) : Core c S :=
  getNext { k with sched := S.schedSetBlockedOn k.currentTask blocker k.sched }

/-- The internal `signal_wait_set` / `signal_wait_set_blocked_on` up to its first context switch. -/
def signalWaitSet (requested : c.SignalSet) (blocker : Option c.TaskId) (cont : Cont c)
    (k : Core c S) : Core c S :=
  if signalPeek (k.signals k.currentTask) requested then
    getNext (setPc (.wait ⟨requested, blocker, false, cont⟩) k)
  else
    blockOn blocker (setPc (.wait ⟨requested, blocker, true, cont⟩) k)

/-- `signal_wait(SIGNAL_ID__TASK_TIMER)` -/
def waitTaskTimer (cont : Cont c) (k : Core c S) : Core c S :=
  signalWaitSet c.signalIdTaskTimer none cont k

/-- The loop `for each task t: if waiters[t] is o, clear it and send _task_timer to t`, by which
    `mutex_unlock`, `sem_post` and `message_queue_waiters_wakeup` wake the tasks waiting for `o`. -/
def wakeWaiters {ι : Type} [DecidableEq ι] (o : ι) (waiters : c.TaskId → Option ι)
    (k : Core c S) : (c.TaskId → Option ι) × Core c S :=
  scan (fun s t => if s.1 t = some o then
      (Function.update s.1 t none, signalSendSet t c.signalIdTaskTimer s.2) else s) (waiters, k)

/-! ### Timers -/

/-- `timer_expired` -/
def timerExpired (tm : Timer c.tasks c.signalsetSize) (timeout : BitVec 16) : Bool :=
  tm.enabled && tm.expiry == timeout

def setTimer (i : c.TimerId) (tm : Timer c.tasks c.signalsetSize) (k : Core c S) : Core c S :=
  { k with timers := Function.update k.timers i tm }

/-- The first half of `timer_process_one`: a periodic timer is re-armed, any other disabled. -/
def rearm (tm : Timer c.tasks c.signalsetSize) : Timer c.tasks c.signalsetSize :=
  if 0 < tm.reload then { tm with expiry := tm.expiry + tm.reload } else { tm with enabled := false }

/-- `timer_process_one`. A timer without error whose task is `TASK_ID_NONE` accesses the signals of
    a task that does not exist. -/
def timerProcessOne (i : c.TimerId) (k : Core c S) : Core c S :=
  let tm := rearm (k.timers i)
  if tm.errorId ≠ 0 then halt (.fatalError tm.errorId) (setTimer i tm k)
  else
    match tm.taskId with
    | none => halt .undefined (setTimer i tm k)
    | some t =>
      let lost := signalPending k t tm.signalSet
      signalSendSet t tm.signalSet (setTimer i (if lost then { tm with overflow := true } else tm) k)

/-- `current_timeout` -/
def currentTimeout (k : Core c S) : BitVec 16 := k.timerCurrentTicks.setWidth 16

/-- `timer_enable` -/
def timerEnable (i : c.TimerId) (k : Core c S) : Core c S :=
  if (k.timers i).reload = 0 then timerProcessOne i k
  else setTimer i { k.timers i with
    expiry := currentTimeout k + (k.timers i).reload, enabled := true } k

/-- `timer_reload_set` -/
def timerReloadSet (i : c.TimerId) (ticks : BitVec 16) (k : Core c S) : Core c S :=
  setTimer i { k.timers i with reload := ticks } k

/-- `timer_disable` -/
def timerDisable (i : c.TimerId) (k : Core c S) : Core c S :=
  setTimer i { k.timers i with enabled := false } k

/-- `timer_oneshot` -/
def timerOneshot (i : c.TimerId) (timeout : BitVec 16) (k : Core c S) : Core c S :=
  andThen (timerReloadSet i 0) (timerEnable i (timerReloadSet i timeout k))

/-- `timer_remaining` -/
def timerRemaining (i : c.TimerId) (k : Core c S) : BitVec 16 :=
  if (k.timers i).enabled then (k.timers i).expiry - currentTimeout k else 0

/-- `timer_check_overflow`: what it returns and the state it leaves. -/
def timerCheckOverflow (i : c.TimerId) (k : Core c S) : Bool × Core c S :=
  ((k.timers i).overflow, setTimer i { k.timers i with overflow := false } k)

/-- `task_timers[get_current_task()]` -/
def ownTimer (k : Core c S) : c.TimerId := c.taskTimers k.currentTask

/-- `timer_tick_process` before its loop, with one tick pending. -/
def countTick (k : Core c S) : Core c S :=
  { k with
    timerPendingTicks := 0
    timerCurrentTicks := k.timerCurrentTicks + 1
    processed := k.processed + 1 }

/-- The body of the loop of `timer_tick_process`. -/
def tickTurn (timeout : BitVec 16) (k : Core c S) (i : c.TimerId) : Core c S :=
  andThen (fun k => if timerExpired (k.timers i) timeout then timerProcessOne i k else k) k

/-- `timer_tick_process` -/
def timerTickProcess (k : Core c S) : Core c S :=
  if 1 < k.timerPendingTicks then
    halt (.fatalError errorIdTickOverflow) { k with timerPendingTicks := 0 }
  else if k.timerPendingTicks = 0 then { k with timerPendingTicks := 0 }
  else scan (tickTurn (currentTimeout (countTick k))) (countTick k)

theorem timerTickProcess_of_one {k : Core c S} (h : k.timerPendingTicks = 1) :
    timerTickProcess k = scan (tickTurn (currentTimeout (countTick k))) (countTick k) := by
  rw [timerTickProcess, if_neg (by omega), if_neg (by omega)]

/-- `sleep` up to its context switch. -/
def sleep (ticks : BitVec 16) (k : Core c S) : Core c S :=
  andThen (waitTaskTimer (.sleep ticks k.processed)) (timerOneshot (ownTimer k) ticks k)

/-! ### Interrupt events and scheduling -/

/-- `interrupt_event_process`: each event of the snapshot is cleared and bridged to its task. -/
def interruptEventProcess (k : Core c S) : Core c S :=
  let tmp := k.interruptEvent
  scan (fun k i =>
    if tmp i then
      signalSendSet (k.interruptEvents i).task (k.interruptEvents i).sigSet
        { k with interruptEvent := Function.update k.interruptEvent i false }
    else k) k

/-- `timer_tick`, called from an interrupt service routine. -/
def timerTick (k : Core c S) : Core c S :=
  if k.timerPendingTicks < 2 then { k with timerPendingTicks := k.timerPendingTicks + 1 } else k

/-- The rest of a turn of `interrupt_event_get_next()` after event and tick processing. Without a
    task to run the kernel waits for an interrupt and takes another turn. `again` is the retry of
    `preempt_irq_invoke_scheduler` when an interrupt made a preemption pending meanwhile. -/
def schedGetNext (fuel : ℕ) (again : Bool) (k : Core c S) : Option (Core c S) :=
  match S.schedGetNext fuel k.sched with
  | none => none
  | some (none, sched) => some { k with sched := sched, phase := .process }
  | some (some next, sched) =>
    if h : next < c.tasks then
      if again then
        if c.preemptive then some { k with sched := sched, phase := .process } else none
      else some { k with sched := sched, currentTask := ⟨next, h⟩, phase := .task }
    else none

/-- What happens outside the current task's own code. -/
inductive Act (c : Config)
  | interruptEventRaise (i : c.InterruptEventId)
  | timerTick
  | preempt
  | interruptEventProcess
  | timerTickProcess
  | schedGetNext (fuel : ℕ) (again : Bool)

/-- Preemption is enabled while the current task executes application code or has not yet reached
    the `preempt_disable()` of the function it called. -/
def preemptible (k : Core c S) : Bool :=
  c.preemptive && match k.pc k.currentTask with
    | .wait _ => false
    | _ => true

def act : Act c → Core c S → Option (Core c S)
  | .interruptEventRaise i, k =>
    some { k with interruptEvent := Function.update k.interruptEvent i true }
  | .timerTick, k => some (timerTick k)
  | .preempt, k => if k.phase = .task ∧ preemptible k then some (getNext k) else none
  | .interruptEventProcess, k =>
    if k.phase = .process then some { interruptEventProcess k with phase := .tick } else none
  | .timerTickProcess, k =>
    if k.phase = .tick then some { timerTickProcess k with phase := .select } else none
  | .schedGetNext fuel again, k => if k.phase = .select then schedGetNext fuel again k else none

/-- The API functions of tasks, signals and timers. -/
inductive Call (c : Config)
  | yield
  | signalSendSet (t : c.TaskId) (set : c.SignalSet)
  | signalWaitSet (requested : c.SignalSet)
  | signalPollSet (requested : c.SignalSet)
  | sleep (ticks : BitVec 16)
  | timerEnable (i : c.TimerId)
  | timerDisable (i : c.TimerId)
  | timerOneshot (i : c.TimerId) (timeout : BitVec 16)
  | timerCheckOverflow (i : c.TimerId)
  | timerReloadSet (i : c.TimerId) (reload : BitVec 16)
  | timerSignalSet (i : c.TimerId) (t : c.TaskId) (set : c.SignalSet)
  | timerErrorSet (i : c.TimerId) (errorId : ℕ)
  | interruptEventTaskSet (i : c.InterruptEventId) (t : c.TaskId)

/-- A call from application code, up to its return or its first context switch. `yield` and
    `interrupt_event_task_set` exist in Rigel only, where nothing preempts. -/
def call : Call c → Core c S → Option (Core c S)
  | .yield, k => if c.preemptive then none else some (getNext k)
  | .signalSendSet t set, k => some (signalSendSet t set k)
  | .signalWaitSet requested, k => some (signalWaitSet requested none .signalWaitSet k)
  | .signalPollSet requested, k => some (signalRecv k.currentTask requested k).2
  | .sleep ticks, k => some (sleep ticks k)
  | .timerEnable i, k => some (timerEnable i k)
  | .timerDisable i, k => some (timerDisable i k)
  | .timerOneshot i timeout, k => some (timerOneshot i timeout k)
  | .timerCheckOverflow i, k => some (setTimer i { k.timers i with overflow := false } k)
  | .timerReloadSet i reload, k => some (timerReloadSet i reload k)
  | .timerSignalSet i t set, k =>
    if set = 0 then none
    else some (setTimer i { k.timers i with errorId := 0, taskId := some t, signalSet := set } k)
  | .timerErrorSet i errorId, k => some (setTimer i { k.timers i with errorId := errorId } k)
  | .interruptEventTaskSet i t, k =>
    if c.preemptive then none
    else
      let handler := { k.interruptEvents i with task := t }
      some { k with interruptEvents := Function.update k.interruptEvents i handler }

/-- The current task, switched to inside `signal_wait_set`, goes on: `none` if its loop blocks it
    again, else the state in which it has received its signals and is back in its caller. -/
def signalWaitReturn (w : Wait c) (k : Core c S) : Option (Core c S) :=
  if w.blocked ∧ ¬ signalPeek (k.signals k.currentTask) w.requested then none
  else some (setPc .app (signalRecv k.currentTask w.requested k).2)

end Core

end Echronos
