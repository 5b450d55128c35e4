import Echronos.Variants.RoundRobin
import Echronos.Ports.EventPort
import Echronos.Schemes.Run
import Mathlib.Data.BitVec

/-! # The co-operative variants: Acamar, Gatria, Kraz and Acrux

    A task runs until it calls a function that switches to another one. In Acamar, Gatria and Acrux it
    can name that task (`yield_to`). Otherwise the scheduler selects it: in Gatria and Kraz
    `sched_get_next()` built with `assume_runnable` true, whose loop ends at a runnable task and nowhere
    else, in Acrux `interrupt_event_get_next()`, which waits for an interrupt when no task is runnable
    and takes interrupts between any two accesses of `interrupt_event_process()`. A mutex of
    `simple-mutex` is a bit, and a task that finds it set yields and looks again.

    `history` is not a variable of the RTOS. -/

namespace Echronos

namespace RoundRobin

variable {n : ℕ}

/-- The `do`-`while` loop built with `assume_runnable` true. -/
def loopAssumeRunnable (s : State n) : ℕ → Fin n → Option (Fin n)
  | 0, _ => none
  | fuel + 1, next =>
    let next := schedNextIndex next
    if s.runnable next = false then loopAssumeRunnable s fuel next else some next

/-- `sched_get_next` built with `assume_runnable` true. -/
def schedGetNextAssumeRunnable (fuel : ℕ) (s : State n) : Option (Fin n × State n) :=
  (loopAssumeRunnable s fuel s.cur).map fun next => (next, { s with cur := next })

end RoundRobin

namespace Cooperative

open Schemes

inductive Variant
  | acamar | gatria | kraz | acrux
  deriving DecidableEq

structure Config where
  variant : Variant
  tasks : ℕ
  mutexes : ℕ
  interruptEvents : ℕ
  signalsetSize : ℕ
  tasks_pos : 0 < tasks
  /-- An interrupt event is a bit of a 32-bit word. -/
  interruptEvents_le : interruptEvents ≤ 32
  port : EventPort interruptEvents

namespace Config

abbrev TaskId (c : Config) := Fin c.tasks
abbrev MutexId (c : Config) := Fin c.mutexes
abbrev InterruptEventId (c : Config) := Fin c.interruptEvents
abbrev SignalSet (c : Config) := BitVec c.signalsetSize

/-- `TASK_ID_ZERO` -/
def taskIdZero (c : Config) : c.TaskId := ⟨0, c.tasks_pos⟩

end Config

/-- Where a task that does not execute goes on: in application code, in the `yield()` of the loop of
    `mutex_lock`, or in the `yield()` or the loop around `block()` of `signal_wait_set`. -/
inductive Pc (c : Config)
  | app
  | mutexLock (m : c.MutexId)
  | signalWaitSet (requested : c.SignalSet) (blocked : Bool)
  deriving DecidableEq

/-- The current task executes, or it is inside `interrupt_event_get_next()` at a point of
    `interrupt_event_process()`, or in front of `sched_get_next()`. -/
inductive Phase (c : Config)
  | task
  | process (p : c.port.Process)
  | select

namespace Phase

variable {c : Config} {phase : Phase c}

def isTask : Phase c → Bool
  | .task => true
  | .process _ | .select => false

def isSelect : Phase c → Bool
  | .select => true
  | .task | .process _ => false

theorem isTask_iff : phase.isTask = true ↔ phase = .task := by
  cases phase <;> simp [isTask]

theorem isSelect_iff : phase.isSelect = true ↔ phase = .select := by
  cases phase <;> simp [isSelect]

end Phase

inductive Event (c : Config)
  | blocked (t : c.TaskId)
  | unblocked (t : c.TaskId)
  | acquired (t : c.TaskId) (m : c.MutexId)
  | unlocked (t : c.TaskId) (m : c.MutexId)
  | sent (t : c.TaskId) (set : c.SignalSet)
  | received (t : c.TaskId) (requested received : c.SignalSet)
  deriving DecidableEq

structure State (c : Config) where
  sched : RoundRobin.State c.tasks
  currentTask : c.TaskId
  phase : Phase c
  pc : c.TaskId → Pc c
  /-- `mutexes[m].locked` -/
  locked : c.MutexId → Bool
  signals : c.TaskId → c.SignalSet
  irq : Irq
  systemIsIdle : Bool
  /-- An array was accessed out of bounds. -/
  undefined : Bool
  history : List (Event c)

variable {c : Config}

/-- The API functions. -/
inductive Call (c : Config)
  | yieldTo (t : c.TaskId)
  | yield
  | block
  | unblock (t : c.TaskId)
  | mutexLock (m : c.MutexId)
  | mutexTryLock (m : c.MutexId)
  | mutexUnlock (m : c.MutexId)
  | signalWaitSet (requested : c.SignalSet)
  | signalPollSet (requested : c.SignalSet)
  | signalSendSet (t : c.TaskId) (set : c.SignalSet)

/-- What each variant has of them. -/
def provides : Variant → Call c → Bool
  | .acamar, .yieldTo _ => true
  | .acamar, _ => false
  | .kraz, .yieldTo _ | .kraz, .block | .kraz, .unblock _ => false
  | .kraz, _ => true
  | .gatria, .signalWaitSet _ | .gatria, .signalPollSet _ | .gatria, .signalSendSet _ _ => false
  | .gatria, _ => true
  | .acrux, .signalWaitSet _ | .acrux, .signalPollSet _ | .acrux, .signalSendSet _ _ => false
  | .acrux, _ => true

namespace State

/-- The state after `start()`. The tasks of `sched_tasks` are not runnable to begin with. -/
def start : State c where
  sched := ⟨c.taskIdZero, fun _ => false⟩
  currentTask := c.taskIdZero
  phase := .task
  pc _ := .app
  locked _ := false
  signals _ := 0
  irq := ⟨true, 0, 0, false⟩
  systemIsIdle := false
  undefined := false
  history := []

def runnable (s : State c) (t : c.TaskId) : Bool := s.sched.runnable t

def record (e : Event c) (s : State c) : State c := { s with history := e :: s.history }

/-- Move the current task to another place in its code. -/
def setPc (p : Pc c) (s : State c) : State c := { s with pc := Function.update s.pc s.currentTask p }

/-- `yield_to` -/
def yieldTo (t : c.TaskId) (s : State c) : State c := { s with currentTask := t, phase := .task }

/-- `yield` up to the selection of the next task. -/
def yield (s : State c) : State c :=
  { s with phase := if c.variant = .acrux then .process c.port.enter else .select }

/-- `block` up to the selection of the next task. -/
def block (s : State c) : State c :=
  yield (record (.blocked s.currentTask)
    { s with sched := RoundRobin.schedSetBlocked s.currentTask s.sched })

/-- `unblock` -/
def unblock (t : c.TaskId) (s : State c) : State c :=
  record (.unblocked t) { s with sched := RoundRobin.schedSetRunnable t s.sched }

/-! ### `simple-mutex` -/

/-- `internal_mutex_try_lock` -/
def internalMutexTryLock (m : c.MutexId) (s : State c) : Bool × State c :=
  if s.locked m then (false, s)
  else (true, record (.acquired s.currentTask m)
    { s with locked := Function.update s.locked m true })

/-- The loop of `mutex_lock` up to its end or its next `yield()`. -/
def mutexLock (m : c.MutexId) (s : State c) : State c :=
  match internalMutexTryLock m s with
  | (true, s) => setPc .app s
  | (false, s) => yield (setPc (.mutexLock m) s)

/-- `mutex_unlock`. It does not ask who holds the mutex. -/
def mutexUnlock (m : c.MutexId) (s : State c) : State c :=
  record (.unlocked s.currentTask m) { s with locked := Function.update s.locked m false }

/-! ### Signals -/

/-- `signal_peek` -/
def signalPeek (pending requested : c.SignalSet) : Bool := pending &&& requested != 0

/-- `signal_send_set` -/
def signalSendSet (t : c.TaskId) (set : c.SignalSet) (s : State c) : State c :=
  unblock t (record (.sent t set) { s with
    signals := Function.update s.signals t (s.signals t ||| set) })

/-- `signal_recv` on the pending signals of the current task. -/
def signalRecv (requested : c.SignalSet) (s : State c) : c.SignalSet × State c :=
  let received := s.signals s.currentTask &&& requested
  (received, record (.received s.currentTask requested received) { s with
    signals := Function.update s.signals s.currentTask (s.signals s.currentTask &&& ~~~received) })

/-- `signal_wait_set` up to its first context switch. -/
def signalWaitSet (requested : c.SignalSet) (s : State c) : State c :=
  if signalPeek (s.signals s.currentTask) requested then
    yield (setPc (.signalWaitSet requested false) s)
  else block (setPc (.signalWaitSet requested true) s)

/-- `signal_wait_set` from a context switch back to its task on. -/
def signalWaitSetReturn (requested : c.SignalSet) (blocked : Bool) (s : State c) : State c :=
  if blocked ∧ ¬ signalPeek (s.signals s.currentTask) requested then block s
  else setPc .app (signalRecv requested s).2

/-! ### Selecting the next task -/

/-- `interrupt_event_handle` of Acrux: the number of the event is used as that of a task. -/
def interruptEventHandle (i : ℕ) (s : State c) : State c :=
  if h : i < c.tasks then unblock ⟨i, h⟩ s else { s with undefined := true }

/-- `interrupt_event_process()` has reached its next point, or returned. -/
def reach (next : Option c.port.Process) (irq : Irq) (s : State c) : State c :=
  { s with irq := irq, phase := next.elim .select .process }

/-- One access of `interrupt_event_process()`, or its call of `interrupt_event_handle()`. -/
def interruptEventProcess (p : c.port.Process) (s : State c) : State c :=
  let (next, irq) := c.port.interruptEventProcess p s.irq
  match c.port.handles p with
  | none => reach next irq s
  | some i => interruptEventHandle i (reach next irq s)

/-- `sched_get_next()` and `yield_to`. Without a task to run, Acrux waits for an interrupt and takes
    another turn of the loop of `interrupt_event_get_next()`. -/
def schedGetNext (fuel : ℕ) (s : State c) : Option (State c) :=
  if c.variant = .acrux then
    match RoundRobin.schedGetNext fuel s.sched with
    | none => none
    | some (none, sched) =>
      some { s with sched := sched, systemIsIdle := true, phase := .process c.port.enter }
    | some (some next, sched) =>
      if h : next < c.tasks then
        some (yieldTo ⟨next, h⟩ { s with sched := sched, systemIsIdle := false })
      else none
  else
    (RoundRobin.schedGetNextAssumeRunnable fuel s.sched).map fun r =>
      yieldTo r.1 { s with sched := r.2 }

/-! ### Steps -/

/-- A call from application code, up to its return or its first context switch. -/
def call : Call c → State c → State c
  | .yieldTo t, s => yieldTo t s
  | .yield, s => yield s
  | .block, s => block s
  | .unblock t, s => unblock t s
  | .mutexLock m, s => mutexLock m s
  | .mutexTryLock m, s => (internalMutexTryLock m s).2
  | .mutexUnlock m, s => mutexUnlock m s
  | .signalWaitSet requested, s => signalWaitSet requested s
  | .signalPollSet requested, s => (signalRecv requested s).2
  | .signalSendSet t set, s => signalSendSet t set s

/-- The current task goes on inside the function that it is in. -/
def resume (s : State c) : Option (State c) :=
  match s.pc s.currentTask with
  | .app => none
  | .mutexLock m => some (mutexLock m s)
  | .signalWaitSet requested blocked => some (signalWaitSetReturn requested blocked s)

/-- The current task executes application code. -/
def inApp (s : State c) : Bool :=
  s.phase.isTask && match s.pc s.currentTask with
    | .app => true
    | _ => false

end State

inductive Act (c : Config)
  | call (f : Call c)
  | resume
  | interruptEventRaise (i : c.InterruptEventId)
  | interruptEventProcess
  | schedGetNext (fuel : ℕ)

namespace State

/-- One step of the system; none after an access out of bounds. -/
def step (a : Act c) (s : State c) : Option (State c) :=
  if s.undefined then none
  else match a with
    | .call f => if s.inApp ∧ provides c.variant f then some (call f s) else none
    | .resume => if s.phase.isTask then resume s else none
    | .interruptEventRaise i =>
      if c.variant = .acrux ∧ s.irq.interruptsEnabled then
        some { s with irq := s.irq.interruptEventRaise i }
      else none
    | .interruptEventProcess =>
      match s.phase with
      | .process p => some (interruptEventProcess p s)
      | .task | .select => none
    | .schedGetNext fuel => if s.phase.isSelect then schedGetNext fuel s else none

/-- The states reached by steps that all meet `ok`, from the start of the system. -/
def ReachedBy (ok : Act c → State c → Prop) (s : State c) : Prop := Reach step ok start s

/-- The states reached by any run of the system. -/
def Reached (s : State c) : Prop := ReachedBy (fun _ _ => True) s

/-- A run that ends where `p` holds, found by executing it. -/
theorem exists_reachedBy_of_run (ok : Act c → State c → Prop) (check : Act c → State c → Bool)
    (as : List (Act c)) (p : State c → Bool) (has : ∀ a ∈ as, ∀ s, check a s = true → ok a s)
    (h : (run step check as start).any p = true) : ∃ s, ReachedBy ok s ∧ p s = true :=
  exists_reach_of_run has h

theorem exists_reached_of_run (as : List (Act c)) (p : State c → Bool)
    (h : (run step (fun _ _ => true) as start).any p = true) : ∃ s, Reached s ∧ p s = true :=
  exists_reachedBy_of_run _ _ as p (fun _ _ _ _ => trivial) h

end State

end Cooperative

end Echronos
