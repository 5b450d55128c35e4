import Echronos.Ports.Tasks
import Echronos.Schemes.Run

/-! # Component `context-switch-preempt-armv7m`

    Preemption is disabled by raising BASEPRI to the priority of PendSV, and pending while the
    PendSV bit is set. A task yields through SVC and is preempted by PendSV; both handlers run the
    scheduler and may switch tasks, and user handlers interrupt them and each other. A saved context
    is the frame on the task's stack, of which the word `CONTEXT_PREEMPT_DISABLED` and the address to
    return to are kept.

    The processor takes PendSV as soon as it is pending, BASEPRI is zero and no handler is active.
    Each entry and return of the two handlers is recorded. -/

namespace Echronos.Armv7m

open Schemes

/-- Where a task executes in thread mode. -/
inductive Thread
  | app
  /-- Between `preempt_disable()` and `preempt_enable()`. -/
  | body
  /-- `rtos_internal_preempt_enable`: `msr basepri` -/
  | preemptEnable
  /-- Its loop that waits for the PendSV bit to be cleared. -/
  | preemptEnableWait

/-- A context that is not running: `CONTEXT_PREEMPT_DISABLED` and the return address. -/
structure Context where
  preemptDisabled : Bool
  pc : Thread

/-- The code that executes when no user handler does. In a handler, `pc` is the return address in
    the frame of the task it interrupted. -/
inductive Point (π : Port) (tasks : ℕ)
  | thread (pc : Thread)
  | svc (turn : Turn π) (pc : Thread)
  | svcSwitch (newTask : Fin tasks) (pc : Thread)
  /-- `pop {r3}` and the rest of `rtos_internal_svc_handler`. -/
  | svcReturn (ctxt : Context)
  /-- `asm_preempt_clear` -/
  | pendsvClear (pc : Thread)
  | pendsv (turn : Turn π) (pc : Thread)
  | pendsvSwitch (newTask : Fin tasks) (pc : Thread)
  /-- `pop {r3}` and the rest of `rtos_internal_pendsv_handler`. -/
  | pendsvReturn (ctxt : Context)

structure Machine (π : Port) {tasks mutexes : ℕ} (S : Sched tasks mutexes) where
  kernel : Tasks S
  /-- Whether BASEPRI is raised to the priority of PendSV. -/
  basepri : Bool
  contexts : Fin tasks → Context
  point : Point π tasks
  /-- The active user handlers, the innermost first: whether they have raised work and not yet
      pended PendSV. -/
  handlers : List Bool
  switches : List (Switch tasks)

inductive Act (π : Port) (tasks mutexes : ℕ)
  | handlerEnter
  | handlerRaise (i : Fin π.interruptEvents)
  | handlerTick
  | handlerPend
  | handlerReturn
  | pendsv
  | preemptDisable
  | op (o : Op tasks mutexes)
  | blockOn (blocker : Option (Fin tasks))
  | yield
  | preemptEnable
  | next (woken : List (Fin tasks)) (fuel : ℕ)

namespace Machine

variable {π : Port} {tasks mutexes : ℕ} {pos : 0 < tasks} {v : Preemptive tasks mutexes}

/-- The first task at the start of its entry function, which calls `preempt_enable()`. -/
def start (π : Port) (v : Preemptive tasks mutexes) (pos : 0 < tasks) : Machine π (v.sched pos) where
  kernel := Tasks.start v pos true
  basepri := true
  contexts _ := ⟨true, .preemptEnable⟩
  point := .thread .preemptEnable
  handlers := []
  switches := [.restored ⟨0, pos⟩ true]

/-- Apply a function to the variables that are shared with interrupt service routines. -/
def onIrq (f : Irq → Irq) (s : Machine π (v.sched pos)) : Machine π (v.sched pos) :=
  { s with kernel := { s.kernel with io := { s.kernel.io with irq := f s.kernel.io.irq } } }

def goto (p : Point π tasks) (s : Machine π (v.sched pos)) : Machine π (v.sched pos) :=
  { s with point := p }

/-- A step of the innermost user handler. -/
def handler (f : Irq → Irq) (raises : Bool) (s : Machine π (v.sched pos)) :
    Option (Machine π (v.sched pos)) :=
  match s.handlers with
  | [] => none
  | _ :: outer => some { onIrq f s with handlers := raises :: outer }

/-- `asm_context_switch` after `push`, and the load of the new context. -/
def contextSwitch (newTask : Fin tasks) (ctxt : Context) (s : Machine π (v.sched pos)) :
    Machine π (v.sched pos) :=
  { s with
    contexts := Function.update s.contexts s.kernel.currentTask ctxt
    kernel := { s.kernel with currentTask := newTask } }

/-- Exception return to thread mode. -/
def exceptionReturn (pc : Thread) (s : Machine π (v.sched pos)) : Machine π (v.sched pos) :=
  { s with
    point := .thread pc
    switches := .restored s.kernel.currentTask s.basepri :: s.switches }

/-- `svc #0` in `rtos_internal_yield` -/
def svc (s : Machine π (v.sched pos)) : Machine π (v.sched pos) :=
  { s with
    point := .svc (Io.interruptEventGetNext π) .body
    switches := .yielded s.kernel.currentTask true :: s.switches }

/-- The scheduler's loop in a handler takes a step. -/
def getNext (woken : List (Fin tasks)) (fuel : ℕ) (turn : Turn π) (goOn : Turn π → Point π tasks)
    (returned : Fin tasks → Point π tasks) (s : Machine π (v.sched pos)) :
    Option (Machine π (v.sched pos)) :=
  (Io.getNextStep woken fuel turn s.kernel.io).map fun r =>
    { s with
      kernel := { s.kernel with io := r.2 }
      point := r.1.elim goOn returned }

/-- Execution goes on from a point by one statement. -/
def next (woken : List (Fin tasks)) (fuel : ℕ) (s : Machine π (v.sched pos)) :
    Option (Machine π (v.sched pos)) :=
  match s.point with
  | .thread .app | .thread .body => none
  | .thread .preemptEnable => some { s with basepri := false, point := .thread .preemptEnableWait }
  | .thread .preemptEnableWait =>
    some (goto (.thread (if s.kernel.io.irq.preemptPending then .preemptEnableWait else .app)) s)
  | .svc turn pc => getNext woken fuel turn (.svc · pc) (.svcSwitch · pc) s
  | .svcSwitch newTask pc =>
    if s.kernel.currentTask = newTask then some (exceptionReturn pc s)
    else some (goto (.svcReturn (s.contexts newTask)) (contextSwitch newTask ⟨true, pc⟩ s))
  | .svcReturn ctxt =>
    some (exceptionReturn ctxt.pc
      (if ctxt.preemptDisabled then s else { s with basepri := false }))
  | .pendsvClear pc =>
    some (goto (.pendsv (Io.interruptEventGetNext π) pc) (onIrq Irq.preemptClear s))
  | .pendsv turn pc => getNext woken fuel turn (.pendsv · pc) (.pendsvSwitch · pc) s
  | .pendsvSwitch newTask pc =>
    if s.kernel.currentTask = newTask then some (exceptionReturn pc s)
    else some (goto (.pendsvReturn (s.contexts newTask)) (contextSwitch newTask ⟨false, pc⟩ s))
  | .pendsvReturn ctxt =>
    some (exceptionReturn ctxt.pc (if ctxt.preemptDisabled then { s with basepri := true } else s))

/-- PendSV is pending and not masked. -/
def pendsvReady (s : Machine π (v.sched pos)) : Bool := s.kernel.io.irq.preemptPending && !s.basepri

/-- The task that executes in thread mode, if any does. -/
def thread (s : Machine π (v.sched pos)) : Option Thread :=
  match s.handlers, s.point with
  | [], .thread pc => some pc
  | _, _ => none

/-- Whether the processor goes on where a task executes code of the RTOS with preemption disabled. -/
def inBody (s : Machine π (v.sched pos)) : Bool :=
  match s.thread with
  | some .body => !s.pendsvReady
  | _ => false

def step (a : Act π tasks mutexes) (s : Machine π (v.sched pos)) :
    Option (Machine π (v.sched pos)) :=
  match a with
  | .handlerEnter =>
    if s.kernel.io.irq.interruptsEnabled then some { s with handlers := false :: s.handlers }
    else none
  | .handlerRaise i => handler (Irq.interruptEventRaise i) true s
  | .handlerTick => handler Irq.timerTick true s
  | .handlerPend => handler Irq.preemptPend false s
  | .handlerReturn =>
    match s.handlers with
    | false :: outer => some { s with handlers := outer }
    | _ => none
  | .pendsv =>
    match s.thread with
    | some pc =>
      if s.pendsvReady then
        -- the processor clears the pending bit when it enters the handler
        some { onIrq Irq.preemptClear s with
          point := .pendsvClear pc
          switches := .preempted s.kernel.currentTask :: s.switches }
      else none
    | none => none
  | .preemptDisable =>
    match s.thread with
    | some .app => if s.pendsvReady then none else some { s with basepri := true, point := .thread .body }
    | _ => none
  | .op o => if s.inBody then some { s with kernel := s.kernel.op o } else none
  | .blockOn blocker =>
    if s.inBody then some (svc { s with kernel := s.kernel.blockOn blocker }) else none
  | .yield => if s.inBody then some (svc s) else none
  | .preemptEnable => if s.inBody then some (goto (.thread .preemptEnable) s) else none
  | .next woken fuel =>
    if s.handlers.isEmpty then
      match s.point with
      | .thread _ => if s.pendsvReady then none else next woken fuel s
      | _ => next woken fuel s
    else none

/-- The states reached by any run. -/
def Reached (s : Machine π (v.sched pos)) : Prop :=
  Reach step (fun _ _ => True) (start π v pos) s

end Machine

end Echronos.Armv7m
