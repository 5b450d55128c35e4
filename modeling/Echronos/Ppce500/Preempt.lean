import Echronos.Ports.Tasks
import Echronos.Schemes.Run

/-! # Component `context-switch-preempt-ppce500`

    Preemption is a pair of variables, `preempt_disabled` and `preempt_pending`. A task that is
    interrupted with preemption disabled goes on after the handler, which leaves `preempt_pending`
    set; otherwise the handler invokes the scheduler, with interrupts enabled again, and may switch
    tasks. The interrupted task's frame lies on its stack meanwhile, and becomes its context.

    Every statement that interrupts can fall between is a point of its own. An interrupt service
    routine runs with interrupts disabled, up to the end of
    `rtos_internal_preempt_irq_scheduler_wrapper` or its invocation of the scheduler. Of a context,
    the address and MSR[EE] to resume with and the preemption status are kept. -/

namespace Echronos.Ppce500

open Schemes

/-- The caller of `preempt_irq_invoke_scheduler` with its local variables. The wrapper's caller has
    stored SRR0 and the EE bit of SRR1 in the interrupted task's frame. -/
inductive Caller (α : Type) (tasks : ℕ)
  | yieldCommon (fromTask : Fin tasks) (returnWithPreemptDisabled : Bool)
  | schedulerWrapper (initialPreemptDisabled : Bool) (srr0 : α) (srr1 : Bool)

/-- The caller of `rtos_internal_context_switch`: `syscall_vector`, or `preempt_irq_common` with the
    interrupted task's frame. -/
inductive Leaving (α : Type)
  | syscallVector (returnWithPreemptDisabled : Bool)
  | preemptIrqCommon (srr0 : α) (srr1 : Bool)

/-- Where the processor executes: application code, code of the RTOS that a task called, or code of
    the scheduler and the context switch. -/
inductive Point (π : Port) (tasks : ℕ)
  | app
  /-- Between `preempt_disable()` and `preempt_enable()`. -/
  | body
  /-- In `preempt_enable()`: `interrupts_disable()`. -/
  | preemptEnable
  /-- `if (preempt_pending)` -/
  | preemptEnableTest
  /-- `interrupts_enable()`, in front of `yield_common(false)`. -/
  | preemptEnableYield
  /-- `preempt_disabled = false` -/
  | preemptEnableStore
  /-- `interrupts_enable()`, at the end. -/
  | preemptEnableEnd
  | yieldCommon (returnWithPreemptDisabled : Bool)
  /-- In `preempt_irq_invoke_scheduler()`: `interrupts_enable()`. -/
  | invokeEnable (caller : Caller (Point π tasks) tasks)
  | turn (turn : Turn π) (caller : Caller (Point π tasks) tasks)
  /-- `interrupts_disable()` -/
  | invokeDisable (next : Fin tasks) (caller : Caller (Point π tasks) tasks)
  /-- `while (preempt_pending)` -/
  | invokeTest (next : Fin tasks) (caller : Caller (Point π tasks) tasks)
  /-- `preempt_irq_invoke_scheduler()` has returned. -/
  | invoked (next : Fin tasks) (caller : Caller (Point π tasks) tasks)
  /-- `interrupts_enable()` at the end of `yield_common()`, where a task that yielded resumes. -/
  | yieldEnd (returnWithPreemptDisabled : Bool)
  | contextSwitch (toTask : Fin tasks) (leaving : Leaving (Point π tasks))
  | contextSwitchFirst (toTask : Fin tasks)

/-- A saved context: SRR0, the EE bit of SRR1, and the `CONTEXT_PREEMPT_RESTORE_STATUS` word. -/
structure Context (π : Port) (tasks : ℕ) where
  srr0 : Point π tasks
  srr1 : Bool
  preemptRestoreStatus : BitVec 32

/-- The status word built from `PREEMPT_RESTORE_DISABLED` and `PREEMPT_RESTORE_VOLATILES`. -/
def preemptStatus (restorePreemptDisabled restoreVolatiles : Bool) : BitVec 32 :=
  (if restorePreemptDisabled then 1 else 0) ||| (if restoreVolatiles then 2 else 0)

theorem preemptStatus_and_one (restorePreemptDisabled restoreVolatiles : Bool) :
    preemptStatus restorePreemptDisabled restoreVolatiles &&& 1 = 0 ↔
      restorePreemptDisabled = false := by
  revert restorePreemptDisabled restoreVolatiles
  decide

structure Machine (π : Port) {tasks mutexes : ℕ} (S : Sched tasks mutexes) where
  kernel : Tasks S
  preemptDisabled : Bool
  contexts : Fin tasks → Context π tasks
  point : Point π tasks
  switches : List (Switch tasks)

/-- What happens next: an interrupt service routine raises some events and perhaps counts a tick;
    the current task calls a function of the RTOS or executes a piece of one; or execution goes on,
    with the tasks that the scheduler's loop unblocks and a bound for `sched_get_next()`. -/
inductive Act (π : Port) (tasks mutexes : ℕ)
  | interrupt (raised : List (Fin π.interruptEvents)) (tick : Bool)
  | preemptDisable
  | op (o : Op tasks mutexes)
  | blockOn (blocker : Option (Fin tasks))
  | yield
  | preemptEnable
  | next (woken : List (Fin tasks)) (fuel : ℕ)

namespace Machine

variable {π : Port} {tasks mutexes : ℕ} {pos : 0 < tasks} {v : Preemptive tasks mutexes}

/-- `start()` at its call of `context_switch_first`: `context_init` has set up every task to start
    in its entry function, which calls `preempt_enable()`. -/
def start (π : Port) (v : Preemptive tasks mutexes) (pos : 0 < tasks) : Machine π (v.sched pos) where
  kernel := Tasks.start v pos false
  preemptDisabled := true
  contexts _ := ⟨.preemptEnable, true, preemptStatus true true⟩
  point := .contextSwitchFirst ⟨0, pos⟩
  switches := []

/-- Apply a function to the variables that are shared with interrupt service routines. -/
def onIrq (f : Irq → Irq) (s : Machine π (v.sched pos)) : Machine π (v.sched pos) :=
  { s with kernel := { s.kernel with io := { s.kernel.io with irq := f s.kernel.io.irq } } }

def goto (p : Point π tasks) (s : Machine π (v.sched pos)) : Machine π (v.sched pos) :=
  { s with point := p }

/-- A handler that raises events and perhaps counts a tick, followed by `preempt_pending = true` in
    `rtos_internal_preempt_irq_scheduler_wrapper`. -/
def handler (raised : List (Fin π.interruptEvents)) (tick : Bool) (q : Irq) : Irq :=
  (raised.foldl (fun q (i : Fin π.interruptEvents) => q.interruptEventRaise i)
    (if tick then q.timerTick else q)).preemptPend

/-- `preempt_irq_common` and the wrapper up to its invocation of the scheduler. -/
def interrupt (raised : List (Fin π.interruptEvents)) (tick : Bool) (s : Machine π (v.sched pos)) :
    Machine π (v.sched pos) :=
  if s.preemptDisabled then onIrq (handler raised tick) s
  else { onIrq (fun q => (handler raised tick q).interruptsDisable) s with
    preemptDisabled := true
    point := .invokeEnable (.schedulerWrapper s.preemptDisabled s.point true) }

/-- The rest of the caller of `preempt_irq_invoke_scheduler`. -/
def invoked (next : Fin tasks) (caller : Caller (Point π tasks) tasks)
    (s : Machine π (v.sched pos)) : Machine π (v.sched pos) :=
  match caller with
  | .yieldCommon fromTask returnWithPreemptDisabled =>
    if fromTask ≠ next then goto (.contextSwitch next (.syscallVector returnWithPreemptDisabled)) s
    else { s with
      preemptDisabled := returnWithPreemptDisabled
      point := .yieldEnd returnWithPreemptDisabled }
  | .schedulerWrapper initialPreemptDisabled srr0 srr1 =>
    if next = s.kernel.currentTask then
      { onIrq (fun q => { q with interruptsEnabled := srr1 }) s with
        preemptDisabled := initialPreemptDisabled
        point := srr0 }
    else goto (.contextSwitch next (.preemptIrqCommon srr0 srr1)) s

/-- The context that `rtos_internal_context_switch` is called with, and how it is recorded. -/
def saved (leaving : Leaving (Point π tasks)) (s : Machine π (v.sched pos)) :
    Context π tasks × Switch tasks :=
  match leaving with
  | .syscallVector returnWithPreemptDisabled =>
    (⟨.yieldEnd returnWithPreemptDisabled, s.kernel.io.irq.interruptsEnabled,
      preemptStatus returnWithPreemptDisabled false⟩,
      .yielded s.kernel.currentTask returnWithPreemptDisabled)
  | .preemptIrqCommon srr0 srr1 =>
    (⟨srr0, srr1, preemptStatus false true⟩, .preempted s.kernel.currentTask)

/-- `rtos_internal_context_switch` -/
def contextSwitch (toTask : Fin tasks) (leaving : Leaving (Point π tasks))
    (s : Machine π (v.sched pos)) : Machine π (v.sched pos) :=
  { s with
    contexts := Function.update s.contexts s.kernel.currentTask (saved leaving s).1
    switches := (saved leaving s).2 :: s.switches
    point := .contextSwitchFirst toTask }

/-- `context_switch_first` and the return from interrupt it ends with. -/
def contextSwitchFirst (toTask : Fin tasks) (s : Machine π (v.sched pos)) : Machine π (v.sched pos) :=
  let ctxt := s.contexts toTask
  let preemptDisabled := if ctxt.preemptRestoreStatus &&& 1 = 0 then false else s.preemptDisabled
  { s with
    kernel := { s.kernel with
      currentTask := toTask
      io := { s.kernel.io with irq := { s.kernel.io.irq with interruptsEnabled := ctxt.srr1 } } }
    preemptDisabled := preemptDisabled
    point := ctxt.srr0
    switches := .restored toTask preemptDisabled :: s.switches }

/-- Execution goes on from a point by one statement. -/
def next (woken : List (Fin tasks)) (fuel : ℕ) (s : Machine π (v.sched pos)) :
    Option (Machine π (v.sched pos)) :=
  match s.point with
  | .app | .body => none
  | .preemptEnable => some (goto .preemptEnableTest (onIrq Irq.interruptsDisable s))
  | .preemptEnableTest =>
    some (goto (if s.kernel.io.irq.preemptPending then .preemptEnableYield else .preemptEnableStore) s)
  | .preemptEnableYield => some (goto (.yieldCommon false) (onIrq Irq.interruptsEnable s))
  | .preemptEnableStore => some { s with preemptDisabled := false, point := .preemptEnableEnd }
  | .preemptEnableEnd => some (goto .app (onIrq Irq.interruptsEnable s))
  | .yieldCommon returnWithPreemptDisabled =>
    some (goto (.invokeEnable (.yieldCommon s.kernel.currentTask returnWithPreemptDisabled)) s)
  | .invokeEnable caller =>
    some (goto (.turn (Io.interruptEventGetNext π) caller) (onIrq Irq.interruptsEnable s))
  | .turn turn caller =>
    (Io.getNextStep woken fuel turn s.kernel.io).map fun r =>
      { s with
        kernel := { s.kernel with io := r.2 }
        point := match r.1 with
          | .inl turn => .turn turn caller
          | .inr next => .invokeDisable next caller }
  | .invokeDisable next caller =>
    some (goto (.invokeTest next caller) (onIrq Irq.interruptsDisable s))
  | .invokeTest next caller =>
    some (goto (if s.kernel.io.irq.preemptPending then .invokeEnable caller
      else .invoked next caller) s)
  | .invoked next caller => some (invoked next caller s)
  | .yieldEnd returnWithPreemptDisabled =>
    some (goto (if returnWithPreemptDisabled then .body else .app) (onIrq Irq.interruptsEnable s))
  | .contextSwitch toTask leaving => some (contextSwitch toTask leaving s)
  | .contextSwitchFirst toTask => some (contextSwitchFirst toTask s)

/-- The current task executes code of the RTOS with preemption disabled. -/
def inBody (s : Machine π (v.sched pos)) : Bool :=
  match s.point with
  | .body => true
  | _ => false

def inApp (s : Machine π (v.sched pos)) : Bool :=
  match s.point with
  | .app => true
  | _ => false

def step (a : Act π tasks mutexes) (s : Machine π (v.sched pos)) :
    Option (Machine π (v.sched pos)) :=
  match a with
  | .interrupt raised tick =>
    if s.kernel.io.irq.interruptsEnabled then some (interrupt raised tick s) else none
  | .preemptDisable =>
    if s.inApp then some { s with preemptDisabled := true, point := .body } else none
  | .op o => if s.inBody then some { s with kernel := s.kernel.op o } else none
  | .blockOn blocker =>
    if s.inBody then some { s with kernel := s.kernel.blockOn blocker, point := .yieldCommon true }
    else none
  | .yield => if s.inBody then some (goto (.yieldCommon true) s) else none
  | .preemptEnable => if s.inBody then some (goto .preemptEnable s) else none
  | .next woken fuel => next woken fuel s

/-- The states reached by any run. -/
def Reached (s : Machine π (v.sched pos)) : Prop :=
  Reach step (fun _ _ => True) (start π v pos) s

end Machine

end Echronos.Ppce500
