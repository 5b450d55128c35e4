import Echronos.Kernel.Mutex
import Echronos.Kernel.Semaphore
import Echronos.Kernel.MessageQueue
import Echronos.Schemes.Run

/-! # The system: one step, and its runs

    A step is an interrupt, a piece of `interrupt_event_get_next()`, a preemption, or the current
    task executing up to its next return to application code, context switch or point where it can
    be preempted. Which of these happens, which function a task calls and with which arguments, is
    left open: a property of every reachable state holds under every interleaving. -/

namespace Echronos

open Schemes

variable {c : Config} {S : Sched c.tasks c.mutexes}

inductive Call (c : Config)
  | core (f : Core.Call c)
  | mutex (f : State.MutexCall c)
  | sem (f : State.SemCall c)
  | messageQueue (f : State.MessageQueueCall c)

inductive Act (c : Config)
  | kernel (a : Core.Act c)
  | call (f : Call c)
  | resume
  /-- Application code writes a byte of its own memory. -/
  | store (address : ℕ) (byte : BitVec 8)

/-- One turn of `interrupt_event_get_next()` that finds a task to run. -/
def reschedule : List (Act c) :=
  [.kernel .interruptEventProcess, .kernel .timerTickProcess, .kernel (.schedGetNext 9 false)]

namespace State

def call : Call c → State c S → Option (State c S)
  | .core f, s => (Core.call f s.core).map fun k => { s with core := k }
  | .mutex f, s => mutexCall f s
  | .sem f, s => semCall f s
  | .messageQueue f, s => messageQueueCall f s

/-- The body of a function from its `preempt_disable()` on. -/
def afterEntry : Entry c → State c S → State c S
  | .mutexLockTimeout m d, s => mutexLockTimeoutLoop m d s
  | .semWaitTimeout i d, s => semWaitTimeoutLoop i d s
  | .semMaxInit i max, s => semMaxStore i max s

/-- What the caller of `signal_wait_set` does after its return. -/
def afterWait : Cont c → State c S → Option (State c S)
  | .signalWaitSet, s => some s
  | .sleep ticks start, s =>
    some (s.onCore fun k => Core.record (.slept k.currentTask ticks start k.processed) k)
  | .mutexLock m, s => some (mutexLockLoop m s)
  | .mutexLockTimeout m d, s => some (mutexLockTimeoutLoop m d s.disableOwnTimer)
  | .semWait i, s => some (semWaitLoop i s)
  | .semWaitTimeout i d, s => some (semWaitTimeoutLoop i d s.disableOwnTimer)
  | .messageQueuePut q message, s => messageQueuePutLoop q message s
  | .messageQueuePutTimeout q message d, s =>
    messageQueuePutTimeoutLoop q message d s.messageQueueWaitTimeoutReturn
  | .messageQueueGet q message, s => messageQueueGetLoop q message s
  | .messageQueueGetTimeout q message d, s =>
    messageQueueGetTimeoutLoop q message d s.messageQueueWaitTimeoutReturn

/-- The current task goes on inside the function it is in. -/
def resume (s : State c S) : Option (State c S) :=
  match s.core.pc s.currentTask with
  | .app => none
  | .entered e => some (afterEntry e (s.onCore (Core.setPc .app)))
  | .wait w =>
    match Core.signalWaitReturn w s.core with
    | none => some (s.onCore (Core.blockOn w.blocker))
    | some k => afterWait w.cont { s with core := k }

/-- The current task executes application code. -/
def inApp (s : State c S) : Bool :=
  s.core.phase = .task && match s.core.pc s.currentTask with
    | .app => true
    | _ => false

/-- One step of the system; none after it has stopped. -/
def step (a : Act c) (s : State c S) : Option (State c S) :=
  if s.core.halted.isSome then none
  else match a with
    | .kernel a => (Core.act a s.core).map fun k => { s with core := k }
    | .call f => if s.inApp then call f s else none
    | .resume => if s.core.phase = .task then resume s else none
    | .store address byte =>
      if s.inApp then some { s with memory := Function.update s.memory address byte } else none

/-- The states reached by steps that all meet `ok`, from the start of the system. -/
def ReachedBy (ok : Act c → State c S → Prop) (s : State c S) : Prop :=
  ∃ memory, Reach step ok (start memory) s

/-- The states reached by any run of the system. -/
def Reached (s : State c S) : Prop := ReachedBy (fun _ _ => True) s

/-- A run that ends where `p` holds, found by executing it. -/
theorem exists_reachedBy_of_run (ok : Act c → State c S → Prop) (check : Act c → State c S → Bool)
    (as : List (Act c)) (p : State c S → Bool) (has : ∀ a ∈ as, ∀ s, check a s = true → ok a s)
    (h : (run step check as (start fun _ => 0)).any p = true) : ∃ s, ReachedBy ok s ∧ p s = true := by
  obtain ⟨s, hs, hp⟩ := exists_reach_of_run has h
  exact ⟨s, ⟨_, hs⟩, hp⟩

theorem exists_reached_of_run (as : List (Act c)) (p : State c S → Bool)
    (h : (run step (fun _ _ => true) as (start fun _ => 0)).any p = true) :
    ∃ s, Reached s ∧ p s = true :=
  exists_reachedBy_of_run _ _ as p (fun _ _ _ _ => trivial) h

theorem Reached.next {s s' : State c S} (h : s.Reached) (a : Act c) (hstep : step a s = some s') :
    s'.Reached :=
  ⟨_, Reach.next a h.choose_spec trivial hstep⟩

end State

end Echronos
