import Echronos.Schemes.Run
import Echronos.Ports.Irq

/-! # Components `interrupt-event-posix` and `timer-posix`

    On a POSIX host interrupts are signals. A handler may run between any two statements of the RTOS
    unless the set of `interrupt_event_set_default()` is blocked, and handlers may interrupt each
    other, but what they interrupt goes on only when they have returned. A signal that arrives while
    it is pending counts once more; where the host merges the two, it is no arrival of its own.

    `arrivals`, `runs`, `consumed`, `raises` and `handled` are not variables of the RTOS: they record
    the arrivals of signals and the runs of their handlers, the signal that `sigwait()` has taken in
    the current call, and the calls of `interrupt_event_raise()` and `interrupt_event_handle()`. -/

namespace Echronos.Posix

open Schemes

/-- The signals of `interrupt_event_set_default()`. -/
inductive Signal
  | sigalrm | sigvtalrm | sigprof | sigchld | sigrtmin | sigrtmax | sigusr1 | sigusr2
  deriving DecidableEq

/-- How many interrupt events are configured, and whether the RTOS processes ticks. -/
structure EventConfig where
  interruptEvents : ℕ
  timerProcess : Bool
  interruptEvents_le : interruptEvents ≤ 32

abbrev EventConfig.InterruptEventId (e : EventConfig) := Fin e.interruptEvents

/-- What a signal handler calls. -/
inductive HandlerCall (e : EventConfig)
  | interruptEventRaise (j : e.InterruptEventId)
  | timerTick
  deriving DecidableEq

/-- The statement to be executed next: outside the RTOS or in its loop, in the functions
    `interrupt_event_process()` and `interrupt_event_wait()`. -/
inductive Point
  | task
  | whilePending
  | forPending (current : ℕ)
  | ifPending (current : ℕ)
  | block (current : ℕ)
  | clear (current : ℕ)
  | unblock (current : ℕ)
  | handle (current : ℕ)
  | tick
  | select
  | waitBlock
  | waitCheck
  | sigwait
  | waitUnblock
  | raise
  deriving DecidableEq

structure Process (e : EventConfig) where
  point : Point
  /-- Whether the set of signals is blocked. -/
  blocked : Bool
  pending : Signal → ℕ
  /-- What the handlers that have not returned have yet to call. -/
  handler : List (HandlerCall e)
  pendingInterruptEvents : BitVec 32
  timerTicksPending : ℕ
  /-- The variable `sig`, where `none` is a number that is no signal of the set. -/
  sig : Option Signal
  arrivals : Signal → ℕ
  runs : Signal → ℕ
  consumed : Option Signal
  raises : e.InterruptEventId → ℕ
  handled : e.InterruptEventId → ℕ

/-- A signal arrives; its handler begins to run, and will make some calls; a handler makes its next
    call. The RTOS executes its next statement, `sched_get_next()` finds a task or, as `idle`, none,
    and `sigwait()` returns with a signal. `sig` is the value of the uninitialised variable. -/
inductive Act (e : EventConfig)
  | arrive (x : Signal)
  | deliver (x : Signal) (calls : List (HandlerCall e))
  | handlerCall
  | next
  | ready
  | idle (sig : Option Signal)
  | sigwait (x : Signal)
  deriving DecidableEq

/-- The step is one of the RTOS, not of a handler. -/
def Act.isMain {e : EventConfig} : Act e → Bool
  | .arrive _ | .deliver _ _ | .handlerCall => false
  | .next | .ready | .idle _ | .sigwait _ => true

namespace Process

variable {e : EventConfig}

def start : Process e where
  point := .task
  blocked := false
  pending _ := 0
  handler := []
  pendingInterruptEvents := 0
  timerTicksPending := 0
  sig := none
  arrivals _ := 0
  runs _ := 0
  consumed := none
  raises _ := 0
  handled _ := 0

/-- `interrupt_event_raise()`, which blocks the set of signals for its access. -/
def interruptEventRaise (j : e.InterruptEventId) (s : Process e) : Process e :=
  { s with
    pendingInterruptEvents := s.pendingInterruptEvents ||| BitVec.twoPow 32 j
    raises := Function.update s.raises j (s.raises j + 1) }

/-- `timer_tick()` -/
def timerTick (s : Process e) : Process e :=
  if s.timerTicksPending < 2 then { s with timerTicksPending := s.timerTicksPending + 1 } else s

def call : HandlerCall e → Process e → Process e
  | .interruptEventRaise j, s => interruptEventRaise j s
  | .timerTick, s => timerTick s

/-- `interrupt_event_check()` -/
def interruptEventCheck (s : Process e) : Bool :=
  s.pendingInterruptEvents != 0 || (e.timerProcess && s.timerTicksPending != 0)

/-- `interrupt_event_handle()`; what it does to the tasks is no part of this model. -/
def interruptEventHandle (current : ℕ) (s : Process e) : Process e :=
  { s with handled := fun j => if j.val = current then s.handled j + 1 else s.handled j }

/-- `raise(sig)`, which makes the signal pending. -/
def raise (s : Process e) : Process e :=
  { s with
    pending := fun x => if s.sig = some x then s.pending x + 1 else s.pending x
    consumed := none }

def goto (p : Point) (s : Process e) : Process e := { s with point := p }

/-- `interrupt_event_process()` returns. -/
def processReturns (s : Process e) : Process e :=
  goto (if e.timerProcess then .tick else .select) s

/-- Execute the next statement, where it is determined. -/
def next (s : Process e) : Point → Option (Process e)
  | .task => some (goto .whilePending s)
  | .whilePending =>
    some (if e.interruptEvents ≠ 0 ∧ s.pendingInterruptEvents ≠ 0 then goto (.forPending 0) s
      else processReturns s)
  | .forPending current =>
    some (if current < e.interruptEvents ∧ s.pendingInterruptEvents ≠ 0 then
      goto (.ifPending current) s else goto .whilePending s)
  | .ifPending current =>
    some (if s.pendingInterruptEvents.getLsbD current then goto (.block current) s
      else goto (.forPending (current + 1)) s)
  | .block current => some (goto (.clear current) { s with blocked := true })
  | .clear current =>
    some (goto (.unblock current)
      { s with pendingInterruptEvents := clearBit s.pendingInterruptEvents current })
  | .unblock current => some (goto (.handle current) { s with blocked := false })
  | .handle current => some (goto (.forPending (current + 1)) (interruptEventHandle current s))
  | .tick => some (goto .select { s with timerTicksPending := 0 })
  | .waitBlock => some (goto .waitCheck { s with blocked := true })
  | .waitCheck => some (if interruptEventCheck s then goto .waitUnblock s else goto .sigwait s)
  | .waitUnblock => some (goto .raise { s with blocked := false })
  | .raise => some (goto .whilePending (raise s))
  | .select | .sigwait => none

/-- The RTOS goes on when every handler has returned. -/
def main : Act e → Process e → Option (Process e)
  | .next, s => next s s.point
  | .ready, s => if s.point = .select then some (goto .task s) else none
  | .idle sig, s => if s.point = .select then some (goto .waitBlock { s with sig := sig }) else none
  | .sigwait x, s =>
    if s.point = .sigwait ∧ 0 < s.pending x then
      some (goto .waitUnblock { s with
        pending := Function.update s.pending x (s.pending x - 1)
        sig := some x
        consumed := some x })
    else none
  | _, _ => none

def step : Act e → Process e → Option (Process e)
  | .arrive x, s =>
    some { s with
      pending := Function.update s.pending x (s.pending x + 1)
      arrivals := Function.update s.arrivals x (s.arrivals x + 1) }
  | .deliver x calls, s =>
    if s.blocked = false ∧ 0 < s.pending x ∧ (e.timerProcess ∨ .timerTick ∉ calls) then
      some { s with
        pending := Function.update s.pending x (s.pending x - 1)
        runs := Function.update s.runs x (s.runs x + 1)
        handler := calls ++ s.handler }
    else none
  | .handlerCall, s =>
    match s.handler with
    | [] => none
    | f :: rest => some (call f { s with handler := rest })
  | a, s => if s.handler = [] then main a s else none

/-- The states reached by steps that all meet `ok`. -/
def ReachedBy (ok : Act e → Process e → Prop) (s : Process e) : Prop := Reach step ok start s

end Process

end Echronos.Posix
