import Echronos.Kernel.Ticks

/-! # Components `timer-ppce500` and `timer-armv7m`

    `timer_tick_process()` statement by statement: an interrupt service routine can call
    `timer_tick()` between any two of them while interrupts are enabled. Between two calls of
    `timer_tick_process()` the system takes its other steps.

    `calls`, `raised` and `clears` are not variables of the RTOS: they count the calls of
    `timer_tick()`, those among them since `timer_pending_ticks` was last cleared, and how often it
    was. -/

namespace Echronos

open Schemes

/-- The statement of `timer_tick_process()` to be executed next. The first four are those of
    `timer_pending_ticks_get_and_clear_atomically()`. -/
inductive TickPoint (c : Config)
  | interruptsDisable
  | load
  | clear (pendingTicks : ℕ)
  | interruptsEnable (pendingTicks : ℕ)
  | check (pendingTicks : ℕ)
  /-- `timer_current_ticks++` -/
  | count
  /-- `timeout = current_timeout()` -/
  | timeout
  /-- The loop, with the timers it has yet to look at. -/
  | timers (timeout : BitVec 16) (rest : List c.TimerId)
  deriving DecidableEq

structure TickMachine (c : Config) (S : Sched c.tasks c.mutexes) where
  system : State c S
  interruptsEnabled : Bool
  /-- Where `timer_tick_process()` is, during a call. -/
  point : Option (TickPoint c)
  calls : ℕ
  raised : ℕ
  clears : ℕ

namespace TickMachine

variable {c : Config} {S : Sched c.tasks c.mutexes}

inductive Act (c : Config)
  | timerTick
  | interruptEventRaise (i : c.InterruptEventId)
  | timerTickProcess
  | next
  | system (a : Echronos.Act c)

def start (memory : Memory) : TickMachine c S := ⟨State.start memory, true, none, 0, 0, 0⟩

/-- Apply a function of the kernel core. -/
def onCore (f : Core c S → Core c S) (s : TickMachine c S) : TickMachine c S :=
  { s with system := s.system.onCore f }

def goto (p : Option (TickPoint c)) (s : TickMachine c S) : TickMachine c S := { s with point := p }

/-- `timer_tick_process()` returns to the loop of `interrupt_event_get_next()`. -/
def returns (s : TickMachine c S) : TickMachine c S :=
  goto none (onCore (fun k => { k with phase := .select }) s)

/-- Execute the next statement of `timer_tick_process()`. -/
def next (s : TickMachine c S) : TickPoint c → TickMachine c S
  | .interruptsDisable => goto (some .load) { s with interruptsEnabled := false }
  | .load => goto (some (.clear s.system.core.timerPendingTicks)) s
  | .clear pendingTicks =>
    goto (some (.interruptsEnable pendingTicks))
      { onCore (fun k => { k with timerPendingTicks := 0 }) s with
        raised := 0
        clears := s.clears + 1 }
  | .interruptsEnable pendingTicks =>
    goto (some (.check pendingTicks)) { s with interruptsEnabled := true }
  | .check pendingTicks =>
    if 1 < pendingTicks then onCore (Core.halt (.fatalError errorIdTickOverflow)) s
    else if pendingTicks = 0 then returns s
    else goto (some .count) s
  | .count =>
    goto (some .timeout) (onCore (fun k => { k with
      timerCurrentTicks := k.timerCurrentTicks + 1
      processed := k.processed + 1 }) s)
  | .timeout => goto (some (.timers (Core.currentTimeout s.system.core) (List.finRange c.timers))) s
  | .timers _ [] => returns s
  | .timers timeout (i :: rest) =>
    goto (some (.timers timeout rest)) (onCore (fun k => Core.tickTurn timeout k i) s)

/-- A step of the system other than `timer_tick` and `timer_tick_process`. -/
def isOther : Echronos.Act c → Bool
  | .kernel .timerTick | .kernel .timerTickProcess => false
  | _ => true

/-- One step; none after the system has stopped. -/
def step (a : Act c) (s : TickMachine c S) : Option (TickMachine c S) :=
  if s.system.core.halted.isSome then none
  else match a with
    | .timerTick =>
      if s.interruptsEnabled then
        some { onCore Core.timerTick s with calls := s.calls + 1, raised := s.raised + 1 }
      else none
    | .interruptEventRaise i =>
      if s.interruptsEnabled then
        some (onCore (fun k =>
          { k with interruptEvent := Function.update k.interruptEvent i true }) s)
      else none
    | .timerTickProcess =>
      if s.point = none ∧ s.system.core.phase = .tick then
        some (goto (some .interruptsDisable) s)
      else none
    | .next => s.point.map (next s)
    | .system a =>
      if s.point = none ∧ isOther a then
        (State.step a s.system).map fun system => { s with system := system }
      else none

/-- The states reached by any run. -/
def Reached (s : TickMachine c S) : Prop := ∃ memory, Reach step (fun _ _ => True) (start memory) s

end TickMachine

end Echronos
