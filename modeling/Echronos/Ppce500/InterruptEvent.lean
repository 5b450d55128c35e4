import Echronos.Schemes.Run
import Echronos.Ports.Irq

/-! # Component `interrupt-event-ppce500`

    Interrupt service routines set bits of the word `interrupt_event`, and `interrupt_event_process()`
    works on a copy of the word and clears its bits one by one. The compound assignment that clears
    a bit is a load and a store, between which an interrupt is taken if MSR[EE] allows it.

    The state of an `EventSystem` run is what the two share, with the place `interrupt_event_process()`
    has reached. `unhandled` is not a variable of the RTOS: it records which events were raised and
    not handled since. -/

namespace Echronos.Ppce500

open Irq

/-- The next access of `interrupt_event_process()` and the values of its local variables; `r` is
    the register between the load and the store of `interrupt_event &= ~(1U << i)`. -/
inductive Process
  | enter
  | clear
  | copy
  | enable (tmp : BitVec 32)
  | loop (tmp : BitVec 32)
  | load (tmp : BitVec 32) (i : ℕ)
  | store (tmp : BitVec 32) (i : ℕ) (r : BitVec 32)
  | handle (tmp : BitVec 32) (i : ℕ)
  | mask (tmp : BitVec 32) (i : ℕ)

/-- One access of `interrupt_event_process()`, which has returned when no point is left. The step
    from `handle tmp i` is the call of `interrupt_event_handle(i)`, whose effect on the kernel is
    not part of `Irq`. -/
def interruptEventProcess (interruptEvents : ℕ) (preemptionSupport : Bool) :
    Process → Irq → Option Process × Irq
  | .enter, q =>
    if interruptEvents = 0 then (none, preemptClear q)
    else if preemptionSupport then (some .clear, interruptsDisable q)
    else (some (.loop q.interruptEvent), q)
  | .clear, q => (some .copy, preemptClear q)
  | .copy, q => (some (.enable q.interruptEvent), q)
  | .enable tmp, q => (some (.loop tmp), interruptsEnable q)
  | .loop tmp, q => if tmp = 0 then (none, q) else (some (.load tmp (builtinFfs tmp - 1)), q)
  | .load tmp i, q => (some (.store tmp i q.interruptEvent), q)
  | .store tmp i r, q => (some (.handle tmp i), { q with interruptEvent := clearBit r i })
  | .handle tmp i, q => (some (.mask tmp i), q)
  | .mask tmp i, q => (some (.loop (clearBit tmp i)), q)

/-- The event whose `interrupt_event_handle` is called at a point. -/
def Process.handles : Process → Option ℕ
  | .handle _ i => some i
  | _ => none

/-- The local copy of `interrupt_event`. -/
def Process.tmp : Process → BitVec 32
  | .enter | .clear | .copy => 0
  | .enable tmp | .loop tmp | .load tmp _ | .store tmp _ _ | .handle tmp _ | .mask tmp _ => tmp

/-- How many interrupt events are configured, and whether the RTOS supports preemption. -/
structure EventConfig where
  interruptEvents : ℕ
  preemptionSupport : Bool
  interruptEvents_le : interruptEvents ≤ 32

structure EventSystem (e : EventConfig) where
  irq : Irq
  /-- `none` while no call of `interrupt_event_process()` is under way. -/
  process : Option Process
  unhandled : Fin e.interruptEvents → Bool

inductive EventAct (e : EventConfig)
  | interruptEventRaise (j : Fin e.interruptEvents)
  | next

namespace EventSystem

variable {e : EventConfig}

def start : EventSystem e := ⟨⟨true, 0, 0, false⟩, none, fun _ => false⟩

def tmp (s : EventSystem e) : BitVec 32 := s.process.elim 0 Process.tmp

/-- An interrupt service routine raises an event while interrupts are enabled, or the kernel calls
    `interrupt_event_process()` or makes its next access. -/
def step : EventAct e → EventSystem e → Option (EventSystem e)
  | .interruptEventRaise j, s =>
    if s.irq.interruptsEnabled then
      some { s with
        irq := s.irq.interruptEventRaise j
        unhandled := Function.update s.unhandled j true }
    else none
  | .next, s =>
    match s.process with
    | none => some { s with process := some .enter }
    | some p =>
      let (process, irq) := interruptEventProcess e.interruptEvents e.preemptionSupport p s.irq
      some ⟨irq, process, fun j => s.unhandled j && p.handles != some j.val⟩

end EventSystem

end Echronos.Ppce500
