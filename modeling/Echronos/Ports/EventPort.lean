import Echronos.Ports.Irq
import Mathlib.Logic.Relation

/-! # `interrupt_event_process()` without preemption

    What a variant without preemption needs to know about the port: the accesses of
    `interrupt_event_process()`, which interrupts may come between, and the one access that may undo
    what an interrupt service routine has done, where a port has it. An event is due when the call
    under way has read it, or is about to, and handles it before it returns. -/

namespace Echronos

structure EventPort (interruptEvents : ℕ) where
  /-- The next access of `interrupt_event_process()` and the values of its local variables. -/
  Process : Type
  enter : Process
  /-- One access of `interrupt_event_process()`, which has returned when no point is left. -/
  interruptEventProcess : Process → Irq → Option Process × Irq
  /-- The event whose `interrupt_event_handle` is called at a point. -/
  handles : Process → Option ℕ
  /-- The next access stores a word that was loaded before, without this event. -/
  overwrites : Process → ℕ → Bool
  Due : ℕ → Process → Irq → Prop
  /-- The local variables have configured events only. -/
  Configured : Process → Prop
  overwrites_enter (i : ℕ) : overwrites enter i = false
  due_enter {i : ℕ} {q : Irq} (hi : i < interruptEvents) (hq : q.interruptEvent.getLsbD i = true) :
    Due i enter q
  due_raise {i : ℕ} {p : Process} {q : Irq} (j : ℕ) (h : Due i p q) :
    Due i p (q.interruptEventRaise j)
  due_next {i : ℕ} {p : Process} {next : Option Process} {q q' : Irq} (hi : i < interruptEvents)
    (h : Due i p q) (hp : interruptEventProcess p q = (next, q')) :
    handles p = some i ∨ ∃ p', next = some p' ∧ Due i p' q'
  kept {i : ℕ} {p : Process} {next : Option Process} {q q' : Irq}
    (hq : q.interruptEvent.getLsbD i = true) (ho : overwrites p i = false)
    (hp : interruptEventProcess p q = (next, q')) :
    (∃ p', next = some p' ∧ Due i p' q') ∨
      q'.interruptEvent.getLsbD i = true ∧ ∀ p', next = some p' → overwrites p' i = false
  configured_enter : Configured enter
  configured_next {p : Process} {next : Option Process} {q q' : Irq} (h : Configured p)
    (hq : Echronos.Configured interruptEvents q.interruptEvent)
    (hp : interruptEventProcess p q = (next, q')) :
    (∀ p', next = some p' → Configured p') ∧ Echronos.Configured interruptEvents q'.interruptEvent
  lt_of_handles {i : ℕ} {p : Process} (h : Configured p) (hp : handles p = some i) :
    i < interruptEvents
  /-- An event that is pending alone is the first to be handled. -/
  exists_handled {i : ℕ} {q : Irq} (hi : i < interruptEvents)
    (hq : q.interruptEvent = BitVec.twoPow 32 i) :
    ∃ p q', handles p = some i ∧ Relation.ReflTransGen (fun x y : Process × Irq =>
      handles x.1 = none ∧ interruptEventProcess x.1 x.2 = (some y.1, y.2)) (enter, q) (p, q')

end Echronos
