import Echronos.Armv7m.InterruptEvent
import Echronos.Ppce500.Port
import Echronos.Schemes.Run
import Echronos.Variants.PrioInherit
import Echronos.Variants.RoundRobin

/-! # Waiting for interrupts

    `interrupt_event_get_next()` processes events and ticks with interrupts enabled, so that more of
    them may have arrived when `sched_get_next()` finds no task. `interrupt_event_wait()` looks again
    with interrupts disabled. Interrupt service routines do not change the scheduler's state, so its
    decision still holds when the processor stops.

    Nothing is assumed about the calls of `interrupt_event_get_next()`: between them the tasks may
    leave the scheduler in any state. -/

namespace Echronos

open Schemes

/-- The targets with a kernel that waits: RTOS variant and processor. -/
inductive IdleTarget
  | rigelArmv7m
  | kochabArmv7m
  | kochabPpce500

namespace IdleTarget

def port (interruptEvents : ℕ) : IdleTarget → Port
  | rigelArmv7m => Armv7m.port interruptEvents false
  | kochabArmv7m => Armv7m.port interruptEvents true
  | kochabPpce500 => Ppce500.port interruptEvents true

def sched (tasks : ℕ) (pos : 0 < tasks) (mutexes : ℕ) : IdleTarget → Sched tasks mutexes
  | rigelArmv7m => rigelSched tasks mutexes pos
  | kochabArmv7m | kochabPpce500 => kochabSched tasks mutexes

variable {target : IdleTarget} {tasks mutexes : ℕ} {pos : 0 < tasks}

/-- What `sched_get_next` returns is a runnable task. -/
theorem runnable_of_schedGetNext {fuel next : ℕ} {s s' : (target.sched tasks pos mutexes).State}
    (h : (target.sched tasks pos mutexes).schedGetNext fuel s = some (some next, s')) :
    ∃ t : Fin tasks, next = t ∧ (target.sched tasks pos mutexes).link s' t = some t := by
  cases target with
  | rigelArmv7m => exact RoundRobin.runnable_of_schedGetNext h
  | kochabArmv7m | kochabPpce500 => exact PrioInherit.runnable_of_schedGetNext h

/-- It returns `TASK_ID_NONE` only if there is none. -/
theorem not_runnable_of_schedGetNext {fuel : ℕ} {s s' : (target.sched tasks pos mutexes).State}
    (h : (target.sched tasks pos mutexes).schedGetNext fuel s = some (none, s')) (t : Fin tasks) :
    (target.sched tasks pos mutexes).link s' t ≠ some t := by
  cases target with
  | rigelArmv7m =>
    have hnone := RoundRobin.not_runnable_of_schedGetNext h t
    exact fun ht => Option.some_ne_none t (ht.symm.trans hnone)
  | kochabArmv7m | kochabPpce500 => exact PrioInherit.not_runnable_of_schedGetNext h t

end IdleTarget

/-- A kernel whose tasks execute, or that is at some point of `interrupt_event_get_next()`. -/
structure IdleSystem (π : Port) {tasks mutexes : ℕ} (S : Sched tasks mutexes) where
  io : Io S
  turn : Option (Turn π)

/-- Interrupt service routines raise an event, count a tick or pend a preemption; the tasks leave
    the scheduler in a state and enter the kernel; the kernel goes on. -/
inductive IdleAct (π : Port) {tasks mutexes : ℕ} (S : Sched tasks mutexes)
  | interruptEventRaise (i : Fin π.interruptEvents)
  | timerTick
  | preemptPend
  | interruptEventGetNext (sched : S.State)
  | next (woken : List (Fin tasks)) (fuel : ℕ)

namespace IdleSystem

variable {π : Port} {tasks mutexes : ℕ} {S : Sched tasks mutexes}

def start : IdleSystem π S := ⟨⟨⟨true, 0, 0, false⟩, S.start⟩, none⟩

/-- An interrupt service routine runs `f` if interrupts are enabled. -/
def interrupt (f : Irq → Irq) (s : IdleSystem π S) : Option (IdleSystem π S) :=
  if s.io.irq.interruptsEnabled then some { s with io := { s.io with irq := f s.io.irq } } else none

def step : IdleAct π S → IdleSystem π S → Option (IdleSystem π S)
  | .interruptEventRaise i, s => interrupt (Irq.interruptEventRaise i) s
  | .timerTick, s => interrupt Irq.timerTick s
  | .preemptPend, s => interrupt Irq.preemptPend s
  | .interruptEventGetNext sched, s =>
    match s.turn with
    | none => some ⟨{ s.io with sched := sched }, some (Io.interruptEventGetNext π)⟩
    | some _ => none
  | .next woken fuel, s =>
    match s.turn with
    | none => none
    | some turn => (Io.getNextStep woken fuel turn s.io).map fun r => ⟨r.2, r.1.getLeft?⟩

/-- No task is runnable. -/
def NoneRunnable (k : Io S) : Prop := ∀ t, S.link k.sched t ≠ some t

/-- What the kernel knows on its way to the wait instruction. -/
def Knows (k : Io S) : Turn π → Prop
  | .wait => NoneRunnable k
  | .waitCheck => NoneRunnable k ∧ k.irq.interruptsEnabled = false
  | .waitInstruction => NoneRunnable k ∧ k.irq.interruptsEnabled = false ∧ Io.Quiet π k
  | _ => True

variable {s s' : IdleSystem π S}

/-- Interrupts leave the scheduler alone, and are disabled between the check and the wait. -/
theorem Knows.interrupt {f : Irq → Irq} (h : ∀ turn, s.turn = some turn → Knows s.io turn)
    (hstep : interrupt f s = some s') : ∀ turn, s'.turn = some turn → Knows s'.io turn := by
  obtain ⟨henabled, ⟨⟩⟩ := Option.ite_none_right_eq_some.mp hstep
  intro turn hturn
  have hk := h turn hturn
  cases turn with
  | wait => exact hk
  | waitCheck => simp [hk.2] at henabled
  | waitInstruction => simp [hk.2.1] at henabled
  | process p | tick | tickTake | tickEnable pendingTicks | tickProcess pendingTicks | select
  | waitEnable => trivial

theorem quiet_of_not_interruptEventCheck {k : Io S} (h : Io.interruptEventCheck π k = false) :
    Io.Quiet π k := by
  simp only [Io.interruptEventCheck, Bool.or_eq_false_iff, Bool.and_eq_false_iff, bne_eq_false_iff_eq]
    at h
  refine ⟨fun i hi => ?_, h.2⟩
  rcases h.1 with hnone | hword
  · omega
  · simp [hword]

theorem Knows.next {k k' : Io S} {turn turn' : Turn π} {woken : List (Fin tasks)} {fuel : ℕ}
    (hS : ∀ s s', S.schedGetNext fuel s = some (none, s') → ∀ t, S.link s' t ≠ some t)
    (h : Knows k turn) (hstep : Io.getNextStep woken fuel turn k = some (.inl turn', k')) :
    Knows k' turn' := by
  cases turn with
  | process p =>
    simp only [Io.getNextStep, Option.some.injEq, Prod.mk.injEq, Sum.inl.injEq] at hstep
    obtain ⟨rfl, -⟩ := hstep
    cases (π.interruptEventProcess p k.irq).1 with
    | none => trivial
    | some p' => trivial
  | tick | tickTake | tickEnable pendingTicks =>
    obtain ⟨rfl, -⟩ : _ ∧ _ := by simpa [Io.getNextStep] using hstep
    trivial
  | tickProcess pendingTicks =>
    obtain ⟨-, hstep⟩ := Option.ite_none_left_eq_some.mp hstep
    obtain ⟨rfl, -⟩ : _ ∧ _ := by simpa using hstep
    trivial
  | select =>
    simp only [Io.getNextStep] at hstep
    split at hstep
    · cases hstep
    · rename_i sched hnone
      obtain ⟨rfl, rfl⟩ : _ ∧ _ := by simpa using hstep
      exact hS k.sched sched hnone
    · split_ifs at hstep
      simp at hstep
  | wait =>
    obtain ⟨rfl, rfl⟩ : _ ∧ _ := by simpa [Io.getNextStep] using hstep
    exact ⟨h, rfl⟩
  | waitCheck =>
    simp only [Io.getNextStep, Option.some.injEq, Prod.mk.injEq, Sum.inl.injEq] at hstep
    obtain ⟨rfl, rfl⟩ := hstep
    split_ifs with hcheck
    · trivial
    · exact ⟨h.1, h.2, quiet_of_not_interruptEventCheck (by simpa using hcheck)⟩
  | waitInstruction | waitEnable =>
    obtain ⟨rfl, -⟩ : _ ∧ _ := by simpa [Io.getNextStep] using hstep
    trivial

theorem Knows.step {a : IdleAct π S}
    (hS : ∀ fuel s s', S.schedGetNext fuel s = some (none, s') → ∀ t, S.link s' t ≠ some t)
    (h : ∀ turn, s.turn = some turn → Knows s.io turn) (hstep : step a s = some s') :
    ∀ turn, s'.turn = some turn → Knows s'.io turn := by
  cases a with
  | interruptEventRaise i => exact Knows.interrupt h hstep
  | timerTick => exact Knows.interrupt h hstep
  | preemptPend => exact Knows.interrupt h hstep
  | interruptEventGetNext sched =>
    simp only [IdleSystem.step] at hstep
    split at hstep
    · cases hstep
      rintro turn ⟨⟩
      trivial
    · cases hstep
  | next woken fuel =>
    simp only [IdleSystem.step] at hstep
    split at hstep
    · cases hstep
    · rename_i turn hturn
      obtain ⟨⟨r, k⟩, hr, rfl⟩ := Option.map_eq_some_iff.mp hstep
      intro turn' hturn'
      cases r with
      | inr next => cases hturn'
      | inl turn'' =>
        obtain rfl : turn'' = turn' := by simpa using hturn'
        exact Knows.next (hS fuel) (h turn hturn) hr

/-- The states reached by any run. -/
def Reached (s : IdleSystem π S) : Prop := Reach step (fun _ _ => True) start s

theorem Reached.knows (hS : ∀ fuel s s', S.schedGetNext fuel s = some (none, s') →
    ∀ t, S.link s' t ≠ some t) (h : s.Reached) : ∀ turn, s.turn = some turn → Knows s.io turn :=
  h.invariant (by simp [start]) fun _ _ _ _ hs _ hstep => Knows.step hS hs hstep

end IdleSystem

open IdleSystem

/-- At the wait instruction nothing is pending and no task is runnable. What `sched_get_next` returns
    is a valid identifier, and what `interrupt_event_get_next` returns is a runnable task. -/
theorem idle_without_work (target : IdleTarget) (interruptEvents tasks mutexes : ℕ) (pos : 0 < tasks)
    (s : IdleSystem (target.port interruptEvents) (target.sched tasks pos mutexes))
    (h : s.Reached) :
    (s.turn = some .waitInstruction →
      Io.Quiet (target.port interruptEvents) s.io ∧ NoneRunnable s.io) ∧
    (∀ fuel next sched, (target.sched tasks pos mutexes).schedGetNext fuel s.io.sched =
      some (some next, sched) → next < tasks) ∧
    ∀ turn woken fuel next k, s.turn = some turn →
      Io.getNextStep woken fuel turn s.io = some (.inr next, k) →
      (target.sched tasks pos mutexes).link k.sched next = some next := by
  refine ⟨fun hturn => ?_, fun fuel next sched hnext => ?_, fun turn woken fuel next k _ hstep => ?_⟩
  · obtain ⟨hnone, -, hquiet⟩ :=
      h.knows (fun _ _ _ => IdleTarget.not_runnable_of_schedGetNext) _ hturn
    exact ⟨hquiet, hnone⟩
  · obtain ⟨t, rfl, -⟩ := IdleTarget.runnable_of_schedGetNext hnext
    exact t.isLt
  · obtain ⟨-, -, hnext⟩ := Io.getNextStep_returns hstep
    obtain ⟨t, ht, hrun⟩ := IdleTarget.runnable_of_schedGetNext hnext
    obtain rfl : next = t := Fin.ext ht
    exact hrun

/-- One task of Rigel on ARMv7-M, and no interrupt event. -/
abbrev OneTask := IdleSystem (IdleTarget.rigelArmv7m.port 0)
  (IdleTarget.rigelArmv7m.sched 1 Nat.one_pos 0)

/-- A test for being at the wait instruction. -/
def atWait (s : OneTask) : Bool :=
  match s.turn with
  | some .waitInstruction => true
  | _ => false

/-- The task blocks, and the kernel goes on to the wait instruction. -/
theorem idle_without_work_blocked :
    ∃ s : OneTask, s.turn = some .waitInstruction ∧ s.io.irq.timerPendingTicks = 0 := by
  have hrun : (run step (fun _ _ => true)
      (.interruptEventGetNext (⟨0, fun _ => false⟩ : RoundRobin.State 1) ::
        .replicate 8 (.next [] 2)) (start : OneTask)).any atWait = true := by
    decide +kernel
  obtain ⟨s, hs, hp⟩ : ∃ s : OneTask, s.Reached ∧ atWait s = true :=
    exists_reach_of_run (fun _ _ _ _ => trivial) hrun
  have hwait : s.turn = some .waitInstruction := by
    unfold atWait at hp
    split at hp
    · assumption
    · cases hp
  exact ⟨s, hwait, ((idle_without_work .rigelArmv7m 0 1 0 Nat.one_pos s hs).1 hwait).1.2⟩

end Echronos
