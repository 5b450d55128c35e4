import Echronos.Kernel.Config
import Echronos.Ports.Irq

/-! # Component `interrupt-event`: the loop of `interrupt_event_get_next()`

    A port supplies `interrupt_event_process()`; the rest of the loop is the same everywhere:
    `timer_tick_process()` takes the pending ticks with interrupts disabled, `sched_get_next()`
    decides, and without a task to run the loop waits for an interrupt and takes another turn. Every
    access that an interrupt service routine can fall between is a step of its own.

    What an interrupt event or an expired timer does to the scheduler is `signal_send_set()`, which
    unblocks its task. Which tasks these are is left open, as the list `woken`. -/

namespace Echronos

/-- A port's `interrupt_event_process()`. `Covers p q` says that every event pending in `q` is one
    that the call, being at `p`, still copies or clears. -/
structure Port where
  interruptEvents : ℕ
  /-- Whether `preempt_pend()` and `preempt_clear()` do anything. -/
  preemption : Bool
  Process : Type
  enter : Process
  interruptEventProcess : Process → Irq → Option Process × Irq
  /-- Whether the step from a point calls `interrupt_event_handle`. -/
  handles : Process → Bool
  Covers : Process → Irq → Prop
  covers_enter : ∀ q, Covers enter q
  covers_next : ∀ {p q p' q'}, q.preemptPending ∨ Covers p q →
    interruptEventProcess p q = (some p', q') → q'.preemptPending ∨ Covers p' q'
  covers_return : ∀ {p q q'}, q.preemptPending ∨ Covers p q →
    interruptEventProcess p q = (none, q') → q'.preemptPending ∨ q'.NoEvent interruptEvents

/-- What the loop works on. -/
structure Io {tasks mutexes : ℕ} (S : Sched tasks mutexes) where
  irq : Irq
  sched : S.State

/-- Points of the loop: in `interrupt_event_process()`, in `timer_tick_process()`, in front of
    `sched_get_next()`, and in `interrupt_event_wait()`. -/
inductive Turn (π : Port)
  | process (p : π.Process)
  | tick
  | tickTake
  | tickEnable (pendingTicks : ℕ)
  | tickProcess (pendingTicks : ℕ)
  | select
  | wait
  | waitCheck
  | waitInstruction
  | waitEnable

variable {tasks mutexes : ℕ} {S : Sched tasks mutexes} {π : Port}

namespace Io

/-- `unblock` -/
def unblock (preemption : Bool) (t : Fin tasks) (k : Io S) : Io S where
  sched := S.schedSetRunnable t k.sched
  irq := if preemption then k.irq.preemptPend else k.irq

/-- `signal_send_set` to some tasks, as the scheduler sees it. -/
def wake (preemption : Bool) (woken : List (Fin tasks)) (k : Io S) : Io S :=
  woken.foldl (fun k t => unblock preemption t k) k

/-- `interrupt_event_check()`; without interrupt events the application part is `false`. -/
def interruptEventCheck (π : Port) (k : Io S) : Bool :=
  (π.interruptEvents != 0 && k.irq.interruptEvent != 0) || k.irq.timerPendingTicks != 0

/-- `interrupt_event_get_next()` -/
def interruptEventGetNext (π : Port) : Turn π := .process π.enter

/-- One step of `interrupt_event_get_next()`: another point of its loop, or its result. There is no
    step from a call of `fatal_error`, which does not return, from a `sched_get_next()` that does not
    end within `fuel` turns, and from an invalid task identifier. -/
def getNextStep (woken : List (Fin tasks)) (fuel : ℕ) : Turn π → Io S →
    Option ((Turn π ⊕ Fin tasks) × Io S)
  | .process p, k =>
    let (next, irq) := π.interruptEventProcess p k.irq
    let k' : Io S := { k with irq := irq }
    some (.inl (next.elim .tick .process), if π.handles p then wake π.preemption woken k' else k')
  | .tick, k => some (.inl .tickTake, { k with irq := k.irq.interruptsDisable })
  | .tickTake, k =>
    some (.inl (.tickEnable k.irq.timerPendingTicks),
      { k with irq := { k.irq with timerPendingTicks := 0 } })
  | .tickEnable pendingTicks, k =>
    some (.inl (.tickProcess pendingTicks), { k with irq := k.irq.interruptsEnable })
  | .tickProcess pendingTicks, k =>
    if 1 < pendingTicks then none
    else some (.inl .select, if pendingTicks = 0 then k else wake π.preemption woken k)
  | .select, k =>
    match S.schedGetNext fuel k.sched with
    | none => none
    | some (none, sched) => some (.inl .wait, { k with sched := sched })
    | some (some next, sched) =>
      if h : next < tasks then some (.inr ⟨next, h⟩, { k with sched := sched }) else none
  | .wait, k => some (.inl .waitCheck, { k with irq := k.irq.interruptsDisable })
  | .waitCheck, k =>
    some (.inl (if interruptEventCheck π k then .waitEnable else .waitInstruction), k)
  | .waitInstruction, k => some (.inl .waitEnable, { k with irq := k.irq.interruptsEnable })
  | .waitEnable, k =>
    some (.inl (interruptEventGetNext π), { k with irq := k.irq.interruptsEnable })

/-- No interrupt event and no tick is pending. -/
def Quiet (π : Port) (k : Io S) : Prop :=
  k.irq.NoEvent π.interruptEvents ∧ k.irq.timerPendingTicks = 0

/-- The events and ticks pending at a point are ones that the loop still takes. -/
def Covers (k : Io S) : Turn π → Prop
  | .process p => π.Covers p k.irq
  | .tick | .tickTake => k.irq.NoEvent π.interruptEvents
  | .tickEnable _ | .tickProcess _ | .select => Quiet π k
  | .wait | .waitCheck | .waitInstruction | .waitEnable => True

/-- `sched_get_next()` returns `t`. -/
def Selects (S : Sched tasks mutexes) (s : S.State) (t : Fin tasks) : Prop :=
  ∃ fuel, S.schedGetNext fuel s = some (some t.val, s)

/-- A preemption is pending, or the points before the scheduler's decision cover what is. -/
def Fresh (k : Io S) (t : Turn π) : Prop := k.irq.preemptPending ∨ Covers k t

/-- A preemption is pending, or nothing is and `t` is the task to run. -/
def Current (π : Port) (k : Io S) (t : Fin tasks) : Prop :=
  k.irq.preemptPending ∨ Quiet π k ∧ Selects S k.sched t

theorem irq_wake (preemption : Bool) (woken : List (Fin tasks)) (k : Io S) :
    (wake preemption woken k).irq = k.irq ∨ (wake preemption woken k).irq = k.irq.preemptPend := by
  induction woken generalizing k with
  | nil => exact .inl rfl
  | cons t ts ih =>
    have hidem : k.irq.preemptPend.preemptPend = k.irq.preemptPend := rfl
    cases preemption with
    | false => exact ih (unblock false t k)
    | true =>
      refine .inr ((ih (unblock true t k)).elim id fun h => ?_)
      exact h.trans hidem

theorem Fresh.wake {k : Io S} {t : Turn π} (h : Fresh k t) (preemption : Bool)
    (woken : List (Fin tasks)) : Fresh (wake preemption woken k) t := by
  rcases irq_wake preemption woken k with hirq | hirq
  · simp only [Fresh, Covers, Quiet, hirq] at h ⊢
    exact h
  · exact .inl (by rw [hirq]; rfl)

theorem Fresh.enter (k : Io S) : Fresh k (interruptEventGetNext π) := .inr (π.covers_enter k.irq)

/-- The loop goes on. -/
theorem Fresh.next {k k' : Io S} {t t' : Turn π} (h : Fresh k t) {woken : List (Fin tasks)}
    {fuel : ℕ} (hstep : getNextStep woken fuel t k = some (.inl t', k')) : Fresh k' t' := by
  cases t with
  | process p =>
    cases hp : π.interruptEventProcess p k.irq with
    | mk next irq =>
      simp only [getNextStep, hp, Option.some.injEq, Prod.mk.injEq, Sum.inl.injEq] at hstep
      obtain ⟨rfl, rfl⟩ := hstep
      have hfresh : Fresh { k with irq := irq } (next.elim .tick .process) := by
        cases next with
        | none => exact π.covers_return h hp
        | some p' => exact π.covers_next h hp
      split_ifs
      · exact hfresh.wake π.preemption woken
      · exact hfresh
  | tick | tickEnable pendingTicks =>
    obtain ⟨rfl, rfl⟩ : _ ∧ _ := by simpa [getNextStep] using hstep
    exact h
  | tickTake =>
    obtain ⟨rfl, rfl⟩ : _ ∧ _ := by simpa [getNextStep] using hstep
    exact h.imp id fun hnone => ⟨hnone, rfl⟩
  | tickProcess pendingTicks =>
    obtain ⟨-, hstep⟩ := Option.ite_none_left_eq_some.mp hstep
    simp only [Option.some.injEq, Prod.mk.injEq, Sum.inl.injEq] at hstep
    obtain ⟨rfl, rfl⟩ := hstep
    have hfresh : Fresh k (.select : Turn π) := h
    split_ifs
    · exact hfresh
    · exact hfresh.wake π.preemption woken
  | select =>
    simp only [getNextStep] at hstep
    split at hstep
    · cases hstep
    · obtain ⟨rfl, rfl⟩ : _ ∧ _ := by simpa using hstep
      exact .inr trivial
    · split_ifs at hstep
      simp at hstep
  | wait =>
    obtain ⟨rfl, rfl⟩ : _ ∧ _ := by simpa [getNextStep] using hstep
    exact .inr trivial
  | waitCheck =>
    simp only [getNextStep, Option.some.injEq, Prod.mk.injEq, Sum.inl.injEq] at hstep
    obtain ⟨rfl, rfl⟩ := hstep
    split_ifs
    · exact .inr trivial
    · exact .inr trivial
  | waitInstruction =>
    obtain ⟨rfl, rfl⟩ : _ ∧ _ := by simpa [getNextStep] using hstep
    exact .inr trivial
  | waitEnable =>
    obtain ⟨rfl, rfl⟩ : _ ∧ _ := by simpa [getNextStep] using hstep
    exact .enter _

/-- The loop returns only from its scheduling decision. -/
theorem getNextStep_returns {k k' : Io S} {t : Turn π} {next : Fin tasks}
    {woken : List (Fin tasks)} {fuel : ℕ}
    (hstep : getNextStep woken fuel t k = some (.inr next, k')) :
    t = .select ∧ k'.irq = k.irq ∧ S.schedGetNext fuel k.sched = some (some next.val, k'.sched) := by
  cases t with
  | select =>
    simp only [getNextStep] at hstep
    split at hstep
    · cases hstep
    · simp at hstep
    · rename_i n sched hnext
      split_ifs at hstep with hlt
      obtain ⟨rfl, rfl⟩ : _ ∧ _ := by simpa using hstep
      exact ⟨rfl, rfl, hnext⟩
  | tickProcess pendingTicks =>
    obtain ⟨-, hstep⟩ := Option.ite_none_left_eq_some.mp hstep
    simp at hstep
  | process p | tick | tickTake | tickEnable pendingTicks | wait | waitCheck | waitInstruction
  | waitEnable => simp [getNextStep] at hstep

/-- The task the loop returns is the one to run, or a preemption is pending. -/
theorem Fresh.returns {k k' : Io S} {t : Turn π} {next : Fin tasks} (h : Fresh k t)
    (hS : ∀ fuel s r, S.schedGetNext fuel s = some r → r.2 = s) {woken : List (Fin tasks)} {fuel : ℕ}
    (hstep : getNextStep woken fuel t k = some (.inr next, k')) : Current π k' next := by
  obtain ⟨rfl, hirq, hnext⟩ := getNextStep_returns hstep
  have hsched : k'.sched = k.sched := hS _ _ _ hnext
  rw [← hsched] at hnext
  refine h.imp (fun hp => by rwa [hirq]) fun hq => ⟨?_, fuel, hnext⟩
  have hq : Quiet π k := hq
  rw [Quiet, hirq]
  exact hq

end Io

end Echronos
