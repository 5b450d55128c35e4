import Echronos.Ppce500.Port
import Echronos.Ppce500.Preempt

/-! # Preemption on PowerPC e500

    With preemption disabled, interrupts do no more than set `preempt_pending`, so that whatever is
    pending or was decided too early is taken up before preemption is enabled: `preempt_enable()`
    and the loop around the scheduler test `preempt_pending` with interrupts disabled, and they stay
    disabled until the task to run is the current task. -/

namespace Echronos.Ppce500

open Schemes

namespace Machine

variable {π : Port} {tasks mutexes : ℕ} {pos : 0 < tasks} {v : Preemptive tasks mutexes}
  {s s' : Machine π (v.sched pos)}

/-- Nothing is pending, not even a preemption, and `t` is the task to run. -/
def Settled (s : Machine π (v.sched pos)) (t : Fin tasks) : Prop :=
  s.kernel.io.irq.preemptPending = false ∧ Io.Current π s.kernel.io t

def Caller.Ok (s : Machine π (v.sched pos)) : Caller (Point π tasks) tasks → Prop
  | .yieldCommon fromTask _ => fromTask = s.kernel.currentTask
  | .schedulerWrapper initialPreemptDisabled srr0 srr1 =>
    initialPreemptDisabled = false ∧ srr0 = .app ∧ srr1 = true

def Leaving.Ok : Leaving (Point π tasks) → Prop
  | .syscallVector _ => True
  | .preemptIrqCommon srr0 srr1 => srr0 = .app ∧ srr1 = true

/-- What holds at a point, with interrupts known to be disabled at some of them. -/
def At (s : Machine π (v.sched pos)) : Point π tasks → Prop
  | .app => s.preemptDisabled = false ∧ s.kernel.io.irq.interruptsEnabled = true ∧
      Settled s s.kernel.currentTask
  | .body | .preemptEnable =>
    s.preemptDisabled = true ∧ Io.Current π s.kernel.io s.kernel.currentTask
  | .preemptEnableTest => s.preemptDisabled = true ∧ s.kernel.io.irq.interruptsEnabled = false ∧
      Io.Current π s.kernel.io s.kernel.currentTask
  | .preemptEnableYield | .yieldCommon _ => s.preemptDisabled = true
  | .preemptEnableStore => s.preemptDisabled = true ∧ s.kernel.io.irq.interruptsEnabled = false ∧
      Settled s s.kernel.currentTask
  | .preemptEnableEnd => s.preemptDisabled = false ∧ s.kernel.io.irq.interruptsEnabled = false ∧
      Settled s s.kernel.currentTask
  | .invokeEnable caller => s.preemptDisabled = true ∧ Caller.Ok s caller
  | .turn turn caller => s.preemptDisabled = true ∧ Caller.Ok s caller ∧ Io.Fresh s.kernel.io turn
  | .invokeDisable next caller => s.preemptDisabled = true ∧ Caller.Ok s caller ∧
      Io.Current π s.kernel.io next
  | .invokeTest next caller => s.preemptDisabled = true ∧ Caller.Ok s caller ∧
      s.kernel.io.irq.interruptsEnabled = false ∧ Io.Current π s.kernel.io next
  | .invoked next caller => s.preemptDisabled = true ∧ Caller.Ok s caller ∧
      s.kernel.io.irq.interruptsEnabled = false ∧ Settled s next
  | .yieldEnd returnWithPreemptDisabled => s.preemptDisabled = returnWithPreemptDisabled ∧
      s.kernel.io.irq.interruptsEnabled = false ∧ Settled s s.kernel.currentTask
  | .contextSwitch toTask leaving => s.preemptDisabled = true ∧ Leaving.Ok leaving ∧
      s.kernel.io.irq.interruptsEnabled = false ∧ Settled s toTask
  | .contextSwitchFirst toTask => s.preemptDisabled = true ∧
      s.kernel.io.irq.interruptsEnabled = false ∧ Settled s toTask

/-- A context from which a task resumes with the preemption status it must have. -/
def Context.Ok (preemptDisabled : Bool) (ctxt : Context π tasks) : Prop :=
  (ctxt.preemptRestoreStatus &&& 1 = 0 ↔ preemptDisabled = false) ∧
    match ctxt.srr0 with
    | .app => ctxt.srr1 = true ∧ preemptDisabled = false
    | .preemptEnable => preemptDisabled = true
    | .yieldEnd returnWithPreemptDisabled =>
      ctxt.srr1 = false ∧ preemptDisabled = returnWithPreemptDisabled
    | _ => False

structure Sound (s : Machine π (v.sched pos)) : Prop where
  agrees : s.kernel.Agrees
  point : At s s.point
  contexts : ∀ t, Context.Ok (Switch.owed t s.switches) (s.contexts t)
  resumed : Switch.Resumed s.switches

theorem Sound.start : Sound (start π v pos) where
  agrees := Preemptive.Agrees.start
  point := ⟨rfl, rfl, rfl, .inr ⟨⟨fun i _ => by simp [Machine.start, Tasks.start], rfl⟩,
    Preemptive.selects_start⟩⟩
  contexts _ := ⟨(preemptStatus_and_one true true).trans Iff.rfl, rfl⟩
  resumed := trivial

/-- A step that switches no task. -/
theorem Sound.moved (h : Sound s) (hcontexts : s'.contexts = s.contexts)
    (hswitches : s'.switches = s.switches) (hagrees : s'.kernel.Agrees) (hpoint : At s' s'.point) :
    Sound s' where
  agrees := hagrees
  point := hpoint
  contexts t := by
    rw [hcontexts, hswitches]
    exact h.contexts t
  resumed := by
    rw [hswitches]
    exact h.resumed

/-- An interrupt while preemption is disabled makes a preemption pending, and it was not taken at a
    point that is reached with interrupts disabled. -/
theorem At.pend {p : Point π tasks} (h : At s p) (hd : s.preemptDisabled = true)
    (henabled : s.kernel.io.irq.interruptsEnabled = true) {f : Irq → Irq}
    (hf : (f s.kernel.io.irq).preemptPending = true) : At (onIrq f s) p := by
  have hcurrent : ∀ t, Io.Current π (onIrq f s).kernel.io t := fun _ => .inl hf
  cases p with
  | app => simp [h.1] at hd
  | body => exact ⟨hd, hcurrent _⟩
  | preemptEnable => exact ⟨hd, hcurrent _⟩
  | preemptEnableYield => exact hd
  | yieldCommon returnWithPreemptDisabled => exact hd
  | invokeEnable caller => exact ⟨hd, h.2⟩
  | turn turn caller => exact ⟨hd, h.2.1, .inl hf⟩
  | invokeDisable next caller => exact ⟨hd, h.2.1, hcurrent _⟩
  | preemptEnableTest => simp [h.2.1] at henabled
  | preemptEnableStore => simp [h.2.1] at henabled
  | preemptEnableEnd => simp [h.2.1] at henabled
  | yieldEnd returnWithPreemptDisabled => simp [h.2.1] at henabled
  | contextSwitchFirst toTask => simp [h.2.1] at henabled
  | invokeTest next caller => simp [h.2.2.1] at henabled
  | invoked next caller => simp [h.2.2.1] at henabled
  | contextSwitch toTask leaving => simp [h.2.2.1] at henabled

/-- With preemption and interrupts enabled, the task executes application code. -/
theorem At.app {p : Point π tasks} (h : At s p) (hd : s.preemptDisabled = false)
    (henabled : s.kernel.io.irq.interruptsEnabled = true) : p = .app := by
  cases p with
  | app => rfl
  | preemptEnableEnd => simp [h.2.1] at henabled
  | yieldEnd returnWithPreemptDisabled => simp [h.2.1] at henabled
  | preemptEnableYield => simp [At, hd] at h
  | yieldCommon returnWithPreemptDisabled => simp [At, hd] at h
  | body | preemptEnable | preemptEnableTest | preemptEnableStore => simp [h.1] at hd
  | invokeEnable caller | turn turn caller => simp [h.1] at hd
  | invokeDisable next caller | invokeTest next caller | invoked next caller => simp [h.1] at hd
  | contextSwitch toTask leaving => simp [h.1] at hd
  | contextSwitchFirst toTask => simp [h.1] at hd

theorem Sound.interrupt (h : Sound s) (henabled : s.kernel.io.irq.interruptsEnabled = true)
    (raised : List (Fin π.interruptEvents)) (tick : Bool) : Sound (interrupt raised tick s) := by
  unfold Machine.interrupt
  split_ifs with hd
  · exact h.moved rfl rfl h.agrees (h.point.pend hd henabled rfl)
  · have hd : s.preemptDisabled = false := by simpa using hd
    exact h.moved rfl rfl h.agrees ⟨rfl, hd, h.point.app hd henabled, rfl⟩

/-- The scheduler has selected the task to run. -/
theorem Sound.invoked (h : Sound s) {next : Fin tasks} {caller : Caller (Point π tasks) tasks}
    (hp : At s (.invoked next caller)) : Sound (invoked next caller s) := by
  obtain ⟨hd, hcaller, henabled, hsettled⟩ := hp
  cases caller with
  | yieldCommon fromTask returnWithPreemptDisabled =>
    obtain rfl : fromTask = s.kernel.currentTask := hcaller
    simp only [Machine.invoked]
    split_ifs with hne
    · exact h.moved rfl rfl h.agrees ⟨hd, trivial, henabled, hsettled⟩
    · rw [not_not] at hne
      exact h.moved rfl rfl h.agrees ⟨rfl, henabled, hne ▸ hsettled⟩
  | schedulerWrapper initialPreemptDisabled srr0 srr1 =>
    obtain ⟨rfl, rfl, rfl⟩ := hcaller
    simp only [Machine.invoked]
    split_ifs with heq
    · exact h.moved rfl rfl h.agrees ⟨rfl, rfl, heq ▸ hsettled⟩
    · exact h.moved rfl rfl h.agrees ⟨hd, ⟨rfl, rfl⟩, henabled, hsettled⟩

/-- The outgoing task's context is saved with the status it must resume with. -/
theorem Sound.contextSwitch (h : Sound s) {toTask : Fin tasks} {leaving : Leaving (Point π tasks)}
    (hp : At s (.contextSwitch toTask leaving)) : Sound (contextSwitch toTask leaving s) := by
  obtain ⟨hd, hleaving, henabled, hsettled⟩ := hp
  have hsaved : ∃ b, Context.Ok b (saved leaving s).1 ∧
      (∀ t, Switch.owed t ((saved leaving s).2 :: s.switches) =
        if s.kernel.currentTask = t then b else Switch.owed t s.switches) ∧
      (Switch.Resumed s.switches → Switch.Resumed ((saved leaving s).2 :: s.switches)) := by
    cases leaving with
    | syscallVector returnWithPreemptDisabled =>
      exact ⟨returnWithPreemptDisabled, ⟨preemptStatus_and_one _ _, henabled, rfl⟩, fun _ => rfl, id⟩
    | preemptIrqCommon srr0 srr1 =>
      obtain ⟨rfl, rfl⟩ := hleaving
      exact ⟨false, ⟨preemptStatus_and_one _ _, rfl, rfl⟩, fun _ => rfl, id⟩
  obtain ⟨b, hb, howed, hresumed⟩ := hsaved
  refine ⟨h.agrees, ⟨hd, henabled, hsettled⟩, fun t => ?_, hresumed h.resumed⟩
  show Context.Ok (Switch.owed t ((saved leaving s).2 :: s.switches))
    (Function.update s.contexts s.kernel.currentTask (saved leaving s).1 t)
  rw [howed]
  by_cases ht : s.kernel.currentTask = t
  · subst ht
    rw [if_pos rfl, Function.update_self]
    exact hb
  · rw [if_neg ht, Function.update_of_ne (Ne.symm ht)]
    exact h.contexts t

/-- The incoming task resumes with the status its context was saved with. -/
theorem Sound.contextSwitchFirst (h : Sound s) {toTask : Fin tasks}
    (hp : At s (.contextSwitchFirst toTask)) : Sound (contextSwitchFirst toTask s) := by
  obtain ⟨hd, -, hpending, hcurrent⟩ := hp
  obtain ⟨hstatus, hresume⟩ := h.contexts toTask
  have hdisabled : (Machine.contextSwitchFirst toTask s).preemptDisabled =
      Switch.owed toTask s.switches := by
    show (if (s.contexts toTask).preemptRestoreStatus &&& 1 = 0 then false else s.preemptDisabled) = _
    split_ifs with hbit
    · exact (hstatus.mp hbit).symm
    · rw [hd]
      exact (by simpa using mt hstatus.mpr hbit : Switch.owed toTask s.switches = true).symm
  refine ⟨h.agrees, ?_, h.contexts, hdisabled, h.resumed⟩
  show At (Machine.contextSwitchFirst toTask s) (s.contexts toTask).srr0
  cases hsrr0 : (s.contexts toTask).srr0 with
  | app =>
    rw [hsrr0] at hresume
    exact ⟨hdisabled.trans hresume.2, hresume.1, hpending, hcurrent⟩
  | preemptEnable =>
    rw [hsrr0] at hresume
    exact ⟨hdisabled.trans hresume, hcurrent⟩
  | yieldEnd returnWithPreemptDisabled =>
    rw [hsrr0] at hresume
    exact ⟨hdisabled.trans hresume.2, hresume.1, hpending, hcurrent⟩
  | body | preemptEnableTest | preemptEnableYield | preemptEnableStore | preemptEnableEnd
  | yieldCommon _ | invokeEnable _ | turn _ _ | invokeDisable _ _ | invokeTest _ _ | invoked _ _
  | contextSwitch _ _ | contextSwitchFirst _ =>
    rw [hsrr0] at hresume
    exact hresume.elim

/-- A turn of the scheduler's loop. -/
theorem Sound.turn (h : Sound s) {turn : Turn π} {caller : Caller (Point π tasks) tasks}
    (hp : At s (.turn turn caller)) {woken : List (Fin tasks)} {fuel : ℕ}
    {r : (Turn π ⊕ Fin tasks) × Io (v.sched pos)}
    (hr : Io.getNextStep woken fuel turn s.kernel.io = some r) :
    Sound { s with
      kernel := { s.kernel with io := r.2 }
      point := match r.1 with
        | .inl turn => .turn turn caller
        | .inr next => .invokeDisable next caller } := by
  obtain ⟨hd, hcaller, hfresh⟩ := hp
  have hagrees := Tasks.agrees_getNextStep h.agrees hr
  obtain ⟨r, k⟩ := r
  cases r with
  | inl turn' => exact h.moved rfl rfl hagrees ⟨hd, hcaller, hfresh.next hr⟩
  | inr next =>
    have hcurrent := hfresh.returns (fun _ _ _ => Preemptive.state_schedGetNext _ _ _) hr
    exact h.moved rfl rfl hagrees ⟨hd, hcaller, hcurrent⟩

/-- Execution goes on by one statement. -/
theorem Sound.next (h : Sound s) {woken : List (Fin tasks)} {fuel : ℕ}
    (hstep : next woken fuel s = some s') : Sound s' := by
  have hpoint := h.point
  cases hp : s.point with
  | app | body => simp [Machine.next, hp] at hstep
  | preemptEnable =>
    rw [hp] at hpoint
    simp only [Machine.next, hp, Option.some.injEq] at hstep
    subst hstep
    exact h.moved rfl rfl h.agrees ⟨hpoint.1, rfl, hpoint.2⟩
  | preemptEnableTest =>
    rw [hp] at hpoint
    obtain ⟨hd, henabled, hcurrent⟩ := hpoint
    simp only [Machine.next, hp, Option.some.injEq] at hstep
    subst hstep
    cases hpending : s.kernel.io.irq.preemptPending with
    | true => exact h.moved rfl rfl h.agrees hd
    | false => exact h.moved rfl rfl h.agrees ⟨hd, henabled, hpending, hcurrent⟩
  | preemptEnableYield =>
    rw [hp] at hpoint
    simp only [Machine.next, hp, Option.some.injEq] at hstep
    subst hstep
    exact h.moved rfl rfl h.agrees hpoint
  | preemptEnableStore =>
    rw [hp] at hpoint
    simp only [Machine.next, hp, Option.some.injEq] at hstep
    subst hstep
    exact h.moved rfl rfl h.agrees ⟨rfl, hpoint.2⟩
  | preemptEnableEnd =>
    rw [hp] at hpoint
    simp only [Machine.next, hp, Option.some.injEq] at hstep
    subst hstep
    exact h.moved rfl rfl h.agrees ⟨hpoint.1, rfl, hpoint.2.2⟩
  | yieldCommon returnWithPreemptDisabled =>
    rw [hp] at hpoint
    simp only [Machine.next, hp, Option.some.injEq] at hstep
    subst hstep
    exact h.moved rfl rfl h.agrees ⟨hpoint, rfl⟩
  | invokeEnable caller =>
    rw [hp] at hpoint
    simp only [Machine.next, hp, Option.some.injEq] at hstep
    subst hstep
    exact h.moved rfl rfl h.agrees ⟨hpoint.1, hpoint.2, .enter _⟩
  | turn turn caller =>
    rw [hp] at hpoint
    simp only [Machine.next, hp] at hstep
    obtain ⟨r, hr, rfl⟩ := Option.map_eq_some_iff.mp hstep
    exact h.turn hpoint hr
  | invokeDisable next caller =>
    rw [hp] at hpoint
    simp only [Machine.next, hp, Option.some.injEq] at hstep
    subst hstep
    exact h.moved rfl rfl h.agrees ⟨hpoint.1, hpoint.2.1, rfl, hpoint.2.2⟩
  | invokeTest next caller =>
    rw [hp] at hpoint
    obtain ⟨hd, hcaller, henabled, hcurrent⟩ := hpoint
    simp only [Machine.next, hp, Option.some.injEq] at hstep
    subst hstep
    cases hpending : s.kernel.io.irq.preemptPending with
    | true => exact h.moved rfl rfl h.agrees ⟨hd, hcaller⟩
    | false => exact h.moved rfl rfl h.agrees ⟨hd, hcaller, henabled, hpending, hcurrent⟩
  | invoked next caller =>
    rw [hp] at hpoint
    simp only [Machine.next, hp, Option.some.injEq] at hstep
    subst hstep
    exact h.invoked hpoint
  | yieldEnd returnWithPreemptDisabled =>
    rw [hp] at hpoint
    obtain ⟨hd, -, hpending, hcurrent⟩ := hpoint
    simp only [Machine.next, hp, Option.some.injEq] at hstep
    subst hstep
    cases returnWithPreemptDisabled with
    | true => exact h.moved rfl rfl h.agrees ⟨hd, hcurrent⟩
    | false => exact h.moved rfl rfl h.agrees ⟨hd, rfl, hpending, hcurrent⟩
  | contextSwitch toTask leaving =>
    rw [hp] at hpoint
    simp only [Machine.next, hp, Option.some.injEq] at hstep
    subst hstep
    exact h.contextSwitch hpoint
  | contextSwitchFirst toTask =>
    rw [hp] at hpoint
    simp only [Machine.next, hp, Option.some.injEq] at hstep
    subst hstep
    exact h.contextSwitchFirst hpoint

theorem point_of_inBody (h : s.inBody = true) : s.point = .body := by
  unfold inBody at h
  split at h
  · assumption
  · cases h

theorem point_of_inApp (h : s.inApp = true) : s.point = .app := by
  unfold inApp at h
  split at h
  · assumption
  · cases h

theorem Sound.step (h : Sound s) {a : Act π tasks mutexes} (hstep : step a s = some s') :
    Sound s' := by
  have hbody : s.inBody = true →
      s.preemptDisabled = true ∧ Io.Current π s.kernel.io s.kernel.currentTask := by
    intro hb
    have hpoint := h.point
    rwa [point_of_inBody hb] at hpoint
  cases a with
  | interrupt raised tick =>
    obtain ⟨henabled, ⟨⟩⟩ := Option.ite_none_right_eq_some.mp hstep
    exact h.interrupt henabled raised tick
  | preemptDisable =>
    obtain ⟨happ, ⟨⟩⟩ := Option.ite_none_right_eq_some.mp hstep
    have hpoint := h.point
    rw [point_of_inApp happ] at hpoint
    exact h.moved rfl rfl h.agrees ⟨rfl, hpoint.2.2.2⟩
  | op o =>
    obtain ⟨hb, ⟨⟩⟩ := Option.ite_none_right_eq_some.mp hstep
    have hcurrent := Tasks.current_op (hbody hb).2 h.agrees o
    refine h.moved rfl rfl (h.agrees.op o) ?_
    show At _ s.point
    rw [point_of_inBody hb]
    exact ⟨(hbody hb).1, hcurrent⟩
  | blockOn blocker =>
    obtain ⟨hb, ⟨⟩⟩ := Option.ite_none_right_eq_some.mp hstep
    exact h.moved rfl rfl (h.agrees.blockOn blocker) (hbody hb).1
  | yield =>
    obtain ⟨hb, ⟨⟩⟩ := Option.ite_none_right_eq_some.mp hstep
    exact h.moved rfl rfl h.agrees (hbody hb).1
  | preemptEnable =>
    obtain ⟨hb, ⟨⟩⟩ := Option.ite_none_right_eq_some.mp hstep
    exact h.moved rfl rfl h.agrees (hbody hb)
  | next woken fuel => exact h.next hstep

theorem Reached.sound (h : s.Reached) : Sound s :=
  h.invariant .start fun _ _ _ _ hs _ hstep => hs.step hstep

end Machine

open Machine

/-- A task that executes with interrupts and preemption enabled is the one to run, with nothing
    pending, and every task was restored with the preemption status it had to have. -/
theorem preemption_strict (interruptEvents tasks mutexes : ℕ) (pos : 0 < tasks)
    (v : Preemptive tasks mutexes) (s : Machine (port interruptEvents true) (v.sched pos))
    (h : s.Reached) :
    (s.kernel.io.irq.interruptsEnabled = true → s.preemptDisabled = false →
      s.kernel.io.irq.preemptPending = false ∧ Io.Quiet (port interruptEvents true) s.kernel.io ∧
      Io.Selects (v.sched pos) s.kernel.io.sched s.kernel.currentTask) ∧
    Switch.Resumed s.switches := by
  have hs := h.sound
  refine ⟨fun henabled hd => ?_, hs.resumed⟩
  have hpoint := hs.point
  rw [hpoint.app hd henabled] at hpoint
  obtain ⟨-, -, hpending, hcurrent⟩ := hpoint
  exact ⟨hpending, hcurrent.resolve_left (by simp [hpending])⟩

/-- Two tasks of Kochab, without interrupt events and mutexes. -/
abbrev twoTasks : Preemptive 2 0 := .kochab

/-- Task 0 blocks, and the tick that unblocks it preempts task 1. -/
def blockAndPreempt : List (Act (port 0 true) 2 0) :=
  let goOn (n : ℕ) : List (Act (port 0 true) 2 0) := .replicate n (.next [0] 1)
  goOn 5 ++ [Act.preemptDisable, .blockOn none] ++ goOn 17 ++ [Act.interrupt [] true] ++ goOn 22 ++
    [Act.preemptEnable] ++ goOn 4

/-- Task 0 executes again, the selected one, and task 1 is to resume with preemption enabled. -/
theorem preemption_strict_preempted : ∃ s : Machine (port 0 true) (twoTasks.sched Nat.two_pos),
    s.kernel.currentTask = 0 ∧ Switch.owed 1 s.switches = false ∧
      Io.Selects (twoTasks.sched Nat.two_pos) s.kernel.io.sched s.kernel.currentTask := by
  have hrun : (run step (fun _ _ => true) blockAndPreempt
      (Machine.start (port 0 true) twoTasks Nat.two_pos)).any
      (fun s => s.kernel.currentTask = 0 ∧ Switch.owed 1 s.switches = false ∧
        s.kernel.io.irq.interruptsEnabled = true ∧ s.preemptDisabled = false) = true := by
    decide +kernel
  obtain ⟨s, hs, hp⟩ := exists_reach_of_run (fun _ _ _ _ => trivial) hrun
  obtain ⟨htask, howed, henabled, hd⟩ := of_decide_eq_true hp
  exact ⟨s, htask, howed, ((preemption_strict 0 2 0 Nat.two_pos twoTasks s hs).1 henabled hd).2.2⟩

end Echronos.Ppce500
