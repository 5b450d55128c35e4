import Echronos.Armv7m.InterruptEvent
import Echronos.Armv7m.Preempt

/-! # Preemption on ARMv7-M

    A user handler that has raised work pends PendSV before it returns, and only the PendSV handler
    clears the pending bit, in front of its run of the scheduler. So whatever is pending when no
    handler is active is covered by that run or by one to come, and a task executes with BASEPRI
    zero and PendSV not pending only if it is the one to run.

    The scheduler's runs can be interrupted; the switches of tasks are correct because the two
    handlers leave BASEPRI as the frame of the incoming task says. -/

namespace Echronos.Armv7m

open Schemes

/-- Whether preemption is disabled where a task executes. -/
def Thread.preemptDisabled : Thread → Bool
  | .app | .preemptEnableWait => false
  | .body | .preemptEnable => true

/-- A context from which a task resumes with the preemption status it must have. -/
def Context.Ok (preemptDisabled : Bool) (ctxt : Context) : Prop :=
  ctxt.preemptDisabled = preemptDisabled ∧ ctxt.pc.preemptDisabled = preemptDisabled

namespace Machine

variable {π : Port} {tasks mutexes : ℕ} {pos : 0 < tasks} {v : Preemptive tasks mutexes}
  {s s' : Machine π (v.sched pos)}

/-- `p`, unless a user handler is still to pend PendSV. -/
def Ahead (s : Machine π (v.sched pos)) (p : Prop) : Prop := true ∈ s.handlers ∨ p

/-- The status that the current task must resume with. -/
def owed (s : Machine π (v.sched pos)) : Bool := Switch.owed s.kernel.currentTask s.switches

/-- What holds at a point. -/
def At (s : Machine π (v.sched pos)) : Point π tasks → Prop
  | .thread pc => s.basepri = pc.preemptDisabled ∧
      s.Ahead (Io.Current π s.kernel.io s.kernel.currentTask)
  | .svc turn pc => s.basepri = true ∧ pc.preemptDisabled = true ∧ s.owed = true ∧
      s.Ahead (Io.Fresh s.kernel.io turn)
  | .svcSwitch newTask pc => s.basepri = true ∧ pc.preemptDisabled = true ∧ s.owed = true ∧
      s.Ahead (Io.Current π s.kernel.io newTask)
  | .svcReturn ctxt => s.basepri = true ∧ ctxt.Ok s.owed ∧
      s.Ahead (Io.Current π s.kernel.io s.kernel.currentTask)
  | .pendsvClear pc => s.basepri = false ∧ pc.preemptDisabled = false ∧ s.owed = false
  | .pendsv turn pc => s.basepri = false ∧ pc.preemptDisabled = false ∧ s.owed = false ∧
      s.Ahead (Io.Fresh s.kernel.io turn)
  | .pendsvSwitch newTask pc => s.basepri = false ∧ pc.preemptDisabled = false ∧ s.owed = false ∧
      s.Ahead (Io.Current π s.kernel.io newTask)
  | .pendsvReturn ctxt => s.basepri = false ∧ ctxt.Ok s.owed ∧
      s.Ahead (Io.Current π s.kernel.io s.kernel.currentTask)

structure Sound (s : Machine π (v.sched pos)) : Prop where
  agrees : s.kernel.Agrees
  point : At s s.point
  contexts : ∀ t, t ≠ s.kernel.currentTask → (s.contexts t).Ok (Switch.owed t s.switches)
  resumed : Switch.Resumed s.switches

theorem Sound.start : Sound (start π v pos) where
  agrees := Preemptive.Agrees.start
  point := ⟨rfl, .inr (.inr ⟨⟨fun i _ => by simp [Machine.start, Tasks.start], rfl⟩,
    Preemptive.selects_start⟩)⟩
  contexts _ _ := ⟨rfl, rfl⟩
  resumed := ⟨rfl, trivial⟩

/-- A step that switches no task and enters or leaves no handler of the RTOS. -/
theorem Sound.moved (h : Sound s) (hcontexts : s'.contexts = s.contexts)
    (hcurrent : s'.kernel.currentTask = s.kernel.currentTask) (hswitches : s'.switches = s.switches)
    (hagrees : s'.kernel.Agrees) (hpoint : At s' s'.point) : Sound s' where
  agrees := hagrees
  point := hpoint
  contexts t ht := by
    rw [hcontexts, hswitches]
    exact h.contexts t (hcurrent ▸ ht)
  resumed := by
    rw [hswitches]
    exact h.resumed

/-- A user handler takes a step after which it is still to pend PendSV, or PendSV is pending, or
    both are as they were. -/
theorem At.handler {p : Point π tasks} (h : At s p) {f : Irq → Irq} {handlers : List Bool}
    (hahead : true ∈ handlers ∨ (f s.kernel.io.irq).preemptPending = true ∨
      (f = id ∧ (true ∈ s.handlers → true ∈ handlers))) :
    At { onIrq f s with handlers := handlers } p := by
  have hcurrent {t : Fin tasks} (ht : s.Ahead (Io.Current π s.kernel.io t)) :
      Ahead { onIrq f s with handlers := handlers } (Io.Current π (onIrq f s).kernel.io t) := by
    rcases hahead with hw | hp | ⟨rfl, hmem⟩
    · exact .inl hw
    · exact .inr (.inl hp)
    · exact ht.imp hmem id
  have hfresh {turn : Turn π} (ht : s.Ahead (Io.Fresh s.kernel.io turn)) :
      Ahead { onIrq f s with handlers := handlers } (Io.Fresh (onIrq f s).kernel.io turn) := by
    rcases hahead with hw | hp | ⟨rfl, hmem⟩
    · exact .inl hw
    · exact .inr (.inl hp)
    · exact ht.imp hmem id
  cases p with
  | thread pc => exact ⟨h.1, hcurrent h.2⟩
  | svc turn pc => exact ⟨h.1, h.2.1, h.2.2.1, hfresh h.2.2.2⟩
  | svcSwitch newTask pc => exact ⟨h.1, h.2.1, h.2.2.1, hcurrent h.2.2.2⟩
  | svcReturn ctxt => exact ⟨h.1, h.2.1, hcurrent h.2.2⟩
  | pendsvClear pc => exact h
  | pendsv turn pc => exact ⟨h.1, h.2.1, h.2.2.1, hfresh h.2.2.2⟩
  | pendsvSwitch newTask pc => exact ⟨h.1, h.2.1, h.2.2.1, hcurrent h.2.2.2⟩
  | pendsvReturn ctxt => exact ⟨h.1, h.2.1, hcurrent h.2.2⟩

theorem Sound.handler (h : Sound s) {f : Irq → Irq} {raises : Bool}
    (hf : raises = true ∨ ∀ q, (f q).preemptPending = true)
    (hstep : handler f raises s = some s') : Sound s' := by
  unfold Machine.handler at hstep
  split at hstep
  · cases hstep
  · cases hstep
    refine h.moved rfl rfl rfl h.agrees (h.point.handler ?_)
    rcases hf with rfl | hf
    · exact .inl List.mem_cons_self
    · exact .inr (.inl (hf _))

/-- Exception return with the status the interrupted task must resume with. -/
theorem Sound.exceptionReturn {pc : Thread} (hagrees : s.kernel.Agrees)
    (hcontexts : ∀ t, t ≠ s.kernel.currentTask → (s.contexts t).Ok (Switch.owed t s.switches))
    (hresumed : Switch.Resumed s.switches) (hpc : s.basepri = pc.preemptDisabled)
    (howed : s.basepri = s.owed) (hahead : s.Ahead (Io.Current π s.kernel.io s.kernel.currentTask)) :
    Sound (exceptionReturn pc s) :=
  ⟨hagrees, ⟨hpc, hahead⟩, hcontexts, howed, hresumed⟩

/-- The frame of the outgoing task says what it must resume with, and so does the incoming one. -/
theorem Sound.contextSwitch (h : Sound s) {newTask : Fin tasks} {ctxt : Context}
    {goOn : Context → Point π tasks} (hctxt : ctxt.Ok s.owed) (hne : s.kernel.currentTask ≠ newTask)
    (hpoint : (s.contexts newTask).Ok (Switch.owed newTask s.switches) →
      At (contextSwitch newTask ctxt s) (goOn (s.contexts newTask))) :
    Sound (goto (goOn (s.contexts newTask)) (contextSwitch newTask ctxt s)) := by
  refine ⟨h.agrees, ?_, fun t ht => ?_, h.resumed⟩
  · have hat := hpoint (h.contexts newTask (Ne.symm hne))
    cases hp : goOn (s.contexts newTask) with
    | thread pc | svc turn pc | svcSwitch newTask pc | svcReturn ctxt | pendsvClear pc
    | pendsv turn pc | pendsvSwitch newTask pc | pendsvReturn ctxt =>
      rw [hp] at hat
      exact hat
  · show (Function.update s.contexts s.kernel.currentTask ctxt t).Ok (Switch.owed t s.switches)
    by_cases hcurrent : t = s.kernel.currentTask
    · subst hcurrent
      rw [Function.update_self]
      exact hctxt
    · rw [Function.update_of_ne hcurrent]
      exact h.contexts t hcurrent

/-- The scheduler has selected a task in a handler that has entered with the status `b`. -/
theorem Sound.selected (h : Sound s) {b : Bool} {pc : Thread} {newTask : Fin tasks}
    {goOn : Context → Point π tasks} (hb : s.basepri = b) (hpc : pc.preemptDisabled = b)
    (howed : s.owed = b) (hahead : s.Ahead (Io.Current π s.kernel.io newTask))
    (hstep : (if s.kernel.currentTask = newTask then some (Machine.exceptionReturn pc s)
      else some (goto (goOn (s.contexts newTask))
        (Machine.contextSwitch newTask ⟨b, pc⟩ s))) = some s')
    (hpoint : (s.contexts newTask).Ok (Switch.owed newTask s.switches) →
      At (Machine.contextSwitch newTask ⟨b, pc⟩ s) (goOn (s.contexts newTask))) : Sound s' := by
  split_ifs at hstep with heq
  · obtain rfl := Option.some.inj hstep
    exact .exceptionReturn h.agrees h.contexts h.resumed (hb.trans hpc.symm) (hb.trans howed.symm)
      (heq ▸ hahead)
  · obtain rfl := Option.some.inj hstep
    exact h.contextSwitch ⟨howed.symm, hpc.trans howed.symm⟩ heq hpoint

/-- Exception return into a task's context, with the status its frame says. -/
theorem Sound.restored (h : Sound s) {ctxt : Context} (hok : ctxt.Ok s.owed)
    (hahead : s.Ahead (Io.Current π s.kernel.io s.kernel.currentTask)) :
    Sound (Machine.exceptionReturn ctxt.pc { s with basepri := ctxt.preemptDisabled }) :=
  .exceptionReturn (s := { s with basepri := ctxt.preemptDisabled }) h.agrees h.contexts h.resumed
    (hok.1.trans hok.2.symm) hok.1 hahead

/-- A turn of the scheduler's loop in a handler. -/
theorem Sound.getNext (h : Sound s) (hhandlers : s.handlers = []) {turn : Turn π}
    (hfresh : s.Ahead (Io.Fresh s.kernel.io turn)) {woken : List (Fin tasks)} {fuel : ℕ}
    {goOn : Turn π → Point π tasks} {returned : Fin tasks → Point π tasks}
    (hstep : getNext woken fuel turn goOn returned s = some s')
    (hgoOn : ∀ (k : Io (v.sched pos)) turn', Io.Fresh k turn' →
      At { s with kernel := { s.kernel with io := k }, point := goOn turn' } (goOn turn'))
    (hreturned : ∀ (k : Io (v.sched pos)) newTask, Io.Current π k newTask →
      At { s with kernel := { s.kernel with io := k }, point := returned newTask }
        (returned newTask)) : Sound s' := by
  have hfresh : Io.Fresh s.kernel.io turn := hfresh.resolve_left (by simp [hhandlers])
  obtain ⟨r, hr, rfl⟩ := Option.map_eq_some_iff.mp hstep
  have hagrees := Tasks.agrees_getNextStep h.agrees hr
  obtain ⟨r, k⟩ := r
  cases r with
  | inl turn' => exact h.moved rfl rfl rfl hagrees (hgoOn k turn' (hfresh.next hr))
  | inr newTask =>
    have hcurrent := hfresh.returns (fun _ _ _ => Preemptive.state_schedGetNext _ _ _) hr
    exact h.moved rfl rfl rfl hagrees (hreturned k newTask hcurrent)

/-- Execution goes on by one statement. -/
theorem Sound.next (h : Sound s) (hhandlers : s.handlers = []) {woken : List (Fin tasks)}
    {fuel : ℕ} (hstep : next woken fuel s = some s') : Sound s' := by
  have hpoint := h.point
  cases hp : s.point with
  | thread pc =>
    rw [hp] at hpoint
    cases pc with
    | app | body => simp [Machine.next, hp] at hstep
    | preemptEnable =>
      simp only [Machine.next, hp, Option.some.injEq] at hstep
      subst hstep
      exact h.moved rfl rfl rfl h.agrees ⟨rfl, hpoint.2⟩
    | preemptEnableWait =>
      simp only [Machine.next, hp, Option.some.injEq] at hstep
      subst hstep
      cases hpending : s.kernel.io.irq.preemptPending with
      | true => exact h.moved rfl rfl rfl h.agrees hpoint
      | false => exact h.moved rfl rfl rfl h.agrees hpoint
  | svc turn pc =>
    rw [hp] at hpoint
    obtain ⟨hb, hpc, howed, hfresh⟩ := hpoint
    simp only [Machine.next, hp] at hstep
    exact h.getNext hhandlers hfresh hstep (fun k turn' hk => ⟨hb, hpc, howed, .inr hk⟩)
      (fun k newTask hk => ⟨hb, hpc, howed, .inr hk⟩)
  | svcSwitch newTask pc =>
    rw [hp] at hpoint
    obtain ⟨hb, hpc, howed, hahead⟩ := hpoint
    simp only [Machine.next, hp] at hstep
    exact h.selected hb hpc howed hahead hstep fun hctxt => ⟨hb, hctxt, hahead⟩
  | svcReturn ctxt =>
    rw [hp] at hpoint
    obtain ⟨hb, hok, hahead⟩ := hpoint
    simp only [Machine.next, hp] at hstep
    obtain rfl := Option.some.inj hstep
    have hrestored := h.restored hok hahead
    cases hd : ctxt.preemptDisabled with
    | true =>
      rw [hd, ← hb] at hrestored
      exact hrestored
    | false =>
      rw [hd] at hrestored
      exact hrestored
  | pendsvClear pc =>
    rw [hp] at hpoint
    obtain ⟨hb, hpc, howed⟩ := hpoint
    simp only [Machine.next, hp] at hstep
    obtain rfl := Option.some.inj hstep
    exact h.moved rfl rfl rfl h.agrees ⟨hb, hpc, howed, .inr (.enter _)⟩
  | pendsv turn pc =>
    rw [hp] at hpoint
    obtain ⟨hb, hpc, howed, hfresh⟩ := hpoint
    simp only [Machine.next, hp] at hstep
    exact h.getNext hhandlers hfresh hstep (fun k turn' hk => ⟨hb, hpc, howed, .inr hk⟩)
      (fun k newTask hk => ⟨hb, hpc, howed, .inr hk⟩)
  | pendsvSwitch newTask pc =>
    rw [hp] at hpoint
    obtain ⟨hb, hpc, howed, hahead⟩ := hpoint
    simp only [Machine.next, hp] at hstep
    exact h.selected hb hpc howed hahead hstep fun hctxt => ⟨hb, hctxt, hahead⟩
  | pendsvReturn ctxt =>
    rw [hp] at hpoint
    obtain ⟨hb, hok, hahead⟩ := hpoint
    simp only [Machine.next, hp] at hstep
    obtain rfl := Option.some.inj hstep
    have hrestored := h.restored hok hahead
    cases hd : ctxt.preemptDisabled with
    | true =>
      rw [hd] at hrestored
      exact hrestored
    | false =>
      rw [hd, ← hb] at hrestored
      exact hrestored

theorem of_thread {pc : Thread} (h : s.thread = some pc) :
    s.handlers = [] ∧ s.point = .thread pc := by
  unfold thread at h
  split at h
  · rename_i hhandlers hpoint
    exact ⟨hhandlers, Option.some.inj h ▸ hpoint⟩
  · cases h

theorem thread_of_inBody (h : s.inBody = true) : s.thread = some .body := by
  unfold inBody at h
  split at h
  · assumption
  · cases h

/-- A task yields with preemption disabled, after it may have changed the scheduler's state. -/
theorem Sound.svc (h : Sound s) (hb : s.basepri = true) {kernel : Tasks (v.sched pos)}
    (hagrees : kernel.Agrees) (hcurrent : kernel.currentTask = s.kernel.currentTask) :
    Sound (svc { s with kernel := kernel }) where
  agrees := hagrees
  point := ⟨hb, rfl, if_pos rfl, .inr (.enter _)⟩
  contexts t ht := by
    have ht : t ≠ kernel.currentTask := ht
    show (s.contexts t).Ok (if kernel.currentTask = t then true else Switch.owed t s.switches)
    rw [if_neg (Ne.symm ht)]
    exact h.contexts t (hcurrent ▸ ht)
  resumed := h.resumed

/-- PendSV interrupts a task. -/
theorem Sound.pendsv (h : Sound s) {pc : Thread} (hb : s.basepri = false)
    (hpc : pc.preemptDisabled = false) :
    Sound (π := π) { onIrq Irq.preemptClear s with
      point := .pendsvClear pc
      switches := .preempted s.kernel.currentTask :: s.switches } where
  agrees := h.agrees
  point := ⟨hb, hpc, if_pos rfl⟩
  contexts t ht := by
    have ht : t ≠ s.kernel.currentTask := ht
    show (s.contexts t).Ok (if s.kernel.currentTask = t then false else Switch.owed t s.switches)
    rw [if_neg (Ne.symm ht)]
    exact h.contexts t ht
  resumed := h.resumed

/-- What holds where a task executes. -/
theorem Sound.thread (h : Sound s) {pc : Thread} (hpc : s.thread = some pc) :
    s.point = .thread pc ∧ s.basepri = pc.preemptDisabled ∧
      Io.Current π s.kernel.io s.kernel.currentTask := by
  obtain ⟨hhandlers, hp⟩ := of_thread hpc
  have hpoint := h.point
  rw [hp] at hpoint
  exact ⟨hp, hpoint.1, hpoint.2.resolve_left (by simp [hhandlers])⟩

theorem Sound.step (h : Sound s) {a : Act π tasks mutexes} (hstep : step a s = some s') :
    Sound s' := by
  cases a with
  | handlerEnter =>
    obtain ⟨-, ⟨⟩⟩ := Option.ite_none_right_eq_some.mp hstep
    exact h.moved rfl rfl rfl h.agrees
      (h.point.handler (f := id) (.inr (.inr ⟨rfl, List.mem_cons_of_mem _⟩)))
  | handlerRaise i => exact h.handler (.inl rfl) hstep
  | handlerTick => exact h.handler (.inl rfl) hstep
  | handlerPend => exact h.handler (.inr fun _ => rfl) hstep
  | handlerReturn =>
    simp only [Machine.step] at hstep
    split at hstep
    · rename_i outer houter
      obtain rfl := Option.some.inj hstep
      exact h.moved rfl rfl rfl h.agrees
        (h.point.handler (f := id) (.inr (.inr ⟨rfl, fun hmem => by simpa [houter] using hmem⟩)))
    · cases hstep
  | pendsv =>
    simp only [Machine.step] at hstep
    split at hstep
    · rename_i pc hpc
      obtain ⟨hready, ⟨⟩⟩ := Option.ite_none_right_eq_some.mp hstep
      have hb : s.basepri = false := by simpa using (Bool.and_eq_true_iff.mp hready).2
      exact h.pendsv hb ((h.thread hpc).2.1.symm.trans hb)
    · cases hstep
  | preemptDisable =>
    simp only [Machine.step] at hstep
    split at hstep
    · rename_i happ
      obtain ⟨-, ⟨⟩⟩ := Option.ite_none_left_eq_some.mp hstep
      exact h.moved rfl rfl rfl h.agrees ⟨rfl, .inr (h.thread happ).2.2⟩
    · cases hstep
  | op o =>
    obtain ⟨hbody, ⟨⟩⟩ := Option.ite_none_right_eq_some.mp hstep
    obtain ⟨hp, hb, hcurrent⟩ := h.thread (thread_of_inBody hbody)
    refine h.moved rfl (Tasks.currentTask_op o) rfl (h.agrees.op o) ?_
    show At _ s.point
    rw [hp]
    exact ⟨hb, .inr (Tasks.current_op hcurrent h.agrees o)⟩
  | blockOn blocker =>
    obtain ⟨hbody, ⟨⟩⟩ := Option.ite_none_right_eq_some.mp hstep
    obtain ⟨-, hb, hcurrent⟩ := h.thread (thread_of_inBody hbody)
    exact h.svc hb (h.agrees.blockOn blocker) rfl
  | yield =>
    obtain ⟨hbody, ⟨⟩⟩ := Option.ite_none_right_eq_some.mp hstep
    obtain ⟨-, hb, hcurrent⟩ := h.thread (thread_of_inBody hbody)
    exact h.svc hb h.agrees rfl
  | preemptEnable =>
    obtain ⟨hbody, ⟨⟩⟩ := Option.ite_none_right_eq_some.mp hstep
    obtain ⟨-, hb, hcurrent⟩ := h.thread (thread_of_inBody hbody)
    exact h.moved rfl rfl rfl h.agrees ⟨hb, .inr hcurrent⟩
  | next woken fuel =>
    obtain ⟨hempty, hstep⟩ := Option.ite_none_right_eq_some.mp hstep
    have hhandlers := List.isEmpty_iff.mp hempty
    split at hstep
    · obtain ⟨-, hstep⟩ := Option.ite_none_left_eq_some.mp hstep
      exact h.next hhandlers hstep
    · exact h.next hhandlers hstep

theorem Reached.sound (h : s.Reached) : Sound s :=
  h.invariant .start fun _ _ _ _ hs _ hstep => hs.step hstep

end Machine

open Machine

/-- A task that executes in thread mode with preemption enabled and PendSV not pending is the one to
    run, with nothing pending, and every task was restored with the preemption status it had to
    have. -/
theorem threadMode_strict (interruptEvents tasks mutexes : ℕ) (pos : 0 < tasks)
    (v : Preemptive tasks mutexes) (s : Machine (port interruptEvents true) (v.sched pos))
    (h : s.Reached) :
    (s.thread.isSome = true → s.basepri = false → s.kernel.io.irq.preemptPending = false →
      Io.Quiet (port interruptEvents true) s.kernel.io ∧
      Io.Selects (v.sched pos) s.kernel.io.sched s.kernel.currentTask) ∧
    Switch.Resumed s.switches := by
  have hs := h.sound
  refine ⟨fun hthread _ hpending => ?_, hs.resumed⟩
  obtain ⟨pc, hpc⟩ := Option.isSome_iff_exists.mp hthread
  have hcurrent := (hs.thread hpc).2.2
  exact hcurrent.resolve_left (by simp [hpending])

/-- Two tasks of Kochab, without interrupt events and mutexes. -/
abbrev twoTasks : Preemptive 2 0 := .kochab

/-- Task 0 blocks, the tick that unblocks it preempts task 1, and PendSV is taken again because
    the scheduler's own run unblocked a task. -/
def blockAndPreempt : List (Act (port 0 true) 2 0) :=
  let goOn (n : ℕ) : List (Act (port 0 true) 2 0) := .replicate n (.next [0] 1)
  goOn 2 ++ [Act.preemptDisable, .blockOn none] ++ goOn 10 ++
    [Act.handlerEnter, .handlerTick, .handlerPend, .handlerReturn, .pendsv] ++ goOn 9 ++
    [Act.preemptEnable] ++ goOn 1 ++ [Act.pendsv] ++ goOn 9

/-- Task 0 executes again, the selected one, and task 1 is to resume with preemption enabled. -/
theorem threadMode_strict_preempted :
    ∃ s : Machine (port 0 true) (twoTasks.sched Nat.two_pos),
      s.kernel.currentTask = 0 ∧ Switch.owed 1 s.switches = false ∧
        Io.Selects (twoTasks.sched Nat.two_pos) s.kernel.io.sched s.kernel.currentTask := by
  have hrun : (run step (fun _ _ => true) blockAndPreempt
      (Machine.start (port 0 true) twoTasks Nat.two_pos)).any
      (fun s => s.kernel.currentTask = 0 ∧ Switch.owed 1 s.switches = false ∧
        s.thread.isSome = true ∧ s.basepri = false ∧
        s.kernel.io.irq.preemptPending = false) = true := by
    decide +kernel
  obtain ⟨s, hs, hp⟩ := exists_reach_of_run (fun _ _ _ _ => trivial) hrun
  obtain ⟨htask, howed, hthread, hb, hpending⟩ := of_decide_eq_true hp
  have hstrict := threadMode_strict 0 2 0 Nat.two_pos twoTasks s hs
  exact ⟨s, htask, howed, (hstrict.1 hthread hb hpending).2⟩

end Echronos.Armv7m
