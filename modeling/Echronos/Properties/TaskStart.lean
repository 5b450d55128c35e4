import Echronos.Kernel.TaskStart
import Echronos.Properties.Signals

/-! # Tasks run after they have been started

    A trampoline receives `_rtos_util` once, at its end. Until then the signal is pending for the task
    exactly if it has ever been sent: no start is lost, however early `task_start` was called, and
    nothing else gets the task into its function. -/

namespace Echronos

open Schemes

variable {c : Config} {S : Sched c.tasks c.mutexes} {A : Set Component}

theorem Event.receives_of_not_isSignal {t : c.TaskId} {i : ℕ} {ev : Event c}
    (h : ev.isSignal = false) : ev.receives t i = false := by
  by_contra hr
  rw [Event.isSignal_of_receives (by simpa using hr)] at h
  cases h

/-- A signal that was never received is pending if it was sent. -/
theorem pendingAfter_iff_exists_sends {t : c.TaskId} {i : ℕ} : ∀ {h : List (Event c)},
    (∀ ev ∈ h, ev.receives t i = false) →
      (pendingAfter t i h = true ↔ ∃ ev ∈ h, ev.sends t i = true)
  | [], _ => by simp [pendingAfter]
  | ev :: h, hnone => by
    obtain ⟨hev, hrest⟩ := List.forall_mem_cons.mp hnone
    simp [pendingAfter, hev, pendingAfter_iff_exists_sends hrest]

namespace Core

variable {k k' : Core c S} {t : c.TaskId} {i : ℕ}

/-- `t` has not received signal `i` yet. -/
def Unread (t : c.TaskId) (i : ℕ) (k : Core c S) : Prop :=
  ∀ ev ∈ k.history, ev.receives t i = false

theorem Unread.quiet (hk : Unread t i k) (h : Quiet A k k') : Unread t i k' := by
  obtain ⟨new, hn, hA⟩ := h.history
  intro ev hev
  rw [hn] at hev
  rcases List.mem_append.mp hev with hev | hev
  · exact Event.receives_of_not_isSignal (hA ev hev).1
  · exact hk ev hev

theorem Unread.wakes (hk : Unread t i k) (h : Wakes A k k') : Unread t i k' := by
  induction h with
  | refl => exact hk
  | quiet _ hq ih => exact ih.quiet hq
  | send u set _ ih => exact List.forall_mem_cons.mpr ⟨rfl, ih⟩

/-- A task receives its signals itself. -/
theorem Unread.moves (hk : Unread t i k) (ht : t ≠ k.currentTask) (h : Moves A k k') :
    Unread t i k' := by
  induction h with
  | refl => exact hk
  | wakes _ hw ih => exact ih.wakes hw
  | receive r h _ ih =>
    rw [← h.currentTask] at ht
    exact List.forall_mem_cons.mpr ⟨by simp [Event.receives, ht.symm], ih⟩
  | goto _ _ _ _ _ ih => exact ih
  | wait r b cont _ _ _ ih => simpa [Unread] using ih
  | block _ _ _ _ _ ih => exact ih

theorem mem_history_of_quiet (h : Quiet A k k') {ev : Event c} (hev : ev ∈ k.history) :
    ev ∈ k'.history := by
  obtain ⟨new, hn, -⟩ := h.history
  rw [hn]
  exact List.mem_append_right new hev

theorem mem_history_of_wakes (h : Wakes A k k') {ev : Event c} (hev : ev ∈ k.history) :
    ev ∈ k'.history := by
  induction h with
  | refl => exact hev
  | quiet _ hq ih => exact mem_history_of_quiet hq ih
  | send u set _ ih => exact List.mem_cons_of_mem _ ih

theorem mem_history_of_moves (h : Moves A k k') {ev : Event c} (hev : ev ∈ k.history) :
    ev ∈ k'.history := by
  induction h with
  | refl => exact hev
  | wakes _ hw ih => exact mem_history_of_wakes hw ih
  | receive _ _ _ ih => exact List.mem_cons_of_mem _ ih
  | goto _ _ _ _ _ ih => exact ih
  | wait r b cont _ _ _ ih => simpa using ih
  | block _ _ _ _ _ ih => exact ih

end Core

theorem State.ReachedBy.accounted {ok : Act c → State c S → Prop} {s : State c S}
    (h : s.ReachedBy ok) : s.core.Accounted :=
  h.core (fun t i => by simp [Core.start, pendingAfter, receiveCount, sendCount])
    (fun _ _ hm => .moves hm) (fun _ _ hs => .switch hs)

namespace RigelSystem

open Echronos.Core

variable {e : TaskStart c} {s s' : RigelSystem c S} {t : c.TaskId}

/-- `_rtos_util` has been sent to `t`. -/
def Started (e : TaskStart c) (t : c.TaskId) (s : RigelSystem c S) : Prop :=
  ∃ ev ∈ s.system.core.history, ev.sends t e.rtosUtilIdx = true

theorem Started.step (hs : Started e t s) {b : Echronos.Act c}
    (hstep : State.step b s.system = some s'.system) : Started e t s' := by
  obtain ⟨ev, hev, hsends⟩ := hs
  refine ⟨ev, ?_, hsends⟩
  rcases State.step_moves hstep with hm | hsw
  · exact mem_history_of_moves hm hev
  · rwa [hsw.history]

/-- The place of a task that follows from where its trampoline is. -/
structure Sound (e : TaskStart c) (t : c.TaskId) (s : RigelSystem c S) : Prop where
  first : s.entry t = .first → s.system.core.pc t = .app
  waiting : s.entry t = .waiting →
    ∃ b, s.system.core.pc t = .wait ⟨e.signalIdRtosUtil, none, b, .signalWaitSet⟩
  unread : s.entry t ≠ .function → Unread t e.rtosUtilIdx s.system.core
  function : s.entry t = .function → e.start t = true ∨ Started e t s

/-- Code that leaves a task in its place. -/
theorem Sound.stays (hs : Sound e t s) {b : Echronos.Act c}
    (hstep : State.step b s.system = some s'.system) (hentry : s'.entry t = s.entry t)
    (hpc : s.entry t ≠ .function → s'.system.core.pc t = s.system.core.pc t)
    (hunread : s.entry t ≠ .function → Unread t e.rtosUtilIdx s.system.core →
      Unread t e.rtosUtilIdx s'.system.core) : Sound e t s' where
  first h := by
    rw [hentry] at h
    rw [hpc (by simp [h]), hs.first h]
  waiting h := by
    rw [hentry] at h
    rw [hpc (by simp [h])]
    exact hs.waiting h
  unread h := hunread (hentry ▸ h) (hs.unread (hentry ▸ h))
  function h := (hs.function (hentry ▸ h)).imp_right fun hstarted => hstarted.step hstep

theorem Sound.other (hs : Sound e t s) {b : Echronos.Act c}
    (hstep : State.step b s.system = some s'.system) (ht : t ≠ s.system.currentTask)
    (hentry : s'.entry t = s.entry t) : Sound e t s' := by
  refine hs.stays hstep hentry (fun _ => (State.step_other hstep ht).pc) fun _ h => ?_
  rcases State.step_moves hstep with hm | hsw
  · exact h.moves ht hm
  · intro ev hev
    exact h ev (by rwa [hsw.history] at hev)

/-- A trampoline goes on when its `signal_wait` returns. -/
theorem Sound.afterWait_eq (hs : Sound e t s) {pc : Pc c} (hpc : pc = s.system.core.pc t) :
    afterWait pc (s.entry t) = s.entry t := by
  cases h : s.entry t with
  | waiting =>
    obtain ⟨b, hb⟩ := hs.waiting h
    rw [hpc, hb]
    rfl
  | _ => rfl

/-- What the kernel does while a task is current. -/
theorem Sound.kernel (hs : Sound e t s) {a : Core.Act c} {system : State c S}
    (hstep : State.step (.kernel a) s.system = some system) :
    Sound e t ⟨system, fun t => afterWait (system.core.pc t) (s.entry t)⟩ := by
  obtain ⟨k, hk, rfl⟩ := Option.map_eq_some_iff.mp (Option.ite_none_left_eq_some.mp hstep).2
  have hpc := congrFun (State.act_pc hk) t
  refine hs.stays hstep (hs.afterWait_eq hpc) (fun _ => hpc) fun _ h => ?_
  rcases act_cases hk with hq | ⟨-, -, -, hsw⟩ | rfl | rfl
  · exact h.quiet (hq.quiet (A := ∅))
  · intro ev hev
    exact h ev (by rwa [hsw.history] at hev)
  · have hu := h.wakes (interruptEventProcess_wakes (A := ∅) s.system.core)
    exact hu
  · have hu := h.wakes (timerTickProcess_wakes (A := ∅) s.system.core)
    exact hu

/-- A trampoline's `signal_wait` ends with `_rtos_util`. -/
theorem Sound.started_of_return (hs : Sound e t s) (h : s.system.Reached) (ht : t = s.system.currentTask)
    (hentry : s.entry t = .waiting) {b : Bool} {k : Core c S}
    (hk : signalWaitReturn ⟨e.signalIdRtosUtil, none, b, .signalWaitSet⟩ s.system.core = some k)
    (hpc : s.system.core.pc t = .wait ⟨e.signalIdRtosUtil, none, b, .signalWaitSet⟩) :
    Started e t s := by
  subst ht
  have hpeek : signalPeek (s.system.core.signals s.system.core.currentTask) e.signalIdRtosUtil = true := by
    cases b with
    | true => exact (signalWaitReturn_eq_some.mp hk).1 rfl
    | false => exact (h.waitSound _).yielding _ hpc rfl
  obtain ⟨i, hp, hi⟩ := signalPeek_iff.mp hpeek
  obtain rfl : i = e.rtosUtilIdx := by
    simpa [TaskStart.signalIdRtosUtil, BitVec.getLsbD_twoPow, eq_comm] using hi
  rw [(h.accounted _ _).1] at hp
  exact (pendingAfter_iff_exists_sends (hs.unread (by simp [hentry]))).mp hp

/-- The current task goes on inside a function it has called. -/
theorem Sound.resume (hs : Sound e t s) (h : s.system.Reached) {system : State c S}
    (hstep : State.step .resume s.system = some system) :
    Sound e t ⟨system, fun t => afterWait (system.core.pc t) (s.entry t)⟩ := by
  by_cases ht : t = s.system.currentTask
  · subst ht
    obtain ⟨-, hrest⟩ := Option.ite_none_left_eq_some.mp hstep
    have hr := (Option.ite_none_right_eq_some.mp hrest).2
    cases hentry : s.entry s.system.currentTask with
    | first => simp [State.resume, hs.first hentry] at hr
    | function =>
      have hentry' : afterWait (system.core.pc s.system.currentTask) (s.entry s.system.currentTask) =
          .function := by rw [hentry]; rfl
      exact hs.stays hstep (hentry'.trans hentry.symm) (absurd hentry) (absurd hentry)
    | waiting =>
      obtain ⟨b, hb⟩ := hs.waiting hentry
      simp only [State.resume, hb] at hr
      cases hk : signalWaitReturn ⟨e.signalIdRtosUtil, none, b, .signalWaitSet⟩ s.system.core with
      | none =>
        simp only [hk] at hr
        obtain rfl := Option.some.inj hr
        exact hs.stays hstep (hs.afterWait_eq rfl) (fun _ => rfl) fun _ => id
      | some k =>
        simp only [hk] at hr
        obtain rfl := Option.some.inj hr
        have hstarted := hs.started_of_return h rfl hentry hk hb
        obtain ⟨-, rfl⟩ := signalWaitReturn_eq_some.mp hk
        have hpc : (setPc .app (signalRecv s.system.core.currentTask
            e.signalIdRtosUtil s.system.core).2).pc s.system.currentTask = .app := by
          simp [State.currentTask]
        have hentry' : afterWait ((setPc .app (signalRecv s.system.core.currentTask
            e.signalIdRtosUtil s.system.core).2).pc s.system.currentTask)
            (s.entry s.system.currentTask) = .function := by rw [hentry, hpc]; rfl
        refine ⟨fun hf => ?_, fun hw => ?_, fun hn => absurd hentry' hn, fun _ => .inr ?_⟩
        · cases hentry'.symm.trans hf
        · cases hentry'.symm.trans hw
        · exact hstarted.step hstep
  · exact hs.other hstep ht (hs.afterWait_eq (State.step_other hstep ht).pc)

theorem Sound.step (hs : Sound e t s) (h : s.system.Reached) {a : Act c} (hstep : step e a s = some s') :
    Sound e t s' := by
  cases a with
  | entry =>
    obtain ⟨hfirst, hstep⟩ := Option.ite_none_right_eq_some.mp hstep
    by_cases hstart : e.start s.system.currentTask = true
    · rw [if_pos hstart] at hstep
      obtain ⟨system, hyield, rfl⟩ := Option.map_eq_some_iff.mp hstep
      by_cases ht : t = s.system.currentTask
      · subst ht
        have hentry : (goto .function s system).entry s.system.currentTask = .function :=
          Function.update_self _ _ _
        exact ⟨by simp [hentry], by simp [hentry], absurd hentry, fun _ => .inl hstart⟩
      · exact hs.other hyield ht (Function.update_of_ne ht _ _)
    · rw [if_neg hstart] at hstep
      obtain ⟨system, hwait, rfl⟩ := Option.map_eq_some_iff.mp hstep
      by_cases ht : t = s.system.currentTask
      · subst ht
        have hentry : (goto .waiting s system).entry s.system.currentTask = .waiting :=
          Function.update_self _ _ _
        obtain ⟨-, hcall⟩ := Option.ite_none_left_eq_some.mp hwait
        obtain ⟨-, hcall⟩ := Option.ite_none_right_eq_some.mp hcall
        obtain rfl := Option.some.inj hcall
        refine ⟨by simp [hentry], fun _ => ⟨!signalPeek (s.system.core.signals
          s.system.core.currentTask) e.signalIdRtosUtil, ?_⟩, fun _ => ?_, by simp [hentry]⟩
        · change (signalWaitSet _ _ _ s.system.core).pc s.system.core.currentTask = _
          rw [signalWaitSet_pc, Function.update_self]
        · have hunread := hs.unread (by simp [hfirst])
          simpa [goto, Unread] using hunread
      · exact hs.other hwait ht (Function.update_of_ne ht _ _)
  | system a =>
    obtain ⟨htakes, hstep⟩ := Option.ite_none_right_eq_some.mp hstep
    obtain ⟨system, hsystem, rfl⟩ := Option.map_eq_some_iff.mp hstep
    have happ (hf : s.entry s.system.currentTask = .function) :
        Sound e t ⟨system, fun t => afterWait (system.core.pc t) (s.entry t)⟩ := by
      by_cases ht : t = s.system.currentTask
      · subst ht
        have hentry : afterWait (system.core.pc s.system.currentTask)
            (s.entry s.system.currentTask) = .function := by rw [hf]; rfl
        exact hs.stays hsystem (hentry.trans hf.symm) (absurd hf) (absurd hf)
      · exact hs.other hsystem ht (hs.afterWait_eq (State.step_other hsystem ht).pc)
    cases a with
    | kernel a => exact hs.kernel hsystem
    | resume => exact hs.resume h hsystem
    | call f => exact happ (of_decide_eq_true htakes)
    | store address byte => exact happ (of_decide_eq_true htakes)

theorem Reached.sound (h : Reached e s) (t : c.TaskId) : Sound e t s := by
  obtain ⟨memory, h⟩ := h
  refine h.invariant (I := Sound e t) ?_ fun s a s' hr hs _ hstep =>
    hs.step (Reached.system ⟨memory, hr⟩) hstep
  refine ⟨fun _ => rfl, fun hw => ?_, fun _ ev hev => absurd hev List.not_mem_nil, fun hf => ?_⟩
  · cases hw
  · cases hf

/-- `_rtos_util` stays pending for a task that has been started until the task is in its function. -/
theorem Sound.signalPeek (hs : Sound e t s) (h : s.system.Reached) (hstarted : Started e t s)
    (hf : s.entry t ≠ .function) :
    signalPeek (s.system.core.signals t) e.signalIdRtosUtil = true := by
  have hpending := (pendingAfter_iff_exists_sends (hs.unread hf)).mpr hstarted
  rw [← (h.accounted t _).1] at hpending
  exact signalPeek_iff.mpr ⟨_, hpending, by simp [TaskStart.signalIdRtosUtil]⟩

theorem Sound.runnable (hs : Sound e t s) (h : s.system.Reached) (hstarted : Started e t s)
    (hf : s.entry t ≠ .function) : s.system.core.runnable t := by
  refine (h.waitSound t).runnable fun w hw _ => ?_
  cases hentry : s.entry t with
  | function => exact absurd hentry hf
  | first =>
    rw [hs.first hentry] at hw
    cases hw
  | waiting =>
    obtain ⟨b, hb⟩ := hs.waiting hentry
    obtain rfl := Pc.wait.inj (hb.symm.trans hw)
    exact hs.signalPeek h hstarted hf

/-- A started task that is switched to in its trampoline's wait goes into its function. -/
theorem Sound.enters (hs : Sound e t s) (h : s.system.Reached) (hstarted : Started e t s)
    (hwaiting : s.entry t = .waiting) (ht : s.system.currentTask = t)
    (hphase : s.system.core.phase = .task) (hhalted : s.system.core.halted = none) :
    ∃ s', RigelSystem.step e (.system .resume) s = some s' ∧ s'.entry t = .function := by
  subst ht
  obtain ⟨b, hb⟩ := hs.waiting hwaiting
  have hpeek := hs.signalPeek h hstarted (by simp [hwaiting])
  let k := setPc .app (signalRecv s.system.core.currentTask e.signalIdRtosUtil s.system.core).2
  have hk : signalWaitReturn ⟨e.signalIdRtosUtil, none, b, .signalWaitSet⟩ s.system.core = some k :=
    signalWaitReturn_eq_some.mpr ⟨fun _ => hpeek, rfl⟩
  have hresume : State.step .resume s.system = some { s.system with core := k } := by
    simp [State.step, hhalted, hphase, State.resume, hb, hk, State.afterWait]
  have hpc : k.pc s.system.currentTask = .app := by simp [k, State.currentTask]
  have htakes : s.takes .resume = true := rfl
  refine ⟨⟨{ s.system with core := k }, fun t => afterWait (k.pc t) (s.entry t)⟩, ?_, ?_⟩
  · simp [RigelSystem.step, htakes, hresume]
  · change afterWait (k.pc s.system.currentTask) (s.entry s.system.currentTask) = .function
    rw [hwaiting, hpc]
    rfl

end RigelSystem

open RigelSystem

/-- In Rigel a task that is not configured to start calls its function only after `_rtos_util` was
    sent to it, as `task_start` does. Once it was sent, the task is runnable until it has done so, and
    does so when it is switched to in the wait of its trampoline. -/
theorem taskStart_sound (e : TaskStart c) (s : RigelSystem c Variant.rigel.sched) (h : s.Reached e)
    (t : c.TaskId) :
    (s.entry t = .function → e.start t = true ∨ Started e t s) ∧
    (Started e t s → s.entry t ≠ .function → s.system.core.runnable t ∧
      (s.entry t = .waiting → s.system.currentTask = t → s.system.core.phase = .task →
        s.system.core.halted = none →
        ∃ s', RigelSystem.step e (.system .resume) s = some s' ∧ s'.entry t = .function)) :=
  have hs := h.sound t
  ⟨hs.function, fun hstarted hf => ⟨hs.runnable h.system hstarted hf, hs.enters h.system hstarted⟩⟩

/-- Of two tasks the first starts and starts the other. -/
def startOther : TaskStart (.plain 2 0 0 0 false false Nat.two_pos) := ⟨fun t => t.val == 0, ⟨1, by decide⟩⟩

theorem taskStart_sound_other :
    ∃ s : RigelSystem (.plain 2 0 0 0 false false Nat.two_pos) Variant.rigel.sched,
      s.entry 1 = .waiting ∧ Started startOther 1 s ∧
      ∃ s', RigelSystem.step startOther (.system .resume) s = some s' ∧ s'.entry 1 = .function := by
  let turn : List (RigelSystem.Act (.plain 2 0 0 0 false false Nat.two_pos)) :=
    reschedule.map .system
  obtain ⟨s, hs, hp⟩ := exists_reached_of_run (S := Variant.rigel.sched) startOther
    (.entry :: turn ++ .entry :: turn ++
      [.system (.call (startOther.taskStart 1)), .system (.call (.core .yield))] ++ turn)
    (fun s => s.entry 1 = .waiting ∧ s.system.currentTask = 1 ∧ s.system.core.phase = .task ∧
      s.system.core.halted.isNone ∧ s.system.core.history.any (·.sends 1 1)) (by decide +kernel)
  obtain ⟨hentry, hcurrent, hphase, hhalted, hsends⟩ := of_decide_eq_true hp
  have hstarted : Started startOther 1 s := List.any_eq_true.mp hsends
  refine ⟨s, hentry, hstarted, ?_⟩
  exact ((taskStart_sound startOther s hs 1).2 hstarted (by simp [hentry])).2 hentry hcurrent hphase
    (by simpa using hhalted)

end Echronos
