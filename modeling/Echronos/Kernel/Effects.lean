import Echronos.Kernel.Moves

/-! # The effect of the core functions

    Each function of the kernel core is quiet, wakes tasks, or makes moves; only the scheduler
    switches to another task. -/

namespace Echronos.Core

open Schemes

variable {c : Config} {S : Sched c.tasks c.mutexes} {A : Set Component}

/-- Nothing changes but the phase, the pending interrupts, and whether the system has stopped. -/
structure Still (k k' : Core c S) : Prop where
  currentTask : k'.currentTask = k.currentTask
  pc : k'.pc = k.pc
  signals : k'.signals = k.signals
  sched : k'.sched = k.sched
  timers : k'.timers = k.timers
  timerCurrentTicks : k'.timerCurrentTicks = k.timerCurrentTicks
  interruptEvents : k'.interruptEvents = k.interruptEvents
  processed : k'.processed = k.processed
  history : k'.history = k.history
  halted : k'.halted = none → k.halted = none

/-- Only the current task, the phase and the scheduler's own bookkeeping change. -/
structure Switch (k k' : Core c S) : Prop where
  pc : k'.pc = k.pc
  signals : k'.signals = k.signals
  link : k'.link = k.link
  sched : ∃ fuel r, S.schedGetNext fuel k.sched = some (r, k'.sched)
  timers : k'.timers = k.timers
  timerCurrentTicks : k'.timerCurrentTicks = k.timerCurrentTicks
  interruptEvents : k'.interruptEvents = k.interruptEvents
  processed : k'.processed = k.processed
  history : k'.history = k.history
  halted : k'.halted = k.halted

theorem Switch.other {k k' : Core c S} (h : Switch k k') (t : c.TaskId) : Other t k k' :=
  ⟨by rw [h.pc], fun i hi => by rwa [h.signals], .inl ⟨by rw [h.link], by rw [h.signals]⟩⟩

theorem quiet_of_eq {k k' : Core c S} (h : k'.currentTask = k.currentTask) (hp : k'.pc = k.pc)
    (hs : k'.signals = k.signals) (hl : k'.sched = k.sched) (hh : k'.history = k.history)
    (hd : k'.halted = none → k.halted = none) : Quiet A k k' :=
  ⟨h, hp, hs, by unfold link; rw [hl], fun _ => hl, hd, [], hh, by simp⟩

theorem Still.quiet {k k' : Core c S} (h : Still k k') : Quiet A k k' :=
  quiet_of_eq h.currentTask h.pc h.signals h.sched h.history h.halted

theorem getNext_still (k : Core c S) : Still k (getNext k) :=
  ⟨rfl, rfl, rfl, rfl, rfl, rfl, rfl, rfl, rfl, id⟩

theorem timerTick_still (k : Core c S) : Still k (timerTick k) := by
  unfold timerTick
  split
  · exact ⟨rfl, rfl, rfl, rfl, rfl, rfl, rfl, rfl, rfl, id⟩
  · exact ⟨rfl, rfl, rfl, rfl, rfl, rfl, rfl, rfl, rfl, id⟩

theorem interruptEventRaise_still (i : c.InterruptEventId) (k : Core c S) :
    Still k { k with interruptEvent := Function.update k.interruptEvent i true } :=
  ⟨rfl, rfl, rfl, rfl, rfl, rfl, rfl, rfl, rfl, id⟩

theorem halt_still (h : Halt) (k : Core c S) : Still k (halt h k) :=
  ⟨rfl, rfl, rfl, rfl, rfl, rfl, rfl, rfl, rfl, fun h => absurd h (by simp [halt])⟩

theorem setTimer_quiet (i : c.TimerId) (tm : Timer c.tasks c.signalsetSize) (k : Core c S) :
    Quiet A k (setTimer i tm k) := quiet_of_eq rfl rfl rfl rfl rfl id

theorem record_quiet {e : Event c} (he : e.Of A) (k : Core c S) : Quiet A k (record e k) :=
  ⟨rfl, rfl, rfl, rfl, fun _ => rfl, id, [e], rfl, by simpa⟩

theorem setMutexLockedBy_quiet (hA : .mutex ∈ A) (m : c.MutexId) (t : c.TaskId) (k : Core c S) :
    Quiet A k { k with sched := S.schedSetMutexLockedBy m t k.sched } :=
  ⟨rfl, rfl, rfl, S.link_setMutexLockedBy m t k.sched, absurd hA, id, [], rfl, by simp⟩

theorem setMutexUnlocked_quiet (hA : .mutex ∈ A) (m : c.MutexId) (k : Core c S) :
    Quiet A k { k with sched := S.schedSetMutexUnlocked m k.sched } :=
  ⟨rfl, rfl, rfl, S.link_setMutexUnlocked m k.sched, absurd hA, id, [], rfl, by simp⟩

theorem Wakes.andThen {f : Core c S → Core c S} {k k' : Core c S} (h : Wakes A k k')
    (hf : ∀ k, Wakes A k (f k)) : Wakes A k (Core.andThen f k') := by
  unfold Core.andThen
  split
  · exact h
  · exact h.trans (hf k')

/-- A task that arms its timer and then waits. -/
theorem Wakes.andThen_wait {k k' : Core c S} (h : Wakes A k k') (ha : Awake k)
    (requested : c.SignalSet) (blocker : Option c.TaskId) {cont : Cont c}
    (hc : cont.component ∈ A) :
    Moves A k (Core.andThen (signalWaitSet requested blocker cont) k') := by
  unfold Core.andThen
  split
  · exact .of_wakes h
  · exact .wait _ _ _ (.of_wakes h) hc (h.awake ha)

theorem timerProcessOne_wakes (i : c.TimerId) (k : Core c S) : Wakes A k (timerProcessOne i k) := by
  unfold timerProcessOne
  dsimp only
  split
  · exact .of_quiet ((setTimer_quiet _ _ _).trans (halt_still _ _).quiet)
  · split
    · exact .of_quiet ((setTimer_quiet _ _ _).trans (halt_still _ _).quiet)
    · exact .send _ _ (.of_quiet (setTimer_quiet _ _ _))

theorem timerEnable_wakes (i : c.TimerId) (k : Core c S) : Wakes A k (timerEnable i k) := by
  unfold timerEnable
  split
  · exact timerProcessOne_wakes i k
  · exact .of_quiet (setTimer_quiet _ _ _)

theorem timerOneshot_wakes (i : c.TimerId) (timeout : BitVec 16) (k : Core c S) :
    Wakes A k (timerOneshot i timeout k) :=
  ((Wakes.of_quiet (setTimer_quiet _ _ _)).trans (timerEnable_wakes i _)).andThen
    fun _ => .of_quiet (setTimer_quiet _ _ _)

theorem waitTaskTimer_moves {cont : Cont c} {k : Core c S} (ha : Awake k)
    (hc : cont.component ∈ A) : Moves A k (waitTaskTimer cont k) := .wait _ _ _ .refl hc ha

theorem sleep_moves (ticks : BitVec 16) {k : Core c S} (ha : Awake k) (hA : .kernel ∈ A) :
    Moves A k (sleep ticks k) := (timerOneshot_wakes _ _ _).andThen_wait ha _ _ hA

theorem wakeWaiters_wakes {ι : Type} [DecidableEq ι] (o : ι) (waiters : c.TaskId → Option ι)
    (k : Core c S) : Wakes A k (wakeWaiters o waiters k).2 := by
  refine scan_invariant (p := fun s : (c.TaskId → Option ι) × Core c S => Wakes A k s.2)
    (fun s t h => ?_) .refl
  split
  · exact .send t _ h
  · exact h

section wakeWaiters

variable {ι : Type} [DecidableEq ι] (o : ι) (waiters : c.TaskId → Option ι) (k : Core c S)

theorem wakeWaiters_entry (t : c.TaskId) :
    ((wakeWaiters o waiters k).1 t, (wakeWaiters o waiters k).2.signals t) =
      if waiters t = some o then (none, k.signals t ||| c.signalIdTaskTimer)
      else (waiters t, k.signals t) := by
  refine scan_entry (fun (s : (c.TaskId → Option ι) × Core c S) t => (s.1 t, s.2.signals t))
    (fun _ e => if e.1 = some o then (none, e.2 ||| c.signalIdTaskTimer) else e)
    (fun s i => ?_) (fun s i j hj => ?_) (waiters, k) t
  · split <;> simp
  · split <;> simp [hj]

/-- The loop clears the registrations for its object. -/
theorem wakeWaiters_waiters (t : c.TaskId) :
    (wakeWaiters o waiters k).1 t = if waiters t = some o then none else waiters t := by
  refine (congrArg Prod.fst (wakeWaiters_entry o waiters k t)).trans ?_
  split <;> rfl

/-- The loop sends `_task_timer` to the tasks registered for its object. -/
theorem wakeWaiters_signals (t : c.TaskId) :
    (wakeWaiters o waiters k).2.signals t =
      if waiters t = some o then k.signals t ||| c.signalIdTaskTimer else k.signals t := by
  refine (congrArg Prod.snd (wakeWaiters_entry o waiters k t)).trans ?_
  split <;> rfl

theorem wakeWaiters_woken {t : c.TaskId} (h : k.taskTimerPending t ∨ waiters t = some o) :
    (wakeWaiters o waiters k).2.taskTimerPending t := by
  unfold taskTimerPending
  rw [wakeWaiters_signals]
  split
  · simp [Config.signalIdTaskTimer]
  · exact h.resolve_right (by assumption)

theorem wakeWaiters_pc : (wakeWaiters o waiters k).2.pc = k.pc :=
  scan_unchanged (fun s : (c.TaskId → Option ι) × Core c S => s.2.pc)
    (fun s t => by split <;> rfl) _

/-- Without a registered task the loop does nothing. -/
theorem wakeWaiters_of_none (h : ∀ t, waiters t ≠ some o) :
    wakeWaiters o waiters k = (waiters, k) := by
  refine scan_invariant (p := fun s => s = (waiters, k)) (fun s t hs => ?_) rfl
  rw [if_neg (by rw [hs]; exact h t), hs]

end wakeWaiters

/-- Without a pending interrupt event `interrupt_event_process` does nothing. -/
theorem interruptEventProcess_of_none {k : Core c S} (h : ∀ i, k.interruptEvent i = false) :
    interruptEventProcess k = k :=
  scan_invariant (p := fun k' => k' = k) (fun k' i hk => by rw [if_neg (by simp [h i]), hk]) rfl

theorem interruptEventProcess_wakes (k : Core c S) : Wakes A k (interruptEventProcess k) := by
  refine scan_invariant (p := Wakes A k) (fun k' i h => ?_) .refl
  split
  · exact .send _ _ (h.quiet (quiet_of_eq rfl rfl rfl rfl rfl id))
  · exact h

theorem timerTickProcess_wakes (k : Core c S) : Wakes A k (timerTickProcess k) := by
  unfold timerTickProcess
  split
  · exact .of_quiet (quiet_of_eq rfl rfl rfl rfl rfl fun h => absurd h (by simp [halt]))
  · split
    · exact .of_quiet (quiet_of_eq rfl rfl rfl rfl rfl id)
    · refine scan_invariant (p := Wakes A k) (fun k' i h => h.andThen fun k'' => ?_)
        (.of_quiet (quiet_of_eq rfl rfl rfl rfl rfl id))
      split
      · exact timerProcessOne_wakes i k''
      · exact .refl

theorem Awake.of_app {k : Core c S} (h : k.pc k.currentTask = .app) : Awake k := fun w hw => by
  simp [h] at hw

/-- A task outside `signal_wait_set` is still there after it has received signals. -/
theorem setPc_app_of_app {k : Core c S} (h : k.pc k.currentTask = .app) : setPc .app k = k := by
  unfold setPc
  rw [← h, Function.update_eq_self]

theorem call_moves {f : Call c} {k k' : Core c S} (hpc : k.pc k.currentTask = .app)
    (hA : .kernel ∈ A) (h : call f k = some k') : Moves A k k' := by
  have ha := Awake.of_app hpc
  cases f with
  | yield =>
    obtain ⟨-, ⟨⟩⟩ := Option.ite_none_left_eq_some.mp h
    exact .of_quiet (getNext_still k).quiet
  | signalSendSet t set => obtain rfl := Option.some.inj h; exact .of_wakes (.send t set .refl)
  | signalWaitSet r => obtain rfl := Option.some.inj h; exact .wait r _ _ .refl hA ha
  | signalPollSet r =>
    obtain rfl := Option.some.inj h
    rw [← setPc_app_of_app (k := (signalRecv k.currentTask r k).2) hpc]
    exact .receive r .refl fun w hw => absurd hw (ha w)
  | sleep ticks => obtain rfl := Option.some.inj h; exact sleep_moves ticks ha hA
  | timerEnable i => obtain rfl := Option.some.inj h; exact .of_wakes (timerEnable_wakes i k)
  | timerDisable i => obtain rfl := Option.some.inj h; exact .of_quiet (setTimer_quiet _ _ _)
  | timerOneshot i n => obtain rfl := Option.some.inj h; exact .of_wakes (timerOneshot_wakes i n k)
  | timerCheckOverflow i => obtain rfl := Option.some.inj h; exact .of_quiet (setTimer_quiet _ _ _)
  | timerReloadSet i n => obtain rfl := Option.some.inj h; exact .of_quiet (setTimer_quiet _ _ _)
  | timerSignalSet i t set =>
    obtain ⟨-, ⟨⟩⟩ := Option.ite_none_left_eq_some.mp h
    exact .of_quiet (setTimer_quiet _ _ _)
  | timerErrorSet i e => obtain rfl := Option.some.inj h; exact .of_quiet (setTimer_quiet _ _ _)
  | interruptEventTaskSet i t =>
    obtain ⟨-, ⟨⟩⟩ := Option.ite_none_left_eq_some.mp h
    exact .of_quiet (quiet_of_eq rfl rfl rfl rfl rfl id)

theorem schedGetNext_switch {fuel : ℕ} {again : Bool} {k k' : Core c S}
    (h : schedGetNext fuel again k = some k') : Switch k k' := by
  unfold schedGetNext at h
  split at h
  · cases h
  · rename_i sched hr
    obtain rfl := Option.some.inj h
    exact ⟨rfl, rfl, S.link_getNext _ _ _ hr, ⟨fuel, _, hr⟩, rfl, rfl, rfl, rfl, rfl, rfl⟩
  · rename_i next sched hr
    have hl := S.link_getNext _ _ _ hr
    split_ifs at h
    all_goals
      obtain rfl := Option.some.inj h
      exact ⟨rfl, rfl, hl, ⟨fuel, _, hr⟩, rfl, rfl, rfl, rfl, rfl, rfl⟩

/-- What happens outside the current task's code. -/
theorem act_cases {a : Act c} {k k' : Core c S} (h : act a k = some k') :
    Still k k' ∨ (∃ fuel again, a = .schedGetNext fuel again ∧ Switch k k') ∨
    k' = { interruptEventProcess k with phase := .tick } ∨
    k' = { timerTickProcess k with phase := .select } := by
  cases a with
  | interruptEventRaise i =>
    obtain rfl := Option.some.inj h
    exact .inl (interruptEventRaise_still i k)
  | timerTick => obtain rfl := Option.some.inj h; exact .inl (timerTick_still k)
  | preempt =>
    obtain ⟨-, ⟨⟩⟩ := Option.ite_none_right_eq_some.mp h
    exact .inl (getNext_still k)
  | interruptEventProcess =>
    obtain ⟨-, ⟨⟩⟩ := Option.ite_none_right_eq_some.mp h
    exact .inr (.inr (.inl rfl))
  | timerTickProcess =>
    obtain ⟨-, ⟨⟩⟩ := Option.ite_none_right_eq_some.mp h
    exact .inr (.inr (.inr rfl))
  | schedGetNext fuel again =>
    obtain ⟨-, h⟩ := Option.ite_none_right_eq_some.mp h
    exact .inr (.inl ⟨fuel, again, rfl, schedGetNext_switch h⟩)

theorem signalWaitReturn_eq_none {w : Wait c} {k : Core c S} : signalWaitReturn w k = none ↔
    w.blocked = true ∧ signalPeek (k.signals k.currentTask) w.requested = false := by
  simp [signalWaitReturn]

theorem signalWaitReturn_eq_some {w : Wait c} {k k' : Core c S} :
    signalWaitReturn w k = some k' ↔
      (w.blocked = true → signalPeek (k.signals k.currentTask) w.requested = true) ∧
      setPc .app (signalRecv k.currentTask w.requested k).2 = k' := by
  simp [signalWaitReturn]

end Echronos.Core
