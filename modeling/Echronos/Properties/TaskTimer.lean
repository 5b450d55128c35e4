import Echronos.Properties.Sleep

/-! # One signal for sleeping, mutexes and message queues

    In Rigel `sleep`, `mutex_lock` and the waits of message queues all wait for `_task_timer`. What
    the kernel holds of a task on their behalf is a pending `_task_timer`, an entry in a table of
    waiters, and an enabled timer. `Held.At` says what may be left of these at each place of a task:
    outside the three functions, nothing. -/

namespace Echronos

open Schemes

variable {c : Config} {S : Sched c.tasks c.mutexes}

/-- The components of Rigel. -/
structure RigelComponents (c : Config) : Prop where
  lockTimeout : c.lockTimeout = false
  semaphores : c.semaphores = 0

/-- What the kernel holds of a task: whether `_task_timer` is pending, what the task is registered
    for, and whether its timer is enabled. -/
structure Held (c : Config) where
  pending : Bool
  mutex : Option c.MutexId
  messageQueue : Option c.MessageQueueId
  timer : Bool

/-- The caller removes the task's entry and disables its timer after the wait. -/
def Cont.unregisters : Cont c → Bool
  | .messageQueuePutTimeout _ _ _ => true
  | .messageQueueGetTimeout _ _ _ => true
  | _ => false

namespace Held

def nothing : Held c := ⟨false, none, none, false⟩

/-- The task is blocked, and nothing has told it to go on. -/
def Waiting (h : Held c) (w : Wait c) : Prop := w.blocked = true ∧ h.pending = false

/-- What may be held of a task at each place of Rigel's code. A wait that nothing cleans up after
    ends with the event that has removed the task's entry or disabled its timer. -/
def At (h : Held c) : Pc c → Prop
  | .app => h = .nothing
  | .entered _ => False
  | .wait w => match w.cont with
    | .signalWaitSet => h = .nothing
    | .sleep _ _ => w.requested = c.signalIdTaskTimer ∧
      h.mutex = none ∧ h.messageQueue = none ∧ (h.timer = true → h.Waiting w)
    | .mutexLock _ => w.requested = c.signalIdTaskTimer ∧
      h.messageQueue = none ∧ h.timer = false ∧ (h.mutex ≠ none → h.Waiting w)
    | .messageQueuePut _ _ => w.requested = c.signalIdTaskTimer ∧
      h.mutex = none ∧ h.timer = false ∧ (h.messageQueue ≠ none → h.Waiting w)
    | .messageQueueGet _ _ => w.requested = c.signalIdTaskTimer ∧
      h.mutex = none ∧ h.timer = false ∧ (h.messageQueue ≠ none → h.Waiting w)
    | .messageQueuePutTimeout _ _ _ => w.requested = c.signalIdTaskTimer ∧ h.mutex = none
    | .messageQueueGetTimeout _ _ _ => w.requested = c.signalIdTaskTimer ∧ h.mutex = none
    | _ => False

/-- What others do to a task: they remove its entry, or disable its timer, and send it
    `_task_timer`. -/
inductive Woken (h : Held c) : Held c → Prop
  | same : Woken h h
  | mutex : h.mutex ≠ none → Woken h { h with mutex := none, pending := true }
  | messageQueue : h.messageQueue ≠ none →
      Woken h { h with messageQueue := none, pending := true }
  | timer : h.timer = true → Woken h { h with timer := false, pending := true }

theorem At.woken {h h' : Held c} {p : Pc c} (hp : h.At p) (hw : h.Woken h') : h'.At p := by
  cases p with
  | app =>
    obtain rfl : h = .nothing := hp
    cases hw with
    | same => rfl
    | mutex hm => exact absurd rfl hm
    | messageQueue hq => exact absurd rfl hq
    | timer ht => cases ht
  | entered => exact hp
  | wait w =>
    obtain ⟨r, b, blocked, cont⟩ := w
    cases hw with
    | same => exact hp
    | mutex hm => cases cont <;> simp_all [At, nothing]
    | messageQueue hq => cases cont <;> simp_all [At, nothing]
    | timer ht => cases cont <;> simp_all [At, nothing]

/-- A task that goes on because its signal is pending is registered for nothing, and its timer is
    disabled, unless its caller takes care of that. -/
theorem At.received {h : Held c} {w : Wait c} (hp : h.At (.wait w))
    (hpeek : w.blocked = true → w.requested = c.signalIdTaskTimer → h.pending = true) :
    (h.pending = true → w.requested = c.signalIdTaskTimer) ∧ h.mutex = none ∧
      (w.cont.unregisters = false → h.messageQueue = none ∧ h.timer = false) := by
  have ended (hr : w.requested = c.signalIdTaskTimer) : ¬ h.Waiting w := fun ⟨hb, hn⟩ => by
    simp [hpeek hb hr] at hn
  obtain ⟨r, b, blocked, cont⟩ := w
  cases cont with
  | signalWaitSet =>
    obtain rfl : h = .nothing := hp
    exact ⟨nofun, rfl, fun _ => ⟨rfl, rfl⟩⟩
  | sleep n start =>
    obtain ⟨hr, hm, hq, ht⟩ := hp
    exact ⟨fun _ => hr, hm, fun _ => ⟨hq, by simpa using mt ht (ended hr)⟩⟩
  | mutexLock m =>
    obtain ⟨hr, hq, ht, hm⟩ := hp
    exact ⟨fun _ => hr, by simpa using mt hm (ended hr), fun _ => ⟨hq, ht⟩⟩
  | messageQueuePut q message =>
    obtain ⟨hr, hm, ht, hq⟩ := hp
    exact ⟨fun _ => hr, hm, fun _ => ⟨by simpa using mt hq (ended hr), ht⟩⟩
  | messageQueueGet q message =>
    obtain ⟨hr, hm, ht, hq⟩ := hp
    exact ⟨fun _ => hr, hm, fun _ => ⟨by simpa using mt hq (ended hr), ht⟩⟩
  | messageQueuePutTimeout q message d => exact ⟨fun _ => hp.1, hp.2, nofun⟩
  | messageQueueGetTimeout q message d => exact ⟨fun _ => hp.1, hp.2, nofun⟩
  | _ => exact hp.elim

end Held

namespace Core

/-- A timer as `configure` creates it for a task, however it has been used since. -/
structure OwnTimer (t : c.TaskId) (tm : Timer c.tasks c.signalsetSize) : Prop where
  reload : tm.reload = 0
  errorId : tm.errorId = 0
  taskId : tm.taskId = some t
  signalSet : tm.signalSet = c.signalIdTaskTimer

/-- Nothing changes about the places of tasks, their timers and `_task_timer`. -/
structure Apart (k k' : Core c S) : Prop where
  pc : k'.pc = k.pc
  timers : ∀ t, k'.timers (c.taskTimers t) = k.timers (c.taskTimers t)
  pending : k'.taskTimerPending = k.taskTimerPending

variable {k k' k'' : Core c S}

theorem Apart.refl (k : Core c S) : Apart k k := ⟨rfl, fun _ => rfl, rfl⟩

theorem Apart.trans (h : Apart k k') (h' : Apart k' k'') : Apart k k'' :=
  ⟨h'.pc.trans h.pc, fun t => (h'.timers t).trans (h.timers t), h'.pending.trans h.pending⟩

theorem Apart.of_eq (hpc : k'.pc = k.pc) (htimers : k'.timers = k.timers)
    (hsignals : k'.signals = k.signals) : Apart k k' :=
  ⟨hpc, fun t => by rw [htimers], by unfold taskTimerPending; rw [hsignals]⟩

theorem Apart.andThen {f : Core c S → Core c S} (h : Apart k k') (hf : Apart k' (f k')) :
    Apart k (andThen f k') := by
  unfold Core.andThen
  split
  · exact h
  · exact h.trans hf

theorem andThen_of_none {f : Core c S → Core c S} (h : k.halted = none) : andThen f k = f k :=
  if_neg (by simp [h])

theorem signalSendSet_apart (t : c.TaskId) {set : c.SignalSet} (h : ¬ HasTaskTimer set)
    (k : Core c S) : Apart k (signalSendSet t set k) := by
  refine ⟨rfl, fun _ => rfl, funext fun u => ?_⟩
  have hset : set.getLsbD c.taskTimerIdx = false := Bool.eq_false_iff.mpr h
  by_cases hu : u = t
  · subst hu
    simp only [taskTimerPending, signalSendSet_signals, Function.update_self, BitVec.getLsbD_or, hset,
      Bool.or_false]
  · simp [taskTimerPending, hu]

theorem signalRecv_taskTimerPending (t : c.TaskId) (r : c.SignalSet) (k : Core c S) :
    (signalRecv t r k).2.taskTimerPending t = (k.taskTimerPending t && !r.getLsbD c.taskTimerIdx) := by
  have hidx : c.taskTimerIdx.val < c.signalsetSize := c.taskTimerIdx.isLt
  simp only [taskTimerPending, signalRecv_signals, Function.update_self, BitVec.getLsbD_and,
    BitVec.getLsbD_not, hidx, decide_true, Bool.true_and]
  cases BitVec.getLsbD (k.signals t) c.taskTimerIdx <;> simp

theorem setTimer_apart {i : c.TimerId} (h : ¬ IsTaskTimer i) (tm : Timer c.tasks c.signalsetSize)
    (k : Core c S) : Apart k (setTimer i tm k) :=
  ⟨rfl, fun t => Function.update_of_ne (fun hti => h ⟨t, hti⟩) _ _, rfl⟩

theorem timerProcessOne_apart {i : c.TimerId} (h : ¬ IsTaskTimer i)
    (hset : ¬ HasTaskTimer (k.timers i).signalSet) : Apart k (timerProcessOne i k) := by
  unfold timerProcessOne
  dsimp only
  split
  · exact (setTimer_apart h _ k).trans (.of_eq rfl rfl rfl)
  · split
    · exact (setTimer_apart h _ k).trans (.of_eq rfl rfl rfl)
    · exact (setTimer_apart h _ k).trans
        (signalSendSet_apart _ (by rwa [rearm_signalSet]) _)

theorem timerEnable_apart {i : c.TimerId} (h : ¬ IsTaskTimer i)
    (hset : ¬ HasTaskTimer (k.timers i).signalSet) : Apart k (timerEnable i k) := by
  unfold timerEnable
  split
  · exact timerProcessOne_apart h hset
  · exact setTimer_apart h _ k

theorem timerOneshot_apart {i : c.TimerId} (h : ¬ IsTaskTimer i)
    (hset : ¬ HasTaskTimer (k.timers i).signalSet) (n : BitVec 16) :
    Apart k (timerOneshot i n k) := by
  have hreload : Apart k (timerReloadSet i n k) := setTimer_apart h _ k
  refine Apart.andThen (hreload.trans (timerEnable_apart h ?_)) (setTimer_apart h _ _)
  simpa [timerReloadSet, setTimer] using hset

theorem interruptEventProcess_apart (h : ∀ i, ¬ HasTaskTimer (k.interruptEvents i).sigSet) :
    Apart k (interruptEventProcess k) := by
  refine (scan_invariant (p := fun k' => Apart k k' ∧ k'.interruptEvents = k.interruptEvents)
    (fun k' i hk' => ?_) ⟨.refl k, rfl⟩).1
  split
  · refine ⟨hk'.1.trans ?_, hk'.2⟩
    have hclear : Apart k' { k' with
        interruptEvent := Function.update k'.interruptEvent i false } := .of_eq rfl rfl rfl
    exact hclear.trans (signalSendSet_apart _ (by rw [hk'.2]; exact h i) _)
  · exact hk'

/-- The timer of a task that expires, or is set to no time at all. -/
theorem timerProcessOne_own {t : c.TaskId} (h : OwnTimer t (k.timers (c.taskTimers t))) :
    ∃ tm, OwnTimer t tm ∧ tm.enabled = false ∧ timerProcessOne (c.taskTimers t) k =
      signalSendSet t c.signalIdTaskTimer (setTimer (c.taskTimers t) tm k) := by
  have hrearm : rearm (k.timers (c.taskTimers t)) =
      { k.timers (c.taskTimers t) with enabled := false } := if_neg (by simp [h.reload])
  unfold timerProcessOne
  simp only [hrearm, h.errorId, h.taskId, h.signalSet, ne_eq, not_true_eq_false, if_false]
  refine ⟨_, ?_, ?_, rfl⟩
  · split <;> exact ⟨h.reload, rfl, rfl, rfl⟩
  · split <;> rfl

/-- The timer of a task set to no time at all. -/
theorem timerOneshot_own_zero {t : c.TaskId} (h : OwnTimer t (k.timers (c.taskTimers t)))
    (hhalt : k.halted = none) : ∃ tm, OwnTimer t tm ∧ tm.enabled = false ∧
      timerOneshot (c.taskTimers t) 0 k =
        signalSendSet t c.signalIdTaskTimer (setTimer (c.taskTimers t) tm k) := by
  let k₀ := timerReloadSet (c.taskTimers t) 0 k
  have h₀ : OwnTimer t (k₀.timers (c.taskTimers t)) := by
    simpa [k₀, timerReloadSet, setTimer] using ⟨rfl, h.errorId, h.taskId, h.signalSet⟩
  obtain ⟨tm, htm, hdis, heq⟩ := timerProcessOne_own h₀
  refine ⟨{ tm with reload := 0 }, ⟨rfl, htm.errorId, htm.taskId, htm.signalSet⟩, hdis, ?_⟩
  have henable : timerEnable (c.taskTimers t) k₀ = _ := (if_pos h₀.reload).trans heq
  unfold timerOneshot
  rw [henable]
  have hsent : (signalSendSet t c.signalIdTaskTimer (setTimer (c.taskTimers t) tm k₀)).halted =
    none := hhalt
  refine (andThen_of_none hsent).trans ?_
  simp [timerReloadSet, setTimer, signalSendSet, unblock, k₀]

/-- Processing a timer changes the signals of none. -/
theorem timerProcessOne_signalSet (i j : c.TimerId) (k : Core c S) :
    ((timerProcessOne i k).timers j).signalSet = (k.timers j).signalSet := by
  have hset (tm : Timer c.tasks c.signalsetSize) (h : tm.signalSet = (k.timers i).signalSet) :
      ((setTimer i tm k).timers j).signalSet = (k.timers j).signalSet := by
    by_cases hj : j = i
    · subst hj
      simpa [setTimer] using h
    · simp [setTimer, hj]
  unfold timerProcessOne
  dsimp only
  split
  · exact hset _ (rearm_signalSet _)
  · split
    · exact hset _ (rearm_signalSet _)
    · refine hset _ ?_
      split <;> exact rearm_signalSet _

theorem tickTurn_signalSet (timeout : BitVec 16) (k : Core c S) (i j : c.TimerId) :
    ((tickTurn timeout k i).timers j).signalSet = (k.timers j).signalSet := by
  unfold tickTurn Core.andThen
  split
  · rfl
  · dsimp only
    split
    · exact timerProcessOne_signalSet i j k
    · rfl

end Core

namespace State

open Echronos.Core

def held (s : State c S) (t : c.TaskId) : Held c :=
  ⟨s.core.taskTimerPending t, s.mutexWaiters t, s.messageQueueWaiters t,
    (s.core.timers (c.taskTimers t)).enabled⟩

structure TaskTimerSound (s : State c S) : Prop where
  timers : ∀ t, OwnTimer t (s.core.timers (c.taskTimers t))
  held : ∀ t, (s.held t).At (s.core.pc t)

variable {s s' : State c S}

/-! ### What the parts of a step preserve -/

theorem TaskTimerSound.woken (hs : TaskTimerSound s) (hpc : s'.core.pc = s.core.pc)
    (htimers : ∀ t, OwnTimer t (s'.core.timers (c.taskTimers t)))
    (hheld : ∀ t, (s.held t).Woken (s'.held t)) : TaskTimerSound s' :=
  ⟨htimers, fun t => by rw [hpc]; exact (hs.held t).woken (hheld t)⟩

theorem TaskTimerSound.apart (hs : TaskTimerSound s) (h : Apart s.core s'.core)
    (hmutex : s'.mutexWaiters = s.mutexWaiters)
    (hqueue : s'.messageQueueWaiters = s.messageQueueWaiters) : TaskTimerSound s' := by
  refine hs.woken h.pc (fun t => by rw [h.timers]; exact hs.timers t) fun t => ?_
  have : s'.held t = s.held t := by
    unfold State.held
    rw [h.pending, hmutex, hqueue, h.timers]
  rw [this]
  exact .same

/-- The current task goes to another place. -/
theorem TaskTimerSound.goto (hs : TaskTimerSound s) {p : Pc c}
    (hpc : s'.core.pc = Function.update s.core.pc s.currentTask p)
    (htimers : ∀ t, OwnTimer t (s'.core.timers (c.taskTimers t)))
    (hp : (s'.held s.currentTask).At p)
    (hheld : ∀ t, t ≠ s.currentTask → s'.held t = s.held t) : TaskTimerSound s' := by
  refine ⟨htimers, fun t => ?_⟩
  rw [hpc]
  by_cases ht : t = s.currentTask
  · subst ht
    simpa using hp
  · rw [hheld t ht]
    simpa [ht] using hs.held t

/-- Nothing is held of a task outside the kernel. -/
theorem TaskTimerSound.nothing (hs : TaskTimerSound s) {t : c.TaskId} (h : s.core.pc t = .app) :
    s.held t = .nothing := by
  have := hs.held t
  rwa [h] at this

/-- The timer of a task is set to `tm`. -/
theorem setTimer_own {t : c.TaskId} {tm : Timer c.tasks c.signalsetSize} {k : Core c S}
    (htm : OwnTimer t tm) (hk : ∀ u, OwnTimer u (k.timers (c.taskTimers u))) (u : c.TaskId) :
    OwnTimer u ((setTimer (c.taskTimers t) tm k).timers (c.taskTimers u)) := by
  by_cases hu : u = t
  · subst hu
    simpa [setTimer] using htm
  · simpa [setTimer, c.taskTimers_injective.ne hu] using hk u

theorem held_setTimer (t : c.TaskId) (tm : Timer c.tasks c.signalsetSize) (s : State c S)
    (u : c.TaskId) : (s.onCore (setTimer (c.taskTimers t) tm)).held u =
      if u = t then { s.held u with timer := tm.enabled } else s.held u := by
  split
  · rename_i hu
    subst hu
    simp [State.held, onCore, setTimer, taskTimerPending]
  · rename_i hu
    simp [State.held, onCore, setTimer, taskTimerPending, c.taskTimers_injective.ne hu]

theorem held_send (t : c.TaskId) (s : State c S) (u : c.TaskId) :
    (s.onCore (signalSendSet t c.signalIdTaskTimer)).held u =
      if u = t then { s.held u with pending := true } else s.held u := by
  have hself : c.signalIdTaskTimer.getLsbD c.taskTimerIdx = true := by
    simp [Config.signalIdTaskTimer]
  split
  · rename_i hu
    subst hu
    simp only [State.held, onCore, taskTimerPending, signalSendSet_signals, Function.update_self,
      BitVec.getLsbD_or, hself, Bool.or_true]
    rfl
  · rename_i hu
    simp only [State.held, onCore, taskTimerPending, signalSendSet_signals, Function.update_of_ne hu]
    rfl

/-! ### The scheduler's part -/

/-- The timer of a task expires. -/
theorem held_expire (t : c.TaskId) (tm : Timer c.tasks c.signalsetSize) (s : State c S)
    (u : c.TaskId) :
    (s.onCore fun k => signalSendSet t c.signalIdTaskTimer (setTimer (c.taskTimers t) tm k)).held u =
      if u = t then { s.held u with pending := true, timer := tm.enabled } else s.held u := by
  refine (held_send t (s.onCore (setTimer (c.taskTimers t) tm)) u).trans ?_
  rw [held_setTimer]
  split <;> rfl

theorem TaskTimerSound.tickTurn (hs : TaskTimerSound s) (timeout : BitVec 16) {i : c.TimerId}
    (huser : ¬ IsTaskTimer i → ¬ HasTaskTimer (s.core.timers i).signalSet) :
    TaskTimerSound (s.onCore fun k => Core.tickTurn timeout k i) := by
  unfold Core.tickTurn Core.andThen
  by_cases hhalt : s.core.halted.isSome = true
  · simpa only [onCore, hhalt, if_true] using hs
  by_cases hexp : timerExpired (s.core.timers i) timeout = true
  · simp only [onCore, hhalt, hexp, if_true]
    by_cases hi : IsTaskTimer i
    · obtain ⟨t, rfl⟩ := hi
      obtain ⟨tm, htm, hdis, heq⟩ := timerProcessOne_own (hs.timers t)
      rw [heq]
      refine hs.woken rfl (setTimer_own htm hs.timers) fun u => ?_
      have hheld := held_expire t tm s u
      rw [hdis] at hheld
      refine hheld ▸ ?_
      split
      · rename_i hu
        subst hu
        exact .timer (Bool.and_eq_true_iff.mp hexp).1
      · exact .same
    · exact hs.apart (timerProcessOne_apart hi (huser hi)) rfl rfl
  · simpa [onCore, hhalt, hexp] using hs

theorem TaskTimerSound.turns {k : Core c S} (hs : TaskTimerSound { s with core := k })
    (timeout : BitVec 16)
    (huser : ∀ i, ¬ IsTaskTimer i → ¬ HasTaskTimer (k.timers i).signalSet) :
    TaskTimerSound { s with core := scan (Core.tickTurn timeout) k } := by
  refine (scan_invariant (p := fun k' => TaskTimerSound { s with core := k' } ∧
    ∀ j, (k'.timers j).signalSet = (k.timers j).signalSet)
    (fun k' i hk' => ⟨hk'.1.tickTurn timeout fun hi => ?_, fun j => ?_⟩) ⟨hs, fun _ => rfl⟩).1
  · exact (hk'.2 i).symm ▸ huser i hi
  · exact (tickTurn_signalSet timeout k' i j).trans (hk'.2 j)

theorem TaskTimerSound.tick (hs : TaskTimerSound s)
    (huser : ∀ i, ¬ IsTaskTimer i → ¬ HasTaskTimer (s.core.timers i).signalSet) :
    TaskTimerSound (s.onCore timerTickProcess) := by
  unfold timerTickProcess onCore
  dsimp only
  split
  · exact hs.apart (.of_eq rfl rfl rfl) rfl rfl
  · split
    · exact hs.apart (.of_eq rfl rfl rfl) rfl rfl
    · have hcount : TaskTimerSound (s.onCore countTick) := hs.apart (.of_eq rfl rfl rfl) rfl rfl
      exact hcount.turns _ huser

/-! ### Functions of application code -/

theorem wakeWaiters_timers {ι : Type} [DecidableEq ι] (o : ι) (waiters : c.TaskId → Option ι)
    (k : Core c S) : (wakeWaiters o waiters k).2.timers = k.timers :=
  scan_unchanged (fun s : (c.TaskId → Option ι) × Core c S => s.2.timers)
    (fun s t => by split <;> rfl) _

theorem wakeWaiters_taskTimerPending {ι : Type} [DecidableEq ι] (o : ι) (waiters : c.TaskId → Option ι)
    (k : Core c S) (t : c.TaskId) : (wakeWaiters o waiters k).2.taskTimerPending t =
      if waiters t = some o then true else k.taskTimerPending t := by
  unfold taskTimerPending
  rw [wakeWaiters_signals]
  split
  · simp [Config.signalIdTaskTimer]
  · rfl

theorem TaskTimerSound.tryLock (hs : TaskTimerSound s) (m : c.MutexId) :
    TaskTimerSound (mutexTryLock m s).2 := by
  unfold mutexTryLock
  split
  · exact hs.apart (.of_eq rfl rfl rfl) rfl rfl
  · exact hs

theorem TaskTimerSound.unlock (hs : TaskTimerSound s) (m : c.MutexId) :
    TaskTimerSound (mutexUnlock m s) := by
  let k : Core c S := { s.core with sched := S.schedSetMutexUnlocked m s.core.sched }
  have htimers := wakeWaiters_timers m s.mutexWaiters k
  refine hs.woken (wakeWaiters_pc m s.mutexWaiters k) (fun t => htimers ▸ hs.timers t) fun t => ?_
  have hheld : (mutexUnlock m s).held t = ⟨(wakeWaiters m s.mutexWaiters k).2.taskTimerPending t,
      (wakeWaiters m s.mutexWaiters k).1 t, s.messageQueueWaiters t,
      ((wakeWaiters m s.mutexWaiters k).2.timers (c.taskTimers t)).enabled⟩ := rfl
  rw [hheld, wakeWaiters_taskTimerPending, wakeWaiters_waiters, htimers]
  split
  · rename_i hm
    exact .mutex (by simp [State.held, hm])
  · exact .same

theorem TaskTimerSound.wakeup (hs : TaskTimerSound s) (q : c.MessageQueueId) :
    TaskTimerSound (messageQueueWaitersWakeup q s) := by
  have htimers := wakeWaiters_timers q s.messageQueueWaiters s.core
  refine hs.woken (wakeWaiters_pc q s.messageQueueWaiters s.core) (fun t => htimers ▸ hs.timers t)
    fun t => ?_
  have hheld : (messageQueueWaitersWakeup q s).held t =
      ⟨(wakeWaiters q s.messageQueueWaiters s.core).2.taskTimerPending t, s.mutexWaiters t,
        (wakeWaiters q s.messageQueueWaiters s.core).1 t,
        ((wakeWaiters q s.messageQueueWaiters s.core).2.timers (c.taskTimers t)).enabled⟩ := rfl
  rw [hheld, wakeWaiters_taskTimerPending, wakeWaiters_waiters, htimers]
  split
  · rename_i hq
    exact .messageQueue (by simp [State.held, hq])
  · exact .same

theorem TaskTimerSound.set (hs : TaskTimerSound s) (q : c.MessageQueueId) (mq : MessageQueue)
    (memory : Memory) : TaskTimerSound (messageQueueSet q mq memory s) :=
  hs.apart (.refl s.core) rfl rfl

theorem TaskTimerSound.attempt (hs : TaskTimerSound s) {q : c.MessageQueueId} (h : Attempt q s s') :
    TaskTimerSound s' := by
  cases h with
  | failed => exact hs
  | moved mq memory => exact hs.set q mq memory
  | woke mq memory => exact (hs.set q mq memory).wakeup q

theorem TaskTimerSound.giveUp (hs : TaskTimerSound s) (d : Deadline) :
    TaskTimerSound (s.giveUp d) := hs.apart (.of_eq rfl rfl rfl) rfl rfl

/-- The current task starts to wait after it has prepared for it in `s'`. -/
theorem TaskTimerSound.wait (hs : TaskTimerSound s) (s' : State c S) (hpc : s'.core.pc = s.core.pc)
    (hcur : s'.currentTask = s.currentTask)
    (htimers : ∀ t, OwnTimer t (s'.core.timers (c.taskTimers t)))
    (hheld : ∀ t, t ≠ s.currentTask → s'.held t = s.held t) {r : c.SignalSet}
    {b : Option c.TaskId} {cont : Cont c} (hp : (s'.held s.currentTask).At
      (.wait ⟨r, b, !signalPeek (s'.core.signals s.currentTask) r, cont⟩)) :
    TaskTimerSound (s'.onCore (signalWaitSet r b cont)) := by
  have htm : (signalWaitSet r b cont s'.core).timers = s'.core.timers := by
    unfold signalWaitSet
    split <;> rfl
  have hsame (t : c.TaskId) : (s'.onCore (signalWaitSet r b cont)).held t = s'.held t := by
    simp [State.held, onCore, taskTimerPending, htm]
  rw [← hsame s.currentTask] at hp
  refine hs.goto ?_ (fun t => ?_) hp fun t ht => (hsame t).trans (hheld t ht)
  · have hwait := signalWaitSet_pc r b cont s'.core
    rwa [show s'.core.currentTask = s.currentTask from hcur, hpc] at hwait
  · exact htm ▸ htimers t

theorem TaskTimerSound.not_peek (hs : TaskTimerSound s) {t : c.TaskId}
    (h : s.core.pc t = .app) : signalPeek (s.core.signals t) c.signalIdTaskTimer = false := by
  rw [Bool.eq_false_iff, Ne, signalPeek_taskTimer]
  exact Bool.eq_false_iff.mp (congrArg Held.pending (hs.nothing h))

/-- The current task registers for a mutex and waits. -/
theorem TaskTimerSound.lockWait (hs : TaskTimerSound s) (happ : s.core.pc s.currentTask = .app)
    (m : c.MutexId) (b : Option c.TaskId) : TaskTimerSound ((mutexRegister m s).onCore
      (signalWaitSet c.signalIdTaskTimer b (.mutexLock m))) := by
  have hnone := hs.nothing happ
  refine hs.wait (mutexRegister m s) rfl rfl hs.timers (fun t ht => ?_)
    ⟨rfl, congrArg Held.messageQueue hnone, congrArg Held.timer hnone, fun _ =>
      ⟨?_, congrArg Held.pending hnone⟩⟩
  · simp [State.held, mutexRegister, ht]
  · simp [mutexRegister, hs.not_peek happ]

/-- The current task registers for a queue and waits. -/
theorem TaskTimerSound.queueWait (hs : TaskTimerSound s) (happ : s.core.pc s.currentTask = .app)
    (q : c.MessageQueueId) {cont : Cont c}
    (hcont : (∃ message, cont = .messageQueuePut q message) ∨
      ∃ message, cont = .messageQueueGet q message) :
    TaskTimerSound (messageQueueWait q cont s) := by
  have hnone := hs.nothing happ
  refine hs.wait (messageQueueRegister (some q) s) rfl rfl hs.timers
    (fun t ht => ?_) ?_
  · simp [State.held, messageQueueRegister, ht]
  · obtain ⟨message, rfl⟩ | ⟨message, rfl⟩ := hcont
    all_goals
      refine ⟨rfl, congrArg Held.mutex hnone, congrArg Held.timer hnone, fun _ =>
        ⟨?_, congrArg Held.pending hnone⟩⟩
      simp [messageQueueRegister, hs.not_peek happ]

/-- The current task sets its timer: it sends itself `_task_timer` at once, or the timer is enabled
    and no signal sent. -/
theorem TaskTimerSound.oneshot (hs : TaskTimerSound s) (hhalt : s.core.halted = none)
    (n : BitVec 16) : let s' := s.onCore fun k => timerOneshot (ownTimer k) n k
    s'.core.halted = none ∧ (∀ t, OwnTimer t (s'.core.timers (c.taskTimers t))) ∧
    (∀ t, t ≠ s.currentTask → s'.held t = s.held t) ∧
    ((s'.held s.currentTask).timer = true → s'.core.signals = s.core.signals) := by
  have ht := hs.timers s.currentTask
  dsimp only [onCore]
  by_cases hn : n = 0
  · subst hn
    obtain ⟨tm, htm, hdis, heq⟩ := timerOneshot_own_zero ht hhalt
    rw [show timerOneshot (ownTimer s.core) 0 s.core = _ from heq]
    have hheld := held_expire s.currentTask tm s
    refine ⟨hhalt, setTimer_own htm hs.timers, fun t hne => (hheld t).trans (if_neg hne),
      fun h => ?_⟩
    have hcur := congrArg Held.timer ((hheld s.currentTask).trans (if_pos rfl))
    exact absurd (h.symm.trans (hcur.trans hdis)) (by decide)
  · rw [timerOneshot_of_ne_zero (i := ownTimer s.core) hn hhalt]
    refine ⟨hhalt, setTimer_own ⟨rfl, ht.errorId, ht.taskId, ht.signalSet⟩ hs.timers,
      fun t hne => ?_, fun _ => rfl⟩
    exact (held_setTimer s.currentTask _ s t).trans (if_neg hne)

/-- A wait with a timeout sets the timer and waits, if the timer does not stop the system. -/
theorem blockTimeout_eq {b : Option c.TaskId} {n : BitVec 16} {cont : Cont c}
    (h : (timerOneshot (ownTimer s.core) n s.core).halted = none) :
    s.blockTimeout b n cont = (s.onCore fun k => timerOneshot (ownTimer k) n k).onCore
      (signalWaitSet c.signalIdTaskTimer b cont) :=
  congrArg (fun k => { s with core := k }) (andThen_of_none h)

/-- The current task registers for a queue and waits with a timeout. -/
theorem TaskTimerSound.queueWaitTimeout (hs : TaskTimerSound s) (hhalt : s.core.halted = none)
    (happ : s.core.pc s.currentTask = .app) (q : c.MessageQueueId) (d : Deadline) {cont : Cont c}
    (hcont : (∃ message, cont = .messageQueuePutTimeout q message d) ∨
      ∃ message, cont = .messageQueueGetTimeout q message d) :
    TaskTimerSound (messageQueueWaitTimeout q d cont s) := by
  have hmutex := congrArg Held.mutex (hs.nothing happ)
  obtain ⟨hnone, htimers, hheld, -⟩ := hs.oneshot hhalt (s.remaining d)
  have hk := timerOneshot_wakes (A := ∅) (ownTimer s.core) (s.remaining d) s.core
  rw [messageQueueWaitTimeout, blockTimeout_eq (s := messageQueueRegister (some q) s) hnone]
  refine hs.wait ((messageQueueRegister (some q) s).onCore fun k =>
    timerOneshot (ownTimer k) (s.remaining d) k) (funext fun t => (hk.other t).pc) hk.currentTask
    htimers (fun t ht => ?_) ?_
  · have hother := hheld t ht
    unfold State.held at hother ⊢
    simpa [onCore, messageQueueRegister, ht] using hother
  · obtain ⟨message, rfl⟩ | ⟨message, rfl⟩ := hcont
    · exact ⟨rfl, hmutex⟩
    · exact ⟨rfl, hmutex⟩

theorem TaskTimerSound.sleep (hs : TaskTimerSound s) (hhalt : s.core.halted = none)
    (happ : s.core.pc s.currentTask = .app) (n : BitVec 16) :
    TaskTimerSound (s.onCore (Core.sleep n)) := by
  have hnothing := hs.nothing happ
  obtain ⟨hnone, htimers, hheld, henabled⟩ := hs.oneshot hhalt n
  have hk := timerOneshot_wakes (A := ∅) (ownTimer s.core) n s.core
  have heq : s.onCore (Core.sleep n) = (s.onCore fun k => timerOneshot (ownTimer k) n k).onCore
      (waitTaskTimer (.sleep n s.core.processed)) :=
    congrArg (fun k => { s with core := k }) (andThen_of_none hnone)
  rw [heq]
  refine hs.wait (s.onCore fun k => timerOneshot (ownTimer k) n k)
    (funext fun t => (hk.other t).pc) hk.currentTask htimers hheld
    ⟨rfl, congrArg Held.mutex hnothing, congrArg Held.messageQueue hnothing, fun h => ?_⟩
  have hsignals := henabled h
  refine ⟨?_, ?_⟩
  · simp only [hsignals, hs.not_peek happ, Bool.not_false]
  · have hpending := congrArg Held.pending hnothing
    simp only [State.held, taskTimerPending, hsignals]
    exact hpending

/-! ### The current task goes on -/

/-- The current task receives the signals it waited for: no `_task_timer` is left. -/
theorem TaskTimerSound.receive (hs : TaskTimerSound s) {w : Wait c} {k : Core c S}
    (hpc : s.core.pc s.currentTask = .wait w) (hk : signalWaitReturn w s.core = some k) :
    k.pc = Function.update s.core.pc s.currentTask .app ∧ k.timers = s.core.timers ∧
    (∀ t, t ≠ s.currentTask → k.taskTimerPending t = s.core.taskTimerPending t) ∧
    k.taskTimerPending s.currentTask = false ∧ s.mutexWaiters s.currentTask = none ∧
    (w.cont.unregisters = false → s.messageQueueWaiters s.currentTask = none ∧
      (s.core.timers (c.taskTimers s.currentTask)).enabled = false) := by
  obtain ⟨hpeek, rfl⟩ := signalWaitReturn_eq_some.mp hk
  have hat := hs.held s.currentTask
  rw [hpc] at hat
  obtain ⟨hr, hm, hclean⟩ := hat.received fun hb hr => by
    have := hpeek hb
    rw [hr, signalPeek_taskTimer] at this
    exact this
  refine ⟨rfl, rfl, fun t ht => ?_, ?_, hm, hclean⟩
  · have hne : t ≠ s.core.currentTask := ht
    simp [taskTimerPending, hne]
  · show (signalRecv s.core.currentTask w.requested s.core).2.taskTimerPending s.core.currentTask = false
    rw [signalRecv_taskTimerPending]
    cases hp : (s.held s.currentTask).pending with
    | false =>
      rw [show s.core.taskTimerPending s.core.currentTask = false from hp, Bool.false_and]
    | true =>
      rw [hr hp, show c.signalIdTaskTimer.getLsbD c.taskTimerIdx = true by
        simp [Config.signalIdTaskTimer], Bool.not_true, Bool.and_false]

/-- The current task is back in a caller that has nothing to clean up. -/
theorem TaskTimerSound.returned (hs : TaskTimerSound s) {w : Wait c} {k : Core c S}
    (hpc : s.core.pc s.currentTask = .wait w) (hk : signalWaitReturn w s.core = some k)
    (hclean : w.cont.unregisters = false) : TaskTimerSound { s with core := k } := by
  obtain ⟨hkpc, htimers, hother, hbit, hm, hrest⟩ := hs.receive hpc hk
  obtain ⟨hq, ht⟩ := hrest hclean
  refine hs.goto hkpc (fun t => htimers ▸ hs.timers t) ?_ fun t hne => ?_
  · show Held.mk _ _ _ _ = Held.nothing
    simp [hbit, hm, hq, ht, htimers, Held.nothing]
  · simp [State.held, hother t hne, htimers]

/-- The current task is back in `message_queue_wait_timeout`, which cleans up. -/
theorem TaskTimerSound.returnedTimeout (hs : TaskTimerSound s) {w : Wait c} {k : Core c S}
    (hpc : s.core.pc s.currentTask = .wait w) (hk : signalWaitReturn w s.core = some k) :
    TaskTimerSound (messageQueueWaitTimeoutReturn { s with core := k }) := by
  obtain ⟨hkpc, htimers, hother, hbit, hm, -⟩ := hs.receive hpc hk
  have hcur : k.currentTask = s.currentTask := by
    obtain ⟨-, rfl⟩ := signalWaitReturn_eq_some.mp hk
    rfl
  have htm := hs.timers s.currentTask
  have hown (t : c.TaskId) : OwnTimer t (k.timers (c.taskTimers t)) := htimers ▸ hs.timers t
  have heq : messageQueueWaitTimeoutReturn { s with core := k } =
      { s with
        core := setTimer (c.taskTimers s.currentTask)
          { s.core.timers (c.taskTimers s.currentTask) with enabled := false } k
        messageQueueWaiters := Function.update s.messageQueueWaiters s.currentTask none } := by
    rw [← hcur, ← htimers]
    rfl
  rw [heq]
  refine hs.goto hkpc (setTimer_own ⟨htm.reload, htm.errorId, htm.taskId, htm.signalSet⟩ hown) ?_
    fun t hne => ?_
  · show Held.mk _ _ _ _ = Held.nothing
    simp [setTimer, hm, Held.nothing]
    exact hbit
  · simp [State.held, setTimer, c.taskTimers_injective.ne hne, hne, htimers]
    exact hother t hne

/-! ### Functions -/

theorem TaskTimerSound.lockLoop (hs : TaskTimerSound s) (happ : s.core.pc s.currentTask = .app)
    (m : c.MutexId) : TaskTimerSound (mutexLockLoop m s) := by
  unfold mutexLockLoop
  dsimp only
  split
  · exact hs.tryLock m
  · exact hs.lockWait happ m (s.mutexes m)

theorem TaskTimerSound.putLoop (hs : TaskTimerSound s) (happ : s.core.pc s.currentTask = .app)
    {q : c.MessageQueueId} {message : ℕ} (h : messageQueuePutLoop q message s = some s') :
    TaskTimerSound s' := by
  obtain ⟨⟨b, t⟩, hr, rfl⟩ := Option.map_eq_some_iff.mp h
  cases b with
  | true => exact hs.attempt (messageQueueTryPut_attempt hr)
  | false =>
    obtain ⟨-, rfl⟩ := messageQueueTryPut_false hr
    exact hs.queueWait happ q (.inl ⟨message, rfl⟩)

theorem TaskTimerSound.getLoop (hs : TaskTimerSound s) (happ : s.core.pc s.currentTask = .app)
    {q : c.MessageQueueId} {message : ℕ} (h : messageQueueGetLoop q message s = some s') :
    TaskTimerSound s' := by
  obtain ⟨⟨b, t⟩, hr, rfl⟩ := Option.map_eq_some_iff.mp h
  cases b with
  | true => exact hs.attempt (messageQueueTryGet_attempt hr)
  | false =>
    obtain ⟨-, rfl⟩ := messageQueueTryGet_false hr
    exact hs.queueWait happ q (.inr ⟨message, rfl⟩)

theorem TaskTimerSound.putTimeoutLoop (hs : TaskTimerSound s) (hhalt : s.core.halted = none)
    (happ : s.core.pc s.currentTask = .app) {q : c.MessageQueueId} {message : ℕ} {d : Deadline}
    (h : messageQueuePutTimeoutLoop q message d s = some s') : TaskTimerSound s' := by
  unfold messageQueuePutTimeoutLoop at h
  dsimp only at h
  split at h
  · obtain rfl := Option.some.inj h
    exact hs.queueWaitTimeout hhalt happ q d (.inl ⟨message, rfl⟩)
  · obtain ⟨⟨b, t⟩, hr, rfl⟩ := Option.map_eq_some_iff.mp h
    cases b with
    | true => exact hs.attempt (messageQueueTryPut_attempt hr)
    | false => exact (hs.attempt (messageQueueTryPut_attempt hr)).giveUp d

theorem TaskTimerSound.getTimeoutLoop (hs : TaskTimerSound s) (hhalt : s.core.halted = none)
    (happ : s.core.pc s.currentTask = .app) {q : c.MessageQueueId} {message : ℕ} {d : Deadline}
    (h : messageQueueGetTimeoutLoop q message d s = some s') : TaskTimerSound s' := by
  unfold messageQueueGetTimeoutLoop at h
  split at h
  · obtain rfl := Option.some.inj h
    exact hs.queueWaitTimeout hhalt happ q d (.inr ⟨message, rfl⟩)
  · obtain ⟨⟨b, t⟩, hr, rfl⟩ := Option.map_eq_some_iff.mp h
    cases b with
    | true => exact hs.attempt (messageQueueTryGet_attempt hr)
    | false => exact (hs.attempt (messageQueueTryGet_attempt hr)).giveUp d

theorem TaskTimerSound.coreCall (hs : TaskTimerSound s) (hclock : Clocked [] s.core)
    (hhalt : s.core.halted = none) (happ : s.core.pc s.currentTask = .app) {f : Core.Call c}
    (hf : f.Spares) {k : Core c S} (h : Core.call f s.core = some k) :
    TaskTimerSound { s with core := k } := by
  cases f with
  | yield =>
    obtain ⟨-, ⟨⟩⟩ := Option.ite_none_left_eq_some.mp h
    exact hs.apart (.of_eq rfl rfl rfl) rfl rfl
  | signalSendSet t set =>
    obtain rfl := Option.some.inj h
    exact hs.apart (signalSendSet_apart t hf _) rfl rfl
  | signalWaitSet r =>
    obtain rfl := Option.some.inj h
    exact hs.wait s rfl rfl hs.timers (fun _ _ => rfl) (hs.nothing happ)
  | signalPollSet r =>
    obtain rfl := Option.some.inj h
    refine hs.apart ⟨rfl, fun _ => rfl, funext fun t => ?_⟩ rfl rfl
    by_cases ht : t = s.core.currentTask
    · subst ht
      have hbit : s.core.taskTimerPending s.core.currentTask = false :=
        congrArg Held.pending (hs.nothing happ)
      rw [signalRecv_taskTimerPending, hbit, Bool.false_and]
    · simp [taskTimerPending, ht]
  | sleep n => obtain rfl := Option.some.inj h; exact hs.sleep hhalt happ n
  | timerEnable i =>
    obtain rfl := Option.some.inj h
    exact hs.apart (timerEnable_apart hf (hclock.userTimers i hf)) rfl rfl
  | timerOneshot i n =>
    obtain rfl := Option.some.inj h
    exact hs.apart (timerOneshot_apart hf (hclock.userTimers i hf) n) rfl rfl
  | timerDisable i => obtain rfl := Option.some.inj h; exact hs.apart (setTimer_apart hf _ _) rfl rfl
  | timerCheckOverflow i =>
    obtain rfl := Option.some.inj h
    exact hs.apart (setTimer_apart hf _ _) rfl rfl
  | timerReloadSet i n =>
    obtain rfl := Option.some.inj h
    exact hs.apart (setTimer_apart hf _ _) rfl rfl
  | timerSignalSet i t set =>
    obtain ⟨-, ⟨⟩⟩ := Option.ite_none_left_eq_some.mp h
    exact hs.apart (setTimer_apart hf.1 _ _) rfl rfl
  | timerErrorSet i e =>
    obtain rfl := Option.some.inj h
    exact hs.apart (setTimer_apart hf _ _) rfl rfl
  | interruptEventTaskSet i t =>
    obtain ⟨-, ⟨⟩⟩ := Option.ite_none_left_eq_some.mp h
    exact hs.apart (.of_eq rfl rfl rfl) rfl rfl

theorem TaskTimerSound.call (hs : TaskTimerSound s) (hc : RigelComponents c)
    (hclock : Clocked [] s.core) (hhalt : s.core.halted = none)
    (happ : s.core.pc s.currentTask = .app) {f : Call c} (hf : SparesTaskTimer (.call f))
    (h : State.call f s = some s') : TaskTimerSound s' := by
  have noSem (i : c.SemId) : False := absurd i.isLt (by simp [hc.semaphores])
  cases f with
  | core f =>
    obtain ⟨k, hk, rfl⟩ := Option.map_eq_some_iff.mp h
    exact hs.coreCall hclock hhalt happ hf hk
  | mutex f =>
    cases f with
    | lock m =>
      obtain ⟨-, ⟨⟩⟩ := Option.ite_none_right_eq_some.mp h
      exact hs.lockLoop happ m
    | lockTimeout m n =>
      have := (Option.ite_none_right_eq_some.mp h).1.1
      simp [hc.lockTimeout] at this
    | tryLock m => obtain rfl := Option.some.inj h; exact hs.tryLock m
    | unlock m =>
      obtain ⟨-, ⟨⟩⟩ := Option.ite_none_right_eq_some.mp h
      exact hs.unlock m
  | sem f => cases f with
    | wait i => exact (noSem i).elim
    | waitTimeout i => exact (noSem i).elim
    | post i => exact (noSem i).elim
    | tryWait i => exact (noSem i).elim
    | maxInit i => exact (noSem i).elim
  | messageQueue f =>
    cases f with
    | put q message => exact hs.putLoop happ h
    | get q message => exact hs.getLoop happ h
    | tryPut q message =>
      obtain ⟨⟨b, t⟩, hr, rfl⟩ := Option.map_eq_some_iff.mp h
      exact hs.attempt (messageQueueTryPut_attempt hr)
    | tryGet q message =>
      obtain ⟨⟨b, t⟩, hr, rfl⟩ := Option.map_eq_some_iff.mp h
      exact hs.attempt (messageQueueTryGet_attempt hr)
    | putTimeout q message n =>
      exact hs.putTimeoutLoop hhalt happ (Option.ite_none_left_eq_some.mp h).2
    | getTimeout q message n =>
      exact hs.getTimeoutLoop hhalt happ (Option.ite_none_left_eq_some.mp h).2

theorem TaskTimerSound.afterWait (hs : TaskTimerSound s) (hhalt : s.core.halted = none) {w : Wait c}
    (hpc : s.core.pc s.currentTask = .wait w) {k : Core c S}
    (hk : signalWaitReturn w s.core = some k)
    (h : State.afterWait w.cont { s with core := k } = some s') : TaskTimerSound s' := by
  have hhalt' : k.halted = none := by
    obtain ⟨-, rfl⟩ := signalWaitReturn_eq_some.mp hk
    exact hhalt
  have happ : k.pc k.currentTask = .app := by
    obtain ⟨-, rfl⟩ := signalWaitReturn_eq_some.mp hk
    simp
  have hreturned := hs.returned hpc hk
  have htimeout := hs.returnedTimeout hpc hk
  have hat := hs.held s.currentTask
  rw [hpc] at hat
  obtain ⟨r, b, blocked, cont⟩ := w
  cases cont with
  | signalWaitSet => obtain rfl := Option.some.inj h; exact hreturned rfl
  | sleep n start =>
    obtain rfl := Option.some.inj h
    exact (hreturned rfl).apart (.of_eq rfl rfl rfl) rfl rfl
  | mutexLock m => obtain rfl := Option.some.inj h; exact (hreturned rfl).lockLoop happ m
  | messageQueuePut q message => exact (hreturned rfl).putLoop happ h
  | messageQueueGet q message => exact (hreturned rfl).getLoop happ h
  | messageQueuePutTimeout q message d => exact htimeout.putTimeoutLoop hhalt' happ h
  | messageQueueGetTimeout q message d => exact htimeout.getTimeoutLoop hhalt' happ h
  | _ => exact hat.elim

theorem TaskTimerSound.resume (hs : TaskTimerSound s) (hhalt : s.core.halted = none)
    (h : State.resume s = some s') : TaskTimerSound s' := by
  cases hpc : s.core.pc s.currentTask with
  | app =>
    simp only [State.resume, hpc] at h
    cases h
  | entered e =>
    have hat := hs.held s.currentTask
    rw [hpc] at hat
    exact hat.elim
  | wait w =>
    simp only [State.resume, hpc] at h
    cases hk : signalWaitReturn w s.core with
    | none =>
      simp only [hk] at h
      obtain rfl := Option.some.inj h
      exact hs.apart (.of_eq rfl rfl rfl) rfl rfl
    | some k =>
      simp only [hk] at h
      exact hs.afterWait hhalt hpc hk h

theorem TaskTimerSound.step (hs : TaskTimerSound s) (hc : RigelComponents c)
    (hclock : s.core.halted = none → Clocked [] s.core) {a : Act c} (ha : SparesTaskTimer a)
    (h : State.step a s = some s') : TaskTimerSound s' := by
  obtain ⟨hhalt, h⟩ := Option.ite_none_left_eq_some.mp h
  replace hhalt : s.core.halted = none := by simpa using hhalt
  replace hclock := hclock hhalt
  cases a with
  | kernel a =>
    obtain ⟨k, hk, rfl⟩ := Option.map_eq_some_iff.mp h
    rcases act_cases hk with hstill | ⟨fuel, again, rfl, hswitch⟩ | rfl | rfl
    · exact hs.apart (.of_eq hstill.pc hstill.timers hstill.signals) rfl rfl
    · exact hs.apart (.of_eq hswitch.pc hswitch.timers hswitch.signals) rfl rfl
    · exact hs.apart ((interruptEventProcess_apart hclock.events).trans (.of_eq rfl rfl rfl)) rfl rfl
    · exact (hs.tick hclock.userTimers).apart (.of_eq rfl rfl rfl) rfl rfl
  | call f =>
    obtain ⟨happ, h⟩ := Option.ite_none_right_eq_some.mp h
    exact hs.call hc hclock hhalt (inApp_iff.mp happ).2 ha h
  | resume => exact hs.resume hhalt (Option.ite_none_right_eq_some.mp h).2
  | store address byte =>
    obtain ⟨-, ⟨⟩⟩ := Option.ite_none_right_eq_some.mp h
    exact hs.apart (.refl s.core) rfl rfl

/-! ### Runs -/

/-- A task that sleeps is registered for nothing. -/
theorem TaskTimerSound.not_registered (hs : TaskTimerSound s) {t : c.TaskId} {w : Wait c}
    {n : BitVec 16} {start : ℕ} (hw : s.core.InSleep t w n start) :
    s.mutexWaiters t = none ∧ s.messageQueueWaiters t = none := by
  have hat := hs.held t
  obtain ⟨hpc, hcont⟩ := hw
  rw [hpc] at hat
  obtain ⟨r, b, blocked, cont⟩ := w
  subst hcont
  exact ⟨hat.2.1, hat.2.2.1⟩

/-- In Rigel no wake-up is stray. -/
theorem TaskTimerSound.noStrayWakeup (hs : TaskTimerSound s) (hc : RigelComponents c) {a : Act c}
    (h : State.step a s = some s') : NoStrayWakeup a s := by
  have h := (Option.ite_none_left_eq_some.mp h).2
  cases a with
  | call f =>
    obtain ⟨happ, -⟩ := Option.ite_none_right_eq_some.mp h
    cases f with
    | core f =>
      cases f with
      | sleep n =>
        have hbit : s.core.taskTimerPending s.currentTask = false :=
          congrArg Held.pending (hs.nothing (inApp_iff.mp happ).2)
        exact .inr (Bool.eq_false_iff.mp hbit)
      | _ => trivial
    | mutex f =>
      cases f with
      | unlock m =>
        rintro t ht ⟨⟨w, n, start, hw⟩, -⟩
        rw [(hs.not_registered hw).1] at ht
        cases ht
      | _ => trivial
    | sem f =>
      cases f with
      | post i => exact absurd i.isLt (by simp [hc.semaphores])
      | _ => trivial
    | messageQueue f => trivial
  | _ => trivial

theorem TaskTimerSound.queueWaitersAwake (hs : TaskTimerSound s) : s.QueueWaitersAwake := by
  intro t q ht w n start hw
  rw [(hs.not_registered hw).2] at ht
  cases ht

theorem ReachedBy.taskTimerSound (h : s.ReachedBy fun a _ => SparesTaskTimer a)
    (hc : RigelComponents c)
    (htimers : ∀ i, ¬ IsTaskTimer i → ¬ HasTaskTimer (c.timersInit i).signalSet)
    (hevents : ∀ i, ¬ HasTaskTimer (c.interruptEventsInit i).sigSet) :
    TaskTimerSound s ∧ SleepSound s := by
  obtain ⟨memory, h⟩ := h
  refine Reach.invariant (I := fun s => TaskTimerSound s ∧ SleepSound s) h
    ⟨⟨fun t => ?_, fun t => ?_⟩, .start htimers hevents⟩
    fun s a s' _ hs ha hstep => ⟨hs.1.step hc hs.2.clocked ha hstep,
      hs.2.step hstep hs.1.queueWaitersAwake ha (hs.1.noStrayWakeup hc hstep)⟩
  · rw [show (State.start memory : State c S).core.timers = c.timersInit from rfl, c.taskTimers_init]
    exact ⟨rfl, rfl, rfl, rfl⟩
  · show Held.mk _ _ _ _ = Held.nothing
    simp [State.start, Core.start, taskTimerPending, c.taskTimers_init, Held.nothing]

/-- Task `t` is inside `sleep`, `mutex_lock` or a wait of a message queue. -/
def AwaitsTaskTimer (s : State c S) (t : c.TaskId) : Prop :=
  ∃ w, s.core.pc t = .wait w ∧ w.cont ≠ .signalWaitSet

theorem TaskTimerSound.nothing_of_not_awaits (hs : TaskTimerSound s) {t : c.TaskId}
    (h : ¬ s.AwaitsTaskTimer t) : s.held t = .nothing := by
  have hat := hs.held t
  cases hpc : s.core.pc t with
  | app => exact hs.nothing hpc
  | entered e =>
    rw [hpc] at hat
    exact hat.elim
  | wait w =>
    rw [hpc] at hat
    obtain ⟨r, b, blocked, cont⟩ := w
    by_cases hcont : cont = .signalWaitSet
    · subst hcont
      exact hat
    · exact absurd ⟨_, hpc, hcont⟩ h

end State

open State

/-- In Rigel sleeping, mutexes and message queues can share one signal. Outside their functions a
    task has no `_task_timer` pending, is registered for nothing, and has its timer disabled; and no
    sleep ends early. -/
theorem task_timer_shared (hc : RigelComponents c)
    (htimers : ∀ i, ¬ Core.IsTaskTimer i → ¬ Core.HasTaskTimer (c.timersInit i).signalSet)
    (hevents : ∀ i, ¬ Core.HasTaskTimer (c.interruptEventsInit i).sigSet)
    (s : State c (rigelSched c.tasks c.mutexes c.tasks_pos))
    (h : s.ReachedBy fun a _ => SparesTaskTimer a) :
    (∀ t, ¬ s.AwaitsTaskTimer t → ¬ s.core.taskTimerPending t ∧ s.mutexWaiters t = none ∧
      s.messageQueueWaiters t = none ∧ (s.core.timers (c.taskTimers t)).enabled = false) ∧
    Punctual s.core.history := by
  obtain ⟨hs, hsleep⟩ := h.taskTimerSound hc htimers hevents
  refine ⟨fun t ht => ?_, hsleep.punctual⟩
  have hnothing := hs.nothing_of_not_awaits ht
  exact ⟨Bool.eq_false_iff.mp (congrArg Held.pending hnothing), congrArg Held.mutex hnothing,
    congrArg Held.messageQueue hnothing, congrArg Held.timer hnothing⟩

/-- A task that has received a message in time goes to sleep, and returns after its tick. -/
theorem task_timer_shared_received :
    ∃ s : State (.plain 2 0 0 1 false false Nat.two_pos) (rigelSched 2 0 Nat.two_pos),
      s.core.history.any Event.isSlept = true ∧ ¬ s.core.taskTimerPending 0 ∧
      (s.core.timers 0).enabled = false ∧ Punctual s.core.history := by
  obtain ⟨s, hs, hp⟩ := exists_reachedBy_of_run
    (c := .plain 2 0 0 1 false false Nat.two_pos) (S := rigelSched 2 0 Nat.two_pos)
    (fun a _ => SparesTaskTimer a) (fun _ _ => true)
    (Act.call (.messageQueue (.getTimeout 0 64 5)) :: reschedule ++
      [Act.call (.messageQueue (.put 0 80)), .call (.core .yield)] ++ reschedule ++
      [Act.resume, .call (.core (.sleep 1)), .kernel .timerTick] ++ reschedule ++
      [Act.call (.core .yield)] ++ reschedule ++ [Act.resume])
    (fun s => s.core.history.any Event.isSlept && (s.inApp && decide (s.currentTask = 0)))
    (by simp [reschedule, SparesTaskTimer, Core.Call.Spares]) (by decide +kernel)
  obtain ⟨hslept, happ⟩ := Bool.and_eq_true_iff.mp hp
  obtain ⟨hin, hcurrent⟩ := Bool.and_eq_true_iff.mp happ
  have happ : s.core.pc s.currentTask = .app := (inApp_iff.mp hin).2
  rw [of_decide_eq_true hcurrent] at happ
  have hout : ¬ s.AwaitsTaskTimer 0 := by
    rintro ⟨w, hw, -⟩
    cases happ.symm.trans hw
  obtain ⟨hrest, hpunctual⟩ := task_timer_shared ⟨rfl, rfl⟩ (fun i hi => absurd ⟨i, rfl⟩ hi)
    (fun i => Fin.elim0 i) s hs
  exact ⟨s, hslept, (hrest 0 hout).1, (hrest 0 hout).2.2.2, hpunctual⟩

end Echronos
