import Echronos.Kernel.Steps
import Echronos.Properties.Clock
import Echronos.Variants.Variant

/-! # Sleeping tasks

    A task inside `sleep` waits for `_task_timer`, which its timer sends at the end of the sleep. The
    same signal tells a task that a mutex or semaphore it is registered for is free, and a call of
    `mutex_lock_timeout` or `sem_wait_timeout` that times out leaves its registration behind: the
    signal of a later unlock or post can end a sleep early, or be pending when the sleep begins.
    While no signal does, no sleep returns early. -/

namespace Echronos

open Schemes

variable {c : Config} {S : Sched c.tasks c.mutexes}

/-! ### Returns of `sleep` in a history -/

def Event.isSlept : Event c → Bool
  | .slept _ _ _ _ => true
  | _ => false

/-- Every return of `sleep` comes after the ticks it was called for. -/
def Punctual (h : List (Event c)) : Prop :=
  ∀ t n start now, .slept t n start now ∈ h → start + n.toNat ≤ now

theorem Punctual.of_filter {h h' : List (Event c)} (hh : Punctual h)
    (hf : h'.filter Event.isSlept = h.filter Event.isSlept) : Punctual h' := by
  intro t n start now hm
  have : Event.slept t n start now ∈ h'.filter Event.isSlept := List.mem_filter.mpr ⟨hm, rfl⟩
  rw [hf] at this
  exact hh t n start now (List.mem_filter.mp this).1

theorem Event.component_of_isSlept {e : Event c} (h : e.isSlept = true) :
    e.component = some .kernel := by
  cases e <;> simp_all [Event.isSlept, Event.component]

/-- The function sends `_task_timer` to the tasks registered for its object, or is called by
    application code with any arguments. -/
def Service.wakes : Service c → Bool
  | .core _ => true
  | .mutexUnlock _ => true
  | .semPost _ => true
  | _ => false

namespace Core

theorem Wakes.slept {k k' : Core c S} (h : Wakes ∅ k k') :
    k'.history.filter Event.isSlept = k.history.filter Event.isSlept := by
  refine h.filter_history (fun e he => ?_) fun e he => ?_
  · cases e <;> simp_all [Event.isSlept, Event.Of, Event.component]
  · cases e <;> simp_all [Event.isSlept, Event.isSignal]

/-- A call returns from `sleep` in a later step only. -/
theorem call_slept {f : Call c} {k k' : Core c S} (h : call f k = some k') :
    k'.history.filter Event.isSlept = k.history.filter Event.isSlept := by
  have hwait : ∀ (n : BitVec 16) (start : ℕ) (k'' : Core c S), Wakes ∅ k k'' →
      (andThen (waitTaskTimer (.sleep n start)) k'').history.filter Event.isSlept =
        k.history.filter Event.isSlept := by
    intro n start k'' hw
    unfold andThen
    split
    · exact hw.slept
    · simpa [waitTaskTimer] using hw.slept
  cases f with
  | yield => obtain ⟨-, ⟨⟩⟩ := Option.ite_none_left_eq_some.mp h; rfl
  | signalSendSet t set =>
    obtain rfl := Option.some.inj h
    simp [signalSendSet, unblock, Event.isSlept]
  | signalWaitSet r => obtain rfl := Option.some.inj h; simp
  | signalPollSet r => obtain rfl := Option.some.inj h; simp [signalRecv, Event.isSlept]
  | sleep n => obtain rfl := Option.some.inj h; exact hwait n _ _ (timerOneshot_wakes _ _ _)
  | timerEnable i => obtain rfl := Option.some.inj h; exact (timerEnable_wakes i k).slept
  | timerOneshot i n => obtain rfl := Option.some.inj h; exact (timerOneshot_wakes i n k).slept
  | timerSignalSet i t set => obtain ⟨-, ⟨⟩⟩ := Option.ite_none_left_eq_some.mp h; rfl
  | interruptEventTaskSet i t => obtain ⟨-, ⟨⟩⟩ := Option.ite_none_left_eq_some.mp h; rfl
  | _ => obtain rfl := Option.some.inj h; rfl

theorem Clocked.afterReceive {k : Core c S} (h : Clocked [] k) (ha : Awake k) (cont : Cont c) :
    Clocked [] (afterReceive cont k) := by
  cases cont with
  | sleep => exact h.frame rfl rfl rfl rfl rfl rfl
  | mutexLockTimeout => exact h.retime ha.idle rfl rfl
  | semWaitTimeout => exact h.retime ha.idle rfl rfl
  | messageQueuePutTimeout => exact h.retime ha.idle rfl rfl
  | messageQueueGetTimeout => exact h.retime ha.idle rfl rfl
  | _ => exact h

end Core

namespace State

open Echronos.Core

/-! ### Pieces -/

theorem blockTimeout_clocked {s : State c S} (h : Clocked [] s.core) (ha : s.core.Awake)
    (b : Option c.TaskId) (n : BitVec 16) {cont : Cont c} (hcont : ∀ n start, cont ≠ .sleep n start)
    (hhalt : (s.blockTimeout b n cont).core.halted = none) :
    Clocked [] (s.blockTimeout b n cont).core := by
  obtain ⟨hnone, heq⟩ := andThen_of_halted hhalt
  have hwait := (h.oneshot ha.idle hnone).wait c.signalIdTaskTimer b
    fun m start hm => absurd hm (hcont m start)
  rw [← heq] at hwait
  exact hwait

/-- No task registered for a message queue is inside `sleep`. -/
def QueueWaitersAwake (s : State c S) : Prop :=
  ∀ t q, s.messageQueueWaiters t = some q → ∀ w n start, ¬ s.core.InSleep t w n start

theorem QueueWaitersAwake.of_no_queues (hq : c.messageQueues = 0) (s : State c S) :
    s.QueueWaitersAwake := fun _ q => absurd q.isLt (by omega)

/-- Tasks stay where they are, and none is registered. -/
theorem QueueWaitersAwake.frame {s s' : State c S} (h : s.QueueWaitersAwake)
    (hpc : s'.core.pc = s.core.pc) (hreg : ∀ t q, s'.messageQueueWaiters t = some q →
      s.messageQueueWaiters t = some q) : s'.QueueWaitersAwake := fun t q ht w n start hw =>
  h t q (hreg t q ht) w n start ⟨hpc ▸ hw.1, hw.2⟩

/-- The current task goes on to a place outside `sleep`. -/
theorem QueueWaitersAwake.goto {s s' : State c S} (h : s.QueueWaitersAwake) {p : Pc c}
    (hpc : s'.core.pc = Function.update s.core.pc s.currentTask p)
    (hp : ∀ w n start, p = .wait w → w.cont ≠ .sleep n start)
    (hreg : ∀ t, t ≠ s.currentTask → s'.messageQueueWaiters t = s.messageQueueWaiters t) :
    s'.QueueWaitersAwake := by
  rintro t q ht w n start ⟨hw, hcont⟩
  rw [hpc] at hw
  by_cases htc : t = s.currentTask
  · subst htc
    exact hp w n start (by simpa using hw) hcont
  · exact h t q (hreg t htc ▸ ht) w n start ⟨by simpa [htc] using hw, hcont⟩

/-- The current task waits with a timeout for an object. -/
theorem QueueWaitersAwake.blockTimeout {s : State c S} (h : s.QueueWaitersAwake)
    (b : Option c.TaskId) (n : BitVec 16) {cont : Cont c}
    (hcont : ∀ n start, cont ≠ .sleep n start) : (s.blockTimeout b n cont).QueueWaitersAwake := by
  obtain ⟨k, hw, heq | heq⟩ := blockTimeout_cases s b n cont
  · rw [heq]
    exact h.frame (funext fun t => (hw.other t).pc) fun _ _ => id
  · rw [heq]
    have hpc := signalWaitSet_pc c.signalIdTaskTimer b cont k
    rw [hw.currentTask, funext fun t => (hw.other t).pc] at hpc
    refine h.goto hpc (fun w m start he => ?_) fun _ _ => rfl
    obtain rfl := Pc.wait.inj he
    exact hcont m start

/-- The current task registers itself for a queue, or removes its registration. -/
theorem QueueWaitersAwake.register {s : State c S} (h : s.QueueWaitersAwake) (ha : s.core.Awake)
    (q : Option c.MessageQueueId) : (messageQueueRegister q s).QueueWaitersAwake := by
  intro t r ht w n start hw
  have htc : t ≠ s.currentTask := by
    rintro rfl
    exact ha w hw.1
  exact h t r (by simpa [messageQueueRegister, htc] using ht) w n start hw

/-- Waking the tasks registered for an object is sound if none of them sleeps on. -/
theorem wakeWaiters_clocked {ι : Type} [DecidableEq ι] (o : ι) (waiters : c.TaskId → Option ι)
    {k : Core c S} (hk : Clocked [] k) (ho : ∀ t, waiters t = some o → ∀ w n start,
      k.InSleep t w n start → start + n.toNat ≤ k.processed) :
    Clocked [] (wakeWaiters o waiters k).2 := by
  let p (r : (c.TaskId → Option ι) × Core c S) : Prop :=
    Clocked [] r.2 ∧ r.2.pc = k.pc ∧ r.2.processed = k.processed ∧
      ∀ t, r.1 t = some o → waiters t = some o
  refine (scan_invariant (p := p) (fun r t hr => ?_) ⟨hk, rfl, rfl, fun _ => id⟩).1
  obtain ⟨hc, hpc, hproc, hreg⟩ := hr
  split
  · rename_i ht
    refine ⟨hc.send t fun _ w n start hw => ?_, hpc, hproc, fun u hu => ?_⟩
    · rw [hproc]
      exact ho t (hreg t ht) w n start ⟨hpc ▸ hw.1, hw.2⟩
    · by_cases hut : u = t
      · subst hut; simp at hu
      · exact hreg u (by simpa [hut] using hu)
  · exact ⟨hc, hpc, hproc, hreg⟩

/-- Waking the tasks registered for a queue. -/
theorem QueueWaitersAwake.wakeup {s : State c S} (h : s.QueueWaitersAwake) (q : c.MessageQueueId) :
    (messageQueueWaitersWakeup q s).QueueWaitersAwake := by
  refine h.frame (wakeWaiters_pc _ _ _) fun t r ht => ?_
  have hreg := (wakeWaiters_waiters q s.messageQueueWaiters s.core t).symm.trans ht
  split at hreg
  · cases hreg
  · exact hreg

theorem Attempt.queueWaitersAwake {s s' : State c S} {q : c.MessageQueueId} (h : Attempt q s s')
    (hs : s.QueueWaitersAwake) : s'.QueueWaitersAwake := by
  cases h with
  | failed => exact hs
  | moved => exact hs
  | woke mq memory => exact QueueWaitersAwake.wakeup (s := messageQueueSet q mq memory s) hs q

theorem Attempt.clocked {s s' : State c S} {q : c.MessageQueueId} (h : Attempt q s s')
    (hs : Clocked [] s.core) (hq : s.QueueWaitersAwake) : Clocked [] s'.core := by
  cases h with
  | failed => exact hs
  | moved => exact hs
  | woke =>
    exact wakeWaiters_clocked q s.messageQueueWaiters hs fun t ht w n start hw =>
      absurd hw (hq t q ht w n start)

theorem ne_sleep_of_messageQueue {cont : Cont c} {q : c.MessageQueueId}
    (h : cont.messageQueue = some q) (n : BitVec 16) (start : ℕ) : cont ≠ .sleep n start := by
  rintro rfl
  cases h

/-- Code that wakes no sleeping task. -/
theorem Piece.clocked {x : Service c} {s s' : State c S} (h : Piece x s s')
    (hq : s.QueueWaitersAwake) (hx : x.wakes = false) (hhalt : s'.core.halted = none)
    (hs : Clocked [] s.core) : Clocked [] s'.core := by
  cases h with
  | still hk =>
    exact hs.frame hk.timerCurrentTicks hk.processed hk.interruptEvents hk.timers hk.signals hk.pc
  | switch hk =>
    exact hs.frame hk.timerCurrentTicks hk.processed hk.interruptEvents hk.timers hk.signals hk.pc
  | events => exact hs.interruptEvents.frame rfl rfl rfl rfl rfl rfl
  | tick => exact Clocked.frame (hs.tick hhalt) rfl rfl rfl rfl rfl rfl
  | store => exact hs
  | core => cases hx
  | enter => exact hs.setPc nofun
  | leave => exact hs.setPc nofun
  | block => exact hs.frame rfl rfl rfl rfl rfl rfl
  | receive w =>
    have happ : Clocked [] (signalRecv s.core.currentTask w.requested (setPc .app s.core)).2 :=
      (hs.setPc (p := .app) nofun).receive _ _ fun w' _ _ hw => by simpa using hw.1
    exact happ.afterReceive (.of_app (by simp)) w.cont
  | giveUp => exact hs.frame rfl rfl rfl rfl rfl rfl
  | mutexAcquire _ m _ _ hm =>
    rw [mutexTryLock_of_none hm]
    exact hs.frame rfl rfl rfl rfl rfl rfl
  | mutexWait m => exact hs.wait _ _ nofun
  | mutexWaitTimeout m d ha =>
    exact blockTimeout_clocked (s := mutexRegister m s) hs ha _ _ nofun hhalt
  | mutexUnlock => cases hx
  | semTake i _ hv =>
    rw [internalSemTryWait_of_ne hv]
    exact hs.frame rfl rfl rfl rfl rfl rfl
  | semWait i => exact hs.wait _ _ nofun
  | semWaitTimeout i d ha =>
    exact blockTimeout_clocked (s := semRegister i s) hs ha _ _ nofun hhalt
  | semPost => cases hx
  | semMaxStore => exact hs.frame rfl rfl rfl rfl rfl rfl
  | messageQueuePut q _ _ hput =>
    exact (messageQueueTryPut_attempt hput).clocked hs hq
  | messageQueueGet q _ _ hget =>
    exact (messageQueueTryGet_attempt hget).clocked hs hq
  | messageQueueWait q cont _ hcont =>
    exact hs.wait _ _ fun n start he => absurd he (ne_sleep_of_messageQueue hcont n start)
  | messageQueueWaitTimeout q d cont ha hcont =>
    exact blockTimeout_clocked (s := messageQueueRegister (some q) s) hs ha _ _
      (ne_sleep_of_messageQueue hcont) hhalt
  | messageQueueUnregister => exact hs

/-- No registered task goes to sleep, and no sleeping one registers. -/
theorem Piece.queueWaitersAwake {x : Service c} {s s' : State c S} (h : Piece x s s')
    (hx : x.wakes = false) (hs : s.QueueWaitersAwake) : s'.QueueWaitersAwake := by
  cases h with
  | still hk => exact hs.frame hk.pc fun _ _ => id
  | switch hk => exact hs.frame hk.pc fun _ _ => id
  | events =>
    exact hs.frame (funext fun t => ((interruptEventProcess_wakes (A := ∅) _).other t).pc)
      fun _ _ => id
  | tick =>
    exact hs.frame (funext fun t => ((timerTickProcess_wakes (A := ∅) _).other t).pc) fun _ _ => id
  | store => exact hs
  | core => cases hx
  | enter => exact hs.goto rfl nofun fun _ _ => rfl
  | leave => exact hs.goto rfl nofun fun _ _ => rfl
  | block => exact hs.frame rfl fun _ _ => id
  | receive w =>
    exact hs.goto (afterReceive_quiet (A := Set.univ) trivial w.cont _).pc nofun fun _ _ => rfl
  | giveUp => exact hs
  | mutexAcquire _ m _ _ hm => rw [mutexTryLock_of_none hm]; exact hs
  | mutexWait m =>
    exact hs.goto (signalWaitSet_pc _ _ _ _) (fun w n start he => by cases he; nofun) fun _ _ => rfl
  | mutexWaitTimeout m =>
    exact QueueWaitersAwake.blockTimeout (s := mutexRegister m s) hs _ _ nofun
  | mutexUnlock => cases hx
  | semTake i _ hv => rw [internalSemTryWait_of_ne hv]; exact hs
  | semWait i =>
    exact hs.goto (signalWaitSet_pc _ _ _ _) (fun w n start he => by cases he; nofun) fun _ _ => rfl
  | semWaitTimeout i =>
    exact QueueWaitersAwake.blockTimeout (s := semRegister i s) hs _ _ nofun
  | semPost => cases hx
  | semMaxStore => exact hs
  | messageQueuePut q _ _ hput =>
    exact (messageQueueTryPut_attempt hput).queueWaitersAwake hs
  | messageQueueGet q _ _ hget =>
    exact (messageQueueTryGet_attempt hget).queueWaitersAwake hs
  | messageQueueWait q cont ha hcont =>
    refine (hs.register ha (some q)).goto (signalWaitSet_pc _ _ _ _) (fun w n start he => ?_)
      fun _ _ => rfl
    obtain rfl := Pc.wait.inj he
    exact ne_sleep_of_messageQueue hcont n start
  | messageQueueWaitTimeout q d cont ha hcont =>
    exact (hs.register ha (some q)).blockTimeout _ _ (ne_sleep_of_messageQueue hcont)
  | messageQueueUnregister q ha => exact hs.register ha none

/-- A piece of code records a return of `sleep` when a task has received its signal. -/
theorem Piece.punctual {x : Service c} {s s' : State c S} (h : Piece x s s')
    (hs : s.core.halted = none → Clocked [] s.core) (hp : Punctual s.core.history) :
    Punctual s'.core.history := by
  by_cases hx : x.component = .kernel
  · cases h with
    | still hk => rw [hk.history]; exact hp
    | switch hk => rw [hk.history]; exact hp
    | events => exact hp.of_filter (interruptEventProcess_wakes _).slept
    | tick => exact hp.of_filter (timerTickProcess_wakes _).slept
    | store => exact hp
    | core f _ hf => exact hp.of_filter (call_slept hf)
    | leave => exact hp
    | block => exact hp
    | receive w hnone hpc hpeek =>
      obtain ⟨r, b, blocked, cont⟩ := w
      cases cont with
      | sleep n start =>
        have hr := (hs hnone).resting s.currentTask _ n start ⟨hpc, rfl⟩
        have hover : start + n.toNat ≤ s.core.processed := by
          by_cases htt : s.core.taskTimerPending s.currentTask
          · exact hr.ended htt
          · have hpeek := hpeek (hr.armed htt).blocked
            rw [show r = c.signalIdTaskTimer from hr.requested, signalPeek_taskTimer] at hpeek
            exact absurd hpeek htt
        intro t m begin now hm
        rcases List.mem_cons.mp hm with he | hm
        · obtain ⟨-, rfl, rfl, rfl⟩ := Event.slept.inj he
          exact hover
        · rcases List.mem_cons.mp hm with he | hm
          · cases he
          · exact hp t m begin now hm
      | _ =>
        refine hp.of_filter ?_
        simp [onCore, afterReceive, signalRecv, setPc, timerDisable, setTimer, Event.isSlept]
    | giveUp => exact hp.of_filter (by simp [State.giveUp, onCore, record, Event.isSlept])
    | mutexAcquire _ m hl => exact absurd ((component_of_locks hl).symm.trans hx) (by decide)
    | _ => cases hx
  · exact hp.of_filter (h.filter_history hx fun _ => Event.component_of_isSlept)

/-! ### Runs -/

/-- Task `t` is inside `sleep`, and nothing has told it to go on. -/
def Asleep (s : State c S) (t : c.TaskId) : Prop :=
  (∃ w n start, s.core.InSleep t w n start) ∧ ¬ s.core.taskTimerPending t

/-- Application code leaves `_task_timer` and the timers of tasks to the kernel. -/
def SparesTaskTimer : Act c → Prop
  | .call (.core f) => f.Spares
  | _ => True

/-- No `_task_timer` is pending when a task goes to sleep, and `mutex_unlock` and `sem_post` send none
    to a task that is asleep. -/
def NoStrayWakeup : Act c → State c S → Prop
  | .call (.core (.sleep n)), s => n = 0 ∨ ¬ s.core.taskTimerPending s.currentTask
  | .call (.mutex (.unlock m)), s => ∀ t, s.mutexWaiters t = some m → ¬ s.Asleep t
  | .call (.sem (.post i)), s =>
    (s.semaphores i).value = 0 → ∀ t, s.semWaiters t = some i → ¬ s.Asleep t
  | _, _ => True

theorem not_asleep_over {s : State c S} (hs : Clocked [] s.core) {t : c.TaskId}
    (ht : ¬ s.Asleep t) {w : Wait c} {n : BitVec 16} {start : ℕ} (hw : s.core.InSleep t w n start) :
    start + n.toNat ≤ s.core.processed := by
  refine (hs.resting t w n start hw).ended ?_
  by_contra hp
  exact ht ⟨⟨w, n, start, hw⟩, hp⟩

theorem mutexUnlock_clocked {s : State c S} (hs : Clocked [] s.core) {m : c.MutexId}
    (hm : ∀ t, s.mutexWaiters t = some m → ¬ s.Asleep t) : Clocked [] (mutexUnlock m s).core := by
  have hwake := wakeWaiters_clocked m s.mutexWaiters
    (k := { s.core with sched := S.schedSetMutexUnlocked m s.core.sched })
    (hs.frame rfl rfl rfl rfl rfl rfl) fun t ht w n start hw => not_asleep_over hs (hm t ht) hw
  exact hwake.frame rfl rfl rfl rfl rfl rfl

theorem semPost_clocked {s : State c S} (hs : Clocked [] s.core) {i : c.SemId}
    (hi : (s.semaphores i).value = 0 → ∀ t, s.semWaiters t = some i → ¬ s.Asleep t) :
    Clocked [] (semPost i s).core := by
  unfold semPost
  dsimp only
  split
  · exact hs.frame rfl rfl rfl rfl rfl rfl
  · have hwake : Clocked [] (if (s.semaphores i).value = 0 then
        wakeWaiters i s.semWaiters s.core else (s.semWaiters, s.core)).2 := by
      split
      · rename_i hv
        exact wakeWaiters_clocked i s.semWaiters hs fun t ht w n start hw =>
          not_asleep_over hs (hi hv t ht) hw
      · exact hs
    exact hwake.frame rfl rfl rfl rfl rfl rfl

theorem semPost_slept (i : c.SemId) (s : State c S) :
    (semPost i s).core.history.filter Event.isSlept =
      s.core.history.filter Event.isSlept := by
  unfold semPost
  dsimp only
  split
  · rfl
  · split
    · simpa [record, Event.isSlept] using (wakeWaiters_wakes i s.semWaiters s.core).slept
    · simp [record, Event.isSlept]

/-- The code of a task that goes on wakes no registered task. -/
theorem wakes_resume (s : State c S) : (s.service .resume).wakes = false := by
  cases hpc : s.core.pc s.currentTask with
  | app => simp [service, hpc, Service.wakes]
  | entered e => cases e <;> simp [service, hpc, Entry.service, Service.wakes]
  | wait w =>
    obtain ⟨r, b, blocked, cont⟩ := w
    cases cont <;> simp [service, hpc, Cont.service, Service.wakes]

structure SleepSound (s : State c S) : Prop where
  clocked : s.core.halted = none → Clocked [] s.core
  punctual : Punctual s.core.history

theorem SleepSound.step {a : Act c} {s s' : State c S} (hs : SleepSound s)
    (hstep : step a s = some s') (hq : s.QueueWaitersAwake) (hspares : SparesTaskTimer a)
    (hstray : NoStrayWakeup a s) : SleepSound s' := by
  obtain ⟨hnone, h⟩ := Option.ite_none_left_eq_some.mp hstep
  have hclocked := hs.clocked (by simpa using hnone)
  have quiet (hx : (s.service a).wakes = false) : SleepSound s' := by
    refine ((step_pieces hstep).invariant (I := fun s => SleepSound s ∧ s.QueueWaitersAwake)
      (fun y t t' hy hp ht => ?_) ⟨hs, hq⟩).1
    have hy : y.wakes = false := by
      rcases hy with rfl | rfl
      · rfl
      · exact hx
    exact ⟨⟨fun hh => hp.clocked ht.2 hy hh (ht.1.clocked (hp.halted hh)),
      hp.punctual ht.1.clocked ht.1.punctual⟩, hp.queueWaitersAwake hy ht.2⟩
  cases a with
  | kernel a => exact quiet (by cases a <;> rfl)
  | store => exact quiet rfl
  | resume => exact quiet (wakes_resume s)
  | call f =>
    obtain ⟨happ, h⟩ := Option.ite_none_right_eq_some.mp h
    have hpc := (inApp_iff.mp happ).2
    cases f with
    | core f =>
      obtain ⟨k, hk, rfl⟩ := Option.map_eq_some_iff.mp h
      refine ⟨fun hhalt => hclocked.call hpc hspares (fun n hn => ?_) hk hhalt,
        hs.punctual.of_filter (call_slept hk)⟩
      subst hn
      exact hstray
    | mutex f =>
      cases f with
      | unlock m =>
        obtain ⟨hm, ⟨⟩⟩ := Option.ite_none_right_eq_some.mp h
        exact ⟨fun _ => mutexUnlock_clocked hclocked hstray,
          Piece.punctual (.mutexUnlock m (.of_app hpc) hm) hs.clocked hs.punctual⟩
      | _ => exact quiet rfl
    | sem f =>
      cases f with
      | post i =>
        obtain ⟨-, ⟨⟩⟩ := Option.ite_none_left_eq_some.mp h
        exact ⟨fun _ => semPost_clocked hclocked hstray,
          hs.punctual.of_filter (semPost_slept i s)⟩
      | _ => exact quiet rfl
    | messageQueue f => exact quiet (by cases f <;> rfl)

theorem SleepSound.start
    (htimers : ∀ i, ¬ IsTaskTimer i → ¬ HasTaskTimer (c.timersInit i).signalSet)
    (hevents : ∀ i, ¬ HasTaskTimer (c.interruptEventsInit i).sigSet) {memory : Memory} :
    SleepSound (State.start memory : State c S) := by
  refine ⟨fun _ => ⟨rfl, hevents, htimers, fun t => ?_, ?_⟩, ?_⟩
  · simp [State.start, Core.start, c.taskTimers_init, HasTaskTimer]
  · rintro t w n start ⟨hw, -⟩
    cases hw
  · simp [Punctual, State.start, Core.start]

theorem ReachedBy.sleepSound {s : State c S}
    (h : s.ReachedBy fun a s => SparesTaskTimer a ∧ NoStrayWakeup a s) (hq : c.messageQueues = 0)
    (htimers : ∀ i, ¬ IsTaskTimer i → ¬ HasTaskTimer (c.timersInit i).signalSet)
    (hevents : ∀ i, ¬ HasTaskTimer (c.interruptEventsInit i).sigSet) : SleepSound s := by
  obtain ⟨memory, h⟩ := h
  exact Reach.invariant h (.start htimers hevents) fun s a s' _ hs ha hstep =>
    hs.step hstep (.of_no_queues hq s) ha.1 ha.2

end State

open State

/-- While no stray wake-up reaches a sleeping task, no sleep ends early. -/
theorem sleep_not_early (v : Variant c) (hq : c.messageQueues = 0)
    (htimers : ∀ i, ¬ Core.IsTaskTimer i → ¬ Core.HasTaskTimer (c.timersInit i).signalSet)
    (hevents : ∀ i, ¬ Core.HasTaskTimer (c.interruptEventsInit i).sigSet) (s : State c v.sched)
    (h : s.ReachedBy fun a s => SparesTaskTimer a ∧ NoStrayWakeup a s) :
    Punctual s.core.history :=
  (h.sleepSound hq htimers hevents).punctual

/-- No `_task_timer` is pending when a task goes to sleep. -/
def sleepsWithNone : Act c → State c S → Bool
  | .call (.core (.sleep _)), s => !decide (s.core.taskTimerPending s.currentTask)
  | _, _ => true

/-- A task that sleeps for a tick returns after it. -/
theorem sleep_not_early_returned :
    ∃ s : State (.plain 2 0 0 0 true false Nat.two_pos) Variant.kochab.sched,
      s.core.history.any Event.isSlept = true ∧ Punctual s.core.history := by
  obtain ⟨s, hs, hp⟩ := exists_reachedBy_of_run
    (c := .plain 2 0 0 0 true false Nat.two_pos) (S := Variant.kochab.sched)
    (fun a s => SparesTaskTimer a ∧ NoStrayWakeup a s) sleepsWithNone
    (Act.call (.core (.sleep 1)) :: reschedule ++ [Act.kernel .timerTick, .kernel .preempt] ++
      reschedule ++ [Act.resume])
    (fun s => s.core.history.any Event.isSlept)
    (by simp [reschedule, sleepsWithNone, SparesTaskTimer, NoStrayWakeup, Core.Call.Spares])
    (by decide +kernel)
  exact ⟨s, hp, sleep_not_early .kochab rfl (fun i hi => absurd ⟨i, rfl⟩ hi) (fun i => Fin.elim0 i) s
    hs⟩

/-- Task `0` stops waiting for a semaphore after a tick and goes to sleep; a post wakes it. -/
def postAfterTimeout : List (Act (.plain 2 0 1 0 true false Nat.two_pos)) :=
  [Act.call (.sem (.waitTimeout 0 1)), .resume] ++ reschedule ++
    [Act.kernel .timerTick, .kernel .preempt] ++ reschedule ++
    [Act.resume, .call (.core (.sleep 5))] ++ reschedule ++
    [Act.call (.sem (.post 0)), .kernel .preempt] ++ reschedule ++ [Act.resume]

/-- A sleep of five ticks ends before the next one. -/
theorem sleep_ends_early :
    ¬ ∀ s : State (.plain 2 0 1 0 true false Nat.two_pos) (kochabSched 2 0),
      s.ReachedBy (fun a _ => SparesTaskTimer a) → Punctual s.core.history := by
  intro hpunctual
  obtain ⟨s, hs, hp⟩ := exists_reachedBy_of_run
    (c := .plain 2 0 1 0 true false Nat.two_pos) (S := kochabSched 2 0)
    (fun a _ => SparesTaskTimer a) (fun _ _ => true) postAfterTimeout
    (fun s => s.core.history.any fun e => match e with
      | .slept _ n start now => n = 5 && start = 1 && now = 1
      | _ => false)
    (by simp [postAfterTimeout, reschedule, SparesTaskTimer, Core.Call.Spares])
    (by decide +kernel)
  obtain ⟨e, hmem, he⟩ := List.any_eq_true.mp hp
  cases e with
  | slept t n start now =>
    obtain ⟨⟨rfl, rfl⟩, rfl⟩ : (n = 5 ∧ start = 1) ∧ now = 1 := by simpa using he
    exact absurd (hpunctual s hs t 5 1 1 hmem) (by decide)
  | _ => cases he

end Echronos
