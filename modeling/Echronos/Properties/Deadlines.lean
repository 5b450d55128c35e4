import Echronos.Kernel.Steps
import Echronos.Kernel.Ticks
import Echronos.Properties.Clock

/-! # Calls with a timeout

    `sem_wait_timeout`, `mutex_lock_timeout`, `message_queue_put_timeout` and
    `message_queue_get_timeout` compare their deadline with the clock while their object is not
    available: they wait with the task's timer set to the rest of the time, or return false. `Turn` is
    what the code of the current task does in this respect, one lemma for each function. -/

namespace Echronos

open Schemes Echronos.Core

variable {c : Config} {S : Sched c.tasks c.mutexes}

/-- The deadline of the function that waits. -/
def Cont.deadline : Cont c → Option Deadline
  | .mutexLockTimeout _ d => some d
  | .semWaitTimeout _ d => some d
  | .messageQueuePutTimeout _ _ d => some d
  | .messageQueueGetTimeout _ _ d => some d
  | _ => none

@[inherit_doc Cont.deadline]
def Entry.deadline : Entry c → Option Deadline
  | .mutexLockTimeout _ d => some d
  | .semWaitTimeout _ d => some d
  | .semMaxInit _ _ => none

/-- The deadline of the function a task is in. -/
def Pc.deadline : Pc c → Option Deadline
  | .app => none
  | .entered e => e.deadline
  | .wait w => w.cont.deadline

def Event.isTimedOut : Event c → Bool
  | .timedOut _ _ _ => true
  | _ => false

namespace Core

/-- The calls that returned false. -/
def timeouts (k : Core c S) : List (Event c) := k.history.filter Event.isTimedOut

/-- Code of the current task that leaves the timers of the other tasks alone, except for their
    overflow marks, changes the times of its own at most, and is no return of false. -/
structure Keeps (k k' : Core c S) : Prop where
  currentTask : k'.currentTask = k.currentTask
  timers : ∀ t, t ≠ k.currentTask → ∃ overflow,
    k'.timers (c.taskTimers t) = { k.timers (c.taskTimers t) with overflow := overflow }
  own : (k'.timers (ownTimer k)).taskId = (k.timers (ownTimer k)).taskId ∧
    (k'.timers (ownTimer k)).signalSet = (k.timers (ownTimer k)).signalSet
  timeouts : k'.timeouts = k.timeouts

variable {k k' k'' : Core c S}

theorem Keeps.of_eq (hcurrent : k'.currentTask = k.currentTask) (htimers : k'.timers = k.timers)
    (htimeouts : k'.timeouts = k.timeouts) : Keeps k k' :=
  ⟨hcurrent, fun t _ => ⟨(k.timers (c.taskTimers t)).overflow, by rw [htimers]⟩,
    by rw [htimers]; exact ⟨rfl, rfl⟩, htimeouts⟩

theorem Keeps.refl (k : Core c S) : Keeps k k := .of_eq rfl rfl rfl

theorem Keeps.trans (h : Keeps k k') (h' : Keeps k' k'') : Keeps k k'' where
  currentTask := h'.currentTask.trans h.currentTask
  timers t ht := by
    obtain ⟨overflow, htimer⟩ := h.timers t ht
    obtain ⟨overflow', htimer'⟩ := h'.timers t (h.currentTask.symm ▸ ht)
    exact ⟨overflow', by rw [htimer', htimer]⟩
  own := by
    have hown : ownTimer k' = ownTimer k := congrArg c.taskTimers h.currentTask
    obtain ⟨hid, hset⟩ := h'.own
    rw [hown] at hid hset
    exact ⟨hid.trans h.own.1, hset.trans h.own.2⟩
  timeouts := h'.timeouts.trans h.timeouts

/-! ### Functions of the core -/

theorem record_keeps {e : Event c} (he : e.isTimedOut = false) (k : Core c S) :
    Keeps k (record e k) :=
  .of_eq rfl rfl (by simp [Core.timeouts, record, he])

theorem halt_keeps (h : Halt) (k : Core c S) : Keeps k (halt h k) := .of_eq rfl rfl rfl

theorem setPc_keeps (p : Pc c) (k : Core c S) : Keeps k (setPc p k) := .of_eq rfl rfl rfl

theorem signalSendSet_keeps (t : c.TaskId) (set : c.SignalSet) (k : Core c S) :
    Keeps k (signalSendSet t set k) := .of_eq rfl rfl (by
  simp [Core.timeouts, signalSendSet, unblock, Event.isTimedOut])

theorem signalRecv_keeps (t : c.TaskId) (r : c.SignalSet) (k : Core c S) :
    Keeps k (signalRecv t r k).2 := .of_eq rfl rfl (by
  simp [Core.timeouts, signalRecv, Event.isTimedOut])

theorem signalWaitSet_keeps (r : c.SignalSet) (b : Option c.TaskId) (cont : Cont c)
    (k : Core c S) : Keeps k (signalWaitSet r b cont k) := by
  unfold signalWaitSet
  split <;> exact .of_eq rfl rfl rfl

theorem andThen_keeps {f : Core c S → Core c S} (h : Keeps k k') (hf : ∀ k, Keeps k (f k)) :
    Keeps k (andThen f k') := by
  unfold andThen
  split
  · exact h
  · exact h.trans (hf k')

theorem wakeWaiters_keeps {ι : Type} [DecidableEq ι] (o : ι) (waiters : c.TaskId → Option ι)
    (k : Core c S) : Keeps k (wakeWaiters o waiters k).2 := by
  refine scan_invariant (p := fun r : (c.TaskId → Option ι) × Core c S => Keeps k r.2)
    (fun r t h => ?_) (.refl k)
  split
  · exact h.trans (signalSendSet_keeps t _ r.2)
  · exact h

/-- The current task sets a timer that belongs to no other task. -/
theorem setTimer_keeps {i : c.TimerId} {tm : Timer c.tasks c.signalsetSize}
    (hi : IsTaskTimer i → i = ownTimer k)
    (hid : i = ownTimer k → tm.taskId = (k.timers i).taskId ∧ tm.signalSet = (k.timers i).signalSet) :
    Keeps k (setTimer i tm k) where
  currentTask := rfl
  timers t ht := by
    have hne : c.taskTimers t ≠ i := fun he =>
      ht (c.taskTimers_injective (he.trans (hi ⟨t, he⟩)))
    exact ⟨(k.timers (c.taskTimers t)).overflow, by simp [setTimer, hne]⟩
  own := by
    by_cases hown : i = ownTimer k
    · subst hown
      simpa [setTimer] using hid rfl
    · simp [setTimer, Ne.symm hown]
  timeouts := rfl

theorem checkOverflow_keeps (i : c.TimerId) (k : Core c S) :
    Keeps k (setTimer i { k.timers i with overflow := false } k) where
  currentTask := rfl
  timers t _ := by
    by_cases he : c.taskTimers t = i
    · subst he
      exact ⟨false, by simp [setTimer]⟩
    · exact ⟨(k.timers (c.taskTimers t)).overflow, by simp [setTimer, he]⟩
  own := by
    by_cases hown : ownTimer k = i
    · subst hown
      simp [setTimer]
    · simp [setTimer, hown]
  timeouts := rfl

theorem timerProcessOne_keeps {i : c.TimerId} (hi : IsTaskTimer i → i = ownTimer k) :
    Keeps k (timerProcessOne i k) := by
  unfold timerProcessOne
  dsimp only
  split
  · exact (setTimer_keeps hi fun _ => by simp).trans (halt_keeps _ _)
  · split
    · exact (setTimer_keeps hi fun _ => by simp).trans (halt_keeps _ _)
    · exact (setTimer_keeps hi fun _ => by split <;> simp).trans (signalSendSet_keeps _ _ _)

theorem timerEnable_keeps {i : c.TimerId} (hi : IsTaskTimer i → i = ownTimer k) :
    Keeps k (timerEnable i k) := by
  unfold timerEnable
  split
  · exact timerProcessOne_keeps hi
  · exact setTimer_keeps hi fun _ => ⟨rfl, rfl⟩

theorem timerOneshot_keeps {i : c.TimerId} (hi : IsTaskTimer i → i = ownTimer k) (n : BitVec 16) :
    Keeps k (timerOneshot i n k) := by
  have hreload : Keeps k (timerReloadSet i n k) := setTimer_keeps hi fun _ => ⟨rfl, rfl⟩
  have henable : Keeps k (timerEnable i (timerReloadSet i n k)) :=
    hreload.trans (timerEnable_keeps hi)
  unfold timerOneshot andThen
  split
  · exact henable
  · refine henable.trans (setTimer_keeps (fun ht => ?_) fun _ => ⟨rfl, rfl⟩)
    exact (hi ht).trans (congrArg c.taskTimers henable.currentTask).symm

/-- Application code leaves the timers of tasks to the kernel. -/
def Call.SparesTimers : Call c → Prop
  | .timerEnable i => ¬ IsTaskTimer i
  | .timerDisable i => ¬ IsTaskTimer i
  | .timerOneshot i _ => ¬ IsTaskTimer i
  | .timerReloadSet i _ => ¬ IsTaskTimer i
  | .timerSignalSet i _ _ => ¬ IsTaskTimer i
  | .timerErrorSet i _ => ¬ IsTaskTimer i
  | _ => True

/-- A call of application code, none of whose functions has a deadline. -/
theorem call_keeps {f : Call c} (happ : k.pc k.currentTask = .app) (hf : f.SparesTimers)
    (h : call f k = some k') : Keeps k k' ∧ (k'.pc k.currentTask).deadline = none := by
  have hpc : (k.pc k.currentTask).deadline = none := by rw [happ]; rfl
  have hwait (r : c.SignalSet) {cont : Cont c} (hcont : cont.deadline = none) :
      ((signalWaitSet r none cont k).pc k.currentTask).deadline = none := by
    simpa [Pc.deadline] using hcont
  have huser {i : c.TimerId} (hi : ¬ IsTaskTimer i) : IsTaskTimer i → i = ownTimer k :=
    fun ht => absurd ht hi
  cases f with
  | yield => obtain ⟨-, ⟨⟩⟩ := Option.ite_none_left_eq_some.mp h; exact ⟨.of_eq rfl rfl rfl, hpc⟩
  | signalSendSet t set => obtain rfl := Option.some.inj h; exact ⟨signalSendSet_keeps t set k, hpc⟩
  | signalWaitSet r =>
    obtain rfl := Option.some.inj h
    exact ⟨signalWaitSet_keeps r none .signalWaitSet k, hwait r rfl⟩
  | signalPollSet r => obtain rfl := Option.some.inj h; exact ⟨signalRecv_keeps _ r k, hpc⟩
  | sleep n =>
    obtain rfl := Option.some.inj h
    refine ⟨andThen_keeps (timerOneshot_keeps (fun _ => rfl) n) fun _ => signalWaitSet_keeps _ _ _ _, ?_⟩
    have hwakes := timerOneshot_wakes (A := ∅) (ownTimer k) n k
    unfold Core.sleep andThen
    split
    · rw [(hwakes.other _).pc]
      exact hpc
    · simp [waitTaskTimer, hwakes.currentTask, Pc.deadline, Cont.deadline]
  | timerEnable i =>
    obtain rfl := Option.some.inj h
    exact ⟨timerEnable_keeps (huser hf), by rw [timerEnable_pc]; exact hpc⟩
  | timerDisable i =>
    obtain rfl := Option.some.inj h
    exact ⟨setTimer_keeps (huser hf) fun _ => ⟨rfl, rfl⟩, hpc⟩
  | timerOneshot i n =>
    obtain rfl := Option.some.inj h
    refine ⟨timerOneshot_keeps (huser hf) n, ?_⟩
    rw [((timerOneshot_wakes (A := ∅) i n k).other _).pc]
    exact hpc
  | timerCheckOverflow i => obtain rfl := Option.some.inj h; exact ⟨checkOverflow_keeps i k, hpc⟩
  | timerReloadSet i n =>
    obtain rfl := Option.some.inj h
    exact ⟨setTimer_keeps (huser hf) fun _ => ⟨rfl, rfl⟩, hpc⟩
  | timerSignalSet i t set =>
    obtain ⟨-, ⟨⟩⟩ := Option.ite_none_left_eq_some.mp h
    exact ⟨setTimer_keeps (huser hf) fun hi => absurd ⟨_, hi.symm⟩ hf, hpc⟩
  | timerErrorSet i e =>
    obtain rfl := Option.some.inj h
    exact ⟨setTimer_keeps (huser hf) fun _ => ⟨rfl, rfl⟩, hpc⟩
  | interruptEventTaskSet i t =>
    obtain ⟨-, ⟨⟩⟩ := Option.ite_none_left_eq_some.mp h
    exact ⟨.of_eq rfl rfl rfl, hpc⟩

end Core

namespace State

/-! ### The turns of the loops -/

/-- What the code of the current task, outside any wait, does in one turn of the loop of a function
    with deadline `D`: it is done, or waits without a deadline, or it compares the deadline `C` with
    the clock and returns false, or waits with its timer set to the rest of the time. -/
inductive Turn (D C : Option Deadline) (s : State c S) : State c S → Prop
  | done {s'} : C = none → Keeps s.core s'.core → s'.core.pc s.currentTask = .app → Turn D C s s'
  | wait {s'} : D = none → C = none → Keeps s.core s'.core → (s'.core.pc s.currentTask).deadline = none →
      Turn D C s s'
  | giveUp (d : Deadline) : C = some d → s.before d = false → Turn D C s (s.giveUp d)
  | waitTimeout (d : Deadline) (b : Option c.TaskId) (cont : Cont c) {s₁ : State c S} :
      C = some d → s.before d = true → s₁.core = s.core → cont.deadline = some d →
      Turn D C s (s₁.blockTimeout b (s.remaining d) cont)

variable {C D : Option Deadline} {s s' : State c S}

theorem Turn.of_keeps (h : Keeps s.core s'.core) (happ : s.core.pc s.currentTask = .app)
    (hpc : s'.core.pc = s.core.pc) : Turn D none s s' :=
  .done rfl h (by rw [hpc, happ])

/-- The current task waits without a deadline. -/
theorem Turn.of_wait (r : c.SignalSet) (b : Option c.TaskId) {cont : Cont c}
    (hcont : cont.deadline = none) {s₁ : State c S} (hcore : s₁.core = s.core) :
    Turn none none s (s₁.onCore (signalWaitSet r b cont)) := by
  refine .wait rfl rfl ?_ ?_
  · show Keeps s.core (signalWaitSet r b cont s₁.core)
    rw [hcore]
    exact signalWaitSet_keeps r b cont s.core
  · show ((signalWaitSet r b cont s₁.core).pc s.core.currentTask).deadline = none
    rw [hcore]
    simpa [Pc.deadline] using hcont

theorem mutexTryLock_turn (happ : s.core.pc s.currentTask = .app) (m : c.MutexId) :
    Turn D none s (mutexTryLock m s).2 := by
  unfold mutexTryLock
  split
  · exact .of_keeps (.of_eq rfl rfl (by simp [Core.timeouts, record, Event.isTimedOut])) happ rfl
  · exact .of_keeps (.refl _) happ rfl

theorem mutexLockLoop_turn (happ : s.core.pc s.currentTask = .app) (m : c.MutexId) :
    Turn none none s (mutexLockLoop m s) := by
  unfold mutexLockLoop
  dsimp only
  split
  · exact mutexTryLock_turn happ m
  · exact .of_wait _ _ rfl rfl

theorem mutexLockTimeoutLoop_turn (happ : s.core.pc s.currentTask = .app) (m : c.MutexId)
    (d : Deadline) :
    Turn (some d) (if s.mutexes m = none then none else some d) s (mutexLockTimeoutLoop m d s) := by
  unfold mutexLockTimeoutLoop
  dsimp only
  by_cases hlocked : (mutexTryLock m s).1 = true
  · rw [if_pos hlocked, if_pos (mutexTryLock_fst.mp hlocked)]
    exact mutexTryLock_turn happ m
  · rw [if_neg hlocked, if_neg (mt mutexTryLock_fst.mpr hlocked)]
    split_ifs with hbefore
    · exact .waitTimeout d _ _ rfl hbefore rfl rfl
    · exact .giveUp d rfl (by simpa using hbefore)

theorem mutexUnlock_turn (happ : s.core.pc s.currentTask = .app) (m : c.MutexId) :
    Turn D none s (mutexUnlock m s) := by
  have hwake := wakeWaiters_keeps m s.mutexWaiters
    { s.core with sched := S.schedSetMutexUnlocked m s.core.sched }
  have hunlock : Keeps s.core { s.core with sched := S.schedSetMutexUnlocked m s.core.sched } :=
    .of_eq rfl rfl rfl
  exact .of_keeps ((hunlock.trans hwake).trans (record_keeps rfl _)) happ (wakeWaiters_pc _ _ _)

theorem internalSemTryWait_turn (happ : s.core.pc s.currentTask = .app) (i : c.SemId) :
    Turn D none s (internalSemTryWait i s).2 := by
  unfold internalSemTryWait
  split
  · exact .of_keeps (.refl _) happ rfl
  · exact .of_keeps (record_keeps rfl s.core) happ rfl

theorem semWaitLoop_turn (happ : s.core.pc s.currentTask = .app) (i : c.SemId) :
    Turn none none s (semWaitLoop i s) := by
  unfold semWaitLoop
  dsimp only
  split
  · exact internalSemTryWait_turn happ i
  · exact .of_wait _ _ rfl rfl

theorem semWaitTimeoutLoop_turn (happ : s.core.pc s.currentTask = .app) (i : c.SemId)
    (d : Deadline) :
    Turn (some d) (if (s.semaphores i).value = 0 then some d else none) s
      (semWaitTimeoutLoop i d s) := by
  unfold semWaitTimeoutLoop
  dsimp only
  by_cases htaken : (internalSemTryWait i s).1 = true
  · rw [if_pos htaken, if_neg (mt internalSemTryWait_fst.mpr (by simp [htaken]))]
    exact internalSemTryWait_turn happ i
  · rw [if_neg htaken, if_pos (internalSemTryWait_fst.mp (by simpa using htaken))]
    split_ifs with hbefore
    · exact .waitTimeout d _ _ rfl hbefore rfl rfl
    · exact .giveUp d rfl (by simpa using hbefore)

theorem semPost_turn (happ : s.core.pc s.currentTask = .app) (i : c.SemId) :
    Turn D none s (semPost i s) := by
  unfold semPost
  dsimp only
  split
  · exact .of_keeps (halt_keeps _ s.core) happ rfl
  · split
    · exact .of_keeps ((wakeWaiters_keeps i s.semWaiters s.core).trans (record_keeps rfl _)) happ
        (wakeWaiters_pc _ _ _)
    · exact .of_keeps (record_keeps rfl s.core) happ rfl

theorem Attempt.turn {q : c.MessageQueueId} (h : Attempt q s s')
    (happ : s.core.pc s.currentTask = .app) : Turn D none s s' := by
  cases h with
  | failed => exact .of_keeps (.refl _) happ rfl
  | moved => exact .of_keeps (.refl _) happ rfl
  | woke =>
    exact .of_keeps (wakeWaiters_keeps q s.messageQueueWaiters s.core) happ (wakeWaiters_pc _ _ _)

theorem messageQueuePutLoop_turn (happ : s.core.pc s.currentTask = .app) {q : c.MessageQueueId}
    {message : ℕ} (h : messageQueuePutLoop q message s = some s') : Turn none none s s' := by
  obtain ⟨⟨b, t⟩, hr, rfl⟩ := Option.map_eq_some_iff.mp h
  cases b with
  | true => exact (messageQueueTryPut_attempt hr).turn happ
  | false =>
    obtain ⟨-, rfl⟩ := messageQueueTryPut_false hr
    exact .of_wait _ _ rfl rfl

theorem messageQueueGetLoop_turn (happ : s.core.pc s.currentTask = .app) {q : c.MessageQueueId}
    {message : ℕ} (h : messageQueueGetLoop q message s = some s') : Turn none none s s' := by
  obtain ⟨⟨b, t⟩, hr, rfl⟩ := Option.map_eq_some_iff.mp h
  cases b with
  | true => exact (messageQueueTryGet_attempt hr).turn happ
  | false =>
    obtain ⟨-, rfl⟩ := messageQueueTryGet_false hr
    exact .of_wait _ _ rfl rfl

/-- An attempt that succeeds has found space in the queue. -/
theorem available_ne_of_put {q : c.MessageQueueId} {message : ℕ}
    (h : messageQueueTryPut q message s = some (true, s')) :
    (s.messageQueues q).available ≠ (s.messageQueues q).queueLength := by
  obtain ⟨-, h⟩ | ⟨hspace, -⟩ := messageQueueTryPut_cases h
  · cases (Prod.mk.inj h).1
  · exact hspace

/-- An attempt that succeeds has found a message in the queue. -/
theorem available_ne_of_get {q : c.MessageQueueId} {message : ℕ}
    (h : messageQueueTryGet q message s = some (true, s')) :
    (s.messageQueues q).available ≠ 0 := by
  obtain ⟨-, h⟩ | ⟨hmessage, -⟩ := messageQueueTryGet_cases h
  · cases (Prod.mk.inj h).1
  · exact hmessage

theorem messageQueuePutTimeoutLoop_turn (happ : s.core.pc s.currentTask = .app)
    {q : c.MessageQueueId} {message : ℕ} {d : Deadline}
    (h : messageQueuePutTimeoutLoop q message d s = some s') :
    Turn (some d)
      (if (s.messageQueues q).available = (s.messageQueues q).queueLength then some d else none)
      s s' := by
  unfold messageQueuePutTimeoutLoop at h
  dsimp only at h
  split at h
  · rename_i hfull
    obtain rfl := Option.some.inj h
    rw [if_pos hfull.1]
    exact .waitTimeout d _ _ rfl hfull.2 rfl rfl
  · rename_i hover
    obtain ⟨⟨b, t⟩, hr, rfl⟩ := Option.map_eq_some_iff.mp h
    cases b with
    | true =>
      rw [if_neg (available_ne_of_put hr)]
      exact (messageQueueTryPut_attempt hr).turn happ
    | false =>
      obtain ⟨hfull, rfl⟩ := messageQueueTryPut_false hr
      rw [if_pos hfull]
      exact .giveUp d rfl (by simpa [hfull] using hover)

theorem messageQueueGetTimeoutLoop_turn (happ : s.core.pc s.currentTask = .app)
    {q : c.MessageQueueId} {message : ℕ} {d : Deadline}
    (h : messageQueueGetTimeoutLoop q message d s = some s') :
    Turn (some d) (if (s.messageQueues q).available = 0 then some d else none) s s' := by
  unfold messageQueueGetTimeoutLoop at h
  split at h
  · rename_i hempty
    obtain rfl := Option.some.inj h
    rw [if_pos hempty.1]
    exact .waitTimeout d _ _ rfl hempty.2 rfl rfl
  · rename_i hover
    obtain ⟨⟨b, t⟩, hr, rfl⟩ := Option.map_eq_some_iff.mp h
    cases b with
    | true =>
      rw [if_neg (available_ne_of_get hr)]
      exact (messageQueueTryGet_attempt hr).turn happ
    | false =>
      obtain ⟨hempty, rfl⟩ := messageQueueTryGet_false hr
      rw [if_pos hempty]
      exact .giveUp d rfl (by simpa [hempty] using hover)

/-! ### Calls and returns -/

/-- The deadline that a function compares with the clock in a turn of its loop: its object is not
    available. -/
def compares (s : State c S) : Cont c → Option Deadline
  | .mutexLockTimeout m d => if s.mutexes m = none then none else some d
  | .semWaitTimeout i d => if (s.semaphores i).value = 0 then some d else none
  | .messageQueuePutTimeout q _ d =>
    if (s.messageQueues q).available = (s.messageQueues q).queueLength then some d else none
  | .messageQueueGetTimeout q _ d => if (s.messageQueues q).available = 0 then some d else none
  | _ => none

/-- The deadline that the current task compares with the clock when it calls a function. -/
def callCompares (s : State c S) : Call c → Option Deadline
  | .messageQueue (.putTimeout q message n) =>
    s.compares (.messageQueuePutTimeout q message (s.deadline n))
  | .messageQueue (.getTimeout q message n) =>
    s.compares (.messageQueueGetTimeout q message (s.deadline n))
  | _ => none

/-- The deadline that the current task compares with the clock when it goes on: in a function it has
    entered, or after a wait that is over. -/
def resumeCompares (s : State c S) : Option Deadline :=
  match s.core.pc s.currentTask with
  | .entered (.mutexLockTimeout m d) => s.compares (.mutexLockTimeout m d)
  | .entered (.semWaitTimeout i d) => s.compares (.semWaitTimeout i d)
  | .wait w => if (signalWaitReturn w s.core).isSome then s.compares w.cont else none
  | _ => none

/-- The deadline that a step compares with the clock. -/
def stepCompares (s : State c S) : Act c → Option Deadline
  | .call f => s.callCompares f
  | .resume => s.resumeCompares
  | _ => none

/-- Application code leaves the timers of tasks to the kernel. -/
def SparesTimers : Act c → Prop
  | .call (.core f) => f.SparesTimers
  | _ => True

/-- A call takes a turn of its loop at once, or enters a function with a deadline that is the clock
    plus the timeout. -/
theorem call_turn (happ : s.core.pc s.currentTask = .app) {f : Call c} (hf : SparesTimers (.call f))
    (h : call f s = some s') : (∃ D, Turn D (s.callCompares f) s s') ∨ ∃ e : Entry c,
      s' = s.onCore (setPc (.entered e)) ∧ ∀ d, e.deadline = some d → d = s.deadline d.timeout := by
  cases f with
  | core f =>
    obtain ⟨k, hk, rfl⟩ := Option.map_eq_some_iff.mp h
    obtain ⟨hkeeps, hdeadline⟩ := call_keeps happ hf hk
    exact .inl ⟨none, .wait rfl rfl hkeeps hdeadline⟩
  | mutex f =>
    cases f with
    | lock m =>
      obtain ⟨-, ⟨⟩⟩ := Option.ite_none_right_eq_some.mp h
      exact .inl ⟨_, mutexLockLoop_turn happ m⟩
    | lockTimeout m n =>
      obtain ⟨-, ⟨⟩⟩ := Option.ite_none_right_eq_some.mp h
      exact .inr ⟨_, rfl, fun d hd => by obtain rfl := Option.some.inj hd; rfl⟩
    | tryLock m => obtain rfl := Option.some.inj h; exact .inl ⟨none, mutexTryLock_turn happ m⟩
    | unlock m =>
      obtain ⟨-, ⟨⟩⟩ := Option.ite_none_right_eq_some.mp h
      exact .inl ⟨none, mutexUnlock_turn happ m⟩
  | sem f =>
    cases f with
    | wait i => obtain rfl := Option.some.inj h; exact .inl ⟨_, semWaitLoop_turn happ i⟩
    | waitTimeout i n =>
      obtain rfl := Option.some.inj h
      exact .inr ⟨_, rfl, fun d hd => by obtain rfl := Option.some.inj hd; rfl⟩
    | post i =>
      obtain ⟨-, ⟨⟩⟩ := Option.ite_none_left_eq_some.mp h
      exact .inl ⟨none, semPost_turn happ i⟩
    | tryWait i => obtain rfl := Option.some.inj h; exact .inl ⟨none, internalSemTryWait_turn happ i⟩
    | maxInit i max => obtain ⟨-, ⟨⟩⟩ := Option.ite_none_right_eq_some.mp h; exact .inr ⟨_, rfl, nofun⟩
  | messageQueue f =>
    cases f with
    | put q message => exact .inl ⟨_, messageQueuePutLoop_turn happ h⟩
    | get q message => exact .inl ⟨_, messageQueueGetLoop_turn happ h⟩
    | tryPut q message =>
      obtain ⟨r, hr, rfl⟩ := Option.map_eq_some_iff.mp h
      exact .inl ⟨none, (messageQueueTryPut_attempt hr).turn happ⟩
    | tryGet q message =>
      obtain ⟨r, hr, rfl⟩ := Option.map_eq_some_iff.mp h
      exact .inl ⟨none, (messageQueueTryGet_attempt hr).turn happ⟩
    | putTimeout q message n =>
      exact .inl ⟨_, messageQueuePutTimeoutLoop_turn happ (Option.ite_none_left_eq_some.mp h).2⟩
    | getTimeout q message n =>
      exact .inl ⟨_, messageQueueGetTimeoutLoop_turn happ (Option.ite_none_left_eq_some.mp h).2⟩

/-- The current task is back in the function it was in, at the beginning of a turn. -/
structure BackIn (s s₁ : State c S) : Prop where
  keeps : Keeps s.core s₁.core
  app : s₁.core.pc s₁.currentTask = .app
  clock : s₁.core.clock = s.core.clock
  compares : s₁.compares = s.compares

variable {s₁ : State c S}

theorem BackIn.currentTask (h : BackIn s s₁) : s₁.currentTask = s.core.currentTask :=
  h.keeps.currentTask

theorem BackIn.ticks (h : BackIn s s₁) :
    s₁.core.timerCurrentTicks = s.core.timerCurrentTicks ∧ s₁.core.processed = s.core.processed := by
  have hclock := h.clock
  simp only [Core.clock, Prod.mk.injEq] at hclock
  exact ⟨hclock.1, hclock.2.2⟩

/-- After a wait that is over, the caller of `signal_wait_set` takes a turn of its loop. -/
theorem afterWait_turn {cont : Cont c} (happ : s.core.pc s.currentTask = .app)
    (h : afterWait cont s = some s') :
    ∃ s₁, BackIn s s₁ ∧ Turn cont.deadline (s.compares cont) s₁ s' := by
  have hsame : BackIn s s := ⟨.refl _, happ, rfl, rfl⟩
  have hdisable : BackIn s s.disableOwnTimer :=
    ⟨setTimer_keeps (fun _ => rfl) fun _ => ⟨rfl, rfl⟩, happ, rfl, rfl⟩
  have hreturn : BackIn s s.messageQueueWaitTimeoutReturn := ⟨hdisable.keeps, happ, rfl, rfl⟩
  cases cont with
  | signalWaitSet => obtain rfl := Option.some.inj h; exact ⟨s, hsame, .of_keeps (.refl _) happ rfl⟩
  | sleep n start =>
    obtain rfl := Option.some.inj h
    exact ⟨s, hsame, .of_keeps (record_keeps rfl s.core) happ rfl⟩
  | mutexLock m => obtain rfl := Option.some.inj h; exact ⟨s, hsame, mutexLockLoop_turn happ m⟩
  | mutexLockTimeout m d =>
    obtain rfl := Option.some.inj h
    exact ⟨_, hdisable, mutexLockTimeoutLoop_turn (s := s.disableOwnTimer) happ m d⟩
  | semWait i => obtain rfl := Option.some.inj h; exact ⟨s, hsame, semWaitLoop_turn happ i⟩
  | semWaitTimeout i d =>
    obtain rfl := Option.some.inj h
    exact ⟨_, hdisable, semWaitTimeoutLoop_turn (s := s.disableOwnTimer) happ i d⟩
  | messageQueuePut q message => exact ⟨s, hsame, messageQueuePutLoop_turn happ h⟩
  | messageQueueGet q message => exact ⟨s, hsame, messageQueueGetLoop_turn happ h⟩
  | messageQueuePutTimeout q message d =>
    exact ⟨_, hreturn, messageQueuePutTimeoutLoop_turn (s := s.messageQueueWaitTimeoutReturn) happ h⟩
  | messageQueueGetTimeout q message d =>
    exact ⟨_, hreturn, messageQueueGetTimeoutLoop_turn (s := s.messageQueueWaitTimeoutReturn) happ h⟩

/-- The current task goes on: its wait is not over, or it takes a turn of a loop. -/
theorem resume_turn (h : resume s = some s') :
    (∃ w, s.core.pc s.currentTask = .wait w ∧ w.blocked = true ∧
      signalPeek (s.core.signals s.currentTask) w.requested = false ∧
      s' = s.onCore (blockOn w.blocker)) ∨
    ∃ s₁, BackIn s s₁ ∧
      Turn (s.core.pc s.currentTask).deadline s.resumeCompares s₁ s' := by
  unfold resume at h
  cases hpc : s.core.pc s.currentTask with
  | app => simp [hpc] at h
  | entered e =>
    simp only [hpc, Option.some.injEq] at h
    subst h
    have happ : (s.onCore (setPc .app)).core.pc (s.onCore (setPc .app)).currentTask = .app := by
      simp [onCore, currentTask]
    refine .inr ⟨_, ⟨setPc_keeps .app s.core, happ, rfl, rfl⟩, ?_⟩
    cases e with
    | mutexLockTimeout m d =>
      simp only [resumeCompares, hpc]
      exact mutexLockTimeoutLoop_turn happ m d
    | semWaitTimeout i d =>
      simp only [resumeCompares, hpc]
      exact semWaitTimeoutLoop_turn happ i d
    | semMaxInit i max =>
      simp only [resumeCompares, hpc]
      exact .of_keeps (record_keeps rfl _) happ rfl
  | wait w =>
    simp only [hpc] at h
    cases hreturn : signalWaitReturn w s.core with
    | none =>
      simp only [hreturn, Option.some.injEq] at h
      obtain ⟨hblocked, hpeek⟩ := signalWaitReturn_eq_none.mp hreturn
      exact .inl ⟨w, rfl, hblocked, hpeek, h.symm⟩
    | some k =>
      simp only [hreturn] at h
      obtain ⟨-, rfl⟩ := signalWaitReturn_eq_some.mp hreturn
      have hkeeps := (signalRecv_keeps s.core.currentTask w.requested s.core).trans
        (setPc_keeps .app _)
      obtain ⟨s₁, hback, hturn⟩ := afterWait_turn (by simp [currentTask]) h
      refine .inr ⟨s₁, ⟨hkeeps.trans hback.keeps, hback.app, hback.clock, hback.compares⟩, ?_⟩
      simp only [resumeCompares, hpc, hreturn, Option.isSome_some, if_true]
      exact hturn

end State

end Echronos
