import Echronos.Kernel.System

/-! # Who changes the clock

    Only `timer_tick` and `timer_tick_process` write `timer_pending_ticks` and `timer_current_ticks`:
    every other function leaves them, and with them the number of processed ticks, as they are. -/

namespace Echronos

open Schemes

variable {c : Config} {S : Sched c.tasks c.mutexes}

namespace Core

/-- `timer_current_ticks`, `timer_pending_ticks` and the number of processed ticks. -/
def clock (k : Core c S) : BitVec 32 × ℕ × ℕ :=
  (k.timerCurrentTicks, k.timerPendingTicks, k.processed)

@[simp] theorem record_clock (e : Event c) (k : Core c S) : (record e k).clock = k.clock := rfl
@[simp] theorem halt_clock (h : Halt) (k : Core c S) : (halt h k).clock = k.clock := rfl
@[simp] theorem setPc_clock (p : Pc c) (k : Core c S) : (setPc p k).clock = k.clock := rfl
@[simp] theorem getNext_clock (k : Core c S) : (getNext k).clock = k.clock := rfl
@[simp] theorem blockOn_clock (b : Option c.TaskId) (k : Core c S) :
    (blockOn b k).clock = k.clock := rfl
@[simp] theorem signalSendSet_clock (t : c.TaskId) (set : c.SignalSet) (k : Core c S) :
    (signalSendSet t set k).clock = k.clock := rfl
@[simp] theorem signalRecv_clock (t : c.TaskId) (r : c.SignalSet) (k : Core c S) :
    (signalRecv t r k).2.clock = k.clock := rfl
@[simp] theorem setTimer_clock (i : c.TimerId) (tm : Timer c.tasks c.signalsetSize)
    (k : Core c S) : (setTimer i tm k).clock = k.clock := rfl
@[simp] theorem timerReloadSet_clock (i : c.TimerId) (n : BitVec 16) (k : Core c S) :
    (timerReloadSet i n k).clock = k.clock := rfl
@[simp] theorem timerDisable_clock (i : c.TimerId) (k : Core c S) :
    (timerDisable i k).clock = k.clock := rfl

@[simp] theorem signalWaitSet_clock (r : c.SignalSet) (b : Option c.TaskId) (cont : Cont c)
    (k : Core c S) : (signalWaitSet r b cont k).clock = k.clock := by
  unfold signalWaitSet
  split <;> rfl

@[simp] theorem waitTaskTimer_clock (cont : Cont c) (k : Core c S) :
    (waitTaskTimer cont k).clock = k.clock := signalWaitSet_clock _ _ _ _

theorem andThen_clock {f : Core c S → Core c S} (hf : ∀ k, (f k).clock = k.clock) (k : Core c S) :
    (andThen f k).clock = k.clock := by
  unfold andThen
  split
  · rfl
  · exact hf k

@[simp] theorem timerProcessOne_clock (i : c.TimerId) (k : Core c S) :
    (timerProcessOne i k).clock = k.clock := by
  unfold timerProcessOne
  dsimp only
  split
  · rfl
  · split <;> rfl

@[simp] theorem tickTurn_clock (timeout : BitVec 16) (k : Core c S) (i : c.TimerId) :
    (tickTurn timeout k i).clock = k.clock := by
  refine andThen_clock (fun k => ?_) k
  split
  · exact timerProcessOne_clock i k
  · rfl

/-- A loop that has stopped the system turns no further. -/
theorem halted_of_tickTurn {timeout : BitVec 16} {k : Core c S} {i : c.TimerId}
    (h : (tickTurn timeout k i).halted = none) : k.halted = none := by
  unfold tickTurn andThen at h
  split at h
  · exact h
  · simpa using ‹¬ k.halted.isSome = true›

theorem halted_of_foldl {timeout : BitVec 16} : ∀ {rest : List c.TimerId} {k : Core c S},
    (rest.foldl (tickTurn timeout) k).halted = none → k.halted = none
  | [], _, h => h
  | _ :: _, _, h => halted_of_tickTurn (halted_of_foldl h)

@[simp] theorem timerEnable_clock (i : c.TimerId) (k : Core c S) :
    (timerEnable i k).clock = k.clock := by
  unfold timerEnable
  split
  · exact timerProcessOne_clock i k
  · rfl

@[simp] theorem timerOneshot_clock (i : c.TimerId) (n : BitVec 16) (k : Core c S) :
    (timerOneshot i n k).clock = k.clock := by
  rw [timerOneshot, andThen_clock (timerReloadSet_clock i 0), timerEnable_clock,
    timerReloadSet_clock]

@[simp] theorem wakeWaiters_clock {ι : Type} [DecidableEq ι] (o : ι)
    (waiters : c.TaskId → Option ι) (k : Core c S) : (wakeWaiters o waiters k).2.clock = k.clock := by
  refine scan_unchanged (fun r : (c.TaskId → Option ι) × Core c S => r.2.clock) (fun r t => ?_)
    (waiters, k)
  split <;> rfl

theorem interruptEventProcess_clock (k : Core c S) : (interruptEventProcess k).clock = k.clock := by
  refine scan_unchanged Core.clock (fun k i => ?_) k
  split <;> rfl

theorem schedGetNext_clock {fuel : ℕ} {again : Bool} {k k' : Core c S}
    (h : schedGetNext fuel again k = some k') : k'.clock = k.clock := by
  unfold schedGetNext at h
  split at h
  · cases h
  · obtain rfl := Option.some.inj h
    rfl
  · split_ifs at h
    all_goals
      obtain rfl := Option.some.inj h
      rfl

theorem call_clock {f : Call c} {k k' : Core c S} (h : call f k = some k') :
    k'.clock = k.clock := by
  cases f with
  | yield | timerSignalSet | interruptEventTaskSet =>
    obtain ⟨-, ⟨⟩⟩ := Option.ite_none_left_eq_some.mp h
    rfl
  | sleep n =>
    obtain rfl := Option.some.inj h
    rw [Core.sleep, andThen_clock (waitTaskTimer_clock _), timerOneshot_clock]
  | signalWaitSet r => obtain rfl := Option.some.inj h; exact signalWaitSet_clock _ _ _ _
  | timerEnable i => obtain rfl := Option.some.inj h; exact timerEnable_clock i k
  | timerOneshot i n => obtain rfl := Option.some.inj h; exact timerOneshot_clock i n k
  | signalSendSet | signalPollSet | timerDisable | timerCheckOverflow | timerReloadSet
  | timerErrorSet =>
    obtain rfl := Option.some.inj h
    rfl

end Core

namespace State

open Echronos.Core

@[simp] theorem blockTimeout_clock (b : Option c.TaskId) (n : BitVec 16) (cont : Cont c)
    (s : State c S) : (s.blockTimeout b n cont).core.clock = s.core.clock := by
  rw [blockTimeout, onCore, andThen_clock (signalWaitSet_clock _ _ _), timerOneshot_clock]

@[simp] theorem mutexTryLock_clock (m : c.MutexId) (s : State c S) :
    (mutexTryLock m s).2.core.clock = s.core.clock := by
  unfold mutexTryLock
  split <;> rfl

theorem mutexLockLoop_clock (m : c.MutexId) (s : State c S) :
    (mutexLockLoop m s).core.clock = s.core.clock := by
  unfold mutexLockLoop
  dsimp only
  split
  · exact mutexTryLock_clock m s
  · exact signalWaitSet_clock _ _ _ _

theorem mutexLockTimeoutLoop_clock (m : c.MutexId) (d : Deadline) (s : State c S) :
    (mutexLockTimeoutLoop m d s).core.clock = s.core.clock := by
  unfold mutexLockTimeoutLoop
  dsimp only
  split_ifs
  · exact mutexTryLock_clock m s
  · exact blockTimeout_clock _ _ _ _
  · rfl

theorem mutexCall_clock {f : MutexCall c} {s s' : State c S} (h : mutexCall f s = some s') :
    s'.core.clock = s.core.clock := by
  cases f with
  | lock m => obtain ⟨-, ⟨⟩⟩ := Option.ite_none_right_eq_some.mp h; exact mutexLockLoop_clock m s
  | lockTimeout m n => obtain ⟨-, ⟨⟩⟩ := Option.ite_none_right_eq_some.mp h; rfl
  | tryLock m => obtain rfl := Option.some.inj h; exact mutexTryLock_clock m s
  | unlock m =>
    obtain ⟨-, ⟨⟩⟩ := Option.ite_none_right_eq_some.mp h
    exact wakeWaiters_clock m s.mutexWaiters _

@[simp] theorem internalSemTryWait_clock (i : c.SemId) (s : State c S) :
    (internalSemTryWait i s).2.core.clock = s.core.clock := by
  unfold internalSemTryWait
  split <;> rfl

theorem semWaitLoop_clock (i : c.SemId) (s : State c S) :
    (semWaitLoop i s).core.clock = s.core.clock := by
  unfold semWaitLoop
  dsimp only
  split
  · exact internalSemTryWait_clock i s
  · exact waitTaskTimer_clock _ _

theorem semWaitTimeoutLoop_clock (i : c.SemId) (d : Deadline) (s : State c S) :
    (semWaitTimeoutLoop i d s).core.clock = s.core.clock := by
  unfold semWaitTimeoutLoop
  dsimp only
  split_ifs
  · exact internalSemTryWait_clock i s
  · exact blockTimeout_clock _ _ _ _
  · rfl

theorem semPost_clock (i : c.SemId) (s : State c S) :
    (semPost i s).core.clock = s.core.clock := by
  unfold semPost
  dsimp only
  split_ifs
  · rfl
  · exact wakeWaiters_clock i s.semWaiters s.core
  · rfl

theorem semCall_clock {f : SemCall c} {s s' : State c S} (h : semCall f s = some s') :
    s'.core.clock = s.core.clock := by
  cases f with
  | wait i => obtain rfl := Option.some.inj h; exact semWaitLoop_clock i s
  | waitTimeout i n => obtain rfl := Option.some.inj h; rfl
  | post i => obtain ⟨-, ⟨⟩⟩ := Option.ite_none_left_eq_some.mp h; exact semPost_clock i s
  | tryWait i => obtain rfl := Option.some.inj h; exact internalSemTryWait_clock i s
  | maxInit i max => obtain ⟨-, ⟨⟩⟩ := Option.ite_none_right_eq_some.mp h; rfl

theorem Attempt.clock {q : c.MessageQueueId} {s s' : State c S} (h : Attempt q s s') :
    s'.core.clock = s.core.clock := by
  cases h with
  | failed => rfl
  | moved => rfl
  | woke => exact wakeWaiters_clock q s.messageQueueWaiters s.core

theorem messageQueuePutLoop_clock {q : c.MessageQueueId} {message : ℕ} {s s' : State c S}
    (h : messageQueuePutLoop q message s = some s') : s'.core.clock = s.core.clock := by
  obtain ⟨r, hr, rfl⟩ := Option.map_eq_some_iff.mp h
  split
  · exact (messageQueueTryPut_attempt hr).clock
  · exact (waitTaskTimer_clock _ _).trans (messageQueueTryPut_attempt hr).clock

theorem messageQueueGetLoop_clock {q : c.MessageQueueId} {message : ℕ} {s s' : State c S}
    (h : messageQueueGetLoop q message s = some s') : s'.core.clock = s.core.clock := by
  obtain ⟨r, hr, rfl⟩ := Option.map_eq_some_iff.mp h
  split
  · exact (messageQueueTryGet_attempt hr).clock
  · exact (waitTaskTimer_clock _ _).trans (messageQueueTryGet_attempt hr).clock

theorem messageQueuePutTimeoutLoop_clock {q : c.MessageQueueId} {message : ℕ} {d : Deadline}
    {s s' : State c S} (h : messageQueuePutTimeoutLoop q message d s = some s') :
    s'.core.clock = s.core.clock := by
  unfold messageQueuePutTimeoutLoop at h
  dsimp only at h
  split at h
  · obtain rfl := Option.some.inj h
    exact blockTimeout_clock _ _ _ _
  · obtain ⟨r, hr, rfl⟩ := Option.map_eq_some_iff.mp h
    split
    · exact (messageQueueTryPut_attempt hr).clock
    · exact (messageQueueTryPut_attempt hr).clock

theorem messageQueueGetTimeoutLoop_clock {q : c.MessageQueueId} {message : ℕ} {d : Deadline}
    {s s' : State c S} (h : messageQueueGetTimeoutLoop q message d s = some s') :
    s'.core.clock = s.core.clock := by
  unfold messageQueueGetTimeoutLoop at h
  split at h
  · obtain rfl := Option.some.inj h
    exact blockTimeout_clock _ _ _ _
  · obtain ⟨r, hr, rfl⟩ := Option.map_eq_some_iff.mp h
    split
    · exact (messageQueueTryGet_attempt hr).clock
    · exact (messageQueueTryGet_attempt hr).clock

theorem messageQueueCall_clock {f : MessageQueueCall c} {s s' : State c S}
    (h : messageQueueCall f s = some s') : s'.core.clock = s.core.clock := by
  cases f with
  | put q message => exact messageQueuePutLoop_clock h
  | get q message => exact messageQueueGetLoop_clock h
  | tryPut q message =>
    obtain ⟨r, hr, rfl⟩ := Option.map_eq_some_iff.mp h
    exact (messageQueueTryPut_attempt hr).clock
  | tryGet q message =>
    obtain ⟨r, hr, rfl⟩ := Option.map_eq_some_iff.mp h
    exact (messageQueueTryGet_attempt hr).clock
  | putTimeout q message n =>
    exact messageQueuePutTimeoutLoop_clock (Option.ite_none_left_eq_some.mp h).2
  | getTimeout q message n =>
    exact messageQueueGetTimeoutLoop_clock (Option.ite_none_left_eq_some.mp h).2

theorem call_clock {f : Call c} {s s' : State c S} (h : call f s = some s') :
    s'.core.clock = s.core.clock := by
  cases f with
  | core f =>
    obtain ⟨k, hk, rfl⟩ := Option.map_eq_some_iff.mp h
    exact Core.call_clock hk
  | mutex f => exact mutexCall_clock h
  | sem f => exact semCall_clock h
  | messageQueue f => exact messageQueueCall_clock h

theorem afterEntry_clock (e : Entry c) (s : State c S) :
    (afterEntry e s).core.clock = s.core.clock := by
  cases e with
  | mutexLockTimeout m d => exact mutexLockTimeoutLoop_clock m d s
  | semWaitTimeout i d => exact semWaitTimeoutLoop_clock i d s
  | semMaxInit i max => rfl

theorem afterWait_clock {cont : Cont c} {s s' : State c S} (h : afterWait cont s = some s') :
    s'.core.clock = s.core.clock := by
  cases cont with
  | signalWaitSet | sleep => obtain rfl := Option.some.inj h; rfl
  | mutexLock m => obtain rfl := Option.some.inj h; exact mutexLockLoop_clock m s
  | mutexLockTimeout m d => obtain rfl := Option.some.inj h; exact mutexLockTimeoutLoop_clock m d _
  | semWait i => obtain rfl := Option.some.inj h; exact semWaitLoop_clock i s
  | semWaitTimeout i d => obtain rfl := Option.some.inj h; exact semWaitTimeoutLoop_clock i d _
  | messageQueuePut q message => exact messageQueuePutLoop_clock h
  | messageQueueGet q message => exact messageQueueGetLoop_clock h
  | messageQueuePutTimeout q message d =>
    exact messageQueuePutTimeoutLoop_clock (s := s.messageQueueWaitTimeoutReturn) h
  | messageQueueGetTimeout q message d =>
    exact messageQueueGetTimeoutLoop_clock (s := s.messageQueueWaitTimeoutReturn) h

theorem resume_clock {s s' : State c S} (h : resume s = some s') :
    s'.core.clock = s.core.clock := by
  unfold resume at h
  split at h
  · cases h
  · obtain rfl := Option.some.inj h
    exact afterEntry_clock _ _
  · split at h
    · obtain rfl := Option.some.inj h
      rfl
    · rename_i hk
      obtain ⟨-, ⟨⟩⟩ := Option.ite_none_left_eq_some.mp hk
      exact (afterWait_clock h).trans rfl

/-- Whatever happens but `timer_tick` and `timer_tick_process` leaves the clock alone. -/
theorem step_clock {a : Act c} {s s' : State c S} (hstep : step a s = some s')
    (htick : a ≠ .kernel .timerTick) (hprocess : a ≠ .kernel .timerTickProcess) :
    s'.core.clock = s.core.clock := by
  obtain ⟨-, h⟩ := Option.ite_none_left_eq_some.mp hstep
  cases a with
  | kernel a =>
    obtain ⟨k, hk, rfl⟩ := Option.map_eq_some_iff.mp h
    cases a with
    | timerTick => exact absurd rfl htick
    | timerTickProcess => exact absurd rfl hprocess
    | interruptEventRaise i => obtain rfl := Option.some.inj hk; rfl
    | preempt => obtain ⟨-, ⟨⟩⟩ := Option.ite_none_right_eq_some.mp hk; rfl
    | interruptEventProcess =>
      obtain ⟨-, ⟨⟩⟩ := Option.ite_none_right_eq_some.mp hk
      exact interruptEventProcess_clock s.core
    | schedGetNext fuel again =>
      exact schedGetNext_clock (Option.ite_none_right_eq_some.mp hk).2
  | call f => exact call_clock (Option.ite_none_right_eq_some.mp h).2
  | resume => exact resume_clock (Option.ite_none_right_eq_some.mp h).2
  | store address byte => obtain ⟨-, ⟨⟩⟩ := Option.ite_none_right_eq_some.mp h; rfl

end State

end Echronos
