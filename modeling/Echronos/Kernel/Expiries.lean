import Echronos.Kernel.Effects
import Echronos.Kernel.Ticks

/-! # Expiries of timers

    `timer_process_one` is called by the loop of `timer_tick_process`, and by `timer_enable` and
    `timer_oneshot` where there is nothing to wait for. `expiries` lists its calls in one step of the
    system, and `TimerPath` says what else happens to timers on the way: one of them is set at a
    time. -/

namespace Echronos

open Schemes

variable {c : Config} {S : Sched c.tasks c.mutexes}

/-- A call of `timer_process_one`: the timer, and the state it is called in. -/
structure Expiry (c : Config) (S : Sched c.tasks c.mutexes) where
  timer : c.TimerId
  core : Core c S

namespace Core

/-! ### Calls of `timer_process_one` in the functions of the core -/

def enableExpiries (i : c.TimerId) (k : Core c S) : List (Expiry c S) :=
  if (k.timers i).reload = 0 then [⟨i, k⟩] else []

def oneshotExpiries (i : c.TimerId) (timeout : BitVec 16) (k : Core c S) : List (Expiry c S) :=
  enableExpiries i (timerReloadSet i timeout k)

/-- A timer set to expire after no ticks at all expires at once. -/
theorem oneshotExpiries_zero (i : c.TimerId) (k : Core c S) :
    oneshotExpiries i 0 k = [⟨i, timerReloadSet i 0 k⟩] := by
  simp [oneshotExpiries, enableExpiries, timerReloadSet, setTimer]

/-- The loop of `timer_tick_process` from a list of timers on. -/
def loopExpiries (timeout : BitVec 16) : Core c S → List c.TimerId → List (Expiry c S)
  | _, [] => []
  | k, i :: rest =>
    (if k.halted = none ∧ timerExpired (k.timers i) timeout then [⟨i, k⟩] else []) ++
      loopExpiries timeout (tickTurn timeout k i) rest

def tickExpiries (k : Core c S) : List (Expiry c S) :=
  if k.timerPendingTicks = 1 then
    loopExpiries (currentTimeout (countTick k)) (countTick k) (List.finRange c.timers)
  else []

def callExpiries : Call c → Core c S → List (Expiry c S)
  | .timerEnable i, k => enableExpiries i k
  | .timerOneshot i timeout, k => oneshotExpiries i timeout k
  | .sleep ticks, k => oneshotExpiries (ownTimer k) ticks k
  | _, _ => []

/-! ### What happens to timers -/

/-- What the functions of the core, `timer_check_overflow` and expiries apart, do to one timer when
    the clock is at `now`. -/
inductive Sets (now : BitVec 16) (tm : Timer c.tasks c.signalsetSize) :
    Timer c.tasks c.signalsetSize → Prop
  | disable : Sets now tm { tm with enabled := false }
  | enable : tm.reload ≠ 0 → Sets now tm { tm with expiry := now + tm.reload, enabled := true }
  | reload (ticks : BitVec 16) : Sets now tm { tm with reload := ticks }
  | signal (t : c.TaskId) (set : c.SignalSet) : set ≠ 0 →
      Sets now tm { tm with errorId := 0, taskId := some t, signalSet := set }
  | error (errorId : ℕ) : Sets now tm { tm with errorId := errorId }

/-- The timers, the clock, and whether the system has stopped. -/
def timing (k : Core c S) : (c.TimerId → Timer c.tasks c.signalsetSize) × BitVec 32 × Option Halt :=
  (k.timers, k.timerCurrentTicks, k.halted)

/-- From `k`, timers are set and expire as listed. -/
inductive TimerPath (k : Core c S) : List (Expiry c S) → Core c S → Prop
  | refl : TimerPath k [] k
  | other {l k' k''} : TimerPath k l k' → k''.timing = k'.timing → TimerPath k l k''
  | fail {l k'} (errorId : ℕ) : TimerPath k l k' → TimerPath k l (halt (.fatalError errorId) k')
  | set {l k'} (i : c.TimerId) {tm} : TimerPath k l k' →
      Sets (currentTimeout k') (k'.timers i) tm → TimerPath k l (setTimer i tm k')
  | expire {l k'} (i : c.TimerId) : TimerPath k l k' →
      ((k'.timers i).reload = 0 ∨ timerExpired (k'.timers i) (currentTimeout k') = true) →
      TimerPath k (l ++ [⟨i, k'⟩]) (timerProcessOne i k')

variable {k k' k'' : Core c S} {l l' : List (Expiry c S)}

theorem TimerPath.of_eq (h : k'.timing = k.timing) : TimerPath k [] k' := .other .refl h

theorem TimerPath.trans (h : TimerPath k l k') (h' : TimerPath k' l' k'') :
    TimerPath k (l ++ l') k'' := by
  induction h' with
  | refl => simpa using h
  | other _ heq ih => exact .other ih heq
  | fail e _ ih => exact .fail e ih
  | set i _ hset ih => exact .set i ih hset
  | expire i _ hi ih =>
    rw [← List.append_assoc]
    exact .expire i ih hi

/-! ### The timer that expires -/

theorem timerProcessOne_timers_of_ne {i j : c.TimerId} (h : j ≠ i) (k : Core c S) :
    (timerProcessOne i k).timers j = k.timers j := by
  unfold timerProcessOne
  dsimp only
  split
  · simp [halt, setTimer, h]
  · split
    · simp [halt, setTimer, h]
    · simp [signalSendSet, unblock, setTimer, h]

/-- When timer `i` expires in `k`, it sends its signals to a task for which all of them are pending
    already. -/
def marksOverflow (i : c.TimerId) (k : Core c S) : Bool :=
  (k.timers i).errorId = 0 &&
    (k.timers i).taskId.any fun t => signalPending k t (k.timers i).signalSet

/-- Re-arming or disabling a timer leaves what it does on expiry as it is. -/
theorem rearm_action (tm : Timer c.tasks c.signalsetSize) :
    (rearm tm).errorId = tm.errorId ∧ (rearm tm).taskId = tm.taskId ∧
      (rearm tm).signalSet = tm.signalSet ∧ (rearm tm).overflow = tm.overflow := by
  unfold rearm
  split <;> exact ⟨rfl, rfl, rfl, rfl⟩

/-- A timer that expires is re-armed or disabled, and marked when a signal is lost. -/
theorem timerProcessOne_timers_self (i : c.TimerId) (k : Core c S) :
    (timerProcessOne i k).timers i = { rearm (k.timers i) with
      overflow := (k.timers i).overflow || marksOverflow i k } := by
  obtain ⟨herror, htask, hset, hoverflow⟩ := rearm_action (k.timers i)
  unfold timerProcessOne marksOverflow
  rw [← herror, ← htask, ← hset, ← hoverflow]
  obtain ⟨enabled, overflow, expiry, reload, errorId, taskId, set⟩ := rearm (k.timers i)
  dsimp only
  by_cases he : errorId = 0
  · subst he
    cases taskId with
    | none => simp [halt, setTimer]
    | some t => cases hp : signalPending k t set <;> simp [hp, signalSendSet, unblock, setTimer]
  · simp [he, halt, setTimer]

/-- What setting a timer and its expiry preserve holds of a timer before and after, and whenever one
    expires. -/
theorem TimerPath.timer {i : c.TimerId} {P : Timer c.tasks c.signalsetSize → Prop}
    (h : TimerPath k l k') (hset : ∀ now tm tm', Sets now tm tm' → P tm → P tm')
    (hexpire : ∀ tm overflow, P tm → P { rearm tm with overflow := overflow })
    (hk : P (k.timers i)) : P (k'.timers i) ∧ ∀ e ∈ l, P (e.core.timers i) := by
  induction h with
  | refl => exact ⟨hk, nofun⟩
  | other _ heq ih =>
    simp only [timing, Prod.mk.injEq] at heq
    rw [heq.1]
    exact ih
  | fail _ _ ih => exact ih
  | @set _ k' j tm _ hj ih =>
    refine ⟨?_, ih.2⟩
    by_cases hi : i = j
    · subst hi
      simpa [setTimer] using hset _ _ _ hj ih.1
    · simpa [setTimer, hi] using ih.1
  | @expire l k' j _ _ ih =>
    refine ⟨?_, fun e he => ?_⟩
    · by_cases hi : i = j
      · subst hi
        rw [timerProcessOne_timers_self]
        exact hexpire _ _ ih.1
      · rw [timerProcessOne_timers_of_ne hi]
        exact ih.1
    · obtain he | he := List.mem_append.mp he
      · exact ih.2 e he
      · obtain rfl := List.mem_singleton.mp he
        exact ih.1

/-- The overflow mark of a timer is set when it expires and a signal is lost, and not otherwise. -/
theorem TimerPath.overflow (h : TimerPath k l k') (i : c.TimerId) :
    (k'.timers i).overflow =
      ((k.timers i).overflow || l.any fun e => e.timer = i && marksOverflow i e.core) := by
  induction h with
  | refl => simp
  | other _ heq ih =>
    simp only [timing, Prod.mk.injEq] at heq
    rw [heq.1]
    exact ih
  | fail _ _ ih => exact ih
  | @set _ k' j tm _ hj ih =>
    rw [← ih]
    by_cases hi : i = j
    · subst hi
      cases hj <;> simp [setTimer]
    · simp [setTimer, hi]
  | @expire l k' j _ _ ih =>
    rw [List.any_append, ← Bool.or_assoc, ← ih]
    by_cases hi : i = j
    · subst hi
      simp [timerProcessOne_timers_self]
    · simp [timerProcessOne_timers_of_ne hi, Ne.symm hi]

/-! ### The functions of the core -/

@[simp] theorem record_timing (e : Event c) (k : Core c S) : (record e k).timing = k.timing := rfl
@[simp] theorem setPc_timing (p : Pc c) (k : Core c S) : (setPc p k).timing = k.timing := rfl
@[simp] theorem getNext_timing (k : Core c S) : (getNext k).timing = k.timing := rfl
@[simp] theorem blockOn_timing (b : Option c.TaskId) (k : Core c S) :
    (blockOn b k).timing = k.timing := rfl
@[simp] theorem signalSendSet_timing (t : c.TaskId) (set : c.SignalSet) (k : Core c S) :
    (signalSendSet t set k).timing = k.timing := rfl
@[simp] theorem signalRecv_timing (t : c.TaskId) (r : c.SignalSet) (k : Core c S) :
    (signalRecv t r k).2.timing = k.timing := rfl

@[simp] theorem signalWaitSet_timing (r : c.SignalSet) (b : Option c.TaskId) (cont : Cont c)
    (k : Core c S) : (signalWaitSet r b cont k).timing = k.timing := by
  unfold signalWaitSet
  split <;> rfl

@[simp] theorem waitTaskTimer_timing (cont : Cont c) (k : Core c S) :
    (waitTaskTimer cont k).timing = k.timing := signalWaitSet_timing _ _ _ _

@[simp] theorem wakeWaiters_timing {ι : Type} [DecidableEq ι] (o : ι)
    (waiters : c.TaskId → Option ι) (k : Core c S) :
    (wakeWaiters o waiters k).2.timing = k.timing := by
  refine scan_unchanged (fun r : (c.TaskId → Option ι) × Core c S => r.2.timing) (fun r t => ?_)
    (waiters, k)
  split <;> rfl

theorem interruptEventProcess_timing (k : Core c S) :
    (interruptEventProcess k).timing = k.timing := by
  refine scan_unchanged timing (fun k i => ?_) k
  split <;> rfl

theorem schedGetNext_timing {fuel : ℕ} {again : Bool} (h : schedGetNext fuel again k = some k') :
    k'.timing = k.timing := by
  have hswitch := schedGetNext_switch h
  simp only [timing, hswitch.timers, hswitch.timerCurrentTicks, hswitch.halted]

theorem timerEnable_path (i : c.TimerId) (k : Core c S) :
    TimerPath k (enableExpiries i k) (timerEnable i k) := by
  unfold timerEnable enableExpiries
  split_ifs with hreload
  · exact .expire i .refl (.inl hreload)
  · exact .set i .refl (.enable hreload)

theorem timerOneshot_path (i : c.TimerId) (timeout : BitVec 16) (k : Core c S) :
    TimerPath k (oneshotExpiries i timeout k) (timerOneshot i timeout k) := by
  have hset : TimerPath k [] (timerReloadSet i timeout k) := .set i .refl (.reload timeout)
  have henable := hset.trans (timerEnable_path i (timerReloadSet i timeout k))
  rw [timerOneshot, andThen]
  split
  · exact henable
  · exact .set i henable (.reload 0)

theorem TimerPath.andThen_wait (h : TimerPath k l k') {f : Core c S → Core c S}
    (hf : ∀ k, (f k).timing = k.timing) : TimerPath k l (andThen f k') := by
  unfold andThen
  split
  · exact h
  · exact .other h (hf k')

theorem tickTurn_path (timeout : BitVec 16) (k : Core c S) (i : c.TimerId)
    (htimeout : currentTimeout k = timeout) : TimerPath k
      (if k.halted = none ∧ timerExpired (k.timers i) timeout then [⟨i, k⟩] else [])
      (tickTurn timeout k i) := by
  unfold tickTurn andThen
  by_cases hhalt : k.halted = none
  · by_cases hexp : timerExpired (k.timers i) timeout = true
    · simpa [hhalt, hexp] using TimerPath.expire i .refl (.inr (htimeout ▸ hexp))
    · simpa [hhalt, hexp] using TimerPath.refl
  · have hsome : k.halted.isSome = true := Option.isSome_iff_ne_none.mpr hhalt
    simpa [hhalt, hsome] using TimerPath.refl

theorem loop_path {timeout : BitVec 16} : ∀ (rest : List c.TimerId) (k : Core c S),
    currentTimeout k = timeout →
    TimerPath k (loopExpiries timeout k rest) (rest.foldl (tickTurn timeout) k)
  | [], _, _ => .refl
  | i :: rest, k, htimeout => by
    have hnext : currentTimeout (tickTurn timeout k i) = currentTimeout k :=
      congrArg (fun clock : BitVec 32 × ℕ × ℕ => clock.1.setWidth 16) (tickTurn_clock timeout k i)
    exact (tickTurn_path timeout k i htimeout).trans (loop_path rest _ (hnext.trans htimeout))

/-- A tick is counted, and then timers expire. -/
theorem timerTickProcess_path (h : k.timerPendingTicks = 1) :
    TimerPath (countTick k) (tickExpiries k) (timerTickProcess k) := by
  rw [tickExpiries, if_pos h, timerTickProcess_of_one h]
  exact loop_path (List.finRange c.timers) (countTick k) rfl

/-- Without exactly one tick pending, no timer expires. -/
theorem timerTickProcess_path_of_ne (h : k.timerPendingTicks ≠ 1) :
    TimerPath k (tickExpiries k) (timerTickProcess k) := by
  have hclear : TimerPath k [] { k with timerPendingTicks := 0 } := .of_eq rfl
  rw [tickExpiries, if_neg h]
  unfold timerTickProcess
  split_ifs with hmore hnone
  · exact .fail _ hclear
  · exact hclear
  · omega

theorem call_path {f : Call c} (h : call f k = some k') (hf : ∀ i, f ≠ .timerCheckOverflow i) :
    TimerPath k (callExpiries f k) k' := by
  cases f with
  | yield => obtain ⟨-, ⟨⟩⟩ := Option.ite_none_left_eq_some.mp h; exact .of_eq rfl
  | signalSendSet t set => obtain rfl := Option.some.inj h; exact .of_eq rfl
  | signalWaitSet r => obtain rfl := Option.some.inj h; exact .of_eq (signalWaitSet_timing _ _ _ _)
  | signalPollSet r => obtain rfl := Option.some.inj h; exact .of_eq rfl
  | sleep ticks =>
    obtain rfl := Option.some.inj h
    exact (timerOneshot_path _ ticks k).andThen_wait (waitTaskTimer_timing _)
  | timerEnable i => obtain rfl := Option.some.inj h; exact timerEnable_path i k
  | timerDisable i => obtain rfl := Option.some.inj h; exact .set i .refl .disable
  | timerOneshot i timeout => obtain rfl := Option.some.inj h; exact timerOneshot_path i timeout k
  | timerCheckOverflow i => exact absurd rfl (hf i)
  | timerReloadSet i ticks => obtain rfl := Option.some.inj h; exact .set i .refl (.reload ticks)
  | timerSignalSet i t set =>
    obtain ⟨hset, ⟨⟩⟩ := Option.ite_none_left_eq_some.mp h
    exact .set i .refl (.signal t set hset)
  | timerErrorSet i errorId => obtain rfl := Option.some.inj h; exact .set i .refl (.error errorId)
  | interruptEventTaskSet i t =>
    obtain ⟨-, ⟨⟩⟩ := Option.ite_none_left_eq_some.mp h
    exact .of_eq rfl

end Core

namespace State

open Echronos.Core

/-! ### Calls of `timer_process_one` in a step -/

def blockTimeoutExpiries (ticks : BitVec 16) (s : State c S) : List (Expiry c S) :=
  oneshotExpiries (ownTimer s.core) ticks s.core

def mutexLockTimeoutLoopExpiries (m : c.MutexId) (d : Deadline) (s : State c S) :
    List (Expiry c S) :=
  if s.mutexes m ≠ none ∧ s.before d then
    blockTimeoutExpiries (s.remaining d) (mutexRegister m s)
  else []

def semWaitTimeoutLoopExpiries (i : c.SemId) (d : Deadline) (s : State c S) :
    List (Expiry c S) :=
  if (s.semaphores i).value = 0 ∧ s.before d then
    blockTimeoutExpiries (s.remaining d) (semRegister i s)
  else []

def messageQueuePutTimeoutLoopExpiries (q : c.MessageQueueId) (d : Deadline) (s : State c S) :
    List (Expiry c S) :=
  if (s.messageQueues q).available = (s.messageQueues q).queueLength ∧ s.before d then
    blockTimeoutExpiries (s.remaining d) (messageQueueRegister (some q) s)
  else []

def messageQueueGetTimeoutLoopExpiries (q : c.MessageQueueId) (d : Deadline) (s : State c S) :
    List (Expiry c S) :=
  if (s.messageQueues q).available = 0 ∧ s.before d then
    blockTimeoutExpiries (s.remaining d) (messageQueueRegister (some q) s)
  else []

def callExpiries : Call c → State c S → List (Expiry c S)
  | .core f, s => Core.callExpiries f s.core
  | .messageQueue (.putTimeout q _ timeout), s =>
    messageQueuePutTimeoutLoopExpiries q (s.deadline timeout) s
  | .messageQueue (.getTimeout q _ timeout), s =>
    messageQueueGetTimeoutLoopExpiries q (s.deadline timeout) s
  | _, _ => []

def afterEntryExpiries : Entry c → State c S → List (Expiry c S)
  | .mutexLockTimeout m d, s => mutexLockTimeoutLoopExpiries m d s
  | .semWaitTimeout i d, s => semWaitTimeoutLoopExpiries i d s
  | .semMaxInit _ _, _ => []

def afterWaitExpiries : Cont c → State c S → List (Expiry c S)
  | .mutexLockTimeout m d, s => mutexLockTimeoutLoopExpiries m d s.disableOwnTimer
  | .semWaitTimeout i d, s => semWaitTimeoutLoopExpiries i d s.disableOwnTimer
  | .messageQueuePutTimeout q _ d, s =>
    messageQueuePutTimeoutLoopExpiries q d s.messageQueueWaitTimeoutReturn
  | .messageQueueGetTimeout q _ d, s =>
    messageQueueGetTimeoutLoopExpiries q d s.messageQueueWaitTimeoutReturn
  | _, _ => []

def resumeExpiries (s : State c S) : List (Expiry c S) :=
  match s.core.pc s.currentTask with
  | .app => []
  | .entered e => afterEntryExpiries e (s.onCore (setPc .app))
  | .wait w =>
    match signalWaitReturn w s.core with
    | none => []
    | some k => afterWaitExpiries w.cont { s with core := k }

/-- The calls of `timer_process_one` in one step, in order. -/
def expiries : Act c → State c S → List (Expiry c S)
  | .kernel .timerTickProcess, s => tickExpiries s.core
  | .call f, s => callExpiries f s
  | .resume, s => resumeExpiries s
  | _, _ => []

/-! ### The functions of the components -/

variable {s s' : State c S}

theorem blockTimeout_path (b : Option c.TaskId) (ticks : BitVec 16) (cont : Cont c)
    (s : State c S) :
    TimerPath s.core (blockTimeoutExpiries ticks s) (s.blockTimeout b ticks cont).core :=
  (timerOneshot_path _ ticks s.core).andThen_wait (signalWaitSet_timing _ _ _)

@[simp] theorem mutexTryLock_timing (m : c.MutexId) (s : State c S) :
    (mutexTryLock m s).2.core.timing = s.core.timing := by
  unfold mutexTryLock
  split <;> rfl

theorem mutexLockLoop_timing (m : c.MutexId) (s : State c S) :
    (mutexLockLoop m s).core.timing = s.core.timing := by
  unfold mutexLockLoop
  dsimp only
  split
  · exact mutexTryLock_timing m s
  · exact signalWaitSet_timing _ _ _ _

theorem mutexLockTimeoutLoop_path (m : c.MutexId) (d : Deadline) (s : State c S) :
    TimerPath s.core (mutexLockTimeoutLoopExpiries m d s) (mutexLockTimeoutLoop m d s).core := by
  unfold mutexLockTimeoutLoop mutexLockTimeoutLoopExpiries
  by_cases hm : s.mutexes m = none
  · simp only [mutexTryLock, hm, if_true, ne_eq, not_true, false_and, if_false]
    exact .of_eq rfl
  · by_cases hd : s.before d = true
    · simp only [mutexTryLock, hm, hd, ne_eq, not_false_eq_true, and_self, if_true, if_false,
        Bool.false_eq_true]
      exact blockTimeout_path _ _ _ (mutexRegister m s)
    · simp only [mutexTryLock, hm, hd, and_false, if_false, Bool.false_eq_true]
      exact .of_eq rfl

theorem mutexCall_timing {f : MutexCall c} (h : mutexCall f s = some s') :
    s'.core.timing = s.core.timing := by
  cases f with
  | lock m => obtain ⟨-, ⟨⟩⟩ := Option.ite_none_right_eq_some.mp h; exact mutexLockLoop_timing m s
  | lockTimeout m timeout => obtain ⟨-, ⟨⟩⟩ := Option.ite_none_right_eq_some.mp h; rfl
  | tryLock m => obtain rfl := Option.some.inj h; exact mutexTryLock_timing m s
  | unlock m =>
    obtain ⟨-, ⟨⟩⟩ := Option.ite_none_right_eq_some.mp h
    exact wakeWaiters_timing m s.mutexWaiters _

@[simp] theorem internalSemTryWait_timing (i : c.SemId) (s : State c S) :
    (internalSemTryWait i s).2.core.timing = s.core.timing := by
  unfold internalSemTryWait
  split <;> rfl

theorem semWaitLoop_timing (i : c.SemId) (s : State c S) :
    (semWaitLoop i s).core.timing = s.core.timing := by
  unfold semWaitLoop
  dsimp only
  split
  · exact internalSemTryWait_timing i s
  · exact waitTaskTimer_timing _ _

theorem semWaitTimeoutLoop_path (i : c.SemId) (d : Deadline) (s : State c S) :
    TimerPath s.core (semWaitTimeoutLoopExpiries i d s) (semWaitTimeoutLoop i d s).core := by
  unfold semWaitTimeoutLoop semWaitTimeoutLoopExpiries
  by_cases hv : (s.semaphores i).value = 0
  · by_cases hd : s.before d = true
    · simp only [internalSemTryWait, hv, hd, and_self, if_true, if_false, Bool.false_eq_true]
      exact blockTimeout_path _ _ _ (semRegister i s)
    · simp only [internalSemTryWait, hv, hd, and_false, if_true, if_false, Bool.false_eq_true]
      exact .of_eq rfl
  · simp only [internalSemTryWait, hv, false_and, if_true, if_false]
    exact .of_eq rfl

theorem semPost_path (i : c.SemId) (s : State c S) : TimerPath s.core [] (semPost i s).core := by
  unfold semPost
  dsimp only
  split_ifs
  · exact .fail _ .refl
  · exact .of_eq (wakeWaiters_timing i s.semWaiters s.core)
  · exact .of_eq rfl

theorem semCall_path {f : SemCall c} (h : semCall f s = some s') :
    TimerPath s.core [] s'.core := by
  cases f with
  | wait i => obtain rfl := Option.some.inj h; exact .of_eq (semWaitLoop_timing i s)
  | waitTimeout i timeout => obtain rfl := Option.some.inj h; exact .of_eq rfl
  | post i => obtain ⟨-, ⟨⟩⟩ := Option.ite_none_left_eq_some.mp h; exact semPost_path i s
  | tryWait i => obtain rfl := Option.some.inj h; exact .of_eq (internalSemTryWait_timing i s)
  | maxInit i max => obtain ⟨-, ⟨⟩⟩ := Option.ite_none_right_eq_some.mp h; exact .of_eq rfl

theorem Attempt.timing {q : c.MessageQueueId} (h : Attempt q s s') :
    s'.core.timing = s.core.timing := by
  cases h with
  | failed => rfl
  | moved => rfl
  | woke => exact wakeWaiters_timing q s.messageQueueWaiters s.core

theorem messageQueuePutLoop_timing {q : c.MessageQueueId} {message : ℕ}
    (h : messageQueuePutLoop q message s = some s') : s'.core.timing = s.core.timing := by
  obtain ⟨r, hr, rfl⟩ := Option.map_eq_some_iff.mp h
  split
  · exact (messageQueueTryPut_attempt hr).timing
  · exact (waitTaskTimer_timing _ _).trans (messageQueueTryPut_attempt hr).timing

theorem messageQueueGetLoop_timing {q : c.MessageQueueId} {message : ℕ}
    (h : messageQueueGetLoop q message s = some s') : s'.core.timing = s.core.timing := by
  obtain ⟨r, hr, rfl⟩ := Option.map_eq_some_iff.mp h
  split
  · exact (messageQueueTryGet_attempt hr).timing
  · exact (waitTaskTimer_timing _ _).trans (messageQueueTryGet_attempt hr).timing

theorem messageQueuePutTimeoutLoop_path {q : c.MessageQueueId} {message : ℕ} {d : Deadline}
    (h : messageQueuePutTimeoutLoop q message d s = some s') :
    TimerPath s.core (messageQueuePutTimeoutLoopExpiries q d s) s'.core := by
  unfold messageQueuePutTimeoutLoop at h
  unfold messageQueuePutTimeoutLoopExpiries
  dsimp only at h
  split at h
  · rename_i hd
    obtain rfl := Option.some.inj h
    rw [if_pos hd]
    exact blockTimeout_path _ _ _ (messageQueueRegister (some q) s)
  · rename_i hd
    obtain ⟨r, hr, rfl⟩ := Option.map_eq_some_iff.mp h
    rw [if_neg hd]
    split
    · exact .of_eq (messageQueueTryPut_attempt hr).timing
    · exact .of_eq (messageQueueTryPut_attempt hr).timing

theorem messageQueueGetTimeoutLoop_path {q : c.MessageQueueId} {message : ℕ} {d : Deadline}
    (h : messageQueueGetTimeoutLoop q message d s = some s') :
    TimerPath s.core (messageQueueGetTimeoutLoopExpiries q d s) s'.core := by
  unfold messageQueueGetTimeoutLoop at h
  unfold messageQueueGetTimeoutLoopExpiries
  split at h
  · rename_i hd
    obtain rfl := Option.some.inj h
    rw [if_pos hd]
    exact blockTimeout_path _ _ _ (messageQueueRegister (some q) s)
  · rename_i hd
    obtain ⟨r, hr, rfl⟩ := Option.map_eq_some_iff.mp h
    rw [if_neg hd]
    split
    · exact .of_eq (messageQueueTryGet_attempt hr).timing
    · exact .of_eq (messageQueueTryGet_attempt hr).timing

/-! ### Steps -/

/-- A call other than `timer_check_overflow`. -/
theorem call_path {f : Call c} (h : call f s = some s')
    (hf : ∀ i, f ≠ .core (.timerCheckOverflow i)) :
    TimerPath s.core (callExpiries f s) s'.core := by
  cases f with
  | core f =>
    obtain ⟨k, hk, rfl⟩ := Option.map_eq_some_iff.mp h
    exact Core.call_path hk fun i hi => hf i (congrArg Call.core hi)
  | mutex f => exact .of_eq (mutexCall_timing h)
  | sem f => exact semCall_path h
  | messageQueue f =>
    cases f with
    | put q message => exact .of_eq (messageQueuePutLoop_timing h)
    | get q message => exact .of_eq (messageQueueGetLoop_timing h)
    | tryPut q message =>
      obtain ⟨r, hr, rfl⟩ := Option.map_eq_some_iff.mp h
      exact .of_eq (messageQueueTryPut_attempt hr).timing
    | tryGet q message =>
      obtain ⟨r, hr, rfl⟩ := Option.map_eq_some_iff.mp h
      exact .of_eq (messageQueueTryGet_attempt hr).timing
    | putTimeout q message timeout =>
      exact messageQueuePutTimeoutLoop_path (Option.ite_none_left_eq_some.mp h).2
    | getTimeout q message timeout =>
      exact messageQueueGetTimeoutLoop_path (Option.ite_none_left_eq_some.mp h).2

theorem afterEntry_path (e : Entry c) (s : State c S) :
    TimerPath s.core (afterEntryExpiries e s) (afterEntry e s).core := by
  cases e with
  | mutexLockTimeout m d => exact mutexLockTimeoutLoop_path m d s
  | semWaitTimeout i d => exact semWaitTimeoutLoop_path i d s
  | semMaxInit i max => exact .of_eq rfl

theorem disableOwnTimer_path (s : State c S) : TimerPath s.core [] s.disableOwnTimer.core :=
  .set _ .refl .disable

theorem afterWait_path {cont : Cont c} (h : afterWait cont s = some s') :
    TimerPath s.core (afterWaitExpiries cont s) s'.core := by
  cases cont with
  | signalWaitSet | sleep => obtain rfl := Option.some.inj h; exact .of_eq rfl
  | mutexLock m => obtain rfl := Option.some.inj h; exact .of_eq (mutexLockLoop_timing m s)
  | mutexLockTimeout m d =>
    obtain rfl := Option.some.inj h
    exact (disableOwnTimer_path s).trans (mutexLockTimeoutLoop_path m d _)
  | semWait i => obtain rfl := Option.some.inj h; exact .of_eq (semWaitLoop_timing i s)
  | semWaitTimeout i d =>
    obtain rfl := Option.some.inj h
    exact (disableOwnTimer_path s).trans (semWaitTimeoutLoop_path i d _)
  | messageQueuePut q message => exact .of_eq (messageQueuePutLoop_timing h)
  | messageQueueGet q message => exact .of_eq (messageQueueGetLoop_timing h)
  | messageQueuePutTimeout q message d =>
    exact (disableOwnTimer_path s).trans
      (messageQueuePutTimeoutLoop_path (s := s.messageQueueWaitTimeoutReturn) h)
  | messageQueueGetTimeout q message d =>
    exact (disableOwnTimer_path s).trans
      (messageQueueGetTimeoutLoop_path (s := s.messageQueueWaitTimeoutReturn) h)

theorem resume_path (h : resume s = some s') : TimerPath s.core (resumeExpiries s) s'.core := by
  unfold resume at h
  cases hpc : s.core.pc s.currentTask with
  | app => simp only [hpc, reduceCtorEq] at h
  | entered e =>
    simp only [hpc, Option.some.injEq] at h
    subst h
    simp only [resumeExpiries, hpc]
    have hpath : TimerPath s.core [] (setPc .app s.core) := .of_eq rfl
    exact hpath.trans (afterEntry_path e (s.onCore (setPc .app)))
  | wait w =>
    cases hk : signalWaitReturn w s.core with
    | none =>
      simp only [hpc, hk, Option.some.injEq] at h
      subst h
      simp only [resumeExpiries, hpc, hk]
      exact .of_eq rfl
    | some k =>
      simp only [hpc, hk] at h
      simp only [resumeExpiries, hpc, hk]
      obtain ⟨-, rfl⟩ := signalWaitReturn_eq_some.mp hk
      have hpath : TimerPath s.core []
          (setPc .app (signalRecv s.core.currentTask w.requested s.core).2) := .of_eq rfl
      exact hpath.trans (afterWait_path h)

/-- What a step other than the processing of a tick does to the timers. -/
theorem step_path {a : Act c} (hstep : step a s = some s') (htick : a ≠ .kernel .timerTickProcess)
    (hcheck : ∀ i, a ≠ .call (.core (.timerCheckOverflow i))) :
    TimerPath s.core (expiries a s) s'.core := by
  obtain ⟨-, h⟩ := Option.ite_none_left_eq_some.mp hstep
  cases a with
  | kernel a =>
    obtain ⟨k, hk, rfl⟩ := Option.map_eq_some_iff.mp h
    cases a with
    | timerTickProcess => exact absurd rfl htick
    | interruptEventRaise i => obtain rfl := Option.some.inj hk; exact .of_eq rfl
    | timerTick =>
      obtain rfl := Option.some.inj hk
      refine .of_eq ?_
      show (timerTick s.core).timing = _
      unfold timerTick
      split <;> rfl
    | preempt => obtain ⟨-, ⟨⟩⟩ := Option.ite_none_right_eq_some.mp hk; exact .of_eq rfl
    | interruptEventProcess =>
      obtain ⟨-, ⟨⟩⟩ := Option.ite_none_right_eq_some.mp hk
      exact .of_eq (interruptEventProcess_timing s.core)
    | schedGetNext fuel again =>
      exact .of_eq (schedGetNext_timing (Option.ite_none_right_eq_some.mp hk).2)
  | call f =>
    exact call_path (Option.ite_none_right_eq_some.mp h).2 fun i hi => hcheck i (congrArg Act.call hi)
  | resume => exact resume_path (Option.ite_none_right_eq_some.mp h).2
  | store address byte => obtain ⟨-, ⟨⟩⟩ := Option.ite_none_right_eq_some.mp h; exact .of_eq rfl

/-- What processing a tick does to the timers. -/
theorem step_path_tick (hstep : step (.kernel .timerTickProcess) s = some s') :
    TimerPath (if s.core.timerPendingTicks = 1 then countTick s.core else s.core)
      (expiries (.kernel .timerTickProcess) s) s'.core := by
  obtain ⟨-, h⟩ := Option.ite_none_left_eq_some.mp hstep
  obtain ⟨k, hk, rfl⟩ := Option.map_eq_some_iff.mp h
  obtain ⟨-, ⟨⟩⟩ := Option.ite_none_right_eq_some.mp hk
  split_ifs with hpending
  · exact .other (timerTickProcess_path hpending) rfl
  · exact .other (timerTickProcess_path_of_ne hpending) rfl

/-- What `timer_check_overflow` does. -/
theorem step_timerCheckOverflow {i : c.TimerId}
    (hstep : step (.call (.core (.timerCheckOverflow i))) s = some s') :
    s'.core = (timerCheckOverflow i s.core).2 := by
  obtain ⟨-, hcall⟩ := Option.ite_none_left_eq_some.mp hstep
  obtain ⟨-, ⟨⟩⟩ := Option.ite_none_right_eq_some.mp hcall
  rfl

/-- What setting a timer, its expiry and `timer_check_overflow` preserve holds of a timer before and
    after a step, and whenever one expires. -/
theorem step_timer_invariant {i : c.TimerId} {P : Timer c.tasks c.signalsetSize → Prop} {a : Act c}
    (hset : ∀ now tm tm', Sets now tm tm' → P tm → P tm')
    (hoverflow : ∀ tm overflow, P tm → P { tm with overflow := overflow })
    (hrearm : ∀ tm, P tm → P (rearm tm)) (hstep : step a s = some s') (hs : P (s.core.timers i)) :
    P (s'.core.timers i) ∧ ∀ e ∈ expiries a s, P (e.core.timers i) := by
  have hexpire : ∀ tm overflow, P tm → P { rearm tm with overflow := overflow } :=
    fun tm overflow htm => hoverflow _ overflow (hrearm tm htm)
  by_cases htick : a = .kernel .timerTickProcess
  · subst htick
    refine (step_path_tick hstep).timer hset hexpire ?_
    split_ifs
    · exact hs
    · exact hs
  by_cases hcheck : ∃ j, a = .call (.core (.timerCheckOverflow j))
  · obtain ⟨j, rfl⟩ := hcheck
    rw [step_timerCheckOverflow hstep]
    refine ⟨?_, nofun⟩
    by_cases hj : i = j
    · subst hj
      simpa [timerCheckOverflow, setTimer] using hoverflow _ false hs
    · simpa [timerCheckOverflow, setTimer, hj] using hs
  · exact (step_path hstep htick fun j hj => hcheck ⟨j, hj⟩).timer hset hexpire hs

/-- What a step other than a call of `timer_check_overflow` for it does to the overflow mark of a
    timer. -/
theorem step_overflow {i : c.TimerId} {a : Act c} (hstep : step a s = some s')
    (hi : a ≠ .call (.core (.timerCheckOverflow i))) : (s'.core.timers i).overflow =
      ((s.core.timers i).overflow ||
        (expiries a s).any fun e => e.timer = i && marksOverflow i e.core) := by
  by_cases htick : a = .kernel .timerTickProcess
  · subst htick
    rw [(step_path_tick hstep).overflow i]
    split_ifs <;> rfl
  by_cases hcheck : ∃ j, a = .call (.core (.timerCheckOverflow j))
  · obtain ⟨j, rfl⟩ := hcheck
    have hj : i ≠ j := by
      rintro rfl
      exact hi rfl
    rw [step_timerCheckOverflow hstep]
    simp [timerCheckOverflow, setTimer, hj, expiries, callExpiries, Core.callExpiries]
  · exact (step_path hstep htick fun j hj => hcheck ⟨j, hj⟩).overflow i

end State

end Echronos
