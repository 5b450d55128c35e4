import Echronos.Properties.TaskTimer
import Echronos.Properties.Waits

/-! # The self-checks of message queues

    `message_queue_invariants_check` expects every task registered for a message queue to be blocked,
    and the timer of the current task to be disabled. The timer always is. A registered task,
    however, is made runnable by any signal sent to it, be it its own timeout, and stays registered
    until it runs or a peer removes its entry: whether the tasks are blocked depends on who calls
    message-queue functions in between. -/

namespace Echronos

open Schemes

variable {c : Config} {S : Sched c.tasks c.mutexes}

/-- A signal sent to task `t`. -/
def Event.isSentTo (t : c.TaskId) : Event c → Bool
  | .sent u _ => u = t
  | _ => false

theorem Event.isSentTo_eq_false {e : Event c} (h : e.isSignal = false) (t : c.TaskId) :
    e.isSentTo t = false := by
  cases e <;> simp_all [Event.isSentTo, Event.isSignal]

namespace Core

/-- Whether a signal is sent to `t` on the way from `k` to `k'`. -/
def sentTo (k k' : Core c S) (t : c.TaskId) : Bool :=
  (k'.history.take (k'.history.length - k.history.length)).any (Event.isSentTo t)

theorem sentTo_of_eq {k k' : Core c S} {new : List (Event c)} (h : k'.history = new ++ k.history)
    (t : c.TaskId) : sentTo k k' t = new.any (Event.isSentTo t) := by
  rw [sentTo, h, List.length_append, Nat.add_sub_cancel, List.take_left]

/-- Signals sent to a task make it runnable, and nothing else changes its link. -/
def Told (t : c.TaskId) (k k' : Core c S) : Prop :=
  ∃ new, k'.history = new ++ k.history ∧
    k'.link t = if new.any (Event.isSentTo t) then some t else k.link t

variable {A : Set Component} {k k' k'' : Core c S} {t : c.TaskId}

theorem Told.refl (t : c.TaskId) (k : Core c S) : Told t k k := ⟨[], rfl, by simp⟩

theorem Told.trans (h : Told t k k') (h' : Told t k' k'') : Told t k k'' := by
  obtain ⟨new, hn, hl⟩ := h
  obtain ⟨new', hn', hl'⟩ := h'
  refine ⟨new' ++ new, by rw [hn', hn, List.append_assoc], ?_⟩
  rw [hl', hl, List.any_append]
  cases new'.any (Event.isSentTo t) <;> simp

theorem Quiet.told (h : Quiet A k k') (t : c.TaskId) : Told t k k' := by
  obtain ⟨new, hn, hA⟩ := h.history
  refine ⟨new, hn, ?_⟩
  rw [h.link, List.any_eq_false.mpr fun e he => by simp [Event.isSentTo_eq_false (hA e he).1]]
  rfl

theorem signalSendSet_told (u : c.TaskId) (set : c.SignalSet) (k : Core c S) (t : c.TaskId) :
    Told t k (signalSendSet u set k) := by
  refine ⟨[.sent u set], rfl, ?_⟩
  rw [signalSendSet_link]
  by_cases h : t = u
  · subst h
    simp [Event.isSentTo]
  · simp [Event.isSentTo, h, Ne.symm h]

theorem Wakes.told (h : Wakes A k k') (t : c.TaskId) : Told t k k' := by
  induction h with
  | refl => exact .refl t k
  | quiet _ hq ih => exact ih.trans (hq.told t)
  | send u set _ ih => exact ih.trans (signalSendSet_told u set _ t)

/-- What another task's code does. -/
theorem Moves.told (h : Moves A k k') (ht : t ≠ k.currentTask) : Told t k k' := by
  induction h with
  | refl => exact .refl t k
  | wakes _ hw ih => exact ih.trans (hw.told t)
  | receive r _ _ ih => exact ih.trans ⟨[.received _ _ _], rfl, by simp [Event.isSentTo]⟩
  | goto => assumption
  | wait r b cont h _ _ ih =>
    rw [← h.currentTask] at ht
    refine ih.trans ⟨[], by simp, ?_⟩
    rw [signalWaitSet_link]
    split <;> simp [ht]
  | block w h _ _ _ ih =>
    rw [← h.currentTask] at ht
    exact ih.trans ⟨[], rfl, by simp [ht]⟩

theorem Switch.told (h : Switch k k') (t : c.TaskId) : Told t k k' :=
  ⟨[], h.history, by simp [h.link]⟩

end Core

/-- The step executes code of the current task. -/
def Act.executes : Act c → Bool
  | .kernel _ => false
  | _ => true

namespace State

open Echronos.Core

/-! ### The checks -/

/-- `WAITING_TASK_IS_NOT_BLOCKED`: a task registered for a message queue is not runnable. -/
def WaitingTasksBlocked (s : State c S) : Prop :=
  ∀ t, s.messageQueueWaiters t ≠ none → ¬ s.core.runnable t

instance (s : State c S) : Decidable s.WaitingTasksBlocked :=
  inferInstanceAs (Decidable (∀ _, _))

/-- `TIMER_IS_ENABLED`: the timer of the current task is disabled. -/
def OwnTimerDisabled (s : State c S) : Prop := (s.core.timers (ownTimer s.core)).enabled = false

/-- The states in which `message_queue_try_put` calls `message_queue_invariants_check`: at first, and
    when it has put the message. -/
def tryPutChecks (q : c.MessageQueueId) (message : ℕ) (s : State c S) : List (State c S) :=
  match messageQueueTryPut q message s with
  | some (true, s') => [s, s']
  | _ => [s]

@[inherit_doc tryPutChecks]
def tryGetChecks (q : c.MessageQueueId) (message : ℕ) (s : State c S) : List (State c S) :=
  match messageQueueTryGet q message s with
  | some (true, s') => [s, s']
  | _ => [s]

/-- A turn of the loop of `message_queue_put`: an attempt that fails leads to `message_queue_wait`,
    which begins with a check. -/
def putLoopChecks (q : c.MessageQueueId) (message : ℕ) (s : State c S) : List (State c S) :=
  tryPutChecks q message s ++
    if (s.messageQueues q).available = (s.messageQueues q).queueLength then [s] else []

/-- A turn of the loop of `message_queue_get`. -/
def getLoopChecks (q : c.MessageQueueId) (message : ℕ) (s : State c S) : List (State c S) :=
  tryGetChecks q message s ++ if (s.messageQueues q).available = 0 then [s] else []

/-- A turn of the loop of `message_queue_put_timeout`, which leads to `message_queue_wait_timeout`,
    and what follows the loop. -/
def putTimeoutLoopChecks (q : c.MessageQueueId) (message : ℕ) (d : Deadline) (s : State c S) :
    List (State c S) :=
  if (s.messageQueues q).available = (s.messageQueues q).queueLength ∧ s.before d then [s]
  else tryPutChecks q message s

/-- A turn of the loop of `message_queue_get_timeout`, and what follows the loop. -/
def getTimeoutLoopChecks (q : c.MessageQueueId) (message : ℕ) (d : Deadline) (s : State c S) :
    List (State c S) :=
  if (s.messageQueues q).available = 0 ∧ s.before d then [s] else tryGetChecks q message s

def messageQueueCallChecks : MessageQueueCall c → State c S → List (State c S)
  | .put q message, s => putLoopChecks q message s
  | .tryPut q message, s => tryPutChecks q message s
  | .putTimeout q message n, s => s :: putTimeoutLoopChecks q message (s.deadline n) s
  | .get q message, s => getLoopChecks q message s
  | .tryGet q message, s => tryGetChecks q message s
  | .getTimeout q message n, s => s :: getTimeoutLoopChecks q message (s.deadline n) s

/-- `message_queue_wait` and `message_queue_wait_timeout` end with a check. -/
def afterWaitChecks : Cont c → State c S → List (State c S)
  | .messageQueuePut q message, s => s :: putLoopChecks q message s
  | .messageQueueGet q message, s => s :: getLoopChecks q message s
  | .messageQueuePutTimeout q message d, s =>
    s.messageQueueWaitTimeoutReturn ::
      putTimeoutLoopChecks q message d s.messageQueueWaitTimeoutReturn
  | .messageQueueGetTimeout q message d, s =>
    s.messageQueueWaitTimeoutReturn ::
      getTimeoutLoopChecks q message d s.messageQueueWaitTimeoutReturn
  | _, _ => []

def resumeChecks (s : State c S) : List (State c S) :=
  match s.core.pc s.currentTask with
  | .wait w =>
    match signalWaitReturn w s.core with
    | none => []
    | some k => afterWaitChecks w.cont { s with core := k }
  | _ => []

/-- The states in which a step calls `message_queue_invariants_check`. -/
def checks : Act c → State c S → List (State c S)
  | .call (.messageQueue f), s => messageQueueCallChecks f s
  | .resume, s => resumeChecks s
  | _, _ => []

/-! ### What is checked -/

variable {s s' : State c S}

/-- A check in `s'` of the step that begins in `s`: since then, tasks have been woken that are no
    longer registered. -/
structure ChecksAfter (s s' : State c S) : Prop where
  sound : TaskTimerSound s'
  app : s'.core.pc s'.currentTask = .app
  currentTask : s'.currentTask = s.currentTask
  registered : ∀ t, s'.messageQueueWaiters t ≠ none →
    s.messageQueueWaiters t ≠ none ∧ s'.core.link t = s.core.link t

theorem ChecksAfter.refl (hs : TaskTimerSound s) (happ : s.core.pc s.currentTask = .app) :
    ChecksAfter s s := ⟨hs, happ, rfl, fun _ h => ⟨h, rfl⟩⟩

theorem ChecksAfter.trans {s'' : State c S} (h : ChecksAfter s s') (h' : ChecksAfter s' s'') :
    ChecksAfter s s'' := by
  refine ⟨h'.sound, h'.app, h'.currentTask.trans h.currentTask, fun t ht => ?_⟩
  obtain ⟨ht', hl⟩ := h'.registered t ht
  exact ⟨(h.registered t ht').1, hl.trans (h.registered t ht').2⟩

/-- The current task is not registered during a check, and its timer is disabled. -/
theorem ChecksAfter.nothing (h : ChecksAfter s s') : s'.messageQueueWaiters s.currentTask = none ∧
    s'.OwnTimerDisabled := by
  have hnothing := h.sound.nothing h.app
  refine ⟨?_, congrArg Held.timer hnothing⟩
  rw [← h.currentTask]
  exact congrArg Held.messageQueue hnothing

theorem wakeWaiters_link {ι : Type} [DecidableEq ι] (o : ι) (waiters : c.TaskId → Option ι)
    (k : Core c S) {t : c.TaskId} (h : waiters t ≠ some o) :
    (wakeWaiters o waiters k).2.link t = k.link t := by
  let p (r : (c.TaskId → Option ι) × Core c S) : Prop := r.1 t ≠ some o ∧ r.2.link t = k.link t
  have hp : p (wakeWaiters o waiters k) := scan_invariant (p := p) (fun r u hr => ?_) ⟨h, rfl⟩
  · exact hp.2
  · split
    · rename_i hu
      have hne : t ≠ u := by
        rintro rfl
        exact hr.1 hu
      exact ⟨by simpa [hne] using hr.1, by simpa [hne] using hr.2⟩
    · exact hr

theorem ChecksAfter.wakeup (hs : TaskTimerSound s) (happ : s.core.pc s.currentTask = .app)
    (q : c.MessageQueueId) : ChecksAfter s (messageQueueWaitersWakeup q s) := by
  have hwakes := wakeWaiters_wakes (A := ∅) q s.messageQueueWaiters s.core
  refine ⟨hs.wakeup q, ?_, hwakes.currentTask, fun t ht => ?_⟩
  · exact ((hwakes.other _).pc.trans (congrArg s.core.pc hwakes.currentTask)).trans happ
  · have hreg := wakeWaiters_waiters q s.messageQueueWaiters s.core t
    split at hreg
    · exact absurd hreg ht
    · rename_i hne
      exact ⟨hreg ▸ ht, wakeWaiters_link q _ _ hne⟩

theorem ChecksAfter.set (hs : TaskTimerSound s) (happ : s.core.pc s.currentTask = .app)
    (q : c.MessageQueueId) (mq : MessageQueue) (memory : Memory) :
    ChecksAfter s (messageQueueSet q mq memory s) :=
  ⟨hs.set q mq memory, happ, rfl, fun _ h => ⟨h, rfl⟩⟩

/-- The checks of a piece of code that begins with one in `s`. -/
structure Checks (s : State c S) (l : List (State c S)) : Prop where
  head : l.head? = some s
  after : ∀ s' ∈ l, ChecksAfter s s'

theorem Checks.single (hs : TaskTimerSound s) (happ : s.core.pc s.currentTask = .app) :
    Checks s [s] := by
  refine ⟨rfl, fun s' hs' => ?_⟩
  obtain rfl := List.mem_singleton.mp hs'
  exact .refl hs happ

theorem Checks.cons {l : List (State c S)} (h : Checks s l) : Checks s (s :: l) := by
  refine ⟨rfl, fun s' hs' => ?_⟩
  rcases List.mem_cons.mp hs' with rfl | hs'
  · exact h.after _ (List.mem_of_head? h.head)
  · exact h.after s' hs'

theorem ChecksAfter.attempt (hs : TaskTimerSound s) (happ : s.core.pc s.currentTask = .app)
    {q : c.MessageQueueId} (h : Attempt q s s') : ChecksAfter s s' := by
  cases h with
  | failed => exact .refl hs happ
  | moved mq memory => exact .set hs happ q mq memory
  | woke mq memory =>
    exact (ChecksAfter.set hs happ q mq memory).trans
      (.wakeup (s := messageQueueSet q mq memory s) (hs.set q mq memory) happ q)

theorem Checks.attempt (hs : TaskTimerSound s) (happ : s.core.pc s.currentTask = .app)
    {q : c.MessageQueueId} (h : Attempt q s s') : Checks s [s, s'] := by
  refine ⟨rfl, fun t ht => ?_⟩
  rcases List.mem_cons.mp ht with rfl | ht
  · exact .refl hs happ
  · obtain rfl := List.mem_singleton.mp ht
    exact .attempt hs happ h

theorem tryPutChecks_checks (hs : TaskTimerSound s) (happ : s.core.pc s.currentTask = .app)
    (q : c.MessageQueueId) (message : ℕ) : Checks s (tryPutChecks q message s) := by
  unfold tryPutChecks
  split
  · rename_i s' h
    exact .attempt hs happ (messageQueueTryPut_attempt h)
  · exact .single hs happ

theorem tryGetChecks_checks (hs : TaskTimerSound s) (happ : s.core.pc s.currentTask = .app)
    (q : c.MessageQueueId) (message : ℕ) : Checks s (tryGetChecks q message s) := by
  unfold tryGetChecks
  split
  · rename_i s' h
    exact .attempt hs happ (messageQueueTryGet_attempt h)
  · exact .single hs happ

theorem Checks.append_if {l : List (State c S)} (h : Checks s l) (p : Prop) [Decidable p] :
    Checks s (l ++ if p then [s] else []) := by
  split
  · refine ⟨by simp [h.head], fun s' hs' => ?_⟩
    rcases List.mem_append.mp hs' with hs' | hs'
    · exact h.after s' hs'
    · obtain rfl := List.mem_singleton.mp hs'
      exact h.after _ (List.mem_of_head? h.head)
  · rwa [List.append_nil]

theorem putTimeoutLoopChecks_checks (hs : TaskTimerSound s)
    (happ : s.core.pc s.currentTask = .app) (q : c.MessageQueueId) (message : ℕ) (d : Deadline) :
    Checks s (putTimeoutLoopChecks q message d s) := by
  unfold putTimeoutLoopChecks
  split
  · exact .single hs happ
  · exact tryPutChecks_checks hs happ q message

theorem getTimeoutLoopChecks_checks (hs : TaskTimerSound s)
    (happ : s.core.pc s.currentTask = .app) (q : c.MessageQueueId) (message : ℕ) (d : Deadline) :
    Checks s (getTimeoutLoopChecks q message d s) := by
  unfold getTimeoutLoopChecks
  split
  · exact .single hs happ
  · exact tryGetChecks_checks hs happ q message

/-- `s'` is the state in which a step from `s` begins its checks, if any: every other task is
    registered and runnable as it was before the step. -/
def BeginsChecks (s s' : State c S) (l : List (State c S)) : Prop :=
  Checks s' l ∧ s'.currentTask = s.currentTask ∧ ∀ t, t ≠ s.currentTask →
    s'.messageQueueWaiters t = s.messageQueueWaiters t ∧ s'.core.link t = s.core.link t

theorem afterWaitChecks_cases (hs : TaskTimerSound s) {w : Wait c} {k : Core c S}
    (hpc : s.core.pc s.currentTask = .wait w) (hk : signalWaitReturn w s.core = some k) :
    afterWaitChecks w.cont { s with core := k } = [] ∨
      ∃ s₁, BeginsChecks s s₁ (afterWaitChecks w.cont { s with core := k }) := by
  have hreturned := hs.returned hpc hk
  have htimeout := hs.returnedTimeout hpc hk
  obtain ⟨-, rfl⟩ := signalWaitReturn_eq_some.mp hk
  let s₁ : State c S := s.onCore fun k => setPc .app (signalRecv k.currentTask w.requested k).2
  have happ : s₁.core.pc s₁.currentTask = .app := by simp [s₁, onCore, currentTask]
  have hother (t : c.TaskId) (ht : t ≠ s.currentTask) :
      s₁.messageQueueWaitTimeoutReturn.messageQueueWaiters t = s.messageQueueWaiters t ∧
        s₁.messageQueueWaitTimeoutReturn.core.link t = s.core.link t :=
    ⟨Function.update_of_ne ht _ _, rfl⟩
  obtain ⟨r, b, blocked, cont⟩ := w
  cases cont with
  | messageQueuePut q message =>
    exact .inr ⟨s₁, ((tryPutChecks_checks (hreturned rfl) happ q message).append_if _).cons, rfl,
      fun _ _ => ⟨rfl, rfl⟩⟩
  | messageQueueGet q message =>
    exact .inr ⟨s₁, ((tryGetChecks_checks (hreturned rfl) happ q message).append_if _).cons, rfl,
      fun _ _ => ⟨rfl, rfl⟩⟩
  | messageQueuePutTimeout q message d =>
    exact .inr ⟨s₁.messageQueueWaitTimeoutReturn,
      (putTimeoutLoopChecks_checks htimeout happ q message d).cons, rfl, hother⟩
  | messageQueueGetTimeout q message d =>
    exact .inr ⟨s₁.messageQueueWaitTimeoutReturn,
      (getTimeoutLoopChecks_checks htimeout happ q message d).cons, rfl, hother⟩
  | _ => exact .inl rfl

theorem checks_cases (hs : TaskTimerSound s) {a : Act c} (h : State.step a s = some s') :
    checks a s = [] ∨ ∃ s₁, BeginsChecks s s₁ (checks a s) := by
  replace h := (Option.ite_none_left_eq_some.mp h).2
  cases a with
  | kernel a => exact .inl rfl
  | store address byte => exact .inl rfl
  | call f =>
    have happ := (inApp_iff.mp (Option.ite_none_right_eq_some.mp h).1).2
    cases f with
    | messageQueue f =>
      refine .inr ⟨s, ?_, rfl, fun _ _ => ⟨rfl, rfl⟩⟩
      cases f with
      | put q message => exact (tryPutChecks_checks hs happ q message).append_if _
      | tryPut q message => exact tryPutChecks_checks hs happ q message
      | putTimeout q message n => exact (putTimeoutLoopChecks_checks hs happ q message _).cons
      | get q message => exact (tryGetChecks_checks hs happ q message).append_if _
      | tryGet q message => exact tryGetChecks_checks hs happ q message
      | getTimeout q message n => exact (getTimeoutLoopChecks_checks hs happ q message _).cons
    | _ => exact .inl rfl
  | resume =>
    show resumeChecks s = [] ∨ ∃ s₁, BeginsChecks s s₁ (resumeChecks s)
    unfold resumeChecks
    split
    · rename_i w hpc
      split
      · exact .inl rfl
      · rename_i k hk
        exact afterWaitChecks_cases hs hpc hk
    · exact .inl rfl

/-! ### Who is registered, and runnable -/

theorem Attempt.queueWaiters {q : c.MessageQueueId} (h : Attempt q s s') {t : c.TaskId}
    (ht : s'.messageQueueWaiters t ≠ none) : s.messageQueueWaiters t ≠ none := by
  cases h with
  | failed => exact ht
  | moved => exact ht
  | woke =>
    have hreg := wakeWaiters_waiters q s.messageQueueWaiters s.core t
    split at hreg
    · exact absurd hreg ht
    · exact hreg ▸ ht

theorem Cont.component_service (cont : Cont c) : cont.service.component = cont.component := by
  cases cont <;> rfl

/-- A task registers itself only. -/
theorem Piece.queueWaiters {x : Service c} (h : Piece x s s') {t : c.TaskId}
    (ht : t ≠ s.currentTask) (hreg : s'.messageQueueWaiters t ≠ none) :
    s.messageQueueWaiters t ≠ none := by
  by_cases hx : x.component = .messageQueue
  · cases h with
    | messageQueuePut q message _ h => exact (messageQueueTryPut_attempt h).queueWaiters hreg
    | messageQueueGet q message _ h => exact (messageQueueTryGet_attempt h).queueWaiters hreg
    | messageQueueWait q cont | messageQueueWaitTimeout q d cont =>
      exact Function.update_of_ne ht (some q) s.messageQueueWaiters ▸ hreg
    | messageQueueUnregister q => exact Function.update_of_ne ht none s.messageQueueWaiters ▸ hreg
    | mutexAcquire _ m hl => exact absurd ((component_of_locks hl).symm.trans hx) (by decide)
    | _ => cases hx
  · rwa [(h.messageQueues hx).2] at hreg

theorem Pieces.queueWaiters {x : Service c} (h : Pieces x s s') (hx : x ≠ .switch) {t : c.TaskId}
    (ht : t ≠ s.currentTask) (hreg : s'.messageQueueWaiters t ≠ none) :
    s.messageQueueWaiters t ≠ none := by
  induction h with
  | refl => exact hreg
  | @tail s₁ s₂ hp hlast ih =>
    have hcur : s₁.currentTask = s.currentTask :=
      (Pieces.moves (A := Set.univ) hp hx trivial trivial).currentTask
    rcases hlast with hlast | hlast
    · exact ih (hlast.queueWaiters (hcur ▸ ht) hreg)
    · exact ih (hlast.queueWaiters (hcur ▸ ht) hreg)

/-- What a step does to a task that it does not execute. -/
theorem step_told {a : Act c} (h : State.step a s = some s') {t : c.TaskId}
    (ht : a.executes = true → t ≠ s.currentTask) : Told t s.core s'.core ∧
      (s'.messageQueueWaiters t ≠ none → s.messageQueueWaiters t ≠ none) := by
  by_cases hexec : a.executes = true
  · have hx : s.service a ≠ .switch := service_ne_switch fun fuel again ha => by
      subst ha
      cases hexec
    have hp := step_pieces h
    exact ⟨(hp.moves (A := Set.univ) hx trivial trivial).told (ht hexec),
      hp.queueWaiters hx (ht hexec)⟩
  · replace h := (Option.ite_none_left_eq_some.mp h).2
    cases a with
    | kernel a =>
      obtain ⟨k, hk, rfl⟩ := Option.map_eq_some_iff.mp h
      refine ⟨?_, id⟩
      rcases act_cases hk with hstill | ⟨fuel, again, rfl, hswitch⟩ | rfl | rfl
      · exact (hstill.quiet (A := ∅)).told t
      · exact hswitch.told t
      · exact (interruptEventProcess_wakes (A := ∅) s.core).told t
      · exact (timerTickProcess_wakes (A := ∅) s.core).told t
    | _ => exact absurd rfl hexec

/-- A task registered for a queue is inside a wait for it. -/
theorem TaskTimerSound.registered (hs : TaskTimerSound s) {t : c.TaskId}
    (h : s.messageQueueWaiters t ≠ none) :
    ∃ w, s.core.pc t = .wait w ∧ w.cont.component = .messageQueue := by
  have hat := hs.held t
  cases hpc : s.core.pc t with
  | app => exact absurd (congrArg Held.messageQueue (hs.nothing hpc)) h
  | entered e =>
    rw [hpc] at hat
    exact hat.elim
  | wait w =>
    rw [hpc] at hat
    obtain ⟨r, b, blocked, cont⟩ := w
    refine ⟨_, rfl, ?_⟩
    cases cont with
    | signalWaitSet => exact absurd (congrArg Held.messageQueue hat) h
    | sleep n start => exact absurd hat.2.2.1 h
    | mutexLock m => exact absurd hat.2.1 h
    | messageQueuePut | messageQueueGet | messageQueuePutTimeout | messageQueueGetTimeout => rfl
    | _ => exact hat.elim

/-- Code of another component leaves the current task unregistered. -/
theorem TaskTimerSound.unregistered {x : Service c} (hs' : TaskTimerSound s') (h : Pieces x s s')
    (hx : x ≠ .switch) (hc : x.component ≠ .messageQueue)
    (hpc : ∀ w, s.core.pc s.currentTask = .wait w → w.cont.component ≠ .messageQueue) :
    s'.messageQueueWaiters s.currentTask = none := by
  by_contra hreg
  obtain ⟨w, hw, hcomp⟩ := hs'.registered hreg
  have hm := h.moves (A := {Component.messageQueue}ᶜ) hx (by simp) hc
  exact hpc w (hm.keeps hw (by simp [hcomp])).1 hcomp

/-- If the current task ends up registered, it has blocked itself, unless it has been sent a signal. -/
def Settles (s s' : State c S) : Prop :=
  s'.messageQueueWaiters s.currentTask ≠ none → ∃ new, s'.core.history = new ++ s.core.history ∧
    (s'.core.runnable s.currentTask ↔ new.any (Event.isSentTo s.currentTask) = true)

theorem Settles.of_none (h : s'.messageQueueWaiters s.currentTask = none) : Settles s s' :=
  fun hreg => absurd h hreg

/-- What happens before a piece of code that sends the current task nothing. -/
theorem Settles.after {s₁ : State c S} (h : Settles s₁ s') (hcur : s₁.currentTask = s.currentTask)
    {new : List (Event c)} (hnew : s₁.core.history = new ++ s.core.history)
    (hsent : new.any (Event.isSentTo s.currentTask) = false) : Settles s s' := by
  intro hreg
  rw [← hcur] at hreg hsent ⊢
  obtain ⟨new', hn', hiff⟩ := h hreg
  refine ⟨new' ++ new, by rw [hn', hnew, List.append_assoc], ?_⟩
  rw [hiff, List.any_append, hsent, Bool.or_false]

/-- A task that waits without its signal pending blocks. -/
theorem not_runnable_signalWaitSet (hinherits : S.inherits = false) {k : Core c S}
    {r : c.SignalSet} {b : Option c.TaskId} {cont : Cont c}
    (h : signalPeek (k.signals k.currentTask) r = false) :
    ¬ (signalWaitSet r b cont k).runnable k.currentTask := by
  rw [Core.runnable, signalWaitSet_link, h]
  simp [hinherits]

/-- A task that has sent itself its signal does not block. -/
theorem runnable_signalWaitSet {k : Core c S} {b : Option c.TaskId} {cont : Cont c} :
    (signalWaitSet c.signalIdTaskTimer b cont
      (signalSendSet k.currentTask c.signalIdTaskTimer k)).runnable k.currentTask := by
  have hpeek : signalPeek ((signalSendSet k.currentTask c.signalIdTaskTimer k).signals k.currentTask)
      c.signalIdTaskTimer = true :=
    signalPeek_taskTimer.mpr (taskTimerPending_signalSendSet.mpr
      (.inr ⟨rfl, by simp [HasTaskTimer, Config.signalIdTaskTimer]⟩))
  rw [Core.runnable, signalWaitSet_link, signalSendSet_currentTask, hpeek]
  simp

theorem messageQueueWait_settles (hinherits : S.inherits = false) (hs : TaskTimerSound s)
    (happ : s.core.pc s.currentTask = .app) (q : c.MessageQueueId) (cont : Cont c) :
    Settles s (messageQueueWait q cont s) := by
  refine fun _ => ⟨[], signalWaitSet_history _ _ _ _, ?_⟩
  exact iff_of_false (not_runnable_signalWaitSet hinherits (hs.not_peek happ)) (by simp)

theorem messageQueueWaitTimeout_settles (hinherits : S.inherits = false) (hs : TaskTimerSound s)
    (hhalt : s.core.halted = none) (happ : s.core.pc s.currentTask = .app) (q : c.MessageQueueId)
    (d : Deadline) (cont : Cont c) : Settles s (messageQueueWaitTimeout q d cont s) := by
  obtain ⟨hnone, -⟩ := hs.oneshot hhalt (s.remaining d)
  rw [messageQueueWaitTimeout, blockTimeout_eq (s := messageQueueRegister (some q) s) hnone]
  intro _
  show ∃ new, (signalWaitSet _ _ _ (timerOneshot (ownTimer s.core) (s.remaining d) s.core)).history =
    _ ∧ ((signalWaitSet _ _ _ (timerOneshot (ownTimer s.core) (s.remaining d) s.core)).runnable _ ↔ _)
  by_cases hn : s.remaining d = 0
  · obtain ⟨tm, htm, hdis, heq⟩ := timerOneshot_own_zero (hs.timers s.currentTask) hhalt
    rw [hn, show timerOneshot (ownTimer s.core) 0 s.core = _ from heq]
    refine ⟨[.sent s.currentTask c.signalIdTaskTimer], signalWaitSet_history _ _ _ _,
      iff_of_true ?_ (by simp [Event.isSentTo])⟩
    exact runnable_signalWaitSet (k := setTimer (c.taskTimers s.currentTask) tm s.core)
  · rw [timerOneshot_of_ne_zero hn hhalt]
    refine ⟨[], signalWaitSet_history _ _ _ _, iff_of_false ?_ (by simp)⟩
    exact not_runnable_signalWaitSet (k := setTimer (ownTimer s.core) _ s.core) hinherits
      (hs.not_peek happ)

theorem TaskTimerSound.unregistered_of_app (hs : TaskTimerSound s) {t : c.TaskId}
    (h : s.core.pc t = .app) : s.messageQueueWaiters t = none :=
  congrArg Held.messageQueue (hs.nothing h)

/-- Putting or getting a message registers nobody. -/
theorem TaskTimerSound.attempt_unregistered (hs : TaskTimerSound s)
    (happ : s.core.pc s.currentTask = .app) {q : c.MessageQueueId} (h : Attempt q s s') :
    s'.messageQueueWaiters s.currentTask = none :=
  by_contra fun hreg => h.queueWaiters hreg (hs.unregistered_of_app happ)

theorem putLoop_settles (hinherits : S.inherits = false) (hs : TaskTimerSound s)
    (happ : s.core.pc s.currentTask = .app) {q : c.MessageQueueId} {message : ℕ}
    (h : messageQueuePutLoop q message s = some s') : Settles s s' := by
  obtain ⟨⟨b, t⟩, hr, rfl⟩ := Option.map_eq_some_iff.mp h
  cases b with
  | true => exact .of_none (hs.attempt_unregistered happ (messageQueueTryPut_attempt hr))
  | false =>
    obtain ⟨-, rfl⟩ := messageQueueTryPut_false hr
    exact messageQueueWait_settles hinherits hs happ q _

theorem getLoop_settles (hinherits : S.inherits = false) (hs : TaskTimerSound s)
    (happ : s.core.pc s.currentTask = .app) {q : c.MessageQueueId} {message : ℕ}
    (h : messageQueueGetLoop q message s = some s') : Settles s s' := by
  obtain ⟨⟨b, t⟩, hr, rfl⟩ := Option.map_eq_some_iff.mp h
  cases b with
  | true => exact .of_none (hs.attempt_unregistered happ (messageQueueTryGet_attempt hr))
  | false =>
    obtain ⟨-, rfl⟩ := messageQueueTryGet_false hr
    exact messageQueueWait_settles hinherits hs happ q _

theorem putTimeoutLoop_settles (hinherits : S.inherits = false) (hs : TaskTimerSound s)
    (hhalt : s.core.halted = none) (happ : s.core.pc s.currentTask = .app) {q : c.MessageQueueId}
    {message : ℕ} {d : Deadline} (h : messageQueuePutTimeoutLoop q message d s = some s') :
    Settles s s' := by
  unfold messageQueuePutTimeoutLoop at h
  dsimp only at h
  split at h
  · obtain rfl := Option.some.inj h
    exact messageQueueWaitTimeout_settles hinherits hs hhalt happ q d _
  · obtain ⟨⟨b, t⟩, hr, rfl⟩ := Option.map_eq_some_iff.mp h
    have hnone := hs.attempt_unregistered happ (messageQueueTryPut_attempt hr)
    cases b <;> exact .of_none hnone

theorem getTimeoutLoop_settles (hinherits : S.inherits = false) (hs : TaskTimerSound s)
    (hhalt : s.core.halted = none) (happ : s.core.pc s.currentTask = .app) {q : c.MessageQueueId}
    {message : ℕ} {d : Deadline} (h : messageQueueGetTimeoutLoop q message d s = some s') :
    Settles s s' := by
  unfold messageQueueGetTimeoutLoop at h
  split at h
  · obtain rfl := Option.some.inj h
    exact messageQueueWaitTimeout_settles hinherits hs hhalt happ q d _
  · obtain ⟨⟨b, t⟩, hr, rfl⟩ := Option.map_eq_some_iff.mp h
    have hnone := hs.attempt_unregistered happ (messageQueueTryGet_attempt hr)
    cases b <;> exact .of_none hnone

/-- The current task goes on after a wait of a message queue. -/
theorem afterWait_settles (hinherits : S.inherits = false) (hs : TaskTimerSound s)
    (hhalt : s.core.halted = none) {w : Wait c} (hpc : s.core.pc s.currentTask = .wait w)
    {k : Core c S} (hk : signalWaitReturn w s.core = some k)
    (hc : w.cont.component = .messageQueue)
    (h : afterWait w.cont { s with core := k } = some s') : Settles s s' := by
  have hreturned := hs.returned hpc hk
  have htimeout := hs.returnedTimeout hpc hk
  obtain ⟨-, rfl⟩ := signalWaitReturn_eq_some.mp hk
  have happ : (setPc .app (signalRecv s.core.currentTask w.requested s.core).2).pc
    s.core.currentTask = .app := by simp
  let received : Event c :=
    .received s.currentTask w.requested (signalRecv s.core.currentTask w.requested s.core).1
  let s₁ : State c S := s.onCore fun k => setPc .app (signalRecv k.currentTask w.requested k).2
  have after (s₁ : State c S) (hcur : s₁.currentTask = s.currentTask)
      (hhist : s₁.core.history = [received] ++ s.core.history) (hsettles : Settles s₁ s') :
      Settles s s' := hsettles.after hcur hhist rfl
  obtain ⟨r, b, blocked, cont⟩ := w
  cases cont with
  | messageQueuePut q message =>
    exact after s₁ rfl rfl (putLoop_settles hinherits (hreturned rfl) happ h)
  | messageQueueGet q message =>
    exact after s₁ rfl rfl (getLoop_settles hinherits (hreturned rfl) happ h)
  | messageQueuePutTimeout q message d =>
    exact after s₁.messageQueueWaitTimeoutReturn rfl rfl
      (putTimeoutLoop_settles hinherits htimeout hhalt happ h)
  | messageQueueGetTimeout q message d =>
    exact after s₁.messageQueueWaitTimeoutReturn rfl rfl
      (getTimeoutLoop_settles hinherits htimeout hhalt happ h)
  | _ => cases hc

/-- What a step does to the task it executes. -/
theorem step_settles (hinherits : S.inherits = false) (hs : TaskTimerSound s)
    (hs' : TaskTimerSound s') {a : Act c} (h : State.step a s = some s')
    (hexec : a.executes = true) : Settles s s' := by
  have hx : s.service a ≠ .switch := service_ne_switch fun fuel again ha => by
    subst ha
    cases hexec
  have hpieces := step_pieces h
  obtain ⟨hhalt, h⟩ := Option.ite_none_left_eq_some.mp h
  replace hhalt : s.core.halted = none := by simpa using hhalt
  have quiet (hc : (s.service a).component ≠ .messageQueue)
      (hpc : ∀ w, s.core.pc s.currentTask = .wait w → w.cont.component ≠ .messageQueue) :
      Settles s s' := .of_none (hs'.unregistered hpieces hx hc hpc)
  cases a with
  | kernel a => cases hexec
  | store address byte =>
    have happ := (inApp_iff.mp (Option.ite_none_right_eq_some.mp h).1).2
    exact quiet nofun (by simp [happ])
  | call f =>
    obtain ⟨happ, h⟩ := Option.ite_none_right_eq_some.mp h
    replace happ := (inApp_iff.mp happ).2
    cases f with
    | core f => exact quiet nofun (by simp [happ])
    | mutex f => exact quiet (by cases f <;> nofun) (by simp [happ])
    | sem f => exact quiet (by cases f <;> nofun) (by simp [happ])
    | messageQueue f =>
      cases f with
      | put q message => exact putLoop_settles hinherits hs happ h
      | get q message => exact getLoop_settles hinherits hs happ h
      | tryPut q message =>
        obtain ⟨⟨b, t⟩, hr, rfl⟩ := Option.map_eq_some_iff.mp h
        exact .of_none (hs.attempt_unregistered happ (messageQueueTryPut_attempt hr))
      | tryGet q message =>
        obtain ⟨⟨b, t⟩, hr, rfl⟩ := Option.map_eq_some_iff.mp h
        exact .of_none (hs.attempt_unregistered happ (messageQueueTryGet_attempt hr))
      | putTimeout q message n =>
        exact putTimeoutLoop_settles hinherits hs hhalt happ (Option.ite_none_left_eq_some.mp h).2
      | getTimeout q message n =>
        exact getTimeoutLoop_settles hinherits hs hhalt happ (Option.ite_none_left_eq_some.mp h).2
  | resume =>
    replace h := (Option.ite_none_right_eq_some.mp h).2
    cases hpc : s.core.pc s.currentTask with
    | app =>
      simp only [State.resume, hpc] at h
      cases h
    | entered e =>
      have hat := hs.held s.currentTask
      rw [hpc] at hat
      exact hat.elim
    | wait w =>
      simp only [State.resume, hpc] at h
      cases hk : signalWaitReturn w s.core with
      | none =>
        simp only [hk] at h
        obtain rfl := Option.some.inj h
        refine fun _ => ⟨[], rfl, iff_of_false ?_ (by simp)⟩
        show (blockOn w.blocker s.core).link s.core.currentTask ≠ some s.core.currentTask
        simp [hinherits]
      | some k =>
        simp only [hk] at h
        by_cases hc : w.cont.component = .messageQueue
        · exact afterWait_settles hinherits hs hhalt hpc hk hc h
        · refine quiet ?_ fun w' hw' => ?_
          · have hx : s.service .resume = w.cont.service := by simp only [service, hpc]
            rwa [hx, Cont.component_service]
          · obtain rfl := Pc.wait.inj (hpc.symm.trans hw')
            exact hc

end State

/-- A system that remembers which tasks have been sent a signal since they last executed, and in which
    states `message_queue_invariants_check` was called. -/
structure Watch (c : Config) (S : Sched c.tasks c.mutexes) where
  state : State c S
  signalled : c.TaskId → Bool
  checked : List (State c S)

namespace Watch

open Echronos.Core Echronos.State

def start (memory : Memory) : Watch c S := ⟨State.start memory, fun _ => false, []⟩

def step (a : Act c) (w : Watch c S) : Option (Watch c S) :=
  (State.step a w.state).map fun s' =>
    { state := s'
      signalled := fun t => sentTo w.state.core s'.core t ||
        (w.signalled t && !(a.executes && t = w.state.currentTask))
      checked := checks a w.state ++ w.checked }

/-- The states reached by steps that all meet `ok`, from the start of the system. -/
def ReachedBy (ok : Act c → Watch c S → Prop) (w : Watch c S) : Prop :=
  ∃ memory, Reach step ok (start memory) w

/-- When a message-queue function is called or goes on, no other task that is registered for a queue
    has been sent a signal since it last executed. -/
def WaitersUnsignalled (a : Act c) (w : Watch c S) : Prop :=
  checks a w.state ≠ [] → ∀ t, t ≠ w.state.currentTask →
    w.state.messageQueueWaiters t ≠ none → w.signalled t = false

instance (a : Act c) (w : Watch c S) : Decidable (WaitersUnsignalled a w) :=
  inferInstanceAs (Decidable (_ → ∀ _, _))

variable {w w' : Watch c S}

theorem ReachedBy.state {ok : Act c → Watch c S → Prop} {ok' : Act c → State c S → Prop}
    (hok : ∀ a w, ok a w → ok' a w.state) (h : w.ReachedBy ok) : w.state.ReachedBy ok' := by
  obtain ⟨memory, h⟩ := h
  refine ⟨memory, ?_⟩
  induction h with
  | start => exact .start
  | next a hreach ha hstep ih =>
    obtain ⟨s', hs', rfl⟩ := Option.map_eq_some_iff.mp hstep
    exact .next a ih (hok a _ ha) hs'

/-- A registered task is runnable if and only if it has been sent a signal since it last executed. -/
def Told (w : Watch c S) : Prop := ∀ t, w.state.messageQueueWaiters t ≠ none →
  (w.state.core.runnable t ↔ w.signalled t = true)

theorem Told.step (hw : w.Told) (hinherits : S.inherits = false) (hs : TaskTimerSound w.state)
    (hs' : TaskTimerSound w'.state) {a : Act c} (h : step a w = some w') : w'.Told := by
  obtain ⟨s', hstep, rfl⟩ := Option.map_eq_some_iff.mp h
  intro t ht
  by_cases hexec : a.executes = true ∧ t = w.state.currentTask
  · obtain ⟨hexec, rfl⟩ := hexec
    obtain ⟨new, hn, hiff⟩ := step_settles hinherits hs hs' hstep hexec ht
    simp [hiff, sentTo_of_eq hn, hexec]
  · obtain ⟨⟨new, hn, hl⟩, hreg⟩ := step_told hstep fun he ht => hexec ⟨he, ht⟩
    have hold := hw t (hreg ht)
    have hkeeps : (a.executes && decide (t = w.state.currentTask)) = false := by
      simpa using hexec
    simp only [sentTo_of_eq hn, hkeeps, Core.runnable, hl] at hold ⊢
    cases new.any (Event.isSentTo t) with
    | true => simp
    | false => simpa [Core.runnable] using hold

theorem ReachedBy.told {ok : Act c → Watch c S → Prop} (h : w.ReachedBy ok)
    (hinherits : S.inherits = false) (hok : ∀ a w, ok a w → SparesTaskTimer a)
    (hc : RigelComponents c)
    (htimers : ∀ i, ¬ IsTaskTimer i → ¬ HasTaskTimer (c.timersInit i).signalSet)
    (hevents : ∀ i, ¬ HasTaskTimer (c.interruptEventsInit i).sigSet) :
    w.Told ∧ TaskTimerSound w.state := by
  obtain ⟨memory, h⟩ := h
  have hsound {w : Watch c S} (hw : Reach step ok (start memory) w) : TaskTimerSound w.state :=
    ((ReachedBy.state (fun a w => hok a w) ⟨memory, hw⟩).taskTimerSound hc htimers hevents).1
  refine ⟨Reach.invariant h (fun t ht => absurd rfl ht) fun w a w' hw hI ha hstep =>
    hI.step hinherits (hsound hw) (hsound (.next a hw ha hstep)) hstep, hsound h⟩

/-- The checks of a step find the registered tasks blocked, if no signal has been sent to them. -/
theorem Told.checks (hw : w.Told) (hs : TaskTimerSound w.state) {a : Act c} {s' : State c S}
    (hstep : State.step a w.state = some s') :
    ((∀ s ∈ State.checks a w.state, s.WaitingTasksBlocked) ↔ WaitersUnsignalled a w) ∧
      ∀ s ∈ State.checks a w.state, s.OwnTimerDisabled := by
  rcases checks_cases hs hstep with hnone | ⟨s₁, hl, hcur, hother⟩
  · simp [WaitersUnsignalled, hnone]
  · refine ⟨⟨fun hblocked hne t ht hreg => ?_, fun hun s hmem t hreg => ?_⟩, fun s hmem =>
      (hl.after s hmem).nothing.2⟩
    · have hmem := List.mem_of_head? hl.head
      obtain ⟨hreg₁, hlink⟩ := hother t ht
      have hnot := hblocked s₁ hmem t (hreg₁ ▸ hreg)
      rw [Core.runnable, hlink] at hnot
      exact Bool.eq_false_iff.mpr (mt (hw t hreg).mpr hnot)
    · have hafter := hl.after s hmem
      have ht : t ≠ w.state.currentTask := by
        rintro rfl
        exact hreg (hcur ▸ hafter.nothing.1)
      obtain ⟨hreg₁, hlink⟩ := hafter.registered t hreg
      obtain ⟨hreg₀, hlink₀⟩ := hother t ht
      have hold := hreg₀ ▸ hreg₁
      have hsig := hun (List.ne_nil_of_mem hmem) t ht hold
      rw [Core.runnable, hlink, hlink₀]
      intro hr
      rw [(hw t hold).mp hr] at hsig
      cases hsig

end Watch

open Watch

/-- A run of the watched system that ends where `p` holds, found by executing it. -/
theorem Watch.exists_reachedBy_of_run (ok : Act c → Watch c S → Prop)
    (check : Act c → Watch c S → Bool) (as : List (Act c)) (p : Watch c S → Bool)
    (has : ∀ a ∈ as, ∀ w, check a w = true → ok a w)
    (h : (run Watch.step check as (start fun _ => 0)).any p = true) :
    ∃ w : Watch c S, w.ReachedBy ok ∧ p w = true := by
  obtain ⟨w, hw, hp⟩ := exists_reach_of_run has h
  exact ⟨w, ⟨_, hw⟩, hp⟩

end Echronos
