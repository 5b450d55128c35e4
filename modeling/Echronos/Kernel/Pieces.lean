import Echronos.Kernel.Effects
import Echronos.Kernel.System
import Mathlib.Logic.Relation

/-! # The pieces a step consists of

    Between two context switches a task executes at most a few pieces, each of which leaves every
    table of the kernel consistent: it receives the signals it waited for, acquires a mutex, or
    registers as a waiter and blocks. `Piece` lists them, labelled with the function a piece belongs
    to, and every invariant of the development is proved once for each piece. -/

namespace Echronos

open Schemes

variable {c : Config} {S : Sched c.tasks c.mutexes}

/-- The object a task inside `signal_wait_set` waits for. -/
def Cont.mutex : Cont c → Option c.MutexId
  | .mutexLock m => some m
  | .mutexLockTimeout m _ => some m
  | _ => none

@[inherit_doc Cont.mutex]
def Cont.sem : Cont c → Option c.SemId
  | .semWait i => some i
  | .semWaitTimeout i _ => some i
  | _ => none

@[inherit_doc Cont.mutex]
def Cont.messageQueue : Cont c → Option c.MessageQueueId
  | .messageQueuePut q _ => some q
  | .messageQueuePutTimeout q _ _ => some q
  | .messageQueueGet q _ => some q
  | .messageQueueGetTimeout q _ _ => some q
  | _ => none

/-- The function a piece of code belongs to: none of those with waiters for `kernel`, and for
    `switch` the scheduler's. -/
inductive Service (c : Config)
  | kernel
  | switch
  | enter (e : Entry c)
  | core (f : Core.Call c)
  | mutexLock (m : c.MutexId)
  | mutexLockTimeout (m : c.MutexId) (d : Deadline)
  | mutexTryLock (m : c.MutexId)
  | mutexUnlock (m : c.MutexId)
  | semWait (i : c.SemId)
  | semPost (i : c.SemId)
  | semMaxInit (i : c.SemId)
  | messageQueue (q : c.MessageQueueId)

namespace Service

def component : Service c → Component
  | .kernel => .kernel
  | .switch => .kernel
  | .enter _ => .entry
  | .core _ => .kernel
  | .mutexLock _ => .mutex
  | .mutexLockTimeout _ _ => .mutex
  | .mutexTryLock _ => .mutex
  | .mutexUnlock _ => .mutex
  | .semWait _ => .sem
  | .semPost _ => .sem
  | .semMaxInit _ => .sem
  | .messageQueue _ => .messageQueue

/-- The mutex a function tries to lock. -/
def locks : Service c → Option c.MutexId
  | .mutexLock m => some m
  | .mutexLockTimeout m _ => some m
  | .mutexTryLock m => some m
  | _ => none

end Service

namespace Core

/-- What the caller of `signal_wait_set` does first after its return, in the same component. -/
def afterReceive : Cont c → Core c S → Core c S
  | .sleep ticks start, k => record (.slept k.currentTask ticks start k.processed) k
  | .mutexLockTimeout _ _, k => timerDisable (ownTimer k) k
  | .semWaitTimeout _ _, k => timerDisable (ownTimer k) k
  | .messageQueuePutTimeout _ _ _, k => timerDisable (ownTimer k) k
  | .messageQueueGetTimeout _ _ _, k => timerDisable (ownTimer k) k
  | _, k => k

theorem afterReceive_quiet {A : Set Component} (hA : .kernel ∈ A) (cont : Cont c) (k : Core c S) :
    Quiet A k (afterReceive cont k) := by
  cases cont with
  | sleep n start =>
    exact record_quiet ⟨rfl, fun C hC => by obtain rfl : Component.kernel = C := by
                                              simpa [Event.component] using hC
                                            exact hA⟩ k
  | mutexLockTimeout => exact setTimer_quiet _ _ _
  | semWaitTimeout => exact setTimer_quiet _ _ _
  | messageQueuePutTimeout => exact setTimer_quiet _ _ _
  | messageQueueGetTimeout => exact setTimer_quiet _ _ _
  | _ => exact .refl A k

end Core

namespace State

open Echronos.Core

/-- What a task waits for has not happened: the message queue is full, or empty. -/
def Blocks (s : State c S) : Cont c → Prop
  | .messageQueuePut q _ => (s.messageQueues q).available = (s.messageQueues q).queueLength
  | .messageQueuePutTimeout q _ _ =>
    (s.messageQueues q).available = (s.messageQueues q).queueLength
  | .messageQueueGet q _ => (s.messageQueues q).available = 0
  | .messageQueueGetTimeout q _ _ => (s.messageQueues q).available = 0
  | _ => False

/-- What a function has read and checked when its caller can be preempted for the first time. -/
def Enters (s : State c S) : Entry c → Prop
  | .mutexLockTimeout m d => d = s.deadline d.timeout ∧ s.mutexes m ≠ some s.currentTask
  | .semWaitTimeout _ d => d = s.deadline d.timeout
  | .semMaxInit i max => max ≠ 0 ∧ (s.semaphores i).max = 0

inductive Piece : Service c → State c S → State c S → Prop
  -- interrupts, `interrupt_event_get_next()`, and a system that stops
  | still {s k} : Still s.core k → Piece .kernel s { s with core := k }
  | switch {s k} : Switch s.core k → Piece .switch s { s with core := k }
  | events {s} : Piece .kernel s (s.onCore fun k => { interruptEventProcess k with phase := .tick })
  | tick {s} : Piece .kernel s (s.onCore fun k => { timerTickProcess k with phase := .select })
  -- application code, and tasks going from one function to another
  | store {s} (memory : Memory) : Piece .kernel s { s with memory := memory }
  | core {s k} (f : Core.Call c) : s.core.pc s.currentTask = .app → Core.call f s.core = some k →
      Piece (.core f) s { s with core := k }
  | enter {s} (e : Entry c) : s.core.pc s.currentTask = .app → s.Enters e →
      Piece (.enter e) s (s.onCore (setPc (.entered e)))
  | leave {s} (e : Entry c) : s.core.pc s.currentTask = .entered e →
      Piece .kernel s (s.onCore (setPc .app))
  | block {s} (w : Wait c) : s.core.pc s.currentTask = .wait w → w.blocked = true →
      signalPeek (s.core.signals s.currentTask) w.requested = false →
      Piece .kernel s (s.onCore (blockOn w.blocker))
  | receive {s} (w : Wait c) : s.core.halted = none → s.core.pc s.currentTask = .wait w →
      (w.blocked = true → signalPeek (s.core.signals s.currentTask) w.requested = true) →
      Piece .kernel s (s.onCore fun k =>
        afterReceive w.cont (setPc .app (signalRecv k.currentTask w.requested k).2))
  | giveUp {s} (d : Deadline) : s.before d = false → Piece .kernel s (s.giveUp d)
  -- mutexes
  | mutexAcquire {s} (x : Service c) (m : c.MutexId) : x.locks = some m → s.core.Awake →
      s.mutexes m = none → Piece x s (mutexTryLock m s).2
  | mutexWait {s} (m : c.MutexId) : s.core.Awake → s.mutexes m ≠ none →
      Piece (.mutexLock m) s ((mutexRegister m s).onCore
        (signalWaitSet c.signalIdTaskTimer (s.mutexes m) (.mutexLock m)))
  | mutexWaitTimeout {s} (m : c.MutexId) (d : Deadline) : s.core.Awake → s.mutexes m ≠ none →
      s.before d = true → Piece (.mutexLockTimeout m d) s
        ((mutexRegister m s).blockTimeout (s.mutexes m) (s.remaining d) (.mutexLockTimeout m d))
  | mutexUnlock {s} (m : c.MutexId) : s.core.Awake → s.mutexes m = some s.currentTask →
      Piece (.mutexUnlock m) s (mutexUnlock m s)
  -- semaphores
  | semTake {s} (i : c.SemId) : s.core.Awake → (s.semaphores i).value ≠ 0 →
      Piece (.semWait i) s (internalSemTryWait i s).2
  | semWait {s} (i : c.SemId) : s.core.Awake → (s.semaphores i).value = 0 →
      Piece (.semWait i) s ((semRegister i s).onCore (waitTaskTimer (.semWait i)))
  | semWaitTimeout {s} (i : c.SemId) (d : Deadline) : s.core.Awake → (s.semaphores i).value = 0 →
      s.before d = true → Piece (.semWait i) s
        ((semRegister i s).blockTimeout none (s.remaining d) (.semWaitTimeout i d))
  | semPost {s} (i : c.SemId) : s.core.Awake →
      (c.semaphoreEnableMax → (s.semaphores i).value < (s.semaphores i).max) →
      Piece (.semPost i) s (semPost i s)
  | semMaxStore {s} (i : c.SemId) (max : c.SemValue) : s.core.Awake →
      Piece (.semMaxInit i) s (semMaxStore i max s)
  -- message queues
  | messageQueuePut {s s'} (q : c.MessageQueueId) (message : ℕ) : s.core.Awake →
      messageQueueTryPut q message s = some (true, s') → Piece (.messageQueue q) s s'
  | messageQueueGet {s s'} (q : c.MessageQueueId) (message : ℕ) : s.core.Awake →
      messageQueueTryGet q message s = some (true, s') → Piece (.messageQueue q) s s'
  | messageQueueWait {s} (q : c.MessageQueueId) (cont : Cont c) : s.core.Awake →
      cont.messageQueue = some q → s.Blocks cont →
      Piece (.messageQueue q) s (messageQueueWait q cont s)
  | messageQueueWaitTimeout {s} (q : c.MessageQueueId) (d : Deadline) (cont : Cont c) :
      s.core.Awake → cont.messageQueue = some q → s.Blocks cont → s.before d = true →
      Piece (.messageQueue q) s (messageQueueWaitTimeout q d cont s)
  | messageQueueUnregister {s} (q : c.MessageQueueId) : s.core.Awake →
      Piece (.messageQueue q) s (messageQueueRegister none s)

/-- The pieces of one step, of one function. -/
def Pieces (x : Service c) : State c S → State c S → Prop :=
  Relation.ReflTransGen fun s s' => Piece .kernel s s' ∨ Piece x s s'

theorem Pieces.single {x : Service c} {s s' : State c S} (h : Piece x s s') : Pieces x s s' :=
  Relation.ReflTransGen.single (.inr h)

theorem Pieces.kernel {x : Service c} {s s' : State c S} (h : Piece .kernel s s') :
    Pieces x s s' := Relation.ReflTransGen.single (.inl h)

theorem Pieces.refl {x : Service c} (s : State c S) : Pieces x s s := Relation.ReflTransGen.refl

theorem Pieces.trans {x : Service c} {s s' s'' : State c S} (h : Pieces x s s')
    (h' : Pieces x s' s'') : Pieces x s s'' := Relation.ReflTransGen.trans h h'

/-! ### Pieces as moves -/

variable {A : Set Component}

theorem blockTimeout_moves {s : State c S} (ha : s.core.Awake) (b : Option c.TaskId)
    (ticks : BitVec 16) {cont : Cont c} (hc : cont.component ∈ A) :
    Moves A s.core (s.blockTimeout b ticks cont).core :=
  (timerOneshot_wakes _ _ _).andThen_wait ha _ _ hc

theorem mutexTryLock_of_none {m : c.MutexId} {s : State c S} (h : s.mutexes m = none) :
    (mutexTryLock m s).2 = { s with
      mutexes := Function.update s.mutexes m (some s.currentTask)
      core := Core.record (.acquired s.currentTask m)
        { s.core with sched := S.schedSetMutexLockedBy m s.currentTask s.core.sched } } := by
  simp [mutexTryLock, h]

theorem internalSemTryWait_of_ne {i : c.SemId} {s : State c S} (h : (s.semaphores i).value ≠ 0) :
    (internalSemTryWait i s).2 = { s with
      semaphores := Function.update s.semaphores i
        { s.semaphores i with value := (s.semaphores i).value - 1 }
      core := Core.record (.took s.currentTask i) s.core } := by
  unfold internalSemTryWait
  rw [if_neg h]

/-- `sem_post` wakes the waiting tasks on the edge from `0` only. -/
theorem semPost_eq {i : c.SemId} {s : State c S}
    (h : c.semaphoreEnableMax → (s.semaphores i).value < (s.semaphores i).max) :
    semPost i s =
      let r := if (s.semaphores i).value = 0 then Core.wakeWaiters i s.semWaiters s.core
        else (s.semWaiters, s.core)
      { s with
        semaphores := Function.update s.semaphores i
          { s.semaphores i with value := (s.semaphores i).value + 1 }
        semWaiters := r.1
        core := Core.record (.posted s.currentTask i) r.2 } := by
  have : ¬ (c.semaphoreEnableMax = true ∧ (s.semaphores i).max ≤ (s.semaphores i).value) :=
    fun ⟨hm, hle⟩ => absurd (h hm) (by simpa using hle)
  simp [semPost, this]

theorem Attempt.wakes {q : c.MessageQueueId} {s s' : State c S} (h : Attempt q s s') :
    Wakes A s.core s'.core := by
  cases h with
  | failed => exact .refl
  | moved => exact .refl
  | woke => exact wakeWaiters_wakes _ _ _

theorem component_of_messageQueue {cont : Cont c} {q : c.MessageQueueId}
    (h : cont.messageQueue = some q) : cont.component = .messageQueue := by
  cases cont <;> first | rfl | cases h

theorem component_of_locks {x : Service c} {m : c.MutexId} (h : x.locks = some m) :
    x.component = .mutex := by
  cases x <;> first | rfl | cases h

/-- A piece makes moves of its component, or switches to another task. -/
theorem Piece.moves {x : Service c} {s s' : State c S} (h : Piece x s s') (hA : x.component ∈ A) :
    Moves A s.core s'.core ∨ (x = .switch ∧ Switch s.core s'.core) := by
  cases h with
  | still hs => exact .inl (.of_quiet hs.quiet)
  | switch hs => exact .inr ⟨rfl, hs⟩
  | events =>
    exact .inl (.of_wakes (.quiet (interruptEventProcess_wakes _)
      (quiet_of_eq rfl rfl rfl rfl rfl id)))
  | tick =>
    exact .inl (.of_wakes (.quiet (timerTickProcess_wakes _) (quiet_of_eq rfl rfl rfl rfl rfl id)))
  | store => exact .inl .refl
  | core f happ hf => exact .inl (call_moves happ hA hf)
  | enter e happ => exact .inl (.goto _ .refl (by simp) (fun _ _ => hA) (.of_app happ))
  | leave e he => exact .inl (.goto _ .refl (by simp) (by simp) fun w hw => by
      rw [show s.core.currentTask = s.currentTask from rfl, he] at hw
      cases hw)
  | block w hpc hb hp => exact .inl (.block w .refl hpc hb hp)
  | receive w _ hpc hp =>
    refine .inl (.wakes (.receive w.requested .refl fun w' hw' hb => ?_)
      (.of_quiet (afterReceive_quiet hA _ _)))
    obtain rfl : w = w' := Pc.wait.inj (hpc.symm.trans hw')
    exact hp hb
  | giveUp d => exact .inl (.of_quiet (record_quiet ⟨rfl, by simp [Event.component]⟩ _))
  | mutexAcquire _ m hx ha hm =>
    rw [component_of_locks hx] at hA
    rw [mutexTryLock_of_none hm]
    exact .inl (.of_quiet ((setMutexLockedBy_quiet hA _ _ _).trans
      (record_quiet ⟨rfl, by simpa [Event.component]⟩ _)))
  | mutexWait m ha hm => exact .inl (.wait _ _ _ .refl hA ha)
  | mutexWaitTimeout m d ha hm => exact .inl (blockTimeout_moves (s := mutexRegister m s) ha _ _ hA)
  | mutexUnlock m ha hm =>
    exact .inl (.of_wakes (.quiet ((Wakes.of_quiet (setMutexUnlocked_quiet hA m s.core)).trans
      (wakeWaiters_wakes _ _ _)) (record_quiet ⟨rfl, by simpa [Event.component]⟩ _)))
  | semTake i ha hv =>
    rw [internalSemTryWait_of_ne hv]
    exact .inl (.of_quiet (record_quiet ⟨rfl, by simpa [Event.component]⟩ _))
  | semWait i ha hv => exact .inl (waitTaskTimer_moves ha hA)
  | semWaitTimeout i d ha hv => exact .inl (blockTimeout_moves (s := semRegister i s) ha _ _ hA)
  | semPost i ha hv =>
    rw [semPost_eq hv]
    refine .inl (.of_wakes (.quiet ?_ (record_quiet ⟨rfl, by simpa [Event.component]⟩ _)))
    split
    · exact wakeWaiters_wakes _ _ _
    · exact .refl
  | semMaxStore i max => exact .inl (.of_quiet (record_quiet ⟨rfl, by simpa [Event.component]⟩ _))
  | messageQueuePut q message ha h => exact .inl (.of_wakes (messageQueueTryPut_attempt h).wakes)
  | messageQueueGet q message ha h => exact .inl (.of_wakes (messageQueueTryGet_attempt h).wakes)
  | messageQueueWait q cont ha hc =>
    exact .inl (waitTaskTimer_moves ha ((component_of_messageQueue hc).symm ▸ hA))
  | messageQueueWaitTimeout q d cont ha hc =>
    exact .inl (blockTimeout_moves (s := messageQueueRegister (some q) s) ha _ _
      ((component_of_messageQueue hc).symm ▸ hA))
  | messageQueueUnregister => exact .inl .refl

/-! ### Pieces of other components

    The tables of a component are changed by its own pieces only. -/

theorem Attempt.unchanged {q : c.MessageQueueId} {s s' : State c S} (h : Attempt q s s') :
    (s'.mutexes = s.mutexes ∧ s'.mutexWaiters = s.mutexWaiters) ∧
    (s'.semaphores = s.semaphores ∧ s'.semWaiters = s.semWaiters) := by
  cases h with
  | failed | moved | woke => exact ⟨⟨rfl, rfl⟩, rfl, rfl⟩

theorem Piece.mutexes {x : Service c} {s s' : State c S} (h : Piece x s s')
    (hx : x.component ≠ .mutex) :
    s'.mutexes = s.mutexes ∧ s'.mutexWaiters = s.mutexWaiters := by
  cases h with
  | mutexAcquire _ m hl => exact absurd (component_of_locks hl) hx
  | mutexWait | mutexWaitTimeout | mutexUnlock => exact absurd rfl hx
  | semTake i ha hv => rw [internalSemTryWait_of_ne hv]; exact ⟨rfl, rfl⟩
  | semPost i ha hv => rw [semPost_eq hv]; exact ⟨rfl, rfl⟩
  | messageQueuePut q message ha h => exact (messageQueueTryPut_attempt h).unchanged.1
  | messageQueueGet q message ha h => exact (messageQueueTryGet_attempt h).unchanged.1
  | _ => exact ⟨rfl, rfl⟩

theorem Piece.semaphores {x : Service c} {s s' : State c S} (h : Piece x s s')
    (hx : x.component ≠ .sem) :
    s'.semaphores = s.semaphores ∧ s'.semWaiters = s.semWaiters := by
  cases h with
  | mutexAcquire _ m _ _ hm => rw [mutexTryLock_of_none hm]; exact ⟨rfl, rfl⟩
  | semTake | semWait | semWaitTimeout | semPost | semMaxStore => exact absurd rfl hx
  | messageQueuePut q message ha h => exact (messageQueueTryPut_attempt h).unchanged.2
  | messageQueueGet q message ha h => exact (messageQueueTryGet_attempt h).unchanged.2
  | _ => exact ⟨rfl, rfl⟩

theorem Piece.messageQueues {x : Service c} {s s' : State c S} (h : Piece x s s')
    (hx : x.component ≠ .messageQueue) :
    s'.messageQueues = s.messageQueues ∧ s'.messageQueueWaiters = s.messageQueueWaiters := by
  cases h with
  | mutexAcquire _ m _ _ hm => rw [mutexTryLock_of_none hm]; exact ⟨rfl, rfl⟩
  | semTake i ha hv => rw [internalSemTryWait_of_ne hv]; exact ⟨rfl, rfl⟩
  | semPost i ha hv => rw [semPost_eq hv]; exact ⟨rfl, rfl⟩
  | messageQueuePut | messageQueueGet | messageQueueWait | messageQueueWaitTimeout
  | messageQueueUnregister => exact absurd rfl hx
  | _ => exact ⟨rfl, rfl⟩

/-- A piece leaves every task but the current one where it is, with at least its signals. -/
theorem Piece.other {x : Service c} {s s' : State c S} (h : Piece x s s') {t : c.TaskId}
    (ht : t ≠ s.currentTask) : Other t s.core s'.core := by
  rcases h.moves (Set.mem_univ _) with hm | ⟨-, hs⟩
  · exact hm.other ht
  · exact hs.other t

theorem Piece.halted {x : Service c} {s s' : State c S} (h : Piece x s s')
    (hs : s'.core.halted = none) : s.core.halted = none := by
  rcases h.moves (Set.mem_univ _) with hm | ⟨-, hsw⟩
  · exact hm.halted hs
  · exact hsw.halted ▸ hs

/-- After a piece of another component, a task inside a wait of component `C` is where it was. -/
theorem Piece.keeps {x : Service c} {s s' : State c S} (h : Piece x s s') {C : Component}
    (hx : x.component ≠ C) {t : c.TaskId} {w : Wait c} (hw : s'.core.pc t = .wait w)
    (hC : w.cont.component = C) :
    s.core.pc t = .wait w ∧ (s.core.taskTimerPending t → s'.core.taskTimerPending t) := by
  rcases h.moves (A := {C}ᶜ) hx with hm | ⟨-, hs⟩
  · obtain ⟨hpc, hs⟩ := hm.keeps hw (by simp [hC])
    exact ⟨hpc, hs _⟩
  · exact ⟨hs.pc ▸ hw, fun hp => by unfold taskTimerPending; rwa [hs.signals]⟩

/-- A task that has entered a function was already there, or enters it in this piece. -/
theorem Piece.entered {x : Service c} {s s' : State c S} (h : Piece x s s') {t : c.TaskId}
    {e : Entry c} (he : s'.core.pc t = .entered e) :
    s.core.pc t = .entered e ∨ (x = .enter e ∧ s.Enters e) := by
  by_cases hx : x.component = .entry
  · cases h with
    | enter e' happ hent =>
      by_cases ht : t = s.core.currentTask
      · subst ht
        obtain rfl : e' = e := by simpa [onCore] using he
        exact .inr ⟨rfl, hent⟩
      · exact .inl (by simpa [onCore, ht] using he)
    | mutexAcquire _ m hl => exact absurd ((component_of_locks hl).symm.trans hx) (by decide)
    | _ => cases hx
  · rcases h.moves (A := {Component.entry}ᶜ) hx with hm | ⟨-, hs⟩
    · exact .inl (hm.entered he (by simp))
    · exact .inl (hs.pc ▸ he)

/-- A piece of another component records no event of component `C`. -/
theorem Piece.filter_history {x : Service c} {s s' : State c S} (h : Piece x s s') {C : Component}
    (hx : x.component ≠ C) {p : Event c → Bool} (hp : ∀ e, p e = true → e.component = some C) :
    s'.core.history.filter p = s.core.history.filter p := by
  rcases h.moves (A := {C}ᶜ) hx with hm | ⟨-, hs⟩
  · refine hm.filter_history (fun e he => ?_) fun e he => ?_
    · simpa using fun hpe => he.2 C (hp e hpe) rfl
    · refine Bool.eq_false_iff.mpr fun hpe => ?_
      have := hp e hpe
      cases e <;> simp_all [Event.isSignal, Event.component]
  · rw [hs.history]

/-- A property of the scheduler's state that tasks do not affect by waking, blocking and switching. -/
theorem Piece.sched {x : Service c} {s s' : State c S} {I : S.State → Prop} (h : Piece x s s')
    (hx : x.component ≠ .mutex) (runnable : ∀ t s, I s → I (S.schedSetRunnable t s))
    (blocked : ∀ t b s, I s → I (S.schedSetBlockedOn t b s))
    (next : ∀ fuel s r s', S.schedGetNext fuel s = some (r, s') → I s → I s')
    (hs : I s.core.sched) : I s'.core.sched := by
  rcases h.moves (A := {Component.mutex}ᶜ) hx with hm | ⟨-, hsw⟩
  · exact hm.sched (by simp) runnable blocked hs
  · obtain ⟨fuel, r, hr⟩ := hsw.sched
    exact next fuel _ r _ hr hs

/-- `blockTimeout` arms the timer, which may stop the system, and then waits. -/
theorem blockTimeout_cases (s : State c S) (b : Option c.TaskId) (n : BitVec 16) (cont : Cont c) :
    ∃ k, Wakes ∅ s.core k ∧ (s.blockTimeout b n cont = { s with core := k } ∨
      s.blockTimeout b n cont =
        { s with core := signalWaitSet c.signalIdTaskTimer b cont k }) := by
  refine ⟨timerOneshot (ownTimer s.core) n s.core, timerOneshot_wakes _ _ _, ?_⟩
  unfold blockTimeout onCore Core.andThen
  dsimp only
  split
  · exact .inl rfl
  · exact .inr rfl

end State

namespace Core

/-- The object a task is inside a wait for. -/
def inside {ι : Type} (object : Cont c → Option ι) (k : Core c S) (t : c.TaskId) : Option ι :=
  match k.pc t with
  | .wait w => object w.cont
  | _ => none

theorem inside_eq_some {ι : Type} {object : Cont c → Option ι} {k : Core c S} {t : c.TaskId}
    {o : ι} : k.inside object t = some o ↔ ∃ w, k.pc t = .wait w ∧ object w.cont = some o := by
  unfold inside
  split
  · rename_i w hw
    simp [hw]
  · rename_i hw
    simpa using fun w hw' => absurd hw' (hw w)

end Core

end Echronos
