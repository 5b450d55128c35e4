import Echronos.Kernel.Steps
import Echronos.Properties.Fifo

/-! # Waking the tasks that wait for a message queue

    A task inside `message_queue_put` waits for a queue that is not full, one inside
    `message_queue_get` for a queue that is not empty. `message_queue_try_put` wakes the waiting
    tasks when it puts the first message. `message_queue_try_get` should wake them when the queue
    stops being full, but compares the number of messages with the number of configured queues
    instead of the length of the queue, so it does so for queues of that length only. -/

namespace Echronos

open Schemes

variable {c : Config} {S : Sched c.tasks c.mutexes}

/-- The queue a task puts a message into. -/
def Cont.puts : Cont c → Option c.MessageQueueId
  | .messageQueuePut q _ => some q
  | .messageQueuePutTimeout q _ _ => some q
  | _ => none

/-- The queue a task gets a message from. -/
def Cont.gets : Cont c → Option c.MessageQueueId
  | .messageQueueGet q _ => some q
  | .messageQueueGetTimeout q _ _ => some q
  | _ => none

theorem Cont.component_of_puts {cont : Cont c} {q : c.MessageQueueId} (h : cont.puts = some q) :
    cont.component = .messageQueue := by
  cases cont <;> first | rfl | cases h

theorem Cont.component_of_gets {cont : Cont c} {q : c.MessageQueueId} (h : cont.gets = some q) :
    cont.component = .messageQueue := by
  cases cont <;> first | rfl | cases h

namespace State

open Echronos.Core

theorem Blocks.puts {s : State c S} {cont : Cont c} (h : s.Blocks cont) {q : c.MessageQueueId}
    (hq : cont.puts = some q) : (s.messageQueues q).available = (s.messageQueues q).queueLength := by
  cases cont with
  | messageQueuePut | messageQueuePutTimeout => exact Option.some.inj hq ▸ h
  | _ => cases hq

theorem Blocks.gets {s : State c S} {cont : Cont c} (h : s.Blocks cont) {q : c.MessageQueueId}
    (hq : cont.gets = some q) : (s.messageQueues q).available = 0 := by
  cases cont with
  | messageQueueGet | messageQueueGetTimeout => exact Option.some.inj hq ▸ h
  | _ => cases hq

/-! ### Fill levels -/

/-- Every queue keeps its length and stays well formed. -/
def QueuesValid (s : State c S) : Prop :=
  ∀ q, (s.messageQueues q).queueLength = c.queueLength q ∧ (s.messageQueues q).Valid

theorem QueuesValid.update {s : State c S} (hs : QueuesValid s) {q : c.MessageQueueId}
    {mq : MessageQueue} (hv : mq.Valid) (hl : mq.queueLength = (s.messageQueues q).queueLength)
    (p : c.MessageQueueId) : (Function.update s.messageQueues q mq p).queueLength = c.queueLength p ∧
      (Function.update s.messageQueues q mq p).Valid := by
  by_cases h : p = q
  · subst h
    rw [Function.update_self]
    exact ⟨hl.trans (hs p).1, hv⟩
  · rw [Function.update_of_ne h]
    exact hs p

/-- Waking the tasks registered for `q`, if at all, touches nothing but their registration and the
    scheduler. -/
theorem wakeup_if (wake : Prop) [Decidable wake] (q : c.MessageQueueId) (s : State c S) :
    (if wake then messageQueueWaitersWakeup q s else s).messageQueues = s.messageQueues ∧
    (if wake then messageQueueWaitersWakeup q s else s).core.pc = s.core.pc ∧
    ∀ t p, (if wake then messageQueueWaitersWakeup q s else s).messageQueueWaiters t = some p →
      s.messageQueueWaiters t = some p ∧ (p = q → ¬ wake) := by
  split
  · refine ⟨rfl, wakeWaiters_pc q s.messageQueueWaiters s.core, fun t p ht => ?_⟩
    have hw := (wakeWaiters_waiters q s.messageQueueWaiters s.core t).symm.trans ht
    split at hw
    · cases hw
    · rename_i hne
      exact ⟨hw, fun hp => absurd (hp ▸ hw) hne⟩
  · rename_i hne
    exact ⟨rfl, rfl, fun t p ht => ⟨ht, fun _ => hne⟩⟩

/-- A successful `message_queue_try_put`: the new queue, the tasks still registered, and nothing
    about program places. -/
theorem messageQueueTryPut_true {q : c.MessageQueueId} {message : ℕ} {s s' : State c S}
    (h : messageQueueTryPut q message s = some (true, s')) :
    (s.messageQueues q).available ≠ (s.messageQueues q).queueLength ∧
    s'.messageQueues = Function.update s.messageQueues q (s.messageQueues q).afterPut ∧
    s'.core.pc = s.core.pc ∧
    ∀ t p, s'.messageQueueWaiters t = some p → s.messageQueueWaiters t = some p ∧
      (p = q → (s.messageQueues q).afterPut.available ≠ 1) := by
  obtain ⟨-, h⟩ | ⟨hfull, memory, -, h⟩ := messageQueueTryPut_cases h
  · cases (Prod.mk.inj h).1
  · obtain ⟨-, rfl⟩ := Prod.mk.inj h
    exact ⟨hfull, wakeup_if _ q _⟩

/-- A successful `message_queue_try_get`. -/
theorem messageQueueTryGet_true {q : c.MessageQueueId} {message : ℕ} {s s' : State c S}
    (h : messageQueueTryGet q message s = some (true, s')) :
    (s.messageQueues q).available ≠ 0 ∧
    s'.messageQueues = Function.update s.messageQueues q (s.messageQueues q).afterGet ∧
    s'.core.pc = s.core.pc ∧
    ∀ t p, s'.messageQueueWaiters t = some p → s.messageQueueWaiters t = some p ∧
      (p = q → (s.messageQueues q).afterGet.available ≠ c.messageQueues - 1) := by
  obtain ⟨-, h⟩ | ⟨hempty, memory, -, h⟩ := messageQueueTryGet_cases h
  · cases (Prod.mk.inj h).1
  · obtain ⟨-, rfl⟩ := Prod.mk.inj h
    exact ⟨hempty, wakeup_if _ q _⟩

theorem QueuesValid.piece {x : Service c} {s s' : State c S} (h : Piece x s s')
    (hs : QueuesValid s) : QueuesValid s' := by
  by_cases hx : x.component = .messageQueue
  · cases h with
    | messageQueuePut q message _ h =>
      obtain ⟨hfull, hq, -⟩ := messageQueueTryPut_true h
      intro p
      rw [hq]
      exact hs.update ((hs q).2.afterPut hfull) rfl p
    | messageQueueGet q message _ h =>
      obtain ⟨-, hq, -⟩ := messageQueueTryGet_true h
      intro p
      rw [hq]
      exact hs.update (hs q).2.afterGet rfl p
    | mutexAcquire _ m hl => exact absurd ((component_of_locks hl).symm.trans hx) (by decide)
    | messageQueueWait | messageQueueWaitTimeout | messageQueueUnregister => exact hs
    | _ => cases hx
  · intro q
    rw [(h.messageQueues hx).1]
    exact hs q

/-! ### Registered tasks -/

/-- Whoever is registered for `q` waits for something that has not happened. -/
def Wakeful (q : c.MessageQueueId) (s : State c S) : Prop :=
  ∀ t, s.messageQueueWaiters t = some q →
    (s.core.inside Cont.puts t = some q →
      (s.messageQueues q).available = (s.messageQueues q).queueLength) ∧
    (s.core.inside Cont.gets t = some q → (s.messageQueues q).available = 0)

/-- A task outside `signal_wait_set` is not inside a wait for any object. -/
theorem not_inside_of_awake {ι : Type} {object : Cont c → Option ι} {k : Core c S} (ha : k.Awake)
    {o : ι} : k.inside object k.currentTask ≠ some o := fun h => by
  obtain ⟨w, hw, -⟩ := inside_eq_some.mp h
  exact ha w hw

variable {q : c.MessageQueueId} {s s' : State c S}

/-- Code that leaves message queues alone and starts no wait for one. -/
theorem Wakeful.frame (hs : Wakeful q s) (hq : s'.messageQueues = s.messageQueues)
    (hwait : s'.messageQueueWaiters = s.messageQueueWaiters)
    (hkeep : ∀ t w, s'.core.pc t = .wait w → w.cont.component = .messageQueue →
      s.core.pc t = .wait w) : Wakeful q s' := by
  intro t ht
  rw [hwait] at ht
  rw [hq]
  refine ⟨fun hin => ?_, fun hin => ?_⟩
  · obtain ⟨w, hw, hp⟩ := inside_eq_some.mp hin
    exact (hs t ht).1 (inside_eq_some.mpr ⟨w, hkeep t w hw (Cont.component_of_puts hp), hp⟩)
  · obtain ⟨w, hw, hp⟩ := inside_eq_some.mp hin
    exact (hs t ht).2 (inside_eq_some.mpr ⟨w, hkeep t w hw (Cont.component_of_gets hp), hp⟩)

theorem Wakeful.register (hs : Wakeful q s) (ha : s.core.Awake) (r : Option c.MessageQueueId) :
    Wakeful q (messageQueueRegister r s) := by
  intro t ht
  by_cases htc : t = s.core.currentTask
  · subst htc
    exact ⟨fun hin => absurd hin (not_inside_of_awake ha),
      fun hin => absurd hin (not_inside_of_awake ha)⟩
  · exact hs t (by simpa [messageQueueRegister, currentTask, htc] using ht)

theorem Wakeful.wait (hs : Wakeful q s) {cont : Cont c} (hb : s.Blocks cont) :
    Wakeful q { s with core := waitTaskTimer cont s.core } := by
  intro t ht
  by_cases htc : t = s.core.currentTask
  · subst htc
    refine ⟨fun hin => hb.puts ?_, fun hin => hb.gets ?_⟩
    · simpa [inside, waitTaskTimer] using hin
    · simpa [inside, waitTaskTimer] using hin
  · have hpc : (waitTaskTimer cont s.core).pc t = s.core.pc t := by simp [waitTaskTimer, htc]
    have := hs t ht
    unfold inside at this ⊢
    rwa [hpc]

theorem Wakeful.put (hs : Wakeful q s) (hv : QueuesValid s) {p : c.MessageQueueId} {message : ℕ}
    (h : messageQueueTryPut p message s = some (true, s')) : Wakeful q s' := by
  obtain ⟨hfull, hq, hpc, hw⟩ := messageQueueTryPut_true h
  intro t ht
  obtain ⟨hreg, hone⟩ := hw t q ht
  have hin : ∀ object : Cont c → Option c.MessageQueueId,
      s'.core.inside object t = s.core.inside object t := fun _ => by simp [inside, hpc]
  rw [hin, hin, hq]
  by_cases hp : q = p
  · subst hp
    refine ⟨fun hput => absurd ((hs t hreg).1 hput) hfull, fun hget => ?_⟩
    have h0 := (hs t hreg).2 hget
    exact absurd (by rw [(hv q).2.available_afterPut hfull, h0]) (hone rfl)
  · rw [Function.update_of_ne hp]
    exact hs t hreg

/-- A get wakes the tasks waiting to put a message if the queue is as long as there are queues. A
    single task that gets a message is not waiting to put one. -/
theorem Wakeful.get (hs : Wakeful q s) (hv : QueuesValid s)
    (hc : c.queueLength q = c.messageQueues ∨ c.tasks = 1) (ha : s.core.Awake)
    {p : c.MessageQueueId} {message : ℕ}
    (h : messageQueueTryGet p message s = some (true, s')) : Wakeful q s' := by
  obtain ⟨hempty, hq, hpc, hw⟩ := messageQueueTryGet_true h
  intro t ht
  obtain ⟨hreg, hedge⟩ := hw t q ht
  have hin : ∀ object : Cont c → Option c.MessageQueueId,
      s'.core.inside object t = s.core.inside object t := fun _ => by simp [inside, hpc]
  rw [hin, hin, hq]
  by_cases hp : q = p
  · subst hp
    refine ⟨fun hput => ?_, fun hget => absurd ((hs t hreg).2 hget) hempty⟩
    rcases hc with hlen | hone
    · have hfull := (hs t hreg).1 hput
      refine absurd ?_ (hedge rfl)
      rw [← hlen, ← (hv q).1, ← hfull]
      rfl
    · have hsub : t = s.core.currentTask := Fin.ext (by
        have := t.isLt
        have := s.core.currentTask.isLt
        omega)
      subst hsub
      exact absurd hput (not_inside_of_awake ha)
  · rw [Function.update_of_ne hp]
    exact hs t hreg

theorem Wakeful.piece {x : Service c} (h : Piece x s s') (hs : Wakeful q s) (hv : QueuesValid s)
    (hc : c.queueLength q = c.messageQueues ∨ c.tasks = 1) : Wakeful q s' := by
  by_cases hx : x.component = .messageQueue
  · cases h with
    | messageQueuePut p message _ h => exact hs.put hv h
    | messageQueueGet p message ha h => exact hs.get hv hc ha h
    | messageQueueWait p cont ha _ hb => exact (hs.register ha (some p)).wait hb
    | messageQueueWaitTimeout p d cont ha _ hb =>
      have hreg := hs.register ha (some p)
      obtain ⟨k, hk, he | he⟩ := blockTimeout_cases (messageQueueRegister (some p) s) none
        (s.remaining d) cont
      · unfold messageQueueWaitTimeout
        rw [he]
        exact hreg.frame rfl rfl fun t w hw _ => (hk.other t).pc ▸ hw
      · unfold messageQueueWaitTimeout
        rw [he]
        have hwoken : Wakeful q { messageQueueRegister (some p) s with core := k } :=
          hreg.frame rfl rfl fun t w hw _ => (hk.other t).pc ▸ hw
        exact hwoken.wait hb
    | messageQueueUnregister p ha => exact hs.register ha none
    | mutexAcquire _ m hl => exact absurd ((component_of_locks hl).symm.trans hx) (by decide)
    | _ => cases hx
  · obtain ⟨hq, hwait⟩ := h.messageQueues hx
    exact hs.frame hq hwait fun t w hw hC => (h.keeps hx hw hC).1

theorem ReachedBy.queuesValid {ok : Act c → State c S → Prop} (h : s.ReachedBy ok) :
    QueuesValid s :=
  h.invariant (fun _ q => ⟨rfl, c.messageSize_le q, c.queueLength_le q, c.queueLength_pos q,
    Nat.zero_le _⟩) fun _ _ _ => .piece

theorem ReachedBy.wakeful {ok : Act c → State c S → Prop} (h : s.ReachedBy ok)
    (hc : c.queueLength q = c.messageQueues ∨ c.tasks = 1) : Wakeful q s :=
  (h.invariant (I := fun s => QueuesValid s ∧ Wakeful q s)
    (fun _ => ⟨fun q => ⟨rfl, c.messageSize_le q, c.queueLength_le q, c.queueLength_pos q,
      Nat.zero_le _⟩, fun _ ht => by simp [start] at ht⟩)
    fun _ _ _ hp hs => ⟨.piece hp hs.1, .piece hp hs.2 hs.1 hc⟩).2

/-- A task registered for `q` with no wake-up on its way waits for a message to be got from the full
    queue, or to be put into the empty one. -/
def NoLostWakeup (q : c.MessageQueueId) (s : State c S) : Prop :=
  ∀ t, s.messageQueueWaiters t = some q → ¬ s.core.taskTimerPending t →
    (s.core.inside Cont.puts t = some q →
      (s.messageQueues q).available = (s.messageQueues q).queueLength) ∧
    (s.core.inside Cont.gets t = some q → (s.messageQueues q).available = 0)

/-! ### The run that loses a wake-up

    Task `0` fills the queue and blocks, then task `1` gets a message. -/

/-- A turn of `interrupt_event_get_next()` without events and ticks. -/
theorem Reached.reschedule (h : s.Reached) (hhalt : s.core.halted = none)
    (hphase : s.core.phase = .process) (hevent : ∀ i, s.core.interruptEvent i = false)
    (htick : s.core.timerPendingTicks = 0) {fuel next : ℕ} {sched : S.State}
    (hnext : S.schedGetNext fuel s.core.sched = some (some next, sched)) (hlt : next < c.tasks) :
    Reached { s with core := { s.core with
      sched := sched, currentTask := ⟨next, hlt⟩, phase := .task } } := by
  have h₁ : Reached { s with core := { s.core with phase := .tick } } :=
    h.next (.kernel .interruptEventProcess) (by
      simp [step, hhalt, Core.act, hphase, interruptEventProcess_of_none hevent])
  have h₂ : Reached { s with core := { s.core with phase := .select } } :=
    h₁.next (.kernel .timerTickProcess) (by
      simp [step, hhalt, Core.act, timerTickProcess, htick])
  exact h₂.next (.kernel (.schedGetNext fuel false)) (by
    simp [step, hhalt, Core.act, Core.schedGetNext, hnext, hlt])

theorem Reached.messageQueueCall (h : s.Reached) (hhalt : s.core.halted = none)
    (hphase : s.core.phase = .task) (hpc : s.core.pc s.currentTask = .app)
    {f : MessageQueueCall c} (hf : State.messageQueueCall f s = some s') : s'.Reached :=
  h.next (.call (.messageQueue f)) (by
    simp [step, hhalt, inApp_iff.mpr ⟨hphase, hpc⟩, call, hf])

/-- Task `0` has put `n` messages and nobody waits. -/
structure Filled (q : c.MessageQueueId) (n : ℕ) (s : State c S) : Prop where
  reached : s.Reached
  core : s.core = Core.start
  waiters : ∀ t, s.messageQueueWaiters t = none
  available : (s.messageQueues q).available = n

/-- A buffer above the storage of a queue. -/
theorem outside_above (h : QueuesValid s) (q : c.MessageQueueId) :
    (s.messageQueues q).Outside ((s.messageQueues q).messages + 2 ^ 16)
      (s.messageQueues q).messageSize := by
  have := Nat.mul_le_mul (h q).2.queueLength_le (h q).2.messageSize_le
  exact .inr (by omega)

theorem Filled.put {n : ℕ} (h : Filled q n s) (hn : n < c.queueLength q) :
    ∃ s', Filled (S := S) q (n + 1) s' := by
  have hv := h.reached.queuesValid
  have hfull : (s.messageQueues q).available ≠ (s.messageQueues q).queueLength := by
    rw [h.available, (hv q).1]
    omega
  obtain ⟨mem, hcopy⟩ := MessageQueue.memcopy_put s.memory (hv q).2 (outside_above hv q)
  have hput : messageQueueTryPut q ((s.messageQueues q).messages + 2 ^ 16) s =
      some (true, messageQueueSet q (s.messageQueues q).afterPut mem s) := by
    have hwake : messageQueueWaitersWakeup q
        (messageQueueSet q (s.messageQueues q).afterPut mem s) =
          messageQueueSet q (s.messageQueues q).afterPut mem s := by
      unfold messageQueueWaitersWakeup
      rw [wakeWaiters_of_none q _ _ fun t => by simp [messageQueueSet, h.waiters]]
    rw [messageQueueTryPut, if_neg (by omega), if_neg hfull, hcopy, Option.map_some]
    dsimp only
    rw [hwake, ite_self]
  refine ⟨_, h.reached.messageQueueCall (by rw [h.core]; rfl) (by rw [h.core]; rfl)
    (by rw [h.core]; rfl) (f := .tryPut q _) (congrArg (Option.map Prod.snd) hput), h.core,
    h.waiters, ?_⟩
  simp [messageQueueSet, (hv q).2.available_afterPut hfull, h.available]

theorem exists_filled (q : c.MessageQueueId) : ∀ n ≤ c.queueLength q, ∃ s, Filled (S := S) q n s
  | 0, _ => ⟨start fun _ => 0, ⟨_, .start⟩, rfl, fun _ => rfl, rfl⟩
  | n + 1, hn => by
    obtain ⟨s, hs⟩ := exists_filled q n (by omega)
    exact hs.put hn

/-- Task `0` finds the queue full and blocks. -/
theorem Filled.block {n : ℕ} (h : Filled q n s) (hn : n = c.queueLength q) {message : ℕ}
    (hm : message ≠ 0) : Reached (messageQueueWait q (.messageQueuePut q message) s) := by
  have hfull : (s.messageQueues q).available = (s.messageQueues q).queueLength := by
    rw [h.available, (h.reached.queuesValid q).1, hn]
  refine h.reached.messageQueueCall (by rw [h.core]; rfl) (by rw [h.core]; rfl)
    (by rw [h.core]; rfl) (f := .put q message) ?_
  have hput : messageQueueTryPut q message s = some (false, s) := by
    rw [messageQueueTryPut, if_neg hm, if_pos hfull]
  rw [State.messageQueueCall, messageQueuePutLoop, hput]
  rfl

/-- With task `0` blocked, the round-robin scheduler selects task `1`. -/
theorem schedGetNext_one {c : Config} (htasks : 1 < c.tasks) :
    (rigelSched c.tasks c.mutexes c.tasks_pos).schedGetNext 1
      (RoundRobin.schedSetBlocked c.taskIdZero ⟨⟨0, c.tasks_pos⟩, fun _ => true⟩) =
    some (some 1, ⟨⟨1, htasks⟩, Function.update (fun _ => true) c.taskIdZero false⟩) := by
  simp [rigelSched, RoundRobin.schedGetNext, RoundRobin.loop, RoundRobin.schedNextIndex,
    RoundRobin.schedSetBlocked, Config.taskIdZero, htasks]

/-- Task `1` executes while task `0` is blocked in a put on the full queue. -/
theorem exists_blocked {c : Config} (q : c.MessageQueueId) (htasks : 1 < c.tasks) :
    ∃ s : State c (rigelSched c.tasks c.mutexes c.tasks_pos), s.Reached ∧
      (s.core.halted = none ∧ s.core.phase = .task ∧ s.core.pc s.currentTask = .app) ∧
      s.messageQueueWaiters c.taskIdZero = some q ∧ ¬ s.core.taskTimerPending c.taskIdZero ∧
      s.core.inside Cont.puts c.taskIdZero = some q ∧
      (s.messageQueues q).available = c.queueLength q := by
  obtain ⟨s, hs⟩ := exists_filled (S := rigelSched c.tasks c.mutexes c.tasks_pos) q _ le_rfl
  have hcore : (messageQueueWait q (.messageQueuePut q 1) s).core = blockOn none
      (setPc (.wait ⟨c.signalIdTaskTimer, none, true, .messageQueuePut q 1⟩) Core.start) := by
    change waitTaskTimer _ s.core = _
    rw [hs.core, waitTaskTimer, signalWaitSet, if_neg]
    simp [Core.start, signalPeek]
  have hrun := (hs.block rfl Nat.one_ne_zero).reschedule (by rw [hcore]; rfl) (by rw [hcore]; rfl)
    (fun i => by rw [hcore]; rfl) (by rw [hcore]; rfl)
    (by rw [hcore]; exact schedGetNext_one htasks) htasks
  rw [hcore] at hrun
  have hne : (⟨1, htasks⟩ : c.TaskId) ≠ c.taskIdZero := by simp [Config.taskIdZero]
  refine ⟨_, hrun, ⟨rfl, rfl, ?_⟩, ?_, ?_, ?_, hs.available⟩
  · simp [State.currentTask, Core.start, Function.update_of_ne hne]
  · simp [messageQueueWait, messageQueueRegister, onCore, State.currentTask, hs.core, Core.start]
  · simp [taskTimerPending, Core.start]
  · simp [inside, Core.start, Cont.puts]

/-- Unless the queue is as long as there are queues, a get wakes nobody from a full queue. -/
theorem messageQueueTryGet_full (hv : QueuesValid s) (hlen : c.queueLength q ≠ c.messageQueues)
    (hfull : (s.messageQueues q).available = c.queueLength q) :
    ∃ mem, messageQueueTryGet q ((s.messageQueues q).messages + 2 ^ 16) s =
      some (true, messageQueueSet q (s.messageQueues q).afterGet mem s) := by
  have hpos := c.queueLength_pos q
  have hedge : (s.messageQueues q).afterGet.available ≠ c.messageQueues - 1 := by
    have := q.isLt
    change (s.messageQueues q).available - 1 ≠ _
    omega
  obtain ⟨mem, hcopy⟩ := MessageQueue.memcopy_get s.memory (hv q).2 (outside_above hv q)
  refine ⟨mem, ?_⟩
  rw [messageQueueTryGet, if_neg (by omega), if_neg (by omega), hcopy, Option.map_some]
  dsimp only
  rw [if_neg hedge]

/-- Task `0` is then left blocked in a put on a queue that is not full. -/
theorem exists_lost_wakeup {c : Config} {q : c.MessageQueueId}
    (hlen : c.queueLength q ≠ c.messageQueues) (htasks : 1 < c.tasks) :
    ∃ s : State c (rigelSched c.tasks c.mutexes c.tasks_pos), s.Reached ∧ ¬ NoLostWakeup q s := by
  obtain ⟨s, hs, ⟨hhalt, hphase, hpc⟩, hreg, htt, hin, hfull⟩ := exists_blocked q htasks
  obtain ⟨mem, hget⟩ := messageQueueTryGet_full hs.queuesValid hlen hfull
  refine ⟨_, hs.messageQueueCall hhalt hphase hpc (f := .tryGet q _)
    (congrArg (Option.map Prod.snd) hget), fun hno => ?_⟩
  have hlost := (hno _ hreg htt).1 hin
  have hlength := (hs.queuesValid q).1
  have := c.queueLength_pos q
  simp only [messageQueueSet, Function.update_self, MessageQueue.afterGet] at hlost
  omega

end State

open State

/-- No wake-up for a queue is lost exactly if the queue is as long as there are message queues, or
    nobody can be waiting for another task's message. -/
theorem messageQueue_wakeups (c : Config) (q : c.MessageQueueId) :
    (∀ s : State c (rigelSched c.tasks c.mutexes c.tasks_pos), s.Reached → NoLostWakeup q s) ↔
      c.queueLength q = c.messageQueues ∨ c.tasks = 1 := by
  constructor
  · intro h
    by_contra hc
    obtain ⟨hlen, hone⟩ := not_or.mp hc
    have := c.tasks_pos
    obtain ⟨s, hs, hlost⟩ := exists_lost_wakeup hlen (by omega)
    exact hlost (h s hs)
  · exact fun hc s hs t ht _ => hs.wakeful hc t ht

/-- One queue of two messages, and two tasks. -/
theorem messageQueue_wakeup_lost : ¬ ∀ (q : Fin 1)
    (s : State (.plain 2 0 0 1 false false Nat.two_pos) (rigelSched 2 0 Nat.two_pos)),
    s.Reached → NoLostWakeup (c := .plain 2 0 0 1 false false Nat.two_pos) q s := by
  intro hno
  obtain ⟨s, hs, hp⟩ := exists_reached_of_run
    (c := .plain 2 0 0 1 false false Nat.two_pos) (S := rigelSched 2 0 Nat.two_pos)
    (Act.call (.messageQueue (.put 0 1)) :: .call (.messageQueue (.put 0 1)) ::
      .call (.messageQueue (.put 0 1)) :: reschedule ++ [Act.call (.messageQueue (.get 0 1))])
    (fun s => s.messageQueueWaiters 0 = some 0 ∧ ¬ s.core.taskTimerPending 0 ∧
      s.core.inside Cont.puts 0 = some 0 ∧ (s.messageQueues 0).available ≠
        (s.messageQueues 0).queueLength) (by decide +kernel)
  obtain ⟨hreg, htt, hin, hfull⟩ := of_decide_eq_true hp
  exact hfull ((hno 0 s hs 0 hreg htt).1 hin)

end Echronos
