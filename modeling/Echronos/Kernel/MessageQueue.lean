import Echronos.Kernel.State

/-! # Component `message-queue` -/

namespace Echronos

/-- The loop of `memcopy`: `length` bytes, one at a time and upwards. -/
def copyBytes : (dst src length : ℕ) → Memory → Memory
  | _, _, 0, mem => mem
  | dst, src, n + 1, mem => copyBytes (dst + 1) (src + 1) n (Function.update mem dst (mem src))

/-- `memcopy`: `none` if its API assertion against overlapping buffers fails. -/
def memcopy (dst src length : ℕ) (mem : Memory) : Option Memory :=
  if dst < src ∨ src + length ≤ dst then some (copyBytes dst src length mem) else none

namespace MessageQueue

/-- `buffer_offset` of the slot `message_queue_try_put` fills, a `uint16_t` computed from the
    `uint8_t` `buffer_index`. -/
def putOffset (mq : MessageQueue) : ℕ :=
  ((mq.head + mq.available) % mq.queueLength) % 2 ^ 8 * mq.messageSize % 2 ^ 16

/-- `buffer_offset` of the slot `message_queue_try_get` empties. -/
def getOffset (mq : MessageQueue) : ℕ := mq.head * mq.messageSize % 2 ^ 16

/-- The fields after a message has been put. -/
def afterPut (mq : MessageQueue) : MessageQueue :=
  { mq with available := (mq.available + 1) % 2 ^ 8 }

/-- The fields after a message has been got; `available` is not `0`. -/
def afterGet (mq : MessageQueue) : MessageQueue :=
  { mq with
    head := (mq.head + 1) % mq.queueLength % 2 ^ 8
    available := mq.available - 1 }

end MessageQueue

namespace State

variable {c : Config} {S : Sched c.tasks c.mutexes}

/-- `message_queue_waiters_wakeup` -/
def messageQueueWaitersWakeup (q : c.MessageQueueId) (s : State c S) : State c S :=
  let r := Core.wakeWaiters q s.messageQueueWaiters s.core
  { s with messageQueueWaiters := r.1, core := r.2 }

/-- The copied memory and the new fields of a queue. -/
def messageQueueSet (q : c.MessageQueueId) (mq : MessageQueue) (memory : Memory) (s : State c S) :
    State c S :=
  { s with messageQueues := Function.update s.messageQueues q mq, memory := memory }

/-- `message_queue_try_put`: `none` if an API assertion fails. -/
def messageQueueTryPut (q : c.MessageQueueId) (message : ℕ) (s : State c S) :
    Option (Bool × State c S) :=
  let mq := s.messageQueues q
  if message = 0 then none
  else if mq.available = mq.queueLength then some (false, s)
  else
    (memcopy (mq.messages + mq.putOffset) message mq.messageSize s.memory).map fun memory =>
      let s := messageQueueSet q mq.afterPut memory s
      (true, if mq.afterPut.available = 1 then messageQueueWaitersWakeup q s else s)

/-- `message_queue_try_get`: `none` if an API assertion fails. It wakes the waiting tasks when
    `available` reaches the number of configured message queues minus one. -/
def messageQueueTryGet (q : c.MessageQueueId) (message : ℕ) (s : State c S) :
    Option (Bool × State c S) :=
  let mq := s.messageQueues q
  if message = 0 then none
  else if mq.available = 0 then some (false, s)
  else
    (memcopy message (mq.messages + mq.getOffset) mq.messageSize s.memory).map fun memory =>
      let s := messageQueueSet q mq.afterGet memory s
      (true, if mq.afterGet.available = c.messageQueues - 1 then messageQueueWaitersWakeup q s
        else s)

theorem messageQueueTryPut_cases {q : c.MessageQueueId} {message : ℕ} {s : State c S}
    {r : Bool × State c S} (h : messageQueueTryPut q message s = some r) :
    ((s.messageQueues q).available = (s.messageQueues q).queueLength ∧ r = (false, s)) ∨
    ((s.messageQueues q).available ≠ (s.messageQueues q).queueLength ∧ ∃ memory,
      memcopy ((s.messageQueues q).messages + (s.messageQueues q).putOffset) message
        (s.messageQueues q).messageSize s.memory = some memory ∧
      r = (true, if (s.messageQueues q).afterPut.available = 1 then
          messageQueueWaitersWakeup q (messageQueueSet q (s.messageQueues q).afterPut memory s)
        else messageQueueSet q (s.messageQueues q).afterPut memory s)) := by
  obtain ⟨-, h⟩ := Option.ite_none_left_eq_some.mp h
  dsimp only at h
  split at h
  · rename_i hfull
    exact .inl ⟨hfull, (Option.some.inj h).symm⟩
  · rename_i hfull
    obtain ⟨memory, hm, rfl⟩ := Option.map_eq_some_iff.mp h
    exact .inr ⟨hfull, memory, hm, rfl⟩

theorem messageQueueTryGet_cases {q : c.MessageQueueId} {message : ℕ} {s : State c S}
    {r : Bool × State c S} (h : messageQueueTryGet q message s = some r) :
    ((s.messageQueues q).available = 0 ∧ r = (false, s)) ∨
    ((s.messageQueues q).available ≠ 0 ∧ ∃ memory,
      memcopy message ((s.messageQueues q).messages + (s.messageQueues q).getOffset)
        (s.messageQueues q).messageSize s.memory = some memory ∧
      r = (true, if (s.messageQueues q).afterGet.available = c.messageQueues - 1 then
          messageQueueWaitersWakeup q (messageQueueSet q (s.messageQueues q).afterGet memory s)
        else messageQueueSet q (s.messageQueues q).afterGet memory s)) := by
  obtain ⟨-, h⟩ := Option.ite_none_left_eq_some.mp h
  dsimp only at h
  split at h
  · rename_i hempty
    exact .inl ⟨hempty, (Option.some.inj h).symm⟩
  · rename_i hempty
    obtain ⟨memory, hm, rfl⟩ := Option.map_eq_some_iff.mp h
    exact .inr ⟨hempty, memory, hm, rfl⟩

/-- What an attempt to move a message leads to: nothing at all, or a new state of the queue, with the
    tasks registered for it woken or not. -/
inductive Attempt (q : c.MessageQueueId) (s : State c S) : State c S → Prop
  | failed : Attempt q s s
  | moved (mq : MessageQueue) (memory : Memory) : Attempt q s (messageQueueSet q mq memory s)
  | woke (mq : MessageQueue) (memory : Memory) :
      Attempt q s (messageQueueWaitersWakeup q (messageQueueSet q mq memory s))

theorem messageQueueTryPut_attempt {s : State c S} {q : c.MessageQueueId} {message : ℕ}
    {r : Bool × State c S} (h : messageQueueTryPut q message s = some r) : Attempt q s r.2 := by
  obtain ⟨-, rfl⟩ | ⟨-, memory, -, rfl⟩ := messageQueueTryPut_cases h
  · exact .failed
  · dsimp only
    split
    · exact .woke _ memory
    · exact .moved _ memory

theorem messageQueueTryGet_attempt {s : State c S} {q : c.MessageQueueId} {message : ℕ}
    {r : Bool × State c S} (h : messageQueueTryGet q message s = some r) : Attempt q s r.2 := by
  obtain ⟨-, rfl⟩ | ⟨-, memory, -, rfl⟩ := messageQueueTryGet_cases h
  · exact .failed
  · dsimp only
    split
    · exact .woke _ memory
    · exact .moved _ memory

/-- `message_queue_waiters[get_current_task()] = q` -/
def messageQueueRegister (q : Option c.MessageQueueId) (s : State c S) : State c S :=
  { s with messageQueueWaiters := Function.update s.messageQueueWaiters s.currentTask q }

/-- `message_queue_wait` up to its context switch. -/
def messageQueueWait (q : c.MessageQueueId) (cont : Cont c) (s : State c S) : State c S :=
  (messageQueueRegister (some q) s).onCore (Core.waitTaskTimer cont)

/-- `message_queue_wait_timeout` up to its context switch. -/
def messageQueueWaitTimeout (q : c.MessageQueueId) (d : Deadline) (cont : Cont c)
    (s : State c S) : State c S :=
  (messageQueueRegister (some q) s).blockTimeout none (s.remaining d) cont

/-- `message_queue_wait_timeout` from its context switch on. -/
def messageQueueWaitTimeoutReturn (s : State c S) : State c S :=
  messageQueueRegister none s.disableOwnTimer

/-- A turn of the loop of `message_queue_put`. -/
def messageQueuePutLoop (q : c.MessageQueueId) (message : ℕ) (s : State c S) :
    Option (State c S) :=
  (messageQueueTryPut q message s).map fun r =>
    if r.1 then r.2 else messageQueueWait q (.messageQueuePut q message) r.2

/-- A turn of the loop of `message_queue_get`. -/
def messageQueueGetLoop (q : c.MessageQueueId) (message : ℕ) (s : State c S) :
    Option (State c S) :=
  (messageQueueTryGet q message s).map fun r =>
    if r.1 then r.2 else messageQueueWait q (.messageQueueGet q message) r.2

/-- A turn of the loop of `message_queue_put_timeout`, and what follows the loop. -/
def messageQueuePutTimeoutLoop (q : c.MessageQueueId) (message : ℕ) (d : Deadline)
    (s : State c S) : Option (State c S) :=
  let mq := s.messageQueues q
  if mq.available = mq.queueLength ∧ s.before d then
    some (messageQueueWaitTimeout q d (.messageQueuePutTimeout q message d) s)
  else (messageQueueTryPut q message s).map fun r => if r.1 then r.2 else r.2.giveUp d

/-- A turn of the loop of `message_queue_get_timeout`, and what follows the loop. -/
def messageQueueGetTimeoutLoop (q : c.MessageQueueId) (message : ℕ) (d : Deadline)
    (s : State c S) : Option (State c S) :=
  if (s.messageQueues q).available = 0 ∧ s.before d then
    some (messageQueueWaitTimeout q d (.messageQueueGetTimeout q message d) s)
  else (messageQueueTryGet q message s).map fun r => if r.1 then r.2 else r.2.giveUp d

/-- The API functions of message queues. -/
inductive MessageQueueCall (c : Config)
  | put (q : c.MessageQueueId) (message : ℕ)
  | tryPut (q : c.MessageQueueId) (message : ℕ)
  | putTimeout (q : c.MessageQueueId) (message : ℕ) (timeout : BitVec 16)
  | get (q : c.MessageQueueId) (message : ℕ)
  | tryGet (q : c.MessageQueueId) (message : ℕ)
  | getTimeout (q : c.MessageQueueId) (message : ℕ) (timeout : BitVec 16)

/-- A call from application code that meets the function's own API assertions. Message queues exist
    in Rigel only, where nothing preempts the function. -/
def messageQueueCall : MessageQueueCall c → State c S → Option (State c S)
  | .put q message, s => messageQueuePutLoop q message s
  | .tryPut q message, s => (messageQueueTryPut q message s).map Prod.snd
  | .putTimeout q message timeout, s =>
    if message = 0 ∨ timeout = 0 then none
    else messageQueuePutTimeoutLoop q message (s.deadline timeout) s
  | .get q message, s => messageQueueGetLoop q message s
  | .tryGet q message, s => (messageQueueTryGet q message s).map Prod.snd
  | .getTimeout q message timeout, s =>
    if message = 0 ∨ timeout = 0 then none
    else messageQueueGetTimeoutLoop q message (s.deadline timeout) s

end State

end Echronos
