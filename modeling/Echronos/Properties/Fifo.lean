import Echronos.Kernel.MessageQueue
import Echronos.Schemes.Ring
import Echronos.Variants.Variant

/-! # A message queue is a bounded FIFO

    The head and the number of available messages of a `struct message_queue` make its array a ring
    of `queue_length` cells of `message_size` bytes. `contents` reads the stored messages back, and
    `message_queue_try_put` and `message_queue_try_get` act on it as on a list of bounded length. The
    index arithmetic in eight and sixteen bits never wraps, and every access stays inside the array
    as long as the caller's buffer is outside of it. -/

namespace Echronos

open Schemes

/-- The `length` bytes of memory from an address on. -/
def bytes (mem : Memory) (address length : ℕ) : List (BitVec 8) :=
  (List.range length).map fun i => mem (address + i)

theorem bytes_congr {mem mem' : Memory} {a a' length : ℕ}
    (h : ∀ i < length, mem' (a' + i) = mem (a + i)) : bytes mem' a' length = bytes mem a length :=
  List.map_congr_left fun i hi => h i (List.mem_range.mp hi)

/-- Copying upwards is correct unless the destination starts inside the source. -/
theorem copyBytes_apply : ∀ (n dst src : ℕ) (mem : Memory) (a : ℕ), dst < src ∨ src + n ≤ dst →
    copyBytes dst src n mem a = if dst ≤ a ∧ a < dst + n then mem (src + (a - dst)) else mem a
  | 0, dst, src, mem, a, _ => by
    rw [if_neg (by omega)]
    rfl
  | n + 1, dst, src, mem, a, h => by
    rw [copyBytes, copyBytes_apply n (dst + 1) (src + 1) _ a (by omega)]
    by_cases ha : a = dst
    · subst ha
      rw [if_neg (by omega), if_pos (by omega)]
      simp
    · by_cases hin : dst ≤ a ∧ a < dst + (n + 1)
      · rw [if_pos (by omega), if_pos hin, Function.update_of_ne (by omega)]
        congr 1
        omega
      · rw [if_neg (by omega), if_neg hin, Function.update_of_ne ha]

theorem memcopy_eq {dst src n : ℕ} {mem mem' : Memory} (h : memcopy dst src n mem = some mem') :
    ∀ a, mem' a = if dst ≤ a ∧ a < dst + n then mem (src + (a - dst)) else mem a := by
  obtain ⟨hno, ⟨⟩⟩ := Option.ite_none_right_eq_some.mp h
  exact fun a => copyBytes_apply n dst src mem a hno

theorem bytes_memcopy {dst src n : ℕ} {mem mem' : Memory} (h : memcopy dst src n mem = some mem') :
    bytes mem' dst n = bytes mem src n := by
  refine bytes_congr fun i hi => ?_
  rw [memcopy_eq h, if_pos (by omega)]
  congr 1
  omega

namespace MessageQueue

/-! ### Well-formed queues -/

structure Valid (mq : MessageQueue) : Prop where
  messageSize_le : mq.messageSize ≤ 255
  queueLength_le : mq.queueLength ≤ 255
  head_lt : mq.head < mq.queueLength
  available_le : mq.available ≤ mq.queueLength

namespace Valid

variable {mq : MessageQueue}

/-- A cell lies inside the array. -/
theorem cell_le {k : ℕ} (hk : k < mq.queueLength) :
    k * mq.messageSize + mq.messageSize ≤ mq.queueLength * mq.messageSize := by
  rw [← Nat.succ_mul]
  exact Nat.mul_le_mul_right _ hk

theorem offset_lt (h : Valid mq) {k : ℕ} (hk : k < mq.queueLength) :
    k * mq.messageSize < 2 ^ 16 := by
  have hk' : k ≤ 254 := by have := h.queueLength_le; omega
  exact lt_of_le_of_lt (Nat.mul_le_mul hk' h.messageSize_le) (by decide)

theorem slot_lt (h : Valid mq) (i : ℕ) : (mq.head + i) % mq.queueLength < mq.queueLength :=
  Nat.mod_lt _ (Nat.zero_lt_of_lt h.head_lt)

/-- `buffer_offset` in `message_queue_try_put` does not wrap. -/
theorem putOffset_eq (h : Valid mq) :
    mq.putOffset = (mq.head + mq.available) % mq.queueLength * mq.messageSize := by
  have hslot := h.slot_lt mq.available
  have hlength := h.queueLength_le
  rw [putOffset, Nat.mod_eq_of_lt (b := 2 ^ 8) (by omega), Nat.mod_eq_of_lt (h.offset_lt hslot)]

/-- `buffer_offset` in `message_queue_try_get` does not wrap. -/
theorem getOffset_eq (h : Valid mq) : mq.getOffset = mq.head * mq.messageSize :=
  Nat.mod_eq_of_lt (h.offset_lt h.head_lt)

theorem available_afterPut (h : Valid mq) (hfull : mq.available ≠ mq.queueLength) :
    mq.afterPut.available = mq.available + 1 := by
  have := h.queueLength_le
  have := h.available_le
  exact Nat.mod_eq_of_lt (by omega)

theorem head_afterGet (h : Valid mq) : mq.afterGet.head = (mq.head + 1) % mq.queueLength := by
  have := h.slot_lt 1
  have := h.queueLength_le
  exact Nat.mod_eq_of_lt (by omega)

theorem afterPut (h : Valid mq) (hfull : mq.available ≠ mq.queueLength) : Valid mq.afterPut where
  messageSize_le := h.messageSize_le
  queueLength_le := h.queueLength_le
  head_lt := h.head_lt
  available_le := by
    rw [h.available_afterPut hfull]
    exact Nat.lt_of_le_of_ne h.available_le hfull

theorem afterGet (h : Valid mq) : Valid mq.afterGet where
  messageSize_le := h.messageSize_le
  queueLength_le := h.queueLength_le
  head_lt := by rw [h.head_afterGet]; exact h.slot_lt 1
  available_le := (Nat.sub_le _ _).trans h.available_le

end Valid

/-! ### The stored messages -/

/-- The message in a cell. -/
def cell (mq : MessageQueue) (mem : Memory) (k : ℕ) : List (BitVec 8) :=
  bytes mem (mq.messages + k * mq.messageSize) mq.messageSize

/-- The messages put and not yet got, oldest first. -/
def contents (mq : MessageQueue) (mem : Memory) : List (List (BitVec 8)) :=
  ringList (mq.cell mem) mq.queueLength mq.head mq.available

/-- A buffer of `n` bytes outside the queue's own storage. -/
def Outside (mq : MessageQueue) (address n : ℕ) : Prop :=
  address + n ≤ mq.messages ∨ mq.messages + mq.queueLength * mq.messageSize ≤ address

variable {mq : MessageQueue} {mem mem' : Memory} {message : ℕ}

/-- Different cells do not overlap. -/
theorem cells_disjoint {k l i : ℕ} (hne : k ≠ l) (hi : i < mq.messageSize) :
    ¬ (mq.messages + l * mq.messageSize ≤ mq.messages + k * mq.messageSize + i ∧
      mq.messages + k * mq.messageSize + i < mq.messages + l * mq.messageSize + mq.messageSize) := by
  rcases Nat.lt_or_gt_of_ne hne with hlt | hlt
  · have := Nat.mul_le_mul_right mq.messageSize (Nat.succ_le_of_lt hlt)
    rw [Nat.succ_mul] at this
    omega
  · have := Nat.mul_le_mul_right mq.messageSize (Nat.succ_le_of_lt hlt)
    rw [Nat.succ_mul] at this
    omega

/-- A put writes the next free cell only. -/
theorem contents_put (h : Valid mq) (hfull : mq.available ≠ mq.queueLength)
    (hcopy : memcopy (mq.messages + mq.putOffset) message mq.messageSize mem = some mem') :
    mq.afterPut.contents mem' = mq.contents mem ++ [bytes mem message mq.messageSize] := by
  rw [h.putOffset_eq] at hcopy
  rw [contents, h.available_afterPut hfull]
  refine ringList_put (Nat.lt_of_le_of_ne h.available_le hfull) (bytes_memcopy hcopy)
    fun k _ hk => bytes_congr fun i hi => ?_
  exact (memcopy_eq hcopy _).trans (if_neg (cells_disjoint hk (show i < mq.messageSize from hi)))

/-- A get copies the cell at the head, and leaves the storage alone. -/
theorem contents_get (h : Valid mq) (hempty : mq.available ≠ 0)
    (hout : mq.Outside message mq.messageSize)
    (hcopy : memcopy message (mq.messages + mq.getOffset) mq.messageSize mem = some mem') :
    mq.contents mem = bytes mem' message mq.messageSize :: mq.afterGet.contents mem' := by
  have hcell : ∀ k < mq.queueLength, mq.cell mem' k = mq.cell mem k := fun k hk => by
    refine bytes_congr fun i hi => ?_
    have := Valid.cell_le hk
    rw [memcopy_eq hcopy, if_neg (by unfold Outside at hout; omega)]
  have hget := ringList_get (mq.cell mem) (mq.available - 1) h.head_lt
  rw [Nat.sub_add_cancel (Nat.pos_of_ne_zero hempty)] at hget
  rw [contents, hget, bytes_memcopy hcopy, h.getOffset_eq, contents, h.head_afterGet]
  congr 1
  exact (ringList_congr fun i _ => hcell _ (Nat.mod_lt _ (Nat.zero_lt_of_lt h.head_lt))).symm

/-- The API assertion of `memcopy` holds for buffers outside the storage. -/
theorem memcopy_put (mem : Memory) (h : Valid mq) (hout : mq.Outside message mq.messageSize) :
    ∃ mem', memcopy (mq.messages + mq.putOffset) message mq.messageSize mem = some mem' := by
  have := Valid.cell_le (h.slot_lt mq.available)
  rw [h.putOffset_eq]
  unfold Outside at hout
  exact ⟨_, if_pos (by omega)⟩

@[inherit_doc memcopy_put]
theorem memcopy_get (mem : Memory) (h : Valid mq) (hout : mq.Outside message mq.messageSize) :
    ∃ mem', memcopy message (mq.messages + mq.getOffset) mq.messageSize mem = some mem' := by
  have := Valid.cell_le h.head_lt
  rw [h.getOffset_eq]
  unfold Outside at hout
  exact ⟨_, if_pos (by omega)⟩

end MessageQueue

/-! ### The specification of a sequence of calls -/

/-- A call of `message_queue_try_put` or `message_queue_try_get`, or application code that writes a
    byte. -/
inductive QueueOp
  | tryPut (message : ℕ)
  | tryGet (message : ℕ)
  | store (address : ℕ) (byte : BitVec 8)

/-- Write bytes to memory from an address on. -/
def writeBytes (mem : Memory) (address : ℕ) (bs : List (BitVec 8)) : Memory := fun a =>
  if address ≤ a then bs.getD (a - address) (mem a) else mem a

namespace QueueOp

/-- What an operation does to a queue of messages of `size` bytes and to the application's memory,
    and the result of the call. -/
def spec {n : ℕ} (size : ℕ) : QueueOp → Fifo (List (BitVec 8)) n × Memory →
    Bool × Fifo (List (BitVec 8)) n × Memory
  | .tryPut message, (f, mem) =>
    let r := f.put (bytes mem message size)
    (r.1, r.2, mem)
  | .tryGet message, (f, mem) =>
    match f.get with
    | none => (false, f, mem)
    | some (x, f) => (true, f, writeBytes mem message x)
  | .store address byte, (f, mem) => (true, f, Function.update mem address byte)

/-- The results of a sequence of operations, and what it leaves. -/
def specAll {n : ℕ} (size : ℕ) : List QueueOp → Fifo (List (BitVec 8)) n × Memory →
    List Bool × Fifo (List (BitVec 8)) n × Memory
  | [], f => ([], f)
  | op :: ops, f =>
    let r := op.spec size f
    let rs := specAll size ops r.2
    (r.1 :: rs.1, rs.2)

variable {c : Config} {S : Sched c.tasks c.mutexes}

/-- The functions themselves, called for a queue. -/
def exec (q : c.MessageQueueId) : QueueOp → State c S → Option (Bool × State c S)
  | .tryPut message, s => State.messageQueueTryPut q message s
  | .tryGet message, s => State.messageQueueTryGet q message s
  | .store address byte, s => some (true, { s with memory := Function.update s.memory address byte })

def execAll (q : c.MessageQueueId) : List QueueOp → State c S → Option (List Bool × State c S)
  | [], s => some ([], s)
  | op :: ops, s =>
    (op.exec q s).bind fun r => (execAll q ops r.2).map fun rs => (r.1 :: rs.1, rs.2)

/-- Application buffers are not null and outside the storage of the queue. -/
def Admissible (mq : MessageQueue) : QueueOp → Prop
  | .tryPut message => message ≠ 0 ∧ mq.Outside message mq.messageSize
  | .tryGet message => message ≠ 0 ∧ mq.Outside message mq.messageSize
  | .store address _ => mq.Outside address 1

end QueueOp

variable {c : Config} {S : Sched c.tasks c.mutexes}

/-- The queue as it is after `start()`. -/
def Config.messageQueue (c : Config) (q : c.MessageQueueId) : MessageQueue :=
  ⟨c.messages q, c.messageSize q, c.queueLength q, 0, 0⟩

/-- The array of the queue and the application's memory represent a list and a memory. -/
structure Refines (q : c.MessageQueueId) (s : State c S)
    (f : Fifo (List (BitVec 8)) (c.queueLength q) × Memory) : Prop where
  messages : (s.messageQueues q).messages = c.messages q
  messageSize : (s.messageQueues q).messageSize = c.messageSize q
  queueLength : (s.messageQueues q).queueLength = c.queueLength q
  valid : (s.messageQueues q).Valid
  contents : (s.messageQueues q).contents s.memory = f.1.items
  memory : ∀ a, (c.messageQueue q).Outside a 1 → s.memory a = f.2 a

namespace State

theorem messageQueueTryPut_of {q : c.MessageQueueId} {message : ℕ} {s : State c S} {mem : Memory}
    (hm : message ≠ 0) (hfull : (s.messageQueues q).available ≠ (s.messageQueues q).queueLength)
    (hcopy : memcopy ((s.messageQueues q).messages + (s.messageQueues q).putOffset) message
      (s.messageQueues q).messageSize s.memory = some mem) :
    ∃ s', messageQueueTryPut q message s = some (true, s') ∧
      s'.messageQueues q = (s.messageQueues q).afterPut ∧ s'.memory = mem := by
  refine ⟨_, by rw [messageQueueTryPut, if_neg hm, if_neg hfull, hcopy]; rfl, ?_, ?_⟩
  · split <;> simp [messageQueueSet, messageQueueWaitersWakeup]
  · split <;> simp [messageQueueSet, messageQueueWaitersWakeup]

theorem messageQueueTryGet_of {q : c.MessageQueueId} {message : ℕ} {s : State c S} {mem : Memory}
    (hm : message ≠ 0) (hempty : (s.messageQueues q).available ≠ 0)
    (hcopy : memcopy message ((s.messageQueues q).messages + (s.messageQueues q).getOffset)
      (s.messageQueues q).messageSize s.memory = some mem) :
    ∃ s', messageQueueTryGet q message s = some (true, s') ∧
      s'.messageQueues q = (s.messageQueues q).afterGet ∧ s'.memory = mem := by
  refine ⟨_, by rw [messageQueueTryGet, if_neg hm, if_neg hempty, hcopy]; rfl, ?_, ?_⟩
  · split <;> simp [messageQueueSet, messageQueueWaitersWakeup]
  · split <;> simp [messageQueueSet, messageQueueWaitersWakeup]

end State

open MessageQueue State

variable {q : c.MessageQueueId} {s : State c S}
  {f : Fifo (List (BitVec 8)) (c.queueLength q) × Memory}

theorem Refines.outside (h : Refines q s f) {address n : ℕ} :
    (s.messageQueues q).Outside address n ↔ (c.messageQueue q).Outside address n := by
  simp [Outside, Config.messageQueue, h.messages, h.messageSize, h.queueLength]

theorem Refines.length (h : Refines q s f) : f.1.items.length = (s.messageQueues q).available := by
  rw [← h.contents, MessageQueue.contents, length_ringList]

/-- The bytes of a buffer outside the storage. -/
theorem Refines.bytes (h : Refines q s f) {address n : ℕ}
    (hout : (c.messageQueue q).Outside address n) :
    bytes f.2 address n = bytes s.memory address n := by
  refine bytes_congr fun i hi => (h.memory _ ?_).symm
  unfold Outside at hout ⊢
  omega

theorem Refines.tryPut (h : Refines q s f) {message : ℕ} (hm : message ≠ 0)
    (hout : (c.messageQueue q).Outside message (c.messageSize q)) :
    ∃ s', messageQueueTryPut q message s =
        some (((QueueOp.tryPut message).spec (c.messageSize q) f).1, s') ∧
      Refines q s' ((QueueOp.tryPut message).spec (c.messageSize q) f).2 ∧
      (((QueueOp.tryPut message).spec (c.messageSize q) f).1 = false → s' = s) := by
  have hlength := h.length
  by_cases hfull : (s.messageQueues q).available = (s.messageQueues q).queueLength
  · have hspec : (QueueOp.tryPut message).spec (c.messageSize q) f = (false, f) := by
      have : ¬ f.1.items.length < c.queueLength q := by have := h.queueLength; omega
      simp [QueueOp.spec, Fifo.put, this]
    rw [hspec]
    exact ⟨s, by rw [messageQueueTryPut, if_neg hm, if_pos hfull], h, fun _ => rfl⟩
  · have hlt : f.1.items.length < c.queueLength q := by
      have := h.valid.available_le
      have := h.queueLength
      omega
    rw [← h.messageSize, ← h.outside] at hout
    obtain ⟨mem, hcopy⟩ := memcopy_put s.memory h.valid hout
    obtain ⟨s', hs', hq, hmem⟩ := messageQueueTryPut_of hm hfull hcopy
    simp only [QueueOp.spec, Fifo.put, hlt, dif_pos]
    refine ⟨s', hs', ⟨hq ▸ h.messages, hq ▸ h.messageSize, hq ▸ h.queueLength,
      hq ▸ h.valid.afterPut hfull, ?_, fun a ha => ?_⟩, nofun⟩
    · rw [hq, hmem, contents_put h.valid hfull hcopy, h.contents, ← h.messageSize,
        h.bytes (h.outside.mp hout)]
    · rw [hmem, memcopy_eq hcopy, if_neg, h.memory a ha]
      have := Valid.cell_le (h.valid.slot_lt (s.messageQueues q).available)
      rw [← h.outside] at ha
      rw [h.valid.putOffset_eq]
      unfold Outside at ha
      omega

theorem Refines.tryGet (h : Refines q s f) {message : ℕ} (hm : message ≠ 0)
    (hout : (c.messageQueue q).Outside message (c.messageSize q)) :
    ∃ s', messageQueueTryGet q message s =
        some (((QueueOp.tryGet message).spec (c.messageSize q) f).1, s') ∧
      Refines q s' ((QueueOp.tryGet message).spec (c.messageSize q) f).2 ∧
      (((QueueOp.tryGet message).spec (c.messageSize q) f).1 = false → s' = s) := by
  have hlength := h.length
  by_cases hempty : (s.messageQueues q).available = 0
  · have hspec : (QueueOp.tryGet message).spec (c.messageSize q) f = (false, f) := by
      simp [QueueOp.spec, Fifo.get_of_nil (List.eq_nil_of_length_eq_zero (hlength.trans hempty))]
    rw [hspec]
    exact ⟨s, by rw [messageQueueTryGet, if_neg hm, if_pos hempty], h, fun _ => rfl⟩
  · rw [← h.messageSize, ← h.outside] at hout
    obtain ⟨mem, hcopy⟩ := memcopy_get s.memory h.valid hout
    obtain ⟨s', hs', hq, hmem⟩ := messageQueueTryGet_of hm hempty hcopy
    have hget := contents_get h.valid hempty hout hcopy
    rw [h.contents] at hget
    obtain ⟨g, hg, hitems⟩ := Fifo.get_of_cons hget
    simp only [QueueOp.spec, hg]
    refine ⟨s', hs', ⟨hq ▸ h.messages, hq ▸ h.messageSize, hq ▸ h.queueLength,
      hq ▸ h.valid.afterGet, by rw [hq, hmem, hitems], fun a ha => ?_⟩, nofun⟩
    rw [hmem, memcopy_eq hcopy]
    unfold writeBytes
    dsimp only
    rw [← h.memory a ha]
    by_cases hle : message ≤ a
    · by_cases hlt : a < message + (s.messageQueues q).messageSize
      · have hi : a - message < (s.messageQueues q).messageSize := by omega
        simp [hle, hlt, Echronos.bytes, hi, memcopy_eq hcopy]
      · have hi : ¬ a - message < (s.messageQueues q).messageSize := by omega
        simp [hle, hlt, Echronos.bytes, hi]
    · simp [hle]

theorem Refines.store (h : Refines q s f) {address : ℕ} (byte : BitVec 8)
    (hout : (c.messageQueue q).Outside address 1) :
    Refines q { s with memory := Function.update s.memory address byte }
      (f.1, Function.update f.2 address byte) where
  messages := h.messages
  messageSize := h.messageSize
  queueLength := h.queueLength
  valid := h.valid
  contents := by
    rw [← h.contents]
    refine ringList_congr fun i _ => bytes_congr fun j hj => ?_
    replace hj : j < (s.messageQueues q).messageSize := hj
    have := Valid.cell_le (h.valid.slot_lt i)
    rw [← h.outside] at hout
    refine Function.update_of_ne ?_ _ _
    unfold Outside at hout
    dsimp only
    omega
  memory a ha := by
    by_cases hne : a = address
    · subst hne; simp
    · simpa [hne] using h.memory a ha

/-- One operation acts on the array as it does on the list. -/
theorem Refines.exec (h : Refines q s f) {op : QueueOp}
    (hop : op.Admissible (c.messageQueue q)) :
    ∃ s', op.exec q s = some ((op.spec (c.messageSize q) f).1, s') ∧
      Refines q s' (op.spec (c.messageSize q) f).2 ∧
      ((op.spec (c.messageSize q) f).1 = false → s' = s) := by
  cases op with
  | tryPut message => exact h.tryPut hop.1 hop.2
  | tryGet message => exact h.tryGet hop.1 hop.2
  | store address byte => exact ⟨_, rfl, h.store byte hop, nofun⟩

/-- So does any sequence of operations. -/
theorem Refines.execAll : ∀ {ops : List QueueOp} {s : State c S}
    {f : Fifo (List (BitVec 8)) (c.queueLength q) × Memory}, Refines q s f →
    (∀ op ∈ ops, op.Admissible (c.messageQueue q)) →
    ∃ s', QueueOp.execAll q ops s = some ((QueueOp.specAll (c.messageSize q) ops f).1, s') ∧
      Refines q s' (QueueOp.specAll (c.messageSize q) ops f).2
  | [], s, f, h, _ => ⟨s, rfl, h⟩
  | op :: ops, s, f, h, hops => by
    obtain ⟨t, ht, hrefines, -⟩ := h.exec (hops op List.mem_cons_self)
    obtain ⟨s', hs', hr⟩ := hrefines.execAll fun op' hop' => hops op' (List.mem_cons_of_mem op hop')
    exact ⟨s', by simp [QueueOp.execAll, ht, hs', QueueOp.specAll], hr⟩

theorem Refines.start (q : c.MessageQueueId) (mem : Memory) :
    Refines q (State.start mem : State c S) (Fifo.empty, mem) where
  messages := rfl
  messageSize := rfl
  queueLength := rfl
  valid := ⟨c.messageSize_le q, c.queueLength_le q, c.queueLength_pos q, Nat.zero_le _⟩
  contents := rfl
  memory _ _ := rfl

/-- No index leaves the array, and none of its computations in eight or sixteen bits wraps. -/
structure MessageQueue.InBounds (mq : MessageQueue) : Prop where
  head_lt : mq.head < mq.queueLength
  available_le : mq.available ≤ mq.queueLength
  putOffset : mq.putOffset = (mq.head + mq.available) % mq.queueLength * mq.messageSize
  putOffset_le : mq.putOffset + mq.messageSize ≤ mq.queueLength * mq.messageSize
  getOffset : mq.getOffset = mq.head * mq.messageSize
  getOffset_le : mq.getOffset + mq.messageSize ≤ mq.queueLength * mq.messageSize
  available_afterPut : mq.available ≠ mq.queueLength → mq.afterPut.available = mq.available + 1
  head_afterGet : mq.afterGet.head = (mq.head + 1) % mq.queueLength
  available_afterGet : mq.available ≠ 0 → mq.afterGet.available + 1 = mq.available

theorem MessageQueue.Valid.inBounds {mq : MessageQueue} (h : Valid mq) : InBounds mq where
  head_lt := h.head_lt
  available_le := h.available_le
  putOffset := h.putOffset_eq
  putOffset_le := h.putOffset_eq ▸ Valid.cell_le (h.slot_lt mq.available)
  getOffset := h.getOffset_eq
  getOffset_le := h.getOffset_eq ▸ Valid.cell_le h.head_lt
  available_afterPut := h.available_afterPut
  head_afterGet := h.head_afterGet
  available_afterGet hempty := Nat.sub_add_cancel (Nat.pos_of_ne_zero hempty)

/-- Every sequence of operations on a message queue acts as on a list of bounded length: it returns
    the same results, stores the same messages, leaves the same bytes in the application's memory,
    and a further call that returns false changes nothing. -/
theorem messageQueue_refines_fifo (q : c.MessageQueueId) (mem : Memory) (ops : List QueueOp)
    (hops : ∀ op ∈ ops, op.Admissible (c.messageQueue q)) :
    ∃ s : State c S, QueueOp.execAll q ops (State.start mem) =
        some ((QueueOp.specAll (c.messageSize q) ops (Fifo.empty (n := c.queueLength q), mem)).1, s) ∧
      Refines q s (QueueOp.specAll (c.messageSize q) ops (Fifo.empty, mem)).2 ∧
      (s.messageQueues q).InBounds ∧
      ∀ op : QueueOp, op.Admissible (c.messageQueue q) → ∃ b s', op.exec q s = some (b, s') ∧
        (b = false → s' = s) := by
  obtain ⟨s, hs, hr⟩ := (Refines.start (S := S) q mem).execAll hops
  refine ⟨s, hs, hr, hr.valid.inBounds, fun op hop => ?_⟩
  obtain ⟨s', hs', -, hfalse⟩ := hr.exec hop
  exact ⟨_, s', hs', hfalse⟩

/-- A queue of two messages: the third put fails, and a get succeeds. -/
theorem messageQueue_refines_fifo_full :
    ∃ s : State (.plain 1 0 0 1 false false Nat.one_pos) (rigelSched 1 0 Nat.one_pos),
      QueueOp.execAll 0 [.tryPut 1, .tryPut 1, .tryPut 1, .tryGet 2] (State.start fun _ => 7) =
        some ([true, true, false, true], s) := by
  have hops : ∀ op ∈ [QueueOp.tryPut 1, .tryPut 1, .tryPut 1, .tryGet 2],
      op.Admissible (Config.messageQueue (.plain 1 0 0 1 false false Nat.one_pos) 0) := by
    simp [QueueOp.Admissible, Outside, Config.messageQueue]
  obtain ⟨s, hs, -⟩ := messageQueue_refines_fifo
    (S := rigelSched 1 0 Nat.one_pos) 0 (fun _ => 7) _ hops
  exact ⟨s, hs⟩

end Echronos
