import Mathlib.Data.List.Infix
import Mathlib.Algebra.Group.Nat.Defs

/-! # Messages in a stream of bytes

    What is received falls into messages, each of which is answered by its bytes in reverse order. A
    message ends at a carriage return or when it has its full size. Line feeds and carriage returns are
    in no message, and no message is empty. -/

namespace Echronos.P2020

/-- `MSG_SIZE` -/
def msgSize : ℕ := 42

/-- `'\n'` -/
def lineFeed : UInt8 := 10

/-- `'\r'` -/
def carriageReturn : UInt8 := 13

/-- A byte that stands in a message. -/
def Ordinary (c : UInt8) : Prop := c ≠ lineFeed ∧ c ≠ carriageReturn

instance (c : UInt8) : Decidable (Ordinary c) := inferInstanceAs (Decidable (_ ∧ _))

/-- The message that is being put together, and the messages that are complete. -/
structure Assembler where
  part : List UInt8
  done : List (List UInt8)
  deriving DecidableEq

/-- The message with a byte more. -/
def grow (part : List UInt8) (c : UInt8) : List UInt8 := if Ordinary c then part ++ [c] else part

/-- Whether a byte ends the message. -/
def Complete (part : List UInt8) (c : UInt8) : Prop :=
  part.length = msgSize ∨ (c = carriageReturn ∧ part ≠ [])

instance (part : List UInt8) (c : UInt8) : Decidable (Complete part c) :=
  inferInstanceAs (Decidable (_ ∨ _))

def Assembler.feed (m : Assembler) (c : UInt8) : Assembler :=
  if Complete (grow m.part c) c then ⟨[], m.done ++ [grow m.part c]⟩ else ⟨grow m.part c, m.done⟩

def assemble (bytes : List UInt8) : Assembler := bytes.foldl Assembler.feed ⟨[], []⟩

/-- The messages that are complete in a stream of bytes. -/
def messages (bytes : List UInt8) : List (List UInt8) := (assemble bytes).done

/-- The answers to messages. -/
def reply (ms : List (List UInt8)) : List UInt8 :=
  ms.flatMap fun m => m.reverse ++ [lineFeed, carriageReturn]

variable {bytes bytes' : List UInt8} {c : UInt8} {m : Assembler}

theorem assemble_append_singleton : assemble (bytes ++ [c]) = (assemble bytes).feed c := by
  rw [assemble, List.foldl_append]
  rfl

theorem reply_append_singleton (ms : List (List UInt8)) (m : List UInt8) :
    reply (ms ++ [m]) = reply ms ++ (m.reverse ++ [lineFeed, carriageReturn]) := by
  rw [reply, List.flatMap_append, List.flatMap_singleton, reply]

theorem feed_of_complete (h : Complete (grow m.part c) c) :
    m.feed c = ⟨[], m.done ++ [grow m.part c]⟩ := if_pos h

theorem feed_of_not_complete (h : ¬ Complete (grow m.part c) c) :
    m.feed c = ⟨grow m.part c, m.done⟩ := if_neg h

theorem done_prefix_feed : m.done <+: (m.feed c).done := by
  rw [Assembler.feed]
  split_ifs
  · exact List.prefix_append _ _
  · exact List.prefix_rfl

theorem done_prefix_foldl : ∀ {bytes : List UInt8} {m : Assembler}, m.done <+: (bytes.foldl .feed m).done
  | [], _ => List.prefix_rfl
  | _ :: _, _ => done_prefix_feed.trans done_prefix_foldl

/-- More bytes leave the messages that are complete. -/
theorem messages_mono (h : bytes <+: bytes') : messages bytes <+: messages bytes' := by
  obtain ⟨rest, rfl⟩ := h
  rw [messages, messages, assemble, assemble, List.foldl_append]
  exact done_prefix_foldl

theorem reply_mono {ms ms' : List (List UInt8)} (h : ms <+: ms') : reply ms <+: reply ms' := by
  obtain ⟨rest, rfl⟩ := h
  rw [reply, reply, List.flatMap_append]
  exact List.prefix_append _ _

theorem length_grow_le : (grow m.part c).length ≤ m.part.length + 1 := by
  rw [grow]
  split_ifs <;> simp

/-- A message that is not complete has room for a byte. -/
theorem length_part_lt : ∀ bytes : List UInt8, (assemble bytes).part.length < msgSize := by
  intro bytes
  induction bytes using List.reverseRecOn with
  | nil => exact Nat.zero_lt_succ _
  | append_singleton bytes c ih =>
    rw [assemble_append_singleton, Assembler.feed]
    split_ifs with h
    · exact Nat.zero_lt_succ _
    · have hgrow := length_grow_le (m := assemble bytes) (c := c)
      have hne : (grow (assemble bytes).part c).length ≠ msgSize := fun heq => h (.inl heq)
      dsimp only
      omega

/-- A message is neither empty nor too long. -/
theorem length_of_mem_messages : ∀ {bytes : List UInt8} {m : List UInt8}, m ∈ messages bytes →
    0 < m.length ∧ m.length ≤ msgSize := by
  intro bytes
  induction bytes using List.reverseRecOn with
  | nil => simp [messages, assemble]
  | append_singleton bytes c ih =>
    intro m hm
    rw [messages, assemble_append_singleton, Assembler.feed] at hm
    split_ifs at hm with h
    · rcases List.mem_append.mp hm with hm | hm
      · exact ih hm
      · rw [List.mem_singleton.mp hm]
        have hgrow := length_grow_le (m := assemble bytes) (c := c)
        have hpart := length_part_lt bytes
        refine ⟨?_, by omega⟩
        rcases h with h | ⟨-, hne⟩
        · rw [h]
          exact Nat.zero_lt_succ _
        · exact List.length_pos_iff.mpr hne
    · exact ih hm

end Echronos.P2020
