import Echronos.Ports.GetNext

/-! # Component `interrupt-event-armv7m`

    The bits of `interrupt_event` are set and cleared through their bit-band aliases, each a word of
    its own: clearing one bit is a single store that leaves the others alone. -/

namespace Echronos.Armv7m

/-- The next access of `interrupt_event_process()` and the values of its local variables. -/
inductive Process
  | enter
  | loop (tmp : BitVec 32)
  | bitband (tmp : BitVec 32) (i : ℕ)
  | handle (tmp : BitVec 32) (i : ℕ)
  | mask (tmp : BitVec 32) (i : ℕ)

/-- One access of `interrupt_event_process()`, which has returned when no point is left. -/
def interruptEventProcess (interruptEvents : ℕ) : Process → Irq → Option Process × Irq
  | .enter, q => if interruptEvents = 0 then (none, q) else (some (.loop q.interruptEvent), q)
  | .loop tmp, q => if tmp = 0 then (none, q) else (some (.bitband tmp (builtinFfs tmp - 1)), q)
  | .bitband tmp i, q =>
    (some (.handle tmp i), { q with interruptEvent := clearBit q.interruptEvent i })
  | .handle tmp i, q => (some (.mask tmp i), q)
  | .mask tmp i, q => (some (.loop (clearBit tmp i)), q)

/-- Whether the step from a point calls `interrupt_event_handle`. -/
def Process.handles : Process → Bool
  | .handle _ _ => true
  | _ => false

/-- Every event pending is one that the call still copies or clears. -/
def Process.Covers (q : Irq) : Process → Prop
  | .enter => True
  | .loop tmp | .bitband tmp _ => Within q.interruptEvent tmp
  | .handle tmp i | .mask tmp i => Within q.interruptEvent (clearBit tmp i)

theorem Process.Covers.next {n : ℕ} {p p' : Process} {q q' : Irq}
    (h : q.preemptPending ∨ p.Covers q) (hp : interruptEventProcess n p q = (some p', q')) :
    q'.preemptPending ∨ p'.Covers q' := by
  cases p with
  | enter =>
    simp only [interruptEventProcess] at hp
    split_ifs at hp
    · simp at hp
    · obtain ⟨rfl, rfl⟩ : _ ∧ _ := by simpa using hp
      exact .inr fun _ => id
  | loop tmp =>
    simp only [interruptEventProcess] at hp
    split_ifs at hp
    · simp at hp
    · obtain ⟨rfl, rfl⟩ : _ ∧ _ := by simpa using hp
      exact h
  | bitband tmp i =>
    obtain ⟨rfl, rfl⟩ : _ ∧ _ := by simpa [interruptEventProcess] using hp
    exact h.imp id fun hq => Within.clearBit hq i
  | handle tmp i | mask tmp i =>
    obtain ⟨rfl, rfl⟩ : _ ∧ _ := by simpa [interruptEventProcess] using hp
    exact h

theorem Process.Covers.return {n : ℕ} {p : Process} {q q' : Irq}
    (h : q.preemptPending ∨ p.Covers q) (hp : interruptEventProcess n p q = (none, q')) :
    q'.preemptPending ∨ q'.NoEvent n := by
  cases p with
  | enter =>
    simp only [interruptEventProcess] at hp
    split_ifs at hp with hn
    · subst hn
      exact .inr fun i hi => absurd hi (Nat.not_lt_zero i)
    · simp at hp
  | loop tmp =>
    simp only [interruptEventProcess] at hp
    split_ifs at hp with htmp
    · obtain rfl : q = q' := by simpa using hp
      subst htmp
      exact h.imp id fun hq => hq.noEvent n
    · simp at hp
  | bitband tmp i | handle tmp i | mask tmp i => simp [interruptEventProcess] at hp

/-- The port of a system with `n` interrupt events. -/
def port (n : ℕ) (preemption : Bool) : Port where
  interruptEvents := n
  preemption := preemption
  Process := Process
  enter := .enter
  interruptEventProcess := interruptEventProcess n
  handles := Process.handles
  Covers p q := p.Covers q
  covers_enter _ := trivial
  covers_next := Process.Covers.next
  covers_return := Process.Covers.return

end Echronos.Armv7m
