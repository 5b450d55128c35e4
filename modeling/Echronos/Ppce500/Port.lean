import Echronos.Ports.GetNext
import Echronos.Ppce500.InterruptEvent

/-! # The PowerPC e500 port of `interrupt_event_process()`

    Between the copy and the return, what is pending is in the copy, unless a preemption has become
    pending as well: the copy is taken after the clearing of `preempt_pending`. -/

namespace Echronos.Ppce500

/-- Every event pending is one that the call still copies or clears. -/
def Process.Covers (q : Irq) : Process → Prop
  | .enter | .clear | .copy => True
  | .enable tmp | .loop tmp | .load tmp _ => Within q.interruptEvent tmp
  | .store tmp _ r => Within r tmp
  | .handle tmp i | .mask tmp i => Within q.interruptEvent (clearBit tmp i)

theorem Process.Covers.next {n : ℕ} {preemption : Bool} {p p' : Process} {q q' : Irq}
    (h : q.preemptPending ∨ p.Covers q)
    (hp : interruptEventProcess n preemption p q = (some p', q')) :
    q'.preemptPending ∨ p'.Covers q' := by
  cases p with
  | enter =>
    simp only [interruptEventProcess] at hp
    split_ifs at hp
    · simp at hp
    · obtain ⟨rfl, rfl⟩ : _ ∧ _ := by simpa using hp
      exact .inr trivial
    · obtain ⟨rfl, rfl⟩ : _ ∧ _ := by simpa using hp
      exact .inr fun _ => id
  | loop tmp =>
    simp only [interruptEventProcess] at hp
    split_ifs at hp
    · simp at hp
    · obtain ⟨rfl, rfl⟩ : _ ∧ _ := by simpa using hp
      exact h
  | clear =>
    obtain ⟨rfl, rfl⟩ : _ ∧ _ := by simpa [interruptEventProcess] using hp
    exact .inr trivial
  | copy =>
    obtain ⟨rfl, rfl⟩ : _ ∧ _ := by simpa [interruptEventProcess] using hp
    exact .inr fun _ => id
  | enable tmp | load tmp i | handle tmp i | mask tmp i =>
    obtain ⟨rfl, rfl⟩ : _ ∧ _ := by simpa [interruptEventProcess] using hp
    exact h
  | store tmp i r =>
    obtain ⟨rfl, rfl⟩ : _ ∧ _ := by simpa [interruptEventProcess] using hp
    exact h.imp id fun hr => Within.clearBit hr i

theorem Process.Covers.return {n : ℕ} {preemption : Bool} {p : Process} {q q' : Irq}
    (h : q.preemptPending ∨ p.Covers q)
    (hp : interruptEventProcess n preemption p q = (none, q')) :
    q'.preemptPending ∨ q'.NoEvent n := by
  cases p with
  | enter =>
    simp only [interruptEventProcess] at hp
    split_ifs at hp with hn
    · subst hn
      exact .inr fun i hi => absurd hi (Nat.not_lt_zero i)
    · simp at hp
    · simp at hp
  | loop tmp =>
    simp only [interruptEventProcess] at hp
    split_ifs at hp with htmp
    · obtain rfl : q = q' := by simpa using hp
      subst htmp
      exact h.imp id fun hq => hq.noEvent n
    · simp at hp
  | clear | copy | enable tmp | load tmp i | store tmp i r | handle tmp i | mask tmp i =>
    simp [interruptEventProcess] at hp

/-- The port of a system with `n` interrupt events. -/
def port (n : ℕ) (preemption : Bool) : Port where
  interruptEvents := n
  preemption := preemption
  Process := Process
  enter := .enter
  interruptEventProcess := interruptEventProcess n preemption
  handles p := p.handles.isSome
  Covers p q := p.Covers q
  covers_enter _ := trivial
  covers_next := Process.Covers.next
  covers_return := Process.Covers.return

end Echronos.Ppce500
