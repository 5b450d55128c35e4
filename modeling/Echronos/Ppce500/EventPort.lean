import Echronos.Ports.EventPort
import Echronos.Ppce500.InterruptEvent

/-! # `interrupt_event_process()` on the PowerPC e500, without preemption

    The word of pending events is loaded and stored again with interrupts enabled in between: what is
    raised there is overwritten, unless it was pending before or is the event to be handled. -/

namespace Echronos.Ppce500

open Relation

variable {n i : ℕ} {q q' : Irq}

namespace Process

/-- The next access stores a word that was loaded before, without this event. -/
def overwrites : Process → ℕ → Bool
  | .store _ j r, i => decide (j ≠ i) && !r.getLsbD i
  | _, _ => false

/-- The call that has reached the point handles the event before it returns. -/
def Due (i : ℕ) (q : Irq) : Process → Prop
  | .enter | .clear | .copy => q.interruptEvent.getLsbD i = true
  | .enable tmp | .loop tmp => tmp.getLsbD i = true
  | .load tmp j | .store tmp j _ | .handle tmp j => j = i ∨ tmp.getLsbD i = true
  | .mask tmp j => (clearBit tmp j).getLsbD i = true

def Configured (n : ℕ) : Process → Prop
  | .enter | .clear | .copy => True
  | .enable tmp | .loop tmp => Echronos.Configured n tmp
  | .load tmp j | .handle tmp j | .mask tmp j => Echronos.Configured n tmp ∧ j < n
  | .store tmp j r => Echronos.Configured n r ∧ Echronos.Configured n tmp ∧ j < n

end Process

open Process

variable {p : Process} {next : Option Process}

theorem due_raise (j : ℕ) (h : p.Due i q) : p.Due i (q.interruptEventRaise j) := by
  cases p with
  | enter | clear | copy =>
    have hq : q.interruptEvent.getLsbD i = true := h
    simp [Due, getLsbD_interruptEventRaise, hq]
  | enable | loop | load | store | handle | mask => exact h

theorem due_next (hi : i < n) (h : p.Due i q)
    (hp : interruptEventProcess n false p q = (next, q')) :
    p.handles = some i ∨ ∃ p', next = some p' ∧ p'.Due i q' := by
  cases p with
  | enter =>
    rw [interruptEventProcess, if_neg (by omega), if_neg (by simp)] at hp
    obtain ⟨rfl, rfl⟩ := Prod.mk.inj hp
    exact .inr ⟨_, rfl, h⟩
  | loop tmp =>
    have htmp : tmp ≠ 0 := by
      rintro rfl
      simp [Due] at h
    rw [interruptEventProcess, if_neg htmp] at hp
    obtain ⟨rfl, rfl⟩ := Prod.mk.inj hp
    exact .inr ⟨_, rfl, .inr h⟩
  | clear | copy | enable tmp | load tmp j | store tmp j r | mask tmp j =>
    obtain ⟨rfl, rfl⟩ := Prod.mk.inj hp
    exact .inr ⟨_, rfl, h⟩
  | handle tmp j =>
    obtain ⟨rfl, rfl⟩ := Prod.mk.inj hp
    by_cases hj : j = i
    · exact .inl (by rw [Process.handles, hj])
    · have htmp : tmp.getLsbD i = true := h.resolve_left hj
      exact .inr ⟨_, rfl, by simp [Due, getLsbD_clearBit, htmp, Ne.symm hj]⟩

theorem kept (hq : q.interruptEvent.getLsbD i = true) (ho : p.overwrites i = false)
    (hp : interruptEventProcess n false p q = (next, q')) :
    (∃ p', next = some p' ∧ p'.Due i q') ∨
      q'.interruptEvent.getLsbD i = true ∧ ∀ p', next = some p' → p'.overwrites i = false := by
  cases p with
  | enter =>
    simp only [interruptEventProcess, Bool.false_eq_true, if_false] at hp
    split_ifs at hp <;> obtain ⟨rfl, rfl⟩ := Prod.mk.inj hp
    · exact .inr ⟨hq, by simp⟩
    · exact .inr ⟨hq, by rintro _ ⟨⟩; rfl⟩
  | loop tmp =>
    simp only [interruptEventProcess] at hp
    split_ifs at hp <;> obtain ⟨rfl, rfl⟩ := Prod.mk.inj hp
    · exact .inr ⟨hq, by simp⟩
    · exact .inr ⟨hq, by rintro _ ⟨⟩; rfl⟩
  | load tmp j =>
    obtain ⟨rfl, rfl⟩ := Prod.mk.inj hp
    exact .inr ⟨hq, by rintro _ ⟨⟩; simp [overwrites, hq]⟩
  | store tmp j r =>
    obtain ⟨rfl, rfl⟩ := Prod.mk.inj hp
    by_cases hj : j = i
    · exact .inl ⟨_, rfl, .inl hj⟩
    · have hr : r.getLsbD i = true := by simpa [overwrites, hj] using ho
      exact .inr ⟨by simp [getLsbD_clearBit, hr, Ne.symm hj], by rintro _ ⟨⟩; rfl⟩
  | clear | copy | enable tmp | handle tmp j | mask tmp j =>
    obtain ⟨rfl, rfl⟩ := Prod.mk.inj hp
    exact .inr ⟨hq, by rintro _ ⟨⟩; rfl⟩

theorem configured_next (h : p.Configured n) (hq : Echronos.Configured n q.interruptEvent)
    (hp : interruptEventProcess n false p q = (next, q')) :
    (∀ p', next = some p' → p'.Configured n) ∧ Echronos.Configured n q'.interruptEvent := by
  cases p with
  | enter =>
    simp only [interruptEventProcess, Bool.false_eq_true, if_false] at hp
    split_ifs at hp <;> obtain ⟨rfl, rfl⟩ := Prod.mk.inj hp
    · exact ⟨by simp, hq⟩
    · exact ⟨by rintro _ ⟨⟩; exact hq, hq⟩
  | loop tmp =>
    simp only [interruptEventProcess] at hp
    split_ifs at hp with htmp <;> obtain ⟨rfl, rfl⟩ := Prod.mk.inj hp
    · exact ⟨by simp, hq⟩
    · exact ⟨by rintro _ ⟨⟩; exact ⟨h, h.lt_of_builtinFfs htmp⟩, hq⟩
  | clear =>
    obtain ⟨rfl, rfl⟩ := Prod.mk.inj hp
    exact ⟨by rintro _ ⟨⟩; trivial, hq⟩
  | copy =>
    obtain ⟨rfl, rfl⟩ := Prod.mk.inj hp
    exact ⟨by rintro _ ⟨⟩; exact hq, hq⟩
  | load tmp j =>
    obtain ⟨rfl, rfl⟩ := Prod.mk.inj hp
    exact ⟨by rintro _ ⟨⟩; exact ⟨hq, h⟩, hq⟩
  | store tmp j r =>
    obtain ⟨rfl, rfl⟩ := Prod.mk.inj hp
    exact ⟨by rintro _ ⟨⟩; exact h.2, h.1.clearBit j⟩
  | enable tmp | handle tmp j =>
    obtain ⟨rfl, rfl⟩ := Prod.mk.inj hp
    exact ⟨by rintro _ ⟨⟩; exact h, hq⟩
  | mask tmp j =>
    obtain ⟨rfl, rfl⟩ := Prod.mk.inj hp
    exact ⟨by rintro _ ⟨⟩; exact h.1.clearBit j, hq⟩

theorem lt_of_handles (h : p.Configured n) (hp : p.handles = some i) : i < n := by
  cases p with
  | handle tmp j =>
    obtain rfl := Option.some.inj hp
    exact h.2
  | enter | clear | copy | enable | loop | load | store | mask => cases hp

theorem exists_handled (hn : i < n) (hi : i < 32) (hq : q.interruptEvent = BitVec.twoPow 32 i) :
    ∃ (p : Process) (q' : Irq), p.handles = some i ∧ ReflTransGen (fun x y : Process × Irq =>
      x.1.handles = none ∧ interruptEventProcess n false x.1 x.2 = (some y.1, y.2))
      (.enter, q) (p, q') := by
  have hffs : builtinFfs q.interruptEvent - 1 = i := hq ▸ builtinFfs_twoPow hi
  have hne : q.interruptEvent ≠ 0 := hq ▸ twoPow_ne_zero hi
  refine ⟨.handle q.interruptEvent i, { q with interruptEvent := clearBit q.interruptEvent i }, rfl,
    .head (b := (Process.loop q.interruptEvent, q)) ⟨rfl, ?_⟩
      (.head (b := (Process.load q.interruptEvent i, q)) ⟨rfl, ?_⟩
        (.head (b := (Process.store q.interruptEvent i q.interruptEvent, q)) ⟨rfl, rfl⟩
          (.single ⟨rfl, rfl⟩)))⟩
  · rw [interruptEventProcess, if_neg (by omega), if_neg (by simp)]
  · rw [interruptEventProcess, if_neg hne, hffs]

/-- The port of a system with `n` interrupt events, built without preemption. -/
def eventPort (n : ℕ) (hn : n ≤ 32) : EventPort n where
  Process := Process
  enter := .enter
  interruptEventProcess := interruptEventProcess n false
  handles := handles
  overwrites := overwrites
  Due i p q := p.Due i q
  Configured := Process.Configured n
  overwrites_enter _ := rfl
  due_enter _ hq := hq
  due_raise := due_raise
  due_next := due_next
  kept := kept
  configured_enter := trivial
  configured_next := configured_next
  lt_of_handles := lt_of_handles
  exists_handled hi hq := exists_handled hi (hi.trans_le hn) hq

end Echronos.Ppce500
