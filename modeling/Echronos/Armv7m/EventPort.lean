import Echronos.Ports.EventPort
import Echronos.Armv7m.InterruptEvent

/-! # `interrupt_event_process()` on ARMv7-M, without preemption

    Clearing a bit through its alias leaves the other bits alone, so the port overwrites nothing. -/

namespace Echronos.Armv7m

open Relation

variable {n i : ℕ} {q q' : Irq}

namespace Process

/-- The event whose `interrupt_event_handle` is called at a point. -/
def handled : Process → Option ℕ
  | .handle _ i => some i
  | _ => none

/-- The call that has reached the point handles the event before it returns. -/
def Due (i : ℕ) (q : Irq) : Process → Prop
  | .enter => q.interruptEvent.getLsbD i = true
  | .loop tmp => tmp.getLsbD i = true
  | .bitband tmp j | .handle tmp j => j = i ∨ tmp.getLsbD i = true
  | .mask tmp j => (clearBit tmp j).getLsbD i = true

def Configured (n : ℕ) : Process → Prop
  | .enter => True
  | .loop tmp => Echronos.Configured n tmp
  | .bitband tmp j | .handle tmp j | .mask tmp j => Echronos.Configured n tmp ∧ j < n

end Process

open Process

variable {p : Process} {next : Option Process}

theorem due_next (hi : i < n) (h : p.Due i q) (hp : interruptEventProcess n p q = (next, q')) :
    p.handled = some i ∨ ∃ p', next = some p' ∧ p'.Due i q' := by
  cases p with
  | enter =>
    rw [interruptEventProcess, if_neg (by omega)] at hp
    obtain ⟨rfl, rfl⟩ := Prod.mk.inj hp
    exact .inr ⟨_, rfl, h⟩
  | loop tmp =>
    have htmp : tmp ≠ 0 := by
      rintro rfl
      simp [Due] at h
    rw [interruptEventProcess, if_neg htmp] at hp
    obtain ⟨rfl, rfl⟩ := Prod.mk.inj hp
    exact .inr ⟨_, rfl, .inr h⟩
  | bitband tmp j =>
    obtain ⟨rfl, rfl⟩ := Prod.mk.inj hp
    exact .inr ⟨_, rfl, h⟩
  | handle tmp j =>
    obtain ⟨rfl, rfl⟩ := Prod.mk.inj hp
    by_cases hj : j = i
    · exact .inl (by rw [handled, hj])
    · have htmp : tmp.getLsbD i = true := h.resolve_left hj
      exact .inr ⟨_, rfl, by simp [Due, getLsbD_clearBit, htmp, Ne.symm hj]⟩
  | mask tmp j =>
    obtain ⟨rfl, rfl⟩ := Prod.mk.inj hp
    exact .inr ⟨_, rfl, h⟩

theorem kept (hq : q.interruptEvent.getLsbD i = true)
    (hp : interruptEventProcess n p q = (next, q')) :
    (∃ p', next = some p' ∧ p'.Due i q') ∨ q'.interruptEvent.getLsbD i = true := by
  cases p with
  | enter | loop tmp =>
    simp only [interruptEventProcess] at hp
    split_ifs at hp <;> obtain ⟨-, rfl⟩ := Prod.mk.inj hp <;> exact .inr hq
  | bitband tmp j =>
    obtain ⟨rfl, rfl⟩ := Prod.mk.inj hp
    by_cases hj : j = i
    · exact .inl ⟨_, rfl, .inl hj⟩
    · exact .inr (by simp [getLsbD_clearBit, hq, Ne.symm hj])
  | handle tmp j | mask tmp j =>
    obtain ⟨-, rfl⟩ := Prod.mk.inj hp
    exact .inr hq

theorem configured_next (h : p.Configured n) (hq : Echronos.Configured n q.interruptEvent)
    (hp : interruptEventProcess n p q = (next, q')) :
    (∀ p', next = some p' → p'.Configured n) ∧ Echronos.Configured n q'.interruptEvent := by
  cases p with
  | enter =>
    simp only [interruptEventProcess] at hp
    split_ifs at hp <;> obtain ⟨rfl, rfl⟩ := Prod.mk.inj hp
    · exact ⟨by simp, hq⟩
    · exact ⟨by rintro _ ⟨⟩; exact hq, hq⟩
  | loop tmp =>
    simp only [interruptEventProcess] at hp
    split_ifs at hp with htmp <;> obtain ⟨rfl, rfl⟩ := Prod.mk.inj hp
    · exact ⟨by simp, hq⟩
    · exact ⟨by rintro _ ⟨⟩; exact ⟨h, h.lt_of_builtinFfs htmp⟩, hq⟩
  | bitband tmp j =>
    obtain ⟨rfl, rfl⟩ := Prod.mk.inj hp
    exact ⟨by rintro _ ⟨⟩; exact h, hq.clearBit j⟩
  | handle tmp j =>
    obtain ⟨rfl, rfl⟩ := Prod.mk.inj hp
    exact ⟨by rintro _ ⟨⟩; exact h, hq⟩
  | mask tmp j =>
    obtain ⟨rfl, rfl⟩ := Prod.mk.inj hp
    exact ⟨by rintro _ ⟨⟩; exact h.1.clearBit j, hq⟩

theorem exists_handled (hn : i < n) (hi : i < 32) (hq : q.interruptEvent = BitVec.twoPow 32 i) :
    ∃ (p : Process) (q' : Irq), p.handled = some i ∧ ReflTransGen (fun x y : Process × Irq =>
      x.1.handled = none ∧ interruptEventProcess n x.1 x.2 = (some y.1, y.2)) (.enter, q) (p, q') := by
  have hffs : builtinFfs q.interruptEvent - 1 = i := hq ▸ builtinFfs_twoPow hi
  have hne : q.interruptEvent ≠ 0 := hq ▸ twoPow_ne_zero hi
  refine ⟨.handle q.interruptEvent i, { q with interruptEvent := clearBit q.interruptEvent i }, rfl,
    .head (b := (Process.loop q.interruptEvent, q)) ⟨rfl, ?_⟩
      (.head (b := (Process.bitband q.interruptEvent i, q)) ⟨rfl, ?_⟩ (.single ⟨rfl, rfl⟩))⟩
  · rw [interruptEventProcess, if_neg (by omega)]
  · rw [interruptEventProcess, if_neg hne, hffs]

theorem due_raise (j : ℕ) (h : p.Due i q) : p.Due i (q.interruptEventRaise j) := by
  cases p with
  | enter =>
    have hq : q.interruptEvent.getLsbD i = true := h
    simp [Due, getLsbD_interruptEventRaise, hq]
  | loop | bitband | handle | mask => exact h

theorem lt_of_handled (h : p.Configured n) (hp : p.handled = some i) : i < n := by
  cases p with
  | handle tmp j =>
    obtain rfl := Option.some.inj hp
    exact h.2
  | enter | loop | bitband | mask => cases hp

/-- The port of a system with `n` interrupt events. -/
def eventPort (n : ℕ) (hn : n ≤ 32) : EventPort n where
  Process := Process
  enter := .enter
  interruptEventProcess := interruptEventProcess n
  handles := handled
  overwrites _ _ := false
  Due i p q := p.Due i q
  Configured := Process.Configured n
  overwrites_enter _ := rfl
  due_enter _ hq := hq
  due_raise := due_raise
  due_next := due_next
  kept hq _ hp := (kept hq hp).imp_right fun h => ⟨h, fun _ _ => rfl⟩
  configured_enter := trivial
  configured_next := configured_next
  lt_of_handles := lt_of_handled
  exists_handled hi hq := exists_handled hi (hi.trans_le hn) hq

end Echronos.Armv7m
