import Echronos.Ports.EventPort
import Echronos.Posix.InterruptEvent

/-! # `interrupt_event_process()` on a POSIX host

    The set of signals is blocked while a bit is cleared. The function reads the word of pending events
    again for every event, and returns only when it is zero. -/

namespace Echronos.Posix

open Relation

variable {n i : ℕ} {q q' : Irq}

namespace Point

/-- The event whose `interrupt_event_handle` is called at a point. -/
def handles : Point → Option ℕ
  | .handle current => some current
  | _ => none

/-- The call that has reached the point handles the event before it returns. -/
def Due (i : ℕ) (q : Irq) : Point → Prop
  | .whilePending | .forPending _ | .ifPending _ | .block _ | .clear _ =>
    q.interruptEvent.getLsbD i = true
  | .unblock current | .handle current => current = i ∨ q.interruptEvent.getLsbD i = true
  | .task | .tick | .select | .waitBlock | .waitCheck | .sigwait | .waitUnblock | .raise => False

def Configured (n : ℕ) : Point → Prop
  | .ifPending current | .block current | .clear current | .unblock current | .handle current =>
    current < n
  | _ => True

end Point

open Point

/-- Execute the next statement of `interrupt_event_process()`, without ticks to process. -/
def interruptEventProcess (n : ℕ) (hn : n ≤ 32) (p : Point) (q : Irq) : Option Point × Irq :=
  let s : Process ⟨n, false, hn⟩ := { Process.start with
    point := p
    blocked := !q.interruptsEnabled
    pendingInterruptEvents := q.interruptEvent }
  match Process.next s p with
  | none => (none, q)
  | some s => (if s.point = .select then none else some s.point,
      { q with interruptsEnabled := !s.blocked, interruptEvent := s.pendingInterruptEvents })

variable {hn : n ≤ 32} {p : Point} {next : Option Point}

theorem due_raise (j : ℕ) (h : p.Due i q) : p.Due i (q.interruptEventRaise j) := by
  have hraise (hq : q.interruptEvent.getLsbD i = true) :
      (q.interruptEventRaise j).interruptEvent.getLsbD i = true := by
    simp [getLsbD_interruptEventRaise, hq]
  cases p with
  | whilePending | forPending | ifPending | block | clear => exact hraise h
  | unblock | handle => exact h.imp_right hraise
  | task | tick | select | waitBlock | waitCheck | sigwait | waitUnblock | raise => exact h.elim

theorem process_whilePending : interruptEventProcess n hn .whilePending q =
    if n ≠ 0 ∧ q.interruptEvent ≠ 0 then (some (.forPending 0), q) else (none, q) := by
  simp only [interruptEventProcess, Process.next, Process.processReturns, Process.goto]
  split_ifs <;> simp_all

theorem process_forPending (c : ℕ) : interruptEventProcess n hn (.forPending c) q =
    if c < n ∧ q.interruptEvent ≠ 0 then (some (.ifPending c), q) else (some .whilePending, q) := by
  simp only [interruptEventProcess, Process.next, Process.goto]
  split_ifs <;> simp_all

theorem process_ifPending (c : ℕ) : interruptEventProcess n hn (.ifPending c) q =
    if q.interruptEvent.getLsbD c then (some (.block c), q) else (some (.forPending (c + 1)), q) := by
  simp only [interruptEventProcess, Process.next, Process.goto]
  split_ifs <;> simp_all

theorem process_clear (c : ℕ) : interruptEventProcess n hn (.clear c) q =
    (some (.unblock c), { q with interruptEvent := clearBit q.interruptEvent c }) := by
  simp [interruptEventProcess, Process.next, Process.goto]

theorem process_handle (c : ℕ) : interruptEventProcess n hn (.handle c) q =
    (some (.forPending (c + 1)), q) := by
  simp [interruptEventProcess, Process.next, Process.goto, Process.interruptEventHandle]

/-- The points that `interrupt_event_process()` does not pass through. -/
def Point.Outside (p : Point) : Prop :=
  p = .task ∨ p = .tick ∨ p = .select ∨ p = .waitBlock ∨ p = .waitCheck ∨ p = .sigwait ∨
    p = .waitUnblock ∨ p = .raise

theorem process_outside (ho : p.Outside) (hp : interruptEventProcess n hn p q = (next, q')) :
    q'.interruptEvent = q.interruptEvent ∧
      ∀ p', next = some p' → p'.Outside ∨ p' = .whilePending := by
  by_cases hcheck : p = .waitCheck
  · subst hcheck
    simp only [interruptEventProcess, Process.next] at hp
    split_ifs at hp <;> obtain ⟨rfl, rfl⟩ := Prod.mk.inj hp <;> simp [Point.Outside, Process.goto]
  · rcases ho with rfl | rfl | rfl | rfl | rfl | rfl | rfl | rfl <;>
      first
      | exact absurd rfl hcheck
      | obtain ⟨rfl, rfl⟩ := Prod.mk.inj hp
        simp [Point.Outside, Process.goto, Process.raise]

theorem due_next (hi : i < n) (h : p.Due i q)
    (hp : interruptEventProcess n hn p q = (next, q')) :
    p.handles = some i ∨ ∃ p', next = some p' ∧ p'.Due i q' := by
  have hne (hq : q.interruptEvent.getLsbD i = true) : q.interruptEvent ≠ 0 := by
    intro h0
    simp [h0] at hq
  cases p with
  | whilePending =>
    rw [process_whilePending, if_pos ⟨by omega, hne h⟩] at hp
    obtain ⟨rfl, rfl⟩ := Prod.mk.inj hp
    exact .inr ⟨_, rfl, h⟩
  | forPending c =>
    rw [process_forPending] at hp
    split_ifs at hp <;> obtain ⟨rfl, rfl⟩ := Prod.mk.inj hp <;> exact .inr ⟨_, rfl, h⟩
  | ifPending c =>
    rw [process_ifPending] at hp
    split_ifs at hp <;> obtain ⟨rfl, rfl⟩ := Prod.mk.inj hp <;> exact .inr ⟨_, rfl, h⟩
  | block c =>
    obtain ⟨rfl, rfl⟩ := Prod.mk.inj hp
    exact .inr ⟨_, rfl, h⟩
  | clear c =>
    rw [process_clear] at hp
    obtain ⟨rfl, rfl⟩ := Prod.mk.inj hp
    have hq : q.interruptEvent.getLsbD i = true := h
    refine .inr ⟨_, rfl, ?_⟩
    by_cases hc : c = i
    · exact .inl hc
    · exact .inr (by simp [getLsbD_clearBit, hq, Ne.symm hc])
  | unblock c =>
    obtain ⟨rfl, rfl⟩ := Prod.mk.inj hp
    exact .inr ⟨_, rfl, h⟩
  | handle c =>
    rw [process_handle] at hp
    obtain ⟨rfl, rfl⟩ := Prod.mk.inj hp
    exact h.imp (fun hc => by rw [Point.handles, hc]) fun hq => ⟨_, rfl, hq⟩
  | task | tick | select | waitBlock | waitCheck | sigwait | waitUnblock | raise => exact h.elim

/-- Only the clearing of an event changes the word, and that event is handled. -/
theorem kept (hq : q.interruptEvent.getLsbD i = true)
    (hp : interruptEventProcess n hn p q = (next, q')) :
    (∃ p', next = some p' ∧ p'.Due i q') ∨ q'.interruptEvent.getLsbD i = true := by
  cases p with
  | whilePending =>
    rw [process_whilePending] at hp
    split_ifs at hp <;> obtain ⟨rfl, rfl⟩ := Prod.mk.inj hp <;> exact .inr hq
  | forPending c =>
    rw [process_forPending] at hp
    split_ifs at hp <;> obtain ⟨rfl, rfl⟩ := Prod.mk.inj hp <;> exact .inr hq
  | ifPending c =>
    rw [process_ifPending] at hp
    split_ifs at hp <;> obtain ⟨rfl, rfl⟩ := Prod.mk.inj hp <;> exact .inr hq
  | clear c =>
    rw [process_clear] at hp
    obtain ⟨rfl, rfl⟩ := Prod.mk.inj hp
    by_cases hc : c = i
    · exact .inl ⟨_, rfl, .inl hc⟩
    · exact .inr (by simp [getLsbD_clearBit, hq, Ne.symm hc])
  | block c | unblock c =>
    obtain ⟨rfl, rfl⟩ := Prod.mk.inj hp
    exact .inr hq
  | handle c =>
    rw [process_handle] at hp
    obtain ⟨rfl, rfl⟩ := Prod.mk.inj hp
    exact .inr hq
  | task | tick | select | waitBlock | waitCheck | sigwait | waitUnblock | raise =>
    exact .inr ((process_outside (by simp [Point.Outside]) hp).1 ▸ hq)

theorem configured_next (h : p.Configured n) (hq : Echronos.Configured n q.interruptEvent)
    (hp : interruptEventProcess n hn p q = (next, q')) :
    (∀ p', next = some p' → p'.Configured n) ∧ Echronos.Configured n q'.interruptEvent := by
  cases p with
  | whilePending =>
    rw [process_whilePending] at hp
    split_ifs at hp <;> obtain ⟨rfl, rfl⟩ := Prod.mk.inj hp
    · exact ⟨by rintro _ ⟨⟩; trivial, hq⟩
    · exact ⟨by simp, hq⟩
  | forPending c =>
    rw [process_forPending] at hp
    split_ifs at hp with hc <;> obtain ⟨rfl, rfl⟩ := Prod.mk.inj hp
    · exact ⟨by rintro _ ⟨⟩; exact hc.1, hq⟩
    · exact ⟨by rintro _ ⟨⟩; trivial, hq⟩
  | ifPending c =>
    rw [process_ifPending] at hp
    split_ifs at hp <;> obtain ⟨rfl, rfl⟩ := Prod.mk.inj hp
    · exact ⟨by rintro _ ⟨⟩; exact h, hq⟩
    · exact ⟨by rintro _ ⟨⟩; trivial, hq⟩
  | block c | unblock c =>
    obtain ⟨rfl, rfl⟩ := Prod.mk.inj hp
    exact ⟨by rintro _ ⟨⟩; exact h, hq⟩
  | clear c =>
    rw [process_clear] at hp
    obtain ⟨rfl, rfl⟩ := Prod.mk.inj hp
    exact ⟨by rintro _ ⟨⟩; exact h, hq.clearBit c⟩
  | handle c =>
    rw [process_handle] at hp
    obtain ⟨rfl, rfl⟩ := Prod.mk.inj hp
    exact ⟨by rintro _ ⟨⟩; trivial, hq⟩
  | task | tick | select | waitBlock | waitCheck | sigwait | waitUnblock | raise =>
    obtain ⟨hword, hnext⟩ := process_outside (by simp [Point.Outside]) hp
    refine ⟨fun p' hp' => ?_, hword ▸ hq⟩
    rcases hnext p' hp' with ho | rfl
    · rcases ho with rfl | rfl | rfl | rfl | rfl | rfl | rfl | rfl <;> trivial
    · trivial

theorem lt_of_handles (h : p.Configured n) (hp : p.handles = some i) : i < n := by
  cases p with
  | handle c =>
    obtain rfl := Option.some.inj hp
    exact h
  | _ => cases hp

/-- The loop over the events passes by those that are not pending. -/
theorem passes (hi : i < n) (hq : q.interruptEvent = BitVec.twoPow 32 i) : ∀ {c : ℕ}, c ≤ i →
    ReflTransGen (fun x y : Point × Irq => x.1.handles = none ∧
      interruptEventProcess n hn x.1 x.2 = (some y.1, y.2)) (.forPending 0, q) (.forPending c, q)
  | 0, _ => .refl
  | c + 1, hc => by
    have hne : q.interruptEvent ≠ 0 := hq ▸ twoPow_ne_zero (hi.trans_le hn)
    have hbit : q.interruptEvent.getLsbD c = false := by
      rw [hq, BitVec.getLsbD_twoPow]
      simp
      omega
    refine ((passes hi hq (by omega)).tail (b := (.forPending c, q)) (c := (.ifPending c, q))
      ⟨rfl, ?_⟩).tail ⟨rfl, ?_⟩
    · rw [process_ifPending, if_neg (by simp [hbit])]
    · rw [process_forPending, if_pos ⟨by omega, hne⟩]

theorem exists_handled (hi : i < n) (hq : q.interruptEvent = BitVec.twoPow 32 i) :
    ∃ (p : Point) (q' : Irq), p.handles = some i ∧ ReflTransGen (fun x y : Point × Irq =>
      x.1.handles = none ∧ interruptEventProcess n hn x.1 x.2 = (some y.1, y.2))
      (.whilePending, q) (p, q') := by
  have hne : q.interruptEvent ≠ 0 := hq ▸ twoPow_ne_zero (hi.trans_le hn)
  have hbit : q.interruptEvent.getLsbD i = true := by
    rw [hq, BitVec.getLsbD_twoPow]
    simp [hi.trans_le hn]
  let r : Irq := q.interruptsDisable
  let r' : Irq := { r with interruptEvent := clearBit r.interruptEvent i }
  refine ⟨.handle i, r'.interruptsEnable, rfl,
    .head (b := (.forPending 0, q)) ⟨rfl, ?_⟩ (.trans (passes hi hq le_rfl)
      (.head (b := (.ifPending i, q)) ⟨rfl, ?_⟩ (.head (b := (.block i, q)) ⟨rfl, ?_⟩
        (.head (b := (.clear i, r)) ⟨rfl, rfl⟩
          (.head (b := (.unblock i, r')) ⟨rfl, process_clear i⟩ (.single ⟨rfl, rfl⟩))))))⟩
  · rw [process_whilePending, if_pos ⟨by omega, hne⟩]
  · rw [process_forPending, if_pos ⟨hi, hne⟩]
  · rw [process_ifPending, if_pos hbit]

/-- The port of a system with `n` interrupt events. -/
def eventPort (n : ℕ) (hn : n ≤ 32) : EventPort n where
  Process := Point
  enter := .whilePending
  interruptEventProcess := interruptEventProcess n hn
  handles := Point.handles
  overwrites _ _ := false
  Due i p q := p.Due i q
  Configured := Point.Configured n
  overwrites_enter _ := rfl
  due_enter _ hq := hq
  due_raise := due_raise
  due_next := due_next
  kept hq _ hp := (kept hq hp).imp_right fun h => ⟨h, fun _ _ => rfl⟩
  configured_enter := trivial
  configured_next := configured_next
  lt_of_handles := lt_of_handles
  exists_handled := exists_handled

end Echronos.Posix
