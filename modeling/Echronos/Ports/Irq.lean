import Mathlib.Data.BitVec

/-! # Interrupts, as a port of the RTOS sees them

    What interrupt service routines and the code they interrupt share: whether interrupts are
    enabled, the word of pending events, the count of pending ticks, and whether a preemption is
    pending. An interrupt event is a bit of a 32-bit word. -/

namespace Echronos

/-- MSR[EE] or the complement of PRIMASK, and the variables that interrupt service routines write:
    `preempt_pending`, or the pending bit of PendSV. -/
structure Irq where
  interruptsEnabled : Bool
  interruptEvent : BitVec 32
  timerPendingTicks : ℕ
  preemptPending : Bool

namespace Irq

/-- `interrupt_event_raise` -/
def interruptEventRaise (i : ℕ) (q : Irq) : Irq :=
  { q with interruptEvent := q.interruptEvent ||| BitVec.twoPow 32 i }

/-- `timer_tick` -/
def timerTick (q : Irq) : Irq :=
  if q.timerPendingTicks < 2 then { q with timerPendingTicks := q.timerPendingTicks + 1 } else q

/-- `interrupts_disable()`, or `cpsid i` -/
def interruptsDisable (q : Irq) : Irq := { q with interruptsEnabled := false }

/-- `interrupts_enable()`, or `cpsie i` -/
def interruptsEnable (q : Irq) : Irq := { q with interruptsEnabled := true }

/-- `preempt_pend()` -/
def preemptPend (q : Irq) : Irq := { q with preemptPending := true }

/-- `preempt_clear()` -/
def preemptClear (q : Irq) : Irq := { q with preemptPending := false }

/-- None of the configured interrupt events is pending. -/
def NoEvent (interruptEvents : ℕ) (q : Irq) : Prop :=
  ∀ i < interruptEvents, q.interruptEvent.getLsbD i = false

end Irq

/-- `__builtin_ffs` -/
def builtinFfs (x : BitVec 32) : ℕ := if x = 0 then 0 else x.ctz.toNat + 1

/-- `x & ~(1U << i)` -/
def clearBit (x : BitVec 32) (i : ℕ) : BitVec 32 := x &&& ~~~BitVec.twoPow 32 i

theorem getLsbD_clearBit (x : BitVec 32) (i k : ℕ) :
    (clearBit x i).getLsbD k = (x.getLsbD k && decide (k ≠ i)) := by
  by_cases hk : k < 32
  · by_cases h : k = i
    · simp [clearBit, h]
    · simp [clearBit, hk, h]
  · simp [BitVec.getLsbD_of_ge _ _ (not_lt.mp hk)]

theorem getLsbD_interruptEventRaise (q : Irq) (i k : ℕ) :
    (q.interruptEventRaise i).interruptEvent.getLsbD k =
      (q.interruptEvent.getLsbD k || (decide (i < 32) && decide (i = k))) := by
  rw [Irq.interruptEventRaise, BitVec.getLsbD_or, BitVec.getLsbD_twoPow]

/-- The bit that `__builtin_ffs` finds is set. -/
theorem getLsbD_builtinFfs {x : BitVec 32} (h : x ≠ 0) : x.getLsbD (builtinFfs x - 1) := by
  rw [builtinFfs, if_neg h]
  exact BitVec.getLsbD_true_ctz_of_ne_zero h

theorem twoPow_ne_zero {i : ℕ} (hi : i < 32) : BitVec.twoPow 32 i ≠ 0 := fun h => by
  have := congrArg (·.getLsbD i) h
  simp [hi] at this

/-- An event that is pending alone is the one that `__builtin_ffs` finds. -/
theorem builtinFfs_twoPow {i : ℕ} (hi : i < 32) : builtinFfs (BitVec.twoPow 32 i) - 1 = i := by
  have h := getLsbD_builtinFfs (twoPow_ne_zero hi)
  rw [BitVec.getLsbD_twoPow, Bool.and_eq_true, decide_eq_true_eq, decide_eq_true_eq] at h
  exact h.2.symm

/-- Every bit of `x` is set in `y`. -/
def Within (x y : BitVec 32) : Prop := ∀ k, x.getLsbD k → y.getLsbD k

theorem Within.raise {x : BitVec 32} {q : Irq} (h : Within x q.interruptEvent) (i : ℕ) :
    Within x (q.interruptEventRaise i).interruptEvent := fun k hk => by
  rw [getLsbD_interruptEventRaise, h k hk]
  rfl

theorem Within.clearBit {x y : BitVec 32} (h : Within x y) (i : ℕ) :
    Within (clearBit x i) (clearBit y i) := fun k hk => by
  rw [getLsbD_clearBit, Bool.and_eq_true] at hk ⊢
  exact ⟨h k hk.1, hk.2⟩

/-- A word without a bit has no event pending. -/
theorem Within.noEvent {q : Irq} (h : Within q.interruptEvent 0) (n : ℕ) : q.NoEvent n := by
  intro i _
  by_contra hne
  exact absurd (h i (by simpa using hne)) (by simp)

/-- The word has bits of configured interrupt events only. -/
def Configured (interruptEvents : ℕ) (x : BitVec 32) : Prop :=
  ∀ i, x.getLsbD i = true → i < interruptEvents

theorem Configured.clearBit {n : ℕ} {x : BitVec 32} (h : Configured n x) (i : ℕ) :
    Configured n (clearBit x i) := fun k hk => by
  rw [getLsbD_clearBit, Bool.and_eq_true] at hk
  exact h k hk.1

theorem Configured.raise {n i : ℕ} {q : Irq} (h : Configured n q.interruptEvent) (hi : i < n) :
    Configured n (q.interruptEventRaise i).interruptEvent := fun k hk => by
  rw [getLsbD_interruptEventRaise, Bool.or_eq_true, Bool.and_eq_true, decide_eq_true_eq,
    decide_eq_true_eq] at hk
  rcases hk with hk | ⟨-, rfl⟩
  · exact h k hk
  · exact hi

theorem Configured.lt_of_builtinFfs {n : ℕ} {x : BitVec 32} (h : Configured n x) (hx : x ≠ 0) :
    builtinFfs x - 1 < n :=
  h _ (getLsbD_builtinFfs hx)

end Echronos
