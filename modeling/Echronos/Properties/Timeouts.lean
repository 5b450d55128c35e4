import Echronos.Properties.Deadlines
import Echronos.Properties.Timers
import Echronos.Schemes.Laps
import Echronos.Variants.PrioInherit

/-! # Timeouts

    A call with a timeout compares two 32-bit values, its deadline and the clock. While both are in the
    same lap of the counter this says whether the timeout is over; in other laps it says the opposite.
    The timer of a waiting task counts modulo `2 ^ 16` and wakes it at the end of the timeout in
    every lap, so the comparison is all that can go wrong. -/

namespace Echronos

open Schemes Echronos.Core

variable {c : Config} {S : Sched c.tasks c.mutexes}

/-- The number of processed ticks at which the timeout is over. -/
def Deadline.ends (d : Deadline) : ℕ := d.start + d.timeout.toNat

/-- Every return of false comes after the ticks of the timeout. -/
def NoneEarly (h : List (Event c)) : Prop := ∀ t d now, .timedOut t d now ∈ h → d.ends ≤ now

theorem NoneEarly.of_filter {h h' : List (Event c)} (hh : NoneEarly h)
    (hf : h'.filter Event.isTimedOut = h.filter Event.isTimedOut) : NoneEarly h' := by
  intro t d now hm
  have hmem : Event.timedOut t d now ∈ h'.filter Event.isTimedOut := List.mem_filter.mpr ⟨hm, rfl⟩
  rw [hf] at hmem
  exact hh t d now (List.mem_filter.mp hmem).1

namespace Core

/-- The deadline of a call was computed when the clock, which showed `b` at the start of the system,
    had counted `d.start` ticks. -/
structure Called (b : BitVec 32) (k : Core c S) (d : Deadline) : Prop where
  absoluteTimeout : d.absoluteTimeout = b + BitVec.ofNat 32 d.start + d.timeout.setWidth 32
  start_le : d.start ≤ k.processed

/-- A task in a wait with a timeout, unless `_task_timer` is pending already, is blocked and has its
    timer set to the end of the timeout. -/
structure Awaits (b : BitVec 32) (k : Core c S) (t : c.TaskId) (w : Wait c) (d : Deadline) :
    Prop where
  requested : w.requested = c.signalIdTaskTimer
  armed : ¬ k.taskTimerPending t →
    w.blocked = true ∧ Due (b.setWidth 16) (c.taskTimers t) d.ends k

structure Timed (b : BitVec 32) (k : Core c S) : Prop where
  clock : k.timerCurrentTicks = b + BitVec.ofNat 32 k.processed
  taskTimers : ∀ t, (k.timers (c.taskTimers t)).taskId = some t ∧
    HasTaskTimer (k.timers (c.taskTimers t)).signalSet
  called : ∀ t d, (k.pc t).deadline = some d → Called b k d
  awaits : ∀ t w d, k.pc t = .wait w → w.cont.deadline = some d → Awaits b k t w d

variable {b : BitVec 32} {k k' : Core c S} {t : c.TaskId} {w : Wait c} {d : Deadline}

theorem Called.congr (h : Called b k d) (hprocessed : k'.processed = k.processed) :
    Called b k' d := ⟨h.absoluteTimeout, hprocessed ▸ h.start_le⟩

/-- A wait depends on the clock, the timer of its task and the pending signals only. -/
theorem Awaits.congr (h : Awaits b k t w d) (hprocessed : k'.processed = k.processed)
    (htimer : ∃ overflow,
      k'.timers (c.taskTimers t) = { k.timers (c.taskTimers t) with overflow := overflow })
    (hpending : k.taskTimerPending t → k'.taskTimerPending t) : Awaits b k' t w d := by
  refine ⟨h.requested, fun hp => ?_⟩
  obtain ⟨hblocked, hdue⟩ := h.armed (mt hpending hp)
  obtain ⟨overflow, htimer⟩ := htimer
  exact ⟨hblocked, by rw [htimer]; exact hdue.enabled, by rw [htimer]; exact hdue.expiry,
    hprocessed ▸ hdue.lt, hprocessed ▸ hdue.le⟩

/-- A task whose timeout is over has been woken. -/
theorem Awaits.woken (h : Awaits b k t w d) (hover : d.ends ≤ k.processed) :
    k.taskTimerPending t := by
  by_contra hp
  exact absurd (h.armed hp).2.lt (not_lt.mpr hover)

theorem Timed.ahead (h : Timed b k) : Ahead (b.setWidth 16) k := by
  rw [Ahead, Core.currentTimeout, h.clock, BitVec.setWidth_add _ _ (by decide),
    BitVec.setWidth_ofNat_of_le (by decide)]

/-- Code that leaves places and timers alone and takes no signals away. -/
theorem Timed.frame (h : Timed b k) (hticks : k'.timerCurrentTicks = k.timerCurrentTicks)
    (hprocessed : k'.processed = k.processed) (htimers : k'.timers = k.timers)
    (hpc : k'.pc = k.pc) (hpending : ∀ t, k.taskTimerPending t → k'.taskTimerPending t) :
    Timed b k' where
  clock := by rw [hticks, hprocessed, h.clock]
  taskTimers := by rw [htimers]; exact h.taskTimers
  called t d hd := (h.called t d (hpc ▸ hd)).congr hprocessed
  awaits t w d hw hd := (h.awaits t w d (hpc ▸ hw) hd).congr hprocessed
    ⟨(k.timers (c.taskTimers t)).overflow, by rw [htimers]⟩ (hpending t)

/-- The code of the current task: what it does to the others, and the place it comes to itself. -/
theorem Timed.advance (h : Timed b k) (hticks : k'.timerCurrentTicks = k.timerCurrentTicks)
    (hprocessed : k'.processed = k.processed)
    (hother : ∀ t, t ≠ k.currentTask → Other t k k')
    (htimers : ∀ t, t ≠ k.currentTask → ∃ overflow,
      k'.timers (c.taskTimers t) = { k.timers (c.taskTimers t) with overflow := overflow })
    (hown : (k'.timers (ownTimer k)).taskId = (k.timers (ownTimer k)).taskId ∧
      (k'.timers (ownTimer k)).signalSet = (k.timers (ownTimer k)).signalSet)
    (hcalled : ∀ d, (k'.pc k.currentTask).deadline = some d → Called b k' d)
    (hawaits : ∀ w d, k'.pc k.currentTask = .wait w → w.cont.deadline = some d →
      Awaits b k' k.currentTask w d) : Timed b k' where
  clock := by rw [hticks, hprocessed, h.clock]
  taskTimers t := by
    by_cases ht : t = k.currentTask
    · subst ht
      rw [show c.taskTimers k.currentTask = ownTimer k from rfl, hown.1, hown.2]
      exact h.taskTimers k.currentTask
    · obtain ⟨overflow, htimer⟩ := htimers t ht
      rw [htimer]
      exact h.taskTimers t
  called t d hd := by
    by_cases ht : t = k.currentTask
    · subst ht
      exact hcalled d hd
    · rw [(hother t ht).pc] at hd
      exact (h.called t d hd).congr hprocessed
  awaits t w d hw hd := by
    by_cases ht : t = k.currentTask
    · subst ht
      exact hawaits w d hw hd
    · rw [(hother t ht).pc] at hw
      exact (h.awaits t w d hw hd).congr hprocessed (htimers t ht) ((hother t ht).signals _)

/-- The current task comes back to application code. -/
theorem Timed.leave (h : Timed b k) (hticks : k'.timerCurrentTicks = k.timerCurrentTicks)
    (hprocessed : k'.processed = k.processed)
    (hother : ∀ t, t ≠ k.currentTask → Other t k k')
    (htimers : ∀ t, t ≠ k.currentTask → ∃ overflow,
      k'.timers (c.taskTimers t) = { k.timers (c.taskTimers t) with overflow := overflow })
    (hown : (k'.timers (ownTimer k)).taskId = (k.timers (ownTimer k)).taskId ∧
      (k'.timers (ownTimer k)).signalSet = (k.timers (ownTimer k)).signalSet)
    (happ : k'.pc k.currentTask = .app) : Timed b k' := by
  refine h.advance hticks hprocessed hother htimers hown (fun d hd => ?_) fun w d hw => ?_
  · rw [happ] at hd
    cases hd
  · rw [happ] at hw
    cases hw

/-! ### Ticks -/

theorem tickTurn_wakes (timeout : BitVec 16) (k : Core c S) (i : c.TimerId) :
    Wakes ∅ k (tickTurn timeout k i) := by
  refine Wakes.refl.andThen fun k => ?_
  split
  · exact timerProcessOne_wakes i k
  · exact .refl

theorem foldl_tickTurn_wakes (timeout : BitVec 16) (l : List c.TimerId) (k : Core c S) :
    Wakes ∅ k (l.foldl (tickTurn timeout) k) :=
  foldl_invariant (fun k' i hk' => hk'.trans (tickTurn_wakes timeout k' i)) l k .refl

/-- A timer sends the same signals to the same task after it has expired. -/
theorem tickTurn_action (timeout : BitVec 16) (k : Core c S) (i j : c.TimerId) :
    ((tickTurn timeout k i).timers j).taskId = (k.timers j).taskId ∧
      ((tickTurn timeout k i).timers j).signalSet = (k.timers j).signalSet := by
  unfold tickTurn andThen
  dsimp only
  split_ifs
  · exact ⟨rfl, rfl⟩
  · by_cases hj : j = i
    · subst hj
      obtain ⟨-, htask, hset, -⟩ := rearm_action (k.timers j)
      rw [timerProcessOne_timers_self]
      exact ⟨htask, hset⟩
    · rw [timerProcessOne_timers_of_ne hj]
      exact ⟨rfl, rfl⟩
  · exact ⟨rfl, rfl⟩

theorem timerTickProcess_action (hpending : k.timerPendingTicks = 1) (j : c.TimerId) :
    ((timerTickProcess k).timers j).taskId = (k.timers j).taskId ∧
      ((timerTickProcess k).timers j).signalSet = (k.timers j).signalSet := by
  rw [timerTickProcess_of_one hpending]
  refine scan_invariant (p := fun k' : Core c S => (k'.timers j).taskId = (k.timers j).taskId ∧
    (k'.timers j).signalSet = (k.timers j).signalSet) (fun k' i hk' => ?_) ⟨rfl, rfl⟩
  obtain ⟨htask, hset⟩ := tickTurn_action _ k' i j
  exact ⟨htask.trans hk'.1, hset.trans hk'.2⟩

/-- The timer of a task wakes it when it expires. -/
theorem Timed.pending_of_expired (h : Timed b k) (hpending : k.timerPendingTicks = 1)
    (hhalted : (timerTickProcess k).halted = none) (hexpired : timerExpired
      (k.timers (c.taskTimers t)) (b.setWidth 16 + BitVec.ofNat 16 (k.processed + 1)) = true) :
    (timerTickProcess k).taskTimerPending t := by
  obtain ⟨after, -, heq⟩ := timerTickProcess_turn (c.taskTimers t) hpending
  rw [heq] at hhalted ⊢
  have hturn := halted_of_foldl hhalted
  refine ((foldl_tickTurn_wakes _ after _).other t).signals _ ?_
  rw [tickTurn, (andThen_of_halted hturn).2, h.ahead.atTurn, atTurn_timers, if_pos hexpired]
  rw [tickTurn, (andThen_of_halted hturn).2, h.ahead.atTurn, atTurn_timers, if_pos hexpired] at hturn
  obtain ⟨u, tm, hu, -, -, hprocess⟩ := timerProcessOne_eq hturn
  rw [atTurn_timers] at hu hprocess
  obtain rfl : t = u := Option.some.inj ((h.taskTimers t).1.symm.trans hu)
  rw [hprocess]
  exact taskTimerPending_signalSendSet.mpr (.inr ⟨rfl, (h.taskTimers t).2⟩)

theorem Timed.tick (h : Timed b k) (hhalted : (timerTickProcess k).halted = none) :
    Timed b (timerTickProcess k) := by
  by_cases hpending : k.timerPendingTicks = 1
  · have hclock := timerTickProcess_clock hpending
    simp only [Core.clock, Prod.mk.injEq] at hclock
    obtain ⟨hticks, -, hprocessed⟩ := hclock
    have hother := (timerTickProcess_wakes (A := ∅) k).other
    refine ⟨?_, fun t => ?_, fun t d hd => ?_, fun t w d hw hd => ?_⟩
    · rw [hticks, hprocessed, h.clock, BitVec.ofNat_add]
      exact BitVec.add_assoc _ _ _
    · obtain ⟨htask, hset⟩ := timerTickProcess_action hpending (c.taskTimers t)
      rw [htask, hset]
      exact h.taskTimers t
    · have hcalled := h.called t d ((hother t).pc ▸ hd)
      exact ⟨hcalled.absoluteTimeout, by have := hcalled.start_le; omega⟩
    · have hawaits := h.awaits t w d ((hother t).pc ▸ hw) hd
      refine ⟨hawaits.requested, fun hp => ?_⟩
      obtain ⟨hblocked, hdue⟩ := hawaits.armed (mt ((hother t).signals _) hp)
      have htimer := timerTickProcess_timers (i := c.taskTimers t) h.ahead hpending hhalted
      have hexpired : ¬ timerExpired (k.timers (c.taskTimers t))
          (b.setWidth 16 + BitVec.ofNat 16 (k.processed + 1)) = true :=
        fun he => hp (h.pending_of_expired hpending hhalted he)
      rw [if_neg hexpired] at htimer
      have hnotyet := mt hdue.expired.mpr hexpired
      have hlt := hdue.lt
      have hle := hdue.le
      exact ⟨hblocked, htimer ▸ hdue.enabled, htimer ▸ hdue.expiry, by omega, by omega⟩
  · rw [timerTickProcess_of_ne_one hpending hhalted]
    exact h.frame rfl rfl rfl rfl fun _ => id

/-! ### Waiting with a timeout -/

/-- The timer of the current task is set to the rest of the time. -/
theorem due_of_oneshot (hahead : Ahead (b.setWidth 16) k) (hk : k.halted = none)
    (hstart : d.start ≤ k.processed) (hlt : k.processed < d.ends) :
    Due (b.setWidth 16) (ownTimer k) d.ends
      (timerOneshot (ownTimer k) (BitVec.ofNat 16 (d.ends - k.processed)) k) := by
  have hrest : d.ends - k.processed < 2 ^ 16 := by
    have := d.timeout.isLt
    unfold Deadline.ends
    omega
  have hne : BitVec.ofNat 16 (d.ends - k.processed) ≠ 0 := by
    intro h
    have hzero := congrArg BitVec.toNat h
    rw [BitVec.toNat_ofNat, Nat.mod_eq_of_lt hrest] at hzero
    simp only [BitVec.ofNat_eq_ofNat, BitVec.toNat_ofNat, Nat.zero_mod] at hzero
    omega
  rw [timerOneshot_of_ne_zero hne hk]
  refine ⟨by simp [setTimer], ?_, hlt, ?_⟩
  · simp only [setTimer, Function.update_self]
    rw [hahead, BitVec.add_assoc, ← BitVec.ofNat_add, Nat.add_sub_cancel' hlt.le]
  · show d.ends < k.processed + 2 ^ 16
    omega

/-- The current task waits with its timer set. -/
theorem Due.awaits {i : c.TimerId} (h : Due (b.setWidth 16) i d.ends k)
    (hi : i = c.taskTimers k.currentTask) (blocker : Option c.TaskId) (cont : Cont c) :
    Awaits b (signalWaitSet c.signalIdTaskTimer blocker cont k) k.currentTask
      ⟨c.signalIdTaskTimer, blocker, !signalPeek (k.signals k.currentTask) c.signalIdTaskTimer,
        cont⟩ d := by
  have htiming := signalWaitSet_timing c.signalIdTaskTimer blocker cont k
  have hclock := signalWaitSet_clock c.signalIdTaskTimer blocker cont k
  simp only [timing, Core.clock, Prod.mk.injEq] at htiming hclock
  subst hi
  refine ⟨rfl, fun hp => ⟨?_, ?_, ?_, ?_, ?_⟩⟩
  · rw [taskTimerPending, signalWaitSet_signals, ← signalPeek_taskTimer] at hp
    rw [Bool.eq_false_iff.mpr hp]
    rfl
  · rw [htiming.1]
    exact h.enabled
  · rw [htiming.1]
    exact h.expiry
  · rw [hclock.2.2]
    exact h.lt
  · rw [hclock.2.2]
    exact h.le

/-! ### Returns of false -/

theorem timerProcessOne_timeouts (i : c.TimerId) (k : Core c S) :
    (timerProcessOne i k).timeouts = k.timeouts := by
  unfold timerProcessOne
  dsimp only
  split
  · rfl
  · split
    · rfl
    · exact (signalSendSet_keeps _ _ _).timeouts

theorem timerTickProcess_timeouts (k : Core c S) : (timerTickProcess k).timeouts = k.timeouts := by
  unfold timerTickProcess
  split_ifs
  · rfl
  · rfl
  · refine scan_unchanged Core.timeouts (fun k' i => ?_) _
    unfold tickTurn andThen
    split
    · rfl
    · dsimp only
      split
      · exact timerProcessOne_timeouts i k'
      · rfl

theorem interruptEventProcess_timeouts (k : Core c S) :
    (interruptEventProcess k).timeouts = k.timeouts := by
  refine scan_unchanged Core.timeouts (fun k' i => ?_) k
  split
  · exact (signalSendSet_keeps _ _ _).timeouts
  · rfl

end Core

namespace State

variable {b : BitVec 32} {s s₁ s' : State c S} {d : Deadline} {C D : Option Deadline}

/-! ### The comparison -/

/-- The clock is in the lap of the deadline, counted from the call. -/
def InLap (d : Deadline) (s : State c S) : Prop :=
  SameLap (2 ^ 32) (s.core.timerCurrentTicks - BitVec.ofNat 32 (s.core.processed - d.start)).toNat
    (s.core.processed - d.start) d.timeout.toNat

instance (d : Deadline) (s : State c S) : Decidable (s.InLap d) :=
  inferInstanceAs (Decidable (SameLap _ _ _ _))

/-- Clock and deadline as remainders, counted from the call. -/
theorem clock_deadline_toNat (hclock : s.core.timerCurrentTicks = b + BitVec.ofNat 32 s.core.processed)
    (hd : Called b s.core d) :
    s.core.timerCurrentTicks - BitVec.ofNat 32 (s.core.processed - d.start) =
        b + BitVec.ofNat 32 d.start ∧
      s.core.timerCurrentTicks.toNat =
        ((b + BitVec.ofNat 32 d.start).toNat + (s.core.processed - d.start)) % 2 ^ 32 ∧
      d.absoluteTimeout.toNat =
        ((b + BitVec.ofNat 32 d.start).toNat + d.timeout.toNat) % 2 ^ 32 := by
  have hticks : s.core.timerCurrentTicks =
      b + BitVec.ofNat 32 d.start + BitVec.ofNat 32 (s.core.processed - d.start) := by
    rw [hclock, BitVec.add_assoc, ← BitVec.ofNat_add, Nat.add_sub_cancel' hd.start_le]
  refine ⟨?_, ?_, ?_⟩
  · rw [hticks, BitVec.add_sub_cancel]
  · rw [hticks, BitVec.toNat_add, BitVec.toNat_ofNat, Nat.add_mod_mod]
  · rw [hd.absoluteTimeout, BitVec.toNat_add, BitVec.toNat_setWidth, Nat.add_mod_mod]

/-- In the lap of the deadline, the comparison says whether the timeout is over. -/
theorem before_iff (hclock : s.core.timerCurrentTicks = b + BitVec.ofNat 32 s.core.processed)
    (hd : Called b s.core d) (hlap : s.InLap d) : s.before d = true ↔ s.core.processed < d.ends := by
  obtain ⟨hcall, hticks, hdeadline⟩ := clock_deadline_toNat hclock hd
  rw [InLap, hcall] at hlap
  have hstart := hd.start_le
  rw [before, decide_eq_true_iff, BitVec.lt_def, hticks, hdeadline, hlap.mod_lt_iff, Deadline.ends]
  omega

/-- Within a lap after the timeout, the comparison is right in no other lap. -/
theorem before_iff_iff_inLap (hclock : s.core.timerCurrentTicks = b + BitVec.ofNat 32 s.core.processed)
    (hd : Called b s.core d) (hle : s.core.processed < d.ends + 2 ^ 32) :
    (s.before d = true ↔ s.core.processed < d.ends) ↔ s.InLap d := by
  obtain ⟨hcall, hticks, hdeadline⟩ := clock_deadline_toNat hclock hd
  have hstart := hd.start_le
  have htimeout := d.timeout.isLt
  rw [InLap, hcall, ← mod_lt_iff_iff_sameLap (by omega) (by unfold Deadline.ends at hle; omega)]
  rw [before, decide_eq_true_iff, BitVec.lt_def, hticks, hdeadline, Deadline.ends]
  have hends : s.core.processed < d.start + d.timeout.toNat ↔
      s.core.processed - d.start < d.timeout.toNat := by omega
  rw [hends]

theorem remaining_eq (hclock : s.core.timerCurrentTicks = b + BitVec.ofNat 32 s.core.processed)
    (hd : Called b s.core d) (hlt : s.core.processed < d.ends) :
    s.remaining d = BitVec.ofNat 16 (d.ends - s.core.processed) := by
  have hstart := hd.start_le
  have htimeout := d.timeout.isLt
  obtain ⟨-, hticks, hdeadline⟩ := clock_deadline_toNat hclock hd
  unfold Deadline.ends at hlt ⊢
  apply BitVec.eq_of_toNat_eq
  rw [remaining, BitVec.toNat_setWidth, BitVec.toNat_sub, hticks, hdeadline, BitVec.toNat_ofNat]
  omega

/-! ### Steps -/

/-- What the current task does in a turn of a loop, in the lap of its deadline. -/
theorem Turn.timed (hturn : Turn D C s₁ s') (hback : BackIn s s₁) (h : Timed b s.core)
    (hC : ∀ d, C = some d → Called b s.core d ∧ s.InLap d)
    (hticks : s'.core.timerCurrentTicks = s.core.timerCurrentTicks)
    (hprocessed : s'.core.processed = s.core.processed)
    (hother : ∀ t, t ≠ s.core.currentTask → Other t s.core s'.core)
    (hhalted : s'.core.halted = none) : Timed b s'.core := by
  have hcurrent := hback.currentTask
  obtain ⟨hticks₁, hprocessed₁⟩ := hback.ticks
  cases hturn with
  | done _ hkeeps happ =>
    have hall := hback.keeps.trans hkeeps
    exact h.leave hticks hprocessed hother hall.timers hall.own (hcurrent ▸ happ)
  | wait _ _ hkeeps hdeadline =>
    rw [hcurrent] at hdeadline
    have hall := hback.keeps.trans hkeeps
    refine h.advance hticks hprocessed hother hall.timers hall.own (fun d hd => ?_)
      fun w d hw hd => ?_
    · rw [hdeadline] at hd
      cases hd
    · rw [hw] at hdeadline
      exact absurd (hdeadline.symm.trans hd) nofun
  | giveUp d =>
    exact h.leave hticks hprocessed hother hback.keeps.timers hback.keeps.own (hcurrent ▸ hback.app)
  | @waitTimeout d blocker cont s₂ hd hbefore hcore hcont =>
    obtain ⟨hcalled, hlap⟩ := hC d hd
    have hcalled₁ : Called b s₁.core d := hcalled.congr hprocessed₁
    have hclock₁ : s₁.core.timerCurrentTicks = b + BitVec.ofNat 32 s₁.core.processed := by
      rw [hticks₁, hprocessed₁, h.clock]
    have hlap₁ : s₁.InLap d := by
      unfold InLap at hlap ⊢
      rwa [hticks₁, hprocessed₁]
    have hlt := (before_iff hclock₁ hcalled₁ hlap₁).mp hbefore
    have hahead : Ahead (b.setWidth 16) s₁.core := h.ahead.congr hback.clock
    -- the state after `timer_oneshot` and `signal_wait`
    have heq : (s₂.blockTimeout blocker (s₁.remaining d) cont).core =
        andThen (signalWaitSet c.signalIdTaskTimer blocker cont) (timerOneshot (ownTimer s₁.core)
          (BitVec.ofNat 16 (d.ends - s₁.core.processed)) s₁.core) := by
      rw [← remaining_eq hclock₁ hcalled₁ hlt, blockTimeout, onCore, hcore]
    rw [heq] at hticks hprocessed hother hhalted ⊢
    obtain ⟨hnone, hwait⟩ := andThen_of_halted hhalted
    rw [hwait] at hticks hprocessed hother ⊢
    have hwakes := timerOneshot_wakes (A := ∅) (ownTimer s₁.core)
      (BitVec.ofNat 16 (d.ends - s₁.core.processed)) s₁.core
    have hdue := due_of_oneshot hahead (hwakes.halted hnone) hcalled₁.start_le hlt
    have hall := (hback.keeps.trans (timerOneshot_keeps (fun _ => rfl)
      (BitVec.ofNat 16 (d.ends - s₁.core.processed)))).trans
        (signalWaitSet_keeps c.signalIdTaskTimer blocker cont _)
    have htask := hwakes.currentTask.trans hcurrent
    have hpc := signalWaitSet_pc c.signalIdTaskTimer blocker cont
      (timerOneshot (ownTimer s₁.core) (BitVec.ofNat 16 (d.ends - s₁.core.processed)) s₁.core)
    have hawaits := hdue.awaits (congrArg c.taskTimers hwakes.currentTask.symm) blocker cont
    rw [htask] at hpc hawaits
    refine h.advance hticks hprocessed hother hall.timers hall.own (fun d' hd' => ?_)
      fun w d' hw hd' => ?_
    · rw [hpc, Function.update_self] at hd'
      obtain rfl := Option.some.inj (hcont.symm.trans hd')
      exact hcalled.congr hprocessed
    · rw [hpc, Function.update_self] at hw
      obtain rfl := Pc.wait.inj hw
      obtain rfl := Option.some.inj (hcont.symm.trans hd')
      exact hawaits

theorem Turn.noneEarly (hturn : Turn D C s₁ s')
    (hclock : s₁.core.timerCurrentTicks = b + BitVec.ofNat 32 s₁.core.processed)
    (hC : ∀ d, C = some d → Called b s₁.core d ∧ s₁.InLap d) (h : NoneEarly s₁.core.history) :
    NoneEarly s'.core.history := by
  cases hturn with
  | done _ hkeeps => exact h.of_filter hkeeps.timeouts
  | wait _ _ hkeeps => exact h.of_filter hkeeps.timeouts
  | giveUp d hd hbefore =>
    obtain ⟨hcalled, hlap⟩ := hC d hd
    have hover : d.ends ≤ s₁.core.processed :=
      not_lt.mp (mt (before_iff hclock hcalled hlap).mpr (by simp [hbefore]))
    intro t d' now hm
    rcases List.mem_cons.mp hm with he | hm
    · obtain ⟨-, rfl, rfl⟩ := Event.timedOut.inj he
      exact hover
    · exact h t d' now hm
  | @waitTimeout d blocker cont s₂ _ _ hcore =>
    have hkeeps : Keeps s₂.core (s₂.blockTimeout blocker (s₁.remaining d) cont).core :=
      andThen_keeps (timerOneshot_keeps (fun _ => rfl) _) fun _ => signalWaitSet_keeps _ _ _ _
    refine NoneEarly.of_filter (h := s₂.core.history) ?_ hkeeps.timeouts
    rw [hcore]
    exact h

/-- The deadline that a step compares with the clock is in its lap. -/
def ComparesInLap (a : Act c) (s : State c S) : Prop := ∀ d, s.stepCompares a = some d → s.InLap d

/-- A call computes its deadline from the clock. -/
theorem called_deadline (h : Timed b s.core) (timeout : BitVec 16) :
    Called b s.core (s.deadline timeout) :=
  ⟨by rw [deadline, h.clock], le_rfl⟩

theorem compares_cont {cont : Cont c} (h : s.compares cont = some d) : cont.deadline = some d := by
  cases cont with
  | mutexLockTimeout m d' => exact (Option.ite_none_left_eq_some.mp h).2
  | semWaitTimeout i d' => exact (Option.ite_none_right_eq_some.mp h).2
  | messageQueuePutTimeout q message d' => exact (Option.ite_none_right_eq_some.mp h).2
  | messageQueueGetTimeout q message d' => exact (Option.ite_none_right_eq_some.mp h).2
  | _ => cases h

theorem callCompares_called (h : Timed b s.core) {f : Call c} (hd : s.callCompares f = some d) :
    Called b s.core d := by
  unfold callCompares at hd
  split at hd
  · obtain rfl := Option.some.inj (compares_cont hd)
    exact called_deadline h _
  · obtain rfl := Option.some.inj (compares_cont hd)
    exact called_deadline h _
  · cases hd

/-- The deadline that a task compares when it goes on is that of the function it is in. -/
theorem resumeCompares_deadline (hd : s.resumeCompares = some d) :
    (s.core.pc s.currentTask).deadline = some d := by
  unfold resumeCompares at hd
  split at hd
  · rename_i hpc
    rw [hpc]
    exact compares_cont hd
  · rename_i hpc
    rw [hpc]
    exact compares_cont hd
  · rename_i hpc
    rw [hpc]
    exact compares_cont (Option.ite_none_right_eq_some.mp hd).2
  · cases hd

theorem stepCompares_called (h : Timed b s.core) {a : Act c} (hd : s.stepCompares a = some d) :
    Called b s.core d := by
  cases a with
  | call f => exact callCompares_called h hd
  | resume => exact h.called s.currentTask d (resumeCompares_deadline hd)
  | kernel | store => cases hd

structure TimeoutsSound (b : BitVec 32) (s : State c S) : Prop where
  timed : s.core.halted = none → Timed b s.core
  noneEarly : NoneEarly s.core.history

/-- A turn of a loop at the end of a step. -/
theorem TimeoutsSound.turn (hs : TimeoutsSound b s) (h : Timed b s.core) (hback : BackIn s s₁)
    (hturn : Turn D C s₁ s') (hC : ∀ d, C = some d → Called b s.core d ∧ s.InLap d)
    (hticks : s'.core.timerCurrentTicks = s.core.timerCurrentTicks ∧
      s'.core.processed = s.core.processed)
    (hother : ∀ t, t ≠ s.core.currentTask → Other t s.core s'.core) : TimeoutsSound b s' := by
  obtain ⟨hticks₁, hprocessed₁⟩ := hback.ticks
  refine ⟨hturn.timed hback h hC hticks.1 hticks.2 hother, hturn.noneEarly (b := b) ?_ (fun d hd => ?_)
    (hs.noneEarly.of_filter hback.keeps.timeouts)⟩
  · rw [hticks₁, hprocessed₁, h.clock]
  · obtain ⟨hcalled, hlap⟩ := hC d hd
    refine ⟨hcalled.congr hprocessed₁, ?_⟩
    unfold InLap at hlap ⊢
    rwa [hticks₁, hprocessed₁]

theorem TimeoutsSound.step {a : Act c} (hs : TimeoutsSound b s) (hspares : SparesTimers a)
    (hlap : ComparesInLap a s) (hstep : State.step a s = some s') : TimeoutsSound b s' := by
  obtain ⟨hnone, h⟩ := Option.ite_none_left_eq_some.mp hstep
  have htimed := hs.timed (by simpa using hnone)
  cases a with
  | kernel a =>
    obtain ⟨k, hk, rfl⟩ := Option.map_eq_some_iff.mp h
    rcases act_cases hk with hstill | ⟨fuel, again, rfl, hswitch⟩ | rfl | rfl
    · exact ⟨fun _ => htimed.frame hstill.timerCurrentTicks hstill.processed hstill.timers hstill.pc
        fun t => by rw [taskTimerPending, taskTimerPending, hstill.signals]; exact id,
        hs.noneEarly.of_filter (by rw [hstill.history])⟩
    · exact ⟨fun _ => htimed.frame hswitch.timerCurrentTicks hswitch.processed hswitch.timers
        hswitch.pc fun t => by rw [taskTimerPending, taskTimerPending, hswitch.signals]; exact id,
        hs.noneEarly.of_filter (by rw [hswitch.history])⟩
    · have hother := (interruptEventProcess_wakes (A := ∅) s.core).other
      have htiming := interruptEventProcess_timing s.core
      have hclock := interruptEventProcess_clock s.core
      simp only [timing, Core.clock, Prod.mk.injEq] at htiming hclock
      exact ⟨fun _ => htimed.frame hclock.1 hclock.2.2 htiming.1 (funext fun t => (hother t).pc)
        fun t => (hother t).signals _, hs.noneEarly.of_filter (interruptEventProcess_timeouts s.core)⟩
    · exact ⟨fun hhalted => (htimed.tick hhalted).frame rfl rfl rfl rfl fun _ => id,
        hs.noneEarly.of_filter (timerTickProcess_timeouts s.core)⟩
  | call f =>
    obtain ⟨hin, hcall⟩ := Option.ite_none_right_eq_some.mp h
    have happ := (inApp_iff.mp hin).2
    have hticks := step_ticks hstep (by simp)
    have hother := fun t (ht : t ≠ s.core.currentTask) => step_other hstep ht
    rcases call_turn happ hspares hcall with ⟨D, hturn⟩ | ⟨e, rfl, he⟩
    · exact hs.turn htimed ⟨.refl _, happ, rfl, rfl⟩ hturn
        (fun d hd => ⟨stepCompares_called (a := .call f) htimed hd, hlap d hd⟩) hticks hother
    · refine ⟨fun _ => ?_, hs.noneEarly⟩
      have hkeeps := setPc_keeps (.entered e) s.core
      have hpc : (setPc (.entered e) s.core).pc s.core.currentTask = .entered e := by simp
      refine htimed.advance rfl rfl hother hkeeps.timers hkeeps.own (fun d hd => ?_) fun w d hw => ?_
      · rw [show (s.onCore (setPc (.entered e))).core.pc s.core.currentTask = .entered e from hpc] at hd
        rw [he d hd]
        exact (called_deadline htimed d.timeout).congr rfl
      · cases hpc.symm.trans hw
  | resume =>
    have hticks := step_ticks hstep (by simp)
    have hother := fun t (ht : t ≠ s.core.currentTask) => step_other hstep ht
    rcases resume_turn (Option.ite_none_right_eq_some.mp h).2 with ⟨w, -, -, -, rfl⟩ | ⟨s₁, hback, hturn⟩
    · exact ⟨fun _ => htimed.frame rfl rfl rfl rfl fun _ => id, hs.noneEarly⟩
    · exact hs.turn htimed hback hturn
        (fun d hd => ⟨stepCompares_called (a := .resume) htimed hd, hlap d hd⟩) hticks hother
  | store address byte =>
    obtain ⟨-, ⟨⟩⟩ := Option.ite_none_right_eq_some.mp h
    exact ⟨fun _ => htimed, hs.noneEarly⟩

/-! ### Runs -/

/-- The state after `start()`, had the clock shown `ticks` then. -/
def startAt (ticks : BitVec 32) (memory : Memory) : State c S :=
  (start memory).onCore fun k => { k with timerCurrentTicks := ticks }

/-- The states reached from there while every comparison is made in the lap of its deadline and
    application code leaves the timers of tasks alone. -/
def ReachedInLap (ticks : BitVec 32) (s : State c S) : Prop :=
  ∃ memory, Reach step (fun a s => SparesTimers a ∧ ComparesInLap a s) (startAt ticks memory) s

theorem ReachedInLap.timeoutsSound {ticks : BitVec 32} (h : ReachedInLap ticks s) :
    TimeoutsSound ticks s := by
  obtain ⟨memory, h⟩ := h
  refine Reach.invariant h ⟨fun _ => ⟨?_, fun t => ?_, fun t d hd => ?_, fun t w d hw => ?_⟩, ?_⟩
    fun s a s' _ hs ha hstep => hs.step ha.1 ha.2 hstep
  · simp [startAt, onCore, start, Core.start]
  · simp [startAt, onCore, start, Core.start, c.taskTimers_init, HasTaskTimer]
  · cases hd
  · cases hw
  · simp [NoneEarly, startAt, onCore, start, Core.start]

/-- A task that goes on after its timeout is over returns from its call. -/
theorem TimeoutsSound.returns (hs : TimeoutsSound b s)
    (hd : (s.core.pc s.currentTask).deadline = some d) (hover : d.ends ≤ s.core.processed)
    (hlap : ComparesInLap .resume s) (hstep : State.step .resume s = some s') :
    s'.core.pc s.currentTask = .app := by
  obtain ⟨hnone, h⟩ := Option.ite_none_left_eq_some.mp hstep
  have htimed := hs.timed (by simpa using hnone)
  rcases resume_turn (Option.ite_none_right_eq_some.mp h).2 with
    ⟨w, hpc, -, hpeek, -⟩ | ⟨s₁, hback, hturn⟩
  · rw [hpc] at hd
    have hawaits := htimed.awaits s.currentTask w d hpc hd
    have hwoken := signalPeek_taskTimer.mpr (hawaits.woken hover)
    rw [hawaits.requested] at hpeek
    rw [hpeek] at hwoken
    cases hwoken
  · have hcurrent : s₁.currentTask = s.currentTask := hback.currentTask
    cases hturn with
    | done _ _ happ => exact hcurrent ▸ happ
    | wait hnone => rw [hnone] at hd; cases hd
    | giveUp d' => exact hcurrent ▸ hback.app
    | waitTimeout d' _ _ hd' hbefore =>
      -- the deadline it compares is that of its call, which is over
      have hsame : d = d' := Option.some.inj (hd.symm.trans (resumeCompares_deadline hd'))
      subst hsame
      have hlap' := hlap d hd'
      have hcalled := htimed.called s.currentTask d hd
      have hbefore' : s.before d = true := by
        unfold before at hbefore ⊢
        rwa [hback.ticks.1] at hbefore
      exact absurd ((before_iff htimed.clock hcalled hlap').mp hbefore') (not_lt.mpr hover)

/-- A step that compares a deadline with the clock takes a turn of a loop. -/
theorem turn_of_compares {a : Act c} (hstep : State.step a s = some s')
    (hd : s.stepCompares a = some d) : ∃ D s₁, BackIn s s₁ ∧ Turn D (some d) s₁ s' := by
  obtain ⟨hnone, h⟩ := Option.ite_none_left_eq_some.mp hstep
  cases a with
  | kernel a => cases hd
  | store address byte => cases hd
  | call f =>
    obtain ⟨hin, hcall⟩ := Option.ite_none_right_eq_some.mp h
    have happ := (inApp_iff.mp hin).2
    replace hd : s.callCompares f = some d := hd
    unfold callCompares at hd
    split at hd
    · rename_i q message n
      have hturn : Turn _ (s.compares (.messageQueuePutTimeout q message (s.deadline n))) s s' :=
        messageQueuePutTimeoutLoop_turn happ (Option.ite_none_left_eq_some.mp hcall).2
      rw [hd] at hturn
      exact ⟨_, s, ⟨.refl _, happ, rfl, rfl⟩, hturn⟩
    · rename_i q message n
      have hturn : Turn _ (s.compares (.messageQueueGetTimeout q message (s.deadline n))) s s' :=
        messageQueueGetTimeoutLoop_turn happ (Option.ite_none_left_eq_some.mp hcall).2
      rw [hd] at hturn
      exact ⟨_, s, ⟨.refl _, happ, rfl, rfl⟩, hturn⟩
    · cases hd
  | resume =>
    rcases resume_turn (Option.ite_none_right_eq_some.mp h).2 with
      ⟨w, hpc, hblocked, hpeek, -⟩ | ⟨s₁, hback, hturn⟩
    · have hreturn := signalWaitReturn_eq_none.mpr ⟨hblocked, hpeek⟩
      simp [stepCompares, resumeCompares, hpc, hreturn] at hd
    · exact ⟨_, s₁, hback, (show s.resumeCompares = some d from hd) ▸ hturn⟩

/-- In another lap, within `2 ^ 32` ticks, the comparison makes a call return too early, or wait
    although its timeout is over. -/
theorem TimeoutsSound.fails (hs : TimeoutsSound b s) {a : Act c} (hd : s.stepCompares a = some d)
    (hlap : ¬ s.InLap d) (hle : s.core.processed < d.ends + 2 ^ 32)
    (hstep : State.step a s = some s') (hhalted : s'.core.halted = none) :
    ¬ NoneEarly s'.core.history ∨
      (d.ends ≤ s.core.processed ∧ (s'.core.pc s.currentTask).deadline = some d) := by
  have hnone := (Option.ite_none_left_eq_some.mp hstep).1
  have htimed := hs.timed (by simpa using hnone)
  have hwrong := mt (before_iff_iff_inLap htimed.clock (stepCompares_called htimed hd) hle).mp hlap
  obtain ⟨D, s₁, hback, hturn⟩ := turn_of_compares hstep hd
  have hcurrent : s₁.currentTask = s.currentTask := hback.currentTask
  obtain ⟨hticks₁, hprocessed₁⟩ := hback.ticks
  have hbefore₁ : s₁.before d = s.before d := by rw [before, before, hticks₁]
  cases hturn with
  | done hC => cases hC
  | wait _ hC => cases hC
  | giveUp d' hC hbefore =>
    obtain rfl := Option.some.inj hC
    rw [hbefore₁] at hbefore
    have hearly : s.core.processed < d.ends := by simpa [hbefore] using hwrong
    refine .inl fun h => ?_
    have hends := h s₁.core.currentTask d s₁.core.processed List.mem_cons_self
    rw [hprocessed₁] at hends
    omega
  | @waitTimeout d' blocker cont s₂ hC hbefore hcore hcont =>
    obtain rfl := Option.some.inj hC
    rw [hbefore₁] at hbefore
    refine .inr ⟨by simpa [hbefore] using hwrong, ?_⟩
    rw [blockTimeout, onCore] at hhalted ⊢
    have hwait := (andThen_of_halted hhalted).2
    have htask := (timerOneshot_wakes (A := ∅) (ownTimer s₂.core) (s₁.remaining d) s₂.core).currentTask
    rw [hcore] at htask
    simp only [hwait, signalWaitSet_pc]
    rw [← hcurrent, hcore, show s₁.currentTask = s₁.core.currentTask from rfl, ← htask,
      Function.update_self]
    exact hcont

/-- A step returns false in no call whose timeout is not over, and goes on in a call whose timeout is
    over only to return from it. -/
structure Honours (a : Act c) (s s' : State c S) : Prop where
  noneEarly : NoneEarly s'.core.history
  returns : a = .resume → ∀ d, (s.core.pc s.currentTask).deadline = some d →
    d.ends ≤ s.core.processed → s'.core.pc s.currentTask = .app

/-- A call with a timeout is not over at once. -/
theorem not_over_of_call {f : Call c} (hstep : State.step (.call f) s = some s')
    (hd : s.callCompares f = some d) : s.core.processed < d.ends := by
  obtain ⟨-, h⟩ := Option.ite_none_left_eq_some.mp hstep
  obtain ⟨-, hcall⟩ := Option.ite_none_right_eq_some.mp h
  have hpos : ∀ n : BitVec 16, n ≠ 0 → s.core.processed < (s.deadline n).ends := by
    intro n hn
    have hzero : n.toNat ≠ 0 := fun h => hn (BitVec.eq_of_toNat_eq h)
    show s.core.processed < s.core.processed + n.toNat
    omega
  unfold callCompares at hd
  split at hd
  · obtain rfl := Option.some.inj (compares_cont hd)
    exact hpos _ fun h0 => (Option.ite_none_left_eq_some.mp hcall).1 (.inr h0)
  · obtain rfl := Option.some.inj (compares_cont hd)
    exact hpos _ fun h0 => (Option.ite_none_left_eq_some.mp hcall).1 (.inr h0)
  · cases hd

end State

open State

/-- While every deadline is compared with the clock in its lap, the timeouts are honoured. A step of
    such a run that compares a deadline within `2 ^ 32` ticks after its end, but not in its lap, does
    not honour it. -/
theorem timeouts_honoured (ticks : BitVec 32) (s : State c S) (h : s.ReachedInLap ticks) :
    NoneEarly s.core.history ∧
    (s.core.halted = none → ∀ t w d, s.core.pc t = .wait w → w.cont.deadline = some d →
      d.ends ≤ s.core.processed → s.core.taskTimerPending t) ∧
    ∀ a s', SparesTimers a → step a s = some s' →
      (ComparesInLap a s → Honours a s s') ∧
      (s'.core.halted = none →
        (∀ d, s.stepCompares a = some d → s.core.processed < d.ends + 2 ^ 32) →
        Honours a s s' → ComparesInLap a s) := by
  have hs := h.timeoutsSound
  refine ⟨hs.noneEarly, fun hhalted t w d hw hd => ((hs.timed hhalted).awaits t w d hw hd).woken,
    fun a s' hspares hstep => ⟨fun hlap => ?_, fun hhalted hle honours d hd => ?_⟩⟩
  · refine ⟨(hs.step hspares hlap hstep).noneEarly, ?_⟩
    rintro rfl d hd hover
    exact hs.returns hd hover hlap hstep
  · by_contra hlap
    rcases hs.fails hd hlap (hle d hd) hstep hhalted with hearly | ⟨hover, hdeadline⟩
    · exact hearly honours.noneEarly
    · cases a with
      | call f => exact absurd (not_over_of_call hstep hd) (not_lt.mpr hover)
      | resume =>
        rw [honours.returns rfl d (resumeCompares_deadline hd) hover] at hdeadline
        cases hdeadline
      | kernel | store => cases hd

/-- A task waits two ticks for a semaphore that nobody posts to. -/
def waitTwoTicks : List (Act (.plain 1 0 1 0 true false Nat.one_pos)) :=
  [Act.call (.sem (.waitTimeout 0 2)), .resume, .kernel .timerTick] ++ reschedule ++
    [Act.kernel .timerTick] ++ reschedule ++ [Act.resume]

/-- The clock shows two ticks less than its greatest value: a call for two ticks returns false after
    them. -/
theorem timeouts_honoured_twoTicks :
    ∃ s : State (.plain 1 0 1 0 true false Nat.one_pos) (kochabSched 1 0),
      s.core.history.any Event.isTimedOut = true ∧ NoneEarly s.core.history := by
  have hrun : (run step (fun a s => (s.stepCompares a).all fun d => s.InLap d) waitTwoTicks
      (startAt 4294967293 fun _ => 0 : State _ (kochabSched 1 0))).any
      (fun s => s.core.history.any Event.isTimedOut) = true := by
    decide +kernel
  have hspares : ∀ a ∈ waitTwoTicks, SparesTimers a := by simp [waitTwoTicks, reschedule, SparesTimers]
  obtain ⟨s, hs, hp⟩ : ∃ s, Reach step (fun a s => SparesTimers a ∧ ComparesInLap a s) _ s ∧ _ :=
    exists_reach_of_run (fun a ha s hcheck =>
      ⟨hspares a ha, fun d hd => by simpa [hd] using hcheck⟩) hrun
  exact ⟨s, hp, (timeouts_honoured 4294967293 s ⟨_, hs⟩).1⟩

/-- A call that returned before its deadline. -/
def Event.isEarly : Event c → Bool
  | .timedOut _ d now => now < d.ends
  | _ => false

/-- When the clock shows its greatest value, a call for two ticks returns false at once. -/
theorem not_timeouts_honoured_wrap :
    ¬ ∀ (ticks : BitVec 32) (s : State (.plain 1 0 1 0 true false Nat.one_pos) (kochabSched 1 0)),
      (∃ memory, Reach step (fun a _ => SparesTimers a) (startAt ticks memory) s) →
        NoneEarly s.core.history := by
  intro hnone
  have hrun : (run step (fun _ _ => true) [.call (.sem (.waitTimeout 0 2)), .resume]
      (startAt 4294967295 fun _ => 0 : State (.plain 1 0 1 0 true false Nat.one_pos)
        (kochabSched 1 0))).any (fun s => s.core.history.any Event.isEarly) = true := by
    decide +kernel
  obtain ⟨s, hs, hp⟩ : ∃ s, Reach step (fun a _ => SparesTimers a) _ s ∧ _ :=
    exists_reach_of_run (fun a ha s _ => by
      simp only [List.mem_cons, List.not_mem_nil, or_false] at ha
      rcases ha with rfl | rfl <;> trivial) hrun
  obtain ⟨e, hmem, he⟩ := List.any_eq_true.mp hp
  cases e with
  | timedOut t d now =>
    exact absurd (hnone _ s ⟨_, hs⟩ t d now hmem) (not_le.mpr (of_decide_eq_true he))
  | _ => cases he

end Echronos
