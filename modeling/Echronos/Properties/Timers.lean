import Echronos.Kernel.Expiries
import Echronos.Properties.Clock
import Echronos.Variants.PrioInherit

/-! # Timers expire when they are due

    `expiry` is compared for equality with the clock modulo `2 ^ 16`. A timer that is due within the
    next `2 ^ 16 - 1` ticks therefore expires at the tick it is due at and at no tick before, and a
    periodic timer is due again one period after it has expired. -/

namespace Echronos

open Schemes

variable {c : Config} {S : Sched c.tasks c.mutexes}

/-- Two timers are alike as far as their expiry is concerned. -/
def Timer.SameTimes {tasks signalsetSize : ℕ} (tm tm' : Timer tasks signalsetSize) : Prop :=
  tm'.enabled = tm.enabled ∧ tm'.expiry = tm.expiry ∧ tm'.reload = tm.reload

namespace Core

/-! ### The turn of one timer -/

/-- The state in which `timer_tick_process`, called in `k` with a tick pending, comes to timer `i`. -/
def atTurn (i : c.TimerId) (k : Core c S) : Core c S :=
  let k := { k with
    timerPendingTicks := 0
    timerCurrentTicks := k.timerCurrentTicks + 1
    processed := k.processed + 1 }
  ((List.finRange c.timers).take i).foldl (tickTurn (currentTimeout k)) k

/-- `timer_tick_process`, called in `k`, processes a tick, and calls no `fatal_error` before it comes
    to timer `i`. -/
def ReachesTurn (i : c.TimerId) (k : Core c S) : Prop :=
  k.timerPendingTicks = 1 ∧ (atTurn i k).halted = none

/-- Timer `i` performs its expiry action in its turn. -/
def ExpiresInTurn (i : c.TimerId) (k : Core c S) : Prop :=
  timerExpired ((atTurn i k).timers i) (currentTimeout (atTurn i k)) = true

instance {i : c.TimerId} {k : Core c S} : Decidable (ExpiresInTurn i k) :=
  inferInstanceAs (Decidable (_ = true))

theorem tickTurn_timers_of_ne {i j : c.TimerId} (h : j ≠ i) (timeout : BitVec 16) (k : Core c S) :
    (tickTurn timeout k i).timers j = k.timers j := by
  unfold tickTurn andThen
  split
  · rfl
  · dsimp only
    split
    · exact timerProcessOne_timers_of_ne h k
    · rfl

theorem foldl_tickTurn_timers {timeout : BitVec 16} {j : c.TimerId} :
    ∀ {l : List c.TimerId} {k : Core c S}, j ∉ l →
      (l.foldl (tickTurn timeout) k).timers j = k.timers j
  | [], _, _ => rfl
  | i :: l, k, h => by
    obtain ⟨hi, hl⟩ := not_or.mp (mt List.mem_cons.mpr h)
    rw [List.foldl_cons, foldl_tickTurn_timers hl, tickTurn_timers_of_ne hi]

theorem foldl_tickTurn_clock {timeout : BitVec 16} (l : List c.TimerId) (k : Core c S) :
    (l.foldl (tickTurn timeout) k).clock = k.clock :=
  foldl_invariant (p := fun k' => k'.clock = k.clock)
    (fun k' i hk' => (tickTurn_clock timeout k' i).trans hk') l k rfl

/-- The timers before timer `i`, timer `i`, and the timers after it. -/
theorem finRange_split (i : c.TimerId) : ∃ after, i ∉ (List.finRange c.timers).take i ∧ i ∉ after ∧
    List.finRange c.timers = (List.finRange c.timers).take i ++ i :: after := by
  have hlt : i.val < (List.finRange c.timers).length := by simp
  have hsplit : List.finRange c.timers =
      (List.finRange c.timers).take i ++ i :: (List.finRange c.timers).drop (i + 1) := by
    have hdrop := List.drop_eq_getElem_cons hlt
    rw [List.getElem_finRange] at hdrop
    conv_lhs => rw [← List.take_append_drop i.val (List.finRange c.timers), hdrop]
    simp
  have hnodup := List.nodup_finRange c.timers
  rw [hsplit] at hnodup
  obtain ⟨hbefore, hafter⟩ := not_or.mp
    (mt List.mem_append.mpr (List.nodup_cons.mp (List.nodup_middle.mp hnodup)).1)
  exact ⟨_, hbefore, hafter, hsplit⟩

theorem atTurn_clock (i : c.TimerId) (k : Core c S) :
    (atTurn i k).clock = (k.timerCurrentTicks + 1, 0, k.processed + 1) :=
  foldl_tickTurn_clock _ _

theorem atTurn_timers (i : c.TimerId) (k : Core c S) : (atTurn i k).timers i = k.timers i := by
  obtain ⟨-, hbefore, -⟩ := finRange_split i
  exact foldl_tickTurn_timers hbefore

/-- `timer_tick_process` as the turn of timer `i` and those of other timers. -/
theorem timerTickProcess_turn (i : c.TimerId) {k : Core c S} (h : k.timerPendingTicks = 1) :
    ∃ after : List c.TimerId, i ∉ after ∧ timerTickProcess k =
      after.foldl (tickTurn (currentTimeout (atTurn i k)))
        (tickTurn (currentTimeout (atTurn i k)) (atTurn i k) i) := by
  obtain ⟨after, -, hafter, hsplit⟩ := finRange_split i
  have htimeout : currentTimeout (atTurn i k) = (k.timerCurrentTicks + 1).setWidth 16 :=
    congrArg (fun clock : BitVec 32 × ℕ × ℕ => clock.1.setWidth 16) (atTurn_clock i k)
  refine ⟨after, hafter, ?_⟩
  rw [timerTickProcess_of_one h, scan, hsplit, List.foldl_append, List.foldl_cons, htimeout]
  rfl

/-- In its turn the timer expires, or nothing happens. -/
theorem ReachesTurn.timerTickProcess {i : c.TimerId} {k : Core c S} (h : ReachesTurn i k) :
    ∃ after : List c.TimerId, i ∉ after ∧ Core.timerTickProcess k =
      after.foldl (tickTurn (currentTimeout (atTurn i k)))
        (if ExpiresInTurn i k then timerProcessOne i (atTurn i k) else atTurn i k) := by
  obtain ⟨hpending, hhalted⟩ := h
  obtain ⟨after, hafter, heq⟩ := timerTickProcess_turn i hpending
  have hturn : ¬ (atTurn i k).halted.isSome = true := by simp [hhalted]
  refine ⟨after, hafter, ?_⟩
  rw [heq, tickTurn, andThen, if_neg hturn]
  rfl

/-- A timer that expires is re-armed or disabled. -/
theorem timerProcessOne_timers (i : c.TimerId) (k : Core c S) :
    (rearm (k.timers i)).SameTimes ((timerProcessOne i k).timers i) := by
  unfold timerProcessOne Timer.SameTimes
  dsimp only
  split
  · simp [halt, setTimer]
  · split
    · simp [halt, setTimer]
    · split <;> simp [signalSendSet, unblock, setTimer]

/-! ### When a timer is due -/

/-- The clock modulo `2 ^ 16` is `b` ahead of the number of processed ticks. -/
def Ahead (b : BitVec 16) (k : Core c S) : Prop :=
  currentTimeout k = b + BitVec.ofNat 16 k.processed

/-- Timer `i` is next due at tick `n`. -/
structure Due (b : BitVec 16) (i : c.TimerId) (n : ℕ) (k : Core c S) : Prop where
  enabled : (k.timers i).enabled = true
  expiry : (k.timers i).expiry = b + BitVec.ofNat 16 n
  lt : k.processed < n
  le : n < k.processed + 2 ^ 16

variable {k k' : Core c S} {b : BitVec 16} {i : c.TimerId} {n : ℕ}

/-- A timer expires at the tick it is due at, and not before. -/
theorem Due.expired (h : Due b i n k) :
    timerExpired (k.timers i) (b + BitVec.ofNat 16 (k.processed + 1)) = true ↔
      k.processed + 1 = n := by
  have hlt := h.lt
  have hle := h.le
  rw [timerExpired, h.enabled, Bool.true_and, beq_iff_eq, h.expiry, BitVec.add_right_inj,
    ← BitVec.toNat_inj]
  simp only [BitVec.toNat_ofNat]
  omega

/-- A periodic timer is due again one period after it has expired. -/
theorem Due.rearm (h : Due b i n k) (hreload : (k.timers i).reload ≠ 0)
    (htimer : (rearm (k.timers i)).SameTimes (k'.timers i)) (hprocessed : k'.processed = n) :
    Due b i (n + (k.timers i).reload.toNat) k' ∧ (k'.timers i).reload = (k.timers i).reload := by
  have hpos : 0 < (k.timers i).reload := (BitVec.pos_iff_ne_zero _).mpr hreload
  have hlt := (k.timers i).reload.isLt
  have hne : (k.timers i).reload.toNat ≠ 0 := fun h => hreload (BitVec.eq_of_toNat_eq h)
  have hrearm : Core.rearm (k.timers i) =
      { k.timers i with expiry := (k.timers i).expiry + (k.timers i).reload } := if_pos hpos
  rw [hrearm] at htimer
  obtain ⟨henabled, hexpiry, hsame⟩ := htimer
  refine ⟨⟨henabled.trans h.enabled, ?_, by omega, by omega⟩, hsame⟩
  rw [hexpiry]
  show (k.timers i).expiry + (k.timers i).reload = _
  rw [h.expiry, BitVec.ofNat_add, BitVec.ofNat_toNat, BitVec.setWidth_eq, BitVec.add_assoc]

theorem Ahead.congr (h : Ahead b k) (hclock : k'.clock = k.clock) : Ahead b k' := by
  simp only [clock, Prod.mk.injEq] at hclock
  rw [Ahead, currentTimeout, hclock.1, hclock.2.2]
  exact h

/-- A tick is counted. -/
theorem Ahead.count (h : Ahead b k)
    (hclock : k'.clock = (k.timerCurrentTicks + 1, 0, k.processed + 1)) : Ahead b k' := by
  simp only [clock, Prod.mk.injEq] at hclock
  rw [Ahead, currentTimeout, hclock.1, hclock.2.2, BitVec.setWidth_add _ _ (by decide),
    BitVec.ofNat_add, ← BitVec.add_assoc]
  exact congrArg (· + 1) h

theorem Ahead.atTurn (h : Ahead b k) (i : c.TimerId) :
    currentTimeout (atTurn i k) = b + BitVec.ofNat 16 (k.processed + 1) := by
  have hturn := h.count (atTurn_clock i k)
  have hprocessed : (Core.atTurn i k).processed = k.processed + 1 :=
    congrArg (fun clock : BitVec 32 × ℕ × ℕ => clock.2.2) (atTurn_clock i k)
  rw [hturn, hprocessed]

/-- Without a tick nothing is processed. -/
theorem timerTickProcess_of_ne_one (hpending : k.timerPendingTicks ≠ 1)
    (hhalted : (timerTickProcess k).halted = none) :
    timerTickProcess k = { k with timerPendingTicks := 0 } := by
  unfold timerTickProcess at hhalted ⊢
  split_ifs at hhalted ⊢ with hmore hzero
  · simp [halt] at hhalted
  · rfl
  · omega

theorem timerTickProcess_clock (hpending : k.timerPendingTicks = 1) :
    (timerTickProcess k).clock = (k.timerCurrentTicks + 1, 0, k.processed + 1) := by
  rw [timerTickProcess_of_one hpending]
  exact foldl_tickTurn_clock _ _

/-- What processing a tick does to a timer: it expires, or nothing happens to it. -/
theorem timerTickProcess_timers (hb : Ahead b k) (hpending : k.timerPendingTicks = 1)
    (hhalted : (timerTickProcess k).halted = none) :
    if timerExpired (k.timers i) (b + BitVec.ofNat 16 (k.processed + 1)) = true then
      (rearm (k.timers i)).SameTimes ((timerTickProcess k).timers i)
    else (timerTickProcess k).timers i = k.timers i := by
  obtain ⟨after, hafter, heq⟩ := timerTickProcess_turn i hpending
  rw [heq] at hhalted
  have hturn : ¬ (atTurn i k).halted.isSome = true := by
    simp [halted_of_tickTurn (halted_of_foldl hhalted)]
  rw [heq, foldl_tickTurn_timers hafter, tickTurn, andThen, if_neg hturn, hb.atTurn, atTurn_timers]
  split_ifs
  · have hprocess := timerProcessOne_timers i (atTurn i k)
    rw [atTurn_timers] at hprocess
    exact hprocess
  · exact atTurn_timers i k

end Core

namespace State

open Echronos.Core

/-- Only `timer_tick_process` does anything to timer `i`. -/
def Leaves (i : c.TimerId) (a : Act c) (s : State c S) : Prop :=
  a ≠ .kernel .timerTickProcess → ∀ s', step a s = some s' → s'.core.timers i = s.core.timers i

variable {s s' : State c S} {b : BitVec 16} {i : c.TimerId} {n : ℕ}

/-- Only `timer_tick_process` moves the clock. -/
theorem step_ticks {a : Act c} (hstep : step a s = some s') (ha : a ≠ .kernel .timerTickProcess) :
    s'.core.timerCurrentTicks = s.core.timerCurrentTicks ∧ s'.core.processed = s.core.processed := by
  by_cases htick : a = .kernel .timerTick
  · subst htick
    obtain ⟨-, h⟩ := Option.ite_none_left_eq_some.mp hstep
    obtain rfl := Option.some.inj h
    show (timerTick s.core).timerCurrentTicks = _ ∧ (timerTick s.core).processed = _
    unfold timerTick
    split <;> exact ⟨rfl, rfl⟩
  · have hclock := step_clock hstep htick ha
    simp only [clock, Prod.mk.injEq] at hclock
    exact ⟨hclock.1, hclock.2.2⟩

/-- A step, as timer `i` sees it: a tick is processed, or timer and clock stay as they are. -/
theorem step_timer {a : Act c} (hb : Ahead b s.core) (ha : Leaves i a s)
    (hstep : step a s = some s') (hhalted : s'.core.halted = none) : Ahead b s'.core ∧
    ((s'.core.processed = s.core.processed ∧ s'.core.timers i = s.core.timers i) ∨
      (s'.core.processed = s.core.processed + 1 ∧
        if timerExpired (s.core.timers i) (b + BitVec.ofNat 16 (s.core.processed + 1)) = true then
          (rearm (s.core.timers i)).SameTimes (s'.core.timers i)
        else s'.core.timers i = s.core.timers i)) := by
  by_cases hprocess : a = .kernel .timerTickProcess
  · subst hprocess
    obtain ⟨-, h⟩ := Option.ite_none_left_eq_some.mp hstep
    obtain ⟨k, hk, rfl⟩ := Option.map_eq_some_iff.mp h
    obtain ⟨-, ⟨⟩⟩ := Option.ite_none_right_eq_some.mp hk
    have hhalted : (timerTickProcess s.core).halted = none := hhalted
    by_cases hpending : s.core.timerPendingTicks = 1
    · have hclock := timerTickProcess_clock hpending
      have hprocessed : (timerTickProcess s.core).processed = s.core.processed + 1 :=
        congrArg (fun clock : BitVec 32 × ℕ × ℕ => clock.2.2) hclock
      exact ⟨hb.count hclock, .inr ⟨hprocessed, timerTickProcess_timers hb hpending hhalted⟩⟩
    · rw [timerTickProcess_of_ne_one hpending hhalted]
      exact ⟨hb, .inl ⟨rfl, rfl⟩⟩
  · obtain ⟨hticks, hprocessed⟩ := step_ticks hstep hprocess
    refine ⟨?_, .inl ⟨hprocessed, ha hprocess s' hstep⟩⟩
    rw [Ahead, currentTimeout, hticks, hprocessed]
    exact hb

/-! ### Runs -/

/-- In a run from `s₁` in which nothing else is done to timer `i`, its turns in the processing of
    ticks are expiries exactly at the ticks in `due`. -/
def ExpiresAt (i : c.TimerId) (s₁ : State c S) (due : ℕ → Prop) : Prop :=
  ∀ s, Reach step (Leaves i) s₁ s → s.core.halted = none → ReachesTurn i s.core →
    (ExpiresInTurn i s.core ↔ due (s.core.processed + 1))

/-- Timer `i` is disabled once tick `n` has been processed. -/
def DisabledFrom (i : c.TimerId) (s₁ : State c S) (n : ℕ) : Prop :=
  ∀ s, Reach step (Leaves i) s₁ s → s.core.halted = none → n ≤ s.core.processed →
    (s.core.timers i).enabled = false

/-- The clock and the times of timer `i` are those that a call has left. -/
def SameTimer (i : c.TimerId) (k k' : Core c S) : Prop :=
  (k.timers i).SameTimes (k'.timers i) ∧ k'.clock = k.clock

theorem expiresInTurn_iff (hb : Ahead b s.core) :
    ExpiresInTurn i s.core ↔
      timerExpired (s.core.timers i) (b + BitVec.ofNat 16 (s.core.processed + 1)) = true := by
  rw [ExpiresInTurn, atTurn_timers, hb.atTurn]

/-- What a step preserves while the system runs, a run preserves. -/
theorem reach_running {s₁ : State c S} {P : State c S → Prop} (h : Reach step (Leaves i) s₁ s)
    (hstart : P s₁) (hstep : ∀ s a s', P s → Leaves i a s → step a s = some s' →
      s'.core.halted = none → P s') (hhalted : s.core.halted = none) : P s := by
  refine h.invariant (I := fun s => s.core.halted = none → P s) (fun _ => hstart)
    (fun s a s' _ hs ha hnext hhalted' => ?_) hhalted
  have hrun : s.core.halted = none := by
    simpa using (Option.ite_none_left_eq_some.mp hnext).1
  exact hstep s a s' (hs hrun) ha hnext hhalted'

/-- A timer that is due once: it is disabled when it has expired. -/
structure Once (b : BitVec 16) (i : c.TimerId) (n : ℕ) (s : State c S) : Prop where
  clock : Ahead b s.core
  due : s.core.processed < n → Due b i n s.core ∧ (s.core.timers i).reload = 0
  disabled : n ≤ s.core.processed → (s.core.timers i).enabled = false

theorem Once.step {a : Act c} (h : Once b i n s) (ha : Leaves i a s)
    (hstep : State.step a s = some s') (hhalted : s'.core.halted = none) : Once b i n s' := by
  obtain ⟨hclock, ⟨hprocessed, htimer⟩ | ⟨hprocessed, htimer⟩⟩ := step_timer h.clock ha hstep hhalted
  · refine ⟨hclock, fun hlt => ?_, fun hle => ?_⟩
    · obtain ⟨hdue, hreload⟩ := h.due (hprocessed ▸ hlt)
      exact ⟨⟨htimer ▸ hdue.enabled, htimer ▸ hdue.expiry, hlt, hprocessed ▸ hdue.le⟩,
        htimer ▸ hreload⟩
    · exact htimer ▸ h.disabled (hprocessed ▸ hle)
  · by_cases hlt : s.core.processed < n
    · obtain ⟨hdue, hreload⟩ := h.due hlt
      simp only [hdue.expired] at htimer
      split_ifs at htimer with hnow
      · refine ⟨hclock, fun hlt' => by omega, fun _ => htimer.1.trans ?_⟩
        rw [rearm, hreload, if_neg (by decide)]
      · refine ⟨hclock, fun hlt' => ?_, fun hle => by omega⟩
        exact ⟨⟨htimer ▸ hdue.enabled, htimer ▸ hdue.expiry, hlt', by have := hdue.le; omega⟩,
          htimer ▸ hreload⟩
    · have hdisabled := h.disabled (not_lt.mp hlt)
      rw [timerExpired, hdisabled, Bool.false_and, if_neg (by decide)] at htimer
      exact ⟨hclock, fun hlt' => by omega, fun _ => htimer ▸ hdisabled⟩

theorem Once.expiresInTurn (h : Once b i n s) :
    ExpiresInTurn i s.core ↔ s.core.processed + 1 = n := by
  rw [expiresInTurn_iff h.clock]
  by_cases hlt : s.core.processed < n
  · exact (h.due hlt).1.expired
  · rw [timerExpired, h.disabled (not_lt.mp hlt), Bool.false_and]
    exact ⟨fun hexpired => absurd hexpired Bool.false_ne_true, fun heq => by omega⟩

theorem Once.run {s₁ : State c S} (h : Once b i n s₁) :
    ExpiresAt i s₁ (· = n) ∧ DisabledFrom i s₁ n := by
  have hrun : ∀ s, Reach State.step (Leaves i) s₁ s → s.core.halted = none → Once b i n s :=
    fun s hs => reach_running hs h fun _ _ _ hs ha hstep hhalted => hs.step ha hstep hhalted
  exact ⟨fun s hs hhalted _ => (hrun s hs hhalted).expiresInTurn,
    fun s hs hhalted hle => (hrun s hs hhalted).disabled hle⟩

/-- A periodic timer that was started after `start` processed ticks. -/
structure Periodic (b : BitVec 16) (i : c.TimerId) (start : ℕ) (r : BitVec 16) (s : State c S) :
    Prop where
  clock : Ahead b s.core
  reload : (s.core.timers i).reload = r
  due : ∃ j, Due b i (start + (j + 1) * r.toNat) s.core ∧ start + j * r.toNat ≤ s.core.processed

theorem Periodic.step {start : ℕ} {r : BitVec 16} {a : Act c} (h : Periodic b i start r s)
    (hr : r ≠ 0) (ha : Leaves i a s) (hstep : State.step a s = some s')
    (hhalted : s'.core.halted = none) : Periodic b i start r s' := by
  obtain ⟨j, hdue, hle⟩ := h.due
  obtain ⟨hclock, ⟨hprocessed, htimer⟩ | ⟨hprocessed, htimer⟩⟩ := step_timer h.clock ha hstep hhalted
  · refine ⟨hclock, htimer ▸ h.reload, j, ?_, hprocessed ▸ hle⟩
    exact ⟨htimer ▸ hdue.enabled, htimer ▸ hdue.expiry, hprocessed ▸ hdue.lt, hprocessed ▸ hdue.le⟩
  · simp only [hdue.expired] at htimer
    split_ifs at htimer with hnow
    · obtain ⟨hnext, hreload⟩ := hdue.rearm (h.reload ▸ hr) htimer (hprocessed.trans hnow)
      refine ⟨hclock, hreload.trans h.reload, j + 1, ?_, by omega⟩
      rwa [h.reload, Nat.add_assoc, ← Nat.succ_mul] at hnext
    · refine ⟨hclock, htimer ▸ h.reload, j, ?_, by omega⟩
      have hlt := hdue.lt
      have hle := hdue.le
      exact ⟨htimer ▸ hdue.enabled, htimer ▸ hdue.expiry, by omega, by omega⟩

theorem Periodic.expiresInTurn {start : ℕ} {r : BitVec 16} (h : Periodic b i start r s) :
    ExpiresInTurn i s.core ↔ ∃ j, 1 ≤ j ∧ s.core.processed + 1 = start + j * r.toNat := by
  obtain ⟨j, hdue, hle⟩ := h.due
  rw [expiresInTurn_iff h.clock, hdue.expired]
  constructor
  · intro hnow
    exact ⟨j + 1, Nat.le_add_left 1 j, hnow⟩
  · rintro ⟨m, -, hm⟩
    have hlt := hdue.lt
    have hnext : (j + 1) * r.toNat = j * r.toNat + r.toNat := Nat.succ_mul j r.toNat
    have hlast : (j + 2) * r.toNat = (j + 1) * r.toNat + r.toNat := Nat.succ_mul (j + 1) r.toNat
    have hjm : j < m := Nat.lt_of_mul_lt_mul_right (a := r.toNat) (by omega)
    have hmj : m < j + 2 := Nat.lt_of_mul_lt_mul_right (a := r.toNat) (by omega)
    obtain rfl : m = j + 1 := by omega
    exact hm

theorem Periodic.run {start : ℕ} {r : BitVec 16} {s₁ : State c S} (h : Periodic b i start r s₁)
    (hr : r ≠ 0) : ExpiresAt i s₁ (fun n => ∃ j, 1 ≤ j ∧ n = start + j * r.toNat) := by
  intro s hs hhalted _
  have hrun : Periodic b i start r s :=
    reach_running hs h (fun _ _ _ hs ha hstep hhalted => hs.step hr ha hstep hhalted) hhalted
  exact hrun.expiresInTurn

/-! ### What starts a timer -/

/-- How far the clock is ahead of the number of processed ticks. -/
def lead (k : Core c S) : BitVec 16 := currentTimeout k - BitVec.ofNat 16 k.processed

theorem ahead_lead (k : Core c S) : Ahead (lead k) k := (BitVec.sub_add_cancel _ _).symm

variable {k : Core c S} {r : BitVec 16} {s₁ : State c S}

theorem SameTimer.ahead {k' : Core c S} (h : SameTimer i k' s₁.core) (hclock : k'.clock = k.clock) :
    Ahead (lead k) s₁.core ∧ s₁.core.processed = k.processed :=
  ⟨(ahead_lead k).congr (h.2.trans hclock),
    congrArg (fun clock : BitVec 32 × ℕ × ℕ => clock.2.2) (h.2.trans hclock)⟩

/-- A timer set to expire `r` ticks from now is due then. -/
theorem due_of_set (hr : r ≠ 0) (hprocessed : s₁.core.processed = k.processed)
    (henabled : (s₁.core.timers i).enabled = true)
    (hexpiry : (s₁.core.timers i).expiry = currentTimeout k + r) :
    Due (lead k) i (k.processed + r.toNat) s₁.core := by
  have hne : r.toNat ≠ 0 := fun h => hr (BitVec.eq_of_toNat_eq h)
  have hlt := r.isLt
  refine ⟨henabled, ?_, by omega, by omega⟩
  rw [hexpiry, BitVec.ofNat_add, BitVec.ofNat_toNat, BitVec.setWidth_eq, ← BitVec.add_assoc]
  exact congrArg (· + r) (ahead_lead k)

theorem Once.of_timerOneshot (hk : k.halted = none) (hr : r ≠ 0)
    (h : SameTimer i (timerOneshot i r k) s₁.core) :
    Once (lead k) i (k.processed + r.toNat) s₁ := by
  obtain ⟨hclock, hprocessed⟩ := h.ahead (timerOneshot_clock i r k)
  obtain ⟨henabled, hexpiry, hreload⟩ := h.1
  rw [timerOneshot_of_ne_zero hr hk] at henabled hexpiry hreload
  simp only [setTimer, Function.update_self] at henabled hexpiry hreload
  have hdue := due_of_set hr hprocessed henabled hexpiry
  exact ⟨hclock, fun _ => ⟨hdue, hreload⟩, fun hle => absurd hdue.lt (not_lt.mpr hle)⟩

theorem Periodic.of_timerEnable (hr : (k.timers i).reload ≠ 0)
    (h : SameTimer i (timerEnable i k) s₁.core) :
    Periodic (lead k) i k.processed (k.timers i).reload s₁ := by
  obtain ⟨hclock, hprocessed⟩ := h.ahead (timerEnable_clock i k)
  obtain ⟨henabled, hexpiry, hreload⟩ := h.1
  rw [timerEnable, if_neg hr] at henabled hexpiry hreload
  simp only [setTimer, Function.update_self] at henabled hexpiry hreload
  have hdue := due_of_set hr hprocessed henabled hexpiry
  exact ⟨hclock, hreload, 0, by simpa using hdue, by omega⟩

/-- A timer that is configured to be enabled. -/
theorem Periodic.of_start {errorId : ℕ} {taskId : Option c.TaskId} {signalSet : c.SignalSet}
    (hr : r ≠ 0) (hi : c.timersInit i = .generated true r errorId taskId signalSet)
    (memory : Memory) : Periodic 0 i 0 r (start memory : State c S) := by
  have htimer : (start memory : State c S).core.timers i = .generated true r errorId taskId signalSet :=
    hi
  have hne : r.toNat ≠ 0 := fun h => hr (BitVec.eq_of_toNat_eq h)
  have hlt := r.isLt
  refine ⟨rfl, by rw [htimer]; rfl, 0, ⟨by rw [htimer]; rfl, ?_, ?_, ?_⟩, ?_⟩
  · rw [htimer]
    simp [Timer.generated]
  · show 0 < _
    omega
  · show _ < 0 + 2 ^ 16
    omega
  · simp

/-- A disabled timer stays so. -/
theorem never_expires (hclock : Ahead b s₁.core) (h : (s₁.core.timers i).enabled = false) :
    ExpiresAt i s₁ (fun _ => False) ∧ DisabledFrom i s₁ 0 := by
  obtain ⟨hexpires, hdisabled⟩ := (Once.mk (n := 0) hclock nofun fun _ => h).run
  exact ⟨fun s hs hhalted hturn =>
    (hexpires s hs hhalted hturn).trans (iff_false_intro (Nat.succ_ne_zero _)), hdisabled⟩

/-- A timer without a reload value is disabled when it expires. -/
theorem timerProcessOne_enabled (hreload : (k.timers i).reload = 0) :
    ((timerProcessOne i k).timers i).enabled = false := by
  rw [(timerProcessOne_timers i k).1, rearm, hreload, if_neg (by decide)]

theorem timerOneshot_zero_eq (i : c.TimerId) (k : Core c S) : timerOneshot i 0 k =
    andThen (timerReloadSet i 0) (timerProcessOne i (timerReloadSet i 0 k)) := by
  rw [timerOneshot, timerEnable, if_pos (by simp [timerReloadSet, setTimer])]

theorem timerOneshot_zero_enabled (i : c.TimerId) (k : Core c S) :
    ((timerOneshot i 0 k).timers i).enabled = false := by
  have hdisabled := timerProcessOne_enabled (i := i) (k := timerReloadSet i 0 k)
    (by simp [timerReloadSet, setTimer])
  rw [timerOneshot_zero_eq, andThen]
  split_ifs
  · exact hdisabled
  · simpa [timerReloadSet, setTimer] using hdisabled

end State

open State

/-- A one-shot timer expires at the tick it is set for and at no other, a periodic timer exactly
    every period, and a timer set to expire after no ticks at all does so in the call. -/
theorem timer_expires_when_due (i : c.TimerId) :
    -- what its turn in `timer_tick_process` is
    (∀ k : Core c S, Core.ReachesTurn i k → ∃ after : List c.TimerId, i ∉ after ∧
      Core.timerTickProcess k = after.foldl (Core.tickTurn (Core.currentTimeout (Core.atTurn i k)))
        (if Core.ExpiresInTurn i k then Core.timerProcessOne i (Core.atTurn i k) else Core.atTurn i k)) ∧
    -- `timer_oneshot`
    (∀ (k : Core c S) (r : BitVec 16) (s₁ : State c S), k.halted = none → r ≠ 0 →
      SameTimer i (Core.timerOneshot i r k) s₁.core →
        ExpiresAt i s₁ (fun n => n = k.processed + r.toNat) ∧
        DisabledFrom i s₁ (k.processed + r.toNat)) ∧
    (∀ k : Core c S, Core.timerOneshot i 0 k = Core.andThen (Core.timerReloadSet i 0)
        (Core.timerProcessOne i (Core.timerReloadSet i 0 k)) ∧
      ∀ s₁ : State c S, SameTimer i (Core.timerOneshot i 0 k) s₁.core →
        ExpiresAt i s₁ (fun _ => False) ∧ DisabledFrom i s₁ 0) ∧
    -- `timer_enable`
    (∀ (k : Core c S) (s₁ : State c S), (k.timers i).reload ≠ 0 →
      SameTimer i (Core.timerEnable i k) s₁.core →
        ExpiresAt i s₁ (fun n => ∃ j, 1 ≤ j ∧ n = k.processed + j * (k.timers i).reload.toNat)) ∧
    (∀ k : Core c S, (k.timers i).reload = 0 → Core.timerEnable i k = Core.timerProcessOne i k ∧
      ∀ s₁ : State c S, SameTimer i (Core.timerEnable i k) s₁.core →
        ExpiresAt i s₁ (fun _ => False) ∧ DisabledFrom i s₁ 0) ∧
    -- a timer that is configured to be enabled
    (∀ (r : BitVec 16) (errorId : ℕ) (taskId : Option c.TaskId) (signalSet : c.SignalSet)
      (memory : Memory), r ≠ 0 → c.timersInit i = .generated true r errorId taskId signalSet →
        ExpiresAt i (State.start memory : State c S) (fun n => ∃ j, 1 ≤ j ∧ n = j * r.toNat)) := by
  refine ⟨fun k h => h.timerTickProcess, fun k r s₁ hk hr h => (Once.of_timerOneshot hk hr h).run,
    fun k => ⟨timerOneshot_zero_eq i k, fun s₁ h => ?_⟩,
    fun k s₁ hr h => (Periodic.of_timerEnable hr h).run hr,
    fun k hreload => ⟨if_pos hreload, fun s₁ h => ?_⟩,
    fun r errorId taskId signalSet memory hr hi => ?_⟩
  · exact never_expires (h.ahead (Core.timerOneshot_clock i 0 k)).1
      (h.1.1.trans (timerOneshot_zero_enabled i k))
  · have henabled : ((Core.timerEnable i k).timers i).enabled = false := by
      rw [Core.timerEnable, if_pos hreload]
      exact timerProcessOne_enabled hreload
    exact never_expires (h.ahead (Core.timerEnable_clock i k)).1 (h.1.1.trans henabled)
  · have hperiodic := (Periodic.of_start (S := S) hr hi memory).run hr
    simpa using hperiodic

/-- The timer of the only task is set to one tick; when that tick is processed, it expires. -/
theorem timer_expires_when_due_oneshot :
    ∃ s : State (.plain 1 0 0 0 true false Nat.one_pos) (kochabSched 1 0),
      s.core.processed = 0 ∧ Core.ReachesTurn 0 s.core ∧ Core.ExpiresInTurn 0 s.core := by
  let k : Core (.plain 1 0 0 0 true false Nat.one_pos) (kochabSched 1 0) := Core.start
  let s₁ := (State.start fun _ => 0).onCore fun _ => Core.timerOneshot 0 1 k
  have hrun : (run step (fun a s => (step a s).all fun s' => s'.core.timers 0 = s.core.timers 0)
      [.kernel .timerTick, .kernel .preempt, .kernel .interruptEventProcess] s₁).any
      (fun s => s.core.processed = 0 ∧ s.core.halted.isNone ∧ s.core.timerPendingTicks = 1 ∧
        (Core.atTurn 0 s.core).halted.isNone) = true := by
    decide +kernel
  obtain ⟨s, hs, hp⟩ : ∃ s, Reach step (Leaves 0) s₁ s ∧ _ := exists_reach_of_run
    (fun a _ s hcheck _ s' hstep => by simpa [hstep] using hcheck) hrun
  obtain ⟨hprocessed, hhalted, hpending, hturn⟩ := of_decide_eq_true hp
  have hreaches : Core.ReachesTurn 0 s.core := ⟨hpending, by simpa using hturn⟩
  have hexpires := ((timer_expires_when_due 0).2.1 k 1 s₁ rfl (by decide) ⟨⟨rfl, rfl, rfl⟩, rfl⟩).1
  refine ⟨s, hprocessed, hreaches, (hexpires s hs (by simpa using hhalted) hreaches).mpr ?_⟩
  rw [hprocessed]
  rfl

end Echronos
