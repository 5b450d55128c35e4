import Echronos.Properties.Timers

/-! # `timer_remaining` is exact

    `timer_remaining` is the distance from the clock to `expiry` modulo `2 ^ 16`, so it is exact as
    long as an enabled timer's `expiry` is not the clock itself: that timer expires only `2 ^ 16`
    ticks later. No function of the RTOS leaves a timer so, but the initialiser of `timers` does when
    a timer is configured to be enabled and without a reload value. -/

namespace Echronos

open Schemes

variable {c : Config} {S : Sched c.tasks c.mutexes}

namespace Core

/-! ### Enabled timers and the clock -/

/-- An enabled timer does not have the clock as its expiry. -/
def OffClock (i : c.TimerId) (k : Core c S) : Prop :=
  (k.timers i).enabled = true → (k.timers i).expiry ≠ currentTimeout k

variable {k k' : Core c S} {l : List (Expiry c S)} {i : c.TimerId}

/-- A timer that expires when it is due, or without a reload value, is not due again at once. -/
theorem rearm_offClock {tm : Timer c.tasks c.signalsetSize} {now : BitVec 16}
    (h : tm.reload = 0 ∨ timerExpired tm now = true) (henabled : (rearm tm).enabled = true) :
    (rearm tm).expiry ≠ now := by
  unfold rearm at henabled ⊢
  split_ifs at henabled ⊢ with hpos
  obtain hreload | hexpired := h
  · exact absurd hpos (by simp [hreload])
  · have hexpiry : tm.expiry = now := (by simpa [timerExpired] using hexpired : _ ∧ _).2
    intro heq
    rw [hexpiry, add_eq_left] at heq
    exact absurd hpos (by simp [heq])

theorem Sets.offClock {now : BitVec 16} {tm tm' : Timer c.tasks c.signalsetSize} (h : Sets now tm tm')
    (htm : tm.enabled = true → tm.expiry ≠ now) (henabled : tm'.enabled = true) :
    tm'.expiry ≠ now := by
  cases h with
  | disable => cases henabled
  | enable hreload =>
    intro heq
    exact hreload (add_eq_left.mp heq)
  | reload | signal | error => exact htm henabled

theorem OffClock.congr (h : OffClock i k) (heq : k'.timing = k.timing) : OffClock i k' := by
  simp only [timing, Prod.mk.injEq] at heq
  rw [OffClock, currentTimeout, heq.1, heq.2.1]
  exact h

theorem OffClock.of_sameTimes (h : OffClock i k) (hsame : (k.timers i).SameTimes (k'.timers i))
    (hclock : currentTimeout k' = currentTimeout k) : OffClock i k' := by
  rw [OffClock, hsame.1, hsame.2.1, hclock]
  exact h

theorem TimerPath.offClock (h : TimerPath k l k') (hk : OffClock i k) : OffClock i k' := by
  induction h with
  | refl => exact hk
  | other _ heq ih => exact ih.congr heq
  | fail _ _ ih => exact ih
  | @set _ k' j tm _ hset ih =>
    intro henabled
    by_cases hj : i = j
    · subst hj
      simp only [setTimer, Function.update_self] at henabled ⊢
      exact hset.offClock ih henabled
    · simp only [setTimer, Function.update_of_ne hj] at henabled ⊢
      exact ih henabled
  | @expire _ k' j _ hexpires ih =>
    have hclock : currentTimeout (timerProcessOne j k') = currentTimeout k' :=
      congrArg (fun clock : BitVec 32 × ℕ × ℕ => clock.1.setWidth 16) (timerProcessOne_clock j k')
    intro henabled
    rw [hclock]
    by_cases hj : i = j
    · subst hj
      obtain ⟨hsame, hexpiry, -⟩ := timerProcessOne_timers i k'
      rw [hexpiry]
      exact rearm_offClock hexpires (hsame ▸ henabled)
    · rw [timerProcessOne_timers_of_ne hj] at henabled ⊢
      exact ih henabled

end Core

namespace State

open Echronos.Core

variable {s s' : State c S} {i : c.TimerId} {b : BitVec 16} {n : ℕ}

/-- What `timer_remaining` returns is the number of ticks until the timer is due. -/
theorem due_of_offClock {k : Core c S} (h : OffClock i k) (henabled : (k.timers i).enabled = true) :
    Due (lead k) i (k.processed + (timerRemaining i k).toNat) k := by
  have hremaining : timerRemaining i k = (k.timers i).expiry - currentTimeout k := if_pos henabled
  have hne : (timerRemaining i k).toNat ≠ 0 := by
    intro hzero
    have hsub : (k.timers i).expiry - currentTimeout k = 0 :=
      hremaining ▸ BitVec.eq_of_toNat_eq hzero
    exact h henabled (sub_eq_zero.mp hsub)
  have hlt := (timerRemaining i k).isLt
  refine ⟨henabled, ?_, by omega, by omega⟩
  rw [BitVec.ofNat_add, BitVec.ofNat_toNat, BitVec.setWidth_eq, ← BitVec.add_assoc,
    ← ahead_lead k, hremaining, add_sub_cancel]

/-- `timer_remaining` returns `0` exactly for a disabled timer, and for an enabled one the number of
    ticks after which it next expires, if nothing else is done to it. -/
structure RemainingExact (i : c.TimerId) (s : State c S) : Prop where
  zero : timerRemaining i s.core = 0 ↔ (s.core.timers i).enabled = false
  expires : (s.core.timers i).enabled = true → ∀ s₁, Reach step (Leaves i) s s₁ →
    s₁.core.halted = none → ReachesTurn i s₁.core →
    s₁.core.processed < s.core.processed + (timerRemaining i s.core).toNat →
    (ExpiresInTurn i s₁.core ↔
      s₁.core.processed + 1 = s.core.processed + (timerRemaining i s.core).toNat)

/-- A timer remains due until its tick is processed. -/
theorem due_of_reach (hclock : Ahead b s.core) (h : Due b i n s.core)
    (hreach : Reach step (Leaves i) s s') (hhalted : s'.core.halted = none) :
    Ahead b s'.core ∧ (s'.core.processed < n → Due b i n s'.core) := by
  refine reach_running (P := fun s => Ahead b s.core ∧ (s.core.processed < n → Due b i n s.core))
    hreach ⟨hclock, fun _ => h⟩ (fun s a s' hs ha hstep hrun => ?_) hhalted
  obtain ⟨hclock, hstay | htick⟩ := step_timer hs.1 ha hstep hrun
  · obtain ⟨hprocessed, htimer⟩ := hstay
    refine ⟨hclock, fun hlt => ?_⟩
    have hdue := hs.2 (hprocessed ▸ hlt)
    exact ⟨htimer ▸ hdue.enabled, htimer ▸ hdue.expiry, hlt, hprocessed ▸ hdue.le⟩
  · obtain ⟨hprocessed, htimer⟩ := htick
    refine ⟨hclock, fun hlt => ?_⟩
    have hdue := hs.2 (by omega)
    have hnot : s.core.processed + 1 ≠ n := by omega
    rw [if_neg (mt hdue.expired.mp hnot)] at htimer
    have hle := hdue.le
    exact ⟨htimer ▸ hdue.enabled, htimer ▸ hdue.expiry, hlt, by omega⟩

theorem RemainingExact.of_offClock (h : OffClock i s.core) : RemainingExact i s := by
  refine ⟨⟨fun hzero => ?_, fun hdisabled => ?_⟩, fun henabled s₁ hs₁ hhalted _ hlt => ?_⟩
  · by_contra henabled
    have hlt := (due_of_offClock h (Bool.eq_true_of_not_eq_false henabled)).lt
    simp [hzero] at hlt
  · rw [timerRemaining, hdisabled, if_neg (by decide)]
  · obtain ⟨hclock, hdue⟩ := due_of_reach (ahead_lead s.core) (due_of_offClock h henabled) hs₁ hhalted
    rw [expiresInTurn_iff hclock]
    exact (hdue hlt).expired

/-! ### Runs -/

/-- A step that does not stop the system keeps the expiry of an enabled timer off the clock. -/
theorem step_offClock {a : Act c} (h : OffClock i s.core) (hstep : step a s = some s')
    (hhalted : s'.core.halted = none) : OffClock i s'.core := by
  by_cases htick : a = .kernel .timerTickProcess
  · obtain ⟨hclock, hcases⟩ := step_timer (i := i) (ahead_lead s.core) (fun ha => absurd htick ha)
      hstep hhalted
    rw [OffClock, hclock]
    obtain ⟨hprocessed, htimer⟩ | ⟨hprocessed, htimer⟩ := hcases
    · rw [hprocessed, htimer, ← ahead_lead s.core]
      exact h
    · rw [hprocessed]
      split_ifs at htimer with hexpired
      · obtain ⟨hsame, hexpiry, -⟩ := htimer
        rw [hsame, hexpiry]
        exact rearm_offClock (.inr hexpired)
      · rw [htimer]
        intro henabled heq
        exact hexpired (by simp [timerExpired, henabled, heq])
  by_cases hcheck : ∃ j, a = .call (.core (.timerCheckOverflow j))
  · obtain ⟨j, rfl⟩ := hcheck
    rw [step_timerCheckOverflow hstep]
    refine h.of_sameTimes ?_ rfl
    by_cases hj : i = j
    · subst hj
      simp [timerCheckOverflow, setTimer, Timer.SameTimes]
    · simp [timerCheckOverflow, setTimer, hj, Timer.SameTimes]
  · exact (step_path hstep htick fun j hj => hcheck ⟨j, hj⟩).offClock h

/-- A timer whose expiry is off the clock at the start remains so. -/
theorem Reached.offClock (hstart : OffClock i (Core.start : Core c S)) (h : Reached s)
    (hhalted : s.core.halted = none) : OffClock i s.core := by
  obtain ⟨memory, hreach⟩ := h
  refine hreach.invariant (I := fun s => s.core.halted = none → OffClock i s.core) (fun _ => hstart)
    (fun s a s' _ hs _ hstep hrun => ?_) hhalted
  have hbefore : s.core.halted = none := by
    simpa using (Option.ite_none_left_eq_some.mp hstep).1
  exact step_offClock (hs hbefore) hstep hrun

end State

open State

/-- `timer_remaining` is exact for a timer in every state of every run if and only if the timer is
    not configured to be enabled without a reload value. -/
theorem remaining_exact_iff {i : c.TimerId} {enabled : Bool} {reload : BitVec 16} {errorId : ℕ}
    {taskId : Option c.TaskId} {signalSet : c.SignalSet}
    (hi : c.timersInit i = .generated enabled reload errorId taskId signalSet) :
    (∀ s : State c S, Reached s → s.core.halted = none → RemainingExact i s) ↔
      ¬ (enabled = true ∧ reload = 0) := by
  have htimer : (Core.start : Core c S).timers i = .generated enabled reload errorId taskId signalSet :=
    hi
  constructor
  · rintro h ⟨rfl, rfl⟩
    have hzero := (h (start fun _ => 0) ⟨_, .start⟩ rfl).zero
    have hremaining : Core.timerRemaining i (Core.start : Core c S) = 0 := by
      simp [Core.timerRemaining, Core.currentTimeout, Core.start, hi, Timer.generated]
    have hdisabled := hzero.mp hremaining
    rw [show (start fun _ => 0 : State c S).core = Core.start from rfl, htimer] at hdisabled
    cases hdisabled
  · intro h s hs hhalted
    refine RemainingExact.of_offClock (hs.offClock (fun henabled => ?_) hhalted)
    rw [htimer] at henabled ⊢
    have henabled : enabled = true := henabled
    rw [Timer.generated, if_pos henabled]
    exact fun hreload => h ⟨henabled, hreload⟩

/-- A timer with a period of five ticks has five ticks to go at the start. -/
theorem remaining_exact_fiveTicks :
    let s : State (.withTimer (.generated true 5 0 (some 0) 2)) (kochabSched 1 0) :=
      State.start fun _ => 0
    Core.timerRemaining 0 s.core = 5 ∧ RemainingExact 0 s :=
  ⟨rfl, (remaining_exact_iff rfl).mpr (by decide) _ ⟨_, .start⟩ rfl⟩

/-- A timer that is enabled without a period: `timer_remaining` returns `0` for it at the start. -/
theorem not_remaining_exact_noReload :
    ¬ ∀ s : State (.withTimer (.generated true 0 0 (some 0) 2)) (kochabSched 1 0),
      Reached s → s.core.halted = none → RemainingExact 0 s := by
  intro h
  have hzero := (h (State.start fun _ => 0) ⟨_, .start⟩ rfl).zero
  exact absurd (hzero.mp rfl) (by decide)

end Echronos
