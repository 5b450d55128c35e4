import Echronos.Ports.TimerTick
import Echronos.Variants.PrioInherit

/-! # No tick is lost

    `timer_pending_ticks` counts the ticks raised since it was last cleared, up to two. What
    `timer_tick_process()` takes from it, it adds to `timer_current_ticks`, or it calls `fatal_error`:
    a count that has reached two is never taken for less. -/

namespace Echronos.TickMachine

open Schemes

variable {c : Config} {S : Sched c.tasks c.mutexes} {s s' : TickMachine c S}

/-- The ticks that the call under way has taken and not yet added to `timer_current_ticks`. -/
def taken (s : TickMachine c S) : ℕ :=
  match s.point with
  | some (.interruptsEnable pendingTicks) | some (.check pendingTicks) => pendingTicks
  | some .count => 1
  | _ => 0

/-- What the next two statements rely on while interrupts are disabled. -/
def At (s : TickMachine c S) : TickPoint c → Prop
  | .load => s.interruptsEnabled = false
  | .clear pendingTicks =>
    s.interruptsEnabled = false ∧ pendingTicks = s.system.core.timerPendingTicks
  | _ => True

structure Sound (s : TickMachine c S) : Prop where
  clock : s.system.core.timerCurrentTicks = BitVec.ofNat 32 s.system.core.processed
  pending : s.system.core.timerPendingTicks = min s.raised 2
  counted : s.taken ≤ 1 → s.calls = s.system.core.processed + s.taken + s.raised
  point : ∀ p, s.point = some p → At s p

theorem Sound.start (memory : Memory) : Sound (start memory : TickMachine c S) :=
  ⟨rfl, rfl, fun _ => rfl, nofun⟩

/-- Code that leaves the clock and the counts alone. -/
theorem Sound.frame (h : Sound s) (hclock : s'.system.core.clock = s.system.core.clock)
    (hcalls : s'.calls = s.calls) (hraised : s'.raised = s.raised) (htaken : s'.taken = s.taken)
    (hpoint : ∀ p, s'.point = some p → At s' p) : Sound s' := by
  obtain ⟨hticks, hpending, hprocessed⟩ : _ ∧ _ ∧ _ := by simpa [Core.clock] using hclock
  refine ⟨?_, ?_, fun ht => ?_, hpoint⟩
  · rw [hticks, hprocessed, h.clock]
  · rw [hpending, hraised, h.pending]
  · rw [hcalls, hprocessed, htaken, hraised]
    exact h.counted (htaken ▸ ht)

/-- `timer_tick_process()` executes a statement. -/
theorem Sound.next (h : Sound s) {p : TickPoint c} (hp : s.point = some p) : Sound (next s p) := by
  have hat := h.point p hp
  have hcounted := h.counted
  simp only [taken, hp] at hcounted
  cases p with
  | interruptsDisable =>
    refine h.frame rfl rfl rfl ?_ fun p hp' => ?_
    · simp [taken, TickMachine.next, goto, hp]
    · obtain rfl := Option.some.inj hp'
      exact rfl
  | load =>
    refine h.frame rfl rfl rfl ?_ fun p hp' => ?_
    · simp [taken, TickMachine.next, goto, hp]
    · obtain rfl := Option.some.inj hp'
      exact ⟨hat, rfl⟩
  | clear pendingTicks =>
    have hn : pendingTicks = min s.raised 2 := hat.2.trans h.pending
    refine ⟨h.clock, rfl, fun ht => ?_, fun p hp' => by obtain rfl := Option.some.inj hp'; trivial⟩
    have ht : pendingTicks ≤ 1 := ht
    have hraised : pendingTicks = s.raised := by omega
    have hcalls : s.calls = s.system.core.processed + 0 + s.raised := hcounted (Nat.zero_le 1)
    show s.calls = s.system.core.processed + pendingTicks + 0
    omega
  | interruptsEnable pendingTicks =>
    refine h.frame rfl rfl rfl ?_ fun p hp' => ?_
    · simp [taken, TickMachine.next, goto, hp]
    · obtain rfl := Option.some.inj hp'
      trivial
  | check pendingTicks =>
    simp only [TickMachine.next]
    split_ifs with hmore hzero
    · exact h.frame rfl rfl rfl rfl h.point
    · refine h.frame rfl rfl rfl ?_ nofun
      simp [taken, returns, goto, hp, hzero]
    · refine h.frame rfl rfl rfl ?_ fun p hp' => by obtain rfl := Option.some.inj hp'; trivial
      show 1 = s.taken
      simp only [taken, hp]
      omega
  | count =>
    refine ⟨?_, h.pending, fun _ => ?_, fun p hp' => by obtain rfl := Option.some.inj hp'; trivial⟩
    · show s.system.core.timerCurrentTicks + 1 = BitVec.ofNat 32 (s.system.core.processed + 1)
      rw [h.clock, BitVec.ofNat_add]
      rfl
    · show s.calls = s.system.core.processed + 1 + 0 + s.raised
      exact hcounted le_rfl
  | timeout =>
    refine h.frame rfl rfl rfl ?_ fun p hp' => by obtain rfl := Option.some.inj hp'; trivial
    simp [taken, TickMachine.next, goto, hp]
  | timers timeout rest =>
    cases rest with
    | nil =>
      refine h.frame rfl rfl rfl ?_ nofun
      simp [taken, TickMachine.next, returns, goto, hp]
    | cons i rest =>
      refine h.frame (Core.tickTurn_clock timeout s.system.core i) rfl rfl ?_
        fun p hp' => by obtain rfl := Option.some.inj hp'; trivial
      simp [taken, TickMachine.next, goto, onCore, hp]

/-- An interrupt service routine runs with interrupts enabled. -/
theorem At.interrupt {p : TickPoint c} (h : At s p) (hs : s.interruptsEnabled = true) :
    At s' p := by
  cases p with
  | load => exact absurd (h.symm.trans hs) (by decide)
  | clear pendingTicks => exact absurd (h.1.symm.trans hs) (by decide)
  | _ => trivial

theorem Sound.timerTick (h : Sound s) (hs : s.interruptsEnabled = true) :
    Sound { onCore Core.timerTick s with calls := s.calls + 1, raised := s.raised + 1 } := by
  have hclock : ∀ k : Core c S, (Core.timerTick k).timerCurrentTicks = k.timerCurrentTicks ∧
      (Core.timerTick k).processed = k.processed ∧
      (Core.timerTick k).timerPendingTicks =
        min (k.timerPendingTicks + 1) (max 2 k.timerPendingTicks) := by
    intro k
    unfold Core.timerTick
    split
    · exact ⟨rfl, rfl, by show k.timerPendingTicks + 1 = _; omega⟩
    · exact ⟨rfl, rfl, by omega⟩
  obtain ⟨hticks, hprocessed, hpending⟩ := hclock s.system.core
  have hold := h.pending
  refine ⟨hticks.trans (h.clock.trans (congrArg _ hprocessed.symm)), ?_, fun ht => ?_,
    fun p hp => (h.point p hp).interrupt hs⟩
  · show (Core.timerTick s.system.core).timerPendingTicks = min (s.raised + 1) 2
    omega
  · have hcounted := h.counted ht
    show s.calls + 1 = (Core.timerTick s.system.core).processed + s.taken + (s.raised + 1)
    omega

/-- A step of the rest of the system. -/
theorem of_system {a : Echronos.Act c} (hstep : step (.system a) s = some s') :
    s.point = none ∧ ∃ system, system.core.clock = s.system.core.clock ∧
      s' = { s with system := system } := by
  obtain ⟨-, hstep⟩ := Option.ite_none_left_eq_some.mp hstep
  obtain ⟨⟨hnone, hother⟩, hstep⟩ := Option.ite_none_right_eq_some.mp hstep
  obtain ⟨system, hsystem, rfl⟩ := Option.map_eq_some_iff.mp hstep
  refine ⟨hnone, system, State.step_clock hsystem ?_ ?_, rfl⟩
  · rintro rfl
    cases hother
  · rintro rfl
    cases hother

theorem Sound.step (h : Sound s) {a : Act c} (hstep : step a s = some s') : Sound s' := by
  cases a with
  | system a =>
    obtain ⟨hnone, system, hclock, rfl⟩ := of_system hstep
    exact h.frame hclock rfl rfl rfl fun p hp => absurd (hnone.symm.trans hp) nofun
  | timerTick =>
    obtain ⟨-, hstep⟩ := Option.ite_none_left_eq_some.mp hstep
    obtain ⟨henabled, ⟨⟩⟩ := Option.ite_none_right_eq_some.mp hstep
    exact h.timerTick henabled
  | interruptEventRaise i =>
    obtain ⟨-, hstep⟩ := Option.ite_none_left_eq_some.mp hstep
    obtain ⟨henabled, ⟨⟩⟩ := Option.ite_none_right_eq_some.mp hstep
    exact h.frame rfl rfl rfl rfl fun p hp => (h.point p hp).interrupt henabled
  | timerTickProcess =>
    obtain ⟨-, hstep⟩ := Option.ite_none_left_eq_some.mp hstep
    obtain ⟨⟨hnone, -⟩, ⟨⟩⟩ := Option.ite_none_right_eq_some.mp hstep
    refine h.frame rfl rfl rfl ?_ fun p hp => by obtain rfl := Option.some.inj hp; trivial
    simp [taken, goto, hnone]
  | next =>
    obtain ⟨-, hstep⟩ := Option.ite_none_left_eq_some.mp hstep
    obtain ⟨p, hp, rfl⟩ := Option.map_eq_some_iff.mp hstep
    exact h.next hp

theorem Reached.sound (h : s.Reached) : Sound s := by
  obtain ⟨memory, h⟩ := h
  exact h.invariant (.start memory) fun _ _ _ _ hs _ hstep => hs.step hstep

/-! ### A call without an interrupt -/

/-- The steps of a call of `timer_tick_process()`. -/
def Own (a : Act c) (_ : TickMachine c S) : Prop := a = .timerTickProcess ∨ a = .next

/-- The next statement is executed. -/
theorem reach_next {s₀ : TickMachine c S} (h : Reach step Own s₀ s) {p : TickPoint c}
    (hp : s.point = some p) (hhalted : s.system.core.halted = none) :
    Reach step Own s₀ (next s p) :=
  h.next .next (.inr rfl) (by simp [TickMachine.step, hhalted, hp])

theorem reach_timers {s₀ : TickMachine c S} {timeout : BitVec 16} :
    ∀ {rest : List c.TimerId} {s : TickMachine c S}, Reach step Own s₀ s →
      s.point = some (.timers timeout rest) →
      (rest.foldl (Core.tickTurn timeout) s.system.core).halted = none →
      Reach step Own s₀ (returns (onCore (fun k => rest.foldl (Core.tickTurn timeout) k) s))
  | [], _, h, hp, hhalted => reach_next h hp hhalted
  | i :: rest, s, h, hp, hhalted =>
    have hi := reach_next h hp (Core.halted_of_tickTurn (Core.halted_of_foldl hhalted))
    reach_timers (s := next s (.timers timeout (i :: rest))) hi rfl hhalted

/-- `timer_pending_ticks_get_and_clear_atomically()` -/
theorem reach_check (hpoint : s.point = none) (hphase : s.system.core.phase = .tick)
    (hhalted : s.system.core.halted = none) : ∃ s', Reach step Own s s' ∧
      s'.point = some (.check s.system.core.timerPendingTicks) ∧ s'.interruptsEnabled = true ∧
      s'.system = s.system.onCore fun k => { k with timerPendingTicks := 0 } := by
  have hcall : Reach step Own s (goto (some .interruptsDisable) s) :=
    .next .timerTickProcess .start (.inl rfl)
      (by simp [TickMachine.step, hhalted, hpoint, hphase])
  have hload := reach_next hcall rfl hhalted
  have hclear := reach_next hload rfl hhalted
  have henable := reach_next hclear rfl hhalted
  have hcheck := reach_next henable rfl hhalted
  exact ⟨_, hcheck, rfl, rfl, rfl⟩

/-! ### More than one tick -/

/-- `timer_tick_process()` has taken more than one tick: it calls `fatal_error`, or has. -/
def Overflows (s : TickMachine c S) : Prop :=
  s.system.core.halted = some (.fatalError errorIdTickOverflow) ∨
    ∃ pendingTicks, 1 < pendingTicks ∧
      (s.point = some (.interruptsEnable pendingTicks) ∨ s.point = some (.check pendingTicks))

/-- Whatever happens from here on, the next call that clears `timer_pending_ticks` overflows. -/
def NextOverflows (s : TickMachine c S) : Prop :=
  ∀ s', Reach step (fun _ _ => True) s s' → s.clears < s'.clears → s'.Overflows

theorem Overflows.step (h : s.Overflows) {a : Act c} (hstep : step a s = some s') :
    s'.Overflows ∧ s'.clears = s.clears := by
  have hrun : s.system.core.halted = none := by
    simpa using (Option.ite_none_left_eq_some.mp hstep).1
  obtain ⟨pendingTicks, hmore, hp⟩ := h.resolve_left (by simp [hrun])
  have hsome : s.point ≠ none := by rcases hp with hp | hp <;> simp [hp]
  cases a with
  | system a => exact absurd (of_system hstep).1 hsome
  | timerTick =>
    obtain ⟨-, hstep⟩ := Option.ite_none_left_eq_some.mp hstep
    obtain ⟨-, ⟨⟩⟩ := Option.ite_none_right_eq_some.mp hstep
    exact ⟨.inr ⟨pendingTicks, hmore, hp⟩, rfl⟩
  | interruptEventRaise i =>
    obtain ⟨-, hstep⟩ := Option.ite_none_left_eq_some.mp hstep
    obtain ⟨-, ⟨⟩⟩ := Option.ite_none_right_eq_some.mp hstep
    exact ⟨.inr ⟨pendingTicks, hmore, hp⟩, rfl⟩
  | timerTickProcess =>
    obtain ⟨-, hstep⟩ := Option.ite_none_left_eq_some.mp hstep
    exact absurd (Option.ite_none_right_eq_some.mp hstep).1.1 hsome
  | next =>
    obtain ⟨-, hstep⟩ := Option.ite_none_left_eq_some.mp hstep
    obtain ⟨p, hp', rfl⟩ := Option.map_eq_some_iff.mp hstep
    rcases hp with hp | hp
    · obtain rfl := Option.some.inj (hp.symm.trans hp')
      exact ⟨.inr ⟨pendingTicks, hmore, .inr rfl⟩, rfl⟩
    · obtain rfl := Option.some.inj (hp.symm.trans hp')
      simp only [TickMachine.next, if_pos hmore]
      exact ⟨.inl rfl, rfl⟩

/-- Until it is cleared, `timer_pending_ticks` stays at two. -/
theorem Sound.raised_step (h : Sound s) (hraised : 1 < s.raised) {a : Act c}
    (hstep : TickMachine.step a s = some s') :
    (1 < s'.raised ∧ s'.clears = s.clears) ∨ s'.Overflows := by
  cases a with
  | system a =>
    obtain ⟨-, system, -, rfl⟩ := of_system hstep
    exact .inl ⟨hraised, rfl⟩
  | timerTick =>
    obtain ⟨-, hstep⟩ := Option.ite_none_left_eq_some.mp hstep
    obtain ⟨-, ⟨⟩⟩ := Option.ite_none_right_eq_some.mp hstep
    exact .inl ⟨Nat.lt_succ_of_lt hraised, rfl⟩
  | interruptEventRaise i =>
    obtain ⟨-, hstep⟩ := Option.ite_none_left_eq_some.mp hstep
    obtain ⟨-, ⟨⟩⟩ := Option.ite_none_right_eq_some.mp hstep
    exact .inl ⟨hraised, rfl⟩
  | timerTickProcess =>
    obtain ⟨-, hstep⟩ := Option.ite_none_left_eq_some.mp hstep
    obtain ⟨-, ⟨⟩⟩ := Option.ite_none_right_eq_some.mp hstep
    exact .inl ⟨hraised, rfl⟩
  | next =>
    obtain ⟨-, hstep⟩ := Option.ite_none_left_eq_some.mp hstep
    obtain ⟨p, hp, rfl⟩ := Option.map_eq_some_iff.mp hstep
    cases p with
    | clear pendingTicks =>
      have hn : pendingTicks = min s.raised 2 := (h.point _ hp).2.trans h.pending
      exact .inr (.inr ⟨pendingTicks, by omega, .inl rfl⟩)
    | check pendingTicks =>
      simp only [TickMachine.next]
      split_ifs <;> exact .inl ⟨hraised, rfl⟩
    | timers timeout rest => cases rest <;> exact .inl ⟨hraised, rfl⟩
    | interruptsDisable | load | interruptsEnable | count | timeout => exact .inl ⟨hraised, rfl⟩

theorem Sound.nextOverflows (h : Sound s) (hraised : 1 < s.raised) : s.NextOverflows := by
  intro s' hs' hclears
  let p (r : TickMachine c S) : Prop :=
    Sound r ∧ ((1 < r.raised ∧ r.clears = s.clears) ∨ r.Overflows)
  have hrun : p s' := by
    refine hs'.invariant ⟨h, .inl ⟨hraised, rfl⟩⟩ fun r a r' _ hr _ hstep => ⟨hr.1.step hstep, ?_⟩
    rcases hr.2 with ⟨hraised, hr'⟩ | hover
    · rw [← hr']
      exact hr.1.raised_step hraised hstep
    · exact .inr (hover.step hstep).1
  exact hrun.2.resolve_left fun hsame => absurd hsame.2 hclears.ne'

end Echronos.TickMachine

namespace Echronos

open Schemes TickMachine

variable {c : Config} {S : Sched c.tasks c.mutexes}

/-- The ticks raised are those processed, those pending, and one that `timer_tick_process()` may have
    taken to count it next; or there are too many, and `timer_tick_process()` is going to call
    `fatal_error`, if it has not yet. -/
theorem ticks_counted (s : TickMachine c S) (h : s.Reached) :
    s.system.core.timerCurrentTicks = BitVec.ofNat 32 s.system.core.processed ∧
    ((s.system.core.timerPendingTicks ≤ 1 ∧ s.taken ≤ 1 ∧
        s.calls = s.system.core.processed + s.taken + s.system.core.timerPendingTicks) ∨
      (1 < s.raised ∧ s.NextOverflows) ∨ (1 < s.taken ∧ s.Overflows)) ∧
    (s.point = none → s.calls = s.system.core.processed + s.raised) := by
  have hs := h.sound
  refine ⟨hs.clock, ?_, fun hnone => ?_⟩
  · by_cases htaken : s.taken ≤ 1
    · by_cases hraised : s.raised ≤ 1
      · have hpending : s.system.core.timerPendingTicks = s.raised := by
          rw [hs.pending]
          omega
        refine .inl ⟨hpending ▸ hraised, htaken, ?_⟩
        rw [hpending]
        exact hs.counted htaken
      · exact .inr (.inl ⟨not_le.mp hraised, hs.nextOverflows (not_le.mp hraised)⟩)
    · refine .inr (.inr ⟨not_le.mp htaken, .inr ?_⟩)
      simp only [TickMachine.taken] at htaken
      split at htaken
      · exact ⟨_, not_le.mp htaken, .inl ‹_›⟩
      · exact ⟨_, not_le.mp htaken, .inr ‹_›⟩
      · omega
      · omega
  · have htaken : s.taken = 0 := by simp [TickMachine.taken, hnone]
    simpa [htaken] using hs.counted (by omega)

/-- A call that no interrupt service routine interrupts, and that does not call `fatal_error`, is the
    step of the system that `timer_tick_process()` is elsewhere. -/
theorem timerTickProcess_uninterrupted {s : TickMachine c S} (hpoint : s.point = none) {system : State c S}
    (hstep : State.step (.kernel .timerTickProcess) s.system = some system)
    (hhalted : system.core.halted = none) :
    ∃ s', Reach step Own s s' ∧ s'.system = system ∧ s'.point = none ∧
      s'.interruptsEnabled = true := by
  obtain ⟨hrun, hstep⟩ := Option.ite_none_left_eq_some.mp hstep
  obtain ⟨k, hk, rfl⟩ := Option.map_eq_some_iff.mp hstep
  obtain ⟨hphase, ⟨⟩⟩ := Option.ite_none_right_eq_some.mp hk
  have hcore : s.system.core.halted = none := by simpa using hrun
  obtain ⟨s₁, hcheck, hp, henabled, hsystem⟩ := reach_check hpoint hphase hcore
  have hcore₁ : s₁.system.core.halted = none := by
    rw [hsystem]
    exact hcore
  have hchecked := reach_next hcheck hp hcore₁
  have hhalted : (Core.timerTickProcess s.system.core).halted = none := hhalted
  unfold Core.timerTickProcess at hhalted ⊢
  dsimp only at hhalted ⊢
  by_cases hmore : 1 < s.system.core.timerPendingTicks
  · simp [hmore, Core.halt] at hhalted
  rw [if_neg hmore] at hhalted ⊢
  by_cases hzero : s.system.core.timerPendingTicks = 0
  · have hreturns : next s₁ (.check s.system.core.timerPendingTicks) = returns s₁ := by
      simp [TickMachine.next, hzero]
    rw [hreturns] at hchecked
    rw [if_pos hzero]
    refine ⟨_, hchecked, ?_, rfl, henabled⟩
    simp only [returns, goto, onCore, hsystem]
    rfl
  · have hcount : next s₁ (.check s.system.core.timerPendingTicks) = goto (some .count) s₁ := by
      simp [TickMachine.next, hmore, hzero]
    rw [hcount] at hchecked
    rw [if_neg hzero] at hhalted ⊢
    have htimeout := reach_next (reach_next hchecked rfl hcore₁) rfl hcore₁
    refine ⟨_, reach_timers htimeout rfl ?_, ?_, rfl, henabled⟩
    · simp only [TickMachine.next, goto, onCore, hsystem]
      exact hhalted
    · simp only [TickMachine.next, returns, goto, onCore, hsystem]
      rfl

/-- A task of Kochab without mutexes. -/
abbrev oneTask : Config := .plain 1 0 0 0 true false Nat.one_pos

/-- A tick is raised, and `timer_tick_process()` is called. -/
def tickAndTake (statements : ℕ) : List (TickMachine.Act oneTask) :=
  [TickMachine.Act.timerTick, .system (.kernel .preempt), .system (.kernel .interruptEventProcess),
    .timerTickProcess] ++ List.replicate statements .next

theorem timerTickProcess_uninterrupted_one : ∃ s s' : TickMachine oneTask (kochabSched 1 0),
    s.Reached ∧ s.system.core.timerPendingTicks = 1 ∧ Reach step Own s s' ∧
      s'.system.core.timerCurrentTicks = 1 ∧ s'.point = none := by
  have hrun : (run step (fun _ _ => true) ((tickAndTake 0).take 3)
      (TickMachine.start (S := kochabSched 1 0) fun _ => 0)).any
      (fun s => s.point = none ∧ s.system.core.timerPendingTicks = 1 ∧
        (State.step (.kernel .timerTickProcess) s.system).any fun system =>
          system.core.halted.isNone ∧ system.core.timerCurrentTicks = 1) = true := by
    decide +kernel
  obtain ⟨s, hs, hp⟩ := exists_reach_of_run (fun _ _ _ _ => trivial) hrun
  obtain ⟨hnone, hpending, hany⟩ := of_decide_eq_true hp
  obtain ⟨system, hstep, hsystem⟩ := (Option.any_eq_true _ _).mp hany
  obtain ⟨hhalted, hticks⟩ := of_decide_eq_true hsystem
  obtain ⟨s', hs', rfl, hpoint, -⟩ :=
    timerTickProcess_uninterrupted hnone hstep (by simpa using hhalted)
  exact ⟨s, s', ⟨_, hs⟩, hpending, hs', hticks, hpoint⟩

/-- The tick has been processed. -/
theorem ticks_counted_processed : ∃ s : TickMachine oneTask (kochabSched 1 0),
    s.system.core.timerCurrentTicks = 1 ∧ s.calls = s.system.core.processed + s.raised := by
  have hrun : (run step (fun _ _ => true) (tickAndTake 9)
      (TickMachine.start (S := kochabSched 1 0) fun _ => 0)).any
      (fun s => s.point = none ∧ s.system.core.timerCurrentTicks = 1) = true := by
    decide +kernel
  obtain ⟨s, hs, hp⟩ := exists_reach_of_run (fun _ _ _ _ => trivial) hrun
  obtain ⟨hnone, hticks⟩ := of_decide_eq_true hp
  exact ⟨s, hticks, (ticks_counted s ⟨_, hs⟩).2.2 hnone⟩

/-- The tick has been taken and not yet counted: no tick is pending, one was raised and none has
    been processed. -/
theorem ticks_taken_uncounted : ¬ ∀ s : TickMachine oneTask (kochabSched 1 0), s.Reached →
    s.system.core.halted = none →
    s.system.core.timerCurrentTicks = BitVec.ofNat 32 s.system.core.processed ∧
    ((s.system.core.timerPendingTicks ≤ 1 ∧
        s.calls = s.system.core.processed + s.system.core.timerPendingTicks) ∨
      (1 < s.raised ∧ s.NextOverflows)) := by
  intro hkept
  have hrun : (run step (fun _ _ => true) (tickAndTake 3)
      (TickMachine.start (S := kochabSched 1 0) fun _ => 0)).any
      (fun s => s.system.core.halted.isNone ∧ s.calls = 1 ∧ s.system.core.processed = 0 ∧
        s.system.core.timerPendingTicks = 0 ∧ s.raised = 0) = true := by
    decide +kernel
  obtain ⟨s, hs, hp⟩ := exists_reach_of_run (fun _ _ _ _ => trivial) hrun
  obtain ⟨hhalted, hcalls, hprocessed, hpending, hraised⟩ := of_decide_eq_true hp
  rcases (hkept s ⟨_, hs⟩ (by simpa using hhalted)).2 with ⟨-, hsum⟩ | ⟨hmore, -⟩
  · omega
  · omega

end Echronos
