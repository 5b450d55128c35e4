import Echronos.Posix.InterruptEvent

/-! # Signals and interrupt events on a POSIX host

    `interrupt_event_wait()` checks for work and waits for a signal with the signals blocked, and
    then raises the signal that `sigwait()` has taken away. When the check finds work, there is none:
    `raise()` is called with an uninitialised variable. -/

namespace Echronos.Posix

open Schemes

variable {e : EventConfig}

/-- The set of signals is blocked in front of the statement. -/
def Point.blocks : Point → Bool
  | .clear _ | .unblock _ | .waitCheck | .sigwait | .waitUnblock => true
  | _ => false

namespace Process

variable {s s' : Process e} {j : e.InterruptEventId} {a : Act e}

/-! ### What holds in every run -/

/-- What is known in front of a statement. -/
def At (s : Process e) : Point → Prop
  | .ifPending current | .unblock current | .handle current => current < e.interruptEvents
  | .block current | .clear current =>
    current < e.interruptEvents ∧ s.pendingInterruptEvents.getLsbD current = true
  | .sigwait => interruptEventCheck s = false
  | _ => True

/-- Between `sigwait()` and `raise()`, the variable `sig` is the signal that was taken. -/
def Holds (s : Process e) : Prop :=
  ∀ x, s.consumed = some x → s.sig = some x ∧ (s.point = .waitUnblock ∨ s.point = .raise)

structure Sound (s : Process e) : Prop where
  blocked : s.blocked = s.point.blocks
  handler : s.blocked = true → s.handler = []
  ticks : e.timerProcess = false → s.timerTicksPending = 0 ∧ .timerTick ∉ s.handler
  point : s.At s.point
  holds : s.Holds

theorem Sound.start : Sound (start (e := e)) where
  blocked := rfl
  handler := nofun
  ticks _ := ⟨rfl, List.not_mem_nil⟩
  point := trivial
  holds := nofun

/-- More events may become pending while nothing is blocked. -/
theorem At.mono {p : Point} (h : s.At p) (hp : p.blocks = false)
    (hle : ∀ k, s.pendingInterruptEvents.getLsbD k = true →
      s'.pendingInterruptEvents.getLsbD k = true) : s'.At p := by
  cases p with
  | ifPending current | unblock current | handle current => exact h
  | block current | clear current => exact ⟨h.1, hle _ h.2⟩
  | sigwait => cases hp
  | task | whilePending | forPending current | tick | select | waitBlock | waitCheck | waitUnblock
  | raise => trivial

theorem getLsbD_raise (s : Process e) (j : e.InterruptEventId) (k : ℕ) :
    (interruptEventRaise j s).pendingInterruptEvents.getLsbD k =
      (s.pendingInterruptEvents.getLsbD k || decide (j.val = k)) := by
  have hj : (j : ℕ) < 32 := lt_of_lt_of_le j.isLt e.interruptEvents_le
  rw [interruptEventRaise, BitVec.getLsbD_or, BitVec.getLsbD_twoPow, decide_eq_true hj, Bool.true_and]

/-- What a handler calls leaves the code that it interrupts where it is. -/
theorem call_eq (f : HandlerCall e) (s : Process e) : (call f s).point = s.point ∧
    (call f s).blocked = s.blocked ∧ (call f s).handler = s.handler ∧ (call f s).sig = s.sig ∧
    (call f s).consumed = s.consumed ∧ (call f s).pending = s.pending ∧
    (call f s).arrivals = s.arrivals ∧ (call f s).runs = s.runs ∧ (call f s).handled = s.handled := by
  cases f with
  | interruptEventRaise j => exact ⟨rfl, rfl, rfl, rfl, rfl, rfl, rfl, rfl, rfl⟩
  | timerTick =>
    simp only [call, timerTick]
    split <;> exact ⟨rfl, rfl, rfl, rfl, rfl, rfl, rfl, rfl, rfl⟩

theorem call_pendingInterruptEvents (f : HandlerCall e) (s : Process e) (k : ℕ)
    (h : s.pendingInterruptEvents.getLsbD k = true) :
    (call f s).pendingInterruptEvents.getLsbD k = true := by
  cases f with
  | interruptEventRaise j =>
    show (interruptEventRaise j s).pendingInterruptEvents.getLsbD k = true
    rw [getLsbD_raise, h, Bool.true_or]
  | timerTick =>
    simp only [call, timerTick]
    split <;> exact h

theorem Sound.handlerCall (h : Sound s) (hstep : step .handlerCall s = some s') : Sound s' := by
  cases hs : s.handler with
  | nil => simp [step, hs] at hstep
  | cons f rest =>
    simp only [step, hs, Option.some.injEq] at hstep
    subst hstep
    have hblocked : s.blocked = false := by
      by_contra hne
      rw [h.handler (Bool.eq_true_of_not_eq_false hne)] at hs
      cases hs
    obtain ⟨hpoint, hblocked', hhandler, hsig, hconsumed, -⟩ := call_eq f { s with handler := rest }
    have hfree : s.point.blocks = false := h.blocked.symm.trans hblocked
    refine ⟨?_, fun hb => ?_, fun ht => ?_, ?_, ?_⟩
    · rw [hblocked', hpoint]
      exact h.blocked
    · rw [hblocked'] at hb
      exact absurd (hblocked.symm.trans hb) (by decide)
    · obtain ⟨hzero, hnot⟩ := h.ticks ht
      rw [hs, List.mem_cons, not_or] at hnot
      rw [hhandler]
      refine ⟨?_, hnot.2⟩
      cases f with
      | interruptEventRaise j => exact hzero
      | timerTick => exact absurd rfl hnot.1
    · rw [hpoint]
      exact h.point.mono hfree fun k hk => call_pendingInterruptEvents f { s with handler := rest } k hk
    · rw [Holds, hsig, hconsumed, hpoint]
      exact h.holds

theorem Holds.of_none (h : s.consumed = none) : s.Holds := fun x hx => by
  rw [h] at hx
  cases hx

theorem Sound.consumed (h : Sound s) (hunblock : s.point ≠ .waitUnblock) (hraise : s.point ≠ .raise) :
    s.consumed = none := by
  by_contra hne
  obtain ⟨x, hx⟩ := Option.ne_none_iff_exists'.mp hne
  obtain hp | hp := (h.holds x hx).2
  · exact hunblock hp
  · exact hraise hp

/-- What there is to show of a statement of the RTOS. -/
theorem Sound.goes (h : Sound s) (hnone : s.handler = []) (hhandler : s'.handler = s.handler)
    (hblocked : s'.blocked = s'.point.blocks)
    (hticks : s'.timerTicksPending = s.timerTicksPending ∨ s'.timerTicksPending = 0)
    (hpoint : s'.At s'.point) (hholds : s'.Holds) : Sound s' := by
  refine ⟨hblocked, fun _ => hhandler.trans hnone, fun ht => ⟨?_, ?_⟩, hpoint, hholds⟩
  · obtain heq | hzero := hticks
    · exact heq.trans (h.ticks ht).1
    · exact hzero
  · rw [hhandler, hnone]
    exact List.not_mem_nil

/-- A statement of the RTOS. -/
theorem Sound.next (h : Sound s) (hnone : s.handler = []) (hstep : next s s.point = some s') :
    Sound s' := by
  have hpoint := h.point
  have hblocked := h.blocked
  have hconsumed := h.consumed
  have hholds := h.holds
  cases hp : s.point <;> simp only [hp] at hpoint hblocked hconsumed hstep <;>
    simp only [Process.next, Option.some.injEq, reduceCtorEq] at hstep
  case task =>
    subst hstep
    exact h.goes hnone rfl hblocked (.inl rfl) trivial (.of_none (hconsumed nofun nofun))
  case whilePending =>
    subst hstep
    split_ifs
    · exact h.goes hnone rfl hblocked (.inl rfl) trivial (.of_none (hconsumed nofun nofun))
    · unfold processReturns
      split_ifs
      · exact h.goes hnone rfl hblocked (.inl rfl) trivial (.of_none (hconsumed nofun nofun))
      · exact h.goes hnone rfl hblocked (.inl rfl) trivial (.of_none (hconsumed nofun nofun))
  case forPending current =>
    subst hstep
    split_ifs with hmore
    · exact h.goes hnone rfl hblocked (.inl rfl) hmore.1 (.of_none (hconsumed nofun nofun))
    · exact h.goes hnone rfl hblocked (.inl rfl) trivial (.of_none (hconsumed nofun nofun))
  case ifPending current =>
    subst hstep
    split_ifs with hbit
    · exact h.goes hnone rfl hblocked (.inl rfl) ⟨hpoint, hbit⟩ (.of_none (hconsumed nofun nofun))
    · exact h.goes hnone rfl hblocked (.inl rfl) trivial (.of_none (hconsumed nofun nofun))
  case block current =>
    subst hstep
    exact h.goes hnone rfl rfl (.inl rfl) hpoint (.of_none (hconsumed nofun nofun))
  case clear current =>
    subst hstep
    exact h.goes hnone rfl hblocked (.inl rfl) hpoint.1 (.of_none (hconsumed nofun nofun))
  case unblock current =>
    subst hstep
    exact h.goes hnone rfl rfl (.inl rfl) hpoint (.of_none (hconsumed nofun nofun))
  case handle current =>
    subst hstep
    exact h.goes hnone rfl hblocked (.inl rfl) trivial (.of_none (hconsumed nofun nofun))
  case tick =>
    subst hstep
    exact h.goes hnone rfl hblocked (.inr rfl) trivial (.of_none (hconsumed nofun nofun))
  case waitBlock =>
    subst hstep
    exact h.goes hnone rfl rfl (.inl rfl) trivial (.of_none (hconsumed nofun nofun))
  case waitCheck =>
    subst hstep
    split_ifs with hcheck
    · exact h.goes hnone rfl hblocked (.inl rfl) trivial (.of_none (hconsumed nofun nofun))
    · exact h.goes hnone rfl hblocked (.inl rfl) (Bool.eq_false_of_not_eq_true hcheck)
        (.of_none (hconsumed nofun nofun))
  case waitUnblock =>
    subst hstep
    exact h.goes hnone rfl rfl (.inl rfl) trivial fun x hx => ⟨(hholds x hx).1, .inr rfl⟩
  case raise =>
    subst hstep
    exact h.goes hnone rfl hblocked (.inl rfl) trivial (.of_none rfl)

theorem Sound.main (h : Sound s) (hnone : s.handler = []) (hstep : main a s = some s') :
    Sound s' := by
  cases a with
  | next => exact h.next hnone hstep
  | ready =>
    obtain ⟨hp, ⟨⟩⟩ := Option.ite_none_right_eq_some.mp hstep
    have hblocked : s.blocked = Point.select.blocks := hp ▸ h.blocked
    exact h.goes hnone rfl hblocked (.inl rfl) trivial
      (.of_none (h.consumed (by simp [hp]) (by simp [hp])))
  | idle sig =>
    obtain ⟨hp, ⟨⟩⟩ := Option.ite_none_right_eq_some.mp hstep
    have hblocked : s.blocked = Point.select.blocks := hp ▸ h.blocked
    exact h.goes hnone rfl hblocked (.inl rfl) trivial
      (.of_none (h.consumed (by simp [hp]) (by simp [hp])))
  | sigwait x =>
    obtain ⟨⟨hp, -⟩, ⟨⟩⟩ := Option.ite_none_right_eq_some.mp hstep
    have hblocked : s.blocked = Point.sigwait.blocks := hp ▸ h.blocked
    exact h.goes hnone rfl hblocked (.inl rfl) trivial fun y hy => ⟨hy, .inl rfl⟩
  | arrive x | deliver x calls | handlerCall => cases hstep

theorem Sound.step (h : Sound s) (hstep : step a s = some s') : Sound s' := by
  cases a with
  | arrive x =>
    obtain rfl := Option.some.inj hstep
    exact ⟨h.blocked, h.handler, h.ticks, h.point, h.holds⟩
  | deliver x calls =>
    obtain ⟨⟨hblocked, -, htick⟩, ⟨⟩⟩ := Option.ite_none_right_eq_some.mp hstep
    refine ⟨h.blocked, fun hb => absurd (hblocked.symm.trans hb) (by decide), fun ht => ?_,
      h.point, h.holds⟩
    obtain ⟨hzero, hnot⟩ := h.ticks ht
    refine ⟨hzero, fun hmem => ?_⟩
    obtain hmem | hmem := List.mem_append.mp hmem
    · exact htick.resolve_left (by simp [ht]) hmem
    · exact hnot hmem
  | handlerCall => exact h.handlerCall hstep
  | next | ready | idle sig | sigwait x =>
    obtain ⟨hnone, hmain⟩ := Option.ite_none_right_eq_some.mp hstep
    exact h.main hnone hmain

theorem ReachedBy.sound {ok : Act e → Process e → Prop} (h : ReachedBy ok s) : Sound s :=
  Reach.invariant h .start fun _ _ _ _ hs _ hstep => hs.step hstep

/-! ### Interrupt events -/

/-- Event `j` is pending, or has been taken and is handled next. -/
def Due (j : e.InterruptEventId) (s : Process e) : Prop :=
  s.pendingInterruptEvents.getLsbD j = true ∨ s.point = .unblock j ∨ s.point = .handle j

/-- How many statements there are from the head of the inner loop to the end of
    `interrupt_event_handle(j)`: in this turn of the outer loop, or in the next one. -/
def forRank (j : e.InterruptEventId) (current : ℕ) : ℕ :=
  if current ≤ j then 6 * (j - current) + 6 else 6 * (e.interruptEvents - current) + 6 * j + 8

/-- How many statements of the RTOS it takes at most to handle event `j` once it is due. -/
def rank (j : e.InterruptEventId) : Point → ℕ
  | .forPending current => forRank j current
  | .ifPending current => forRank j current - 1
  | .block current => forRank j current - 2
  | .clear current => forRank j current - 3
  | .unblock current => forRank j current - 4
  | .handle current => forRank j current - 5
  | .whilePending => 6 * j + 7
  | .task | .raise => 6 * j + 8
  | .waitUnblock => 6 * j + 9
  | .sigwait => 6 * j + 10
  | .waitCheck => 6 * j + 11
  | .waitBlock => 6 * j + 12
  | .select => 6 * j + 13
  | .tick => 6 * j + 14

theorem rank_le (j : e.InterruptEventId) (p : Point) : rank j p ≤ 6 * e.interruptEvents + 8 := by
  have hj := j.isLt
  have hfor : ∀ current, forRank j current ≤ 6 * e.interruptEvents + 8 := fun current => by
    unfold forRank
    split <;> omega
  cases p with
  | forPending current => exact hfor current
  | ifPending current | block current | clear current | unblock current | handle current =>
    exact (Nat.sub_le _ _).trans (hfor current)
  | whilePending | task | raise | waitUnblock | sigwait | waitCheck | waitBlock | select | tick =>
    simp only [rank]
    omega

theorem forRank_succ {current : ℕ} (hcurrent : current < e.interruptEvents) (hne : current ≠ j) :
    forRank j (current + 1) + 6 ≤ forRank j current := by
  unfold forRank
  split_ifs <;> omega

theorem Due.pending (h : Due j s) (hunblock : s.point ≠ .unblock j) (hhandle : s.point ≠ .handle j) :
    s.pendingInterruptEvents.getLsbD j = true ∧ s.pendingInterruptEvents ≠ 0 := by
  have hbit := h.resolve_right (not_or.mpr ⟨hunblock, hhandle⟩)
  refine ⟨hbit, fun hzero => ?_⟩
  simp [hzero] at hbit

/-- A statement of the RTOS handles an event that is due, or comes nearer to that. -/
theorem Due.next (h : Due j s) (hs : Sound s) (hstep : Process.next s s.point = some s') :
    s'.handled j = s.handled j + 1 ∨
      (Due j s' ∧ s'.handled j = s.handled j ∧ rank j s'.point < rank j s.point) := by
  have hpoint := hs.point
  have hpending := h.pending
  have hj := j.isLt
  cases hp : s.point <;> simp only [hp] at hpoint hpending hstep <;>
    simp only [Process.next, Option.some.injEq, reduceCtorEq] at hstep
  case task =>
    subst hstep
    exact .inr ⟨.inl (hpending nofun nofun).1, rfl, by simp [goto, rank]⟩
  case whilePending =>
    rw [if_pos ⟨by omega, (hpending nofun nofun).2⟩] at hstep
    subst hstep
    exact .inr ⟨.inl (hpending nofun nofun).1, rfl, by simp [goto, rank, forRank]⟩
  case forPending current =>
    subst hstep
    split_ifs with hmore
    · refine .inr ⟨.inl (hpending nofun nofun).1, rfl, ?_⟩
      simp only [goto, rank, forRank]
      split <;> omega
    · refine .inr ⟨.inl (hpending nofun nofun).1, rfl, ?_⟩
      have hle : e.interruptEvents ≤ current :=
        not_lt.mp fun hlt => hmore ⟨hlt, (hpending nofun nofun).2⟩
      simp only [goto, rank, forRank]
      rw [if_neg (by omega)]
      omega
  case ifPending current =>
    subst hstep
    split_ifs with hbit
    · refine .inr ⟨.inl (hpending nofun nofun).1, rfl, ?_⟩
      simp only [goto, rank, forRank]
      split <;> omega
    · have hne : current ≠ j := by
        rintro rfl
        exact hbit (hpending nofun nofun).1
      have hsucc := forRank_succ hpoint hne
      refine .inr ⟨.inl (hpending nofun nofun).1, rfl, ?_⟩
      simp only [goto, rank]
      omega
  case block current =>
    subst hstep
    refine .inr ⟨.inl (hpending nofun nofun).1, rfl, ?_⟩
    simp only [goto, rank, forRank]
    split <;> omega
  case clear current =>
    subst hstep
    refine .inr ⟨?_, rfl, ?_⟩
    · by_cases hne : (j : ℕ) = current
      · exact .inr (.inl (congrArg Point.unblock hne.symm))
      · refine .inl ?_
        show (clearBit _ current).getLsbD j = true
        rw [getLsbD_clearBit, (hpending nofun nofun).1, decide_eq_true hne]
        rfl
    · simp only [goto, rank, forRank]
      split <;> omega
  case unblock current =>
    subst hstep
    refine .inr ⟨?_, rfl, ?_⟩
    · obtain hbit | hunblock | hhandle := h
      · exact .inl hbit
      · exact .inr (.inr (congrArg Point.handle (Point.unblock.inj (hp.symm.trans hunblock))))
      · cases hp.symm.trans hhandle
    · simp only [goto, rank, forRank]
      split <;> omega
  case handle current =>
    subst hstep
    by_cases hne : (j : ℕ) = current
    · exact .inl (if_pos hne)
    · have hbit := (hpending nofun fun heq => hne (Point.handle.inj heq).symm).1
      have hsucc := forRank_succ hpoint (Ne.symm hne)
      refine .inr ⟨.inl hbit, if_neg hne, ?_⟩
      simp only [goto, rank]
      omega
  case tick | waitBlock | waitUnblock | raise =>
    subst hstep
    exact .inr ⟨.inl (hpending nofun nofun).1, rfl, by simp [goto, rank]⟩
  case waitCheck =>
    subst hstep
    split_ifs
    · exact .inr ⟨.inl (hpending nofun nofun).1, rfl, by simp [goto, rank]⟩
    · exact .inr ⟨.inl (hpending nofun nofun).1, rfl, by simp [goto, rank]⟩

/-- Other steps leave an event due. -/
theorem Due.step (h : Due j s) (hs : Sound s) (hstep : step a s = some s') :
    s'.handled j = s.handled j + 1 ∨ (Due j s' ∧ s'.handled j = s.handled j ∧
      rank j s'.point + (if a.isMain then 1 else 0) ≤ rank j s.point) := by
  cases a with
  | arrive x =>
    obtain rfl := Option.some.inj hstep
    exact .inr ⟨h, rfl, le_rfl⟩
  | deliver x calls =>
    obtain ⟨-, ⟨⟩⟩ := Option.ite_none_right_eq_some.mp hstep
    exact .inr ⟨h, rfl, le_rfl⟩
  | handlerCall =>
    cases hhandler : s.handler with
    | nil => simp [Process.step, hhandler] at hstep
    | cons f rest =>
      simp only [Process.step, hhandler, Option.some.injEq] at hstep
      subst hstep
      obtain ⟨hpoint, -, -, -, -, -, -, -, hhandled⟩ := call_eq f { s with handler := rest }
      refine .inr ⟨?_, by rw [hhandled], by rw [hpoint]; exact le_rfl⟩
      rw [Due, hpoint]
      exact h.imp (call_pendingInterruptEvents f { s with handler := rest } j) id
  | next =>
    obtain ⟨-, hnext⟩ := Option.ite_none_right_eq_some.mp hstep
    exact h.next hs hnext
  | ready =>
    obtain ⟨-, hmain⟩ := Option.ite_none_right_eq_some.mp hstep
    obtain ⟨hp, ⟨⟩⟩ := Option.ite_none_right_eq_some.mp hmain
    have hbit := (h.pending (by simp [hp]) (by simp [hp])).1
    exact .inr ⟨.inl hbit, rfl, by simp [goto, rank, hp, Act.isMain]⟩
  | idle sig =>
    obtain ⟨-, hmain⟩ := Option.ite_none_right_eq_some.mp hstep
    obtain ⟨hp, ⟨⟩⟩ := Option.ite_none_right_eq_some.mp hmain
    have hbit := (h.pending (by simp [hp]) (by simp [hp])).1
    exact .inr ⟨.inl hbit, rfl, by simp [goto, rank, hp, Act.isMain]⟩
  | sigwait x =>
    -- nothing is due where `sigwait()` is called
    obtain ⟨-, hmain⟩ := Option.ite_none_right_eq_some.mp hstep
    obtain ⟨⟨hp, -⟩, -⟩ := Option.ite_none_right_eq_some.mp hmain
    have hne := (h.pending (by simp [hp]) (by simp [hp])).2
    have hcheck : interruptEventCheck s = false := by
      have hpoint := hs.point
      rwa [hp] at hpoint
    simp only [interruptEventCheck, Bool.or_eq_false_iff, bne_eq_false_iff_eq] at hcheck
    exact absurd hcheck.1 hne

/-- The calls of `interrupt_event_handle(j)` that the pending and the taken event will lead to. -/
def owed (j : e.InterruptEventId) (s : Process e) : ℕ :=
  (s.pendingInterruptEvents.getLsbD j).toNat +
    if s.point = .unblock j ∨ s.point = .handle j then 1 else 0

/-- A statement of the RTOS handles what is owed and nothing else. -/
theorem next_owed (hs : Sound s) (hstep : next s s.point = some s') :
    s'.handled j + owed j s' = s.handled j + owed j s ∧ s'.raises = s.raises ∧
      s.handled j ≤ s'.handled j := by
  have hpoint := hs.point
  cases hp : s.point <;> simp only [hp] at hpoint hstep <;>
    simp only [Process.next, Option.some.injEq, reduceCtorEq] at hstep
  case task | block current | tick | waitBlock | waitUnblock | raise =>
    subst hstep
    exact ⟨by simp [owed, goto, hp, Process.raise], rfl, le_rfl⟩
  case forPending current | ifPending current | waitCheck =>
    subst hstep
    split_ifs <;> exact ⟨by simp [owed, goto, hp], rfl, le_rfl⟩
  case whilePending =>
    subst hstep
    unfold processReturns
    split_ifs <;> exact ⟨by simp [owed, goto, hp], rfl, le_rfl⟩
  case clear current =>
    subst hstep
    refine ⟨?_, rfl, le_rfl⟩
    by_cases hne : (j : ℕ) = current
    · have hbit : s.pendingInterruptEvents.getLsbD j = true := hne ▸ hpoint.2
      simp [owed, goto, hp, hne, getLsbD_clearBit, hne ▸ hbit]
    · simp [owed, goto, hp, hne, Ne.symm hne, getLsbD_clearBit]
  case unblock current =>
    subst hstep
    exact ⟨by simp [owed, goto, hp], rfl, le_rfl⟩
  case handle current =>
    subst hstep
    by_cases hne : (j : ℕ) = current
    · simp [owed, goto, hp, interruptEventHandle, hne]
      omega
    · simp [owed, goto, hp, interruptEventHandle, hne, Ne.symm hne]

theorem owed_raise (i : e.InterruptEventId) (s : Process e) :
    owed j (interruptEventRaise i s) + s.raises j ≤ owed j s + (interruptEventRaise i s).raises j := by
  have hpoint : (interruptEventRaise i s).point = s.point := rfl
  rw [owed, owed, hpoint, getLsbD_raise]
  by_cases hi : j = i
  · subst hi
    have hle := (s.pendingInterruptEvents.getLsbD j).toNat_le
    simp [interruptEventRaise]
    omega
  · simp [interruptEventRaise, hi, Ne.symm (Fin.val_ne_of_ne hi)]

/-- What is handled or owed grows with the calls of `interrupt_event_raise(j)` only. -/
theorem step_owed (hs : Sound s) (hstep : step a s = some s') :
    s'.handled j + owed j s' + s.raises j ≤ s.handled j + owed j s + s'.raises j ∧
      s.handled j ≤ s'.handled j := by
  cases a with
  | arrive x => obtain rfl := Option.some.inj hstep; exact ⟨le_rfl, le_rfl⟩
  | deliver x calls =>
    obtain ⟨-, ⟨⟩⟩ := Option.ite_none_right_eq_some.mp hstep
    exact ⟨le_rfl, le_rfl⟩
  | handlerCall =>
    cases hhandler : s.handler with
    | nil => simp [Process.step, hhandler] at hstep
    | cons f rest =>
      simp only [Process.step, hhandler, Option.some.injEq] at hstep
      subst hstep
      cases f with
      | interruptEventRaise i =>
        have howed := owed_raise (j := j) i { s with handler := rest }
        refine ⟨?_, le_rfl⟩
        show s.handled j + _ + s.raises j ≤ s.handled j + owed j { s with handler := rest } + _
        rw [Nat.add_assoc, Nat.add_assoc]
        exact Nat.add_le_add_left howed _
      | timerTick =>
        simp only [call, timerTick]
        split <;> exact ⟨le_rfl, le_rfl⟩
  | next =>
    obtain ⟨-, hnext⟩ := Option.ite_none_right_eq_some.mp hstep
    obtain ⟨howed, hraises, hle⟩ := next_owed (j := j) hs hnext
    exact ⟨by rw [howed, hraises], hle⟩
  | ready =>
    obtain ⟨-, hmain⟩ := Option.ite_none_right_eq_some.mp hstep
    obtain ⟨hp, ⟨⟩⟩ := Option.ite_none_right_eq_some.mp hmain
    exact ⟨by simp [owed, goto, hp], le_rfl⟩
  | idle sig =>
    obtain ⟨-, hmain⟩ := Option.ite_none_right_eq_some.mp hstep
    obtain ⟨hp, ⟨⟩⟩ := Option.ite_none_right_eq_some.mp hmain
    exact ⟨by simp [owed, goto, hp], le_rfl⟩
  | sigwait x =>
    obtain ⟨-, hmain⟩ := Option.ite_none_right_eq_some.mp hstep
    obtain ⟨⟨hp, -⟩, ⟨⟩⟩ := Option.ite_none_right_eq_some.mp hmain
    exact ⟨by simp [owed, goto, hp], le_rfl⟩

/-- No event is handled that was not raised. -/
theorem ReachedBy.handled_le {ok : Act e → Process e → Prop} (h : ReachedBy ok s) :
    s.handled j + owed j s ≤ s.raises j := by
  refine Reach.invariant (I := fun s => s.handled j + owed j s ≤ s.raises j) h
    (by simp [owed, Process.start]) fun s a s' hs hle _ hstep => ?_
  have howed := (step_owed (j := j) (ReachedBy.sound hs) hstep).1
  omega

theorem handled_mono : ∀ {as : List (Act e)} {s s' : Process e}, Sound s →
    run step (fun _ _ => true) as s = some s' → s.handled j ≤ s'.handled j
  | [], _, _, _, hrun => by
    obtain rfl := Option.some.inj hrun
    exact le_rfl
  | a :: as, s, _, hs, hrun => by
    obtain ⟨t, hstep, hrest⟩ := Option.bind_eq_some_iff.mp
      (Option.ite_none_right_eq_some.mp hrun).2
    exact (step_owed hs hstep).2.trans (handled_mono (hs.step hstep) hrest)

/-- In a run from a state in which event `j` is due it is handled, or it is still due and so many
    fewer statements away. -/
theorem Due.run : ∀ {as : List (Act e)} {s : Process e}, Due j s → Sound s →
    run Process.step (fun _ _ => true) as s = some s' → s.handled j < s'.handled j ∨
      (Due j s' ∧ as.countP Act.isMain + rank j s'.point ≤ rank j s.point)
  | [], s, h, _, hrun => by
    obtain rfl := Option.some.inj hrun
    exact .inr ⟨h, by simp⟩
  | a :: as, s, h, hs, hrun => by
    obtain ⟨t, hstep, hrest⟩ := Option.bind_eq_some_iff.mp
      (Option.ite_none_right_eq_some.mp hrun).2
    obtain hhandled | ⟨hdue, hsame, hrank⟩ := h.step hs hstep
    · have hle := handled_mono (hs.step hstep) hrest (j := j)
      exact .inl (by omega)
    · obtain hhandled | ⟨hdue', hrank'⟩ := hdue.run (hs.step hstep) hrest
      · exact .inl (hsame ▸ hhandled)
      · refine .inr ⟨hdue', ?_⟩
        rw [List.countP_cons]
        omega

/-- While an event is due, the RTOS can go on once the handlers have returned. -/
theorem Due.exists_main (h : Due j s) (hs : Sound s) (hnone : s.handler = []) :
    ∃ a : Act e, a.isMain = true ∧ (Process.step a s).isSome = true := by
  cases hp : s.point with
  | select => exact ⟨.ready, rfl, by simp [Process.step, Process.main, hnone, hp]⟩
  | sigwait =>
    have hpoint := hs.point
    have hne := (h.pending (by simp [hp]) (by simp [hp])).2
    rw [hp] at hpoint
    have hcheck : interruptEventCheck s = false := hpoint
    simp only [interruptEventCheck, Bool.or_eq_false_iff, bne_eq_false_iff_eq] at hcheck
    exact absurd hcheck.1 hne
  | task | whilePending | forPending current | ifPending current | block current | clear current
  | unblock current | handle current | tick | waitBlock | waitCheck | waitUnblock | raise =>
    exact ⟨.next, rfl, by simp [Process.step, Process.main, Process.next, hnone, hp]⟩

theorem Sound.quiet (h : Sound s) (hp : s.point = .sigwait) :
    s.pendingInterruptEvents = 0 ∧ s.timerTicksPending = 0 := by
  have hpoint := h.point
  rw [hp] at hpoint
  have hcheck : interruptEventCheck s = false := hpoint
  simp only [interruptEventCheck, Bool.or_eq_false_iff, bne_eq_false_iff_eq,
    Bool.and_eq_false_iff] at hcheck
  exact ⟨hcheck.1, hcheck.2.elim (fun ht => (h.ticks ht).1) id⟩

/-! ### Signals -/

/-- The process raises the signal that `sigwait()` has taken in this call. -/
def RaisesConsumed (s : Process e) : Prop := s.consumed ≠ none ∧ s.sig = s.consumed

/-- `sigwait()` has taken the signal and it has not been raised again. -/
def held (x : Signal) (s : Process e) : ℕ := if s.consumed = some x then 1 else 0

/-- When `interrupt_event_wait()` checks for them, no interrupt event and no tick is pending. -/
def NonePending (a : Act e) (s : Process e) : Prop :=
  a = .next → s.point = .waitCheck → interruptEventCheck s = false

instance (a : Act e) (s : Process e) : Decidable (NonePending a s) :=
  inferInstanceAs (Decidable (_ → _ → _))

structure Balanced (s : Process e) : Prop where
  arrivals : ∀ x, s.arrivals x = s.runs x + s.pending x + held x s
  consumed : s.point = .waitUnblock ∨ s.point = .raise → s.consumed ≠ none

/-- A statement of the RTOS other than `raise(sig)` has to do with no signal. -/
theorem next_signals (hp : s.point ≠ .raise) (hstep : next s s.point = some s') :
    s'.arrivals = s.arrivals ∧ s'.runs = s.runs ∧ s'.pending = s.pending ∧
      s'.consumed = s.consumed := by
  cases hpoint : s.point <;> simp only [hpoint] at hp hstep <;>
    simp only [Process.next, Option.some.injEq, reduceCtorEq] at hstep
  case raise => exact absurd rfl hp
  case whilePending =>
    subst hstep
    unfold processReturns
    split_ifs <;> exact ⟨rfl, rfl, rfl, rfl⟩
  case forPending | ifPending | waitCheck =>
    subst hstep
    split_ifs <;> exact ⟨rfl, rfl, rfl, rfl⟩
  all_goals
    subst hstep
    exact ⟨rfl, rfl, rfl, rfl⟩

theorem next_point (hstep : next s s.point = some s')
    (hp : s'.point = .waitUnblock ∨ s'.point = .raise) :
    (s.point = .waitCheck ∧ interruptEventCheck s = true) ∨ s.point = .waitUnblock := by
  cases hpoint : s.point <;> simp only [hpoint] at hstep <;>
    simp only [Process.next, Option.some.injEq, reduceCtorEq] at hstep
  case waitUnblock => exact .inr rfl
  case waitCheck =>
    subst hstep
    split_ifs at hp with hcheck
    · exact .inl ⟨rfl, hcheck⟩
    · simp [goto] at hp
  case whilePending =>
    subst hstep
    unfold processReturns at hp
    split_ifs at hp <;> simp [goto] at hp
  case forPending | ifPending =>
    subst hstep
    split_ifs at hp <;> simp [goto] at hp
  all_goals
    subst hstep
    simp [goto] at hp

theorem Balanced.next (h : Balanced s) (hs : Sound s) (hok : NonePending .next s)
    (hstep : next s s.point = some s') : Balanced s' := by
  by_cases hraise : s.point = .raise
  · rw [hraise] at hstep
    obtain rfl := Option.some.inj hstep
    obtain ⟨y, hy⟩ := Option.ne_none_iff_exists'.mp (h.consumed (.inr hraise))
    have hsig := (hs.holds y hy).1
    refine ⟨fun x => ?_, by simp [goto]⟩
    have harrivals := h.arrivals x
    by_cases hx : y = x
    · simp [goto, Process.raise, held, hsig, hy, hx] at harrivals ⊢
      omega
    · simpa [goto, Process.raise, held, hsig, hy, hx] using harrivals
  · obtain ⟨harrivals, hruns, hpending, hconsumed⟩ := next_signals hraise hstep
    refine ⟨fun x => ?_, fun hp => ?_⟩
    · rw [harrivals, hruns, hpending, held, hconsumed]
      exact h.arrivals x
    · rw [hconsumed]
      obtain ⟨hcheck, hfound⟩ | hunblock := next_point hstep hp
      · exact absurd (hok rfl hcheck) (by simp [hfound])
      · exact h.consumed (.inl hunblock)

theorem Balanced.step (h : Balanced s) (hs : Sound s) (hok : NonePending a s)
    (hstep : step a s = some s') : Balanced s' := by
  cases a with
  | arrive x =>
    obtain rfl := Option.some.inj hstep
    refine ⟨fun y => ?_, h.consumed⟩
    have harrivals := h.arrivals y
    by_cases hy : y = x
    · subst hy
      simp [held] at harrivals ⊢
      omega
    · simpa [held, hy] using harrivals
  | deliver x calls =>
    obtain ⟨⟨-, hpos, -⟩, ⟨⟩⟩ := Option.ite_none_right_eq_some.mp hstep
    refine ⟨fun y => ?_, h.consumed⟩
    have harrivals := h.arrivals y
    by_cases hy : y = x
    · subst hy
      simp [held] at harrivals ⊢
      omega
    · simpa [held, hy] using harrivals
  | handlerCall =>
    cases hhandler : s.handler with
    | nil => simp [Process.step, hhandler] at hstep
    | cons f rest =>
      simp only [Process.step, hhandler, Option.some.injEq] at hstep
      subst hstep
      obtain ⟨hpoint, -, -, -, hconsumed, hpending, harrivals, hruns, -⟩ :=
        call_eq f { s with handler := rest }
      refine ⟨fun y => ?_, ?_⟩
      · rw [harrivals, hruns, hpending, held, hconsumed]
        exact h.arrivals y
      · rw [hpoint, hconsumed]
        exact h.consumed
  | next =>
    obtain ⟨-, hnext⟩ := Option.ite_none_right_eq_some.mp hstep
    exact h.next hs hok hnext
  | ready =>
    obtain ⟨-, hmain⟩ := Option.ite_none_right_eq_some.mp hstep
    obtain ⟨-, ⟨⟩⟩ := Option.ite_none_right_eq_some.mp hmain
    exact ⟨h.arrivals, by simp [goto]⟩
  | idle sig =>
    obtain ⟨-, hmain⟩ := Option.ite_none_right_eq_some.mp hstep
    obtain ⟨-, ⟨⟩⟩ := Option.ite_none_right_eq_some.mp hmain
    exact ⟨h.arrivals, by simp [goto]⟩
  | sigwait x =>
    obtain ⟨-, hmain⟩ := Option.ite_none_right_eq_some.mp hstep
    obtain ⟨⟨hp, hpos⟩, ⟨⟩⟩ := Option.ite_none_right_eq_some.mp hmain
    have hconsumed := hs.consumed (by simp [hp]) (by simp [hp])
    refine ⟨fun y => ?_, fun _ => by simp [goto]⟩
    have harrivals := h.arrivals y
    by_cases hy : y = x
    · subst hy
      simp [goto, held, hconsumed] at harrivals ⊢
      omega
    · simpa [goto, held, hconsumed, hy, Ne.symm hy] using harrivals

theorem ReachedBy.balanced (h : ReachedBy NonePending s) : Balanced s := by
  refine Reach.invariant h ⟨fun x => rfl, by simp [Process.start]⟩ fun s a s' hs hb hok hstep => ?_
  exact hb.step (ReachedBy.sound hs) hok hstep

/-- In this call of `interrupt_event_wait()` there is work to do, so that no signal is waited for. -/
def Skips (s : Process e) : Prop :=
  (s.point = .waitCheck ∧ interruptEventCheck s = true) ∨
    ((s.point = .waitUnblock ∨ s.point = .raise) ∧ s.consumed = none)

theorem Skips.step (h : Skips s) (hs : Sound s) (hraise : s.point ≠ .raise)
    (hstep : step a s = some s') : Skips s' := by
  have hblocks : s.blocked = true := by
    rw [hs.blocked]
    obtain ⟨hp, -⟩ | ⟨hp | hp, -⟩ := h
    · rw [hp]; rfl
    · rw [hp]; rfl
    · exact absurd hp hraise
  have hpoint : s.point = .waitCheck ∨ s.point = .waitUnblock := by
    obtain ⟨hp, -⟩ | ⟨hp | hp, -⟩ := h
    · exact .inl hp
    · exact .inr hp
    · exact absurd hp hraise
  cases a with
  | arrive x => obtain rfl := Option.some.inj hstep; exact h
  | deliver x calls =>
    obtain ⟨⟨hfree, -⟩, -⟩ := Option.ite_none_right_eq_some.mp hstep
    exact absurd (hblocks.symm.trans hfree) (by decide)
  | handlerCall => simp [Process.step, hs.handler hblocks] at hstep
  | next =>
    obtain ⟨-, hnext⟩ := Option.ite_none_right_eq_some.mp hstep
    have hconsumed : s.consumed = none := by
      obtain ⟨hp, -⟩ | ⟨-, hnone⟩ := h
      · exact hs.consumed (by simp [hp]) (by simp [hp])
      · exact hnone
    have hsame := (next_signals hraise hnext).2.2.2
    refine .inr ⟨?_, hsame.trans hconsumed⟩
    obtain ⟨hp, hcheck⟩ | ⟨hp, -⟩ := h
    · simp only [Process.main, hp, Process.next, hcheck, if_true, Option.some.injEq] at hnext
      subst hnext
      exact .inl rfl
    · have hp := hp.resolve_right hraise
      simp only [Process.main, hp, Process.next, Option.some.injEq] at hnext
      subst hnext
      exact .inr rfl
  | ready | idle sig =>
    obtain ⟨-, hmain⟩ := Option.ite_none_right_eq_some.mp hstep
    obtain ⟨hp, -⟩ := Option.ite_none_right_eq_some.mp hmain
    rw [hp] at hpoint
    exact absurd hpoint (by decide)
  | sigwait x =>
    obtain ⟨-, hmain⟩ := Option.ite_none_right_eq_some.mp hstep
    obtain ⟨⟨hp, -⟩, -⟩ := Option.ite_none_right_eq_some.mp hmain
    rw [hp] at hpoint
    exact absurd hpoint (by decide)

end Process

open Process

/-- Every event that is raised is handled after a bounded number of statements of the RTOS, which
    can execute them; no event is handled more often than it is raised; and `sigwait()` is called
    with nothing pending. If the check of `interrupt_event_wait()` never finds anything pending,
    `raise()` is called with the signal that `sigwait()` has taken, and the handlers run once for each
    arrival; where the check finds something, `raise()` is called with another value. -/
theorem posix_signals_kept :
    (∀ (j : e.InterruptEventId) (s s₁ s₂ : Process e) (rest : List (HandlerCall e))
      (as : List (Act e)), ReachedBy (fun _ _ => True) s →
        s.handler = .interruptEventRaise j :: rest → step .handlerCall s = some s₁ →
        run step (fun _ _ => true) as s₁ = some s₂ →
        6 * e.interruptEvents + 8 < as.countP Act.isMain → s₁.handled j < s₂.handled j) ∧
    (∀ (j : e.InterruptEventId) (s : Process e), ReachedBy (fun _ _ => True) s → Due j s →
      s.handler = [] → ∃ a : Act e, a.isMain = true ∧ (step a s).isSome = true) ∧
    (∀ (j : e.InterruptEventId) (s : Process e), ReachedBy (fun _ _ => True) s →
      s.handled j ≤ s.raises j) ∧
    (∀ s : Process e, ReachedBy (fun _ _ => True) s → s.point = .sigwait →
      s.pendingInterruptEvents = 0 ∧ s.timerTicksPending = 0) ∧
    (∀ s : Process e, ReachedBy NonePending s →
      (s.point = .raise → RaisesConsumed s) ∧
        ∀ x, s.arrivals x = s.runs x + s.pending x + held x s) ∧
    ∀ s s' : Process e, ReachedBy (fun _ _ => True) s → s.point = .waitCheck →
      interruptEventCheck s = true → Reach step (fun _ s => s.point ≠ .raise) s s' →
      s'.point = .raise → ¬ RaisesConsumed s' := by
  refine ⟨fun j s s₁ s₂ rest as hs hhandler hraise hrun hlong => ?_,
    fun j s hs hdue hnone => hdue.exists_main hs.sound hnone,
    fun j s hs => (Nat.le_add_right _ _).trans hs.handled_le,
    fun s hs hp => hs.sound.quiet hp, fun s hs => ⟨fun hp => ?_, hs.balanced.arrivals⟩,
    fun s s' hs hp hcheck hreach hraise hconsumed => ?_⟩
  · have hdue : Due j s₁ := by
      simp only [step, hhandler, Option.some.injEq] at hraise
      subst hraise
      refine .inl ?_
      show (interruptEventRaise j { s with handler := rest }).pendingInterruptEvents.getLsbD j = true
      rw [getLsbD_raise, decide_eq_true rfl, Bool.or_true]
    have hle := rank_le j s₁.point
    obtain hhandled | ⟨-, hrank⟩ := hdue.run (hs.sound.step hraise) hrun
    · exact hhandled
    · omega
  · have hne := hs.balanced.consumed (.inr hp)
    obtain ⟨x, hx⟩ := Option.ne_none_iff_exists'.mp hne
    exact ⟨hne, (hs.sound.holds x hx).1.trans hx.symm⟩
  · have hskips : Sound s' ∧ Skips s' := by
      refine hreach.invariant (I := fun s => Sound s ∧ Skips s) ⟨hs.sound, .inl ⟨hp, hcheck⟩⟩ ?_
      exact fun s a s' _ hI hok hstep => ⟨hI.1.step hstep, hI.2.step hI.1 hok hstep⟩
    obtain ⟨hp', -⟩ | ⟨-, hnone⟩ := hskips.2
    · cases hraise.symm.trans hp'
    · exact hconsumed.1 hnone

/-- One interrupt event, in a variant with ticks. -/
abbrev oneEvent : EventConfig := ⟨1, true, by decide⟩

theorem exists_process (ok : Act oneEvent → Process oneEvent → Prop)
    (check : Act oneEvent → Process oneEvent → Bool) (as : List (Act oneEvent))
    (p : Process oneEvent → Bool) (has : ∀ a ∈ as, ∀ s, check a s = true → ok a s)
    (h : (run step check as start).any p = true) :
    ∃ s, ReachedBy ok s ∧ p s = true :=
  exists_reach_of_run has h

/-- A signal that `sigwait()` takes is raised again, and its handler runs. -/
theorem posix_signals_kept_one : ∃ s : Process oneEvent, s.arrivals .sigalrm = 1 ∧
    s.pending .sigalrm = 0 ∧ s.consumed = none ∧ s.runs .sigalrm = 1 := by
  obtain ⟨s, hs, hp⟩ := exists_process NonePending
    (fun a s => NonePending a s)
    [.next, .next, .next, .idle none, .next, .next, .arrive .sigalrm, .sigwait .sigalrm, .next, .next,
      .deliver .sigalrm [.timerTick], .handlerCall]
    (fun s => s.arrivals .sigalrm = 1 ∧ s.pending .sigalrm = 0 ∧ s.consumed = none)
    (by simp) (by decide +kernel)
  obtain ⟨harrivals, hpending, hconsumed⟩ := of_decide_eq_true hp
  have hbalance := (posix_signals_kept.2.2.2.2.1 s hs).2 .sigalrm
  rw [harrivals, hpending, held, hconsumed] at hbalance
  exact ⟨s, harrivals, hpending, hconsumed, hbalance.symm⟩

/-- A tick is counted between the decision to wait and the check, and `sig` happens to be the number
    of another signal: the handler of that signal runs, though it has not arrived. -/
theorem not_posix_signals_kept_tick : ¬ ∀ s : Process oneEvent, ReachedBy (fun _ _ => True) s →
    (s.point = .raise → RaisesConsumed s) ∧
      ∀ x, s.arrivals x = s.runs x + s.pending x + held x s := by
  intro h
  obtain ⟨s, hs, hp⟩ := exists_process (fun _ _ => True) (fun _ _ => true)
    [.next, .next, .next, .idle (some .sigusr1), .arrive .sigalrm, .deliver .sigalrm [.timerTick],
      .handlerCall, .next, .next, .next, .next, .deliver .sigusr1 []]
    (fun s => s.arrivals .sigusr1 = 0 ∧ s.runs .sigusr1 = 1) (by simp) (by decide +kernel)
  obtain ⟨harrivals, hruns⟩ := of_decide_eq_true hp
  have hbalance := (h s hs).2 .sigusr1
  omega

end Echronos.Posix
