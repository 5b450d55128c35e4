import Echronos.Kernel.Expiries
import Echronos.Variants.PrioInherit

/-! # What the overflow mark of a timer reports

    A timer that expires while a signal of its set is still pending for its task loses that signal.
    `timer_process_one` marks the timer when `signal_pending` holds of the set, that is, when all of
    its signals are pending: of a set of several signals some can be lost without a mark. -/

namespace Echronos

open Schemes

variable {c : Config} {S : Sched c.tasks c.mutexes}

namespace Expiry

open Echronos.Core

/-- A signal that the expiry sends is still pending for the task it is sent to. -/
def loses (e : Expiry c S) : Bool :=
  (e.core.timers e.timer).errorId = 0 &&
    (e.core.timers e.timer).taskId.any fun t =>
      signalPeek (e.core.signals t) (e.core.timers e.timer).signalSet

/-- Of the signals that the expiry sends, all are still pending for their task or none is. -/
def AllOrNone (e : Expiry c S) : Prop :=
  (e.core.timers e.timer).errorId = 0 → ∀ t, (e.core.timers e.timer).taskId = some t →
    signalPeek (e.core.signals t) (e.core.timers e.timer).signalSet = true →
      signalPending e.core t (e.core.timers e.timer).signalSet = true

instance (e : Expiry c S) : Decidable e.AllOrNone := inferInstanceAs (Decidable (_ → _))

theorem signalPeek_of_pending {k : Core c S} {t : c.TaskId} {set : c.SignalSet} (hset : set ≠ 0)
    (h : signalPending k t set = true) : signalPeek (k.signals t) set = true := by
  have heq : k.signals t &&& set = set := by simpa [signalPending] using h
  simpa [signalPeek, heq] using hset

/-- A mark says that a signal is lost. -/
theorem loses_of_marks {e : Expiry c S} (hset : (e.core.timers e.timer).signalSet ≠ 0)
    (h : marksOverflow e.timer e.core = true) : e.loses = true := by
  obtain ⟨herror, htask⟩ := Bool.and_eq_true_iff.mp h
  obtain ⟨t, ht, hpending⟩ := (Option.any_eq_true _ _).mp htask
  refine Bool.and_eq_true_iff.mpr ⟨herror, (Option.any_eq_true _ _).mpr ⟨t, ht, ?_⟩⟩
  exact signalPeek_of_pending hset hpending

/-- A lost signal is marked if and only if all or none are lost. -/
theorem marks_eq_loses_iff {e : Expiry c S} (hset : (e.core.timers e.timer).signalSet ≠ 0) :
    marksOverflow e.timer e.core = e.loses ↔ e.AllOrNone := by
  constructor
  · intro heq herror t ht hpeek
    have hloses : e.loses = true := by simp [loses, herror, ht, hpeek]
    have hmarks := heq.trans hloses
    simpa [marksOverflow, herror, ht] using hmarks
  · intro h
    refine Bool.eq_iff_iff.mpr ⟨loses_of_marks hset, fun hloses => ?_⟩
    obtain ⟨herror, htask⟩ := Bool.and_eq_true_iff.mp hloses
    obtain ⟨t, ht, hpeek⟩ := (Option.any_eq_true _ _).mp htask
    refine Bool.and_eq_true_iff.mpr ⟨herror, (Option.any_eq_true _ _).mpr ⟨t, ht, ?_⟩⟩
    exact h (of_decide_eq_true herror) t ht hpeek

end Expiry

/-! ### Runs -/

/-- The step calls `timer_check_overflow` for timer `i`. -/
def Act.checksOverflow (i : c.TimerId) : Act c → Bool
  | .call (.core (.timerCheckOverflow j)) => j = i
  | _ => false

theorem Act.checksOverflow_iff {i : c.TimerId} {a : Act c} :
    a.checksOverflow i = true ↔ a = .call (.core (.timerCheckOverflow i)) := by
  unfold checksOverflow
  split
  · simp
  · rename_i hne
    refine iff_of_false (by decide) ?_
    rintro rfl
    exact hne i rfl

/-- A system that remembers whether a timer has lost a signal since `timer_check_overflow` was called
    for it. -/
structure Losses (c : Config) (S : Sched c.tasks c.mutexes) where
  state : State c S
  lost : Bool

namespace Losses

open Echronos.Core Echronos.State

def start (memory : Memory) : Losses c S := ⟨State.start memory, false⟩

/-- A step of the system, with what it means for timer `i`. -/
def step (i : c.TimerId) (a : Act c) (w : Losses c S) : Option (Losses c S) :=
  (State.step a w.state).map fun s' =>
    { state := s'
      lost := if a.checksOverflow i then false
        else w.lost || (expiries a w.state).any fun e => e.timer = i && e.loses }

/-- The states reached by steps that all meet `ok`, from the start of the system. -/
def ReachedBy (i : c.TimerId) (ok : Act c → Losses c S → Prop) (w : Losses c S) : Prop :=
  ∃ memory, Reach (step i) ok (start memory) w

/-- Whenever timer `i` expires in the step, all of the signals it sends are still pending for their
    task or none is. -/
def AllOrNone (i : c.TimerId) (a : Act c) (w : Losses c S) : Prop :=
  ∀ e ∈ expiries a w.state, e.timer = i → e.AllOrNone

instance (i : c.TimerId) (a : Act c) (w : Losses c S) : Decidable (AllOrNone i a w) :=
  inferInstanceAs (Decidable (∀ e ∈ _, _))

variable {i : c.TimerId} {w w' : Losses c S} {ok : Act c → Losses c S → Prop}

/-- A timer with signals keeps some. -/
theorem step_signalSet {a : Act c} {s s' : State c S} (hstep : State.step a s = some s')
    (hs : (s.core.timers i).signalSet ≠ 0) : (s'.core.timers i).signalSet ≠ 0 ∧
      ∀ e ∈ expiries a s, (e.core.timers i).signalSet ≠ 0 := by
  refine step_timer_invariant (P := fun tm => tm.signalSet ≠ 0) (fun now tm tm' hset htm => ?_)
    (fun tm overflow htm => htm) (fun tm htm => ?_) hstep hs
  · cases hset with
    | signal t set hset => exact hset
    | disable | enable | reload | error => exact htm
  · rw [(rearm_action tm).2.2.1]
    exact htm

theorem ReachedBy.signalSet (h : w.ReachedBy i ok) (hset : (c.timersInit i).signalSet ≠ 0) :
    (w.state.core.timers i).signalSet ≠ 0 := by
  obtain ⟨memory, hreach⟩ := h
  refine hreach.invariant (I := fun w => (w.state.core.timers i).signalSet ≠ 0) hset
    fun w a w' _ hw _ hstep => ?_
  obtain ⟨s', hs', rfl⟩ := Option.map_eq_some_iff.mp hstep
  exact (step_signalSet hs' hw).1

/-- The mark of a timer after a step, and what it has lost. -/
theorem step_lost {a : Act c} (hstep : step i a w = some w') :
    if a.checksOverflow i then (w'.state.core.timers i).overflow = false ∧ w'.lost = false
    else (w'.state.core.timers i).overflow = ((w.state.core.timers i).overflow ||
        (expiries a w.state).any fun e => e.timer = i && marksOverflow i e.core) ∧
      w'.lost = (w.lost || (expiries a w.state).any fun e => e.timer = i && e.loses) := by
  obtain ⟨s', hs', rfl⟩ := Option.map_eq_some_iff.mp hstep
  split_ifs with hcheck
  · obtain rfl := Act.checksOverflow_iff.mp hcheck
    refine ⟨?_, rfl⟩
    rw [step_timerCheckOverflow hs']
    simp [timerCheckOverflow, setTimer]
  · exact ⟨step_overflow hs' fun ha => hcheck (Act.checksOverflow_iff.mpr ha), rfl⟩

/-- In every run a mark means that a signal has been lost. -/
theorem ReachedBy.overflow_le (h : w.ReachedBy i ok) (hinit : (c.timersInit i).overflow = false)
    (hset : (c.timersInit i).signalSet ≠ 0) :
    (w.state.core.timers i).overflow = true → w.lost = true := by
  obtain ⟨memory, hreach⟩ := h
  refine hreach.invariant
    (I := fun w => (w.state.core.timers i).overflow = true → w.lost = true)
    (fun hstart => ?_) fun w a w' hw ih _ hstep hoverflow => ?_
  · exact absurd (hinit.symm.trans hstart) (by decide)
  · have hlost := step_lost hstep
    split_ifs at hlost with hcheck
    · rw [hlost.1] at hoverflow
      cases hoverflow
    · rw [hlost.1] at hoverflow
      rw [hlost.2]
      obtain hbefore | hnow := Bool.or_eq_true_iff.mp hoverflow
      · rw [ih hbefore, Bool.true_or]
      · obtain ⟨e, he, hmarks⟩ := List.any_eq_true.mp hnow
        obtain ⟨s', hs', -⟩ := Option.map_eq_some_iff.mp hstep
        obtain ⟨htimer, hmarks⟩ := Bool.and_eq_true_iff.mp hmarks
        obtain rfl := of_decide_eq_true htimer
        have hne := (step_signalSet hs' (ReachedBy.signalSet ⟨memory, hw⟩ hset)).2 e he
        refine Bool.or_eq_true_iff.mpr (.inr (List.any_eq_true.mpr ⟨e, he, ?_⟩))
        simpa using Expiry.loses_of_marks hne hmarks

/-- Where all or none of the signals are lost in every step, the mark says whether some are. -/
theorem ReachedBy.overflow_eq (h : w.ReachedBy i (AllOrNone i))
    (hinit : (c.timersInit i).overflow = false) (hset : (c.timersInit i).signalSet ≠ 0) :
    (w.state.core.timers i).overflow = w.lost := by
  obtain ⟨memory, hreach⟩ := h
  refine hreach.invariant (I := fun w => (w.state.core.timers i).overflow = w.lost) hinit
    fun w a w' hw ih hall hstep => ?_
  have hlost := step_lost hstep
  split_ifs at hlost with hcheck
  · rw [hlost.1, hlost.2]
  · obtain ⟨s', hs', -⟩ := Option.map_eq_some_iff.mp hstep
    have hset' := step_signalSet hs' (ReachedBy.signalSet ⟨memory, hw⟩ hset)
    rw [hlost.1, hlost.2, ih]
    refine congrArg (w.lost || ·) (Bool.eq_iff_iff.mpr ?_)
    rw [List.any_eq_true, List.any_eq_true]
    refine exists_congr fun e => and_congr_right fun he => ?_
    by_cases htimer : e.timer = i
    · subst htimer
      rw [(Expiry.marks_eq_loses_iff (hset'.2 e he)).mpr (hall e he rfl)]
    · simp [htimer]

end Losses

open Losses

/-- For a timer with a non-empty set of signals, `timer_check_overflow` returns true only if a signal
    has been lost since its last call. It returns true whenever one has, in every run in which the
    timer always finds all of its signals pending or none; and whenever it finds some of them
    pending, but not all, the loss is not marked. -/
theorem checkOverflow_reports_losses {i : c.TimerId} {enabled : Bool} {reload : BitVec 16} {errorId : ℕ}
    {taskId : Option c.TaskId} {signalSet : c.SignalSet} (hset : signalSet ≠ 0)
    (hi : c.timersInit i = .generated enabled reload errorId taskId signalSet) :
    (∀ w : Losses c S, w.ReachedBy i (fun _ _ => True) →
      (Core.timerCheckOverflow i w.state.core).1 = true → w.lost = true) ∧
    (∀ w : Losses c S, w.ReachedBy i (AllOrNone i) →
      (Core.timerCheckOverflow i w.state.core).1 = w.lost) ∧
    ∀ (w w' : Losses c S) (a : Act c), w.ReachedBy i (fun _ _ => True) → step i a w = some w' →
      ∀ e ∈ State.expiries a w.state, e.timer = i →
        (Core.marksOverflow i e.core = e.loses ↔ e.AllOrNone) := by
  have hinit : (c.timersInit i).overflow = false := by rw [hi]; rfl
  have hset : (c.timersInit i).signalSet ≠ 0 := by rw [hi]; exact hset
  refine ⟨fun w hw => hw.overflow_le hinit hset, fun w hw => hw.overflow_eq hinit hset, ?_⟩
  intro w w' a hw hstep e he htimer
  obtain ⟨s', hs', -⟩ := Option.map_eq_some_iff.mp hstep
  subst htimer
  exact Expiry.marks_eq_loses_iff ((step_signalSet hs' (hw.signalSet hset)).2 e he)

theorem Losses.exists_reachedBy_of_run (i : c.TimerId) (ok : Act c → Losses c S → Prop)
    (check : Act c → Losses c S → Bool) (as : List (Act c)) (p : Losses c S → Bool)
    (has : ∀ a ∈ as, ∀ w, check a w = true → ok a w)
    (h : (run (Losses.step i) check as (start fun _ => 0)).any p = true) :
    ∃ w : Losses c S, w.ReachedBy i ok ∧ p w = true := by
  obtain ⟨w, hw, hp⟩ := exists_reach_of_run has h
  exact ⟨w, ⟨_, hw⟩, hp⟩

/-- A timer with one signal expires while that signal is pending: `timer_check_overflow` says so. -/
theorem checkOverflow_reports_losses_one :
    ∃ w : Losses (.withTimer (.generated true 1 0 (some 0) 2)) (kochabSched 1 0),
      w.ReachedBy 0 (AllOrNone 0) ∧ (Core.timerCheckOverflow 0 w.state.core).1 = true := by
  obtain ⟨w, hw, hp⟩ := Losses.exists_reachedBy_of_run
    (c := .withTimer (.generated true 1 0 (some 0) 2)) (S := kochabSched 1 0) 0
    (AllOrNone 0) (fun a w => AllOrNone 0 a w)
    [.call (.core (.signalSendSet 0 2)), .kernel .timerTick, .kernel .preempt,
      .kernel .interruptEventProcess, .kernel .timerTickProcess]
    (fun w => w.lost) (by simp) (by decide +kernel)
  exact ⟨w, hw, ((checkOverflow_reports_losses (by decide) rfl).2.1 w hw).trans hp⟩

/-- A timer with two signals expires while one of them is pending: that signal is lost, and
    `timer_check_overflow` returns false. -/
theorem not_checkOverflow_reports_losses_two :
    ¬ ∀ w : Losses (.withTimer (.generated true 1 0 (some 0) 6)) (kochabSched 1 0),
      w.ReachedBy 0 (fun _ _ => True) → (Core.timerCheckOverflow 0 w.state.core).1 = w.lost := by
  intro h
  obtain ⟨w, hw, hp⟩ := Losses.exists_reachedBy_of_run
    (c := .withTimer (.generated true 1 0 (some 0) 6)) (S := kochabSched 1 0) 0
    (fun _ _ => True) (fun _ _ => true)
    [.call (.core (.signalSendSet 0 2)), .kernel .timerTick, .kernel .preempt,
      .kernel .interruptEventProcess, .kernel .timerTickProcess]
    (fun w => w.lost && !(Core.timerCheckOverflow 0 w.state.core).1) (by simp) (by decide +kernel)
  rw [h w hw] at hp
  simp at hp

end Echronos
