import Echronos.Properties.Turns

/-! # When a co-operative system stalls

    No task of Gatria or Kraz is runnable before it is unblocked for the first time, not even the one
    that `start()` switches to, and `sched_get_next()` does not return while no task is runnable. So the
    system stalls, for good, exactly when a task gives up the processor and every task is either still
    to be unblocked or blocked since. In Kraz such a task waits for signals none of which is pending:
    signals are kept from their sending to their reception, and none leaves its task asleep. -/

namespace Echronos.Cooperative

open Schemes RoundRobin

variable {c : Config} {s s' : State c} {a : Act c} {t : c.TaskId}

/-- `t` has been unblocked and not blocked since. -/
def Awake (t : c.TaskId) (s : State c) : Prop :=
  Since (· = .unblocked t) (· = .blocked t) s.history

/-- The event neither blocks nor unblocks a task. -/
def Event.quiet : Event c → Bool
  | .blocked _ | .unblocked _ => false
  | _ => true

def Event.Sends (t : c.TaskId) (i : ℕ) : Event c → Prop
  | .sent u set => u = t ∧ set.getLsbD i = true
  | _ => False

def Event.Receives (t : c.TaskId) (i : ℕ) : Event c → Prop
  | .received u _ r => u = t ∧ r.getLsbD i = true
  | _ => False

/-- The event is no sending to `t` and no reception by `t`. -/
def Event.IsOther (t : c.TaskId) (e : Event c) : Prop :=
  ∀ i, ¬ Event.Sends t i e ∧ ¬ Event.Receives t i e

namespace State

/-! ### Who is runnable -/

/-- The scheduler has a task as runnable if it is awake. -/
def RunnableAwake (s : State c) : Prop := ∀ t, s.runnable t = true ↔ Awake t s

theorem RunnableAwake.rest (h : RunnableAwake s) (hr : s'.sched.runnable = s.sched.runnable)
    (hh : ∃ new, s'.history = new ++ s.history ∧ ∀ e ∈ new, Event.quiet e = true) :
    RunnableAwake s' := by
  intro t
  obtain ⟨new, hh, hnew⟩ := hh
  have hquiet : ∀ e ∈ new, ¬ e = .unblocked t ∧ ¬ e = .blocked t := by
    rintro e he
    have := hnew e he
    constructor <;> rintro rfl <;> cases this
  rw [runnable, hr, Awake, hh, since_append hquiet]
  exact h t

theorem RunnableAwake.block (h : RunnableAwake s) : RunnableAwake (block s) := by
  intro t
  have ht := h t
  by_cases hc : s.currentTask = t
  · subst hc
    simp [State.block, runnable, Awake, yield, record, schedSetBlocked, since_cons]
  · simpa [State.block, runnable, Awake, yield, record, schedSetBlocked, since_cons, hc, Ne.symm hc]
      using ht

theorem RunnableAwake.unblock (h : RunnableAwake s) (u : c.TaskId) :
    RunnableAwake (unblock u s) := by
  intro t
  have ht := h t
  by_cases hu : u = t
  · subst hu
    simp [State.unblock, runnable, Awake, record, schedSetRunnable, since_cons]
  · simpa [State.unblock, runnable, Awake, record, schedSetRunnable, since_cons, hu, Ne.symm hu]
      using ht

theorem RunnableAwake.same (h : RunnableAwake s) (hr : s'.sched.runnable = s.sched.runnable)
    (hh : s'.history = s.history) : RunnableAwake s' :=
  h.rest hr ⟨[], hh, by simp⟩

theorem RunnableAwake.one (h : RunnableAwake s) {e : Event c}
    (hr : s'.sched.runnable = s.sched.runnable) (hh : s'.history = e :: s.history)
    (he : Event.quiet e = true) : RunnableAwake s' :=
  h.rest hr ⟨[e], hh, by simpa using he⟩

theorem RunnableAwake.mutexLock (h : RunnableAwake s) (m : c.MutexId) :
    RunnableAwake (mutexLock m s) := by
  unfold State.mutexLock internalMutexTryLock
  cases s.locked m
  · exact h.one rfl rfl rfl
  · exact h.same rfl rfl

theorem RunnableAwake.step (h : RunnableAwake s) (hstep : Step s a s') : RunnableAwake s' := by
  cases hstep with
  | call f hphase hpc hf =>
    cases f with
    | yieldTo | yield => exact h.same rfl rfl
    | block => exact h.block
    | unblock u => exact h.unblock u
    | mutexLock m => exact h.mutexLock m
    | mutexTryLock m =>
      simp only [State.call, internalMutexTryLock]
      split_ifs
      · exact h
      · exact h.one rfl rfl rfl
    | mutexUnlock m => exact h.one rfl rfl rfl
    | signalWaitSet r =>
      simp only [State.call, State.signalWaitSet]
      split_ifs
      · exact h.same rfl rfl
      · exact RunnableAwake.block (h.same rfl rfl)
    | signalPollSet r => exact h.one rfl rfl rfl
    | signalSendSet u set =>
      have hsent : RunnableAwake (record (.sent u set) { s with
          signals := Function.update s.signals u (s.signals u ||| set) }) := h.one rfl rfl rfl
      exact hsent.unblock u
  | mutexLock m => exact h.mutexLock m
  | signalWaitSet r b =>
    unfold signalWaitSetReturn
    split_ifs
    · exact h.block
    · exact h.one rfl rfl rfl
  | raise | process | outOfBounds | select | idle => exact h.same rfl rfl
  | handle _ next irq t =>
    have hreach : RunnableAwake (reach next irq s) := h.same rfl rfl
    exact hreach.unblock t

theorem Reached.runnableAwake (h : s.Reached) : RunnableAwake s :=
  h.invariant (fun t => by simp [start, runnable, Awake])
    fun _ _ _ _ hI _ hstep => hI.step (step_cases hstep).2

/-! ### What a task of Kraz sleeps for -/

/-- What holds of the signals of a task, and of a task that is not runnable. -/
structure SignalSound (t : c.TaskId) (s : State c) : Prop where
  pending : ∀ i, (s.signals t).getLsbD i = true ↔
    Since (Event.Sends t i) (Event.Receives t i) s.history
  unsent : .unblocked t ∉ s.history → s.signals t = 0
  asleep : s.runnable t = false → .unblocked t ∉ s.history ∨
    ∃ r, s.pc t = .signalWaitSet r true ∧ signalPeek (s.signals t) r = false

/-- Steps that leave the signals of `t` alone, and do not make it blocked. -/
theorem SignalSound.frame (h : SignalSound t s) (hsig : s'.signals t = s.signals t)
    (hpc : s'.runnable t = false → s.runnable t = false ∧
      (s'.pc t = s.pc t ∨ ∀ r, s.pc t ≠ .signalWaitSet r true))
    (hh : ∃ new, s'.history = new ++ s.history ∧ ∀ e ∈ new, Event.IsOther t e ∧
      (e = .unblocked t → s'.runnable t = true)) : SignalSound t s' := by
  obtain ⟨new, hh, hnew⟩ := hh
  refine ⟨fun i => ?_, fun hu => ?_, fun hr => ?_⟩
  · rw [hsig, hh, since_append fun e he => (hnew e he).1 i]
    exact h.pending i
  · rw [hsig]
    exact h.unsent fun hmem => hu (hh ▸ List.mem_append_right _ hmem)
  · obtain ⟨hr', hpc⟩ := hpc hr
    rcases h.asleep hr' with hu | ⟨r, hw, hp⟩
    · left
      rw [hh, List.mem_append, not_or]
      exact ⟨fun hmem => by simp [(hnew _ hmem).2 rfl] at hr, hu⟩
    · right
      rw [hsig]
      exact ⟨r, (hpc.resolve_right fun h => h r hw) ▸ hw, hp⟩

theorem SignalSound.same (h : SignalSound t s) (hsig : s'.signals = s.signals)
    (hr : s'.runnable t = s.runnable t) (hpc : s'.pc t = s.pc t ∨ ∀ r, s.pc t ≠ .signalWaitSet r true)
    (hh : s'.history = s.history) : SignalSound t s' :=
  h.frame (congrFun hsig t) (fun h => ⟨hr ▸ h, hpc⟩) ⟨[], hh, by simp⟩

theorem SignalSound.one (h : SignalSound t s) {e : Event c} (hsig : s'.signals t = s.signals t)
    (hr : s'.runnable t = s.runnable t) (hpc : s'.pc t = s.pc t ∨ ∀ r, s.pc t ≠ .signalWaitSet r true)
    (hh : s'.history = e :: s.history) (he : Event.IsOther t e) (hu : e ≠ .unblocked t) :
    SignalSound t s' :=
  h.frame hsig (fun h => ⟨hr ▸ h, hpc⟩) ⟨[e], hh, by simp [he, hu]⟩

/-- The current task blocks in the loop of `signal_wait_set`. -/
theorem SignalSound.block (h : SignalSound t s) {r : c.SignalSet}
    (hpc : s.pc s.currentTask = .signalWaitSet r true)
    (hp : signalPeek (s.signals s.currentTask) r = false) : SignalSound t (block s) where
  pending i := by
    simp only [State.block, yield, record, since_cons, Event.Sends, Event.Receives, false_or,
      not_false_eq_true, true_and]
    exact h.pending i
  unsent hu := h.unsent fun hmem => hu (List.mem_cons_of_mem _ hmem)
  asleep hr := by
    by_cases hc : t = s.currentTask
    · subst hc
      exact .inr ⟨r, hpc, hp⟩
    · refine (h.asleep ?_).imp_left fun hu => by simpa [State.block, yield, record] using hu
      simpa [State.block, runnable, yield, record, schedSetBlocked, hc] using hr

theorem SignalSound.send (h : SignalSound t s) (u : c.TaskId) (set : c.SignalSet) :
    SignalSound t (signalSendSet u set s) := by
  by_cases hu : t = u
  · subst hu
    refine ⟨fun i => ?_, fun hmem => ?_, fun hr => ?_⟩
    · have := h.pending i
      simp [signalSendSet, unblock, record, since_cons, Event.Sends, Event.Receives, ← this, or_comm]
    · simp [signalSendSet, unblock, record] at hmem
    · simp [signalSendSet, unblock, record, runnable, schedSetRunnable] at hr
  · have hne := Ne.symm hu
    refine h.frame (by simp [signalSendSet, unblock, record, hu]) (fun hr => ⟨?_, .inl rfl⟩)
      ⟨[.unblocked u, .sent u set], rfl, ?_⟩
    · simpa [signalSendSet, unblock, record, runnable, schedSetRunnable, hu] using hr
    · simp [Event.IsOther, Event.Sends, Event.Receives, hne]

/-- A task receives signals in application code, or to go back there from a wait that has ended. -/
theorem SignalSound.recv (h : SignalSound t s) (r : c.SignalSet)
    (hpc : ∀ q, s.pc s.currentTask = .signalWaitSet q true →
      signalPeek (s.signals s.currentTask) q = true) :
    SignalSound t (setPc .app (signalRecv r s).2) := by
  by_cases ht : t = s.currentTask
  · subst ht
    refine ⟨fun i => ?_, fun hu => ?_, fun hr => ?_⟩
    · have hbit := h.pending i
      by_cases hi : i < c.signalsetSize
      · simp only [setPc, signalRecv, record, Function.update_self, since_cons, Event.Sends,
          Event.Receives, false_or, true_and, ← hbit, BitVec.getLsbD_and, BitVec.getLsbD_not, hi,
          decide_true, Bool.true_and]
        cases (s.signals s.currentTask).getLsbD i <;> cases r.getLsbD i <;> simp
      · simp only [setPc, signalRecv, record, Function.update_self, since_cons, Event.Sends,
          Event.Receives, false_or, true_and, ← hbit]
        simp [BitVec.getLsbD_of_ge _ _ (Nat.le_of_not_lt hi)]
    · have hzero := h.unsent (by simpa [setPc, signalRecv, record] using hu)
      simp [setPc, signalRecv, record, hzero]
    · refine .inl ?_
      have hmem : .unblocked s.currentTask ∉ s.history := by
        refine (h.asleep hr).resolve_right ?_
        rintro ⟨q, hw, hp⟩
        simp [hpc q hw] at hp
      simpa [setPc, signalRecv, record] using hmem
  · have hne := Ne.symm ht
    refine h.one (e := .received s.currentTask r (s.signals s.currentTask &&& r)) ?_ rfl (.inl ?_) rfl
      ?_ (by simp)
    · simp [setPc, signalRecv, record, ht]
    · exact Function.update_of_ne ht _ _
    · simp [Event.IsOther, Event.Sends, Event.Receives, hne]

theorem SignalSound.mutexLock (h : SignalSound t s) (m : c.MutexId)
    (hpc : ∀ r, s.pc s.currentTask ≠ .signalWaitSet r true) : SignalSound t (mutexLock m s) := by
  have hown (p : Pc c) : (setPc p s).pc t = s.pc t ∨ ∀ r, s.pc t ≠ .signalWaitSet r true := by
    by_cases ht : t = s.currentTask
    · exact .inr (ht ▸ hpc)
    · exact .inl (Function.update_of_ne ht _ _)
  unfold State.mutexLock internalMutexTryLock
  cases s.locked m
  · exact h.one (e := .acquired s.currentTask m) rfl rfl (hown _) rfl
      (by simp [Event.IsOther, Event.Sends, Event.Receives]) (by simp)
  · exact h.same rfl rfl (hown _) rfl

theorem SignalSound.unblock (h : SignalSound t s) (u : c.TaskId) : SignalSound t (unblock u s) := by
  refine h.frame rfl (fun hr => ⟨?_, .inl rfl⟩) ⟨[.unblocked u], rfl, ?_⟩
  · by_contra hr'
    have := schedSetRunnable_runnable (u := u) (Bool.eq_true_of_not_eq_false hr')
    exact absurd (hr.symm.trans this) (by simp)
  · rintro e he
    obtain rfl := List.mem_singleton.mp he
    refine ⟨by simp [Event.IsOther, Event.Sends, Event.Receives], fun he => ?_⟩
    obtain rfl := Event.unblocked.inj he
    simp [State.unblock, record, runnable, schedSetRunnable]

theorem SignalSound.step (hv : c.variant = .kraz) (h : SignalSound t s) (hstep : Step s a s') :
    SignalSound t s' := by
  have hother (e : Event c) (he : ∀ u set, e ≠ .sent u set) (he' : ∀ u q r, e ≠ .received u q r) :
      Event.IsOther t e := by
    cases e <;> simp_all [Event.IsOther, Event.Sends, Event.Receives]
  cases hstep with
  | call f hphase hpc hf =>
    have happ : ∀ r, s.pc s.currentTask ≠ .signalWaitSet r true := by simp [hpc]
    cases f with
    | yieldTo | block | unblock => simp [hv, provides] at hf
    | yield => exact h.same rfl rfl (.inl rfl) rfl
    | mutexLock m => exact h.mutexLock m happ
    | mutexTryLock m =>
      simp only [State.call, internalMutexTryLock]
      split_ifs
      · exact h
      · exact h.one (e := .acquired s.currentTask m) rfl rfl (.inl rfl) rfl
          (hother _ (by simp) (by simp)) (by simp)
    | mutexUnlock m =>
      exact h.one (e := .unlocked s.currentTask m) rfl rfl (.inl rfl) rfl
        (hother _ (by simp) (by simp)) (by simp)
    | signalWaitSet r =>
      have hown (p : Pc c) : SignalSound t (setPc p s) := by
        refine h.same rfl rfl ?_ rfl
        by_cases ht : t = s.currentTask
        · exact .inr (ht ▸ happ)
        · exact .inl (Function.update_of_ne ht _ _)
      simp only [State.call, State.signalWaitSet]
      split_ifs with hp
      · exact (hown _).same rfl rfl (.inl rfl) rfl
      · exact (hown _).block (r := r) (by simp [setPc]) (by simpa [setPc] using hp)
    | signalPollSet r =>
      have hself : setPc .app (signalRecv r s).2 = (signalRecv r s).2 := by
        simp [setPc, signalRecv, record, ← hpc]
      rw [State.call, ← hself]
      exact h.recv r fun q hq => absurd hq (happ q)
    | signalSendSet u set => exact h.send u set
  | mutexLock m hphase hpc => exact h.mutexLock m (by simp [hpc])
  | signalWaitSet r b hphase hpc =>
    unfold signalWaitSetReturn
    split_ifs with hb
    · obtain ⟨rfl, hp⟩ := hb
      exact h.block hpc (by simpa using hp)
    · refine h.recv r fun q hq => ?_
      obtain ⟨rfl, rfl⟩ : r = q ∧ b = true := by simpa [hpc] using hq
      simpa using hb
  | raise | process | outOfBounds | select | idle => exact h.same rfl rfl (.inl rfl) rfl
  | handle _ next irq u =>
    have hreach : SignalSound t (reach next irq s) := h.same rfl rfl (.inl rfl) rfl
    exact hreach.unblock u

theorem Reached.signalSound (hv : c.variant = .kraz) (h : s.Reached) (t : c.TaskId) :
    SignalSound t s :=
  h.invariant (I := SignalSound t)
    ⟨fun i => by simp [start], fun _ => rfl, fun _ => .inl (by simp [start])⟩
    fun _ _ _ _ hI _ hstep => hI.step hv (step_cases hstep).2

/-! ### Stalls -/

/-- Gatria and Kraz do not process interrupt events. -/
theorem Reached.phase (hv : c.variant = .gatria ∨ c.variant = .kraz) (h : s.Reached) :
    (s.phase = .task ∨ s.phase = .select) ∧ s.undefined = false := by
  have hacrux : c.variant ≠ .acrux := by rcases hv with hv | hv <;> simp [hv]
  refine h.invariant (I := fun s => (s.phase = .task ∨ s.phase = .select) ∧ s.undefined = false)
    ⟨.inl rfl, rfl⟩ fun s a s' _ ⟨hphase, hu⟩ _ hstep => ?_
  replace hstep := (step_cases hstep).2
  rcases hphase with htask | hselect
  · rcases hstep.of_task htask with ⟨-, hu', hphase⟩ | ⟨_, hv, -⟩
    · rw [yield_phase, if_neg hacrux] at hphase
      exact ⟨hphase, hu' ▸ hu⟩
    · exact absurd hv hacrux
  · cases hstep with
    | raise _ hv | idle _ hv => exact absurd hv hacrux
    | select => exact ⟨.inl rfl, hu⟩
    | call _ hp | mutexLock _ hp | signalWaitSet _ _ hp | process _ _ _ hp | handle _ _ _ _ hp
    | outOfBounds _ _ _ _ hp => simp [hselect] at hp

/-- A task that executes has a step to make. -/
theorem step_of_task (hv : c.variant = .gatria ∨ c.variant = .kraz) (hu : s.undefined = false)
    (hphase : s.phase = .task) : ∃ a, step a s ≠ none := by
  cases hpc : s.pc s.currentTask with
  | app =>
    have happ : s.inApp = true := inApp_iff.mpr ⟨hphase, hpc⟩
    have hf : provides c.variant (.yield : Call c) = true := by rcases hv with hv | hv <;> simp [hv, provides]
    exact ⟨.call .yield, by simp [step, hu, happ, hf]⟩
  | mutexLock m => exact ⟨.resume, by simp [step, hu, Phase.isTask_iff.mpr hphase, resume, hpc]⟩
  | signalWaitSet r b =>
    exact ⟨.resume, by simp [step, hu, Phase.isTask_iff.mpr hphase, resume, hpc]⟩

theorem step_eq_none_iff (hv : c.variant = .gatria ∨ c.variant = .kraz) (h : s.Reached) :
    (∀ a, step a s = none) ↔ s.phase = .select ∧ ∀ t, s.runnable t = false := by
  have hacrux : c.variant ≠ .acrux := by rcases hv with hv | hv <;> simp [hv]
  obtain ⟨hphase, hu⟩ := h.phase hv
  constructor
  · intro hnone
    have hselect : s.phase = .select := by
      refine hphase.resolve_left fun htask => ?_
      obtain ⟨a, ha⟩ := step_of_task hv hu htask
      exact absurd (hnone a) ha
    refine ⟨hselect, fun t => ?_⟩
    by_contra ht
    obtain ⟨r, hr⟩ := Option.isSome_iff_exists.mp
      (schedGetNextAssumeRunnable_isSome le_rfl (Bool.eq_true_of_not_eq_false ht))
    have := hnone (.schedGetNext c.tasks)
    simp [step, hu, Phase.isSelect_iff.mpr hselect, schedGetNext, hacrux, hr] at this
  · rintro ⟨hselect, hnone⟩ a
    cases hstep : step a s with
    | none => rfl
    | some s' =>
      cases (step_cases hstep).2 with
      | call _ hp | mutexLock _ hp | signalWaitSet _ _ hp | process _ _ _ hp | handle _ _ _ _ hp
      | outOfBounds _ _ _ _ hp => simp [hselect] at hp
      | raise _ hv | idle _ hv => exact absurd hv hacrux
      | select _ next _ _ hnext =>
        have := List.find?_some hnext
        simp [show s.sched.runnable next = false from hnone next] at this

end State

open Cooperative.State

/-- Gatria and Kraz stall exactly when the scheduler is asked for a task and no task is awake. -/
theorem stalls_iff (hv : c.variant = .gatria ∨ c.variant = .kraz) (h : s.Reached) :
    (∀ a, step a s = none) ↔ s.phase = .select ∧ ∀ t, ¬ Awake t s := by
  simp only [step_eq_none_iff hv h, ← h.runnableAwake _, Bool.not_eq_true]

/-- Kraz keeps signals from their sending to their reception, wakes a task for every signal that it
    waits for, and stalls only when every task either has never been sent anything or waits for
    signals that are not pending. -/
theorem kraz_signals_sound (hv : c.variant = .kraz) (h : s.Reached) :
    (∀ t i, (s.signals t).getLsbD i = true ↔
      Since (Event.Sends t i) (Event.Receives t i) s.history) ∧
    (∀ t r b, s.pc t = .signalWaitSet r b → signalPeek (s.signals t) r = true →
      s.runnable t = true) ∧
    ((∀ a, step a s = none) → ∀ t, .unblocked t ∉ s.history ∨
      ∃ r, s.pc t = .signalWaitSet r true ∧ signalPeek (s.signals t) r = false) := by
  refine ⟨fun t => (h.signalSound hv t).pending, fun t r b hpc hp => ?_, fun hnone t => ?_⟩
  · by_contra hr
    rcases (h.signalSound hv t).asleep (by simpa using hr) with hu | ⟨q, hq, hpq⟩
    · simp [(h.signalSound hv t).unsent hu, signalPeek] at hp
    · obtain ⟨rfl, rfl⟩ : r = q ∧ b = true := by simpa [hpc] using hq
      simp [hp] at hpq
  · exact (h.signalSound hv t).asleep (((step_eq_none_iff (.inr hv) h).mp hnone).2 t)

/-- The first task yields before any task has been unblocked. -/
theorem stalls_iff_unblocked_none : ∃ s : State (twoTasks .gatria), s.Reached ∧
    ∀ a, step a s = none := by
  obtain ⟨s, hs, hp⟩ := exists_reached_of_run (c := twoTasks .gatria)
    [.call .yield] (fun s => s.phase.isSelect && decide (s.history = [])) (by decide +kernel)
  obtain ⟨hphase, hh⟩ := (Bool.and_eq_true _ _).mp hp
  refine ⟨s, hs, (stalls_iff (.inl rfl) hs).mpr ⟨Phase.isSelect_iff.mp hphase, fun t => ?_⟩⟩
  simp [Awake, of_decide_eq_true hh]

/-- The second task waits for a signal, and the first one sends it. -/
theorem kraz_signals_sound_sent : ∃ s : State (twoTasks .kraz), s.Reached ∧
    s.pc 1 = .signalWaitSet 2 true ∧ s.runnable 1 = true := by
  obtain ⟨s, hs, hp⟩ := exists_reached_of_run (c := twoTasks .kraz)
    [.call (.signalSendSet 0 0), .call (.signalSendSet 1 0), .call .yield, .schedGetNext 2,
      .call (.signalWaitSet 2), .schedGetNext 2, .call (.signalSendSet 1 6)]
    (fun s => s.pc 1 = .signalWaitSet 2 true ∧ signalPeek (s.signals 1) 2) (by decide +kernel)
  obtain ⟨hpc, hpeek⟩ := of_decide_eq_true hp
  exact ⟨s, hs, hpc, (kraz_signals_sound rfl hs).2.1 1 2 true hpc hpeek⟩

end Echronos.Cooperative
