import Echronos.Properties.Exclusion
import Echronos.Schemes.Turns

/-! # Turns of co-operative tasks

    Only a task itself makes itself blocked, and selection goes round all tasks. So a runnable task has
    its turn within as many selections as there are tasks, whatever the others do; `yield_to` passes
    the scheduler by and delays nobody. The same number of selections, and one more, is enough for a
    mutex that is free and waited for to be acquired, and for an interrupt event of Acrux to reach its
    task. -/

namespace Echronos.Cooperative

open Schemes RoundRobin

variable {c : Config} {s s' : State c} {a : Act c} {t : c.TaskId}

/-- The step is a call of `sched_get_next()`. -/
def Act.selects : Act c → Bool
  | .schedGetNext _ => true
  | _ => false

namespace State

/-- Task `t` executes. -/
def Runs (t : c.TaskId) (s : State c) : Prop := s.currentTask = t ∧ s.phase = .task

/-- Task `t` is runnable, and at most `k` places behind the current index of the scheduler. -/
def Ahead (t : c.TaskId) (k : ℕ) (s : State c) : Prop := RoundRobin.Ahead t k s.sched

/-! ### What other tasks cannot do to a task -/

theorem internalMutexTryLock_sched (m : c.MutexId) (s : State c) :
    (internalMutexTryLock m s).2.sched = s.sched := by
  unfold internalMutexTryLock
  split_ifs <;> rfl

theorem mutexLock_sched (m : c.MutexId) (s : State c) : (mutexLock m s).sched = s.sched := by
  unfold mutexLock internalMutexTryLock
  cases s.locked m <;> rfl

theorem schedSetBlocked_runnable {u : c.TaskId} {r : RoundRobin.State c.tasks} (h : u ≠ t) :
    (schedSetBlocked u r).runnable t = r.runnable t := by
  simp [schedSetBlocked, Ne.symm h]

theorem schedSetRunnable_runnable {u : c.TaskId} {r : RoundRobin.State c.tasks}
    (h : r.runnable t = true) : (schedSetRunnable u r).runnable t = true := by
  by_cases ht : t = u
  · simp [schedSetRunnable, ht]
  · simpa [schedSetRunnable, ht] using h

/-- No step but its own makes a task blocked. -/
theorem Step.runnable (h : Step s a s') (ht : ¬ Runs t s) (hr : s.runnable t = true) :
    s'.runnable t = true := by
  have hne : s.phase = .task → s.currentTask ≠ t := fun hp hc => ht ⟨hc, hp⟩
  cases h with
  | call f hphase hpc hf =>
    cases f with
    | yieldTo | yield | mutexUnlock | signalPollSet => exact hr
    | block => exact (schedSetBlocked_runnable (hne hphase)).trans hr
    | unblock u => exact schedSetRunnable_runnable hr
    | mutexLock m => exact (congrArg (·.runnable t) (mutexLock_sched m s)).trans hr
    | mutexTryLock m => exact (congrArg (·.runnable t) (internalMutexTryLock_sched m s)).trans hr
    | signalWaitSet r =>
      simp only [State.call, State.signalWaitSet]
      split_ifs
      · exact hr
      · exact (schedSetBlocked_runnable (hne hphase)).trans hr
    | signalSendSet u set => exact schedSetRunnable_runnable hr
  | mutexLock m => exact (congrArg (·.runnable t) (mutexLock_sched m s)).trans hr
  | signalWaitSet r b hphase =>
    unfold signalWaitSetReturn
    split_ifs
    · exact (schedSetBlocked_runnable (hne hphase)).trans hr
    · exact hr
  | handle => exact schedSetRunnable_runnable hr
  | raise | process | outOfBounds | select | idle => exact hr

/-- Only selection moves the current index of the scheduler. -/
theorem Step.cur (h : Step s a s') (ha : a.selects = false) : s'.sched.cur = s.sched.cur := by
  cases h with
  | call f hphase hpc hf =>
    cases f with
    | yieldTo | yield | block | unblock | mutexUnlock | signalPollSet | signalSendSet => rfl
    | mutexLock m => exact congrArg (·.cur) (mutexLock_sched m s)
    | mutexTryLock m => exact congrArg (·.cur) (internalMutexTryLock_sched m s)
    | signalWaitSet r =>
      simp only [State.call, State.signalWaitSet]
      split_ifs <;> rfl
  | mutexLock m => exact congrArg (·.cur) (mutexLock_sched m s)
  | signalWaitSet r b =>
    unfold signalWaitSetReturn
    split_ifs <;> rfl
  | raise | process | handle | outOfBounds => rfl
  | select | idle => cases ha

/-- The place of a task in its code changes only while it executes. -/
theorem Step.pc (h : Step s a s') (ht : ¬ Runs t s) : s'.pc t = s.pc t := by
  have hne : s.phase = .task → t ≠ s.currentTask := fun hp hc => ht ⟨hc.symm, hp⟩
  cases h with
  | call f hphase hpc hf =>
    cases f with
    | yieldTo | yield | block | unblock | mutexUnlock | signalPollSet | signalSendSet => rfl
    | mutexLock m =>
      simp only [State.call, State.mutexLock, internalMutexTryLock]
      cases s.locked m <;> exact Function.update_of_ne (hne hphase) _ _
    | mutexTryLock m =>
      simp only [State.call, internalMutexTryLock]
      split_ifs <;> rfl
    | signalWaitSet r =>
      simp only [State.call, State.signalWaitSet]
      split_ifs <;> exact Function.update_of_ne (hne hphase) _ _
  | mutexLock m hphase =>
    simp only [State.mutexLock, internalMutexTryLock]
    cases s.locked m <;> exact Function.update_of_ne (hne hphase) _ _
  | signalWaitSet r b hphase =>
    unfold signalWaitSetReturn
    split_ifs
    · rfl
    · exact Function.update_of_ne (hne hphase) _ _
  | raise | process | handle | outOfBounds | select | idle => rfl

theorem Ahead.stay {k : ℕ} (h : Ahead t k s) (hstep : Step s a s') (ht : ¬ Runs t s)
    (ha : a.selects = false) : Ahead t k s' :=
  h.frame (hstep.runnable ht) (hstep.cur ha)

/-- With a task to select, `sched_get_next()` selects one. -/
theorem Step.select_of_runnable {fuel : ℕ} (h : Step s (.schedGetNext fuel) s')
    (hr : s.runnable t = true) : ∃ next idle,
      (following s.sched.cur).find? s.sched.runnable = some next ∧ s' = yieldTo next
        { s with sched := { s.sched with cur := next }, systemIsIdle := idle } := by
  cases h with
  | select _ next idle _ hnext => exact ⟨next, idle, hnext, rfl⟩
  | idle _ _ _ hnone => simp [hnone] at hr

theorem Ahead.closer {k : ℕ} (h : Ahead t (k + 1) s) (hstep : Step s a s')
    (ha : a.selects = true) : Runs t s' ∨ Ahead t k s' := by
  cases a with
  | schedGetNext fuel =>
    obtain ⟨next, idle, hnext, rfl⟩ := hstep.select_of_runnable h.1
    exact (h.select hnext).imp_left fun hn => ⟨hn, rfl⟩
  | call | resume | interruptEventRaise | interruptEventProcess => cases ha

/-! ### A free mutex -/

/-- Mutex `m` has just been acquired. -/
def Acquired (m : c.MutexId) (s : State c) : Prop :=
  s.locked m = true ∧ ∃ u h, s.history = .acquired u m :: h

/-- Task `t` waits for the free mutex `m`, and looks at it again within `k` turns. -/
def Nears (t : c.TaskId) (m : c.MutexId) (k : ℕ) (s : State c) : Prop :=
  s.locked m = false ∧ s.pc t = .mutexLock m ∧
    (Runs t s ∧ 0 < k ∨ ∃ l, k = l + 1 ∧ Ahead t l s)

theorem mutexLock_acquired {m : c.MutexId} (h : s.locked m = false) : Acquired m (mutexLock m s) := by
  simp [Acquired, mutexLock, internalMutexTryLock, h, setPc, record]

/-- A step that is not that of the waiting task leaves the mutex free, or acquires it. -/
theorem MutexStep.free {m : c.MutexId} (h : MutexStep a s s') (hm : s.locked m = false) :
    Acquired m s' ∨ s'.locked m = false := by
  cases h with
  | rest hl => exact .inr (by rw [hl, hm])
  | acquire l _ hl hh =>
    by_cases hlm : l = m
    · subst hlm
      exact .inl ⟨by simp [hl], _, _, hh⟩
    · exact .inr (by simp [hl, Ne.symm hlm, hm])
  | unlock l _ hl =>
    by_cases hlm : l = m
    · exact .inr (by simp [hl, hlm])
    · exact .inr (by simp [hl, Ne.symm hlm, hm])

/-- The waiting task, at its turn, acquires the mutex; only an interrupt may come first. -/
theorem Step.acquires {m : c.MutexId} (h : Step s a s') (ht : Runs t s) (hpc : s.pc t = .mutexLock m)
    (hm : s.locked m = false) :
    Acquired m s' ∨ Runs t s' ∧ s'.pc = s.pc ∧ s'.locked = s.locked ∧ a.selects = false := by
  obtain ⟨rfl, hphase⟩ := ht
  cases h with
  | call f _ hpc' => simp [hpc] at hpc'
  | mutexLock l _ hpc' =>
    obtain rfl : m = l := by simpa [hpc] using hpc'
    exact .inl (mutexLock_acquired hm)
  | signalWaitSet r b _ hpc' => simp [hpc] at hpc'
  | raise => exact .inr ⟨⟨rfl, hphase⟩, rfl, rfl, rfl⟩
  | process _ _ _ hp | handle _ _ _ _ hp | outOfBounds _ _ _ _ hp | select _ _ _ hp
  | idle _ _ hp => simp [hphase] at hp

theorem Nears.stay {m : c.MutexId} {k : ℕ} (h : Nears t m k s) (hstep : Step s a s')
    (ha : a.selects = false) : Acquired m s' ∨ Nears t m k s' := by
  obtain ⟨hm, hpc, hk⟩ := h
  by_cases ht : Runs t s
  · have hpos : 0 < k := by
      rcases hk with ⟨-, hk⟩ | ⟨l, rfl, -⟩
      · exact hk
      · omega
    refine (hstep.acquires ht hpc hm).imp_right fun ⟨ht', hpc', hl, _⟩ => ?_
    exact ⟨by rw [hl, hm], by rw [hpc', hpc], .inl ⟨ht', hpos⟩⟩
  · refine (hstep.mutexStep.free hm).imp_right fun hm' => ⟨hm', (hstep.pc ht).trans hpc, .inr ?_⟩
    obtain ⟨l, rfl, hl⟩ := hk.resolve_left fun h => ht h.1
    exact ⟨l, rfl, hl.stay hstep ht ha⟩

theorem Nears.closer {m : c.MutexId} {k : ℕ} (h : Nears t m (k + 1) s) (hstep : Step s a s')
    (ha : a.selects = true) : Acquired m s' ∨ Nears t m k s' := by
  obtain ⟨hm, hpc, hk⟩ := h
  by_cases ht : Runs t s
  · exact (hstep.acquires ht hpc hm).imp_right fun h => absurd ha (by simp [h.2.2.2])
  · refine (hstep.mutexStep.free hm).imp_right fun hm' => ⟨hm', (hstep.pc ht).trans hpc, ?_⟩
    obtain ⟨l, hkl, hl⟩ := hk.resolve_left fun h => ht h.1
    obtain rfl : k = l := by omega
    cases k with
    | zero => exact absurd hl not_ahead_zero
    | succ l => exact (hl.closer hstep ha).imp (fun h => ⟨h, l.succ_pos⟩) fun h => ⟨l, rfl, h⟩

/-! ### An interrupt event -/

/-- Nothing overwrites the event: it is not raised between the load and the store of the word of
    pending events, unless that stores it as well. -/
def Spared (a : Act c) (s : State c) : Prop :=
  ∀ i p, a = .interruptEventRaise i → s.phase = .process p → c.port.overwrites p i = false

/-- Event `i` is pending, and its task is woken before the next selection but at most one. -/
def Pends (i k : ℕ) (s : State c) : Prop :=
  match s.phase with
  | .task => s.irq.interruptEvent.getLsbD i = true ∧ c.tasks ≤ k
  | .select => s.irq.interruptEvent.getLsbD i = true ∧ c.tasks < k
  | .process p => c.port.Due i p s.irq ∧ c.tasks ≤ k ∨
      (s.irq.interruptEvent.getLsbD i = true ∧ c.port.overwrites p i = false) ∧ c.tasks < k

variable {i k : ℕ}

theorem pends_task (h : s.phase = .task) :
    Pends i k s ↔ s.irq.interruptEvent.getLsbD i = true ∧ c.tasks ≤ k := by
  rw [Pends, h]

theorem pends_select (h : s.phase = .select) :
    Pends i k s ↔ s.irq.interruptEvent.getLsbD i = true ∧ c.tasks < k := by
  rw [Pends, h]

theorem pends_process {p : c.port.Process} (h : s.phase = .process p) :
    Pends i k s ↔ c.port.Due i p s.irq ∧ c.tasks ≤ k ∨
      (s.irq.interruptEvent.getLsbD i = true ∧ c.port.overwrites p i = false) ∧ c.tasks < k := by
  rw [Pends, h]

theorem Pends.not_zero (h : Pends i 0 s) : False := by
  have hpos := c.tasks_pos
  cases hphase : s.phase with
  | task => exact absurd ((pends_task hphase).mp h).2 (by omega)
  | select => exact absurd ((pends_select hphase).mp h).2 (by omega)
  | process p =>
    rcases (pends_process hphase).mp h with ⟨-, h⟩ | ⟨-, h⟩ <;> omega

theorem getLsbD_raise {q : Irq} (j : ℕ) (h : q.interruptEvent.getLsbD i = true) :
    (q.interruptEventRaise j).interruptEvent.getLsbD i = true := by
  simp [getLsbD_interruptEventRaise, h]

/-- Raising another event, or the same again, leaves the event as it is. -/
theorem Pends.raise {j : ℕ} (h : Pends i k s) (hirq : s'.irq = s.irq.interruptEventRaise j)
    (hphase : s'.phase = s.phase) : Pends i k s' := by
  unfold Pends at *
  rw [hphase, hirq]
  cases hs : s.phase with
  | task | select =>
    simp only [hs] at h
    exact h.imp_left (getLsbD_raise j)
  | process p =>
    simp only [hs] at h
    exact h.imp (And.imp_left (c.port.due_raise j)) (And.imp_left (And.imp_left (getLsbD_raise j)))

/-- An access of `interrupt_event_process()` handles the event, or it remains pending. -/
theorem Pends.reach {p : c.port.Process} {next : Option c.port.Process} {irq : Irq}
    (h : Pends i k s) (hi : i < c.interruptEvents) (hphase : s.phase = .process p)
    (hp : c.port.interruptEventProcess p s.irq = (next, irq)) :
    c.port.handles p = some i ∧ c.tasks ≤ k ∨ Pends i k (reach next irq s) := by
  rcases (pends_process hphase).mp h with ⟨hdue, hk⟩ | ⟨⟨hbit, ho⟩, hk⟩
  · refine (c.port.due_next hi hdue hp).imp (⟨·, hk⟩) ?_
    rintro ⟨p', rfl, hdue'⟩
    exact (pends_process (p := p') rfl).mpr (.inl ⟨hdue', hk⟩)
  · right
    rcases c.port.kept hbit ho hp with ⟨p', rfl, hdue⟩ | ⟨hbit', ho'⟩
    · exact (pends_process (p := p') rfl).mpr (.inl ⟨hdue, hk.le⟩)
    · cases next with
      | none => exact (pends_select rfl).mpr ⟨hbit', hk⟩
      | some p' => exact (pends_process (p := p') rfl).mpr (.inr ⟨⟨hbit', ho' p' rfl⟩, hk⟩)

/-- Nothing but its handling clears an event, and that wakes its task. -/
theorem Step.pends (h : Step s a s') (hv : c.variant = .acrux) (ht : t.val = i)
    (hi : i < c.interruptEvents) (hs : Pends i k s) (ha : a.selects = false) :
    Pends i k s' ∨ s'.runnable t = true ∧ c.tasks ≤ k := by
  by_cases htask : s.phase = .task
  · left
    obtain ⟨hbit, hk⟩ := (pends_task htask).mp hs
    rcases h.of_task htask with ⟨hirq, -, hphase | hphase⟩ | ⟨j, -, rfl⟩
    · exact (pends_task hphase).mpr ⟨by rw [hirq, hbit], hk⟩
    · rw [yield_phase, if_pos hv] at hphase
      refine (pends_process hphase).mpr (.inl ⟨?_, hk⟩)
      rw [hirq]
      exact c.port.due_enter hi hbit
    · exact hs.raise (j := j) rfl rfl
  cases h with
  | call _ hphase | mutexLock _ hphase | signalWaitSet _ _ hphase => exact absurd hphase htask
  | raise j => exact .inl (hs.raise (j := j) rfl rfl)
  | process p next irq hphase hp hnone =>
    refine (hs.reach hi hphase hp).symm.imp_right fun h => ?_
    simp [hnone] at h
  | handle p next irq u hphase hp hu =>
    refine (hs.reach hi hphase hp).symm.imp_right fun ⟨h, hk⟩ => ⟨?_, hk⟩
    have htu : t = u := Fin.ext (by rw [ht, ← Option.some.inj (hu.symm.trans h)])
    simp [htu, State.runnable, unblock, record, schedSetRunnable]
  | outOfBounds p next irq j hphase hp hj hlt =>
    refine (hs.reach hi hphase hp).symm.imp_right fun ⟨h, _⟩ => ?_
    have hij : j = i := Option.some.inj (hj.symm.trans h)
    have := t.isLt
    omega
  | select | idle => cases ha

theorem Pends.closer (h : Pends i (k + 1) s) (hi : i < c.interruptEvents) (hstep : Step s a s')
    (ha : a.selects = true) : Pends i k s' := by
  cases hstep with
  | call | mutexLock | signalWaitSet | raise | process | handle | outOfBounds => cases ha
  | select _ _ _ hphase =>
    obtain ⟨hbit, hk⟩ := (pends_select hphase).mp h
    exact (pends_task rfl).mpr ⟨hbit, Nat.le_of_lt_succ hk⟩
  | idle _ _ hphase =>
    obtain ⟨hbit, hk⟩ := (pends_select hphase).mp h
    exact (pends_process rfl).mpr (.inl ⟨c.port.due_enter hi hbit, Nat.le_of_lt_succ hk⟩)

/-- An event that is raised, and not overwritten, pends. -/
theorem pends_of_raise {j : c.InterruptEventId} (hspared : Spared (.interruptEventRaise j) s)
    (h : Step s (.interruptEventRaise j) s') : Pends j (c.tasks + 1) s' := by
  obtain ⟨hirq, hsame⟩ : s'.irq = s.irq.interruptEventRaise j ∧ s'.phase = s.phase := by
    cases h
    exact ⟨rfl, rfl⟩
  have hbit : s'.irq.interruptEvent.getLsbD j = true := by
    simp [hirq, getLsbD_interruptEventRaise, j.isLt.trans_le c.interruptEvents_le]
  cases hphase : s'.phase with
  | task => exact (pends_task hphase).mpr ⟨hbit, Nat.le_succ _⟩
  | select => exact (pends_select hphase).mpr ⟨hbit, Nat.lt_succ_self _⟩
  | process p =>
    exact (pends_process hphase).mpr
      (.inr ⟨⟨hbit, hspared j p rfl (hsame ▸ hphase)⟩, Nat.lt_succ_self _⟩)

end State

open Cooperative.State

variable {as : List (Act c)}

/-- A runnable task has its turn within as many selections as there are tasks. -/
theorem turns_within (ht : s.runnable t = true) (hrun : run step (fun _ _ => true) as s = some s')
    (hn : c.tasks ≤ as.countP Act.selects) :
    ∃ as₁ as₂ u, as = as₁ ++ as₂ ∧ run step (fun _ _ => true) as₁ s = some u ∧ Runs t u :=
  exists_goal_of_run (State.Ahead t) (fun _ => not_ahead_zero)
    (fun _ _ _ _ hw hg ha hstep => .inr (hw.stay (step_cases hstep).2 hg ha))
    (fun _ _ _ _ hw _ ha hstep => hw.closer (step_cases hstep).2 ha)
    (ahead_of_runnable ht) hrun hn

/-- A free mutex that a runnable task waits for is acquired within one more selection than that, be it
    by that task or by another one. -/
theorem free_mutex_acquired {m : c.MutexId} (hpc : s.pc t = .mutexLock m) (ht : s.runnable t = true)
    (hfree : s.locked m = false) (hrun : run step (fun _ _ => true) as s = some s')
    (hn : c.tasks < as.countP Act.selects) :
    ∃ as₁ as₂ u, as = as₁ ++ as₂ ∧ run step (fun _ _ => true) as₁ s = some u ∧ Acquired m u :=
  exists_goal_of_run (Nears t m) (fun _ h => h.2.2.elim (fun h => h.2.ne' rfl) (by simp))
    (fun _ _ _ _ hw _ ha hstep => hw.stay (step_cases hstep).2 ha)
    (fun _ _ _ _ hw _ ha hstep => hw.closer (step_cases hstep).2 ha)
    ⟨hfree, hpc, .inr ⟨_, rfl, ahead_of_runnable ht⟩⟩ hrun hn

/-- The task of an interrupt event that is raised, and not overwritten by the port, has its turn within
    as many selections, whether or not it is blocked. -/
theorem interruptEvent_served {i : c.InterruptEventId} {s₀ : State c} (hv : c.variant = .acrux)
    (ht : t.val = i.val) (hspared : Spared (.interruptEventRaise i) s₀)
    (hraise : step (.interruptEventRaise i) s₀ = some s)
    (hrun : run step (fun _ _ => true) as s = some s') (hn : c.tasks < as.countP Act.selects) :
    ∃ as₁ as₂ u, as = as₁ ++ as₂ ∧ run step (fun _ _ => true) as₁ s = some u ∧ Runs t u := by
  refine exists_goal_of_run (fun k s => State.Ahead t k s ∨ Pends i k s) (fun s h => ?_)
    (fun k s a s' hw hg ha hstep => ?_) (fun k s a s' hw _ ha hstep => ?_)
    (.inr (pends_of_raise hspared (step_cases hraise).2)) hrun hn
  · exact h.elim not_ahead_zero Pends.not_zero
  · right
    rcases hw with hw | hw
    · exact .inl (hw.stay (step_cases hstep).2 hg ha)
    · exact ((step_cases hstep).2.pends hv ht i.isLt hw ha).symm.imp_left fun h =>
        (ahead_of_runnable h.1).mono h.2
  · rcases hw with hw | hw
    · exact (hw.closer (step_cases hstep).2 ha).imp_right .inl
    · exact .inr (.inr (hw.closer i.isLt (step_cases hstep).2 ha))

/-! ### Events without a task -/

namespace State

/-- Nothing was accessed out of bounds, and no event is pending, or about to be handled, that is not
    configured. -/
structure InBounds (s : State c) : Prop where
  undefined : s.undefined = false
  irq : Configured c.interruptEvents s.irq.interruptEvent
  process : ∀ p, s.phase = .process p → c.port.Configured p

theorem InBounds.reach {p : c.port.Process} {next : Option c.port.Process} {irq : Irq}
    (h : InBounds s) (hphase : s.phase = .process p)
    (hp : c.port.interruptEventProcess p s.irq = (next, irq)) : InBounds (reach next irq s) := by
  obtain ⟨hnext, hirq⟩ := c.port.configured_next (h.process p hphase) h.irq hp
  refine ⟨h.undefined, hirq, fun p' hp' => hnext p' ?_⟩
  cases next with
  | none => cases hp'
  | some p'' => exact congrArg some (Phase.process.inj hp')

theorem InBounds.step (hv : c.variant = .acrux) (hle : c.interruptEvents ≤ c.tasks)
    (h : InBounds s) (hstep : Step s a s') : InBounds s' := by
  by_cases htask : s.phase = .task
  · rcases hstep.of_task htask with ⟨hirq, hu, hphase⟩ | ⟨j, -, rfl⟩
    · refine ⟨hu ▸ h.undefined, hirq ▸ h.irq, fun p hp => ?_⟩
      rcases hphase with hphase | hphase
      · simp [hphase] at hp
      · rw [yield_phase, if_pos hv] at hphase
        exact Phase.process.inj (hphase.symm.trans hp) ▸ c.port.configured_enter
    · exact ⟨h.undefined, h.irq.raise j.isLt, h.process⟩
  cases hstep with
  | call _ hphase | mutexLock _ hphase | signalWaitSet _ _ hphase => exact absurd hphase htask
  | raise j => exact ⟨h.undefined, h.irq.raise j.isLt, h.process⟩
  | process p next irq hphase hp => exact h.reach hphase hp
  | handle p next irq t hphase hp =>
    have hreach := h.reach hphase hp
    exact ⟨hreach.undefined, hreach.irq, hreach.process⟩
  | outOfBounds p next irq i hphase hp hi hlt =>
    have := c.port.lt_of_handles (h.process p hphase) hi
    omega
  | select => exact ⟨h.undefined, h.irq, by simp [yieldTo]⟩
  | idle =>
    refine ⟨h.undefined, h.irq, fun p hp => ?_⟩
    exact Phase.process.inj hp ▸ c.port.configured_enter

/-- While it handles no event, `interrupt_event_process()` goes its way. -/
theorem Reached.passes (h : s.Reached) (hu : s.undefined = false) {x y : c.port.Process × Irq}
    (hphase : s.phase = .process x.1) (hirq : s.irq = x.2)
    (hpath : Relation.ReflTransGen (fun x y : c.port.Process × Irq => c.port.handles x.1 = none ∧
      c.port.interruptEventProcess x.1 x.2 = (some y.1, y.2)) x y) :
    ∃ u : State c, u.Reached ∧ u.undefined = false ∧ u.phase = .process y.1 := by
  suffices h : ∃ u : State c, u.Reached ∧ u.undefined = false ∧ u.phase = .process y.1 ∧ u.irq = y.2 by
    obtain ⟨u, hreached, hu, hphase, -⟩ := h
    exact ⟨u, hreached, hu, hphase⟩
  induction hpath with
  | refl => exact ⟨s, h, hu, hphase, hirq⟩
  | @tail y z _ hyz ih =>
    obtain ⟨u, hreached, hu, hphase, hirq⟩ := ih
    obtain ⟨hnone, hp⟩ := hyz
    refine ⟨State.reach (some z.1) z.2 u, Reach.next .interruptEventProcess hreached trivial ?_, hu,
      rfl, rfl⟩
    simp [step, hu, hphase, interruptEventProcess, hirq, hp, hnone]

end State

/-- Acrux uses the number of an interrupt event as that of a task, and nothing keeps the one below
    the number of tasks: it stays inside its arrays in all runs exactly if there are no more events
    than tasks. -/
theorem acrux_in_bounds_iff (hv : c.variant = .acrux) :
    (∀ s : State c, s.Reached → s.undefined = false) ↔ c.interruptEvents ≤ c.tasks := by
  constructor
  · intro h
    by_contra hlt
    -- the event behind the last task is raised, and the first task yields
    let i : c.InterruptEventId := ⟨c.tasks, by omega⟩
    let s₁ : State c := { start with irq := Irq.interruptEventRaise i ⟨true, 0, 0, false⟩ }
    have h₁ : s₁.Reached := Reach.next (.interruptEventRaise i) .start trivial
      (by simp [step, start, hv, s₁])
    have h₂ : (yield s₁).Reached := Reach.next (.call .yield) h₁ trivial
      (by simp [step, start, inApp, Phase.isTask, hv, provides, s₁, State.call])
    have hword : (yield s₁).irq.interruptEvent = BitVec.twoPow 32 i := by
      simp [yield, s₁, start, Irq.interruptEventRaise]
    obtain ⟨p, q, hp, hpath⟩ := c.port.exists_handled i.isLt hword
    obtain ⟨u, hreached, hu, hphase⟩ := h₂.passes rfl (by simp [yield, hv]) rfl hpath
    have h₃ : (interruptEventProcess p u).Reached :=
      Reach.next .interruptEventProcess hreached trivial (by simp [step, hu, hphase])
    have := h _ h₃
    simp [interruptEventProcess, hp, interruptEventHandle, i] at this
  · intro hle s h
    exact (h.invariant (I := State.InBounds) ⟨rfl, fun k hk => by simp [start] at hk, by simp [start]⟩
      fun _ _ _ _ hI _ hstep => hI.step hv hle (step_cases hstep).2).undefined

/-! ### A system of two tasks -/

/-- Two tasks, both runnable, where the second waits for the mutex that the first has unlocked. -/
def waitsForFree (v : Variant) : State (twoTasks v) :=
  { State.start with sched := ⟨0, fun _ => true⟩, pc := fun t => if t = 1 then .mutexLock 0 else .app }

theorem turns_within_two :
    ∃ as₁ as₂ u, [.call .yield, .schedGetNext 2, .resume, .call .yield, .schedGetNext 2] = as₁ ++ as₂ ∧
      run step (fun _ _ => true) as₁ (waitsForFree .kraz) = some u ∧ Runs 1 u := by
  obtain ⟨s', hs'⟩ := Option.isSome_iff_exists.mp (show (run step (fun _ _ => true)
    [.call .yield, .schedGetNext 2, .resume, .call .yield, .schedGetNext 2]
    (waitsForFree .kraz)).isSome by decide +kernel)
  exact turns_within rfl hs' (by decide)

theorem free_mutex_acquired_two :
    ∃ as₁ as₂ u, [.call .yield, .schedGetNext 2, .resume, .call .yield, .schedGetNext 2, .call .yield,
        .schedGetNext 2] = as₁ ++ as₂ ∧
      run step (fun _ _ => true) as₁ (waitsForFree .gatria) = some u ∧ Acquired 0 u := by
  obtain ⟨s', hs'⟩ := Option.isSome_iff_exists.mp (show (run step (fun _ _ => true)
    [.call .yield, .schedGetNext 2, .resume, .call .yield, .schedGetNext 2, .call .yield,
      .schedGetNext 2] (waitsForFree .gatria)).isSome by decide +kernel)
  exact free_mutex_acquired (t := 1) rfl rfl rfl hs' (by decide)

/-- No task is runnable, and `interrupt_event_process()` is about to load the word of pending events
    in order to clear the first event. -/
def atLoad : State (twoTasks .acrux) :=
  { State.start with phase := .process (.load 1 0), irq := ⟨true, 1, 0, false⟩ }

/-- The first task is woken, and blocks; then the second one is woken. -/
def runServed : List (Act (twoTasks .acrux)) :=
  List.replicate 5 .interruptEventProcess ++ [.schedGetNext 2, .call .block] ++
    List.replicate 7 .interruptEventProcess ++ [.schedGetNext 2, .call .yield] ++
    List.replicate 2 .interruptEventProcess ++ [.schedGetNext 2]

/-- The second event is raised while the first one is processed. -/
theorem interruptEvent_served_atLoad :
    ∃ as₁ as₂ u, runServed = as₁ ++ as₂ ∧ run step (fun _ _ => true) as₁
      { atLoad with irq := atLoad.irq.interruptEventRaise 1 } = some u ∧ Runs 1 u := by
  obtain ⟨s', hs'⟩ := Option.isSome_iff_exists.mp (show (run step (fun _ _ => true) runServed
    { atLoad with irq := atLoad.irq.interruptEventRaise 1 }).isSome by decide +kernel)
  have hraise : step (.interruptEventRaise 1) atLoad =
      some { atLoad with irq := atLoad.irq.interruptEventRaise 1 } := rfl
  have hspared : Spared (.interruptEventRaise 1) atLoad := by
    rintro i p - hp
    obtain rfl := Phase.process.inj hp
    rfl
  exact interruptEvent_served rfl rfl hspared hraise hs' (by decide)

theorem acrux_in_bounds_iff_two :
    (∀ s : State (twoTasks .acrux), s.Reached → s.undefined = false) ↔ 2 ≤ 2 :=
  acrux_in_bounds_iff rfl

end Echronos.Cooperative
