import Echronos.Properties.RoundRobin
import Echronos.Properties.Waits
import Echronos.Schemes.Turns
import Echronos.Variants.Variant

/-! # Turns of Rigel's tasks

    A task of Rigel runs until it gives up the processor, and only its own code blocks it. So a
    runnable task has its turn within as many selections as there are tasks, whatever the others,
    timers and interrupts do meanwhile; and a task that has been sent what it waits for is runnable,
    and finds it when its turn comes. -/

namespace Echronos

open Schemes

variable {c : Config} {S : Sched c.tasks c.mutexes}

/-- The step is a call of `sched_get_next()`. -/
def Act.selects : Act c → Bool
  | .kernel (.schedGetNext _ _) => true
  | _ => false

namespace State

open Echronos.Core

/-- Task `t` executes. -/
def Runs (t : c.TaskId) (s : State c S) : Prop := s.currentTask = t ∧ s.core.phase = .task

/-- What the kernel does to any task. -/
theorem act_other {a : Core.Act c} {k k' : Core c S} (h : Core.act a k = some k') (t : c.TaskId) :
    Other t k k' := by
  rcases act_cases h with hs | ⟨-, -, -, hs⟩ | rfl | rfl
  · exact (hs.quiet (A := ∅)).other t
  · exact hs.other t
  · have ho := (interruptEventProcess_wakes (A := ∅) k).other t
    exact ⟨ho.pc, ho.signals, ho.link⟩
  · have ho := (timerTickProcess_wakes (A := ∅) k).other t
    exact ⟨ho.pc, ho.signals, ho.link⟩

/-- Only its own code moves or blocks a task. -/
theorem other_of_not_runs {a : Act c} {s s' : State c S} (h : step a s = some s') {t : c.TaskId}
    (ht : ¬ Runs t s) : Other t s.core s'.core := by
  by_cases hcurrent : t = s.core.currentTask
  · have hphase : s.core.phase ≠ .task := fun hp => ht ⟨hcurrent.symm, hp⟩
    have happ : s.inApp ≠ true := fun h => hphase (inApp_iff.mp h).1
    have hrest := (Option.ite_none_left_eq_some.mp h).2
    cases a with
    | kernel a =>
      obtain ⟨k, hk, rfl⟩ := Option.map_eq_some_iff.mp hrest
      exact act_other hk t
    | call => exact absurd (Option.ite_none_right_eq_some.mp hrest).1 happ
    | resume => exact absurd (Option.ite_none_right_eq_some.mp hrest).1 hphase
    | store => exact absurd (Option.ite_none_right_eq_some.mp hrest).1 happ
  · exact step_other h hcurrent

/-! ### The round of the scheduler -/

variable {s s' : State c (rigelSched c.tasks c.mutexes c.tasks_pos)} {t : c.TaskId} {a : Act c}

/-- `sched_tasks` -/
def schedTasks (s : State c (rigelSched c.tasks c.mutexes c.tasks_pos)) : RoundRobin.State c.tasks :=
  s.core.sched

theorem runnable_schedTasks : s.core.runnable t ↔ s.schedTasks.runnable t = true := by
  change (if s.schedTasks.runnable t = true then some t else none) = some t ↔ _
  simp

/-- Waking and blocking tasks leaves the current index alone. -/
theorem wakes_cur {A : Set Component} {k k' : Core c (rigelSched c.tasks c.mutexes c.tasks_pos)}
    (h : Wakes A k k') (hA : .mutex ∉ A) {cur : c.TaskId}
    (hk : (k.sched : RoundRobin.State c.tasks).cur = cur) :
    (k'.sched : RoundRobin.State c.tasks).cur = cur :=
  h.sched (I := fun r : RoundRobin.State c.tasks => r.cur = cur) hA (fun _ _ => id) hk

theorem signalWaitSet_cur (requested : c.SignalSet) (blocker : Option c.TaskId) (cont : Cont c)
    {k : Core c (rigelSched c.tasks c.mutexes c.tasks_pos)} {cur : c.TaskId}
    (hk : (k.sched : RoundRobin.State c.tasks).cur = cur) :
    ((signalWaitSet requested blocker cont k).sched : RoundRobin.State c.tasks).cur = cur :=
  signalWaitSet_sched (S := rigelSched c.tasks c.mutexes c.tasks_pos)
    (I := fun r : RoundRobin.State c.tasks => r.cur = cur) (fun _ _ _ => id) hk

theorem Piece.cur {x : Service c} (h : Piece x s s') (hx : x ≠ .switch) :
    s'.schedTasks.cur = s.schedTasks.cur := by
  by_cases hmutex : x.component = .mutex
  · cases h with
    | mutexAcquire _ m _ _ hm => rw [mutexTryLock_of_none hm]; rfl
    | mutexWait m => exact signalWaitSet_cur (k := s.core) _ _ _ rfl
    | mutexWaitTimeout m d =>
      obtain ⟨k, hk, he | he⟩ := blockTimeout_cases (mutexRegister m s) (s.mutexes m)
        (s.remaining d) (.mutexLockTimeout m d)
      · rw [he]
        exact wakes_cur hk (Set.notMem_empty _) rfl
      · rw [he]
        exact signalWaitSet_cur _ _ _ (wakes_cur hk (Set.notMem_empty _) rfl)
    | mutexUnlock m =>
      exact wakes_cur (A := ∅) (wakeWaiters_wakes m s.mutexWaiters
        { s.core with sched := s.schedTasks }) (Set.notMem_empty _) rfl
    | _ => cases hmutex
  · rcases h.moves (A := {Component.mutex}ᶜ) hmutex with hm | ⟨he, -⟩
    · exact hm.sched (I := fun r : RoundRobin.State c.tasks => r.cur = s.schedTasks.cur) (by simp)
        (fun _ _ => id) (fun _ _ _ => id) rfl
    · exact absurd he hx

theorem step_cur (h : step a s = some s') (ha : a.selects = false) :
    s'.schedTasks.cur = s.schedTasks.cur := by
  have hx : s.service a ≠ .switch := service_ne_switch fun fuel again he => by
    rw [he] at ha
    cases ha
  refine (step_pieces h).invariant (I := fun r => r.schedTasks.cur = s.schedTasks.cur)
    (fun y r r' hy hp hr => ?_) rfl
  rcases hy with rfl | rfl
  · exact (hp.cur (by simp)).trans hr
  · exact (hp.cur hx).trans hr

theorem ahead_step {k : ℕ} (h : RoundRobin.Ahead t k s.schedTasks) (hstep : step a s = some s')
    (ht : ¬ Runs t s) (ha : a.selects = false) : RoundRobin.Ahead t k s'.schedTasks :=
  h.frame (fun hr => runnable_schedTasks.mp
    ((other_of_not_runs hstep ht).runnable (runnable_schedTasks.mpr hr))) (step_cur hstep ha)

/-- A selection switches to the task, or brings it closer to its turn. -/
theorem ahead_select {k : ℕ} (hc : c.preemptive = false)
    (h : RoundRobin.Ahead t (k + 1) s.schedTasks) (hstep : step a s = some s')
    (ha : a.selects = true) : Runs t s' ∨ RoundRobin.Ahead t k s'.schedTasks := by
  rcases a with a | _ | _ | _ <;> try cases ha
  cases a with
  | schedGetNext fuel again =>
    obtain ⟨k', hk, rfl⟩ := Option.map_eq_some_iff.mp (Option.ite_none_left_eq_some.mp hstep).2
    have hselect := (Option.ite_none_right_eq_some.mp hk).2
    obtain ⟨idx, hnext⟩ := h.exists_next
    unfold Core.schedGetNext at hselect
    split at hselect
    · cases hselect
    · rename_i sched hr
      have heq := RoundRobin.eq_of_schedGetNext (s := s.schedTasks) hr
      rw [hnext] at heq
      cases heq
    · rename_i next sched hr
      have heq := RoundRobin.eq_of_schedGetNext (s := s.schedTasks) hr
      rw [hnext] at heq
      obtain ⟨hidx, rfl⟩ := Prod.mk.inj heq
      obtain rfl := Option.some.inj hidx
      rw [dif_pos idx.isLt, hc] at hselect
      cases again with
      | true => cases hselect
      | false =>
        obtain rfl := Option.some.inj hselect
        exact (h.select hnext).imp_left fun he => ⟨he, rfl⟩
  | _ => cases ha

/-- A runnable task has its turn within as many selections as there are tasks, and finds then what
    other tasks and the kernel cannot take away. -/
theorem exists_turn (hc : c.preemptive = false)
    {P : State c (rigelSched c.tasks c.mutexes c.tasks_pos) → Prop}
    (hP : ∀ s s', P s → Other t s.core s'.core → P s') (ht : s.core.runnable t) (hs : P s)
    {as : List (Act c)} (hrun : run step (fun _ _ => true) as s = some s')
    (hn : c.tasks ≤ as.countP Act.selects) :
    ∃ as₁ as₂ u, as = as₁ ++ as₂ ∧ run step (fun _ _ => true) as₁ s = some u ∧ Runs t u ∧ P u := by
  refine exists_goal_of_run (fun k s => RoundRobin.Ahead t k s.schedTasks ∧ P s)
    (fun _ h => RoundRobin.not_ahead_zero h.1) (fun k s a s' hw hg ha hstep => ?_)
    (fun k s a s' hw hg ha hstep => ?_)
    ⟨RoundRobin.ahead_of_runnable (runnable_schedTasks.mp ht), hs⟩ hrun hn
  · have hnot : ¬ Runs t s := fun hr => hg ⟨hr, hw.2⟩
    exact .inr ⟨ahead_step hw.1 hstep hnot ha, hP s s' hw.2 (other_of_not_runs hstep hnot)⟩
  · have hp := hP s s' hw.2 (other_of_not_runs hstep fun hr => hg ⟨hr, hw.2⟩)
    exact (ahead_select hc hw.1 hstep ha).imp (⟨·, hp⟩) (⟨·, hp⟩)

end State

open State

variable {s s' : State c Variant.rigel.sched} {t : c.TaskId} {as : List (Act c)}

theorem rigel_turns_within (hc : c.preemptive = false) (ht : s.core.runnable t)
    (hrun : run step (fun _ _ => true) as s = some s') (hn : c.tasks ≤ as.countP Act.selects) :
    ∃ as₁ as₂ u, as = as₁ ++ as₂ ∧ run step (fun _ _ => true) as₁ s = some u ∧ Runs t u := by
  obtain ⟨as₁, as₂, u, has, hu, hr, -⟩ :=
    exists_turn hc (P := fun _ => True) (fun _ _ _ _ => trivial) ht trivial hrun hn
  exact ⟨as₁, as₂, u, has, hu, hr⟩

/-- A task with a signal pending that it waits for returns from its wait within as many selections,
    with that signal. -/
theorem rigel_signal_received (hc : c.preemptive = false) (hs : s.Reached) {w : Wait c}
    (hw : s.core.pc t = .wait w) {i : ℕ} (hp : (s.core.signals t).getLsbD i = true)
    (hi : w.requested.getLsbD i = true) (hrun : run step (fun _ _ => true) as s = some s')
    (hn : c.tasks ≤ as.countP Act.selects) :
    ∃ as₁ as₂ u k, as = as₁ ++ as₂ ∧ run step (fun _ _ => true) as₁ s = some u ∧ Runs t u ∧
      Core.signalWaitReturn w u.core = some k ∧
      ∃ r, k.history = .received t w.requested r :: u.core.history ∧ r.getLsbD i = true := by
  have hpeek : Core.signalPeek (s.core.signals t) w.requested = true :=
    Core.signalPeek_iff.mpr ⟨i, hp, hi⟩
  have ht : s.core.runnable t := (hs.waitSound t).runnable fun w' hw' _ => by
    obtain rfl := Pc.wait.inj (hw.symm.trans hw')
    exact hpeek
  obtain ⟨as₁, as₂, u, has, hu, ⟨rfl, hphase⟩, hwu, hpu⟩ := exists_turn hc
    (P := fun s => s.core.pc t = .wait w ∧ (s.core.signals t).getLsbD i = true)
    (fun s s' h ho => ⟨ho.pc.trans h.1, ho.signals i h.2⟩) ht ⟨hw, hp⟩ hrun hn
  refine ⟨as₁, as₂, u, _, has, hu, ⟨rfl, hphase⟩, Core.signalWaitReturn_eq_some.mpr
    ⟨fun _ => Core.signalPeek_iff.mpr ⟨i, hpu, hi⟩, rfl⟩, _, rfl, ?_⟩
  exact (BitVec.getLsbD_and ..).trans (Bool.and_eq_true_iff.mpr ⟨hpu, hi⟩)

/-! ### Two tasks that yield to each other -/

abbrev twoTasks : Config := .plain 2 0 0 0 false false Nat.two_pos

/-- The current task yields, and another is selected. -/
def yielding : List (Act twoTasks) := .call (.core .yield) :: reschedule

theorem rigel_turns_within_two :
    ∃ as₁ as₂ u, yielding ++ yielding = as₁ ++ as₂ ∧
      run step (fun _ _ => true) as₁ (start fun _ => 0 : State twoTasks Variant.rigel.sched) = some u ∧
      Runs 1 u := by
  obtain ⟨s', hs'⟩ := Option.isSome_iff_exists.mp (show (run step (fun _ _ => true)
    (yielding ++ yielding) (start fun _ => 0 : State twoTasks Variant.rigel.sched)).isSome by
      decide +kernel)
  exact rigel_turns_within rfl rfl hs' (by decide)

/-- `t` is in a wait for signal `i`, and is woken. -/
def awaits (t : twoTasks.TaskId) (i : ℕ) (s : State twoTasks Variant.rigel.sched) : Bool :=
  (s.core.signals t).getLsbD i && match s.core.pc t with
    | .wait w => w.requested.getLsbD i
    | _ => false

theorem rigel_signal_received_two :
    ∃ s : State twoTasks Variant.rigel.sched, s.Reached ∧ ∃ as₁ as₂ u,
      yielding ++ .resume :: yielding = as₁ ++ as₂ ∧ run step (fun _ _ => true) as₁ s = some u ∧
      Runs 1 u ∧ ∃ w k, Core.signalWaitReturn w u.core = some k := by
  obtain ⟨s, hs, hp⟩ := exists_reached_of_run (S := Variant.rigel.sched)
    (yielding ++ .call (.core (.signalWaitSet 4)) :: reschedule ++ [.call (.core (.signalSendSet 1 4))])
    (fun s => awaits 1 2 s && (run step (fun _ _ => true) (yielding ++ .resume :: yielding) s).isSome)
    (by decide +kernel)
  obtain ⟨hawaits, hrun⟩ := Bool.and_eq_true_iff.mp hp
  obtain ⟨s', hs'⟩ := Option.isSome_iff_exists.mp hrun
  obtain ⟨hpending, hpc⟩ := Bool.and_eq_true_iff.mp hawaits
  cases hw : s.core.pc 1 with
  | wait w =>
    rw [hw] at hpc
    obtain ⟨as₁, as₂, u, k, has, hu, hr, hk, -⟩ :=
      rigel_signal_received rfl hs hw hpending hpc hs' (by decide)
    exact ⟨s, hs, as₁, as₂, u, has, hu, hr, w, k, hk⟩
  | _ =>
    rw [hw] at hpc
    cases hpc

end Echronos
