import Echronos.Properties.Mutexes
import Echronos.Schemes.Ceiling

/-! # Priority ceilings in Phact

    In a run in which the task that executes is the one `sched_get_next` selects, in which tasks lock
    mutexes of higher ceilings only, and in which no task blocks while it holds a mutex, except on
    another mutex, a mutex is always free when it is locked. The invariant is that of immediate
    priority ceilings, on the holders in `mutexes`; `sched_queue` reflects them in every state. -/

namespace Echronos

open Schemes

variable {c : Config} {T : CeilingTables c.tasks c.mutexes}

/-- The base priority of a task, and the ceiling of a mutex. -/
def CeilingTables.base (T : CeilingTables c.tasks c.mutexes) (t : c.TaskId) : ℕ :=
  T.priority (.inl t)

def CeilingTables.ceiling (T : CeilingTables c.tasks c.mutexes) (m : c.MutexId) : ℕ :=
  T.priority (.inr m)

theorem CeilingTables.base_ne_ceiling (T : CeilingTables c.tasks c.mutexes) (t : c.TaskId)
    (m : c.MutexId) : T.base t ≠ T.ceiling m := by
  have hne : T.index (.inl t) ≠ T.index (.inr m) := by simp
  rcases lt_or_gt_of_ne hne with h | h
  · exact ((T.index_lt_iff _ _).mp h).ne'
  · exact ((T.index_lt_iff _ _).mp h).ne

namespace State

open Echronos.Core PrioCeiling

/-- The step takes its task from running to blocked, other than inside a lock function. -/
def BlocksVoluntarily {S : Sched c.tasks c.mutexes} (a : Act c) (s : State c S) : Prop :=
  ∃ s', step a s = some s' ∧ s.core.runnable s.currentTask ∧ ¬ s'.core.runnable s.currentTask ∧
    s'.core.inside Cont.mutex s.currentTask = none

/-- A step of a run to which the theorem of priority ceilings applies. -/
structure Disciplined (T : CeilingTables c.tasks c.mutexes) (a : Act c)
    (s : State c (phactSched T c.tasks_pos)) : Prop where
  designated : (∀ k, a ≠ .kernel k) →
    PrioCeiling.schedGetNext T c.tasks_pos s.core.sched = s.currentTask
  ceiling : ∀ m, (s.service a).locks = some m → T.base s.currentTask < T.ceiling m
  voluntary : BlocksVoluntarily a s → ∀ m, s.mutexes m ≠ some s.currentTask

/-- `sched_queue` reflects the holders, who obey the ceilings, and no task waits for a mutex. -/
structure Ceilings (s : State c (phactSched T c.tasks_pos)) : Prop where
  queue : QueueOf T s.mutexes s.core.sched
  sound : CeilingSound T.base T.ceiling s.mutexes
  outside : ∀ t, s.core.inside Cont.mutex t = none
  entered : ∀ t m d, s.core.pc t = .entered (.mutexLockTimeout m d) → s.mutexes m ≠ some t

variable {s s' : State c (phactSched T c.tasks_pos)}

/-- Holders change only by `mutex_unlock` in code that locks nothing. -/
theorem Piece.holders {x : Service c} (h : Piece x s s') (hx : x.locks = none) {t : c.TaskId}
    {m : c.MutexId} (hm : s'.mutexes m = some t) : s.mutexes m = some t := by
  by_cases hc : x.component = .mutex
  · cases h with
    | mutexUnlock l =>
      by_cases hl : m = l
      · subst hl; simp [State.mutexUnlock] at hm
      · simpa [State.mutexUnlock, hl] using hm
    | mutexAcquire _ l hl => exact absurd (hl.symm.trans hx) (by simp)
    | mutexWait | mutexWaitTimeout => cases hx
    | _ => cases hc
  · rwa [(h.mutexes hc).1] at hm

theorem Ceilings.piece {x : Service c} (h : Piece x s s') (hx : x.locks = none)
    (hs : Ceilings s) : Ceilings s' := by
  by_cases hc : x.component = .mutex
  · cases h with
    | mutexUnlock m =>
      have hpc := mutexUnlock_pc m s
      refine ⟨?_, hs.sound.release m, fun t => ?_, fun t l d ht hl => ?_⟩
      · exact (wakeWaiters_wakes (A := ∅) m s.mutexWaiters _).sched (by simp)
          (fun t _ hq => hq.setRunnable t) (hs.queue.setMutexUnlocked m)
      · simpa [inside, hpc] using hs.outside t
      · refine hs.entered t l d (hpc ▸ ht) ?_
        by_cases hlm : l = m
        · subst hlm; simp [mutexUnlock] at hl
        · simpa [mutexUnlock, hlm] using hl
    | mutexAcquire _ m hm => exact absurd (hm.symm.trans hx) (by simp)
    | mutexWait | mutexWaitTimeout => cases hx
    | _ => cases hc
  · have hmut := (h.mutexes hc).1
    refine ⟨?_, by rw [hmut]; exact hs.sound, fun t => ?_, fun t m d ht hm => ?_⟩
    · rw [hmut]
      exact h.sched hc (fun t _ hq => hq.setRunnable t) (fun t _ _ hq => hq.setBlocked t)
        (fun fuel q r q' hr hq => by
          obtain ⟨-, rfl⟩ := Prod.mk.inj (Option.some.inj hr)
          exact hq) hs.queue
    · cases hin : s'.core.inside Cont.mutex t with
      | none => rfl
      | some m =>
        obtain ⟨w, hw, hm⟩ := inside_eq_some.mp hin
        have := (h.keeps hc hw (Cont.component_of_mutex hm)).1
        exact absurd (inside_eq_some.mpr ⟨w, this, hm⟩) (by simp [hs.outside t])
    · rw [hmut] at hm
      by_cases htc : t = s.currentTask
      · rcases h.entered ht with he | ⟨-, he⟩
        · exact hs.entered t m d he hm
        · exact he.2 (htc ▸ hm)
      · exact hs.entered t m d ((h.other htc).pc ▸ ht) hm

/-- The steps that execute a lock function, apart from those that go on waiting for the mutex. -/
theorem step_locks {S : Sched c.tasks c.mutexes} {a : Act c} {s s' : State c S} {m : c.MutexId}
    (h : step a s = some s') (hx : (s.service a).locks = some m)
    (hin : s.core.inside Cont.mutex s.currentTask = none) :
    (a = .call (.mutex (.lock m)) ∧ s.core.pc s.currentTask = .app ∧
      s.mutexes m ≠ some s.currentTask ∧ s' = mutexLockLoop m s) ∨
    (a = .call (.mutex (.tryLock m)) ∧ s.core.pc s.currentTask = .app ∧
      s' = (mutexTryLock m s).2) ∨
    (∃ d, a = .resume ∧ s.core.pc s.currentTask = .entered (.mutexLockTimeout m d) ∧
      s' = mutexLockTimeoutLoop m d (s.onCore (setPc .app))) := by
  obtain ⟨-, h⟩ := Option.ite_none_left_eq_some.mp h
  cases a with
  | kernel a => cases a <;> cases hx
  | store => cases hx
  | call f =>
    obtain ⟨happ, h⟩ := Option.ite_none_right_eq_some.mp h
    have hpc := (inApp_iff.mp happ).2
    cases f with
    | mutex f =>
      cases f with
      | lock l =>
        obtain rfl := Option.some.inj hx
        obtain ⟨hl, ⟨⟩⟩ := Option.ite_none_right_eq_some.mp h
        exact .inl ⟨rfl, hpc, hl, rfl⟩
      | tryLock l =>
        obtain rfl := Option.some.inj hx
        exact .inr (.inl ⟨rfl, hpc, (Option.some.inj h).symm⟩)
      | _ => cases hx
    | core f => cases f <;> cases hx
    | sem f => cases f <;> cases hx
    | messageQueue f => cases f <;> cases hx
  | resume =>
    have h := (Option.ite_none_right_eq_some.mp h).2
    cases hpc : s.core.pc s.currentTask with
    | app => simp [service, hpc, Service.locks] at hx
    | entered e =>
      cases e with
      | mutexLockTimeout l d =>
        obtain rfl : l = m := by simpa [service, hpc, Entry.service, Service.locks] using hx
        simp only [resume, hpc] at h
        exact .inr (.inr ⟨d, rfl, rfl, (Option.some.inj h).symm⟩)
      | _ => simp [service, hpc, Entry.service, Service.locks] at hx
    | wait w =>
      have hm : w.cont.mutex = some m := by
        obtain ⟨r, b, blocked, cont⟩ := w
        cases cont <;> simp_all [service, Cont.service, Service.locks, Cont.mutex]
      exact absurd (inside_eq_some.mpr ⟨w, hpc, hm⟩) (by simp [hin])

/-- A step that locks is one of the task with the highest effective priority. -/
theorem Disciplined.top {a : Act c} {m : c.MutexId} (ha : Disciplined T a s)
    (hstep : step a s = some s') (hx : (s.service a).locks = some m) (hs : Ceilings s)
    (hw : s.core.WaitSound s.currentTask) :
    s.core.runnable s.currentTask ∧
      Top T.base T.ceiling s.mutexes s.core.runnable s.currentTask := by
  have hrun : s.core.runnable s.currentTask := hw.awake fun w hpc => by
    rcases step_locks hstep hx (hs.outside _) with h | h | ⟨d, h⟩
    · exact absurd (hpc.symm.trans h.2.1) nofun
    · exact absurd (hpc.symm.trans h.2.1) nofun
    · exact absurd (hpc.symm.trans h.2.1) nofun
  refine ⟨hrun, hs.queue.top c.tasks_pos hrun (ha.designated fun k => ?_)⟩
  rintro rfl
  cases k <;> cases hx

/-- A task that obeys the ceilings locks a mutex. -/
theorem Ceilings.acquire (hs : Ceilings s) {m : c.MutexId} (hm : s.mutexes m = none)
    (hpc : s.core.pc s.currentTask = .app) (hcur : s.core.runnable s.currentTask)
    (htop : Top T.base T.ceiling s.mutexes s.core.runnable s.currentTask)
    (hrun : ∀ t m, s.mutexes m = some t → s.core.runnable t)
    (hlt : T.base s.currentTask < T.ceiling m) :
    Ceilings (mutexTryLock m s).2 ∧ ∀ t l, (mutexTryLock m s).2.mutexes l = some t →
      (mutexTryLock m s).2.core.runnable t := by
  have hlink : (mutexTryLock m s).2.core.link = s.core.link := by
    rw [mutexTryLock_of_none hm]
    exact (setMutexLockedBy_quiet (A := Set.univ) trivial m s.currentTask s.core).link
  have hmut : (mutexTryLock m s).2.mutexes = Function.update s.mutexes m (some s.currentTask) := by
    rw [mutexTryLock_of_none hm]
  refine ⟨?_, fun t l hl => ?_⟩
  · rw [mutexTryLock_of_none hm]
    refine ⟨hs.queue.setMutexLockedBy m s.currentTask,
      hs.sound.acquire T.base_ne_ceiling htop (fun u ⟨l, hl⟩ => hrun u l hl) hlt, hs.outside,
      fun t l d ht hl => ?_⟩
    have htc : t ≠ s.currentTask := by
      rintro rfl
      exact absurd (hpc.symm.trans ht) nofun
    refine hs.entered t l d ht ?_
    by_cases hlm : l = m
    · subst hlm
      exact absurd (Option.some.inj (by simpa using hl)) htc.symm
    · simpa [hlm] using hl
  · rw [Core.runnable, hlink]
    rw [hmut] at hl
    by_cases hlm : l = m
    · subst hlm
      obtain rfl : s.currentTask = t := by simpa using hl
      exact hcur
    · exact hrun t l (by simpa [hlm] using hl)

/-- A mutex is free when a task locks it. -/
theorem Ceilings.free {a : Act c} {m : c.MutexId} (hs : Ceilings s)
    (hrun : ∀ t m, s.mutexes m = some t → s.core.runnable t) (ha : Disciplined T a s)
    (hw : s.core.WaitSound s.currentTask) (hstep : step a s = some s')
    (hx : (s.service a).locks = some m) (hself : s.mutexes m ≠ some s.currentTask) :
    s.mutexes m = none :=
  hs.sound.free T.base_ne_ceiling (ha.top hstep hx hs hw).2 (fun u ⟨l, hl⟩ => hrun u l hl)
    (ha.ceiling m hx) hself

theorem Ceilings.lock {a : Act c} {m : c.MutexId} (hs : Ceilings s)
    (hrun : ∀ t m, s.mutexes m = some t → s.core.runnable t) (ha : Disciplined T a s)
    (hw : s.core.WaitSound s.currentTask) (hstep : step a s = some s')
    (hx : (s.service a).locks = some m) :
    Ceilings s' ∧ ∀ t l, s'.mutexes l = some t → s'.core.runnable t := by
  obtain ⟨hcur, htop⟩ := ha.top hstep hx hs hw
  have hlt := ha.ceiling m hx
  have hfree := hs.free hrun ha hw hstep hx
  rcases step_locks hstep hx (hs.outside _) with ⟨-, hpc, hself, rfl⟩ | ⟨-, hpc, rfl⟩ |
    ⟨d, -, hpc, rfl⟩
  · have hm := hfree hself
    have : mutexLockLoop m s = (mutexTryLock m s).2 := if_pos (mutexTryLock_fst.mpr hm)
    rw [this]
    exact hs.acquire hm hpc hcur htop hrun hlt
  · by_cases hself : s.mutexes m = some s.currentTask
    · have : (mutexTryLock m s).2 = s := by simp [mutexTryLock, hself]
      rw [this]
      exact ⟨hs, hrun⟩
    · exact hs.acquire (hfree hself) hpc hcur htop hrun hlt
  · have hm := hfree (hs.entered _ m d hpc)
    have hleave : Ceilings (s.onCore (setPc .app)) := hs.piece (.leave _ hpc) rfl
    have : mutexLockTimeoutLoop m d (s.onCore (setPc .app)) =
        (mutexTryLock m (s.onCore (setPc .app))).2 :=
      if_pos (mutexTryLock_fst (s := s.onCore (setPc .app)).mpr hm)
    rw [this]
    exact hleave.acquire hm (by simp [onCore, currentTask]) hcur htop hrun hlt

theorem Ceilings.step {a : Act c} (hs : Ceilings s)
    (hrun : ∀ t m, s.mutexes m = some t → s.core.runnable t) (ha : Disciplined T a s)
    (hw : s.core.WaitSound s.currentTask) (hstep : step a s = some s') :
    Ceilings s' ∧ ∀ t m, s'.mutexes m = some t → s'.core.runnable t := by
  cases hx : (s.service a).locks with
  | some m => exact hs.lock hrun ha hw hstep hx
  | none =>
    obtain ⟨hs', hheld⟩ : Ceilings s' ∧ ∀ t m, s'.mutexes m = some t → s.mutexes m = some t := by
      refine (step_pieces hstep).invariant (I := fun s' => Ceilings s' ∧
        ∀ t m, s'.mutexes m = some t → s.mutexes m = some t) (fun y r r' hy hp hr => ?_)
        ⟨hs, fun _ _ h => h⟩
      have hy : y.locks = none := by
        rcases hy with rfl | rfl
        · rfl
        · exact hx
      exact ⟨hr.1.piece hp hy, fun t m hm => hr.2 t m (hp.holders hy hm)⟩
    refine ⟨hs', fun t m hm => ?_⟩
    have ht := hrun t m (hheld t m hm)
    rcases step_moves hstep with hmv | hsw
    · by_cases htc : t = s.currentTask
      · by_contra hblocked
        subst htc
        exact ha.voluntary ⟨s', hstep, ht, hblocked, hs'.outside _⟩ m (hheld _ m hm)
      · exact (hmv.other htc).runnable ht
    · rw [Core.runnable, hsw.link]
      exact ht

theorem ReachedBy.ceilings (h : s.ReachedBy (Disciplined T)) :
    Ceilings s ∧ ∀ t m, s.mutexes m = some t → s.core.runnable t := by
  obtain ⟨memory, h⟩ := h
  refine Reach.invariant (I := fun s => Ceilings s ∧
    ∀ t m, s.mutexes m = some t → s.core.runnable t) h ⟨?_, by simp [State.start]⟩
    fun r a r' hr hI ha hstep => hI.1.step hI.2 ha (ReachedBy.waitSound ⟨memory, hr⟩ _) hstep
  exact ⟨.start, ⟨by simp [State.start], fun t u _ => .inl (by simp [Outranks, State.start])⟩,
    by simp [State.start, Core.start, inside], by simp [State.start, Core.start]⟩

end State

open State

/-- Every mutex is free when it is locked, no task waits for one, and every holder is runnable. -/
theorem priority_ceiling (s : State c (phactSched T c.tasks_pos))
    (h : s.ReachedBy (Disciplined T)) :
    (∀ a m s', Disciplined T a s → step a s = some s' → (s.service a).locks = some m →
      s.mutexes m ≠ some s.currentTask → s.mutexes m = none) ∧
    (∀ t, s.core.inside Cont.mutex t = none) ∧
    (∀ t m, s.mutexes m = some t → s.core.runnable t) := by
  obtain ⟨hs, hrun⟩ := h.ceilings
  exact ⟨fun a m s' ha hstep hx hself => hs.free hrun ha (h.waitSound _) hstep hx hself, hs.outside,
    hrun⟩

/-- A test for disciplined steps. -/
def obeysCeilings (T : CeilingTables c.tasks c.mutexes) (a : Act c)
    (s : State c (phactSched T c.tasks_pos)) : Bool :=
  (match a with
    | .kernel _ => true
    | _ => PrioCeiling.schedGetNext T c.tasks_pos s.core.sched = s.currentTask.val) &&
  (s.service a).locks.all (fun m => T.base s.currentTask < T.ceiling m) &&
  (decide (∀ m, s.mutexes m ≠ some s.currentTask) ||
    (step a s).all fun s' => s'.core.runnable s.currentTask)

theorem disciplined_of_obeys {a : Act c} {s : State c (phactSched T c.tasks_pos)}
    (h : obeysCeilings T a s = true) : Disciplined T a s := by
  simp only [obeysCeilings, Bool.and_eq_true, Bool.or_eq_true, decide_eq_true_eq] at h
  obtain ⟨⟨hnext, hceil⟩, hvol⟩ := h
  refine ⟨fun hk => ?_, fun m hm => ?_, fun ⟨s', hstep, _, hblocked, _⟩ => ?_⟩
  · cases a with
    | kernel k => exact absurd rfl (hk k)
    | _ => simpa using hnext
  · simpa [hm] using hceil
  · exact hvol.resolve_right fun hrun => hblocked (by simpa [hstep] using hrun)

/-- Two tasks, and a mutex with a ceiling above both. -/
abbrev oneMutex : Config := .plain 2 1 0 0 true false Nat.two_pos

def oneMutexTables : CeilingTables oneMutex.tasks oneMutex.mutexes :=
  .ofIndex ((Equiv.sumComm (Fin 2) (Fin 1)).trans finSumFinEquiv)

/-- The low-priority task holds the mutex and runs on although the other task is runnable. -/
theorem priority_ceiling_held :
    ∃ s : State oneMutex (phactSched oneMutexTables oneMutex.tasks_pos),
      s.mutexes (0 : Fin 1) = some (1 : Fin 2) ∧ s.core.runnable (0 : Fin 2) ∧
      s.currentTask = (1 : Fin 2) ∧ ∀ t, s.core.inside Cont.mutex t = none := by
  obtain ⟨s, hs, hp⟩ := exists_reachedBy_of_run (c := oneMutex)
    (S := phactSched oneMutexTables oneMutex.tasks_pos) (Disciplined oneMutexTables)
    (obeysCeilings oneMutexTables)
    (.call (.core (.sleep 1)) :: reschedule ++
      [.call (.mutex (.lock (0 : Fin 1))), .kernel .timerTick, .kernel .preempt] ++ reschedule)
    (fun s => s.mutexes (0 : Fin 1) = some (1 : Fin 2) ∧ s.core.runnable (0 : Fin 2) ∧
      s.currentTask = (1 : Fin 2))
    (fun _ _ _ => disciplined_of_obeys) (by decide +kernel)
  obtain ⟨hm, hr, hc⟩ := of_decide_eq_true hp
  exact ⟨s, hm, hr, hc, (priority_ceiling s hs).2.1⟩

end Echronos
