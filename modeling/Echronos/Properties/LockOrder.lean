import Echronos.Properties.Inheritance
import Echronos.Properties.Mutexes

/-! # Locking in order

    Nothing in the mutex component keeps two tasks from waiting for each other. They cannot if the
    application numbers its mutexes and a task blocks only on a mutex of a higher number than all it
    holds; `mutex_try_lock` may be called in any order. While a task is inside `mutex_lock` it
    acquires nothing, so what held at its call holds throughout its wait, and along a chain of tasks
    that wait for each other the numbers rise. -/

namespace Echronos

open Schemes

variable {c : Config} {S : Sched c.tasks c.mutexes}

/-- The mutex a task may block on after a call. -/
def Act.blocksOn : Act c → Option c.MutexId
  | .call (.mutex (.lock m)) => some m
  | .call (.mutex (.lockTimeout m _)) => some m
  | _ => none

/-- The mutex a task locks or may come to wait for in a function. -/
def Service.wants : Service c → Option c.MutexId
  | .enter (.mutexLockTimeout m _) => some m
  | x => x.locks

theorem Service.locks_eq_none {x : Service c} (h : x.wants = none) : x.locks = none := by
  cases x <;> first | exact h | rfl

namespace State

open Echronos.Core

/-- A task calls `mutex_lock` or `mutex_lock_timeout` for mutexes of a higher rank than those it
    holds only. -/
def InOrder (rank : c.MutexId → ℕ) (a : Act c) (s : State c S) : Prop :=
  ∀ m, a.blocksOn = some m → ∀ l, s.mutexes l = some s.currentTask → rank l < rank m

instance (rank : c.MutexId → ℕ) (a : Act c) (s : State c S) : Decidable (InOrder rank a s) :=
  inferInstanceAs (Decidable (∀ m, a.blocksOn = some m → ∀ l, s.mutexes l = some s.currentTask →
    rank l < rank m))

/-- `t` is inside one of these functions for `m`. -/
def Wants (s : State c S) (t : c.TaskId) (m : c.MutexId) : Prop :=
  s.core.inside Cont.mutex t = some m ∨ ∃ d, s.core.pc t = .entered (.mutexLockTimeout m d)

/-- `t` has acquired no mutex between two states. -/
def AcquiresNone (t : c.TaskId) (s s' : State c S) : Prop :=
  ∀ l, s'.mutexes l = some t → s.mutexes l = some t

variable {t : c.TaskId} {l m : c.MutexId} {s s' : State c S}

theorem Wants.congr (h : s'.core.pc t = s.core.pc t) (hw : s'.Wants t m) : s.Wants t m := by
  simpa only [Wants, inside, h] using hw

theorem not_wants_of_app (h : s.core.pc t = .app) : ¬ s.Wants t m := by
  simp [Wants, inside, h]

/-! ### Steps -/

/-- Code that does not lock a mutex brings no task to wait for one. -/
theorem Piece.wants {x : Service c} (h : Piece x s s') (hx : x.wants = none) (hw : s'.Wants t m) :
    s.Wants t m ∧ AcquiresNone t s s' := by
  by_cases hmutex : x.component = .mutex
  · cases h with
    | mutexAcquire _ _ hl => simp [Service.locks_eq_none hx] at hl
    | mutexWait | mutexWaitTimeout => cases hx
    | mutexUnlock l =>
      refine ⟨hw.congr (congrFun (mutexUnlock_pc l s) t), fun k hk => ?_⟩
      by_cases hkl : k = l
      · subst hkl
        simp [State.mutexUnlock] at hk
      · simpa [State.mutexUnlock, hkl] using hk
    | _ => cases hmutex
  · refine ⟨?_, fun k hk => by rwa [(h.mutexes hmutex).1] at hk⟩
    rcases hw with hin | ⟨d, hd⟩
    · obtain ⟨w, hw, hm⟩ := inside_eq_some.mp hin
      exact .inl (inside_eq_some.mpr ⟨w, (h.keeps hmutex hw (Cont.component_of_mutex hm)).1, hm⟩)
    · refine (h.entered hd).elim (fun hd => .inr ⟨d, hd⟩) fun hd => ?_
      rw [hd.1] at hx
      cases hx

theorem Pieces.wants {x : Service c} (h : Pieces x s s') (hx : x.wants = none) (hw : s'.Wants t m) :
    s.Wants t m ∧ AcquiresNone t s s' := by
  refine h.invariant (I := fun r => r.Wants t m → s.Wants t m ∧ AcquiresNone t s r)
    (fun y r r' hy hp ih hr => ?_) (fun hs => ⟨hs, fun _ => id⟩) hw
  have hr' : r.Wants t m ∧ AcquiresNone t r r' := by
    rcases hy with rfl | rfl
    · exact hp.wants rfl hr
    · exact hp.wants hx hr
  exact ⟨(ih hr'.1).1, fun k hk => (ih hr'.1).2 k (hr'.2 k hk)⟩

/-- A task that has acquired a mutex is no longer inside the function that waited for one. -/
theorem mutexTryLock_wants (hpc : s.core.pc s.currentTask = .app)
    (hw : (mutexTryLock m s).2.Wants t l) :
    s.Wants t l ∧ AcquiresNone t s (mutexTryLock m s).2 := by
  by_cases hm : s.mutexes m = none
  · rw [mutexTryLock_of_none hm] at hw ⊢
    have hs : s.Wants t l := hw
    refine ⟨hs, fun k hk => ?_⟩
    by_cases hkm : k = m
    · subst hkm
      obtain rfl : s.currentTask = t := by simpa using hk
      exact absurd hs (not_wants_of_app hpc)
    · simpa [hkm] using hk
  · have : (mutexTryLock m s).2 = s := by simp [mutexTryLock, hm]
    rw [this] at hw ⊢
    exact ⟨hw, fun _ => id⟩

theorem wants_of_wait {k : Core c S} {b : Option c.TaskId} {cont : Cont c}
    (hpc : k.pc = s.core.pc) (hcurrent : k.currentTask = s.currentTask)
    (hcont : cont.mutex = some m) (hcore : s'.core = signalWaitSet c.signalIdTaskTimer b cont k)
    (hw : s'.Wants t l) : s.Wants t l ∨ t = s.currentTask ∧ l = m := by
  obtain ⟨blocked, hpc'⟩ : ∃ blocked, s'.core.pc = Function.update s.core.pc s.currentTask
      (.wait ⟨c.signalIdTaskTimer, b, blocked, cont⟩) :=
    ⟨_, by rw [hcore, signalWaitSet_pc, hpc, hcurrent]⟩
  by_cases ht : t = s.currentTask
  · subst ht
    refine .inr ⟨rfl, ?_⟩
    simpa [Wants, inside, hpc', hcont, eq_comm] using hw
  · exact .inl (hw.congr (by rw [hpc', Function.update_of_ne ht]))

/-- A turn of the loop of `mutex_lock` acquires the mutex or waits for it. -/
theorem mutexLockLoop_wants (hpc : s.core.pc s.currentTask = .app)
    (hw : (mutexLockLoop m s).Wants t l) :
    (s.Wants t l ∨ t = s.currentTask ∧ l = m) ∧ AcquiresNone t s (mutexLockLoop m s) := by
  unfold mutexLockLoop at hw ⊢
  dsimp only at hw ⊢
  split_ifs at hw ⊢
  · exact (mutexTryLock_wants hpc hw).imp_left .inl
  · exact ⟨wants_of_wait rfl rfl rfl rfl hw, fun _ => id⟩

@[inherit_doc mutexLockLoop_wants]
theorem mutexLockTimeoutLoop_wants {d : Deadline} (hpc : s.core.pc s.currentTask = .app)
    (hw : (mutexLockTimeoutLoop m d s).Wants t l) :
    (s.Wants t l ∨ t = s.currentTask ∧ l = m) ∧ AcquiresNone t s (mutexLockTimeoutLoop m d s) := by
  unfold mutexLockTimeoutLoop at hw ⊢
  dsimp only at hw ⊢
  split_ifs at hw ⊢
  · exact (mutexTryLock_wants hpc hw).imp_left .inl
  · obtain ⟨k, hk, he | he⟩ := blockTimeout_cases (mutexRegister m s) (s.mutexes m)
      (s.remaining d) (.mutexLockTimeout m d)
    · rw [he] at hw ⊢
      exact ⟨.inl (hw.congr (hk.other t).pc), fun _ => id⟩
    · rw [he] at hw ⊢
      exact ⟨wants_of_wait (funext fun u => (hk.other u).pc) hk.currentTask rfl rfl hw, fun _ => id⟩
  · exact ⟨.inl hw, fun _ => id⟩

/-- A task goes on from where it waited for `m` with a turn of the loop. -/
theorem wants_of_turn {s₁ : State c S}
    (hw : (s₁.Wants t l ∨ t = s₁.currentTask ∧ l = m) ∧ AcquiresNone t s₁ s')
    (hm : s.Wants s.currentTask m)
    (hpc : s₁.core.pc = Function.update s.core.pc s.currentTask .app)
    (hcurrent : s₁.currentTask = s.currentTask) (hmutexes : s₁.mutexes = s.mutexes) :
    s.Wants t l ∧ AcquiresNone t s s' := by
  refine ⟨?_, fun k hk => hmutexes ▸ hw.2 k hk⟩
  rcases hw.1 with hs | ⟨rfl, rfl⟩
  · by_cases ht : t = s.currentTask
    · subst ht
      exact absurd hs (not_wants_of_app (by rw [hpc, Function.update_self]))
    · exact hs.congr (by rw [hpc, Function.update_of_ne ht])
  · rwa [hcurrent]

theorem resume_wants (hhalt : s.core.halted = none) (h : resume s = some s') (hw : s'.Wants t m) :
    s.Wants t m ∧ AcquiresNone t s s' := by
  have hother (hx : (s.service .resume).wants = none) : s.Wants t m ∧ AcquiresNone t s s' :=
    (resume_pieces hhalt h).wants hx hw
  cases hpc : s.core.pc s.currentTask with
  | app => simp [resume, hpc] at h
  | entered e =>
    cases e with
    | mutexLockTimeout l d =>
      simp only [resume, hpc] at h
      obtain rfl := Option.some.inj h
      exact wants_of_turn (mutexLockTimeoutLoop_wants (Function.update_self _ _ _) hw)
        (.inr ⟨d, hpc⟩) rfl rfl rfl
    | semWaitTimeout i d =>
      have hx : s.service .resume = .semWait i := by simp only [service, hpc, Entry.service]
      exact hother (hx ▸ rfl)
    | semMaxInit i max =>
      have hx : s.service .resume = .semMaxInit i := by simp only [service, hpc, Entry.service]
      exact hother (hx ▸ rfl)
  | wait w =>
    have hx : s.service .resume = w.cont.service := by simp only [service, hpc]
    cases hcont : w.cont.mutex with
    | none =>
      refine hother ?_
      rw [hx]
      cases hc : w.cont <;> first | rfl | simp [hc, Cont.mutex] at hcont
    | some l =>
      have hin : s.Wants s.currentTask l := .inl (inside_eq_some.mpr ⟨w, hpc, hcont⟩)
      simp only [resume, hpc] at h
      cases hk : signalWaitReturn w s.core with
      | none =>
        simp only [hk] at h
        obtain rfl := Option.some.inj h
        exact ⟨hw, fun _ => id⟩
      | some k =>
        simp only [hk] at h
        obtain ⟨-, rfl⟩ := signalWaitReturn_eq_some.mp hk
        obtain ⟨r, b, blocked, cont⟩ := w
        cases cont with
        | mutexLock l' =>
          obtain rfl : l' = l := Option.some.inj hcont
          obtain rfl := Option.some.inj h
          exact wants_of_turn (mutexLockLoop_wants (Function.update_self _ _ _) hw) hin rfl rfl rfl
        | mutexLockTimeout l' d =>
          obtain rfl : l' = l := Option.some.inj hcont
          obtain rfl := Option.some.inj h
          exact wants_of_turn (mutexLockTimeoutLoop_wants (Function.update_self _ _ _) hw) hin
            rfl rfl rfl
        | _ => cases hcont

/-- A task that waits for a mutex after a step did so before it or has called the function in it, and
    has acquired nothing. -/
theorem step_wants {a : Act c} (hstep : step a s = some s') (hw : s'.Wants t m) :
    (s.Wants t m ∨ t = s.currentTask ∧ a.blocksOn = some m) ∧ AcquiresNone t s s' := by
  have hother (hx : (s.service a).wants = none) :
      (s.Wants t m ∨ t = s.currentTask ∧ a.blocksOn = some m) ∧ AcquiresNone t s s' :=
    ((step_pieces hstep).wants hx hw).imp_left .inl
  obtain ⟨hhalt, h⟩ := Option.ite_none_left_eq_some.mp hstep
  cases a with
  | kernel a => cases a <;> exact hother rfl
  | store => exact hother rfl
  | resume =>
    exact (resume_wants (by simpa using hhalt) (Option.ite_none_right_eq_some.mp h).2 hw).imp_left
      .inl
  | call f =>
    obtain ⟨happ, h⟩ := Option.ite_none_right_eq_some.mp h
    have hpc := (inApp_iff.mp happ).2
    cases f with
    | core f => exact hother rfl
    | sem f => cases f <;> exact hother rfl
    | messageQueue f => cases f <;> exact hother rfl
    | mutex f =>
      cases f with
      | lock l =>
        obtain ⟨-, ⟨⟩⟩ := Option.ite_none_right_eq_some.mp h
        obtain ⟨hw, hnone⟩ := mutexLockLoop_wants hpc hw
        refine ⟨hw.imp_right ?_, hnone⟩
        rintro ⟨ht, rfl⟩
        exact ⟨ht, rfl⟩
      | lockTimeout l n =>
        obtain ⟨-, ⟨⟩⟩ := Option.ite_none_right_eq_some.mp h
        refine ⟨?_, fun _ => id⟩
        by_cases ht : t = s.currentTask
        · subst ht
          refine .inr ⟨rfl, ?_⟩
          have hpc' : (s.onCore (setPc (.entered (.mutexLockTimeout l (s.deadline n))))).core.pc
              s.currentTask = .entered (.mutexLockTimeout l (s.deadline n)) :=
            Function.update_self _ _ _
          simpa [Wants, inside, hpc', Act.blocksOn] using hw
        · exact .inl (hw.congr (Function.update_of_ne ht _ _))
      | tryLock l =>
        obtain rfl := Option.some.inj h
        exact (mutexTryLock_wants hpc hw).imp_left .inl
      | unlock l => exact hother rfl

/-! ### Chains of waiting tasks -/

/-- A task that waits for a mutex holds mutexes of lower rank only. -/
def Ordered (rank : c.MutexId → ℕ) (s : State c S) : Prop :=
  ∀ t m, s.Wants t m → ∀ l, s.mutexes l = some t → rank l < rank m

theorem ReachedBy.ordered {rank : c.MutexId → ℕ} (h : s.ReachedBy (InOrder rank)) :
    Ordered rank s := by
  obtain ⟨memory, h⟩ := h
  refine h.invariant (fun t m hw l hl => by cases hl) fun s a s' _ hs ha hstep t m hw l hl => ?_
  obtain ⟨hw, hnone⟩ := step_wants hstep hw
  rcases hw with hw | ⟨rfl, hb⟩
  · exact hs t m hw l (hnone l hl)
  · exact ha m hb l (hnone l hl)

/-- The task that holds the mutex `t` waits for. -/
def waitsOn (s : State c S) (t : c.TaskId) : Option c.TaskId :=
  if s.core.taskTimerPending t then none else (s.core.inside Cont.mutex t).bind s.mutexes

theorem waitsOn_eq_some {u : c.TaskId} : s.waitsOn t = some u ↔
    ¬ s.core.taskTimerPending t ∧ ∃ m, s.core.inside Cont.mutex t = some m ∧
      s.mutexes m = some u := by
  unfold waitsOn
  split <;> simp_all [Option.bind_eq_some_iff]

theorem Ordered.acyclic {rank : c.MutexId → ℕ} (hs : Ordered rank s) : Acyclic s.waitsOn := by
  refine acyclic_of_rank (fun t => (s.core.inside Cont.mutex t).elim 0 rank) fun a b d hab hbd => ?_
  obtain ⟨-, m, hm, hb⟩ := waitsOn_eq_some.mp hab
  obtain ⟨-, l, hl, -⟩ := waitsOn_eq_some.mp hbd
  simpa [hm, hl] using hs b l (.inl hl) m hb

theorem Ordered.not_self {rank : c.MutexId → ℕ} (hs : Ordered rank s) : s.waitsOn t ≠ some t := by
  intro h
  obtain ⟨-, m, hm, ht⟩ := waitsOn_eq_some.mp h
  exact (hs t m (.inl hm) m ht).false

/-- What a waiting task waits for comes down to a task that holds a mutex and waits for none. -/
theorem Ordered.exists_holder {rank : c.MutexId → ℕ} (hs : Ordered rank s) (hm : MutexSound s)
    (hin : s.core.inside Cont.mutex t = some m) (hp : ¬ s.core.taskTimerPending t) :
    ∃ u, u ≠ t ∧ Leads s.waitsOn u t ∧ (∃ l, s.mutexes l = some u) ∧
      ∀ l, s.core.inside Cont.mutex u = some l → s.core.taskTimerPending u := by
  have hlink {u : c.TaskId} {l : c.MutexId} (hin : s.core.inside Cont.mutex u = some l)
      (hp : ¬ s.core.taskTimerPending u) : ∃ v, s.waitsOn u = some v := by
    obtain ⟨v, hv⟩ := Option.ne_none_iff_exists'.mp
      (hm.waiters.busy u l (hm.waiters.registered u l hin hp))
    exact ⟨v, waitsOn_eq_some.mpr ⟨hp, l, hin, hv⟩⟩
  have hlast {u v : c.TaskId} (h : s.waitsOn u = some v) : v ≠ u := by
    rintro rfl
    exact hs.not_self h
  obtain ⟨u, hleads, hroot⟩ := (hs.acyclic.ends t).exists_leads
  have hnone (v : c.TaskId) : s.waitsOn u ≠ some v := fun hv => hlast hv (hroot v hv)
  have hut : u ≠ t := by
    rintro rfl
    obtain ⟨v, hv⟩ := hlink hin hp
    exact hnone v hv
  refine ⟨u, hut, hleads, ?_, fun l hl => ?_⟩
  · obtain ⟨v, hv⟩ := hleads.exists_last hut
    obtain ⟨-, l, -, hl⟩ := waitsOn_eq_some.mp hv
    exact ⟨l, hl⟩
  · by_contra hp
    obtain ⟨v, hv⟩ := hlink hl hp
    exact hnone v hv

/-! ### Links of blocked tasks -/

/-- A task lends its priority in waits for mutexes only, which end with `_task_timer`. -/
structure LendsForMutex (w : Wait c) : Prop where
  mutex : w.blocker ≠ none → w.cont.mutex ≠ none
  requested : w.cont.mutex ≠ none → w.requested = c.signalIdTaskTimer

def Lends (s : State c S) : Prop := ∀ t w, s.core.pc t = .wait w → LendsForMutex w

theorem Lends.of_pc (hs : Lends s) (h : s'.core.pc = s.core.pc) : Lends s' :=
  fun t w hw => hs t w (h ▸ hw)

theorem Lends.update (hs : Lends s) {p : Pc c}
    (h : s'.core.pc = Function.update s.core.pc s.currentTask p)
    (hp : ∀ w, p = .wait w → LendsForMutex w) : Lends s' := fun t w hw => by
  rw [h] at hw
  by_cases ht : t = s.currentTask
  · subst ht
    exact hp w (by simpa using hw)
  · exact hs t w (by simpa [ht] using hw)

theorem Lends.wait (hs : Lends s) {k : Core c S} {r : c.SignalSet} {b : Option c.TaskId}
    {cont : Cont c} (hk : Wakes ∅ s.core k) (hcore : s'.core = signalWaitSet r b cont k)
    (hb : b ≠ none → cont.mutex ≠ none) (hr : cont.mutex ≠ none → r = c.signalIdTaskTimer) :
    Lends s' := by
  have hpc : k.pc = s.core.pc := funext fun t => (hk.other t).pc
  refine hs.update (by rw [hcore, signalWaitSet_pc, hpc, hk.currentTask]; rfl) fun w hw => ?_
  obtain rfl := Pc.wait.inj hw
  exact ⟨hb, hr⟩

theorem Lends.blockTimeout (hs : Lends s) {b : Option c.TaskId} {cont : Cont c} (n : BitVec 16)
    (hb : b ≠ none → cont.mutex ≠ none) : Lends (s.blockTimeout b n cont) := by
  obtain ⟨k, hk, he | he⟩ := blockTimeout_cases s b n cont
  · rw [he]
    exact hs.of_pc (funext fun t => (hk.other t).pc)
  · rw [he]
    exact hs.wait hk rfl hb fun _ => rfl

theorem Lends.call (hs : Lends s) {f : Core.Call c} {k : Core c S} (h : Core.call f s.core = some k) :
    Lends { s with core := k } := by
  cases f with
  | signalWaitSet r =>
    obtain rfl := Option.some.inj h
    exact hs.wait .refl rfl (absurd rfl) (absurd rfl)
  | sleep n =>
    obtain rfl := Option.some.inj h
    have hk := timerOneshot_wakes (A := ∅) (ownTimer s.core) n s.core
    unfold Core.sleep andThen
    split
    · exact hs.of_pc (funext fun t => (hk.other t).pc)
    · exact hs.wait hk rfl (absurd rfl) (absurd rfl)
  | timerEnable i =>
    obtain rfl := Option.some.inj h
    exact hs.of_pc (funext fun t => ((timerEnable_wakes (A := ∅) i s.core).other t).pc)
  | timerOneshot i n =>
    obtain rfl := Option.some.inj h
    exact hs.of_pc (funext fun t => ((timerOneshot_wakes (A := ∅) i n s.core).other t).pc)
  | yield | timerSignalSet | interruptEventTaskSet =>
    obtain ⟨-, ⟨⟩⟩ := Option.ite_none_left_eq_some.mp h
    exact hs.of_pc rfl
  | _ =>
    obtain rfl := Option.some.inj h
    exact hs.of_pc rfl

theorem Lends.piece {x : Service c} (h : Piece x s s') (hs : Lends s) : Lends s' := by
  cases h with
  | still hk => exact hs.of_pc hk.pc
  | switch hk => exact hs.of_pc hk.pc
  | events => exact hs.of_pc (funext fun t => ((interruptEventProcess_wakes (A := ∅) _).other t).pc)
  | tick => exact hs.of_pc (funext fun t => ((timerTickProcess_wakes (A := ∅) _).other t).pc)
  | core f _ hf => exact hs.call hf
  | enter | leave => exact hs.update rfl fun w hw => by cases hw
  | receive w =>
    refine hs.update (p := .app) ?_ fun w hw => by cases hw
    cases w.cont <;> rfl
  | mutexAcquire _ m _ _ hm => rw [mutexTryLock_of_none hm]; exact hs.of_pc rfl
  | mutexWait m =>
    exact (hs.of_pc rfl : Lends (mutexRegister m s)).wait .refl rfl
      (fun _ => Option.some_ne_none m) fun _ => rfl
  | mutexWaitTimeout m =>
    exact (hs.of_pc rfl : Lends (mutexRegister m s)).blockTimeout _
      fun _ => Option.some_ne_none m
  | mutexUnlock m => exact hs.of_pc (mutexUnlock_pc m s)
  | semTake i _ hv => rw [internalSemTryWait_of_ne hv]; exact hs.of_pc rfl
  | semWait i =>
    exact (hs.of_pc rfl : Lends (semRegister i s)).wait .refl rfl (absurd rfl) fun _ => rfl
  | semWaitTimeout i =>
    exact (hs.of_pc rfl : Lends (semRegister i s)).blockTimeout _ (absurd rfl)
  | semPost i _ hv =>
    rw [semPost_eq hv]
    refine hs.of_pc ?_
    dsimp only [record]
    split
    · exact wakeWaiters_pc _ _ _
    · rfl
  | messageQueuePut q message _ h =>
    exact hs.of_pc (funext fun t => ((messageQueueTryPut_attempt h).wakes (A := ∅)).other t |>.pc)
  | messageQueueGet q message _ h =>
    exact hs.of_pc (funext fun t => ((messageQueueTryGet_attempt h).wakes (A := ∅)).other t |>.pc)
  | messageQueueWait q cont =>
    exact (hs.of_pc rfl : Lends (messageQueueRegister (some q) s)).wait .refl rfl (absurd rfl)
      fun _ => rfl
  | messageQueueWaitTimeout q d cont =>
    exact (hs.of_pc rfl : Lends (messageQueueRegister (some q) s)).blockTimeout _ (absurd rfl)
  | _ => exact hs.of_pc rfl

theorem ReachedBy.lends {ok : Act c → State c S → Prop} (h : s.ReachedBy ok) : Lends s :=
  h.invariant (fun memory t w hw => by cases hw) fun _ _ _ => .piece

/-- A task that is not runnable is blocked inside a wait; if that is one for a mutex, the task is
    linked to the holder, and otherwise to none. -/
theorem ReachedBy.link_eq {ok : Act c → State c (kochabSched c.tasks c.mutexes) → Prop}
    {s : State c (kochabSched c.tasks c.mutexes)} (h : s.ReachedBy ok) {t : c.TaskId}
    (hr : ¬ s.core.runnable t) : s.core.link t = s.waitsOn t ∧
      (s.core.inside Cont.mutex t ≠ none → s.waitsOn t ≠ none) := by
  have hw := h.waitSound t
  obtain ⟨w, hpc, hb⟩ : ∃ w, s.core.pc t = .wait w ∧ w.blocked = true := by
    by_contra hnone
    exact hr (hw.awake fun w hpc => by simpa using fun hb => hnone ⟨w, hpc, hb⟩)
  have hlink : s.core.link t = w.blocker := hw.link w hpc hb hr
  have hlends := h.lends t w hpc
  cases hm : w.cont.mutex with
  | none =>
    have hin : s.core.inside Cont.mutex t = none := by simp [inside, hpc, hm]
    have hblocker : w.blocker = none := by simpa [hm] using hlends.mutex
    simp [hlink, hblocker, waitsOn, hin]
  | some m =>
    have hin : s.core.inside Cont.mutex t = some m := inside_eq_some.mpr ⟨w, hpc, hm⟩
    have hp : ¬ s.core.taskTimerPending t := fun hp => by
      have hpeek := hw.blocked w hpc hb hr
      rw [hlends.requested (by simp [hm]), signalPeek_taskTimer.mpr hp] at hpeek
      cases hpeek
    have hwaits : s.waitsOn t = s.mutexes m := by simp [waitsOn, hp, hin]
    rw [hwaits, hlink]
    refine ⟨h.mutexSound.blocker t w m hpc hm hp, fun _ => ?_⟩
    exact h.mutexSound.waiters.busy t m (h.mutexSound.waiters.registered t m hin hp)

theorem ReachedBy.ends_of_inOrder {rank : c.MutexId → ℕ}
    {s : State c (kochabSched c.tasks c.mutexes)} (h : s.ReachedBy (InOrder rank)) (t : c.TaskId) :
    Ends s.core.link t := by
  refine (h.ordered.acyclic.mono fun u v hl hne => ?_).ends t
  rwa [(h.link_eq fun hr => hne (Option.some.inj (hl.symm.trans hr))).1] at hl

/-- A turn of `interrupt_event_get_next()` gets past `sched_get_next` if every chain of links ends. -/
theorem schedGetNext_of_ends {s : State c (kochabSched c.tasks c.mutexes)}
    (hends : ∀ t, Ends s.core.link t) :
    ∃ fuel, (PrioInherit.schedGetNext fuel s.core.sched).isSome ∧
      (s.core.halted = none → s.core.phase = .select →
        (step (.kernel (.schedGetNext fuel false)) s).isSome) := by
  have hends : ∀ t, Ends (s.core.sched : PrioInherit.State c.tasks) t := hends
  obtain ⟨fuel, hfuel⟩ := PrioInherit.searchFrom_isSome hends (List.finRange c.tasks)
  obtain ⟨r, hr⟩ := Option.isSome_iff_exists.mp (hfuel fuel le_rfl)
  have hnext : (kochabSched c.tasks c.mutexes).schedGetNext fuel s.core.sched =
      some (r.map Fin.val, s.core.sched) := by
    simp [kochabSched, PrioInherit.schedGetNext, hr]
  refine ⟨fuel, by simp [PrioInherit.schedGetNext, hr], fun hhalt hphase => ?_⟩
  cases r <;> simp [step, hhalt, Core.act, hphase, Core.schedGetNext, hnext]

end State

open State

/-- If tasks lock mutexes in an order, no tasks wait for each other, and whatever a task waits for, the
    chain comes to a task that holds a mutex and waits for none. -/
theorem inOrder_waits_end (v : Variant c) (rank : c.MutexId → ℕ) (s : State c v.sched)
    (h : s.ReachedBy (InOrder rank)) :
    (∀ t u, s.waitsOn t = some u → ¬ Leads s.waitsOn t u) ∧
    ∀ t m, s.core.inside Cont.mutex t = some m → ¬ s.core.taskTimerPending t →
      ∃ u, u ≠ t ∧ Leads s.waitsOn u t ∧ (∃ l, s.mutexes l = some u) ∧
        ∀ l, s.core.inside Cont.mutex u = some l → s.core.taskTimerPending u := by
  have hs := h.ordered
  refine ⟨fun t u hu => hs.acyclic t u hu ?_, fun t m => hs.exists_holder h.mutexSound⟩
  rintro rfl
  exact hs.not_self hu

/-- A task sleeps with two mutexes, and another locks one of them. -/
def nestedLocks : List (Act (.plain 2 2 0 0 true false Nat.two_pos)) :=
  [Act.call (.mutex (.lock 0)), .call (.mutex (.lock 1)), .call (.core (.sleep 5))] ++ reschedule ++
    [.call (.mutex (.lock 1))]

theorem inOrder_waits_end_nested :
    ∃ s : State (.plain 2 2 0 0 true false Nat.two_pos) (kochabSched 2 2), ∃ u, u ≠ (1 : Fin 2) ∧
      Leads s.waitsOn u 1 ∧ ∃ l, s.mutexes l = some u := by
  obtain ⟨s, hs, hp⟩ := exists_reachedBy_of_run
    (c := .plain 2 2 0 0 true false Nat.two_pos) (S := kochabSched 2 2)
    (InOrder Fin.val) (fun a s => decide (InOrder Fin.val a s)) nestedLocks
    (fun s => s.core.inside Cont.mutex 1 = some 1 ∧ ¬ s.core.taskTimerPending 1)
    (fun _ _ _ => of_decide_eq_true) (by decide +kernel)
  obtain ⟨hin, htt⟩ := of_decide_eq_true hp
  obtain ⟨u, hne, hl, hheld, -⟩ := (inOrder_waits_end .kochab Fin.val s hs).2 1 1 hin htt
  exact ⟨s, u, hne, hl, hheld⟩

/-- In Kochab `sched_get_next` then ends, and the priority of a blocked task goes to a task that is
    runnable or waits for something else than a mutex. -/
theorem inOrder_schedGetNext_ends (rank : c.MutexId → ℕ)
    (s : State c (kochabSched c.tasks c.mutexes)) (h : s.ReachedBy (InOrder rank)) :
    (∃ fuel, (PrioInherit.schedGetNext fuel s.core.sched).isSome ∧
      (s.core.halted = none → s.core.phase = .select →
        (step (.kernel (.schedGetNext fuel false)) s).isSome)) ∧
    ∀ t, ∃ u, Leads s.core.link u t ∧ (s.core.runnable u ∨ s.core.inside Cont.mutex u = none) := by
  have hends := h.ends_of_inOrder
  refine ⟨schedGetNext_of_ends hends, fun t => ?_⟩
  obtain ⟨u, hl, hu⟩ := (hends t).exists_leads
  refine ⟨u, hl, or_iff_not_imp_left.mpr fun hr => ?_⟩
  obtain ⟨hlink, hwaits⟩ := h.link_eq hr
  by_contra hin
  obtain ⟨v, hv⟩ := Option.ne_none_iff_exists'.mp (hwaits hin)
  have hv := hlink.trans hv
  exact hr (hu v hv ▸ hv)

theorem inOrder_schedGetNext_ends_nested :
    ∃ s : State (.plain 2 2 0 0 true false Nat.two_pos) (kochabSched 2 2),
      s.core.link 1 = some 0 ∧
      ∃ fuel, (PrioInherit.schedGetNext fuel (s.core.sched : PrioInherit.State 2)).isSome := by
  obtain ⟨s, hs, hp⟩ := exists_reachedBy_of_run
    (c := .plain 2 2 0 0 true false Nat.two_pos) (S := kochabSched 2 2)
    (InOrder Fin.val) (fun a s => decide (InOrder Fin.val a s)) nestedLocks
    (fun s => s.core.link 1 = some 0) (fun _ _ _ => of_decide_eq_true) (by decide +kernel)
  obtain ⟨⟨fuel, hfuel, -⟩, -⟩ := inOrder_schedGetNext_ends Fin.val s hs
  exact ⟨s, of_decide_eq_true hp, fuel, hfuel⟩

end Echronos
