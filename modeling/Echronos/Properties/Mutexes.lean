import Echronos.Properties.Waits
import Echronos.Schemes.Waiters
import Echronos.Variants.Variant

/-! # Mutexes

    Three facts hold together in every reachable state: the waiter table is sound, a task waiting
    for a mutex was blocked on the task that now holds it, and the holder is the task that acquired
    the mutex last and has not unlocked it. A registration may outlive the timeout of
    `mutex_lock_timeout`, but never the time the mutex is held. -/

namespace Echronos

open Schemes

variable {c : Config} {S : Sched c.tasks c.mutexes}

/-! ### Acquisitions and unlocks in a history -/

def Event.isMutex : Event c → Bool
  | .acquired _ _ => true
  | .released _ _ => true
  | _ => false

theorem Event.component_of_isMutex {e : Event c} (h : e.isMutex = true) :
    e.component = some .mutex := by
  cases e <;> simp_all [Event.isMutex, Event.component]

/-- Whether a history, newest event first, has `t` between an acquisition of `m` and its unlock. -/
def holds (t : c.TaskId) (m : c.MutexId) : List (Event c) → Bool
  | [] => false
  | .acquired u l :: h => if u = t ∧ l = m then true else holds t m h
  | .released u l :: h => if u = t ∧ l = m then false else holds t m h
  | _ :: h => holds t m h

theorem holds_isMutex (t : c.TaskId) (m : c.MutexId) : ∀ h : List (Event c),
    holds t m (h.filter Event.isMutex) = holds t m h
  | [] => rfl
  | e :: h => by
    have ih := holds_isMutex t m h
    cases e <;> simp [List.filter, Event.isMutex, holds, ih]

theorem holds_congr {h h' : List (Event c)}
    (hf : h'.filter Event.isMutex = h.filter Event.isMutex) (t : c.TaskId) (m : c.MutexId) :
    holds t m h' = holds t m h := by
  rw [← holds_isMutex, hf, holds_isMutex]

theorem Cont.component_of_mutex {cont : Cont c} {m : c.MutexId} (h : cont.mutex = some m) :
    cont.component = .mutex := by
  cases cont <;> first | rfl | cases h

namespace State

open Echronos.Core

/-! ### The invariant -/

structure MutexSound (s : State c S) : Prop where
  waiters : WaitersSound s.mutexWaiters (s.core.inside Cont.mutex) (fun t => s.core.taskTimerPending t)
    fun _ m => s.mutexes m ≠ none
  blocker : ∀ t w m, s.core.pc t = .wait w → w.cont.mutex = some m →
    ¬ s.core.taskTimerPending t → w.blocker = s.mutexes m
  holder : ∀ t m, holds t m s.core.history = true ↔ s.mutexes m = some t

/-- A task inside a wait for `m` with nothing pending is registered for `m`. -/
theorem MutexSound.registered {s : State c S} (hs : MutexSound s) {t : c.TaskId} {w : Wait c}
    {m : c.MutexId} (hw : s.core.pc t = .wait w) (hm : w.cont.mutex = some m)
    (hp : ¬ s.core.taskTimerPending t) : s.mutexWaiters t = some m :=
  hs.waiters.registered t m (inside_eq_some.mpr ⟨w, hw, hm⟩) hp

/-- Code that leaves mutexes alone and starts no wait for one. -/
theorem MutexSound.frame {s s' : State c S} (hs : MutexSound s) (hmut : s'.mutexes = s.mutexes)
    (hwait : s'.mutexWaiters = s.mutexWaiters)
    (hkeep : ∀ t w m, s'.core.pc t = .wait w → w.cont.mutex = some m →
      s.core.pc t = .wait w ∧ (s.core.taskTimerPending t → s'.core.taskTimerPending t))
    (hhist : s'.core.history.filter Event.isMutex = s.core.history.filter Event.isMutex) :
    MutexSound s' where
  waiters := by
    rw [hwait, hmut]
    refine hs.waiters.frame (fun t m ht => ?_) fun _ _ _ h => h
    obtain ⟨w, hw, hm⟩ := inside_eq_some.mp ht
    obtain ⟨hpc, hp⟩ := hkeep t w m hw hm
    exact ⟨inside_eq_some.mpr ⟨w, hpc, hm⟩, hp⟩
  blocker t w m hw hm hp := by
    obtain ⟨hpc, hp'⟩ := hkeep t w m hw hm
    rw [hmut]
    exact hs.blocker t w m hpc hm (mt hp' hp)
  holder t m := by rw [holds_congr hhist, hmut]; exact hs.holder t m

/-- Sending signals does not concern mutexes. -/
theorem MutexSound.wakes {s : State c S} {k : Core c S} (hs : MutexSound s)
    (h : Wakes ∅ s.core k) : MutexSound { s with core := k } := by
  refine hs.frame rfl rfl (fun t w m hw _ => ⟨(h.other t).pc ▸ hw, (h.other t).signals _⟩) ?_
  refine h.filter_history (fun e he => ?_) fun e he => ?_
  · cases e <;> simp_all [Event.isMutex, Event.Of, Event.component]
  · cases e <;> simp_all [Event.isMutex, Event.isSignal]

theorem MutexSound.register {s : State c S} (hs : MutexSound s) {m : c.MutexId}
    (ha : s.core.Awake) (hm : s.mutexes m ≠ none) : MutexSound (mutexRegister m s) where
  waiters := by
    refine hs.waiters.register s.currentTask m rfl (fun p hp => ?_) (fun _ _ _ h => ⟨h, id⟩) hm
      fun _ _ _ _ h => h
    obtain ⟨w, hw, -⟩ := inside_eq_some.mp hp
    exact absurd hw (ha w)
  blocker := hs.blocker
  holder := hs.holder

/-- A registered task may wait, blocked on the holder of the mutex. -/
theorem MutexSound.wait {s : State c S} (hs : MutexSound s) {cont : Cont c} {m : c.MutexId}
    (hcont : cont.mutex = some m) (hreg : s.mutexWaiters s.currentTask = some m) :
    MutexSound { s with core := signalWaitSet c.signalIdTaskTimer (s.mutexes m) cont s.core } where
  waiters := by
    refine ⟨hs.waiters.busy, fun t l ht hp => ?_⟩
    obtain ⟨w, hw, hl⟩ := inside_eq_some.mp ht
    by_cases htc : t = s.core.currentTask
    · subst htc
      obtain rfl : (_ : Wait c) = w := by simpa using hw
      exact hreg.trans (hcont.symm.trans hl)
    · exact hs.registered (by simpa [htc] using hw) hl (by simpa [taskTimerPending] using hp)
  blocker t w l hw hl hp := by
    by_cases htc : t = s.core.currentTask
    · subst htc
      obtain rfl : (_ : Wait c) = w := by simpa using hw
      obtain rfl : m = l := Option.some.inj (hcont.symm.trans hl)
      rfl
    · exact hs.blocker t w l (by simpa [htc] using hw) hl (by simpa [taskTimerPending] using hp)
  holder t l := by simpa using hs.holder t l

theorem MutexSound.acquire {s : State c S} (hs : MutexSound s) {m : c.MutexId}
    (hm : s.mutexes m = none) : MutexSound (mutexTryLock m s).2 := by
  rw [mutexTryLock_of_none hm]
  refine ⟨hs.waiters.frame (fun t l ht => ⟨ht, id⟩) fun t l _ hl => ?_, fun t w l hw hl hp => ?_,
    fun t l => ?_⟩
  · by_cases h : l = m <;> simp [h, hl]
  · -- a task waiting for a mutex is registered, so the mutex is held
    have hne : l ≠ m := by
      rintro rfl
      exact hs.waiters.busy t l (hs.registered hw hl hp) hm
    simpa [hne] using hs.blocker t w l hw hl hp
  · by_cases h : l = m
    · subst h
      have := hs.holder t l
      simp only [hm, reduceCtorEq, iff_false, Bool.not_eq_true] at this
      simp [record, holds, this]
    · simpa [record, holds, h, Ne.symm h] using hs.holder t l

theorem mutexUnlock_pc (m : c.MutexId) (s : State c S) :
    (mutexUnlock m s).core.pc = s.core.pc :=
  wakeWaiters_pc m s.mutexWaiters { s.core with sched := S.schedSetMutexUnlocked m s.core.sched }

theorem mutexUnlock_woken {m : c.MutexId} {s : State c S} {t : c.TaskId}
    (h : s.core.taskTimerPending t ∨ s.mutexWaiters t = some m) :
    (mutexUnlock m s).core.taskTimerPending t :=
  wakeWaiters_woken m s.mutexWaiters
    { s.core with sched := S.schedSetMutexUnlocked m s.core.sched } h

theorem MutexSound.release {s : State c S} (hs : MutexSound s) {m : c.MutexId}
    (hm : s.mutexes m = some s.currentTask) : MutexSound (mutexUnlock m s) where
  waiters := by
    refine hs.waiters.wake m (wakeWaiters_waiters m _ _) (fun t p ht => ?_)
      (fun _ => mutexUnlock_woken) fun t p hp _ hb => ?_
    · obtain ⟨w, hw, hp⟩ := inside_eq_some.mp ht
      exact inside_eq_some.mpr ⟨w, mutexUnlock_pc m s ▸ hw, hp⟩
    · simpa [mutexUnlock, hp] using hb
  blocker t w l hw hl hp := by
    have hpc : s.core.pc t = .wait w := mutexUnlock_pc m s ▸ hw
    have hwoken := not_or.mp (mt mutexUnlock_woken hp)
    have hne : l ≠ m := by
      rintro rfl
      exact hwoken.2 (hs.registered hpc hl hwoken.1)
    simpa [mutexUnlock, hne] using hs.blocker t w l hpc hl hwoken.1
  holder t l := by
    have hw := (wakeWaiters_wakes (A := ∅) m s.mutexWaiters
      { s.core with sched := S.schedSetMutexUnlocked m s.core.sched }).filter_history
      (p := Event.isMutex) (fun e he => by
        cases e <;> simp_all [Event.isMutex, Event.Of, Event.component])
      (fun e he => by cases e <;> simp_all [Event.isMutex, Event.isSignal])
    have hold := hs.holder t l
    rw [← holds_congr hw] at hold
    by_cases h : l = m
    · subst h
      by_cases ht : s.currentTask = t
      · simp [mutexUnlock, record, holds, ht]
      · rw [hm] at hold
        simpa [mutexUnlock, record, holds, ht] using hold
    · simpa [mutexUnlock, record, holds, h, Ne.symm h] using hold

theorem MutexSound.piece {x : Service c} {s s' : State c S} (h : Piece x s s')
    (hs : MutexSound s) : MutexSound s' := by
  by_cases hx : x.component = .mutex
  · cases h with
    | mutexAcquire _ m _ _ hm => exact hs.acquire hm
    | mutexWait m ha hm =>
      exact (hs.register ha hm).wait rfl (by simp [mutexRegister, currentTask])
    | mutexWaitTimeout m d ha hm =>
      have hreg := hs.register ha hm
      obtain ⟨k, hk, he | he⟩ := blockTimeout_cases (mutexRegister m s) (s.mutexes m)
        (s.remaining d) (.mutexLockTimeout m d)
      · rw [he]
        exact hreg.wakes hk
      · rw [he]
        refine (hreg.wakes hk).wait rfl ?_
        change (mutexRegister m s).mutexWaiters k.currentTask = some m
        rw [hk.currentTask]
        simp [mutexRegister, currentTask]
    | mutexUnlock m _ hm => exact hs.release hm
    | _ => cases hx
  · obtain ⟨hmut, hwait⟩ := h.mutexes hx
    exact hs.frame hmut hwait (fun t w m hw hm => h.keeps hx hw (Cont.component_of_mutex hm))
      (h.filter_history hx fun _ => Event.component_of_isMutex)

theorem ReachedBy.mutexSound {ok : Act c → State c S → Prop} {s : State c S}
    (h : s.ReachedBy ok) : MutexSound s :=
  h.invariant
    (fun memory => ⟨⟨by simp [State.start], by simp [State.start, Core.start, inside]⟩,
      by simp [State.start, Core.start], by simp [State.start, Core.start, holds]⟩)
    fun _ _ _ => .piece

end State

open State

/-- Mutexes are exclusive, lose no wake-up, and in Kochab keep the inheritance link on the holder. -/
theorem mutexes_sound (c : Config) :
    (∀ (v : Variant c) (s : State c v.sched), s.Reached →
      (∀ t m, holds t m s.core.history = true ↔ s.mutexes m = some t) ∧
      (∀ t u m, holds t m s.core.history = true → holds u m s.core.history = true → t = u) ∧
      (∀ t m, s.core.inside Cont.mutex t = some m → ¬ s.core.taskTimerPending t →
        s.mutexWaiters t = some m ∧ ∃ u, s.mutexes m = some u)) ∧
    (∀ s : State c (kochabSched c.tasks c.mutexes), s.Reached → ∀ t m,
      s.core.inside Cont.mutex t = some m → ¬ s.core.taskTimerPending t → ¬ s.core.runnable t →
      (s.core.sched : PrioInherit.State c.tasks) t = s.mutexes m) := by
  refine ⟨fun v s h => ?_, fun s h t m ht hp hr => ?_⟩
  · have hs := h.mutexSound
    refine ⟨hs.holder, fun t u m ht hu => ?_, fun t m ht hp => ?_⟩
    · exact Option.some.inj (((hs.holder t m).mp ht).symm.trans ((hs.holder u m).mp hu))
    · have hreg := hs.waiters.registered t m ht hp
      exact ⟨hreg, Option.ne_none_iff_exists'.mp (hs.waiters.busy t m hreg)⟩
  · have hs := h.mutexSound
    have hw := h.waitSound t
    obtain ⟨w, hpc, hm⟩ := Core.inside_eq_some.mp ht
    have hb : w.blocked = true := by
      by_contra hb
      refine hr (hw.awake fun w' hw' => ?_)
      obtain rfl : w = w' := Pc.wait.inj (hpc.symm.trans hw')
      simpa using hb
    exact (hw.link w hpc hb hr).trans (hs.blocker t w m hpc hm hp)

/-- A task sleeps with the mutex that another one then locks. -/
theorem mutexes_sound_contended :
    ∃ s : State (.plain 2 1 0 0 true false Nat.two_pos) (kochabSched 2 1), s.Reached ∧
      s.core.inside Cont.mutex 1 = some 0 ∧
      (s.core.sched : PrioInherit.State 2) 1 = s.mutexes (0 : Fin 1) := by
  obtain ⟨s, hs, hp⟩ := exists_reached_of_run
    (c := .plain 2 1 0 0 true false Nat.two_pos) (S := kochabSched 2 1)
    (.call (.mutex (.tryLock 0)) :: .call (.core (.sleep 5)) :: reschedule ++
      [.call (.mutex (.lock 0))])
    (fun s => s.core.inside Cont.mutex 1 = some 0 ∧ ¬ s.core.taskTimerPending 1 ∧
      ¬ s.core.runnable 1) (by decide +kernel)
  obtain ⟨hin, htt, hr⟩ := of_decide_eq_true hp
  exact ⟨s, hs, hin, (mutexes_sound _).2 s hs _ _ hin htt hr⟩

end Echronos
