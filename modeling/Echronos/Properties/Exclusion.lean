import Echronos.Cooperative.Steps
import Echronos.Ppce500.EventPort
import Echronos.Schemes.Since

/-! # Mutual exclusion with `simple-mutex`

    A mutex is locked since it was last acquired and not unlocked. `mutex_unlock` does not ask whose
    mutex it unlocks, so it is up to the tasks that no two of them hold one mutex: none does as long as
    tasks unlock what they hold, or what nobody has locked. -/

namespace Echronos.Cooperative

open Schemes

variable {c : Config}

/-- `t` holds `m`: it has acquired `m` and not unlocked it since. -/
def Holds (t : c.TaskId) (m : c.MutexId) (s : State c) : Prop :=
  Since (· = .acquired t m) (· = .unlocked t m) s.history

/-- Tasks unlock mutexes that they hold themselves, or that are not locked. -/
def UnlocksOwn (a : Act c) (s : State c) : Prop :=
  ∀ m, a = .call (.mutexUnlock m) → Holds s.currentTask m s ∨ s.locked m = false

instance (t : c.TaskId) (m : c.MutexId) (s : State c) : Decidable (Holds t m s) :=
  inferInstanceAs (Decidable (Since _ _ _))

instance (a : Act c) (s : State c) : Decidable (UnlocksOwn a s) :=
  match a with
  | .call (.mutexUnlock m) =>
    decidable_of_iff (Holds s.currentTask m s ∨ s.locked m = false) (by simp [UnlocksOwn])
  | .call (.yieldTo _) | .call .yield | .call .block | .call (.unblock _) | .call (.mutexLock _)
  | .call (.mutexTryLock _) | .call (.signalWaitSet _) | .call (.signalPollSet _)
  | .call (.signalSendSet _ _) | .resume | .interruptEventRaise _ | .interruptEventProcess
  | .schedGetNext _ => .isTrue (by simp [UnlocksOwn])

namespace State

/-- What a step does to mutexes. -/
inductive MutexStep (a : Act c) (s s' : State c) : Prop
  | rest (hlocked : s'.locked = s.locked)
      (hhistory : ∃ new, s'.history = new ++ s.history ∧
        ∀ e ∈ new, (∀ t m, e ≠ .acquired t m) ∧ ∀ t m, e ≠ .unlocked t m)
  | acquire (m : c.MutexId) (hfree : s.locked m = false)
      (hlocked : s'.locked = Function.update s.locked m true)
      (hhistory : s'.history = .acquired s.currentTask m :: s.history)
  | unlock (m : c.MutexId) (ha : a = .call (.mutexUnlock m))
      (hlocked : s'.locked = Function.update s.locked m false)
      (hhistory : s'.history = .unlocked s.currentTask m :: s.history)

theorem mutexStep_refl (a : Act c) {s s' : State c} (hl : s'.locked = s.locked)
    (hh : s'.history = s.history) : MutexStep a s s' :=
  .rest hl ⟨[], hh, by simp⟩

theorem mutexStep_tryLock (a : Act c) (m : c.MutexId) (s : State c) :
    MutexStep a s (internalMutexTryLock m s).2 := by
  unfold internalMutexTryLock
  split_ifs with h
  · exact mutexStep_refl a rfl rfl
  · exact .acquire m (by simpa using h) rfl rfl

theorem mutexStep_mutexLock (a : Act c) (m : c.MutexId) (s : State c) :
    MutexStep a s (mutexLock m s) := by
  unfold mutexLock internalMutexTryLock
  by_cases h : s.locked m = true
  · simp only [h, if_true]
    exact mutexStep_refl a rfl rfl
  · simp only [h]
    exact .acquire m (by simpa using h) rfl rfl

theorem mutexStep_signalWaitSet (a : Act c) (r : c.SignalSet) (s : State c) :
    MutexStep a s (signalWaitSet r s) := by
  unfold signalWaitSet
  split_ifs
  · exact mutexStep_refl a rfl rfl
  · exact .rest rfl ⟨[.blocked s.currentTask], rfl, by simp⟩

theorem mutexStep_signalWaitSetReturn (a : Act c) (r : c.SignalSet) (b : Bool) (s : State c) :
    MutexStep a s (signalWaitSetReturn r b s) := by
  unfold signalWaitSetReturn
  split_ifs
  · exact .rest rfl ⟨[.blocked s.currentTask], rfl, by simp⟩
  · exact .rest rfl ⟨[.received s.currentTask r (s.signals s.currentTask &&& r)], rfl, by simp⟩

theorem Step.mutexStep {a : Act c} {s s' : State c} (h : Step s a s') : MutexStep a s s' := by
  cases h with
  | call f hphase hpc hf =>
    cases f with
    | yieldTo | yield => exact mutexStep_refl _ rfl rfl
    | block => exact .rest rfl ⟨[.blocked s.currentTask], rfl, by simp⟩
    | unblock t => exact .rest rfl ⟨[.unblocked t], rfl, by simp⟩
    | mutexLock m => exact mutexStep_mutexLock _ m s
    | mutexTryLock m => exact mutexStep_tryLock _ m s
    | mutexUnlock m => exact .unlock m rfl rfl rfl
    | signalWaitSet r => exact mutexStep_signalWaitSet _ r s
    | signalPollSet r =>
      exact .rest rfl ⟨[.received s.currentTask r (s.signals s.currentTask &&& r)], rfl, by simp⟩
    | signalSendSet t set => exact .rest rfl ⟨[.unblocked t, .sent t set], rfl, by simp⟩
  | mutexLock m => exact mutexStep_mutexLock _ m s
  | signalWaitSet r b => exact mutexStep_signalWaitSetReturn _ r b s
  | raise | process | outOfBounds | select | idle => exact mutexStep_refl _ rfl rfl
  | handle _ _ _ t => exact .rest rfl ⟨[.unblocked t], rfl, by simp⟩

/-- A locked mutex has one holder, and one that is not locked has none. -/
def Exclusive (s : State c) : Prop :=
  ∀ m, if s.locked m then ∃ t, ∀ u, Holds u m s ↔ u = t else ∀ u, ¬ Holds u m s

theorem Exclusive.step {a : Act c} {s s' : State c} (hs : Exclusive s) (ha : UnlocksOwn a s)
    (h : MutexStep a s s') : Exclusive s' := by
  intro m
  have hm := hs m
  cases h with
  | rest hl hh =>
    obtain ⟨new, hh, hnew⟩ := hh
    have hsame (u : c.TaskId) : Holds u m s' ↔ Holds u m s := by
      unfold Holds
      rw [hh]
      exact since_append fun e he => ⟨(hnew e he).1 u m, (hnew e he).2 u m⟩
    simpa only [hl, hsame] using hm
  | acquire l hfree hl hh =>
    have hcons (u : c.TaskId) :
        Holds u m s' ↔ (s.currentTask = u ∧ l = m) ∨ Holds u m s := by
      simp [Holds, hh, since_cons]
    by_cases hlm : l = m
    · subst hlm
      rw [if_neg (by simp [hfree])] at hm
      rw [if_pos (by simp [hl])]
      exact ⟨s.currentTask, fun u => by simp [hcons, hm u, eq_comm]⟩
    · simpa [hcons, hlm, hl, Ne.symm hlm] using hm
  | unlock l ha' hl hh =>
    have hcons (u : c.TaskId) :
        Holds u m s' ↔ ¬ (s.currentTask = u ∧ l = m) ∧ Holds u m s := by
      simp [Holds, hh, since_cons]
    by_cases hlm : l = m
    · subst hlm
      rw [if_neg (by simp [hl])]
      intro u hu
      obtain ⟨hne, hu⟩ := (hcons u).mp hu
      refine hne ⟨?_, rfl⟩
      -- the task that holds the mutex is the one that unlocks it
      cases hlocked : s.locked l with
      | false =>
        have hnone : ∀ u, ¬ Holds u l s := by simpa [hlocked] using hm
        exact absurd hu (hnone u)
      | true =>
        obtain ⟨t, ht⟩ : ∃ t, ∀ u, Holds u l s ↔ u = t := by simpa [hlocked] using hm
        rcases ha l ha' with hown | hfree
        · rw [(ht _).mp hown, (ht u).mp hu]
        · simp [hlocked] at hfree
    · simpa [hcons, hlm, hl, Ne.symm hlm] using hm

end State

/-- As long as tasks unlock what they hold, no two of them hold one mutex, and `locked` says whether
    one does. -/
theorem mutex_exclusive (s : State c) (h : s.ReachedBy UnlocksOwn) (m : c.MutexId) :
    (∀ t u, Holds t m s → Holds u m s → t = u) ∧ (s.locked m = true ↔ ∃ t, Holds t m s) := by
  have hs : s.Exclusive := h.invariant (I := State.Exclusive)
    (fun m => by simp [State.start, Holds])
    fun s a s' _ hI ha hstep => hI.step ha (State.step_cases hstep).2.mutexStep
  have hm := hs m
  split_ifs at hm with hl
  · obtain ⟨t, ht⟩ := hm
    exact ⟨fun u v hu hv => by rw [(ht u).mp hu, (ht v).mp hv],
      by simpa [hl] using ⟨t, (ht t).mpr rfl⟩⟩
  · exact ⟨fun t u ht => absurd ht (hm t), by simp [hl, hm]⟩

/-- Two tasks, a mutex and two interrupt events. -/
abbrev twoTasks (v : Variant) : Config :=
  ⟨v, 2, 1, 2, 8, Nat.two_pos, Nat.le_add_right 2 30,
    Ppce500.eventPort 2 (Nat.le_add_right 2 30)⟩

/-- The first task hands the mutex over to the second, which has waited for it. -/
theorem mutex_exclusive_handed_over :
    ∃ s : State (twoTasks .gatria), s.ReachedBy UnlocksOwn ∧ s.locked 0 = true ∧
      ∃ t, Holds t 0 s := by
  obtain ⟨s, hs, hp⟩ := State.exists_reachedBy_of_run (c := twoTasks .gatria)
    UnlocksOwn (fun a s => decide (UnlocksOwn a s))
    [.call (.unblock 0), .call (.unblock 1), .call (.mutexLock 0), .call .yield, .schedGetNext 2,
      .call (.mutexLock 0), .schedGetNext 2, .call (.mutexUnlock 0), .call .yield, .schedGetNext 2,
      .resume]
    (fun s => s.locked 0) (fun _ _ _ h => of_decide_eq_true h) (by decide +kernel)
  exact ⟨s, hs, hp, (mutex_exclusive s hs 0).2.mp hp⟩

end Echronos.Cooperative
