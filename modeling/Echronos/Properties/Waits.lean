import Echronos.Kernel.Steps

/-! # Waiting tasks

    `WaitSound` ties the place of a task to its pending signals and to its link in the scheduler: a
    task that is not runnable is blocked inside `signal_wait_set` with none of the signals it waits
    for pending, and with inheritance its link is the task it was blocked on. Every move preserves
    it, so it holds for every task in every reachable state. -/

namespace Echronos

open Schemes

variable {c : Config} {S : Sched c.tasks c.mutexes} {A : Set Component}

namespace Core

structure WaitSound (k : Core c S) (t : c.TaskId) : Prop where
  blocked : ∀ w, k.pc t = .wait w → w.blocked = true → ¬ k.runnable t →
    signalPeek (k.signals t) w.requested = false
  link : ∀ w, k.pc t = .wait w → w.blocked = true → ¬ k.runnable t →
    k.link t = if S.inherits then w.blocker else none
  yielding : ∀ w, k.pc t = .wait w → w.blocked = false →
    signalPeek (k.signals t) w.requested = true
  awake : (∀ w, k.pc t = .wait w → w.blocked = false) → k.runnable t

/-- A runnable task outside `signal_wait_set` is sound. -/
theorem WaitSound.of_awake {k : Core c S} {t : c.TaskId} (hpc : ∀ w, k.pc t ≠ .wait w)
    (hr : k.runnable t) : WaitSound k t :=
  ⟨fun w hw => absurd hw (hpc w), fun w hw => absurd hw (hpc w), fun w hw => absurd hw (hpc w),
    fun _ => hr⟩

/-- A task with a requested signal pending is runnable. -/
theorem WaitSound.runnable {k : Core c S} {t : c.TaskId} (h : WaitSound k t)
    (hp : ∀ w, k.pc t = .wait w → w.blocked = true →
      signalPeek (k.signals t) w.requested = true) : k.runnable t := by
  by_cases hb : ∃ w, k.pc t = .wait w ∧ w.blocked = true
  · obtain ⟨w, hw, hb⟩ := hb
    by_contra hr
    exact absurd (hp w hw hb) (by simp [h.blocked w hw hb hr])
  · exact h.awake fun w hw => by simpa using fun hb' => hb ⟨w, hw, hb'⟩

/-- What other tasks' code can do to a task keeps its wait sound. -/
theorem WaitSound.other {k k' : Core c S} {t : c.TaskId} (hk : WaitSound k t) (h : Other t k k') :
    WaitSound k' t where
  blocked w hw hb hr := by
    rw [h.pc] at hw
    rcases h.link with ⟨hl, hs⟩ | hl
    · rw [hs]
      exact hk.blocked w hw hb (by unfold Core.runnable at hr ⊢; rwa [hl] at hr)
    · exact absurd hl hr
  link w hw hb hr := by
    rw [h.pc] at hw
    rcases h.link with ⟨hl, -⟩ | hl
    · rw [hl]
      exact hk.link w hw hb (by unfold Core.runnable at hr ⊢; rwa [hl] at hr)
    · exact absurd hl hr
  yielding w hw hb := by
    rw [h.pc] at hw
    obtain ⟨i, hp, hr⟩ := signalPeek_iff.mp (hk.yielding w hw hb)
    exact signalPeek_iff.mpr ⟨i, h.signals i hp, hr⟩
  awake hw := h.runnable (hk.awake (by rwa [h.pc] at hw))

theorem WaitSound.moves {k k' : Core c S} (h : Moves A k k') (hk : ∀ t, WaitSound k t) (t : c.TaskId) :
    WaitSound k' t := by
  induction h with
  | refl => exact hk t
  | wakes _ hw ih => exact ih.other (hw.other t)
  | @receive k' r h hp ih =>
    by_cases ht : t = k'.currentTask
    · subst ht
      exact .of_awake (by simp) (ih.runnable hp)
    · exact ih.other ((Moves.receive (A := A) r .refl hp).other ht)
  | @goto k' p h hp he ha ih =>
    by_cases ht : t = k'.currentTask
    · subst ht
      exact .of_awake (by simpa using hp) (ih.runnable fun w hw => absurd hw (ha w))
    · exact ih.other ((Moves.goto (A := A) p .refl hp he ha).other ht)
  | @wait k' r b cont h hc ha ih =>
    by_cases ht : t = k'.currentTask
    · subst ht
      have hr := ih.runnable fun w hw => absurd hw (ha w)
      cases hp : signalPeek (k'.signals k'.currentTask) r with
      | true =>
        -- the branch that only yields
        have hl : (signalWaitSet r b cont k').link = k'.link := by simp [signalWaitSet_link, hp]
        refine ⟨fun w hw hb => ?_, fun w hw hb => ?_, fun w hw hb => ?_, fun _ => ?_⟩
        · obtain rfl := by simpa using hw
          simp [hp] at hb
        · obtain rfl := by simpa using hw
          simp [hp] at hb
        · obtain rfl := by simpa using hw
          simpa using hp
        · rw [Core.runnable, hl]
          exact hr
      | false =>
        refine ⟨fun w hw hb _ => ?_, fun w hw hb _ => ?_, fun w hw hb => ?_, fun hb => ?_⟩
        · obtain rfl := by simpa using hw
          simpa using hp
        · obtain rfl := by simpa using hw
          simp [signalWaitSet_link, hp]
        · obtain rfl := by simpa using hw
          simp [hp] at hb
        · simp [hp] at hb
    · exact ih.other ((Moves.wait r b cont .refl hc ha).other ht)
  | @block k' w' h hpc hb hp ih =>
    by_cases ht : t = k'.currentTask
    · subst ht
      refine ⟨fun w hw _ _ => ?_, fun w hw _ _ => ?_, fun w hw hb' => ?_, fun hb' => ?_⟩
      · obtain rfl : w' = w := by simpa [hpc] using hw
        exact hp
      · obtain rfl : w' = w := by simpa [hpc] using hw
        simp
      · obtain rfl : w' = w := by simpa [hpc] using hw
        simp [hb] at hb'
      · simp [hpc, hb] at hb'
    · exact ih.other ((Moves.block (A := A) w' .refl hpc hb hp).other ht)

theorem WaitSound.switch {k k' : Core c S} (h : Switch k k') {t : c.TaskId} (hk : WaitSound k t) :
    WaitSound k' t :=
  hk.other (h.other t)

end Core

theorem State.ReachedBy.waitSound {ok : Act c → State c S → Prop} {s : State c S}
    (h : s.ReachedBy ok) (t : c.TaskId) : s.core.WaitSound t :=
  h.core (I := fun k => ∀ t, k.WaitSound t)
    (fun t => .of_awake (by simp [Core.start]) (S.link_start t))
    (fun _ _ hm hI t => .moves hm hI t) (fun _ _ hs hI t => (hI t).switch hs) t

end Echronos
