import Echronos.Cooperative.System
import Echronos.Properties.RoundRobin

/-! # What a step does

    `Step` lists the steps of the system with what each requires. Selection is stated by its result:
    the first runnable task behind the current index. -/

namespace Echronos

namespace RoundRobin

variable {n : ℕ}

/-- While the index it looks at is not runnable, `assume_runnable` makes no difference. -/
theorem loopAssumeRunnable_of_loop {s : State n} {last : Fin n} : ∀ {fuel : ℕ} {next : Fin n},
    loop s fuel next = some (true, last) → loopAssumeRunnable s fuel next = some last
  | fuel + 1, next, h => by
    simp only [loop] at h
    simp only [loopAssumeRunnable]
    split_ifs at h with hgo
    · rw [if_pos hgo.1]
      exact loopAssumeRunnable_of_loop h
    · obtain ⟨hrun, rfl⟩ : _ ∧ _ := by simpa using h
      rw [if_neg (by simp [hrun])]

theorem runnable_of_loopAssumeRunnable {s : State n} {last : Fin n} :
    ∀ {fuel : ℕ} {next : Fin n}, loopAssumeRunnable s fuel next = some last → s.runnable last = true
  | fuel + 1, next, h => by
    simp only [loopAssumeRunnable] at h
    split_ifs at h with hgo
    · exact runnable_of_loopAssumeRunnable h
    · obtain rfl := Option.some.inj h
      simpa using hgo

/-- A loop that has ended ends in the same way with more turns to go. -/
theorem loopAssumeRunnable_mono {s : State n} {last : Fin n} : ∀ {fuel fuel' : ℕ} {next : Fin n},
    fuel ≤ fuel' → loopAssumeRunnable s fuel next = some last →
    loopAssumeRunnable s fuel' next = some last
  | fuel + 1, fuel' + 1, next, hle, h => by
    simp only [loopAssumeRunnable] at h ⊢
    split_ifs at h ⊢
    · exact loopAssumeRunnable_mono (by omega) h
    · exact h

/-- `sched_get_next` with `assume_runnable` true selects as it does with `assume_runnable` false, and
    does not return when no task is runnable. -/
theorem schedGetNextAssumeRunnable_eq_some {s : State n} {fuel : ℕ} {r : Fin n × State n}
    (h : schedGetNextAssumeRunnable fuel s = some r) :
    (following s.cur).find? s.runnable = some r.1 ∧ r.2 = { s with cur := r.1 } := by
  obtain ⟨last, hlast, rfl⟩ := Option.map_eq_some_iff.mp h
  refine ⟨?_, rfl⟩
  have hloop := loop_eq s n 0 s.cur (max fuel n) (Nat.zero_add n) s.cur.pos
    (Nat.mod_eq_of_lt s.cur.isLt).symm (le_max_right _ _)
  rw [List.drop_zero] at hloop
  cases hfind : (following s.cur).find? s.runnable with
  | some idx =>
    rw [hfind] at hloop
    have hsame := loopAssumeRunnable_of_loop hloop
    rw [loopAssumeRunnable_mono (le_max_left _ _) hlast] at hsame
    rw [Option.some.inj hsame]
  | none =>
    have hmem : last ∈ following s.cur := by simp [following]
    exact absurd (runnable_of_loopAssumeRunnable hlast) (List.find?_eq_none.mp hfind last hmem)

theorem schedGetNextAssumeRunnable_isSome {s : State n} {fuel : ℕ} (hfuel : n ≤ fuel) {t : Fin n}
    (ht : s.runnable t = true) : (schedGetNextAssumeRunnable fuel s).isSome := by
  have hloop := loop_eq s n 0 s.cur fuel (Nat.zero_add n) s.cur.pos
    (Nat.mod_eq_of_lt s.cur.isLt).symm hfuel
  rw [List.drop_zero] at hloop
  cases hfind : (following s.cur).find? s.runnable with
  | some idx =>
    rw [hfind] at hloop
    rw [schedGetNextAssumeRunnable, loopAssumeRunnable_of_loop hloop]
    rfl
  | none => exact absurd ht (List.find?_eq_none.mp hfind t (by simp [following]))

end RoundRobin

namespace Cooperative

open Schemes RoundRobin

variable {c : Config}

namespace State

inductive Step (s : State c) : Act c → State c → Prop
  | call (f : Call c) (hphase : s.phase = .task) (hpc : s.pc s.currentTask = .app)
      (hf : provides c.variant f = true) : Step s (.call f) (call f s)
  | mutexLock (m : c.MutexId) (hphase : s.phase = .task)
      (hpc : s.pc s.currentTask = .mutexLock m) : Step s .resume (mutexLock m s)
  | signalWaitSet (requested : c.SignalSet) (blocked : Bool) (hphase : s.phase = .task)
      (hpc : s.pc s.currentTask = .signalWaitSet requested blocked) :
      Step s .resume (signalWaitSetReturn requested blocked s)
  | raise (i : c.InterruptEventId) (hv : c.variant = .acrux) : Step s (.interruptEventRaise i)
      { s with irq := s.irq.interruptEventRaise i }
  | process (p : c.port.Process) (next : Option c.port.Process) (irq : Irq)
      (hphase : s.phase = .process p) (hp : c.port.interruptEventProcess p s.irq = (next, irq))
      (hnone : c.port.handles p = none) : Step s .interruptEventProcess (reach next irq s)
  | handle (p : c.port.Process) (next : Option c.port.Process) (irq : Irq) (t : c.TaskId)
      (hphase : s.phase = .process p) (hp : c.port.interruptEventProcess p s.irq = (next, irq))
      (ht : c.port.handles p = some t.val) :
      Step s .interruptEventProcess (unblock t (reach next irq s))
  | outOfBounds (p : c.port.Process) (next : Option c.port.Process) (irq : Irq) (i : ℕ)
      (hphase : s.phase = .process p) (hp : c.port.interruptEventProcess p s.irq = (next, irq))
      (hi : c.port.handles p = some i) (hlt : c.tasks ≤ i) :
      Step s .interruptEventProcess { reach next irq s with undefined := true }
  | select (fuel : ℕ) (next : c.TaskId) (idle : Bool) (hphase : s.phase = .select)
      (hnext : (following s.sched.cur).find? s.sched.runnable = some next) :
      Step s (.schedGetNext fuel) (yieldTo next
        { s with sched := { s.sched with cur := next }, systemIsIdle := idle })
  | idle (fuel : ℕ) (hv : c.variant = .acrux) (hphase : s.phase = .select)
      (hnone : ∀ t, s.runnable t = false) : Step s (.schedGetNext fuel)
      { s with sched := { s.sched with cur := schedMaxIndex s.sched.cur }, systemIsIdle := true,
               phase := .process c.port.enter }

theorem inApp_iff {s : State c} :
    s.inApp = true ↔ s.phase = .task ∧ s.pc s.currentTask = .app := by
  rw [inApp, Bool.and_eq_true, Phase.isTask_iff]
  cases s.pc s.currentTask <;> simp

theorem process_cases {p : c.port.Process} {s : State c} (hphase : s.phase = .process p) :
    Step s .interruptEventProcess (interruptEventProcess p s) := by
  obtain ⟨next, irq, hp⟩ : ∃ next irq, c.port.interruptEventProcess p s.irq = (next, irq) :=
    ⟨_, _, rfl⟩
  simp only [interruptEventProcess, hp]
  cases hi : c.port.handles p with
  | none => exact .process p next irq hphase hp hi
  | some i =>
    dsimp only [interruptEventHandle]
    split_ifs with h
    · exact .handle p next irq ⟨i, h⟩ hphase hp hi
    · exact .outOfBounds p next irq i hphase hp hi (not_lt.mp h)

theorem step_cases {a : Act c} {s s' : State c} (h : step a s = some s') :
    s.undefined = false ∧ Step s a s' := by
  obtain ⟨hu, h⟩ := Option.ite_none_left_eq_some.mp h
  refine ⟨by simpa using hu, ?_⟩
  cases a with
  | call f =>
    obtain ⟨⟨happ, hf⟩, h⟩ := Option.ite_none_right_eq_some.mp h
    obtain rfl := Option.some.inj h
    exact .call f (inApp_iff.mp happ).1 (inApp_iff.mp happ).2 hf
  | resume =>
    obtain ⟨hphase, h⟩ := Option.ite_none_right_eq_some.mp h
    rw [Phase.isTask_iff] at hphase
    unfold resume at h
    split at h
    · cases h
    · obtain rfl := Option.some.inj h
      exact .mutexLock _ hphase ‹_›
    · obtain rfl := Option.some.inj h
      exact .signalWaitSet _ _ hphase ‹_›
  | interruptEventRaise i =>
    obtain ⟨⟨hv, -⟩, h⟩ := Option.ite_none_right_eq_some.mp h
    obtain rfl := Option.some.inj h
    exact .raise i hv
  | interruptEventProcess =>
    dsimp only at h
    split at h
    · obtain rfl := Option.some.inj h
      exact process_cases ‹_›
    · cases h
    · cases h
  | schedGetNext fuel =>
    obtain ⟨hphase, h⟩ := Option.ite_none_right_eq_some.mp h
    rw [Phase.isSelect_iff] at hphase
    unfold schedGetNext at h
    split_ifs at h with hv
    · cases hnext : RoundRobin.schedGetNext fuel s.sched with
      | none => simp [hnext] at h
      | some r =>
        obtain rfl := eq_of_schedGetNext hnext
        cases hfind : (following s.sched.cur).find? s.sched.runnable with
        | none =>
          simp only [hnext, hfind, Option.some.injEq] at h
          subst h
          exact .idle fuel hv hphase fun t => by
            simpa [runnable] using List.find?_eq_none.mp hfind t (by simp [following])
        | some next =>
          simp only [hnext, hfind, Fin.is_lt, dite_true, Option.some.injEq] at h
          subst h
          exact .select fuel next false hphase hfind
    · obtain ⟨r, hr, rfl⟩ := Option.map_eq_some_iff.mp h
      obtain ⟨hfind, hr2⟩ := schedGetNextAssumeRunnable_eq_some hr
      rw [hr2]
      exact .select fuel r.1 s.systemIsIdle hphase hfind

theorem yield_phase (s : State c) :
    (yield s).phase = if c.variant = .acrux then .process c.port.enter else .select := rfl

/-- A task leaves interrupts alone, and goes from its code only to where `yield()` goes. -/
theorem Step.of_task {a : Act c} {s s' : State c} (h : Step s a s') (hphase : s.phase = .task) :
    (s'.irq = s.irq ∧ s'.undefined = s.undefined ∧
      (s'.phase = .task ∨ s'.phase = (yield s).phase)) ∨
    ∃ j : c.InterruptEventId, c.variant = .acrux ∧
      s' = { s with irq := s.irq.interruptEventRaise j } := by
  cases h with
  | call f =>
    left
    cases f with
    | yieldTo t => exact ⟨rfl, rfl, .inl rfl⟩
    | yield | block => exact ⟨rfl, rfl, .inr rfl⟩
    | unblock | mutexUnlock | signalPollSet | signalSendSet => exact ⟨rfl, rfl, .inl hphase⟩
    | mutexLock m =>
      simp only [State.call, State.mutexLock, internalMutexTryLock]
      cases s.locked m
      · exact ⟨rfl, rfl, .inl hphase⟩
      · exact ⟨rfl, rfl, .inr rfl⟩
    | mutexTryLock m =>
      simp only [State.call, internalMutexTryLock]
      split_ifs <;> exact ⟨rfl, rfl, .inl hphase⟩
    | signalWaitSet r =>
      simp only [State.call, State.signalWaitSet]
      split_ifs <;> exact ⟨rfl, rfl, .inr rfl⟩
  | mutexLock m =>
    left
    simp only [State.mutexLock, internalMutexTryLock]
    cases s.locked m
    · exact ⟨rfl, rfl, .inl hphase⟩
    · exact ⟨rfl, rfl, .inr rfl⟩
  | signalWaitSet r b =>
    left
    unfold signalWaitSetReturn
    split_ifs
    · exact ⟨rfl, rfl, .inr rfl⟩
    · exact ⟨rfl, rfl, .inl hphase⟩
  | raise j hv => exact .inr ⟨j, hv, rfl⟩
  | process _ _ _ hp | handle _ _ _ _ hp | outOfBounds _ _ _ _ hp | select _ _ _ hp
  | idle _ _ hp => simp [hphase] at hp

end State

end Cooperative

end Echronos
