import Echronos.Kernel.MutexStats
import Echronos.Kernel.Steps
import Echronos.Properties.Timers
import Echronos.Variants.RoundRobin

/-! # The longest wait for a mutex

    The statistics of a mutex belong to the task that holds it, so no update of the maximum is lost.
    What is recorded is the number of ticks waited modulo `2 ^ 16`. -/

namespace Echronos

open Schemes Echronos.Core

variable {c : Config} {S : Sched c.tasks c.mutexes}

theorem Core.timerTickProcess_ticks (k : Core c S) :
    ((timerTickProcess k).timerCurrentTicks = k.timerCurrentTicks ∧
      (timerTickProcess k).processed = k.processed) ∨
    ((timerTickProcess k).timerCurrentTicks = k.timerCurrentTicks + 1 ∧
      (timerTickProcess k).processed = k.processed + 1) := by
  by_cases hpending : k.timerPendingTicks = 1
  · have hclock := timerTickProcess_clock hpending
    simp only [clock, Prod.mk.injEq] at hclock
    exact .inr ⟨hclock.1, hclock.2.2⟩
  · left
    unfold timerTickProcess
    split_ifs with hmore hzero
    · exact ⟨rfl, rfl⟩
    · exact ⟨rfl, rfl⟩
    · omega

/-- While no timer is enabled, a tick is just counted. -/
theorem Core.timerTickProcess_of_disabled {k : Core c S} (hpending : k.timerPendingTicks = 1)
    (htimers : ∀ i, (k.timers i).enabled = false) :
    timerTickProcess k = countTick k := by
  rw [timerTickProcess_of_one hpending]
  refine scan_invariant (p := fun k' => k' = countTick k) (fun k' i hk => ?_) rfl
  simp [hk, tickTurn, countTick, andThen, timerExpired, htimers]

namespace State

variable {s s' : State c S} {a : Act c}

/-- A step leaves the clock alone, or it processes one tick. -/
theorem step_processes (hstep : step a s = some s') :
    (s'.core.timerCurrentTicks = s.core.timerCurrentTicks ∧ s'.core.processed = s.core.processed) ∨
    (s'.core.timerCurrentTicks = s.core.timerCurrentTicks + 1 ∧ s'.core.processed = s.core.processed + 1) := by
  by_cases ha : a = .kernel .timerTickProcess
  · subst ha
    obtain ⟨-, h⟩ := Option.ite_none_left_eq_some.mp hstep
    obtain ⟨k, hk, rfl⟩ := Option.map_eq_some_iff.mp h
    obtain ⟨-, ⟨⟩⟩ := Option.ite_none_right_eq_some.mp hk
    exact timerTickProcess_ticks s.core
  · exact .inl (step_ticks hstep ha)

/-- A task inside the loop of `mutex_lock` goes on: it waits for the mutex again, or it holds it. -/
theorem resume_mutexLock {w : Wait c} {m : c.MutexId} (h : resume s = some s')
    (hw : s.core.pc s.currentTask = .wait w) (hm : w.cont = .mutexLock m) :
    (s'.core.pc s.currentTask = .app ∧ s'.mutexes m = some s.currentTask) ∨
    ∃ w', s'.core.pc s.currentTask = .wait w' ∧ w'.cont = .mutexLock m := by
  simp only [resume, hw] at h
  cases hreturn : signalWaitReturn w s.core with
  | none =>
    simp only [hreturn] at h
    obtain rfl := Option.some.inj h
    exact .inr ⟨w, hw, hm⟩
  | some k =>
    simp only [hreturn, hm] at h
    obtain rfl := Option.some.inj h
    obtain ⟨-, rfl⟩ := signalWaitReturn_eq_some.mp hreturn
    refine (mutexLockLoop_cases m _).imp_left ?_
    rintro ⟨hpc, hheld⟩
    refine ⟨?_, hheld⟩
    rw [hpc]
    exact Function.update_self _ _ _

end State

namespace StatsMachine

variable {s s' : StatsMachine c S} {t : c.TaskId} {m : c.MutexId} {a : Act c}

/-- `wait_start_ticks` is the clock when `start` ticks had been processed. -/
def Started (s : StatsMachine c S) (waitStartTicks : BitVec 32) (start : ℕ) : Prop :=
  waitStartTicks = BitVec.ofNat 32 start ∧ start ≤ s.system.core.processed

/-- What holds where a task is. From the update on it holds the mutex. -/
def At (s : StatsMachine c S) (t : c.TaskId) : StatsPoint c → Prop
  | .entered _ waitStartTicks start => s.system.core.pc t = .app ∧ s.Started waitStartTicks start
  | .contended m waitStartTicks start =>
    (∃ w, s.system.core.pc t = .wait w ∧ w.cont = .mutexLock m) ∧ s.Started waitStartTicks start
  | .update m _ waitStartTicks start =>
    s.system.core.pc t = .app ∧ s.system.mutexes m = some t ∧ s.Started waitStartTicks start
  | .compare m waitTime waited =>
    s.system.core.pc t = .app ∧ s.system.mutexes m = some t ∧ waitTime = BitVec.ofNat 16 waited
  | .store m waitTime waited =>
    s.system.core.pc t = .app ∧ s.system.mutexes m = some t ∧ waitTime = BitVec.ofNat 16 waited ∧
      s.maxWaitTime m < waitTime.toNat
  | .clear _ => s.system.core.pc t = .app

structure Sound (s : StatsMachine c S) : Prop where
  clock : s.system.core.timerCurrentTicks = BitVec.ofNat 32 s.system.core.processed
  point : ∀ t p, s.point t = some p → s.At t p

theorem Sound.start (memory : Memory) : Sound (start memory : StatsMachine c S) := ⟨rfl, nofun⟩

/-- A task stays where it is while others do not touch what it relies on. -/
theorem At.frame {p : StatsPoint c} (h : s.At t p) (hpc : s'.system.core.pc t = s.system.core.pc t)
    (hprocessed : s.system.core.processed ≤ s'.system.core.processed)
    (hheld : ∀ m, s.system.mutexes m = some t → s'.system.mutexes m = some t)
    (hmax : ∀ m, s.system.mutexes m = some t → s'.maxWaitTime m ≤ s.maxWaitTime m) : s'.At t p := by
  cases p with
  | entered => exact ⟨hpc.trans h.1, h.2.1, h.2.2.trans hprocessed⟩
  | contended =>
    obtain ⟨⟨w, hw, hm⟩, hstart⟩ := h
    exact ⟨⟨w, hpc.trans hw, hm⟩, hstart.1, hstart.2.trans hprocessed⟩
  | update => exact ⟨hpc.trans h.1, hheld _ h.2.1, h.2.2.1, h.2.2.2.trans hprocessed⟩
  | compare => exact ⟨hpc.trans h.1, hheld _ h.2.1, h.2.2⟩
  | store => exact ⟨hpc.trans h.1, hheld _ h.2.1, h.2.2.1, (hmax _ h.2.1).trans_lt h.2.2.2⟩
  | clear => exact hpc.trans h

theorem afterLoop_eq {p : StatsPoint c} (h : s.At t p) : afterLoop (s.system.core.pc t) p = p := by
  cases p with
  | contended =>
    obtain ⟨⟨w, hw, -⟩, -⟩ := h
    rw [hw]
    rfl
  | _ => rfl

theorem processed_le {a : Echronos.Act c} {system : State c S} (h : State.step a s.system = some system) :
    s.system.core.processed ≤ system.core.processed := by
  rcases State.step_processes h with ⟨-, hprocessed⟩ | ⟨-, hprocessed⟩ <;> omega

theorem Sound.clock_step (hs : Sound s) {a : Echronos.Act c} {system : State c S}
    (h : State.step a s.system = some system) :
    system.core.timerCurrentTicks = BitVec.ofNat 32 system.core.processed := by
  rcases State.step_processes h with ⟨hticks, hprocessed⟩ | ⟨hticks, hprocessed⟩
  · rw [hticks, hprocessed, hs.clock]
  · rw [hticks, hprocessed, hs.clock, BitVec.ofNat_add]
    rfl

/-- What a step of the system does to another task than the current one. -/
theorem At.other {p : StatsPoint c} (h : s.At t p) {a : Echronos.Act c}
    (hstep : State.step a s.system = some s'.system) (ht : t ≠ s.system.currentTask)
    (hmax : s'.mutexStats = s.mutexStats) : s'.At t p := by
  refine h.frame (State.step_other hstep ht).pc (processed_le hstep) (fun m hm => ?_) fun m _ => ?_
  · exact State.step_held hstep hm fun _ => ht
  · rw [maxWaitTime, maxWaitTime, hmax]

theorem inApp_iff : s.inApp = true ↔ s.system.inApp = true ∧ s.point s.system.currentTask = none := by
  simp [inApp]

/-- The system takes a step outside of the code of the statistics, or in the loop of `mutex_lock`. -/
theorem Sound.system (hs : Sound s) {a : Echronos.Act c} (ha : s.takes a = true) {system : State c S}
    (hstep : State.step a s.system = some system) :
    Sound { s with system := system, point := fun t => (s.point t).map (afterLoop (system.core.pc t)) } := by
  refine ⟨hs.clock_step hstep, fun t p' hp' => ?_⟩
  obtain ⟨p, hp, rfl⟩ := Option.map_eq_some_iff.mp hp'
  have hat := hs.point t p hp
  have hkeep (hpc : system.core.pc t = s.system.core.pc t)
      (hheld : ∀ m, s.system.mutexes m = some t → system.mutexes m = some t) :
      At { s with system := system, point := fun t => (s.point t).map (afterLoop (system.core.pc t)) } t
        (afterLoop (system.core.pc t) p) := by
    rw [hpc, afterLoop_eq hat]
    exact hat.frame hpc (processed_le hstep) hheld fun m _ => le_rfl
  by_cases ht : t = s.system.currentTask
  · subst ht
    have happ : s.inApp = false := by simp [inApp, hp]
    cases a with
    | kernel a =>
      obtain ⟨-, h⟩ := Option.ite_none_left_eq_some.mp hstep
      obtain ⟨k, hk, rfl⟩ := Option.map_eq_some_iff.mp h
      exact hkeep (congrFun (State.act_pc hk) _) fun m hm => hm
    | call f =>
      have htakes : s.takes (.call f) = false := by
        cases f with
        | mutex f => cases f <;> first | rfl | exact happ
        | _ => exact happ
      exact absurd (ha.symm.trans htakes) nofun
    | store => exact absurd (ha.symm.trans happ) nofun
    | resume =>
      obtain ⟨-, h⟩ := Option.ite_none_left_eq_some.mp hstep
      obtain ⟨-, h⟩ := Option.ite_none_right_eq_some.mp h
      have hresume {q : Pc c} (hpc : s.system.core.pc s.system.currentTask = q) : q ≠ .app := by
        rintro rfl
        simp [State.resume, hpc] at h
      cases p with
      | contended m waitStartTicks start =>
        obtain ⟨⟨w, hw, hm⟩, hstart, hle⟩ := hat
        have hle := hle.trans (processed_le hstep)
        rcases State.resume_mutexLock h hw hm with ⟨hpc, hheld⟩ | ⟨w', hw', hm'⟩
        · rw [hpc]
          exact ⟨hpc, hheld, hstart, hle⟩
        · rw [hw']
          exact ⟨⟨w', hw', hm'⟩, hstart, hle⟩
      | clear => exact absurd rfl (hresume hat)
      | _ => exact absurd rfl (hresume hat.1)
  · exact hkeep (State.step_other hstep ht).pc fun m hm => State.step_held hstep hm fun _ => ht

/-! ### The other steps -/

/-- The current task moves on in the code of the statistics. -/
theorem Sound.move (hs : Sound s) (hsystem : s'.system = s.system)
    (hother : ∀ t ≠ s.system.currentTask, s'.point t = s.point t)
    (hcurrent : ∀ p, s'.point s.system.currentTask = some p → s'.At s.system.currentTask p)
    (hmax : ∀ t ≠ s.system.currentTask, ∀ m, s.system.mutexes m = some t →
      s'.maxWaitTime m ≤ s.maxWaitTime m) :
    Sound s' := by
  refine ⟨hsystem ▸ hs.clock, fun t p hp => ?_⟩
  by_cases ht : t = s.system.currentTask
  · exact ht ▸ hcurrent p (ht ▸ hp)
  · refine (hs.point t p (hother t ht ▸ hp)).frame ?_ ?_ (fun m hm => ?_) (hmax t ht) <;> rw [hsystem]
    exact hm

/-- The difference of two clock values, as a `TicksRelative`. -/
theorem waitTime_eq {start processed : ℕ} (h : start ≤ processed) :
    (BitVec.ofNat 32 processed - BitVec.ofNat 32 start).setWidth 16 = BitVec.ofNat 16 (processed - start) := by
  refine BitVec.eq_of_toNat_eq ?_
  simp only [BitVec.toNat_setWidth, BitVec.toNat_sub, BitVec.toNat_ofNat]
  omega

theorem Sound.next (hs : Sound s) {p : StatsPoint c} (hp : s.point s.system.currentTask = some p)
    (h : next s p = some s') : Sound s' := by
  have hat := hs.point _ _ hp
  cases p with
  | entered m waitStartTicks start =>
    obtain ⟨hpc, hstart, hle⟩ := hat
    obtain ⟨system, hstep, rfl⟩ := Option.map_eq_some_iff.mp h
    have hle := hle.trans (processed_le hstep)
    refine ⟨hs.clock_step hstep, fun t p hp => ?_⟩
    by_cases ht : t = s.system.currentTask
    · subst ht
      obtain rfl := Option.some.inj ((Function.update_self (f := s.point) _ _).symm.trans hp)
      obtain ⟨-, hcall⟩ := Option.ite_none_left_eq_some.mp hstep
      obtain ⟨-, hcall⟩ := Option.ite_none_right_eq_some.mp hcall
      obtain ⟨-, ⟨⟩⟩ := Option.ite_none_right_eq_some.mp hcall
      rcases State.mutexLockLoop_cases m s.system with ⟨hpc', hheld⟩ | ⟨w, hw, hm⟩
      · rw [hpc', hpc]
        exact ⟨(congrFun hpc' _).trans hpc, hheld, hstart, hle⟩
      · rw [hw]
        exact ⟨⟨w, hw, hm⟩, hstart, hle⟩
    · exact (hs.point t p ((Function.update_of_ne ht _ s.point).symm.trans hp)).other hstep ht rfl
  | contended => cases h
  | update m contended waitStartTicks start =>
    obtain ⟨hpc, hheld, hstart, hle⟩ := hat
    simp only [StatsMachine.next] at h
    split_ifs at h with henabled hcontended <;> obtain rfl := Option.some.inj h
    · refine hs.move rfl (fun t ht => by simp [ht]) (fun p hp => ?_) fun t _ l _ => ?_
      · obtain rfl := Option.some.inj ((Function.update_self (f := s.point) _ _).symm.trans hp)
        refine ⟨hpc, hheld, ?_⟩
        rw [hs.clock, hstart, waitTime_eq hle]
      · simp [maxWaitTime_update]
    · exact hs.move rfl (fun t ht => by simp [ht]) (fun p hp => by simp at hp) fun t _ l _ => by
        simp [maxWaitTime_update]
    · exact hs.move rfl (fun t ht => by simp [ht]) (fun p hp => by simp at hp) fun t _ l _ => le_rfl
  | compare m waitTime waited =>
    obtain ⟨hpc, hheld, htime⟩ := hat
    simp only [StatsMachine.next] at h
    split_ifs at h with hlt <;> obtain rfl := Option.some.inj h
    · refine hs.move rfl (fun t ht => by simp [ht]) (fun p hp => ?_) fun t _ l _ => le_rfl
      obtain rfl : StatsPoint.store m waitTime waited = p := by simpa using hp
      exact ⟨hpc, hheld, htime, hlt⟩
    · exact hs.move rfl (fun t ht => by simp [ht]) (fun p hp => by simp at hp) fun t _ l _ => le_rfl
  | store m waitTime waited =>
    obtain ⟨hpc, hheld, htime, hlt⟩ := hat
    obtain rfl := Option.some.inj h
    refine hs.move rfl (fun t ht => by simp [ht]) (fun p hp => by simp at hp) fun t ht l hl => ?_
    have hne : l ≠ m := fun heq => ht (Option.some.inj (hl.symm.trans (heq ▸ hheld)))
    simp [hne]
  | clear mutexIndex =>
    simp only [StatsMachine.next] at h
    split_ifs at h with hi <;> obtain rfl := Option.some.inj h
    · refine hs.move rfl (fun t ht => by simp [ht]) (fun p hp => ?_) fun t _ l _ => ?_
      · obtain rfl : StatsPoint.clear (mutexIndex + 1) = p := by simpa using hp
        exact hat
      · by_cases hl : l = ⟨mutexIndex, hi⟩ <;> simp [hl]
    · exact hs.move rfl (fun t ht => by simp [ht]) (fun p hp => by simp at hp) fun t _ l _ => le_rfl

theorem Sound.step (hs : Sound s) (hstep : step a s = some s') : Sound s' := by
  obtain ⟨hhalted, hstep⟩ := Option.ite_none_left_eq_some.mp hstep
  cases a with
  | system a =>
    obtain ⟨ha, hstep⟩ := Option.ite_none_right_eq_some.mp hstep
    obtain ⟨system, hsystem, rfl⟩ := Option.map_eq_some_iff.mp hstep
    exact hs.system ha hsystem
  | next =>
    obtain ⟨happ, hstep⟩ := Option.ite_none_right_eq_some.mp hstep
    obtain ⟨p, hp, hnext⟩ := Option.bind_eq_some_iff.mp hstep
    exact hs.next hp hnext
  | mutexLock m =>
    obtain ⟨happ, ⟨⟩⟩ := Option.ite_none_right_eq_some.mp hstep
    refine hs.move rfl (fun t ht => by simp [ht]) (fun p hp => ?_) fun t _ l _ => le_rfl
    obtain rfl := Option.some.inj ((Function.update_self (f := s.point) _ _).symm.trans hp)
    exact ⟨(State.inApp_iff.mp (inApp_iff.mp happ).1).2, hs.clock, le_rfl⟩
  | mutexStatsClear =>
    obtain ⟨happ, ⟨⟩⟩ := Option.ite_none_right_eq_some.mp hstep
    refine hs.move rfl (fun t ht => by simp [ht]) (fun p hp => ?_) fun t _ l _ => le_rfl
    obtain rfl := Option.some.inj ((Function.update_self (f := s.point) _ _).symm.trans hp)
    exact (State.inApp_iff.mp (inApp_iff.mp happ).1).2
  | enable enabled =>
    obtain ⟨happ, ⟨⟩⟩ := Option.ite_none_right_eq_some.mp hstep
    exact hs.move rfl (fun t _ => rfl) (fun p hp => absurd ((inApp_iff.mp happ).2.symm.trans hp) nofun)
      fun t _ l _ => le_rfl

theorem ReachedBy.sound {ok : Act c → StatsMachine c S → Prop} (h : s.ReachedBy ok) : Sound s := by
  obtain ⟨memory, h⟩ := h
  exact h.invariant (.start memory) fun _ _ _ _ hs _ hstep => hs.step hstep

/-! ### What is recorded -/

/-- A place at which the maximum or the recorded waits are accessed. -/
def accesses : StatsPoint c → Bool
  | .compare _ _ _ | .store _ _ _ | .clear _ => true
  | .entered _ _ _ | .contended _ _ _ | .update _ _ _ _ => false

/-- The wait of a call of `mutex_lock` can be recorded: it fits in a `TicksRelative`, its remainder is
    the largest one, or that has already been recorded. -/
def Recordable (s : StatsMachine c S) (m : c.MutexId) (waited : ℕ) : Prop :=
  waited ≤ 65535 ∨ waited % 65536 = 65535 ∨ s.maxWaitTime m = 65535

/-- A call whose wait is about to be compared with the maximum has waited for a number of ticks that
    can be recorded. -/
def Fits (a : Act c) (s : StatsMachine c S) : Prop :=
  ∀ m waitTime waited, a = .next → s.point s.system.currentTask = some (.compare m waitTime waited) →
    s.Recordable m waited

/-- The step is one of `mutex_stats_clear`. -/
def Clears (a : Act c) (s : StatsMachine c S) : Prop :=
  a = .next ∧ ∃ mutexIndex, s.point s.system.currentTask = some (.clear mutexIndex)

/-- The maximum of a mutex is at least as large as each wait that has been recorded, or it is the largest
    `TicksRelative`; and nothing but `mutex_stats_clear` lowers it. -/
def NeverUnderReports (s : StatsMachine c S) : Prop :=
  (∀ m, ∀ waited ∈ s.waits m, min 65535 waited ≤ s.maxWaitTime m) ∧
  ∀ a s', step a s = some s' → ¬ Clears a s → ∀ m, s.maxWaitTime m ≤ s'.maxWaitTime m

theorem maxWaitTime_lt (s : StatsMachine c S) (m : c.MutexId) : s.maxWaitTime m < 65536 :=
  (s.mutexStats m).mutexLockMaxWaitTime.isLt

/-- The larger one of the maximum and the time computed for a wait is no less than the wait. -/
theorem recordable_iff {waitTime : BitVec 16} {waited : ℕ} (h : waitTime = BitVec.ofNat 16 waited) :
    s.Recordable m waited ↔ min 65535 waited ≤ max (s.maxWaitTime m) waitTime.toNat := by
  have hmax := s.maxWaitTime_lt m
  rw [h, BitVec.toNat_ofNat, Recordable]
  omega

theorem step_next (hstep : step .next s = some s') :
    ∃ p, s.point s.system.currentTask = some p ∧ next s p = some s' := by
  obtain ⟨-, hstep⟩ := Option.ite_none_left_eq_some.mp hstep
  obtain ⟨-, hstep⟩ := Option.ite_none_right_eq_some.mp hstep
  exact Option.bind_eq_some_iff.mp hstep

theorem store_of_update {u : c.TaskId} {p : Option (StatsPoint c)} {waitTime : BitVec 16} {waited : ℕ}
    (h : Function.update s.point u p t = some (.store m waitTime waited))
    (hp : ∀ m waitTime waited, p ≠ some (.store m waitTime waited)) :
    s.point t = some (.store m waitTime waited) := by
  by_cases ht : t = u
  · subst ht
    exact absurd ((Function.update_self t p s.point).symm.trans h) (hp _ _ _)
  · exact (Function.update_of_ne ht p s.point).symm.trans h

theorem afterLoop_eq_store {pc : Pc c} {p : StatsPoint c} {waitTime : BitVec 16} {waited : ℕ}
    (h : afterLoop pc p = .store m waitTime waited) : p = .store m waitTime waited := by
  cases p with
  | contended => cases pc <;> cases h
  | _ => exact h

/-- The steps that do not access the maximum. -/
theorem step_unchanged (hstep : step a s = some s')
    (hp : a = .next → ∀ p, s.point s.system.currentTask = some p → accesses p = false) :
    s'.maxWaitTime = s.maxWaitTime ∧ s'.waits = s.waits ∧ ∀ t m waitTime waited,
      s'.point t = some (.store m waitTime waited) → s.point t = some (.store m waitTime waited) := by
  cases a with
  | next =>
    obtain ⟨p, hpoint, hnext⟩ := step_next hstep
    have hp := hp rfl p hpoint
    cases p with
    | compare | store | clear => cases hp
    | contended => cases hnext
    | entered =>
      obtain ⟨system, -, rfl⟩ := Option.map_eq_some_iff.mp hnext
      refine ⟨rfl, rfl, fun t m _ _ ht => store_of_update ht fun m _ _ heq => ?_⟩
      cases hpc : system.core.pc s.system.currentTask <;> simp [hpc] at heq
    | update =>
      simp only [StatsMachine.next] at hnext
      split_ifs at hnext <;> obtain rfl := Option.some.inj hnext
      · exact ⟨by simp [maxWaitTime_update], rfl, fun t m _ _ ht => store_of_update ht fun _ _ _ => nofun⟩
      · exact ⟨by simp [maxWaitTime_update], rfl, fun t m _ _ ht => store_of_update ht fun _ _ _ => nofun⟩
      · exact ⟨rfl, rfl, fun t m _ _ ht => store_of_update ht fun _ _ _ => nofun⟩
  | system a =>
    obtain ⟨-, hstep⟩ := Option.ite_none_left_eq_some.mp hstep
    obtain ⟨-, hstep⟩ := Option.ite_none_right_eq_some.mp hstep
    obtain ⟨system, -, rfl⟩ := Option.map_eq_some_iff.mp hstep
    refine ⟨rfl, rfl, fun t m _ _ ht => ?_⟩
    obtain ⟨p, hpoint, hloop⟩ := Option.map_eq_some_iff.mp ht
    exact hpoint.trans (congrArg some (afterLoop_eq_store hloop))
  | mutexLock | mutexStatsClear =>
    obtain ⟨-, hstep⟩ := Option.ite_none_left_eq_some.mp hstep
    obtain ⟨-, ⟨⟩⟩ := Option.ite_none_right_eq_some.mp hstep
    exact ⟨rfl, rfl, fun t m _ _ ht => store_of_update ht fun _ _ _ => nofun⟩
  | enable =>
    obtain ⟨-, hstep⟩ := Option.ite_none_left_eq_some.mp hstep
    obtain ⟨-, ⟨⟩⟩ := Option.ite_none_right_eq_some.mp hstep
    exact ⟨rfl, rfl, fun t m _ _ ht => ht⟩

/-- A step leaves the maxima alone, or it is one that accesses them. -/
theorem step_cases (hstep : step a s = some s') :
    (s'.maxWaitTime = s.maxWaitTime ∧ s'.waits = s.waits ∧ ∀ t m waitTime waited,
      s'.point t = some (.store m waitTime waited) → s.point t = some (.store m waitTime waited)) ∨
    (a = .next ∧ ∃ p, s.point s.system.currentTask = some p ∧ accesses p = true ∧ next s p = some s') := by
  by_cases haccess : a = .next ∧ ∃ p, s.point s.system.currentTask = some p ∧ accesses p = true
  · obtain ⟨rfl, p, hpoint, haccess⟩ := haccess
    obtain ⟨_, hpoint', hnext⟩ := step_next hstep
    cases hpoint.symm.trans hpoint'
    exact .inr ⟨rfl, p, hpoint, haccess, hnext⟩
  · refine .inl (step_unchanged hstep fun ha p hp => ?_)
    by_contra htrue
    exact haccess ⟨ha, p, hp, by simpa using htrue⟩

/-- Nothing but `mutex_stats_clear` lowers a maximum. -/
theorem Sound.maxWaitTime_le (hs : Sound s) (hstep : StatsMachine.step a s = some s') (hclear : ¬ Clears a s)
    (m : c.MutexId) : s.maxWaitTime m ≤ s'.maxWaitTime m := by
  rcases step_cases hstep with ⟨hmax, -⟩ | ⟨rfl, p, hpoint, haccess, hnext⟩
  · rw [hmax]
  · cases p with
    | entered | contended | update => cases haccess
    | clear mutexIndex => exact absurd ⟨rfl, mutexIndex, hpoint⟩ hclear
    | compare =>
      simp only [StatsMachine.next] at hnext
      split_ifs at hnext <;> obtain rfl := Option.some.inj hnext <;> exact le_rfl
    | store l waitTime waited =>
      obtain ⟨-, -, -, hlt⟩ := hs.point _ _ hpoint
      obtain rfl := Option.some.inj hnext
      by_cases hl : m = l
      · subst hl
        simpa using hlt.le
      · simp [hl]

/-- What holds while waits can be recorded. -/
structure Reported (s : StatsMachine c S) : Prop where
  store : ∀ t m waitTime waited, s.point t = some (.store m waitTime waited) →
    min 65535 waited ≤ waitTime.toNat
  waits : ∀ m, ∀ waited ∈ s.waits m, min 65535 waited ≤ s.maxWaitTime m

theorem Reported.raise (hr : Reported s) {stat : MutexStat}
    (hle : s.maxWaitTime m ≤ stat.mutexLockMaxWaitTime.toNat) : Reported (setStat m stat s) := by
  refine ⟨hr.store, fun l waited hwaited => ?_⟩
  have hwait := hr.waits l waited hwaited
  by_cases hl : l = m
  · subst hl
    simpa using hwait.trans hle
  · simpa [hl] using hwait

theorem Reported.recorded (hr : Reported s) {waited : ℕ} (hwaited : min 65535 waited ≤ s.maxWaitTime m) :
    Reported (recorded m waited s) := by
  refine ⟨fun t l _ _ ht => hr.store t l _ _ (store_of_update ht fun _ _ _ => nofun), fun l n hn => ?_⟩
  by_cases hl : l = m
  · subst hl
    rw [recorded_waits, Function.update_self] at hn
    rcases List.mem_cons.mp hn with rfl | hn
    · exact hwaited
    · exact hr.waits l n hn
  · rw [recorded_waits, Function.update_of_ne hl] at hn
    exact hr.waits l n hn

theorem Reported.step (hr : Reported s) (hs : Sound s) (hfits : Fits a s)
    (hstep : StatsMachine.step a s = some s') :
    Reported s' := by
  rcases step_cases hstep with ⟨hmax, hwaits, hstore⟩ | ⟨rfl, p, hpoint, haccess, hnext⟩
  · refine ⟨fun t m waitTime waited ht => hr.store t m waitTime waited (hstore t m waitTime waited ht), ?_⟩
    rw [hmax, hwaits]
    exact hr.waits
  · cases p with
    | entered | contended | update => cases haccess
    | compare m waitTime waited =>
      obtain ⟨-, -, htime⟩ := hs.point _ _ hpoint
      have hrecordable := (recordable_iff htime).mp (hfits m waitTime waited rfl hpoint)
      simp only [StatsMachine.next] at hnext
      split_ifs at hnext with hlt <;> obtain rfl := Option.some.inj hnext
      · have hlt : s.maxWaitTime m < waitTime.toNat := hlt
        rw [max_eq_right hlt.le] at hrecordable
        refine ⟨fun t l time n ht => ?_, hr.waits⟩
        by_cases htc : t = s.system.currentTask
        · subst htc
          rw [goto_point, Function.update_self] at ht
          cases ht
          exact hrecordable
        · exact hr.store t l time n ((Function.update_of_ne htc _ s.point).symm.trans ht)
      · have hle : waitTime.toNat ≤ s.maxWaitTime m := not_lt.mp hlt
        rw [max_eq_left hle] at hrecordable
        exact hr.recorded hrecordable
    | store m waitTime waited =>
      obtain ⟨-, -, -, hlt⟩ := hs.point _ _ hpoint
      obtain rfl := Option.some.inj hnext
      refine (hr.raise (m := m) hlt.le).recorded ?_
      rw [setStat_maxWaitTime, Function.update_self]
      exact hr.store _ m waitTime waited hpoint
    | clear mutexIndex =>
      simp only [StatsMachine.next] at hnext
      split_ifs at hnext with hi <;> obtain rfl := Option.some.inj hnext
      · refine ⟨fun t l _ _ ht => hr.store t l _ _ (store_of_update ht fun _ _ _ => nofun), fun l n hn => ?_⟩
        by_cases hl : l = ⟨mutexIndex, hi⟩
        · simp [hl] at hn
        · have hwait := hr.waits l n (by simpa [hl] using hn)
          simpa [hl] using hwait
      · exact ⟨fun t l _ _ ht => hr.store t l _ _ (store_of_update ht fun _ _ _ => nofun), hr.waits⟩

theorem ReachedBy.reported (h : s.ReachedBy Fits) : Reported s := by
  obtain ⟨memory, h⟩ := h
  refine h.invariant ⟨nofun, nofun⟩ fun r a r' hreach hr hfits hstep => ?_
  exact hr.step (ReachedBy.sound ⟨memory, hreach⟩) hfits hstep

/-- While the ticks that calls wait can be recorded, the statistics never under-report waiting. -/
theorem neverUnderReports (s : StatsMachine c S) (h : s.ReachedBy Fits) : NeverUnderReports s :=
  ⟨h.reported.waits, fun _ _ hstep hclear m => h.sound.maxWaitTime_le hstep hclear m⟩

/-! ### What cannot be recorded -/

theorem ReachedBy.next {ok : Act c → StatsMachine c S → Prop} (h : s.ReachedBy ok) (ha : ok a s)
    (hstep : StatsMachine.step a s = some s') : s'.ReachedBy ok :=
  ⟨_, Reach.next a h.choose_spec ha hstep⟩

theorem step_of_point (hhalted : s.system.core.halted = none) (happ : s.system.inApp = true) {p : StatsPoint c}
    (hp : s.point s.system.currentTask = some p) : step .next s = next s p := by
  simp [step, hhalted, happ, hp]

/-- A call whose wait cannot be recorded returns with a maximum that is too small. -/
theorem exists_underReports (h : s.ReachedBy fun _ _ => True) (hhalted : s.system.core.halted = none)
    (happ : s.system.inApp = true) {waitTime : BitVec 16} {waited : ℕ}
    (hp : s.point s.system.currentTask = some (.compare m waitTime waited))
    (hwaited : ¬ s.Recordable m waited) :
    ∃ s' : StatsMachine c S, (s'.ReachedBy fun _ _ => True) ∧ ¬ NeverUnderReports s' := by
  obtain ⟨-, -, htime⟩ := h.sound.point _ _ hp
  rw [recordable_iff htime] at hwaited
  have hstep := step_of_point hhalted happ hp
  simp only [next] at hstep
  split_ifs at hstep with hlt
  · have hlt : s.maxWaitTime m < waitTime.toNat := hlt
    rw [max_eq_right hlt.le] at hwaited
    have hp' : (goto (some (.store m waitTime waited)) s).point s.system.currentTask =
        some (.store m waitTime waited) := Function.update_self _ _ _
    have hstore := step_of_point (s := goto (some (.store m waitTime waited)) s) hhalted happ hp'
    refine ⟨_, (h.next trivial hstep).next trivial hstore, fun hreports => hwaited ?_⟩
    have hmax := hreports.1 m waited (by simp)
    simpa using hmax
  · have hle : waitTime.toNat ≤ s.maxWaitTime m := not_lt.mp hlt
    rw [max_eq_left hle] at hwaited
    exact ⟨_, h.next trivial hstep, fun hreports => hwaited (hreports.1 m waited (by simp))⟩

/-! ### A long wait -/

/-- While the current task does nothing but `yield`, nothing happens but that ticks are processed. -/
structure Idling (s : StatsMachine c S) : Prop where
  halted : s.system.core.halted = none
  phase : s.system.core.phase = .task
  pc : s.system.core.pc s.system.core.currentTask = .app
  point : s.point s.system.core.currentTask = none
  timerPendingTicks : s.system.core.timerPendingTicks = 0
  interruptEvent : ∀ i, s.system.core.interruptEvent i = false
  timers : ∀ i, (s.system.core.timers i).enabled = false
  schedGetNext : S.schedGetNext 9 s.system.core.sched =
    some (some s.system.core.currentTask.val, s.system.core.sched)
  preemptive : c.preemptive = false

/-- The state some ticks later, when nothing else has happened. -/
def after (n : ℕ) (s : StatsMachine c S) : StatsMachine c S :=
  { s with system := s.system.onCore fun k => { k with
      timerCurrentTicks := k.timerCurrentTicks + BitVec.ofNat 32 n
      processed := k.processed + n } }

theorem Idling.after (h : Idling s) (n : ℕ) : Idling (after n s) :=
  ⟨h.halted, h.phase, h.pc, h.point, h.timerPendingTicks, h.interruptEvent, h.timers, h.schedGetNext,
    h.preemptive⟩

theorem after_succ (n : ℕ) (s : StatsMachine c S) : after (n + 1) s = after 1 (after n s) := by
  simp [StatsMachine.after, State.onCore, BitVec.ofNat_add, BitVec.add_assoc, Nat.add_assoc]

/-- A turn of the task that yields, with a tick. -/
def tickTurn : List (Act c) :=
  (.kernel .timerTick :: .call (.core .yield) :: reschedule).map .system

theorem Idling.tick (h : Idling s) (hs : Sound s) :
    run step (fun _ _ => true) tickTurn s = some (StatsMachine.after 1 s) := by
  have hpoint (t : c.TaskId) : (s.point t).map (afterLoop (s.system.core.pc t)) = s.point t := by
    cases hp : s.point t with
    | none => rfl
    | some p => exact congrArg some (afterLoop_eq (hs.point t p hp))
  obtain ⟨⟨⟨sched, currentTask, phase, pc, signals, timers, ticks, pending, events, handlers, halted,
    processed, history⟩, mutexes, mutexWaiters, semaphores, semWaiters, queues, queueWaiters, memory⟩,
    enabled, stats, point, waits⟩ := s
  obtain ⟨hhalted, hphase, hpc, hnone, hpending, hevents, htimers, hnext, hpreemptive⟩ := h
  dsimp only at hhalted hphase hpc hnone hpending hevents htimers hnext hpoint
  subst hhalted hphase hpending
  simp [tickTurn, reschedule, run, step, takes, inApp, State.inApp, State.step, State.call, State.currentTask,
    Core.act, Core.call, timerTick, getNext, interruptEventProcess_of_none, timerTickProcess_of_disabled,
    countTick, Core.schedGetNext, StatsMachine.after, State.onCore, hpoint, hpc, hnone, hevents, htimers, hnext,
    hpreemptive]

theorem Idling.reachedBy (h : Idling s) (hs : s.ReachedBy fun _ _ => True) :
    ∀ n, (StatsMachine.after n s).ReachedBy fun _ _ => True
  | 0 => by
    have hzero : StatsMachine.after 0 s = s := by simp [StatsMachine.after, State.onCore]
    rwa [hzero]
  | n + 1 => by
    obtain ⟨memory, hn⟩ := h.reachedBy hs n
    rw [after_succ]
    exact ⟨memory, hn.of_run (fun _ _ _ _ => trivial) ((h.after n).tick (ReachedBy.sound ⟨memory, hn⟩))⟩

abbrev twoTasks : Config := .plain 2 1 0 0 false false Nat.two_pos

/-- The first task locks the mutex, then the second one waits for it. -/
def contention : List (Act twoTasks) :=
  Act.enable true :: .mutexLock 0 :: .next :: .next :: .system (.call (.core .yield)) ::
    reschedule.map .system ++ Act.mutexLock 0 :: .next :: reschedule.map .system

/-- The first task unlocks it, and the second one goes on until its wait is recorded. -/
def handover : List (Act twoTasks) :=
  Act.system (.call (.mutex (.unlock 0))) :: .system (.call (.core .yield)) :: reschedule.map .system ++
    [Act.system .resume, .next]

abbrev TwoTasks := StatsMachine twoTasks (rigelSched 2 1 Nat.two_pos)

def contended : TwoTasks := (run step (fun _ _ => true) contention (start fun _ => 0)).getD (start fun _ => 0)

theorem run_contention :
    run step (fun _ _ => true) contention (start fun _ => 0 : TwoTasks) = some contended := by
  have hsome : (run step (fun _ _ => true) contention (start fun _ => 0 : TwoTasks)).isSome = true := by
    decide +kernel
  obtain ⟨s, hs⟩ := Option.isSome_iff_exists.mp hsome
  rw [contended, hs, Option.getD_some]

theorem idling_contended : Idling contended :=
  ⟨rfl, rfl, rfl, rfl, rfl, nofun, by decide +kernel, rfl, rfl⟩

/-- The wait that is about to be compared, if there is one, fits into 16 bits. -/
def fitsCheck (a : Act c) (s : StatsMachine c S) : Bool :=
  match a, s.point s.system.currentTask with
  | .next, some (.compare _ _ waited) => decide (waited ≤ 65535)
  | _, _ => true

/-- A wait of one tick is recorded. -/
theorem neverUnderReports_contended :
    ∃ s : TwoTasks, s.waits 0 = [1] ∧ s.maxWaitTime 0 = 1 ∧ NeverUnderReports s := by
  obtain ⟨s, hs, hp⟩ := exists_reachedBy_of_run (S := rigelSched 2 1 Nat.two_pos) Fits
    fitsCheck
    (contention ++ tickTurn ++ handover ++ [Act.next, .next])
    (fun s => decide (s.waits 0 = [1] ∧ s.maxWaitTime 0 = 1))
    (fun a _ s hcheck m waitTime waited ha hpoint => .inl (by simpa [fitsCheck, ha, hpoint] using hcheck))
    (by decide +kernel)
  obtain ⟨hwaits, hmax⟩ := of_decide_eq_true hp
  exact ⟨s, hwaits, hmax, neverUnderReports s hs⟩

/-- A wait of `2 ^ 16` ticks is recorded as none at all. -/
theorem not_neverUnderReports : ¬ ∀ (c : Config) (S : Sched c.tasks c.mutexes) (s : StatsMachine c S),
    (s.ReachedBy fun _ _ => True) → NeverUnderReports s := by
  intro h
  have hcontended : contended.ReachedBy fun _ _ => True :=
    ⟨_, Reach.of_run .start (fun _ _ _ _ => trivial) run_contention⟩
  obtain ⟨memory, hlong⟩ := idling_contended.reachedBy hcontended 65536
  have hrun : (run step (fun _ _ => true) handover (after 65536 contended)).any (fun s =>
      s.system.core.halted.isNone && s.system.inApp && decide (s.maxWaitTime 0 = 0) &&
        decide (s.point s.system.currentTask = some (.compare 0 0 65536))) = true := by
    decide +kernel
  cases hend : run step (fun _ _ => true) handover (after 65536 contended) with
  | none => simp [hend] at hrun
  | some s =>
    simp only [hend, Option.any_some, Bool.and_eq_true, Option.isNone_iff_eq_none, decide_eq_true_eq] at hrun
    obtain ⟨⟨⟨hhalted, happ⟩, hmax⟩, hpoint⟩ := hrun
    have hreached : s.ReachedBy fun _ _ => True := ⟨memory, hlong.of_run (fun _ _ _ _ => trivial) hend⟩
    obtain ⟨s', hs', hunder⟩ := exists_underReports hreached hhalted happ hpoint (by simp [Recordable, hmax])
    exact hunder (h _ _ s' hs')

end StatsMachine

end Echronos
