import Echronos.Properties.Waits
import Echronos.Schemes.Waiters
import Echronos.Variants.Variant

/-! # Semaphores

    The waiter table is sound, with a semaphore busy while its value is `0`: `sem_post` wakes waiters
    on the edge from `0` before it increments. The maximum is another matter: `sem_max_init` checks
    that the semaphore has no maximum yet and then stores one with preemption enabled all the time,
    so a second call can store its maximum in between. While no call does, a maximum once
    initialized stays, and the value never exceeds it. -/

namespace Echronos

open Schemes

variable {c : Config} {S : Sched c.tasks c.mutexes}

/-- A call of `sem_max_init` that succeeded. -/
def Event.isMaxInit : Event c → Bool
  | .maxInit _ _ => true
  | _ => false

theorem Cont.component_of_sem {cont : Cont c} {i : c.SemId} (h : cont.sem = some i) :
    cont.component = .sem := by
  cases cont <;> first | rfl | cases h

namespace State

open Echronos.Core

theorem maxInit_mem_of_filter {h h' : List (Event c)} {i : c.SemId} {max : c.SemValue}
    (hf : h'.filter Event.isMaxInit = h.filter Event.isMaxInit) (hm : .maxInit i max ∈ h') :
    Event.maxInit i max ∈ h := by
  have : Event.maxInit i max ∈ h'.filter Event.isMaxInit := List.mem_filter.mpr ⟨hm, rfl⟩
  rw [hf] at this
  exact (List.mem_filter.mp this).1

theorem sub_one_le {w : ℕ} {v : BitVec w} (hv : v ≠ 0) : v - 1 ≤ v := by
  have hpos : v.toNat ≠ 0 := fun h => hv (BitVec.eq_of_toNat_eq (by simpa))
  have hone : (1 : BitVec w).toNat ≤ 1 := Nat.mod_le 1 _
  rw [BitVec.le_def, BitVec.toNat_sub_of_le (BitVec.le_def.mpr (by omega))]
  omega

theorem add_one_le {w : ℕ} {v m : BitVec w} (hv : v < m) : v + 1 ≤ m := by
  have hone : (1 : BitVec w).toNat ≤ 1 := Nat.mod_le 1 _
  have hadd := Nat.mod_le (v.toNat + (1 : BitVec w).toNat) (2 ^ w)
  rw [BitVec.lt_def] at hv
  rw [BitVec.le_def, BitVec.toNat_add]
  omega

/-! ### The invariant -/

structure SemSound (s : State c S) : Prop where
  waiters : WaitersSound s.semWaiters (s.core.inside Cont.sem) (fun t => s.core.taskTimerPending t)
    fun _ i => (s.semaphores i).value = 0
  le_max : c.semaphoreEnableMax → ∀ i, (s.semaphores i).value ≤ (s.semaphores i).max
  maxInit : ∀ i max, .maxInit i max ∈ s.core.history → (s.semaphores i).max = max ∧ max ≠ 0
  entered : ∀ t i max, s.core.pc t = .entered (.semMaxInit i max) → max ≠ 0

/-- Code that leaves semaphores alone and starts no wait for one. -/
theorem SemSound.frame {s s' : State c S} (hs : SemSound s) (hsem : s'.semaphores = s.semaphores)
    (hwait : s'.semWaiters = s.semWaiters)
    (hkeep : ∀ t w i, s'.core.pc t = .wait w → w.cont.sem = some i →
      s.core.pc t = .wait w ∧ (s.core.taskTimerPending t → s'.core.taskTimerPending t))
    (hhist : s'.core.history.filter Event.isMaxInit = s.core.history.filter Event.isMaxInit)
    (hent : ∀ t i max, s'.core.pc t = .entered (.semMaxInit i max) → max ≠ 0) : SemSound s' where
  waiters := by
    rw [hwait, hsem]
    refine hs.waiters.frame (fun t i ht => ?_) fun _ _ _ h => h
    obtain ⟨w, hw, hi⟩ := inside_eq_some.mp ht
    obtain ⟨hpc, hp⟩ := hkeep t w i hw hi
    exact ⟨inside_eq_some.mpr ⟨w, hpc, hi⟩, hp⟩
  le_max := by rw [hsem]; exact hs.le_max
  maxInit i max hm := by
    rw [hsem]
    exact hs.maxInit i max (maxInit_mem_of_filter hhist hm)
  entered := hent

/-- Sending signals initializes no maximum. -/
theorem wakes_maxInit {k k' : Core c S} (h : Wakes ∅ k k') :
    k'.history.filter Event.isMaxInit = k.history.filter Event.isMaxInit := by
  refine h.filter_history (fun e he => ?_) fun e he => ?_
  · cases e <;> simp_all [Event.isMaxInit, Event.Of, Event.component]
  · cases e <;> simp_all [Event.isMaxInit, Event.isSignal]

theorem SemSound.wakes {s : State c S} {k : Core c S} (hs : SemSound s) (h : Wakes ∅ s.core k) :
    SemSound { s with core := k } :=
  hs.frame rfl rfl (fun t _ _ hw _ => ⟨(h.other t).pc ▸ hw, (h.other t).signals _⟩)
    (wakes_maxInit h) fun t i max he => hs.entered t i max ((h.other t).pc ▸ he)

theorem SemSound.register {s : State c S} (hs : SemSound s) {i : c.SemId} (ha : s.core.Awake)
    (hv : (s.semaphores i).value = 0) : SemSound (semRegister i s) where
  waiters := by
    refine hs.waiters.register s.currentTask i rfl (fun p hp => ?_) (fun _ _ _ h => ⟨h, id⟩) hv
      fun _ _ _ _ h => h
    obtain ⟨w, hw, -⟩ := inside_eq_some.mp hp
    exact absurd hw (ha w)
  le_max := hs.le_max
  maxInit := hs.maxInit
  entered := hs.entered

theorem SemSound.wait {s : State c S} (hs : SemSound s) {cont : Cont c} {i : c.SemId}
    (hcont : cont.sem = some i) (hreg : s.semWaiters s.currentTask = some i) :
    SemSound { s with core := waitTaskTimer cont s.core } where
  waiters := by
    refine ⟨hs.waiters.busy, fun t j ht hp => ?_⟩
    obtain ⟨w, hw, hj⟩ := inside_eq_some.mp ht
    by_cases htc : t = s.core.currentTask
    · subst htc
      obtain rfl : (_ : Wait c) = w := by simpa [waitTaskTimer] using hw
      exact hreg.trans (hcont.symm.trans hj)
    · exact hs.waiters.registered t j
        (inside_eq_some.mpr ⟨w, by simpa [waitTaskTimer, htc] using hw, hj⟩)
        (by simpa [waitTaskTimer, taskTimerPending] using hp)
  le_max := hs.le_max
  maxInit j max hm := hs.maxInit j max (by simpa [waitTaskTimer] using hm)
  entered t j max he := by
    by_cases htc : t = s.core.currentTask
    · subst htc
      simp [waitTaskTimer] at he
    · exact hs.entered t j max (by simpa [waitTaskTimer, htc] using he)

theorem SemSound.take {s : State c S} (hs : SemSound s) {i : c.SemId}
    (hv : (s.semaphores i).value ≠ 0) : SemSound (internalSemTryWait i s).2 := by
  rw [internalSemTryWait_of_ne hv]
  refine ⟨hs.waiters.frame (fun t j ht => ⟨ht, id⟩) fun t j _ hj => ?_, fun hm j => ?_,
    fun j max hm => ?_, hs.entered⟩
  · have hne : j ≠ i := fun h => hv (h ▸ hj)
    simpa [hne] using hj
  · have hle := hs.le_max hm j
    by_cases h : j = i
    · subst h
      simpa using BitVec.le_trans (sub_one_le hv) hle
    · simpa [h] using hle
  · have hold := hs.maxInit j max (by simpa [record] using hm)
    by_cases h : j = i
    · subst h; simpa using hold
    · simpa [h] using hold

/-- The tasks woken by `sem_post`, and the waiters it leaves. -/
theorem semPost_entry {i : c.SemId} {s : State c S}
    (h : c.semaphoreEnableMax → (s.semaphores i).value < (s.semaphores i).max) (t : c.TaskId) :
    (semPost i s).core.pc = s.core.pc ∧
    (semPost i s).semWaiters t = (if (s.semaphores i).value = 0 ∧ s.semWaiters t = some i then none
      else s.semWaiters t) ∧
    (s.core.taskTimerPending t ∨ ((s.semaphores i).value = 0 ∧ s.semWaiters t = some i) →
      (semPost i s).core.taskTimerPending t) := by
  rw [semPost_eq h]
  by_cases hv : (s.semaphores i).value = 0
  · rw [if_pos hv]
    refine ⟨wakeWaiters_pc i s.semWaiters s.core, ?_, fun hw => ?_⟩
    · simpa [hv] using wakeWaiters_waiters i s.semWaiters s.core t
    · exact wakeWaiters_woken i s.semWaiters s.core (hw.imp_right And.right)
  · rw [if_neg hv]
    exact ⟨rfl, by rw [if_neg fun h => hv h.1], fun hw => hw.resolve_right fun h => hv h.1⟩

theorem semPost_maxInit {i : c.SemId} {s : State c S}
    (h : c.semaphoreEnableMax → (s.semaphores i).value < (s.semaphores i).max) :
    (semPost i s).core.history.filter Event.isMaxInit =
      s.core.history.filter Event.isMaxInit := by
  rw [semPost_eq h]
  by_cases hv : (s.semaphores i).value = 0
  · simpa [hv, record, Event.isMaxInit] using wakes_maxInit (wakeWaiters_wakes i s.semWaiters s.core)
  · rw [if_neg hv]
    simp [record, Event.isMaxInit]

theorem SemSound.post {s : State c S} (hs : SemSound s) {i : c.SemId}
    (hv : c.semaphoreEnableMax → (s.semaphores i).value < (s.semaphores i).max) :
    SemSound (semPost i s) := by
  have hpost := semPost_entry hv
  have hsem : (semPost i s).semaphores = Function.update s.semaphores i
      { s.semaphores i with value := (s.semaphores i).value + 1 } := by rw [semPost_eq hv]
  refine ⟨?_, fun hm j => ?_, fun j max hm => ?_, fun t j max he => ?_⟩
  · refine hs.waiters.wake i (fun t => ?_) (fun t p ht => ?_) (fun t hw => ?_)
      fun t p hp _ hb => ?_
    · -- only waiters of a semaphore of value `0` are registered
      rw [(hpost t).2.1]
      by_cases ht : s.semWaiters t = some i
      · simp [ht, hs.waiters.busy t i ht]
      · simp [ht]
    · obtain ⟨w, hw, hp⟩ := inside_eq_some.mp ht
      exact inside_eq_some.mpr ⟨w, (hpost t).1 ▸ hw, hp⟩
    · exact (hpost t).2.2 (hw.imp_right fun ht => ⟨hs.waiters.busy t i ht, ht⟩)
    · simpa [hsem, hp] using hb
  · rw [hsem]
    by_cases h : j = i
    · subst h
      simpa using add_one_le (hv hm)
    · simpa [h] using hs.le_max hm j
  · rw [hsem]
    have hold := hs.maxInit j max (maxInit_mem_of_filter (semPost_maxInit hv) hm)
    by_cases h : j = i
    · subst h; simpa using hold
    · simpa [h] using hold
  · exact hs.entered t j max ((hpost t).1 ▸ he)

theorem SemSound.maxStore {s : State c S} (hs : SemSound s) {i : c.SemId} {max : c.SemValue}
    (hmax : max ≠ 0) (hold : (s.semaphores i).max = 0 ∨ (s.semaphores i).max = max) :
    SemSound (semMaxStore i max s) where
  waiters := by
    refine hs.waiters.frame (fun t j ht => ⟨ht, id⟩) fun t j _ hj => ?_
    by_cases h : j = i
    · subst h; simpa [semMaxStore] using hj
    · simpa [semMaxStore, h] using hj
  le_max hm j := by
    by_cases h : j = i
    · subst h
      have hle := hs.le_max hm j
      rcases hold with h0 | h0
      · have hv : (s.semaphores j).value = 0 := by simpa [h0] using hle
        simp [semMaxStore, hv, BitVec.le_def]
      · simpa [semMaxStore, ← h0] using hle
    · simpa [semMaxStore, h] using hs.le_max hm j
  maxInit j l hm := by
    rcases List.mem_cons.mp hm with he | hmem
    · obtain ⟨rfl, rfl⟩ := Event.maxInit.inj he
      simpa [semMaxStore] using hmax
    · have hj := hs.maxInit j l hmem
      by_cases h : j = i
      · subst h
        have : max = l := by
          rcases hold with h0 | h0
          · exact absurd (hj.1.symm.trans h0) hj.2
          · exact h0.symm.trans hj.1
        simpa [semMaxStore, this] using hj.2
      · simpa [semMaxStore, h] using hj
  entered := hs.entered

/-- Every piece but the store of `sem_max_init`. -/
theorem SemSound.piece {x : Service c} {s s' : State c S} (h : Piece x s s')
    (hx : ∀ i, x ≠ .semMaxInit i) (hs : SemSound s) : SemSound s' := by
  by_cases hc : x.component = .sem
  · cases h with
    | semTake i _ hv => exact hs.take hv
    | semWait i ha hv =>
      exact (hs.register ha hv).wait rfl (by simp [semRegister, currentTask])
    | semWaitTimeout i d ha hv =>
      have hreg := hs.register ha hv
      obtain ⟨k, hk, he | he⟩ := blockTimeout_cases (semRegister i s) none (s.remaining d)
        (.semWaitTimeout i d)
      · rw [he]
        exact hreg.wakes hk
      · rw [he]
        refine (hreg.wakes hk).wait rfl ?_
        change (semRegister i s).semWaiters k.currentTask = some i
        rw [hk.currentTask]
        simp [semRegister, currentTask]
    | semPost i _ hv => exact hs.post hv
    | semMaxStore i => exact absurd rfl (hx i)
    | mutexAcquire _ m hl => exact absurd ((component_of_locks hl).symm.trans hc) (by decide)
    | _ => cases hc
  · obtain ⟨hsem, hwait⟩ := h.semaphores hc
    refine hs.frame hsem hwait (fun t w i hw hi => h.keeps hc hw (Cont.component_of_sem hi))
      (h.filter_history hc fun e he => ?_) fun t i max he => ?_
    · cases e <;> simp_all [Event.isMaxInit, Event.component]
    · rcases h.entered he with he | ⟨-, hent⟩
      · exact hs.entered t i max he
      · exact hent.1

/-- The store of `sem_max_init` does not replace another maximum. -/
def NoSecondMax (a : Act c) (s : State c S) : Prop :=
  ∀ i max, a = .resume → s.core.pc s.currentTask = .entered (.semMaxInit i max) →
    (s.semaphores i).max = 0 ∨ (s.semaphores i).max = max

/-- Only a task that has entered `sem_max_init` stores a maximum. -/
theorem step_semMaxInit {a : Act c} {s s' : State c S} (h : step a s = some s') {i : c.SemId}
    (hx : s.service a = .semMaxInit i) : a = .resume ∧ ∃ max,
      s.core.pc s.currentTask = .entered (.semMaxInit i max) ∧
      s' = semMaxStore i max (s.onCore (setPc .app)) := by
  obtain ⟨-, h⟩ := Option.ite_none_left_eq_some.mp h
  cases a with
  | kernel a => cases a <;> cases hx
  | call f => rcases f with f | f | f | f <;> cases f <;> cases hx
  | store address byte => cases hx
  | resume =>
    refine ⟨rfl, ?_⟩
    have h := (Option.ite_none_right_eq_some.mp h).2
    cases hpc : s.core.pc s.currentTask with
    | app => simp [service, hpc] at hx
    | entered e =>
      cases e with
      | semMaxInit j max =>
        obtain rfl : j = i := by simpa [service, hpc, Entry.service] using hx
        simp only [resume, hpc] at h
        exact ⟨max, rfl, (Option.some.inj h).symm⟩
      | _ => simp [service, hpc, Entry.service] at hx
    | wait w =>
      obtain ⟨r, b, blocked, cont⟩ := w
      cases cont <;> simp [service, hpc, Cont.service] at hx

theorem ReachedBy.semSound {ok : Act c → State c S → Prop} {s : State c S} (h : s.ReachedBy ok)
    (hok : ∀ a s, ok a s → NoSecondMax a s) : SemSound s := by
  obtain ⟨memory, h⟩ := h
  refine h.invariant ?_ fun s a s' _ hs ha hstep => ?_
  · exact ⟨⟨by simp [start], by simp [start, Core.start, inside]⟩, by simp [start],
      by simp [start, Core.start], by simp [start, Core.start]⟩
  · by_cases hx : ∃ i, s.service a = .semMaxInit i
    · obtain ⟨i, hx⟩ := hx
      obtain ⟨rfl, max, hpc, rfl⟩ := step_semMaxInit hstep hx
      have hleave := SemSound.piece (Piece.leave _ hpc) (by simp) hs
      exact hleave.maxStore (hs.entered _ i max hpc) (hok _ _ ha i max rfl hpc)
    · refine (step_pieces hstep).invariant (fun y t t' hy hp => .piece hp fun i hi => ?_) hs
      rcases hy with rfl | rfl
      · cases hi
      · exact hx ⟨i, hi⟩

/-- No wake-up is lost, and a maximum is respected. -/
def SemSafe (s : State c S) : Prop :=
  (∀ t i, (s.semaphores i).value ≠ 0 → s.semWaiters t ≠ some i) ∧
  (∀ t i, s.core.inside Cont.sem t = some i → ¬ s.core.taskTimerPending t →
    s.semWaiters t = some i ∧ (s.semaphores i).value = 0) ∧
  (c.semaphoreEnableMax → ∀ i max, .maxInit i max ∈ s.core.history →
    (s.semaphores i).max = max ∧ (s.semaphores i).value ≤ max)

end State

open State

/-- While no store of `sem_max_init` replaces another maximum, semaphores are safe. -/
theorem semaphores_safe (v : Variant c) (s : State c v.sched) (h : s.ReachedBy NoSecondMax) :
    s.SemSafe := by
  have hs := h.semSound fun _ _ => id
  refine ⟨fun t i hv ht => hv (hs.waiters.busy t i ht), fun t i ht hp => ?_, fun hm i max he => ?_⟩
  · have hreg := hs.waiters.registered t i ht hp
    exact ⟨hreg, hs.waiters.busy t i hreg⟩
  · obtain ⟨rfl, -⟩ := hs.maxInit i max he
    exact ⟨rfl, hs.le_max hm i⟩

/-- The event is the store of this maximum. -/
def Event.storesMax (i : c.SemId) (max : c.SemValue) : Event c → Bool
  | .maxInit i' max' => i' = i && max' = max
  | _ => false

theorem mem_of_any_storesMax {i : c.SemId} {max : c.SemValue} {l : List (Event c)}
    (h : l.any (Event.storesMax i max) = true) : .maxInit i max ∈ l := by
  obtain ⟨e, hmem, he⟩ := List.any_eq_true.mp h
  cases e with
  | maxInit i' max' =>
    obtain ⟨rfl, rfl⟩ : i' = i ∧ max' = max := by simpa [Event.storesMax] using he
    exact hmem
  | _ => cases he

/-- A low-priority task is preempted in `sem_max_init`, by a task that initializes the maximum with
    another value and posts. -/
def racingMaxInits : List (Act (.plain 2 0 1 0 true true Nat.two_pos)) :=
  Act.call (.core (.sleep 1)) :: reschedule ++
    [Act.call (.sem (.maxInit 0 1)), .kernel .timerTick, .kernel .preempt] ++ reschedule ++
    [Act.resume, .call (.sem (.maxInit 0 2)), .resume, .call (.sem (.post 0)), .call (.sem (.post 0)),
      .call (.core (.sleep 1))] ++ reschedule ++ [Act.resume]

/-- The maximum `2` of an initialized semaphore of value `2` is replaced by `1`. -/
theorem racing_max_inits_unsafe :
    ¬ ∀ s : State (.plain 2 0 1 0 true true Nat.two_pos) (kochabSched 2 0),
      s.Reached → s.SemSafe := by
  intro hsafe
  obtain ⟨s, hs, hp⟩ := exists_reached_of_run
    (c := .plain 2 0 1 0 true true Nat.two_pos) (S := kochabSched 2 0) racingMaxInits
    (fun s => s.core.history.any (Event.storesMax 0 2) && (s.semaphores 0).max = 1) (by decide +kernel)
  obtain ⟨hany, hmax⟩ := Bool.and_eq_true_iff.mp hp
  obtain ⟨h2, -⟩ := (hsafe s hs).2.2 rfl 0 2 (mem_of_any_storesMax hany)
  exact absurd ((of_decide_eq_true hmax).symm.trans h2) (by decide)

/-- Task 0 initializes the maximum of a semaphore and waits for it. -/
def waitingOnSemaphore : List (Act (.plain 2 0 1 0 true true Nat.two_pos)) :=
  [Act.call (.sem (.maxInit 0 2)), .resume, .call (.sem (.wait 0))] ++ reschedule

/-- Task 1 posts it, and task 0 goes on. -/
def posting : List (Act (.plain 2 0 1 0 true true Nat.two_pos)) :=
  waitingOnSemaphore ++ [Act.call (.sem (.post 0)), .kernel .preempt] ++ reschedule ++ [Act.resume]

/-- The last event is that task 0 took the semaphore. -/
def tookLast (s : State (.plain 2 0 1 0 true true Nat.two_pos) Variant.kochab.sched) : Bool :=
  match s.core.history with
  | .took t i :: _ => t = 0 && i = 0
  | _ => false

/-- No maximum replaces another one. -/
def storesFirstMax (_ : Act (.plain 2 0 1 0 true true Nat.two_pos))
    (s : State (.plain 2 0 1 0 true true Nat.two_pos) Variant.kochab.sched) : Bool :=
  match s.core.pc s.currentTask with
  | .entered (.semMaxInit i _) => (s.semaphores i).max = 0
  | _ => true

theorem noSecondMax_of_storesFirstMax {a : Act (.plain 2 0 1 0 true true Nat.two_pos)}
    {s : State (.plain 2 0 1 0 true true Nat.two_pos) Variant.kochab.sched}
    (h : storesFirstMax a s = true) : NoSecondMax a s := by
  intro i max _ hpc
  rw [storesFirstMax, hpc] at h
  exact .inl (of_decide_eq_true h)

/-- Task 0 waits for the semaphore until task 1 posts it, and takes it then. -/
theorem semaphores_safe_posted :
    (∃ s : State (.plain 2 0 1 0 true true Nat.two_pos) Variant.kochab.sched,
      s.currentTask = 1 ∧ s.core.inside Cont.sem 0 = some 0 ∧
        s.semWaiters 0 = some 0 ∧ (s.semaphores 0).value = 0) ∧
    ∃ s : State (.plain 2 0 1 0 true true Nat.two_pos) Variant.kochab.sched,
      tookLast s = true ∧ .maxInit 0 2 ∈ s.core.history ∧
        (s.semaphores 0).max = 2 ∧ (s.semaphores 0).value ≤ 2 := by
  constructor
  · obtain ⟨s, hs, hp⟩ := exists_reachedBy_of_run NoSecondMax storesFirstMax waitingOnSemaphore
      (fun s => s.currentTask = 1 ∧ s.core.inside Cont.sem 0 = some 0 ∧ ¬ s.core.taskTimerPending 0)
      (fun _ _ _ => noSecondMax_of_storesFirstMax) (by decide +kernel)
    obtain ⟨hcurrent, hinside, hpending⟩ := of_decide_eq_true hp
    exact ⟨s, hcurrent, hinside, (semaphores_safe _ s hs).2.1 0 0 hinside hpending⟩
  · obtain ⟨s, hs, hp⟩ := exists_reachedBy_of_run NoSecondMax storesFirstMax posting
      (fun s => tookLast s && s.core.history.any (Event.storesMax 0 2))
      (fun _ _ _ => noSecondMax_of_storesFirstMax) (by decide +kernel)
    obtain ⟨htook, hany⟩ := Bool.and_eq_true_iff.mp hp
    have hmem := mem_of_any_storesMax hany
    exact ⟨s, htook, hmem, (semaphores_safe _ s hs).2.2 rfl 0 2 hmem⟩

end Echronos
