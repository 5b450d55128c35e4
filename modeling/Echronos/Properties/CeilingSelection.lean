import Echronos.Schemes.Run
import Echronos.Schemes.Sentinel
import Echronos.Variants.PrioCeiling
import Mathlib.Algebra.Group.Nat.Defs
import Mathlib.Order.Bounds.Defs

/-! # What the scheduler of Phact selects

    The effective priority of a task is the highest of its own priority and the ceilings of the
    mutexes it holds, which `locked_by` records. While some task is runnable, `sched_get_next` returns
    the one of highest effective priority. Without one its loop runs through, and what it returns is
    the number of the last entry of the queue: the branch that would return `TASK_ID_NONE` is
    missing. -/

namespace Echronos.PrioCeiling

open Schemes

variable {tasks mutexes : ℕ} (T : CeilingTables tasks mutexes)

/-- The functions that write `sched_queue`. -/
inductive Call (tasks mutexes : ℕ) where
  | setRunnable (t : Fin tasks)
  | setBlocked (t : Fin tasks)
  | setMutexLockedBy (m : Fin mutexes) (t : Fin tasks)
  | setMutexUnlocked (m : Fin mutexes)

def Call.perform : Call tasks mutexes → State tasks mutexes → State tasks mutexes
  | .setRunnable t => schedSetRunnable T t
  | .setBlocked t => schedSetBlocked T t
  | .setMutexLockedBy m t => schedSetMutexLockedBy T m t
  | .setMutexUnlocked m => schedSetMutexUnlocked T m

/-- `sched_queue` as it is initialised. -/
def initial : State tasks mutexes := fun _ => none

/-- The queues that calls lead to, in any order and with any arguments. -/
def Reached : State tasks mutexes → Prop :=
  Schemes.Reach (fun call s => some (Call.perform T call s)) (fun _ _ => True) initial

def Runnable (s : State tasks mutexes) (t : Fin tasks) : Prop :=
  s (taskToIndex T t) = some (taskToIndex T t)

/-- The task that `locked_by` of a mutex refers to. -/
def holder (s : State tasks mutexes) (m : Fin mutexes) : Option (Fin tasks) :=
  (s (mutexToIndex T m)).bind fun i => (T.index.symm i).getLeft?

/-- `p` is the highest of the priority of `t` and the ceilings of the mutexes it holds. -/
def EffectivePriority (s : State tasks mutexes) (t : Fin tasks) (p : ℕ) : Prop :=
  IsGreatest {q | Schemes.Effective (fun t => T.priority (.inl t)) (fun m => T.priority (.inr m))
    (holder T s) t q} p

/-- No other runnable task has as high an effective priority as `t`. -/
def Highest (s : State tasks mutexes) (t : Fin tasks) : Prop :=
  ∃ p, EffectivePriority T s t p ∧
    ∀ u q, Runnable T s u → u ≠ t → EffectivePriority T s u q → q < p

/-- What `sched_get_next` returns, cast to `TaskIdOption`, for a `taskid_size` of `w`. -/
def schedGetNextId (w : ℕ) (pos : 0 < tasks) (s : State tasks mutexes) : BitVec w :=
  BitVec.ofNat w (schedGetNext T pos s)

/-- The number that `index_to_mutex_task` has for the last entry of the queue. -/
def lastEntry (pos : 0 < tasks) : ℕ :=
  indexToMutexTask T ⟨tasks + mutexes - 1, by omega⟩

/-- `sched_get_next` is right about `s`. -/
structure Selects (w : ℕ) (pos : 0 < tasks) (s : State tasks mutexes) : Prop where
  highest : (∃ t, Runnable T s t) →
    ∃ t : Fin tasks, schedGetNextId T w pos s = BitVec.ofNat w t ∧ Runnable T s t ∧ Highest T s t
  none_iff : schedGetNextId T w pos s = idNone w ↔ ∀ t, ¬ Runnable T s t

variable {T}

/-- In every queue reached, entries of tasks refer to themselves and entries of mutexes to tasks. -/
theorem Reached.exists_queueOf {s : State tasks mutexes} (h : Reached T s) :
    ∃ holder, QueueOf T holder s := by
  refine h.invariant (I := fun s => ∃ holder, QueueOf T holder s)
    ⟨fun _ => none, fun _ => rfl, fun _ => .inl rfl⟩ ?_
  rintro s call s' - ⟨holder, hq⟩ - hstep
  obtain rfl := Option.some.inj hstep
  cases call with
  | setRunnable t => exact ⟨_, hq.setRunnable t⟩
  | setBlocked t => exact ⟨_, hq.setBlocked t⟩
  | setMutexLockedBy m t => exact ⟨_, hq.setMutexLockedBy m t⟩
  | setMutexUnlocked m => exact ⟨_, hq.setMutexUnlocked m⟩

theorem QueueOf.holder_eq {hold : Fin mutexes → Option (Fin tasks)} {s : State tasks mutexes}
    (h : QueueOf T hold s) : holder T s = hold := by
  funext m
  rw [holder, h.mutex m]
  cases hold m <;> simp [taskToIndex]

theorem Reached.queueOf {s : State tasks mutexes} (h : Reached T s) : QueueOf T (holder T s) s := by
  obtain ⟨hold, hq⟩ := h.exists_queueOf
  rwa [hq.holder_eq]

theorem runnable_iff {s : State tasks mutexes} {t : Fin tasks} :
    Runnable T s t ↔ link T s t = some t := by
  simp [Runnable, link]

/-- Only the entry of a runnable task lets itself run. -/
theorem QueueOf.exists_runnable {hold : Fin mutexes → Option (Fin tasks)} {s : State tasks mutexes}
    (h : QueueOf T hold s) {i j : Fin (tasks + mutexes)} (hij : Serves s i j) :
    ∃ t, j = taskToIndex T t ∧ Runnable T s t := by
  obtain ⟨a, rfl⟩ := T.index.surjective j
  cases a with
  | inl t => exact ⟨t, rfl, hij.2⟩
  | inr m =>
    obtain ⟨u, -, hu⟩ := Option.map_eq_some_iff.mp ((h.mutex m).symm.trans hij.2)
    exact absurd hu (taskToIndex_ne_mutexToIndex T u m)

theorem priority_injective : Function.Injective T.priority := by
  intro a b hab
  rcases lt_trichotomy (T.index a) (T.index b) with hlt | heq | hlt
  · exact absurd ((T.index_lt_iff a b).mp hlt) (by simp [hab])
  · exact T.index.injective heq
  · exact absurd ((T.index_lt_iff b a).mp hlt) (by simp [hab])

/-- The entry at which the loop ends is that of the highest effective priority of all. -/
theorem QueueOf.highest {s : State tasks mutexes} (h : QueueOf T (holder T s) s)
    {a : Fin tasks ⊕ Fin mutexes} {t : Fin tasks} (ha : Serves s (T.index a) (taskToIndex T t))
    (hmin : ∀ i j, Serves s i j → T.index a ≤ i) : Highest T s t := by
  -- what other entries let run has at most the priority of this one
  have hle : ∀ u q, Runnable T s u → Schemes.Effective (fun t => T.priority (.inl t))
      (fun m => T.priority (.inr m)) (holder T s) u q → ∃ b, q = T.priority b ∧
        Serves s (T.index b) (taskToIndex T u) ∧ T.priority b ≤ T.priority a := by
    intro u q hu hq
    obtain ⟨b, rfl, hb⟩ := h.serves (runnable_iff.mp hu) hq
    refine ⟨b, rfl, hb, ?_⟩
    by_contra hlt
    exact absurd (hmin _ _ hb) (not_le_of_gt ((T.index_lt_iff b a).mpr (not_le.mp hlt)))
  refine ⟨T.priority a, ⟨h.effective ha.1, ?_⟩, ?_⟩
  · intro q hq
    obtain ⟨b, rfl, -, hb⟩ := hle t q ha.2 hq
    exact hb
  · rintro u q hu hut ⟨hq, -⟩
    obtain ⟨b, rfl, hserves, hb⟩ := hle u q hu hq
    refine lt_of_le_of_ne hb fun heq => hut ?_
    -- one entry lets one task run
    obtain rfl := priority_injective heq
    simpa using hserves.1.symm.trans ha.1

/-- The loop that finds nothing ends at the last entry. -/
theorem search_getLast {s : State tasks mutexes} (hnone : ∀ i j, ¬ Serves s i j) :
    ∀ (idxs : List (Fin (tasks + mutexes))) (d : Fin (tasks + mutexes)),
    search s d idxs = idxs.getLastD d
  | [], _ => rfl
  | idx :: rest, d => by
    rw [search, List.getLastD_cons]
    split
    · exact search_getLast hnone rest idx
    · rename_i nextIdx hnext
      have hself : nextIdx ≠ idx := by
        rintro rfl
        exact hnone _ _ ⟨hnext, hnext⟩
      have hrun : s nextIdx ≠ some nextIdx := fun hrun => hnone _ _ ⟨hnext, hrun⟩
      rw [if_neg hself, if_neg hrun]
      exact search_getLast hnone rest idx

theorem schedGetNext_of_blocked {s : State tasks mutexes} (h : QueueOf T (holder T s) s)
    (pos : 0 < tasks) (hblocked : ∀ t, ¬ Runnable T s t) :
    schedGetNext T pos s = lastEntry T pos := by
  have hnone : ∀ i j, ¬ Serves s i j := by
    intro i j hij
    obtain ⟨t, -, ht⟩ := h.exists_runnable hij
    exact hblocked t ht
  have hlast : ∀ (n : ℕ) (d : Fin n) (hn : 0 < n),
      (List.finRange n).getLastD d = ⟨n - 1, Nat.sub_lt hn Nat.one_pos⟩ := by
    intro n d hn
    obtain ⟨m, rfl⟩ := Nat.exists_eq_add_one_of_ne_zero hn.ne'
    simp [List.finRange_succ_last, List.getLastD_eq_getLast?, Fin.last]
  rw [schedGetNext, search_getLast hnone, hlast _ _ (Nat.add_pos_left pos mutexes), lastEntry]

theorem schedGetNext_of_runnable {s : State tasks mutexes} (h : QueueOf T (holder T s) s)
    (pos : 0 < tasks) (hrun : ∃ t, Runnable T s t) :
    ∃ t : Fin tasks, schedGetNext T pos s = t ∧ Runnable T s t ∧ Highest T s t := by
  obtain ⟨u, hu⟩ := hrun
  obtain ⟨i, -, hserves, hmin⟩ := search_serves (List.finRange (tasks + mutexes))
    ⟨0, Nat.add_pos_left pos mutexes⟩ (List.pairwise_lt_finRange _)
    ⟨_, List.mem_finRange _, _, ⟨hu, hu⟩⟩
  obtain ⟨t, ht, hrun⟩ := h.exists_runnable hserves
  obtain ⟨a, rfl⟩ := T.index.surjective i
  refine ⟨t, by simp [schedGetNext, ht, indexToMutexTask, taskToIndex], hrun, ?_⟩
  exact h.highest (ht ▸ hserves) fun i j hij => hmin i (List.mem_finRange i) j hij

/-- With task identifiers below `TASK_ID_NONE`, `sched_get_next` is right as long as some task is
    runnable. Otherwise it is right only where the number of a mutex at the end of the queue, cast to
    `TaskIdOption`, happens to be `TASK_ID_NONE`. -/
theorem selects_iff {w : ℕ} (hw : tasks < 2 ^ w) (pos : 0 < tasks) {s : State tasks mutexes}
    (h : Reached T s) :
    Selects T w pos s ↔
      (∃ t, Runnable T s t) ∨ BitVec.ofNat w (lastEntry T pos) = idNone w := by
  by_cases hrun : ∃ t, Runnable T s t
  · obtain ⟨t, hnext, ht, hhighest⟩ := schedGetNext_of_runnable h.queueOf pos hrun
    have hid : schedGetNextId T w pos s = BitVec.ofNat w t := by rw [schedGetNextId, hnext]
    refine ⟨fun _ => .inl hrun, fun _ => ⟨fun _ => ⟨t, hid, ht, hhighest⟩, ?_⟩⟩
    refine ⟨fun hnone => absurd (congrArg BitVec.toNat (hid.symm.trans hnone)) ?_,
      fun hblocked => absurd ht (hblocked t)⟩
    have htask := t.isLt
    rw [idNone, BitVec.toNat_ofNat, BitVec.toNat_allOnes, Nat.mod_eq_of_lt (by omega)]
    omega
  · have hblocked := not_exists.mp hrun
    have hid : schedGetNextId T w pos s = BitVec.ofNat w (lastEntry T pos) := by
      rw [schedGetNextId, schedGetNext_of_blocked h.queueOf pos hblocked]
    refine ⟨fun hsel => .inr (hid ▸ hsel.none_iff.mpr hblocked), fun hor => ?_⟩
    exact ⟨fun hex => absurd hex hrun,
      ⟨fun _ => hblocked, fun _ => hid.trans (hor.resolve_left hrun)⟩⟩

/-- A system of one task and no mutexes. -/
def oneTask : CeilingTables 1 0 := .ofIndex finSumFinEquiv

/-- Its queue when the task has blocked. -/
def oneBlocked : State 1 0 := schedSetBlocked oneTask 0 (schedSetRunnable oneTask 0 initial)

theorem reached_oneBlocked : Reached oneTask oneBlocked :=
  .next (.setBlocked 0) (.next (.setRunnable 0) .start trivial rfl) trivial rfl

/-- The blocked task is returned where nothing can run. -/
theorem not_selects_oneBlocked :
    Reached oneTask oneBlocked ∧ (∀ t, ¬ Runnable oneTask oneBlocked t) ∧
      schedGetNextId oneTask 8 Nat.one_pos oneBlocked = BitVec.ofNat 8 0 ∧
      ¬ Selects oneTask 8 Nat.one_pos oneBlocked := by
  have hblocked : ∀ t, ¬ Runnable oneTask oneBlocked t := by
    intro t
    obtain rfl := Fin.fin_one_eq_zero t
    simp [Runnable, oneBlocked, schedSetBlocked]
  have hnext : schedGetNextId oneTask 8 Nat.one_pos oneBlocked = BitVec.ofNat 8 0 := by decide
  exact ⟨reached_oneBlocked, hblocked, hnext, fun hsel =>
    absurd (hnext.symm.trans (hsel.none_iff.mpr hblocked)) (by decide)⟩

/-- Two tasks, of which task 1 has the higher priority, and a mutex with a ceiling above both. -/
def twoTasks : CeilingTables 2 1 := .ofIndex (finSumFinEquiv.trans Fin.revPerm)

/-- Both tasks are runnable, and task 0 holds the mutex. -/
def mutexHeld : State 2 1 :=
  schedSetMutexLockedBy twoTasks 0 0 (schedSetRunnable twoTasks 1 (schedSetRunnable twoTasks 0 initial))

theorem reached_mutexHeld : Reached twoTasks mutexHeld :=
  .next (.setMutexLockedBy 0 0) (.next (.setRunnable 1) (.next (.setRunnable 0) .start trivial rfl)
    trivial rfl) trivial rfl

/-- Task 0 runs at the ceiling of the mutex, and task 1 waits. -/
theorem selects_mutexHeld :
    Runnable twoTasks mutexHeld 0 ∧ Runnable twoTasks mutexHeld 1 ∧
      schedGetNextId twoTasks 8 Nat.two_pos mutexHeld = BitVec.ofNat 8 0 ∧
      Selects twoTasks 8 Nat.two_pos mutexHeld := by
  have hrun : ∀ t, Runnable twoTasks mutexHeld t := by
    unfold Runnable
    decide
  exact ⟨hrun 0, hrun 1, by decide,
    (selects_iff (by decide) Nat.two_pos reached_mutexHeld).mpr (.inl ⟨0, hrun 0⟩)⟩

end Echronos.PrioCeiling
