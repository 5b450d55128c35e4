import Echronos.Kernel.Config
import Echronos.Schemes.Ceiling
import Mathlib.Data.List.FinRange
import Mathlib.Logic.Equiv.Fin.Basic

/-! # Component `sched-prio-ceiling`, the scheduler of Phact

    Strict priority with the immediate ceiling protocol: tasks and mutexes share one queue, sorted
    by descending priority, in which a locked mutex refers to the entry of the task that holds it. -/

namespace Echronos

/-- The tables `configure` generates from the priorities of tasks and mutexes, which are distinct:
    `index` is `task_to_index` and `mutex_to_index` in one. -/
structure CeilingTables (tasks mutexes : ℕ) where
  priority : Fin tasks ⊕ Fin mutexes → ℕ
  index : Fin tasks ⊕ Fin mutexes ≃ Fin (tasks + mutexes)
  index_lt_iff : ∀ a b, index a < index b ↔ priority b < priority a

/-- The tables for an order of all tasks and mutexes, with consecutive priorities. -/
def CeilingTables.ofIndex {tasks mutexes : ℕ}
    (index : Fin tasks ⊕ Fin mutexes ≃ Fin (tasks + mutexes)) : CeilingTables tasks mutexes where
  priority a := tasks + mutexes - index a
  index := index
  index_lt_iff a b := by
    have ha := (index a).isLt
    have hb := (index b).isLt
    rw [Fin.lt_def]
    omega

namespace PrioCeiling

variable {tasks mutexes : ℕ} (T : CeilingTables tasks mutexes)

/-- `locked_by` of each entry of `sched_queue`. -/
abbrev State (tasks mutexes : ℕ) := Fin (tasks + mutexes) → Option (Fin (tasks + mutexes))

def taskToIndex (t : Fin tasks) : Fin (tasks + mutexes) := T.index (.inl t)
def mutexToIndex (m : Fin mutexes) : Fin (tasks + mutexes) := T.index (.inr m)

/-- `index_to_mutex_task`: the number of the task or mutex at an index. -/
def indexToMutexTask (i : Fin (tasks + mutexes)) : ℕ :=
  match T.index.symm i with
  | .inl t => t
  | .inr m => m

def schedSetRunnable (t : Fin tasks) (s : State tasks mutexes) : State tasks mutexes :=
  Function.update s (taskToIndex T t) (some (taskToIndex T t))

def schedSetBlocked (t : Fin tasks) (s : State tasks mutexes) : State tasks mutexes :=
  Function.update s (taskToIndex T t) none

def schedSetMutexLockedBy (m : Fin mutexes) (t : Fin tasks) (s : State tasks mutexes) :
    State tasks mutexes :=
  Function.update s (mutexToIndex T m) (some (taskToIndex T t))

def schedSetMutexUnlocked (m : Fin mutexes) (s : State tasks mutexes) : State tasks mutexes :=
  Function.update s (mutexToIndex T m) none

/-- The loop of `sched_get_next` over the entries from `idx` on: the final `sched_idx`. When it
    finds no runnable task this is the last entry looked at. -/
def search (s : State tasks mutexes) : Fin (tasks + mutexes) → List (Fin (tasks + mutexes)) →
    Fin (tasks + mutexes)
  | schedIdx, [] => schedIdx
  | _, idx :: rest =>
    match s idx with
    | none => search s idx rest
    | some nextIdx =>
      if nextIdx = idx then idx
      else if s nextIdx = some nextIdx then nextIdx
      else search s idx rest

/-- `sched_get_next`; its loop is bounded by the length of the queue. -/
def schedGetNext (pos : 0 < tasks) (s : State tasks mutexes) : ℕ :=
  indexToMutexTask T
    (search s ⟨0, Nat.add_pos_left pos mutexes⟩ (List.finRange (tasks + mutexes)))

def link (s : State tasks mutexes) (t : Fin tasks) : Option (Fin tasks) :=
  if s (taskToIndex T t) = some (taskToIndex T t) then some t else none

/-- The queue after `start()`: every task runnable, every mutex unlocked. -/
def start : State tasks mutexes := fun i =>
  match T.index.symm i with
  | .inl _ => some i
  | .inr _ => none

@[simp] theorem taskToIndex_inj {t u : Fin tasks} :
    taskToIndex T t = taskToIndex T u ↔ t = u := by
  simp [taskToIndex]

@[simp] theorem mutexToIndex_inj {m l : Fin mutexes} :
    mutexToIndex T m = mutexToIndex T l ↔ m = l := by
  simp [mutexToIndex]

@[simp] theorem taskToIndex_ne_mutexToIndex (t : Fin tasks) (m : Fin mutexes) :
    taskToIndex T t ≠ mutexToIndex T m := by
  simp [taskToIndex, mutexToIndex]

theorem link_start (t : Fin tasks) : link T (start T) t = some t := by
  simp [link, start, taskToIndex]

theorem link_schedSetRunnable (t : Fin tasks) (s : State tasks mutexes) :
    link T (schedSetRunnable T t s) = Function.update (link T s) t (some t) := by
  funext u
  by_cases h : u = t
  · subst h; simp [link, schedSetRunnable]
  · simp [link, schedSetRunnable, Function.update_of_ne, h]

theorem link_schedSetBlocked (t : Fin tasks) (s : State tasks mutexes) :
    link T (schedSetBlocked T t s) = Function.update (link T s) t none := by
  funext u
  by_cases h : u = t
  · subst h; simp [link, schedSetBlocked]
  · simp [link, schedSetBlocked, Function.update_of_ne, h]

theorem link_schedSetMutexLockedBy (m : Fin mutexes) (t : Fin tasks) (s : State tasks mutexes) :
    link T (schedSetMutexLockedBy T m t s) = link T s := by
  funext u
  simp [link, schedSetMutexLockedBy, Function.update_of_ne]

theorem link_schedSetMutexUnlocked (m : Fin mutexes) (s : State tasks mutexes) :
    link T (schedSetMutexUnlocked T m s) = link T s := by
  funext u
  simp [link, schedSetMutexUnlocked, Function.update_of_ne]

/-! ### What `sched_get_next` selects -/

/-- The entry at `idx` lets the task with entry `next` run. -/
def Serves (s : State tasks mutexes) (idx next : Fin (tasks + mutexes)) : Prop :=
  s idx = some next ∧ s next = some next

/-- The loop ends at the first entry that lets a task run. -/
theorem search_serves {s : State tasks mutexes} : ∀ (idxs : List (Fin (tasks + mutexes)))
    (d : Fin (tasks + mutexes)), idxs.Pairwise (· < ·) → (∃ i ∈ idxs, ∃ j, Serves s i j) →
    ∃ i ∈ idxs, Serves s i (search s d idxs) ∧ ∀ i' ∈ idxs, ∀ j, Serves s i' j → i ≤ i'
  | [], _, _, ⟨_, hi, _⟩ => absurd hi List.not_mem_nil
  | idx :: rest, d, hsorted, ⟨i, hi, j, hij⟩ => by
    obtain ⟨hlt, hrest⟩ := List.pairwise_cons.mp hsorted
    have skip (hidx : ∀ j, ¬ Serves s idx j) :
        ∃ i ∈ idx :: rest, Serves s i (search s idx rest) ∧
          ∀ i' ∈ idx :: rest, ∀ j, Serves s i' j → i ≤ i' := by
      have hmem : i ∈ rest := (List.mem_cons.mp hi).resolve_left fun h => hidx j (h ▸ hij)
      obtain ⟨i₀, hi₀, hs, hmin⟩ := search_serves rest idx hrest ⟨i, hmem, j, hij⟩
      refine ⟨i₀, List.mem_cons_of_mem _ hi₀, hs, fun i' hi' j' hj' => ?_⟩
      rcases List.mem_cons.mp hi' with rfl | hi'
      · exact absurd hj' (hidx j')
      · exact hmin i' hi' j' hj'
    have first : ∀ i' ∈ idx :: rest, ∀ j, Serves s i' j → idx ≤ i' := fun i' hi' _ _ =>
      (List.mem_cons.mp hi').elim ge_of_eq fun h => (hlt i' h).le
    rw [search]
    split
    · rename_i hnone
      exact skip fun j' hj' => absurd (hnone.symm.trans hj'.1) (by simp)
    · rename_i nextIdx hnext
      split_ifs with hself hrun
      · subst hself
        exact ⟨nextIdx, List.mem_cons_self, ⟨hnext, hnext⟩, first⟩
      · exact ⟨idx, List.mem_cons_self, ⟨hnext, hrun⟩, first⟩
      · refine skip fun j' hj' => hrun ?_
        obtain rfl : nextIdx = j' := Option.some.inj (hnext.symm.trans hj'.1)
        exact hj'.2

/-- The queue of runnable and blocked tasks when `holder` says who holds the mutexes. -/
structure QueueOf (holder : Fin mutexes → Option (Fin tasks)) (s : State tasks mutexes) : Prop where
  mutex : ∀ m, s (mutexToIndex T m) = (holder m).map (taskToIndex T)
  task : ∀ t, s (taskToIndex T t) = none ∨ s (taskToIndex T t) = some (taskToIndex T t)

variable {T} {holder : Fin mutexes → Option (Fin tasks)} {s : State tasks mutexes}

theorem QueueOf.start : QueueOf T (fun _ => none) (start T) where
  mutex m := by simp [PrioCeiling.start, mutexToIndex]
  task t := by simp [PrioCeiling.start, taskToIndex]

theorem QueueOf.setRunnable (h : QueueOf T holder s) (t : Fin tasks) :
    QueueOf T holder (schedSetRunnable T t s) where
  mutex m := by
    simpa [schedSetRunnable, (taskToIndex_ne_mutexToIndex T t m).symm] using h.mutex m
  task u := by
    by_cases hut : u = t
    · subst hut; simp [schedSetRunnable]
    · simpa [schedSetRunnable, hut] using h.task u

theorem QueueOf.setBlocked (h : QueueOf T holder s) (t : Fin tasks) :
    QueueOf T holder (schedSetBlocked T t s) where
  mutex m := by
    simpa [schedSetBlocked, (taskToIndex_ne_mutexToIndex T t m).symm] using h.mutex m
  task u := by
    by_cases hut : u = t
    · subst hut; simp [schedSetBlocked]
    · simpa [schedSetBlocked, hut] using h.task u

theorem QueueOf.setMutexLockedBy (h : QueueOf T holder s) (m : Fin mutexes) (t : Fin tasks) :
    QueueOf T (Function.update holder m (some t)) (schedSetMutexLockedBy T m t s) where
  mutex l := by
    by_cases hl : l = m
    · subst hl; simp [schedSetMutexLockedBy]
    · simpa [schedSetMutexLockedBy, hl] using h.mutex l
  task u := by simpa [schedSetMutexLockedBy] using h.task u

theorem QueueOf.setMutexUnlocked (h : QueueOf T holder s) (m : Fin mutexes) :
    QueueOf T (Function.update holder m none) (schedSetMutexUnlocked T m s) where
  mutex l := by
    by_cases hl : l = m
    · subst hl; simp [schedSetMutexUnlocked]
    · simpa [schedSetMutexUnlocked, hl] using h.mutex l
  task u := by simpa [schedSetMutexUnlocked] using h.task u

/-- The entries that let `t` run stand for its own priority and the ceilings of what it holds. -/
theorem QueueOf.effective (h : QueueOf T holder s) {a : Fin tasks ⊕ Fin mutexes} {t : Fin tasks}
    (ha : s (T.index a) = some (taskToIndex T t)) :
    Schemes.Effective (fun t => T.priority (.inl t)) (fun m => T.priority (.inr m)) holder t
      (T.priority a) := by
  cases a with
  | inl u =>
    rcases h.task u with hu | hu
    · exact absurd (hu.symm.trans ha) (by simp)
    · obtain rfl : u = t := by simpa using Option.some.inj (hu.symm.trans ha)
      exact .inl rfl
  | inr m =>
    obtain ⟨u, hu, hut⟩ := Option.map_eq_some_iff.mp ((h.mutex m).symm.trans ha)
    obtain rfl : u = t := by simpa using hut
    exact .inr ⟨m, hu, rfl⟩

/-- Conversely, every such priority of a runnable task has an entry that lets it run. -/
theorem QueueOf.serves (h : QueueOf T holder s) {t : Fin tasks} {p : ℕ}
    (ht : link T s t = some t) (hp : Schemes.Effective (fun t => T.priority (.inl t))
      (fun m => T.priority (.inr m)) holder t p) :
    ∃ a, p = T.priority a ∧ Serves s (T.index a) (taskToIndex T t) := by
  have hrun : s (taskToIndex T t) = some (taskToIndex T t) := by
    unfold link at ht
    split at ht
    · assumption
    · cases ht
  rcases hp with rfl | ⟨m, hm, rfl⟩
  · exact ⟨.inl t, rfl, hrun, hrun⟩
  · refine ⟨.inr m, rfl, ?_, hrun⟩
    have := h.mutex m
    rwa [hm] at this

/-- Only the entry of a task lets itself run. -/
theorem QueueOf.index_of_serves (h : QueueOf T holder s) {i j : Fin (tasks + mutexes)}
    (hij : Serves s i j) {t : Fin tasks} (ht : indexToMutexTask T j = t) : j = taskToIndex T t := by
  obtain ⟨a, rfl⟩ := T.index.surjective j
  cases a with
  | inl u =>
    obtain rfl : u = t := Fin.ext (by simpa [indexToMutexTask] using ht)
    rfl
  | inr m =>
    obtain ⟨u, -, hu⟩ := Option.map_eq_some_iff.mp ((h.mutex m).symm.trans hij.2)
    exact absurd hu (taskToIndex_ne_mutexToIndex T u m)

/-- A runnable task that `sched_get_next` returns has the highest effective priority. -/
theorem QueueOf.top (h : QueueOf T holder s) (pos : 0 < tasks) {t : Fin tasks}
    (ht : link T s t = some t) (hnext : schedGetNext T pos s = t) :
    Schemes.Top (fun t => T.priority (.inl t)) (fun m => T.priority (.inr m)) holder
      (fun u => link T s u = some u) t := by
  obtain ⟨_, -, hself⟩ := h.serves ht (.inl rfl)
  obtain ⟨i, -, hserves, hmin⟩ := search_serves (List.finRange (tasks + mutexes))
    ⟨0, Nat.add_pos_left pos mutexes⟩ (List.pairwise_lt_finRange _)
    ⟨_, List.mem_finRange _, _, hself⟩
  obtain ⟨a, rfl⟩ := T.index.surjective i
  have htask := h.index_of_serves hserves hnext
  rw [htask] at hserves
  intro u p hu hp
  obtain ⟨b, rfl, hb⟩ := h.serves hu hp
  refine ⟨T.priority a, h.effective hserves.1, ?_⟩
  by_contra hlt
  exact absurd (hmin _ (List.mem_finRange _) _ hb)
    (not_le_of_gt ((T.index_lt_iff b a).mpr (not_le.mp hlt)))

end PrioCeiling

open PrioCeiling in
/-- The scheduler of Phact. -/
def phactSched {tasks mutexes : ℕ} (T : CeilingTables tasks mutexes) (pos : 0 < tasks) :
    Sched tasks mutexes where
  State := PrioCeiling.State tasks mutexes
  start := PrioCeiling.start T
  schedSetRunnable := PrioCeiling.schedSetRunnable T
  schedSetBlockedOn t _ := schedSetBlocked T t
  schedSetMutexLockedBy := PrioCeiling.schedSetMutexLockedBy T
  schedSetMutexUnlocked := PrioCeiling.schedSetMutexUnlocked T
  schedGetNext _ s := some (some (PrioCeiling.schedGetNext T pos s), s)
  inherits := false
  link := PrioCeiling.link T
  link_start := PrioCeiling.link_start T
  link_setRunnable := link_schedSetRunnable T
  link_setBlockedOn t _ s := link_schedSetBlocked T t s
  link_setMutexLockedBy := link_schedSetMutexLockedBy T
  link_setMutexUnlocked := link_schedSetMutexUnlocked T
  link_getNext _ s r h := by
    obtain rfl := Option.some.inj h
    rfl

end Echronos
