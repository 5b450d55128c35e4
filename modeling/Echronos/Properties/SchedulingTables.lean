import Echronos.Configure.Queue
import Echronos.Schemes.Counter

/-! # The scheduling tables of Phact

    The template of the priority-ceiling scheduler renders `task_to_index`, `mutex_to_index` and
    `index_to_mutex_task` with the index type that `configure` chooses. With unique priorities the
    tables are consistent for all numbers of tasks and mutexes for which that type has an index for
    every entry, except for none at all, when `sched_max_index()` is the sentinel. -/

namespace Echronos.Configure.Phact

open Schemes

/-- The number of a task or mutex: `idx`. -/
def number {tasks mutexes : ℕ} : Fin tasks ⊕ Fin mutexes → ℕ
  | .inl t => t
  | .inr m => m

def MutexTask.idx : MutexTask → ℕ
  | task t => t.idx
  | mutex m => m.idx

namespace Config

variable (config : Config)

/-- The `sched_idx` that the entry of a task or mutex has. -/
def schedIdx (a : Fin config.tasks.length ⊕ Fin config.mutexes.length) : Option ℕ :=
  (config.mutexTasks.find? (·.entry = entryOf config a)).map (·.schedIdx)

/-- The element of `task_to_index` or `mutex_to_index` for a task or mutex. -/
def toIndex (a : Fin config.tasks.length ⊕ Fin config.mutexes.length) :
    Option (BitVec config.schedindexSize) :=
  (config.schedIdx a).map (BitVec.ofNat _)

/-- `index_to_mutex_task` -/
def indexToMutexTask : List (BitVec config.schedindexSize) :=
  config.mutexTasks.map fun mt => BitVec.ofNat _ mt.entry.idx

/-- `SCHED_INDEX_NONE` -/
def schedIndexNone : BitVec config.schedindexSize := BitVec.allOnes _

/-- `sched_max_index()` -/
def schedMaxIndex : BitVec config.schedindexSize := BitVec.ofNat _ config.mutexTasksLength - 1

/-- The condition `idx <= sched_max_index()` of the loop in `sched_get_next`. -/
def schedLoop (idx : BitVec config.schedindexSize) : Bool := decide (idx ≤ config.schedMaxIndex)

/-- What the scheduler relies on. -/
structure TablesConsistent : Prop where
  /-- The entries of tasks and mutexes are numbered in the order of descending priority. -/
  sorted : ∃ f : Fin config.tasks.length ⊕ Fin config.mutexes.length ≃ Fin config.mutexTasksLength,
    (∀ a, config.schedIdx a = some (f a).val) ∧
    ∀ a b, f a < f b ↔ (entryOf config b).priority < (entryOf config a).priority
  inverse : ∀ a, ∃ idx id, config.toIndex a = some idx ∧
    config.indexToMutexTask[idx.toNat]? = some id ∧ id.toNat = number a
  /-- Indices fit their type and are none of them the sentinel. -/
  lt_none : ∀ a idx, config.schedIdx a = some idx → idx < config.schedIndexNone.toNat
  /-- The loop ends, and visits each entry once. -/
  visitsEach : VisitsEach config.mutexTasksLength config.schedLoop
  timer : ∀ t ∈ config.tasks,
    t.timer.task = some t.entry.name ∧ config.timers[t.timer.idx]? = some t.timer

end Config

variable {xml : XmlConfig}

theorem length_tasks : (configure xml).tasks.length = xml.tasks.length := by
  simp [configure]

theorem length_mutexes : (configure xml).mutexes.length = xml.mutexes.length := by
  simp [configure]

theorem mutexTasksLength_eq : (configure xml).mutexTasksLength =
    (configure xml).tasks.length + (configure xml).mutexes.length := by
  simp [configure]

/-- The table is only searched for entries that are in it, each once. -/
theorem schedIdx_eq (a : Fin (configure xml).tasks.length ⊕ Fin (configure xml).mutexes.length) :
    (configure xml).schedIdx a = some (index xml a).val := by
  have hmem := List.mem_of_getElem? (mutexTasks_index a)
  cases hfind : (configure xml).mutexTasks.find? (·.entry = entryOf (configure xml) a) with
  | none => exact absurd (List.find?_eq_none.mp hfind _ hmem) (by simp)
  | some mt =>
    rw [Config.schedIdx, hfind, Option.map_some]
    have hentry : mt.entry = entryOf (configure xml) a := by
      simpa using List.find?_some hfind
    have hnodup : ((configure xml).mutexTasks.map (·.entry)).Nodup :=
      queue_perm.nodup_iff.mpr nodup_entries
    rw [List.inj_on_of_nodup_map hnodup (List.mem_of_find?_eq_some hfind) hmem hentry]

theorem idx_entryOf (a : Fin (configure xml).tasks.length ⊕ Fin (configure xml).mutexes.length) :
    (entryOf (configure xml) a).idx = number a := by
  cases a with
  | inl t =>
    have ht := congrArg (·[t.val]?) (@tasks_idx xml)
    simpa [entryOf, MutexTask.idx, number] using ht
  | inr m =>
    have hm := congrArg (·[m.val]?) (@mutexes_idx xml)
    simpa [entryOf, MutexTask.idx, number] using hm

theorem number_lt {tasks mutexes : ℕ} (a : Fin tasks ⊕ Fin mutexes) :
    number a < tasks + mutexes := by
  cases a with
  | inl t => exact t.isLt.trans_le (Nat.le_add_right _ _)
  | inr m => exact m.isLt.trans_le (Nat.le_add_left _ _)

/-- The width is chosen such that the sentinel is greater than every index. -/
theorem lt_two_pow_schedindexSize {n : ℕ} : n < 2 ^ schedindexSize n ↔ n < 2 ^ 32 := by
  unfold schedindexSize
  split_ifs <;> omega

theorem timers_eq : (configure xml).timers =
    addIndex xml.timers ++ (configure xml).tasks.map (·.timer) := by
  simp only [configure, createTaskTimers_timers]

theorem timers_idx : (configure xml).timers.map (·.idx) =
    List.range (configure xml).timers.length := by
  have hidx := @createTaskTimers_timer_idx _ XmlTask.name 0
    (sortByPriority XmlTask.priority xml.tasks) _ (addIndex_idx xml.timers)
  exact hidx.trans (by simp [configure, createTaskTimers_timers])

theorem timer_of_mem_tasks {t : Task XmlTask} (ht : t ∈ (configure xml).tasks) :
    t.timer.task = some t.entry.name ∧ (configure xml).timers[t.timer.idx]? = some t.timer := by
  obtain ⟨i, hi⟩ := createTaskTimers_timer 0 _ _ t ht
  refine ⟨by rw [hi]; rfl, getElem?_idx timers_idx ?_⟩
  rw [timers_eq]
  exact List.mem_append_right _ (List.mem_map_of_mem ht)

/-- The tables are consistent exactly if there are entries, and fewer than 32 bits can count. -/
theorem tablesConsistent_iff (h : UniquePriorities xml) : (configure xml).TablesConsistent ↔
    0 < xml.tasks.length + xml.mutexes.length ∧ xml.tasks.length + xml.mutexes.length < 2 ^ 32 := by
  have hlen : (configure xml).mutexTasksLength = xml.tasks.length + xml.mutexes.length := by
    rw [mutexTasksLength_eq, length_tasks, length_mutexes]
  have hwidth : (configure xml).mutexTasksLength < 2 ^ (configure xml).schedindexSize ↔
      xml.tasks.length + xml.mutexes.length < 2 ^ 32 := by
    rw [← hlen]
    exact lt_two_pow_schedindexSize
  have hvisits : VisitsEach (configure xml).mutexTasksLength (configure xml).schedLoop ↔
      0 < xml.tasks.length + xml.mutexes.length ∧
        xml.tasks.length + xml.mutexes.length < 2 ^ 32 := by
    rw [← hwidth, ← hlen]
    exact visitsEach_le
  refine ⟨fun hc => hvisits.mp hc.visitsEach, fun hbounds => ?_⟩
  have hlt := hwidth.mpr hbounds.2
  have hindex : ∀ a, (index xml a).val < (configure xml).mutexTasksLength := fun a =>
    (index xml a).isLt.trans_eq mutexTasksLength_eq.symm
  refine ⟨⟨(index xml).trans (finCongr mutexTasksLength_eq.symm), schedIdx_eq, ?_⟩, ?_, ?_,
    hvisits.mpr hbounds, fun t => timer_of_mem_tasks⟩
  · intro a b
    exact index_lt_iff h a b
  · intro a
    refine ⟨_, BitVec.ofNat _ (number a), by rw [Config.toIndex, schedIdx_eq]; rfl, ?_, ?_⟩
    · rw [BitVec.toNat_ofNat, Nat.mod_eq_of_lt ((hindex a).trans hlt), Config.indexToMutexTask,
        List.getElem?_map, mutexTasks_index, Option.map_some, idx_entryOf]
    · rw [BitVec.toNat_ofNat, Nat.mod_eq_of_lt]
      exact ((number_lt a).trans_eq mutexTasksLength_eq.symm).trans hlt
  · intro a idx ha
    obtain rfl := Option.some.inj ((schedIdx_eq a).symm.trans ha)
    rw [Config.schedIndexNone, BitVec.toNat_allOnes]
    have := hindex a
    omega

/-- A system description without tasks, which the schema accepts. -/
def noTasks : XmlConfig where
  signalsetSize := 8
  namePrefix := none
  signalLabels := []
  tasks := []
  timers := []
  mutexes := []

/-- The loop does not end at the last of no entries. -/
theorem not_tablesConsistent_noTasks :
    UniquePriorities noTasks ∧ ¬ (configure noTasks).TablesConsistent ∧
      ∀ idx, (configure noTasks).schedLoop idx = true := by
  refine ⟨List.nodup_nil, fun hc => ?_, by decide⟩
  exact absurd (visitsEach_le.mp hc.visitsEach).1 (lt_irrefl 0)

/-- Two tasks and a mutex, listed in no order. -/
def twoTasks : XmlConfig where
  signalsetSize := 8
  namePrefix := some "rtos"
  signalLabels := ["rx"]
  tasks := [⟨"low", 1⟩, ⟨"high", 10⟩]
  timers := []
  mutexes := [⟨"bus", 5⟩]

theorem tablesConsistent_twoTasks : (configure twoTasks).TablesConsistent :=
  (tablesConsistent_iff (by unfold UniquePriorities; decide)).mpr (by decide)

end Echronos.Configure.Phact
