import Echronos.Configure.Phact
import Echronos.Variants.Preemptive
import Mathlib.Data.List.NodupEquivFin

/-! # The scheduling queue generated for Phact

    The template of the priority-ceiling scheduler writes `task_to_index` and `mutex_to_index` from
    the `sched_idx` of each entry of `mutex_tasks`. With unique priorities, as the manual asks for,
    they are tables in the sense of the scheduler. -/

namespace Echronos.Configure.Phact

variable {xml : XmlConfig}

/-- The tasks and mutexes before they are sorted together. -/
def Config.entries (config : Config) : List MutexTask :=
  config.tasks.map MutexTask.task ++ config.mutexes.map MutexTask.mutex

/-- The entries of `sched_queue` in the order of their `sched_idx`. -/
def Config.queue (config : Config) : List MutexTask := config.mutexTasks.map (·.entry)

theorem queue_configure :
    (configure xml).queue = sortByPriority MutexTask.priority (configure xml).entries := by
  apply List.ext_getElem <;> simp [configure, Config.queue, Config.entries]

theorem queue_perm : (configure xml).queue.Perm (configure xml).entries := by
  rw [queue_configure]
  exact sortByPriority_perm _ _

/-- Tasks and mutexes are each numbered from 0. -/
theorem tasks_idx :
    (configure xml).tasks.map (·.idx) = List.range (configure xml).tasks.length := by
  simp [configure, createTaskTimers_idx, List.range_eq_range']

theorem mutexes_idx :
    (configure xml).mutexes.map (·.idx) = List.range (configure xml).mutexes.length := by
  apply List.ext_getElem <;> simp [configure]

theorem nodup_tasks : (configure xml).tasks.Nodup :=
  List.Nodup.of_map (·.idx) (tasks_idx ▸ List.nodup_range)

theorem nodup_mutexes : (configure xml).mutexes.Nodup :=
  List.Nodup.of_map (·.idx) (mutexes_idx ▸ List.nodup_range)

theorem nodup_entries : (configure xml).entries.Nodup := by
  refine List.nodup_append.mpr ⟨nodup_tasks.map fun _ _ => MutexTask.task.inj,
    nodup_mutexes.map fun _ _ => MutexTask.mutex.inj, fun a ha b hb => ?_⟩
  obtain ⟨t, -, rfl⟩ := List.mem_map.mp ha
  obtain ⟨m, -, rfl⟩ := List.mem_map.mp hb
  simp

theorem length_queue : (configure xml).queue.length =
    (configure xml).tasks.length + (configure xml).mutexes.length := by
  rw [queue_perm.length_eq]
  simp [Config.entries]

/-- The entry of a task or mutex in `mutex_tasks`. -/
def entryOf (config : Config) : Fin config.tasks.length ⊕ Fin config.mutexes.length → MutexTask
  | .inl t => .task config.tasks[t]
  | .inr m => .mutex config.mutexes[m]

/-- `task_to_index` and `mutex_to_index`, read off the `sched_idx` of the entries. -/
def index (xml : XmlConfig) :
    Fin (configure xml).tasks.length ⊕ Fin (configure xml).mutexes.length ≃
      Fin ((configure xml).tasks.length + (configure xml).mutexes.length) :=
  finSumFinEquiv.trans <|
    (finCongr (by simp [Config.entries])).trans <|
    (nodup_entries.getEquiv (configure xml).entries).trans <|
    (Equiv.subtypeEquivRight fun _ => queue_perm.mem_iff.symm).trans <|
    ((queue_perm.nodup_iff.mpr nodup_entries).getEquiv (configure xml).queue).symm.trans <|
    finCongr length_queue

theorem entries_getElem (a : Fin (configure xml).tasks.length ⊕ Fin (configure xml).mutexes.length) :
    (configure xml).entries[(finSumFinEquiv a : ℕ)]? = some (entryOf (configure xml) a) := by
  cases a with
  | inl t =>
    have ht : (t : ℕ) < ((configure xml).tasks.map MutexTask.task).length := by simp
    simp [Config.entries, entryOf, List.getElem?_append_left ht]
  | inr m => simp [Config.entries, entryOf]

theorem queue_index (a : Fin (configure xml).tasks.length ⊕ Fin (configure xml).mutexes.length) :
    (configure xml).queue[(index xml a : ℕ)]? = some (entryOf (configure xml) a) := by
  rw [← entries_getElem]
  have hlt : (finSumFinEquiv a : ℕ) < (configure xml).entries.length := by simp [Config.entries]
  have hindex : (index xml a : ℕ) =
      (configure xml).queue.idxOf (configure xml).entries[(finSumFinEquiv a : ℕ)] := rfl
  rw [hindex]
  have hmem : (configure xml).entries[(finSumFinEquiv a : ℕ)] ∈ (configure xml).queue :=
    queue_perm.mem_iff.mpr (List.getElem_mem hlt)
  rw [List.getElem?_idxOf hmem, List.getElem?_eq_getElem hlt]

/-- The `sched_idx` of a task or mutex is what `task_to_index` and `mutex_to_index` hold for it. -/
theorem mutexTasks_index
    (a : Fin (configure xml).tasks.length ⊕ Fin (configure xml).mutexes.length) :
    (configure xml).mutexTasks[(index xml a : ℕ)]? =
      some ⟨entryOf (configure xml) a, index xml a⟩ := by
  have hqueue := queue_index a
  rw [Config.queue, List.getElem?_map] at hqueue
  obtain ⟨e, he, hentry⟩ := Option.map_eq_some_iff.mp hqueue
  have hidx : e.schedIdx = index xml a := by
    obtain ⟨hlt, rfl⟩ := List.getElem?_eq_some_iff.mp he
    simp [configure]
  rw [he, ← hentry, ← hidx]

/-- No two tasks or mutexes have one priority. -/
def UniquePriorities (xml : XmlConfig) : Prop :=
  (xml.tasks.map XmlTask.priority ++ xml.mutexes.map XmlMutex.priority).Nodup

theorem tasks_entry : (configure xml).tasks.map (·.entry) = sortByPriority XmlTask.priority xml.tasks :=
  createTaskTimers_entry _ _ _

theorem UniquePriorities.entries (h : UniquePriorities xml) :
    ((configure xml).entries.map MutexTask.priority).Nodup := by
  have hmutexes : (configure xml).mutexes.map (·.entry) =
      sortByPriority XmlMutex.priority xml.mutexes := by
    apply List.ext_getElem <;> simp [configure]
  have hentries : (configure xml).entries.map MutexTask.priority =
      (sortByPriority XmlTask.priority xml.tasks).map XmlTask.priority ++
        (sortByPriority XmlMutex.priority xml.mutexes).map XmlMutex.priority := by
    simp [Config.entries, ← tasks_entry, ← hmutexes, MutexTask.priority, Function.comp_def]
  rw [hentries]
  exact (((sortByPriority_perm _ _).map _).append ((sortByPriority_perm _ _).map _)).nodup_iff.mpr h

/-- With unique priorities, the queue is in the order of descending priority. -/
theorem index_lt_iff (h : UniquePriorities xml)
    (a b : Fin (configure xml).tasks.length ⊕ Fin (configure xml).mutexes.length) :
    index xml a < index xml b ↔
      (entryOf (configure xml) b).priority < (entryOf (configure xml) a).priority := by
  have hlt : ∀ a b, index xml a < index xml b →
      (entryOf (configure xml) b).priority < (entryOf (configure xml) a).priority := by
    intro a b hab
    obtain ⟨ha, hqa⟩ := List.getElem?_eq_some_iff.mp (queue_index a)
    obtain ⟨hb, hqb⟩ := List.getElem?_eq_some_iff.mp (queue_index b)
    have hsorted := sortByPriority_pairwise_lt h.entries
    rw [← queue_configure] at hsorted
    have hprio := List.pairwise_iff_getElem.mp hsorted _ _ ha hb hab
    rwa [hqa, hqb] at hprio
  refine ⟨hlt a b, fun hprio => ?_⟩
  rcases lt_trichotomy (index xml a) (index xml b) with hab | hab | hab
  · exact hab
  · rw [(index xml).injective hab] at hprio
    exact absurd hprio (lt_irrefl _)
  · exact absurd hprio (hlt b a hab).asymm

/-- The tables of Phact's scheduler. -/
def tables (xml : XmlConfig) (h : UniquePriorities xml) :
    SortedTables (configure xml).tasks.length (configure xml).mutexes.length where
  toCeilingTables := .ofIndex (index xml)
  tasks_sorted := by
    intro t u htu
    have hsorted := sortByPriority_pairwise_lt h.of_append_left
    rw [← tasks_entry] at hsorted
    have hprio : (configure xml).tasks[u].entry.priority < (configure xml).tasks[t].entry.priority :=
      List.pairwise_iff_getElem.mp (List.pairwise_map.mp hsorted) _ _ t.isLt u.isLt htu
    exact (CeilingTables.ofIndex (index xml)).index_lt_iff _ _ |>.mp ((index_lt_iff h _ _).mpr hprio)

end Echronos.Configure.Phact
