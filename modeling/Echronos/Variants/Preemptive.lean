import Echronos.Ports.GetNext
import Echronos.Variants.PrioCeiling
import Echronos.Variants.PrioInherit

/-! # The preemptive variants: Kochab and Phact

    What their schedulers have in common for the code that switches tasks: selecting a task does not
    change the scheduler's state, the first task is selected at the start, and the current task stays
    selected when it locks a mutex. -/

namespace Echronos

variable {tasks mutexes : ℕ}

/-- `configure` sorts tasks by priority before it numbers them. -/
structure SortedTables (tasks mutexes : ℕ) extends CeilingTables tasks mutexes where
  tasks_sorted : ∀ t u : Fin tasks, t < u → priority (.inl u) < priority (.inl t)

inductive Preemptive (tasks mutexes : ℕ)
  | kochab
  | phact (tables : SortedTables tasks mutexes)

namespace PrioCeiling

variable {T : CeilingTables tasks mutexes} {s : State tasks mutexes}
  {holder : Fin mutexes → Option (Fin tasks)}

/-- A mutex is locked only through the entry of a task, which the search may then end with. -/
theorem QueueOf.search_lockedBy (h : QueueOf T holder s) {m : Fin mutexes} (hm : holder m = none)
    (t : Fin tasks) : ∀ (idxs : List (Fin (tasks + mutexes))) (d : Fin (tasks + mutexes)),
    search (schedSetMutexLockedBy T m t s) d idxs = search s d idxs ∨
      search (schedSetMutexLockedBy T m t s) d idxs = taskToIndex T t
  | [], _ => .inl rfl
  | idx :: rest, d => by
    have hfree : s (mutexToIndex T m) = none := by rw [h.mutex m, hm, Option.map_none]
    have ih := h.search_lockedBy hm t rest idx
    have hne : taskToIndex T t ≠ mutexToIndex T m := taskToIndex_ne_mutexToIndex T t m
    by_cases hidx : idx = mutexToIndex T m
    · subst hidx
      have hlocked : schedSetMutexLockedBy T m t s (mutexToIndex T m) = some (taskToIndex T t) := by
        simp [schedSetMutexLockedBy]
      simp only [search, hlocked, hfree, if_neg hne]
      split_ifs
      · exact .inr rfl
      · exact ih
    · have hsame : schedSetMutexLockedBy T m t s idx = s idx := by
        simp [schedSetMutexLockedBy, hidx]
      cases hnext : s idx with
      | none => simpa only [search, hsame, hnext] using ih
      | some nextIdx =>
        have hnot : nextIdx ≠ mutexToIndex T m := by
          rintro rfl
          obtain ⟨a, rfl⟩ := T.index.surjective idx
          cases a with
          | inl u =>
            rcases h.task u with hu | hu
            · exact absurd (hu.symm.trans hnext) (by simp)
            · exact taskToIndex_ne_mutexToIndex T u m (Option.some.inj (hu.symm.trans hnext))
          | inr l =>
            obtain ⟨u, -, hu⟩ := Option.map_eq_some_iff.mp ((h.mutex l).symm.trans hnext)
            exact taskToIndex_ne_mutexToIndex T u m hu
        have hsame' : schedSetMutexLockedBy T m t s nextIdx = s nextIdx := by
          simp [schedSetMutexLockedBy, hnot]
        simp only [search, hsame, hnext, hsame']
        split_ifs
        · exact .inl rfl
        · exact .inl rfl
        · exact ih

/-- A task that is selected stays selected when it locks a free mutex. -/
theorem QueueOf.schedGetNext_lockedBy (h : QueueOf T holder s) {m : Fin mutexes}
    (hm : holder m = none) (pos : 0 < tasks) {t : Fin tasks} (ht : schedGetNext T pos s = t) :
    schedGetNext T pos (schedSetMutexLockedBy T m t s) = t := by
  unfold schedGetNext at ht ⊢
  rcases h.search_lockedBy hm t (List.finRange (tasks + mutexes)) ⟨0, Nat.add_pos_left pos mutexes⟩
    with hsame | hself
  · rw [hsame, ht]
  · rw [hself]
    simp [indexToMutexTask, taskToIndex]

/-- At the start the task of highest priority is selected. -/
theorem schedGetNext_start (T : SortedTables tasks mutexes) (pos : 0 < tasks) :
    schedGetNext T.toCeilingTables pos (start T.toCeilingTables) = 0 := by
  have h : QueueOf T.toCeilingTables (fun _ => none) (start T.toCeilingTables) := .start
  have hself : ∀ t, Serves (start T.toCeilingTables) (taskToIndex T.toCeilingTables t)
      (taskToIndex T.toCeilingTables t) := fun t => by simp [Serves, start, taskToIndex]
  obtain ⟨i, -, hserves, hmin⟩ := search_serves (List.finRange (tasks + mutexes))
    ⟨0, Nat.add_pos_left pos mutexes⟩ (List.pairwise_lt_finRange _)
    ⟨_, List.mem_finRange _, _, hself ⟨0, pos⟩⟩
  obtain ⟨a, rfl⟩ := T.index.surjective i
  cases a with
  | inr m => exact absurd ((h.mutex m).symm.trans hserves.1) (by simp)
  | inl u =>
    have hsearch : search (start T.toCeilingTables) ⟨0, Nat.add_pos_left pos mutexes⟩
        (List.finRange (tasks + mutexes)) = taskToIndex T.toCeilingTables u :=
      Option.some.inj (hserves.1.symm.trans (hself u).1)
    have hzero : u = ⟨0, pos⟩ := by
      by_contra hne
      have hlt : (⟨0, pos⟩ : Fin tasks) < u := by
        rw [Fin.lt_def]
        exact Nat.pos_of_ne_zero fun h0 => hne (Fin.ext h0)
      have hindex := (T.index_lt_iff (.inl ⟨0, pos⟩) (.inl u)).mpr (T.tasks_sorted _ _ hlt)
      exact absurd (hmin _ (List.mem_finRange _) _ (hself ⟨0, pos⟩)) (not_le_of_gt hindex)
    rw [schedGetNext, hsearch, hzero]
    simp [indexToMutexTask, taskToIndex]

end PrioCeiling

namespace Preemptive

variable {v : Preemptive tasks mutexes} {pos : 0 < tasks}

def sched (pos : 0 < tasks) : Preemptive tasks mutexes → Sched tasks mutexes
  | kochab => kochabSched tasks mutexes
  | phact tables => phactSched tables.toCeilingTables pos

/-- The option `prio_ceiling` of `blocking-mutex`. -/
def prioCeiling : Preemptive tasks mutexes → Bool
  | kochab => false
  | phact _ => true

/-- The scheduler knows who holds the mutexes, as far as it needs to. -/
def Agrees (holder : Fin mutexes → Option (Fin tasks)) :
    (v : Preemptive tasks mutexes) → (v.sched pos).State → Prop
  | kochab, _ => True
  | phact tables, s => PrioCeiling.QueueOf tables.toCeilingTables holder s

theorem state_schedGetNext (fuel : ℕ) (s : (v.sched pos).State) (r : Option ℕ × (v.sched pos).State)
    (h : (v.sched pos).schedGetNext fuel s = some r) : r.2 = s := by
  cases v with
  | kochab => exact PrioInherit.state_schedGetNext fuel s r h
  | phact tables =>
    obtain rfl := Option.some.inj h
    rfl

theorem Agrees.start : v.Agrees (fun _ => none) (v.sched pos).start := by
  cases v with
  | kochab => trivial
  | phact tables => exact PrioCeiling.QueueOf.start

variable {holder : Fin mutexes → Option (Fin tasks)} {s : (v.sched pos).State}

theorem Agrees.setRunnable (h : v.Agrees holder s) (t : Fin tasks) :
    v.Agrees holder ((v.sched pos).schedSetRunnable t s) := by
  cases v with
  | kochab => trivial
  | phact tables => exact PrioCeiling.QueueOf.setRunnable h t

theorem Agrees.setBlockedOn (h : v.Agrees holder s) (t : Fin tasks) (blocker : Option (Fin tasks)) :
    v.Agrees holder ((v.sched pos).schedSetBlockedOn t blocker s) := by
  cases v with
  | kochab => trivial
  | phact tables => exact PrioCeiling.QueueOf.setBlocked h t

theorem Agrees.setMutexLockedBy (h : v.Agrees holder s) (m : Fin mutexes) (t : Fin tasks) :
    v.Agrees (Function.update holder m (some t)) ((v.sched pos).schedSetMutexLockedBy m t s) := by
  cases v with
  | kochab => trivial
  | phact tables => exact PrioCeiling.QueueOf.setMutexLockedBy h m t

theorem Agrees.setMutexUnlocked (h : v.Agrees holder s) (m : Fin mutexes) :
    v.Agrees (Function.update holder m none) ((v.sched pos).schedSetMutexUnlocked m s) := by
  cases v with
  | kochab => trivial
  | phact tables => exact PrioCeiling.QueueOf.setMutexUnlocked h m

theorem selects_start : Io.Selects (v.sched pos) (v.sched pos).start ⟨0, pos⟩ := by
  refine ⟨1, ?_⟩
  cases v with
  | kochab =>
    obtain ⟨n, rfl⟩ := Nat.exists_eq_add_of_le' pos
    simp [sched, kochabSched, PrioInherit.schedGetNext, List.finRange_succ, PrioInherit.searchFrom,
      PrioInherit.followChain]
  | phact tables =>
    simp [sched, phactSched, PrioCeiling.schedGetNext_start]

theorem Agrees.selects_lockedBy (h : v.Agrees holder s) {m : Fin mutexes} (hm : holder m = none)
    {t : Fin tasks} (ht : Io.Selects (v.sched pos) s t) :
    Io.Selects (v.sched pos) ((v.sched pos).schedSetMutexLockedBy m t s) t := by
  obtain ⟨fuel, hfuel⟩ := ht
  refine ⟨fuel, ?_⟩
  cases v with
  | kochab => exact hfuel
  | phact tables =>
    have hnext : PrioCeiling.schedGetNext tables.toCeilingTables pos s = t :=
      Option.some.inj (congrArg Prod.fst (Option.some.inj hfuel))
    have := PrioCeiling.QueueOf.schedGetNext_lockedBy h hm pos hnext
    simp [sched, phactSched, this]

end Preemptive

end Echronos
