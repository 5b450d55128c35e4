import Echronos.Kernel.Config
import Echronos.Schemes.Links

/-! # Component `sched-prio-inherit`, the scheduler of Kochab

    Strict priority with inheritance: tasks are numbered by descending priority, and a blocked task
    that waits for another task lends it its place. -/

namespace Echronos.PrioInherit

variable {n : ℕ}

/-- `blocked_on` of each task; a task blocked on itself is runnable. -/
abbrev State (n : ℕ) := Fin n → Option (Fin n)

/-- The inner `do`-`while` loop of `sched_get_next` for at most `fuel` turns: `some (some t)` when it
    leaves through `goto found` with `t`, `some none` when the chain ends in `TASK_ID_NONE`. -/
def followChain (blockedOn : State n) : ℕ → Fin n → Option (Option (Fin n))
  | 0, _ => none
  | fuel + 1, task =>
    match blockedOn task with
    | none => some none
    | some nextTask =>
      if nextTask = task then some (some task) else followChain blockedOn fuel nextTask

/-- The outer loop of `sched_get_next` over the tasks from `idx` on. -/
def searchFrom (blockedOn : State n) (fuel : ℕ) : List (Fin n) → Option (Option (Fin n))
  | [] => some none
  | idx :: rest =>
    match followChain blockedOn fuel idx with
    | none => none
    | some none => searchFrom blockedOn fuel rest
    | some (some task) => some (some task)

/-- `sched_get_next` -/
def schedGetNext (fuel : ℕ) (s : State n) : Option (Option ℕ × State n) :=
  (searchFrom s fuel (List.finRange n)).map fun r => (r.map Fin.val, s)

theorem state_schedGetNext (fuel : ℕ) (s : State n) (r : Option ℕ × State n)
    (h : schedGetNext fuel s = some r) : r.2 = s := by
  obtain ⟨_, _, rfl⟩ := Option.map_eq_some_iff.mp h
  rfl

/-- The inner loop ends if the chain of `blocked_on` does. -/
theorem followChain_isSome {blockedOn : State n} {task : Fin n} (h : Schemes.Ends blockedOn task) :
    ∃ fuel, ∀ k, fuel ≤ k → (followChain blockedOn k task).isSome := by
  induction h with
  | last ht =>
    refine ⟨1, fun k hk => ?_⟩
    obtain ⟨k, rfl⟩ := Nat.exists_eq_add_of_le' hk
    simp [followChain, ht]
  | root ht =>
    refine ⟨1, fun k hk => ?_⟩
    obtain ⟨k, rfl⟩ := Nat.exists_eq_add_of_le' hk
    simp [followChain, ht]
  | @next task nextTask ht _ ih =>
    obtain ⟨fuel, hfuel⟩ := ih
    refine ⟨fuel + 1, fun k hk => ?_⟩
    obtain ⟨k, rfl⟩ := Nat.exists_eq_add_of_le' (Nat.le_of_add_left_le hk)
    simp only [followChain, ht]
    split
    · rfl
    · exact hfuel k (by omega)

/-- `sched_get_next` ends if all chains of `blocked_on` do. -/
theorem searchFrom_isSome {blockedOn : State n} (h : ∀ task, Schemes.Ends blockedOn task) :
    ∀ idxs : List (Fin n), ∃ fuel, ∀ k, fuel ≤ k → (searchFrom blockedOn k idxs).isSome
  | [] => ⟨0, fun _ _ => rfl⟩
  | idx :: rest => by
    obtain ⟨fuel, hfuel⟩ := followChain_isSome (h idx)
    obtain ⟨fuel', hfuel'⟩ := searchFrom_isSome h rest
    refine ⟨max fuel fuel', fun k hk => ?_⟩
    obtain ⟨r, hr⟩ := Option.isSome_iff_exists.mp (hfuel k (by omega))
    cases r with
    | none => simpa [searchFrom, hr] using hfuel' k (by omega)
    | some task => simp [searchFrom, hr]

/-- Two tasks blocked on each other keep the inner loop running. -/
theorem followChain_of_cycle {blockedOn : State n} {t u : Fin n} (htu : t ≠ u)
    (ht : blockedOn t = some u) (hu : blockedOn u = some t) : ∀ fuel,
    followChain blockedOn fuel t = none ∧ followChain blockedOn fuel u = none
  | 0 => ⟨rfl, rfl⟩
  | fuel + 1 => by
    obtain ⟨iht, ihu⟩ := followChain_of_cycle htu ht hu fuel
    exact ⟨by simp [followChain, ht, htu.symm, ihu], by simp [followChain, hu, htu, iht]⟩

theorem schedGetNext_of_cycle {s : State (n + 2)} (h0 : s 0 = some 1) (h1 : s 1 = some 0)
    (fuel : ℕ) : schedGetNext fuel s = none := by
  simp [schedGetNext, List.finRange_succ, searchFrom, (followChain_of_cycle (by simp) h0 h1 fuel).1]

/-! ### What `sched_get_next` selects -/

theorem endsIn_of_followChain {blockedOn : State n} : ∀ (fuel : ℕ) {task root : Fin n},
    followChain blockedOn fuel task = some (some root) → Schemes.EndsIn blockedOn task root
  | 0, _, _, h => by simp [followChain] at h
  | fuel + 1, task, root, h => by
    simp only [followChain] at h
    split at h
    · simp at h
    · rename_i nextTask hnext
      split_ifs at h with hself
      · obtain rfl : task = root := by simpa using h
        exact ⟨.here, hself ▸ hnext⟩
      · obtain ⟨hl, hroot⟩ := endsIn_of_followChain fuel h
        exact ⟨.next hnext hl, hroot⟩

theorem not_endsIn_of_followChain {blockedOn : State n} : ∀ (fuel : ℕ) {task : Fin n},
    followChain blockedOn fuel task = some none → ∀ root, ¬ Schemes.EndsIn blockedOn task root
  | 0, _, h => by simp [followChain] at h
  | fuel + 1, task, h => by
    rintro root ⟨hl, hroot⟩
    simp only [followChain] at h
    split at h
    · rename_i hnone
      cases hl with
      | here => simp [hroot] at hnone
      | next ha _ => simp [ha] at hnone
    · rename_i nextTask hnext
      split_ifs at h with hself
      · simp at h
      · refine not_endsIn_of_followChain fuel h root ⟨?_, hroot⟩
        cases hl with
        | here => exact absurd (Option.some.inj (hnext.symm.trans hroot)) hself
        | next ha hl =>
          obtain rfl := Option.some.inj (hnext.symm.trans ha)
          exact hl

theorem ends_of_followChain {blockedOn : State n} : ∀ (fuel : ℕ) {task : Fin n},
    (followChain blockedOn fuel task).isSome → Schemes.Ends blockedOn task
  | 0, _, h => by simp [followChain] at h
  | fuel + 1, task, h => by
    simp only [followChain] at h
    split at h
    · exact .last ‹_›
    · rename_i nextTask hnext
      split_ifs at h with hself
      · exact .root (hself ▸ hnext)
      · exact .next hnext (ends_of_followChain fuel h)

/-- The search ends at the first task whose chain ends in a runnable one. -/
theorem searchFrom_some {blockedOn : State n} {fuel : ℕ} {root : Fin n} : ∀ {idxs : List (Fin n)},
    idxs.Pairwise (· < ·) → searchFrom blockedOn fuel idxs = some (some root) →
    ∃ idx ∈ idxs, Schemes.EndsIn blockedOn idx root ∧
      ∀ i ∈ idxs, ∀ r, Schemes.EndsIn blockedOn i r → idx ≤ i
  | [], _, h => by simp [searchFrom] at h
  | idx :: rest, hsorted, h => by
    obtain ⟨hlt, hrest⟩ := List.pairwise_cons.mp hsorted
    simp only [searchFrom] at h
    split at h
    · simp at h
    · rename_i hnone
      obtain ⟨idx', hmem, hends, hmin⟩ := searchFrom_some hrest h
      refine ⟨idx', List.mem_cons_of_mem _ hmem, hends, fun i hi r hr => ?_⟩
      rcases List.mem_cons.mp hi with rfl | hi
      · exact absurd hr (not_endsIn_of_followChain fuel hnone r)
      · exact hmin i hi r hr
    · rename_i task hsome
      obtain rfl : task = root := by simpa using h
      refine ⟨idx, List.mem_cons_self, endsIn_of_followChain fuel hsome, fun i hi _ _ => ?_⟩
      rcases List.mem_cons.mp hi with rfl | hi
      · exact le_rfl
      · exact (hlt i hi).le

theorem searchFrom_none {blockedOn : State n} {fuel : ℕ} : ∀ {idxs : List (Fin n)},
    searchFrom blockedOn fuel idxs = some none →
    ∀ i ∈ idxs, ∀ r, ¬ Schemes.EndsIn blockedOn i r
  | [], _, _, hi => absurd hi List.not_mem_nil
  | idx :: rest, h, i, hi => by
    simp only [searchFrom] at h
    split at h
    · simp at h
    · rename_i hnone
      rcases List.mem_cons.mp hi with rfl | hi
      · exact not_endsIn_of_followChain fuel hnone
      · exact searchFrom_none h i hi
    · simp at h

/-- Going through the tasks, the search follows no chain that goes round a cycle before it finds one
    that ends in a runnable task. -/
def SearchEnds (blockedOn : State n) (idxs : List (Fin n)) : Prop :=
  ∀ task ∈ idxs, Schemes.Ends blockedOn task ∨
    ∃ idx ∈ idxs, idx < task ∧ ∃ root, Schemes.EndsIn blockedOn idx root

theorem searchEnds_of_isSome {blockedOn : State n} {fuel : ℕ} : ∀ {idxs : List (Fin n)},
    idxs.Pairwise (· < ·) → (searchFrom blockedOn fuel idxs).isSome → SearchEnds blockedOn idxs
  | [], _, _ => nofun
  | idx :: rest, hsorted, h => by
    obtain ⟨hlt, hrest⟩ := List.pairwise_cons.mp hsorted
    simp only [searchFrom] at h
    split at h
    · cases h
    · rename_i hnone
      rintro task (_ | ⟨_, htask⟩)
      · exact .inl (ends_of_followChain fuel (by rw [hnone]; rfl))
      · refine (searchEnds_of_isSome hrest h task htask).imp_right ?_
        rintro ⟨i, hi, hroot⟩
        exact ⟨i, List.mem_cons_of_mem _ hi, hroot⟩
    · rename_i root hroot
      rintro task (_ | ⟨_, htask⟩)
      · exact .inl (ends_of_followChain fuel (by rw [hroot]; rfl))
      · exact .inr ⟨idx, List.mem_cons_self, hlt task htask, root, endsIn_of_followChain fuel hroot⟩

theorem SearchEnds.isSome {blockedOn : State n} : ∀ {idxs : List (Fin n)},
    idxs.Pairwise (· < ·) → SearchEnds blockedOn idxs →
    ∃ fuel, ∀ k, fuel ≤ k → (searchFrom blockedOn k idxs).isSome
  | [], _, _ => ⟨0, fun _ _ => rfl⟩
  | idx :: rest, hsorted, h => by
    obtain ⟨hlt, hrest⟩ := List.pairwise_cons.mp hsorted
    have hends : Schemes.Ends blockedOn idx := by
      rcases h idx List.mem_cons_self with hends | ⟨i, hi, hlti, -⟩
      · exact hends
      · rcases List.mem_cons.mp hi with rfl | hi
        · exact absurd hlti (lt_irrefl _)
        · exact absurd hlti (hlt i hi).asymm
    obtain ⟨fuel, hfuel⟩ := followChain_isSome hends
    by_cases hroot : ∃ root, Schemes.EndsIn blockedOn idx root
    · refine ⟨fuel, fun k hk => ?_⟩
      obtain ⟨next, hnext⟩ := Option.isSome_iff_exists.mp (hfuel k hk)
      cases next with
      | none => exact absurd hroot.choose_spec (not_endsIn_of_followChain k hnext _)
      | some task => simp [searchFrom, hnext]
    · have hsearch : SearchEnds blockedOn rest := fun task htask => by
        refine (h task (List.mem_cons_of_mem _ htask)).imp_right ?_
        rintro ⟨i, hi, hlti, hi'⟩
        rcases List.mem_cons.mp hi with rfl | hi
        · exact absurd hi' hroot
        · exact ⟨i, hi, hlti, hi'⟩
      obtain ⟨fuel', hfuel'⟩ := hsearch.isSome hrest
      refine ⟨max fuel fuel', fun k hk => ?_⟩
      obtain ⟨next, hnext⟩ := Option.isSome_iff_exists.mp (hfuel k (by omega))
      cases next with
      | none => simpa [searchFrom, hnext] using hfuel' k (by omega)
      | some task => simp [searchFrom, hnext]

theorem runnable_of_schedGetNext {fuel next : ℕ} {s s' : State n}
    (h : schedGetNext fuel s = some (some next, s')) : ∃ t : Fin n, next = t ∧ s' t = some t := by
  obtain ⟨r, hr, heq⟩ := Option.map_eq_some_iff.mp h
  obtain ⟨⟨t, rfl, rfl⟩, rfl⟩ : (∃ t, r = some t ∧ t.val = next) ∧ s = s' := by simpa using heq
  obtain ⟨_, -, hends, -⟩ := searchFrom_some (List.pairwise_lt_finRange n) hr
  exact ⟨t, rfl, hends.2⟩

theorem not_runnable_of_schedGetNext {fuel : ℕ} {s s' : State n}
    (h : schedGetNext fuel s = some (none, s')) (t : Fin n) : s' t ≠ some t := by
  obtain ⟨r, hr, heq⟩ := Option.map_eq_some_iff.mp h
  obtain ⟨rfl, rfl⟩ : r = none ∧ s = s' := by simpa using heq
  exact fun ht => searchFrom_none hr t (List.mem_finRange t) t ⟨.here, ht⟩

end PrioInherit

/-- The scheduler of Kochab. -/
def kochabSched (tasks mutexes : ℕ) : Sched tasks mutexes where
  State := PrioInherit.State tasks
  start := some
  schedSetRunnable t s := Function.update s t (some t)
  schedSetBlockedOn t blocker s := Function.update s t blocker
  schedSetMutexLockedBy _ _ s := s
  schedSetMutexUnlocked _ s := s
  schedGetNext := PrioInherit.schedGetNext
  inherits := true
  link s := s
  link_start _ := rfl
  link_setRunnable _ _ := rfl
  link_setBlockedOn _ _ _ := rfl
  link_setMutexLockedBy _ _ _ := rfl
  link_setMutexUnlocked _ _ := rfl
  link_getNext := PrioInherit.state_schedGetNext

end Echronos
