import Echronos.Cooperative.Steps
import Echronos.Properties.EffectivePriority
import Echronos.Schemes.Product
import Echronos.Variants.Prio

/-! # What the scheduler tests cover

    The tests set the schedulers to every state that `states()` of the reference models yields, and
    compare `sched_get_next()` with `get_next()`. For the priority-inheritance scheduler `states()`
    leaves out the states with a chain of `blocked_on` that never ends. The strict-priority scheduler
    agrees with its model in every state but one in which its loop does not end. -/

namespace Echronos

open Schemes

variable {n w : ℕ}

/-! ### `sched-prio` and `PrioSchedModel` -/

namespace PrioSchedModel

/-- `get_next` of `PrioSchedModel`: the index of the first runnable task. -/
def getNext (runnable : Prio.State n) : Option (Fin n) :=
  ((List.finRange n).filter runnable).head?

/-- `states` -/
def states (n : ℕ) (assumeRunnable : Bool) : List (Prio.State n) :=
  let g := product [true, false] n
  if assumeRunnable then g.filter fun runnable => decide (∃ t, runnable t = true) else g

theorem mem_states {s : Prio.State n} {b : Bool} :
    s ∈ states n b ↔ (b = true → ∃ t, s t = true) := by
  have hall : s ∈ product [true, false] n := mem_product.mpr fun i => by simp
  cases b <;> simp [states, hall]

theorem getNext_eq_some {s : Prio.State n} {t : Fin n} (h : getNext s = some t) :
    s t = true ∧ ∀ u < t, s u = false := by
  rw [getNext, List.head?_filter] at h
  obtain ⟨ht, i, hi, hit, hbefore⟩ := List.find?_eq_some_iff_getElem.mp h
  refine ⟨by simpa using ht, fun u hu => ?_⟩
  have hlt : u.val < i := by
    rw [List.getElem_finRange] at hit
    have hit : i = t.val := congrArg Fin.val hit
    omega
  simpa using hbefore u hlt

theorem getNext_eq_none {s : Prio.State n} (h : getNext s = none) (t : Fin n) : s t = false := by
  rw [getNext, List.head?_filter] at h
  simpa using List.find?_eq_none.mp h t (List.mem_finRange t)

end PrioSchedModel

namespace Prio

/-- What `sched_get_next` returns, once it does. -/
def expected (w : ℕ) (s : State n) : BitVec w := idOption w (PrioSchedModel.getNext s)

theorem schedGetNext_of_runnable {s : State n} (hn : n ≤ 2 ^ w) {t : Fin n} (b : Bool)
    (ht : PrioSchedModel.getNext s = some t) {fuel : ℕ} (hfuel : n ≤ fuel) :
    schedGetNext w b fuel s = some (some (BitVec.ofNat w t)) := by
  obtain ⟨hrun, hfirst⟩ := PrioSchedModel.getNext_eq_some ht
  exact congrArg (·.map (selected w))
    (countFrom_runnable hn hrun hfirst t 0 fuel _ (Nat.zero_add _) (by omega))

theorem schedGetNext_mono {s : State n} {b : Bool} {fuel fuel' : ℕ} {r : Option (BitVec w)}
    (hle : fuel ≤ fuel') (h : schedGetNext w b fuel s = some r) : schedGetNext w b fuel' s = some r := by
  obtain ⟨e, he, rfl⟩ := Option.map_eq_some_iff.mp h
  exact Option.map_eq_some_iff.mpr ⟨e, countFrom_mono hle he, rfl⟩

/-- Without a runnable task the loop ends exactly if an identifier is left to compare with. -/
theorem schedGetNext_of_none {s : State n} (hpos : 0 < n) (hn : n < 2 ^ w) (hnone : ∀ t, s t = false)
    {fuel : ℕ} (hfuel : n < fuel) : schedGetNext w false fuel s = some (some (idNone w)) :=
  congrArg (·.map (selected w)) (countFrom_none hpos hn hnone _ hfuel)

theorem schedGetNext_none {s : State (2 ^ w)} (hnone : ∀ t, s t = false) (fuel : ℕ) :
    schedGetNext w false fuel s = none :=
  congrArg (·.map (selected w)) (countFrom_wraps hnone fuel 0 _)

theorem expected_eq_none_iff {s : State n} (hn : n < 2 ^ w) :
    expected w s = idNone w ↔ PrioSchedModel.getNext s = none :=
  (idOption_injective_iff.mpr hn).eq_iff' rfl

/-- `sched_get_next`, built with `assume_runnable` false, returns unless there are as many tasks as
    identifiers and none of them is runnable. It then returns what the reference model does; with
    fewer tasks than identifiers `TASK_ID_NONE` is no task. -/
theorem schedGetNext_refines_iff (s : State n) (hpos : 0 < n) (hn : n ≤ 2 ^ w) :
    ((∃ fuel r, schedGetNext w false fuel s = some r) ↔ n < 2 ^ w ∨ ∃ t, s t = true) ∧
    (∀ fuel r, schedGetNext w false fuel s = some r → r = some (expected w s)) ∧
    (n < 2 ^ w → (expected w s = idNone w ↔ PrioSchedModel.getNext s = none)) := by
  refine ⟨?_, ?_, fun hlt => expected_eq_none_iff hlt⟩
  · constructor
    · rintro ⟨fuel, r, h⟩
      by_contra hnot
      obtain ⟨hge, hnone⟩ := not_or.mp hnot
      obtain rfl : n = 2 ^ w := by omega
      simp only [not_exists, Bool.not_eq_true] at hnone
      simp [schedGetNext_none hnone] at h
    · intro h
      cases hnext : PrioSchedModel.getNext s with
      | some t => exact ⟨n, _, schedGetNext_of_runnable hn _ hnext le_rfl⟩
      | none =>
        have hnone := PrioSchedModel.getNext_eq_none hnext
        have hlt := h.resolve_right (by simp [hnone])
        exact ⟨n + 1, _, schedGetNext_of_none hpos hlt hnone (Nat.lt_succ_self n)⟩
  · intro fuel r h
    have hmax := schedGetNext_mono (le_max_left fuel (n + 1)) h
    cases hnext : PrioSchedModel.getNext s with
    | some t =>
      rw [schedGetNext_of_runnable hn _ hnext (by omega)] at hmax
      rw [expected, hnext]
      exact (Option.some.inj hmax).symm
    | none =>
      have hnone := PrioSchedModel.getNext_eq_none hnext
      rcases Nat.lt_or_eq_of_le hn with hlt | rfl
      · rw [schedGetNext_of_none hpos hlt hnone (by omega)] at hmax
        rw [expected, hnext]
        exact (Option.some.inj hmax).symm
      · simp [schedGetNext_none hnone] at h

/-- Two of three tasks are runnable. -/
theorem schedGetNext_refines_iff_three :
    (∃ fuel r, schedGetNext 8 false fuel (fun t : Fin 3 => t.val != 0) = some r) ∧
      expected 8 (fun t : Fin 3 => t.val != 0) = 1 := by
  obtain ⟨h, -, -⟩ := schedGetNext_refines_iff (w := 8) (fun t : Fin 3 => t.val != 0) (by decide)
    (by decide)
  exact ⟨h.mpr (.inl (by decide)), by decide⟩

end Prio

/-! ### The states of the round-robin model -/

namespace RrSchedModel

/-- `states` -/
def states (n : ℕ) (assumeRunnable : Bool) : List (RoundRobin.State n) :=
  let g := (product [true, false] n).flatMap fun runnable =>
    (List.finRange n).map fun cur => ⟨cur, runnable⟩
  if assumeRunnable then g.filter fun s => decide (∃ t, s.runnable t = true) else g

end RrSchedModel

/-! ### The states of the priority-inheritance model -/

namespace PrioInheritSchedModel

/-- `check_blocked`, for at most `fuel` turns of its loop. -/
def checkBlocked (blockedList : PrioInherit.State n) : ℕ → List (Fin n) → Fin n → Option Bool
  | 0, _, _ => none
  | fuel + 1, seen, taskId =>
    match blockedList taskId with
    | none => some true
    | some blockedOn =>
      if seen.contains blockedOn then some false
      else if blockedOn = taskId then some true
      else checkBlocked blockedList fuel (taskId :: seen) blockedOn

/-- `check_blocked_list`. Each turn of a loop sees another task, so one more than all are enough. -/
def checkBlockedList (blockedList : PrioInherit.State n) : Bool :=
  (List.finRange n).all fun taskId => checkBlocked blockedList (n + 1) [] taskId == some true

def anyRunnable (blockedOn : PrioInherit.State n) : Bool :=
  decide (∃ t, blockedOn t = some t)

/-- `states` -/
def states (n : ℕ) (assumeRunnable : Bool) : List (PrioInherit.State n) :=
  let g := (product ((List.finRange n).map some ++ [none]) n).filter checkBlockedList
  if assumeRunnable then g.filter anyRunnable else g

/-- The tasks seen lead to the one looked at, so meeting one of them again closes a cycle. -/
theorem checkBlocked_eq {blockedList : PrioInherit.State n} : ∀ (fuel : ℕ) (seen : List (Fin n))
    (taskId : Fin n), (taskId :: seen).Nodup → n < fuel + seen.length →
    (∀ u ∈ seen, ∃ v, blockedList u = some v ∧ v ≠ u ∧ Leads blockedList taskId v) →
    ∃ b, checkBlocked blockedList fuel seen taskId = some b ∧ (b = true ↔ Ends blockedList taskId)
  | 0, seen, taskId, hnodup, hfuel, _ => by
    have := hnodup.length_le_card
    simp only [List.length_cons, Fintype.card_fin] at this
    omega
  | fuel + 1, seen, taskId, hnodup, hfuel, hseen => by
    cases hnext : blockedList taskId with
    | none => exact ⟨true, by simp [checkBlocked, hnext], by simp [Ends.last hnext]⟩
    | some next =>
      by_cases hmem : next ∈ seen
      · obtain ⟨v, hv, hne, hl⟩ := hseen next hmem
        have hself : next ≠ taskId := by
          rintro rfl
          exact (List.nodup_cons.mp hnodup).1 hmem
        have hnot : ¬ Ends blockedList taskId := fun hends =>
          not_ends_of_leads hv hne (hl.snoc hnext) ((ends_iff_next hnext hself).mp hends)
        exact ⟨false, by simp [checkBlocked, hnext, hmem], by simp [hnot]⟩
      · by_cases hself : next = taskId
        · subst hself
          exact ⟨true, by simp [checkBlocked, hnext, hmem], by simp [Ends.root hnext]⟩
        · obtain ⟨b, hb, hiff⟩ := checkBlocked_eq fuel (taskId :: seen) next
            (List.nodup_cons.mpr ⟨by simp [hself, hmem], hnodup⟩)
            (by rw [List.length_cons]; omega) fun u hu => by
              rcases List.mem_cons.mp hu with rfl | hu
              · exact ⟨next, hnext, hself, .here⟩
              · obtain ⟨v, hv, hne, hl⟩ := hseen u hu
                exact ⟨v, hv, hne, hl.snoc hnext⟩
          exact ⟨b, by simp [checkBlocked, hnext, hmem, hself, hb],
            hiff.trans (ends_iff_next hnext hself).symm⟩

theorem checkBlockedList_iff {s : PrioInherit.State n} :
    checkBlockedList s = true ↔ ∀ t, Ends s t := by
  simp only [checkBlockedList, List.all_eq_true, List.mem_finRange, forall_true_left, beq_iff_eq]
  refine forall_congr' fun t => ?_
  obtain ⟨b, hb, hiff⟩ : ∃ b, checkBlocked s (n + 1) [] t = some b ∧ (b = true ↔ Ends s t) :=
    checkBlocked_eq (n + 1) [] t (List.nodup_singleton t) (by simp) (by simp)
  rw [hb, Option.some.injEq, hiff]

theorem mem_states {s : PrioInherit.State n} {b : Bool} :
    s ∈ states n b ↔ (∀ t, Ends s t) ∧ (b = true → ∃ t, s t = some t) := by
  have hpool : s ∈ product ((List.finRange n).map some ++ [none]) n :=
    mem_product.mpr fun i => by cases s i <;> simp
  cases b <;> simp [states, hpool, checkBlockedList_iff, anyRunnable, and_comm]

theorem nodup_states (b : Bool) : (states n b).Nodup := by
  have hpool : ((List.finRange n).map some ++ [none]).Nodup :=
    List.nodup_append.mpr ⟨(List.nodup_finRange n).map (Option.some_injective _),
      List.nodup_singleton _, by simp⟩
  have hall := (nodup_product hpool n).filter (p := checkBlockedList)
  cases b
  · exact hall
  · exact hall.filter _

/-- `states()` yields every state in which all chains end, once, and in each of them the scheduler
    returns what the model does, whose assertion holds. Identifiers of `w` bits tell all of these results
    apart for fewer than `2 ^ w` tasks. -/
theorem states_cover (n : ℕ) (assumeRunnable : Bool) :
    (∀ w, Function.Injective (idOption w : Option (Fin n) → BitVec w) ↔ n < 2 ^ w) ∧
    (states n assumeRunnable).Nodup ∧
    (∀ s : PrioInherit.State n, s ∈ states n assumeRunnable ↔
      (∀ t, Ends s t) ∧ (assumeRunnable = true → ∃ t, s t = some t)) ∧
    ∀ s ∈ states n assumeRunnable, ∃ fuel₀, ∀ fuel, fuel₀ ≤ fuel → ∃ r,
      PrioInherit.schedGetNext fuel s = some (r.map Fin.val, s) ∧ getNext fuel s = some r := by
  refine ⟨fun _ => idOption_injective_iff, nodup_states _, fun s => mem_states, fun s hs => ?_⟩
  obtain ⟨hends, -⟩ := mem_states.mp hs
  obtain ⟨fuel₀, hfuel⟩ := PrioInherit.searchFrom_isSome hends (List.finRange n)
  refine ⟨fuel₀, fun fuel hle => ?_⟩
  obtain ⟨r, hr⟩ := Option.isSome_iff_exists.mp (hfuel fuel hle)
  exact ⟨r, by simp [PrioInherit.schedGetNext, hr],
    by rw [getNext, head_eq (acyclic_iff_ends.mpr hends), hr]⟩

end PrioInheritSchedModel

namespace RrSchedModel

theorem mem_states {s : RoundRobin.State n} {b : Bool} :
    s ∈ states n b ↔ (b = true → ∃ t, s.runnable t = true) := by
  have hall : s ∈ (product [true, false] n).flatMap fun runnable =>
      (List.finRange n).map fun cur => (⟨cur, runnable⟩ : RoundRobin.State n) := by
    refine List.mem_flatMap.mpr ⟨s.runnable, mem_product.mpr fun i => by simp, ?_⟩
    exact List.mem_map.mpr ⟨s.cur, List.mem_finRange _, rfl⟩
  cases b <;> simp [states, hall]

theorem nodup_states (b : Bool) : (states n b).Nodup := by
  have hall : ((product [true, false] n).flatMap fun runnable =>
      (List.finRange n).map fun cur => (⟨cur, runnable⟩ : RoundRobin.State n)).Nodup := by
    refine List.nodup_flatMap.mpr ⟨fun runnable _ => ?_, ?_⟩
    · exact (List.nodup_finRange n).map fun _ _ h => congrArg RoundRobin.State.cur h
    · refine (nodup_product (by decide) n).imp fun hne s hs hs' => ?_
      obtain ⟨_, -, rfl⟩ := List.mem_map.mp hs
      obtain ⟨_, -, h⟩ := List.mem_map.mp hs'
      exact hne (congrArg RoundRobin.State.runnable h).symm
  cases b
  · exact hall
  · exact hall.filter _

/-- `states()` yields every state, or every one with a runnable task, once. The scheduler returns
    what the model does, and so it does built with `assume_runnable` true, if a task is runnable.
    Identifiers of `w` bits tell all of these results apart for fewer than `2 ^ w` tasks. -/
theorem states_agree (n : ℕ) (assumeRunnable : Bool) :
    (∀ w, Function.Injective (idOption w : Option (Fin n) → BitVec w) ↔ n < 2 ^ w) ∧
    (states n assumeRunnable).Nodup ∧
    (∀ s : RoundRobin.State n, s ∈ states n assumeRunnable ↔
      (assumeRunnable = true → ∃ t, s.runnable t = true)) ∧
    ∀ s ∈ states n assumeRunnable, ∀ fuel, n ≤ fuel → ∃ r s',
      RoundRobin.schedGetNext fuel s = some (r, s') ∧ getNext s.model = (r, s'.model) ∧
      (assumeRunnable = true → ∃ t, r = some t.val ∧
        RoundRobin.schedGetNextAssumeRunnable fuel s = some (t, s')) := by
  refine ⟨fun _ => idOption_injective_iff, nodup_states _, fun s => mem_states, fun s hs fuel hfuel => ?_⟩
  obtain ⟨r, s', hret, hmodel⟩ := RoundRobin.schedGetNext_refines s hfuel
  refine ⟨r, s', hret, hmodel, fun hb => ?_⟩
  obtain ⟨t, ht⟩ := mem_states.mp hs hb
  obtain ⟨⟨u, s''⟩, hassume⟩ := Option.isSome_iff_exists.mp
    (RoundRobin.schedGetNextAssumeRunnable_isSome hfuel ht)
  obtain ⟨hfind, hs''⟩ := RoundRobin.schedGetNextAssumeRunnable_eq_some hassume
  rw [RoundRobin.schedGetNext_eq s hfuel, hfind] at hret
  obtain ⟨rfl, rfl⟩ := Prod.mk.inj (Option.some.inj hret)
  exact ⟨u, rfl, hs'' ▸ hassume⟩

end RrSchedModel

end Echronos
