import Echronos.Configure.Generated

/-! # The widths of Kochab's identifiers

    `configure` puts no bound on how many tasks, timers, mutexes and semaphores there are, and adds a
    timer for every task. The identifiers and the loops over them are right exactly up to the number
    of objects for which the greatest value of the identifier type stays free. -/

namespace Echronos.Configure.Kochab

open Echronos Schemes

variable {n w : ℕ}

/-! ### Identifiers -/

variable {xml : XmlConfig}

theorem forall_iff_of_map_eq_range {α : Type} {f : α → ℕ} {l : List α} {m : ℕ}
    (h : l.map f = List.range m) {p : ℕ → Prop} : (∀ a ∈ l, p (f a)) ↔ ∀ i < m, p i := by
  rw [← List.forall_mem_map, h]
  simp

/-- The tasks are numbered from 0. -/
theorem tasks_idx : (configure xml).tasks.map (·.idx) = List.range xml.tasks.length := by
  rw [List.range_eq_range', ← sortByPriority_length XmlTask.priority xml.tasks]
  exact createTaskTimers_idx 0 _ (addIndex xml.timers)

theorem timers_idx : (configure xml).timers.map (·.idx) =
    List.range (xml.timers.length + xml.tasks.length) := by
  rw [← addIndex_length, ← sortByPriority_length XmlTask.priority xml.tasks]
  exact createTaskTimers_timer_idx 0 _ _ (addIndex_idx xml.timers)

theorem idsFit_iff : (configure xml).IdsFit ↔ xml.tasks.length < 2 ^ xml.taskidSize ∧
    xml.timers.length + xml.tasks.length ≤ 2 ^ 8 ∧ xml.mutexes.length < 2 ^ 8 ∧
    xml.semaphores.length < 2 ^ 8 := by
  have htimer : (∀ t ∈ (configure xml).timers, (Config.timerId t).toNat = t.idx) ↔
      xml.timers.length + xml.tasks.length ≤ 2 ^ 8 := by
    refine (forall_iff_of_map_eq_range timers_idx
      (p := fun idx => (BitVec.ofNat 8 idx).toNat = idx)).trans ⟨fun h => ?_, fun h idx hidx => ?_⟩
    · by_contra hlt
      have hzero := h (2 ^ 8) (by omega)
      simp at hzero
    · exact toNat_ofNat_lt (by omega)
  rw [← htimer, ← fits_iff, ← fits_iff (n := xml.mutexes.length),
    ← fits_iff (n := xml.semaphores.length), ← forall_iff_of_map_eq_range tasks_idx]
  exact ⟨fun h => ⟨h.task, h.timer, h.mutex, h.sem⟩, fun ⟨h₁, h₂, h₃, h₄⟩ => ⟨h₁, h₂, h₃, h₄⟩⟩

/-! ### Loops -/

/-- For a `TimerId` it makes no difference that `TIMER_ID_MAX` is wider. -/
theorem timerLoop_eq (config : Config) :
    config.timerLoop = fun id => decide (id ≤ BitVec.ofNat 8 config.timers.length - 1) := by
  funext id
  rw [Config.timerLoop, Config.timerIdMax, decide_eq_decide]
  generalize BitVec.ofNat 8 config.timers.length = m
  have hid := id.isLt
  have hm := m.isLt
  bv_omega

theorem loopsVisitEach_iff : (configure xml).LoopsVisitEach ↔ 0 < xml.tasks.length ∧
    xml.tasks.length < 2 ^ xml.taskidSize ∧ xml.timers.length + xml.tasks.length < 2 ^ 8 := by
  have hsched : VisitsEach (configure xml).tasks.length (configure xml).schedLoop ↔
      0 < xml.tasks.length ∧ xml.tasks.length < 2 ^ xml.taskidSize := by
    rw [← length_tasks]
    exact visitsEach_le
  have hwaiter : VisitsEach (configure xml).tasks.length (configure xml).waiterLoop ↔
      xml.tasks.length < 2 ^ xml.taskidSize := by
    rw [← length_tasks]
    exact visitsEach_lt
  have htimer : VisitsEach (configure xml).timers.length (configure xml).timerLoop ↔
      0 < xml.timers.length + xml.tasks.length ∧ xml.timers.length + xml.tasks.length < 2 ^ 8 := by
    rw [← length_timers, timerLoop_eq]
    exact visitsEach_le
  have hne : (configure xml).timers ≠ [] ↔ 0 < xml.timers.length + xml.tasks.length := by
    rw [← length_timers, List.length_pos_iff]
  constructor
  · intro h
    obtain ⟨hpos, htasks⟩ := hsched.mp h.schedGetNext
    exact ⟨hpos, htasks, (htimer.mp (h.timerTickProcess (hne.mpr (by omega)))).2⟩
  · rintro ⟨hpos, htasks, htimers⟩
    exact ⟨fun _ => htimer.mpr ⟨by omega, htimers⟩, hsched.mpr ⟨hpos, htasks⟩,
      fun _ => hwaiter.mpr htasks, hwaiter.mpr htasks⟩

/-- The loops that are generated for a system description that compiles end, with identifiers that
    are wide enough, and do what the kernel's do on the configured objects. -/
theorem kernelConfig_loops {passed : Passed} (h : (configure xml).Compiles passed)
    (hpos : 0 < xml.tasks.length) (hlabels : xml.signalLabels.length < xml.signalsetSize)
    (htasks : xml.tasks.length < 2 ^ xml.taskidSize)
    (htimers : xml.timers.length + xml.tasks.length < 2 ^ 8)
    {S : Sched (configure xml).tasks.length (configure xml).mutexes.length}
    (k : Core (kernelConfig xml passed h hpos hlabels) S) :
    (∃ fuel, ∀ m, fuel ≤ m →
      timerTickProcess (configure xml).timerLoop m k = some (.ok (Core.timerTickProcess k))) ∧
    ∀ {ι : Type} [DecidableEq ι] (o : ι) waiters, ∃ fuel, ∀ m, fuel ≤ m →
      wakeWaiters (configure xml).waiterLoop o waiters m k =
        some (.ok (Core.wakeWaiters o waiters k)) := by
  have hloops := loopsVisitEach_iff.mpr ⟨hpos, htasks, htimers⟩
  have hne : (configure xml).timers ≠ [] := by
    rw [Ne, ← List.length_eq_zero_iff, length_timers]
    omega
  exact ⟨timerTickProcess_eq (hloops.timerTickProcess hne) k,
    fun o waiters => wakeWaiters_eq hloops.semPost o waiters k⟩

/-- A tick is pending that the timer `tick` expires at. -/
def tickPending : Core (kernelConfig twoTasks oneEvent compiles_twoTasks (by decide) (by decide))
    (kochabSched _ _) :=
  { Core.start with timerPendingTicks := 1, timerCurrentTicks := 9 }

theorem kernelConfig_loops_tickPending : ∃ fuel, ∀ m, fuel ≤ m →
    timerTickProcess (configure twoTasks).timerLoop m tickPending =
      some (.ok (Core.timerTickProcess tickPending)) :=
  (kernelConfig_loops compiles_twoTasks (by decide) (by decide) (by decide) (by decide)
    tickPending).1

/-! ### `sched_get_next`

    With identifiers that fit, the loops on the generated table compute what they compute on the
    tasks themselves. -/

section SchedGetNext

variable {s : PrioInherit.State n}

theorem blockedOn_ofNat (h : n < 2 ^ w) (t : Fin n) :
    blockedOn s (BitVec.ofNat w t) = some (idOption w (s t)) := by
  have ht : (BitVec.ofNat w t).toNat = t := toNat_ofNat_lt (t.isLt.trans h)
  simp [blockedOn, ht]

/-- What the loops do with an outcome of `PrioInherit.followChain` or `PrioInherit.searchFrom`. -/
def exit (w : ℕ) : Option (Fin n) → Except (Exit w) (BitVec w)
  | some t => .error (.found (BitVec.ofNat w t))
  | none => .ok (idNone w)

theorem followChain_eq (h : n < 2 ^ w) : ∀ (fuel : ℕ) (t : Fin n),
    followChain s fuel (BitVec.ofNat w t) = (PrioInherit.followChain s fuel t).map (exit w)
  | 0, _ => rfl
  | fuel + 1, t => by
    rw [followChain, PrioInherit.followChain, blockedOn_ofNat h]
    cases hs : s t with
    | none => simp [idOption, exit, (ofNat_ne_idNone h t).symm]
    | some u =>
      by_cases hut : u = t
      · simp [idOption, exit, hut]
      · simp [idOption, ofNat_eq_iff h, hut, ofNat_ne_idNone h, followChain_eq h fuel u]

theorem forEach_followChain (h : n < 2 ^ w) (fuel : ℕ) : ∀ (l : List (Fin n)) (task : BitVec w),
    forEach (fun (idx : Fin n) _ => followChain s fuel (BitVec.ofNat w idx)) l task =
      (PrioInherit.searchFrom s fuel l).map fun next =>
        if l = [] then .ok task else exit w next
  | [], task => rfl
  | idx :: l, task => by
    rw [forEach, PrioInherit.searchFrom, followChain_eq h]
    cases PrioInherit.followChain s fuel idx with
    | none => rfl
    | some next =>
      cases next with
      | some t => rfl
      | none =>
        rw [Option.map_some, exit]
        simp only [forEach_followChain h fuel l, List.cons_ne_nil, if_false]
        cases l <;> rfl

/-- `sched_get_next` on identifiers that fit. -/
theorem schedGetNext_eq {config : Config} (h : StopsAt config.tasks.length config.schedLoop)
    (hpos : 0 < config.tasks.length) (s : PrioInherit.State config.tasks.length) {fuel : ℕ}
    (hfuel : config.tasks.length < fuel) (task : BitVec config.taskidSize) :
    schedGetNext config s fuel task =
      (PrioInherit.searchFrom s fuel (List.finRange config.tasks.length)).map (exit _) := by
  rw [schedGetNext, countFrom_eq h _ _ hfuel, forEach_followChain h.lt]
  have hne : List.finRange config.tasks.length ≠ [] := by
    rw [Ne, List.finRange_eq_nil_iff]
    omega
  simp only [hne, if_false]

end SchedGetNext

/-- `sched_get_next` ends, whatever its local variable holds at first. -/
def SchedGetNextEnds (config : Config) (s : PrioInherit.State config.tasks.length) : Prop :=
  ∀ task, ∃ fuel, ∀ k, fuel ≤ k → (schedGetNext config s k task).isSome

theorem schedGetNextEnds_iff {config : Config} (h : config.LoopsVisitEach)
    (hpos : 0 < config.tasks.length) (s : PrioInherit.State config.tasks.length) :
    SchedGetNextEnds config s ↔ PrioInherit.SearchEnds s (List.finRange config.tasks.length) := by
  have hsorted := List.pairwise_lt_finRange config.tasks.length
  have heq : ∀ k task, config.tasks.length < k → (schedGetNext config s k task).isSome =
      (PrioInherit.searchFrom s k (List.finRange config.tasks.length)).isSome := by
    intro k task hk
    rw [schedGetNext_eq h.schedGetNext.stopsAt hpos s hk, Option.isSome_map]
  constructor
  · intro hends
    obtain ⟨fuel, hfuel⟩ := hends 0
    have hsome := hfuel (max fuel (config.tasks.length + 1)) (by omega)
    rw [heq _ _ (by omega)] at hsome
    exact PrioInherit.searchEnds_of_isSome hsorted hsome
  · intro hsearch task
    obtain ⟨fuel, hfuel⟩ := hsearch.isSome hsorted
    refine ⟨max fuel (config.tasks.length + 1), fun k hk => ?_⟩
    rw [heq k task (by omega)]
    exact hfuel k (by omega)

/-- Identifiers are wide enough, and the loops over them end, exactly if there is a task, the number
    of tasks, of all timers, of mutexes and of semaphores is below the sentinel's successor, and no
    chain of blocked tasks goes round a cycle before the scheduler has found a runnable task. -/
theorem identifiers_wide_enough (xml : XmlConfig)
    (s : PrioInherit.State (configure xml).tasks.length) :
    ((configure xml).IdsFit ∧ (configure xml).LoopsVisitEach ∧ SchedGetNextEnds (configure xml) s) ↔
      (0 < xml.tasks.length ∧ xml.tasks.length < 2 ^ xml.taskidSize ∧
        xml.timers.length + xml.tasks.length < 2 ^ 8 ∧ xml.mutexes.length < 2 ^ 8 ∧
        xml.semaphores.length < 2 ^ 8) ∧
      ∀ t, Ends s t ∨ ∃ u, u < t ∧ ∃ root, EndsIn s u root := by
  have hsearch : PrioInherit.SearchEnds s (List.finRange (configure xml).tasks.length) ↔
      ∀ t, Ends s t ∨ ∃ u, u < t ∧ ∃ root, EndsIn s u root := by
    simp [PrioInherit.SearchEnds]
  rw [idsFit_iff]
  constructor
  · rintro ⟨⟨-, -, hmutexes, hsemaphores⟩, hloops, hends⟩
    obtain ⟨hpos, htasks, htimers⟩ := loopsVisitEach_iff.mp hloops
    exact ⟨⟨hpos, htasks, htimers, hmutexes, hsemaphores⟩,
      hsearch.mp ((schedGetNextEnds_iff hloops (length_tasks ▸ hpos) s).mp hends)⟩
  · rintro ⟨⟨hpos, htasks, htimers, hmutexes, hsemaphores⟩, hends⟩
    have hloops := loopsVisitEach_iff.mpr ⟨hpos, htasks, htimers⟩
    exact ⟨⟨htasks, htimers.le, hmutexes, hsemaphores⟩, hloops,
      (schedGetNextEnds_iff hloops (length_tasks ▸ hpos) s).mpr (hsearch.mpr hends)⟩

/-- One task and 255 timers of the user's: with the task's own timer, `TIMER_ID_MAX` is `UINT_MAX`. -/
def manyTimers : XmlConfig where
  signalsetSize := 8
  taskidSize := 8
  namePrefix := none
  signalLabels := []
  tasks := [⟨"main", 1⟩]
  timers := (List.range 255).map fun i => ⟨"t" ++ toString i, false, 0, 0, none, none⟩
  mutexes := []
  semaphores := []

/-- The loop of `timer_tick_process` goes on forever, whatever its turns do. -/
theorem timer_loop_never_ends :
    (∀ fuel, countFrom (configure manyTimers).timerLoop
      (entryTurn fun c (_ : Fin (configure manyTimers).timers.length) => c + 1) fuel 0 0 = none) ∧
    ¬ ((configure manyTimers).IdsFit ∧ (configure manyTimers).LoopsVisitEach ∧
      SchedGetNextEnds (configure manyTimers) some) := by
  have hlen : (configure manyTimers).timers.length = 256 := by simp [length_timers, manyTimers]
  refine ⟨fun fuel => countFrom_eq_none (fun id => ?_) (by rw [hlen]; decide) _ fuel 0 0, ?_⟩
  · rw [timerLoop_eq, hlen]
    simpa [BitVec.le_def] using Nat.le_of_lt_succ id.isLt
  · rintro ⟨-, hloops, -⟩
    have htimers := (loopsVisitEach_iff.mp hloops).2.2
    rw [← length_timers, hlen] at htimers
    exact absurd htimers (by decide)

end Echronos.Configure.Kochab
