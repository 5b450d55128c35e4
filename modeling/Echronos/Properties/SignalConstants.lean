import Echronos.Configure.Rigel
import Echronos.Configure.Kochab
import Echronos.Configure.Phact

/-! # Signal constants

    A signal label can be used for waiting and sending only if its constant has a bit at all, and
    signals of one task can be told apart only if their constants have no bit in common. The width
    of `SignalSet` is configured apart from the labels, and no `configure` compares the two. -/

namespace Echronos.Configure

variable {signalsetSize : ℕ} {labels : List SignalLabel} {together : String → String → Prop}

/-- The generated constants can be used: none is empty, and those of two labels that some task can
    use together are disjoint. -/
structure ConstantsUsable (signalsetSize : ℕ) (signalSets : List SignalSet)
    (together : String → String → Prop) : Prop where
  ne_zero : ∀ s ∈ signalSets, s.constant signalsetSize ≠ 0
  disjoint : ∀ s ∈ signalSets, ∀ s' ∈ signalSets, s.name ≠ s'.name → together s.name s'.name →
    s.constant signalsetSize &&& s'.constant signalsetSize = 0

theorem getLsbD_constant (sig : SignalLabel) (i : ℕ) :
    (sig.signalSet.constant signalsetSize).getLsbD i = decide (i < signalsetSize ∧ sig.idx = i) := by
  rw [SignalSet.constant, SignalLabel.signalSet, BitVec.getLsbD_ofNat, Nat.one_shiftLeft,
    Nat.testBit_two_pow]
  simp

theorem constant_ne_zero (sig : SignalLabel) :
    sig.signalSet.constant signalsetSize ≠ 0 ↔ sig.idx < signalsetSize := by
  rw [Ne, BitVec.eq_of_getLsbD_eq_iff]
  simp [getLsbD_constant]

theorem constant_disjoint {sig sig' : SignalLabel} (h : sig.idx ≠ sig'.idx) :
    sig.signalSet.constant signalsetSize &&& sig'.signalSet.constant signalsetSize = 0 := by
  refine BitVec.eq_of_getLsbD_eq fun i _ => ?_
  simp only [BitVec.getLsbD_and, getLsbD_constant, ← Bool.decide_and]
  exact (decide_eq_false (by omega)).trans BitVec.getLsbD_zero.symm

/-- Labels with numbers of their own wherever a task uses both need just a bit for each number. -/
theorem constantsUsable_iff (h : ∀ sig ∈ labels, ∀ sig' ∈ labels, sig.name ≠ sig'.name →
    together sig.name sig'.name → sig.idx ≠ sig'.idx) :
    ConstantsUsable signalsetSize (labels.map SignalLabel.signalSet) together ↔
      ∀ sig ∈ labels, sig.idx < signalsetSize := by
  constructor
  · intro husable sig hsig
    exact (constant_ne_zero sig).mp (husable.ne_zero _ (List.mem_map_of_mem hsig))
  · intro hlt
    refine ⟨?_, ?_⟩
    · rintro _ hs
      obtain ⟨sig, hsig, rfl⟩ := List.mem_map.mp hs
      exact (constant_ne_zero sig).mpr (hlt sig hsig)
    · rintro _ hs _ hs' hname htogether
      obtain ⟨sig, hsig, rfl⟩ := List.mem_map.mp hs
      obtain ⟨sig', hsig', rfl⟩ := List.mem_map.mp hs'
      exact constant_disjoint (h sig hsig sig' hsig' hname htogether)

/-- The labels of Kochab and Phact are numbered by position. -/
theorem mem_withTaskTimer {names : List String} {sig : SignalLabel} :
    sig ∈ withTaskTimer names ↔ (names ++ ["_task_timer"])[sig.idx]? = some sig.name := by
  have hidx : withTaskTimer names =
      (names ++ ["_task_timer"]).mapIdx fun idx name => ⟨name, idx⟩ := by
    simp [withTaskTimer]
  rw [hidx, List.mem_mapIdx]
  constructor
  · rintro ⟨i, hi, rfl⟩
    exact List.getElem?_eq_getElem hi
  · intro h
    obtain ⟨hi, hname⟩ := List.getElem?_eq_some_iff.mp h
    exact ⟨sig.idx, hi, by rw [hname]⟩

theorem withTaskTimer_usable (names : List String) :
    ConstantsUsable signalsetSize ((withTaskTimer names).map SignalLabel.signalSet) together ↔
      names.length < signalsetSize := by
  rw [constantsUsable_iff]
  · constructor
    · intro h
      exact h ⟨"_task_timer", names.length⟩ (mem_withTaskTimer.mpr (by simp))
    · intro hlt sig hsig
      obtain ⟨hi, -⟩ := List.getElem?_eq_some_iff.mp (mem_withTaskTimer.mp hsig)
      rw [List.length_append, List.length_singleton] at hi
      omega
  · intro sig hsig sig' hsig' hname _ hidx
    have h := mem_withTaskTimer.mp hsig
    rw [hidx, mem_withTaskTimer.mp hsig'] at h
    exact hname (Option.some.inj h).symm

/-- Rigel's constants can be used if first fit gets by with `signalset_size` numbers. -/
theorem Rigel.usable_iff {xml : Rigel.XmlConfig} {config : Rigel.Config}
    (h : Rigel.configure xml = .ok config) :
    ConstantsUsable config.signalsetSize config.signalSets xml.Conflict ↔
      ∃ rank : String → ℕ, Schemes.FirstFit xml.labelNames xml.Conflict rank ∧
        ∀ name ∈ xml.labelNames, rank name < xml.signalsetSize := by
  obtain ⟨rank, hfit, hsize, hlabels, hsets⟩ := Rigel.configure_eq_ok h
  have hname : ∀ sig ∈ config.signalLabels, sig.name ∈ xml.labelNames ∧ sig.idx = rank sig.name := by
    intro sig hsig
    rw [hlabels] at hsig
    obtain ⟨label, hlabel, rfl⟩ := List.mem_map.mp hsig
    exact ⟨⟨label, hlabel, rfl⟩, rfl⟩
  rw [hsets, hsize, constantsUsable_iff]
  · constructor
    · rintro hlt
      refine ⟨rank, hfit, ?_⟩
      rintro _ ⟨label, hlabel, rfl⟩
      exact hlt ⟨label.name, rank label.name⟩ (hlabels ▸ List.mem_map_of_mem hlabel)
    · rintro ⟨rank', hfit', hlt⟩ sig hsig
      obtain ⟨hmem, hidx⟩ := hname sig hsig
      rw [hidx, hfit.eqOn hfit' xml.finite_labelNames hmem]
      exact hlt _ hmem
  · intro sig hsig sig' hsig' hne hconf
    obtain ⟨hmem, hidx⟩ := hname sig hsig
    obtain ⟨hmem', hidx'⟩ := hname sig' hsig'
    rw [hidx, hidx']
    exact hfit.ne_of_conflict (fun _ _ ⟨task, htask, ha, hb⟩ => ⟨task, htask, hb, ha⟩)
      hmem hmem' hne hconf

/-- The constants of Kochab and Phact can be used exactly if the user's labels leave a bit for
    `_task_timer`; those of Rigel exactly if the labels can be numbered below `signalset_size` so that
    each has a number other than those of the alphabetically earlier labels it shares a task with, and
    those hold all lower ones. -/
theorem signal_constants (kochab : Kochab.XmlConfig) (phact : Phact.XmlConfig)
    (rigel : Rigel.XmlConfig) (config : Rigel.Config) (h : Rigel.configure rigel = .ok config) :
    (ConstantsUsable (Kochab.configure kochab).signalsetSize (Kochab.configure kochab).signalSets
      (fun _ _ => True) ↔ kochab.signalLabels.length < kochab.signalsetSize) ∧
    (ConstantsUsable (Phact.configure phact).signalsetSize (Phact.configure phact).signalSets
      (fun _ _ => True) ↔ phact.signalLabels.length < phact.signalsetSize) ∧
    (ConstantsUsable config.signalsetSize config.signalSets rigel.Conflict ↔
      ∃ rank : String → ℕ, Schemes.FirstFit rigel.labelNames rigel.Conflict rank ∧
        ∀ name ∈ rigel.labelNames, rank name < rigel.signalsetSize) :=
  ⟨withTaskTimer_usable kochab.signalLabels, withTaskTimer_usable phact.signalLabels,
    Rigel.usable_iff h⟩

/-- One task and the given signal labels, with signal sets of eight bits. -/
def Kochab.oneTask (signalLabels : List String) : Kochab.XmlConfig where
  signalsetSize := 8
  taskidSize := 8
  namePrefix := none
  signalLabels := signalLabels
  tasks := [⟨"main", 1⟩]
  timers := []
  mutexes := []
  semaphores := []

/-- The same for Phact. -/
def Phact.oneTask (signalLabels : List String) : Phact.XmlConfig where
  signalsetSize := 8
  namePrefix := none
  signalLabels := signalLabels
  tasks := [⟨"main", 1⟩]
  timers := []
  mutexes := []

/-- Two tasks with a signal of their own each, and one signal for both. -/
def Rigel.twoTasks : Rigel.XmlConfig where
  signalsetSize := 8
  namePrefix := none
  tasks := [⟨"a", true⟩, ⟨"b", false⟩]
  signalLabels := [⟨"rx", none, some ["a"]⟩, ⟨"tx", none, some ["b"]⟩, ⟨"stop", some true, none⟩]
  interruptEvents := [⟨"uart", "rx"⟩]
  timers := []

/-- Seven labels leave a bit for `_task_timer`, and Rigel gives `rx` and `tx` the same bit. -/
theorem signal_constants_fit :
    ConstantsUsable 8 (Kochab.configure (Kochab.oneTask ["a", "b", "c", "d", "e", "f", "g"])).signalSets
      (fun _ _ => True) ∧
    ConstantsUsable 8 (Phact.configure (Phact.oneTask ["a", "b", "c", "d", "e", "f", "g"])).signalSets
      (fun _ _ => True) ∧
    ∃ config, Rigel.configure Rigel.twoTasks = .ok config ∧
      config.signalLabels.map (·.idx) = [2, 2, 3, 1, 0] ∧
      ConstantsUsable config.signalsetSize config.signalSets Rigel.twoTasks.Conflict := by
  have hrun : ((Rigel.configure Rigel.twoTasks).toOption.map fun config =>
      config.signalLabels.map (·.idx)) = some [2, 2, 3, 1, 0] := by decide
  cases h : Rigel.configure Rigel.twoTasks with
  | error e => simp [h, Except.toOption] at hrun
  | ok config =>
    have hidx : config.signalLabels.map (·.idx) = [2, 2, 3, 1, 0] := by
      simpa [h, Except.toOption] using hrun
    obtain ⟨hkochab, hphact, hrigel⟩ :=
      signal_constants (Kochab.oneTask ["a", "b", "c", "d", "e", "f", "g"])
        (Phact.oneTask ["a", "b", "c", "d", "e", "f", "g"]) Rigel.twoTasks config h
    obtain ⟨rank, hfit, -, hlabels, -⟩ := Rigel.configure_eq_ok h
    refine ⟨hkochab.mpr (by decide), hphact.mpr (by decide), config, rfl, hidx,
      hrigel.mpr ⟨rank, hfit, ?_⟩⟩
    rintro _ ⟨sig, hsig, rfl⟩
    have hmem : rank sig.name ∈ config.signalLabels.map (·.idx) := by
      rw [hlabels]
      simpa using ⟨sig, hsig, rfl⟩
    rw [hidx] at hmem
    exact (by decide : ∀ i ∈ [2, 2, 3, 1, 0], i < 8) _ hmem

/-- With eight labels the constant of `_task_timer` is 0, so `sleep` waits for no signal at all. -/
theorem task_timer_constant_zero : ¬ ConstantsUsable 8
    (Kochab.configure (Kochab.oneTask ["a", "b", "c", "d", "e", "f", "g", "h"])).signalSets
    (fun _ _ => True) := by
  intro h
  exact h.ne_zero ⟨"_task_timer", 256, true⟩ (by decide) (by decide)

end Echronos.Configure
