import Echronos.Configure.Module
import Echronos.Schemes.Except
import Echronos.Schemes.FirstFit

/-! # `RigelModule.configure`

    Rigel gives two signal labels the same bit where no task uses both. The labels are numbered in
    alphabetical order, each with the least number that no label of a common task holds yet. -/

namespace Echronos.Configure.Rigel

open Schemes

section Assign

variable {α : Type} [LinearOrder α]

/-- The least of `possible_vals` that no label in a common signal set holds. -/
def leastUnused (sigSets : List (List α)) (possibleVals : List ℕ) (assigned : α → Option ℕ)
    (sig : α) : Option ℕ :=
  let usedVals := (sigSets.filter (sig ∈ ·)).map (·.map assigned)
  (possibleVals.filter fun v => ∀ used ∈ usedVals, some v ∉ used).min?

/-- The loop over the sorted signals; the minimum of an empty set raises `ValueError`. -/
def assignEach (sigSets : List (List α)) (possibleVals : List ℕ) :
    List α → (α → Option ℕ) → Except Exn (α → Option ℕ)
  | [], assigned => .ok assigned
  | sig :: rest, assigned =>
    match leastUnused sigSets possibleVals assigned sig with
    | none => .error .valueError
    | some v => assignEach sigSets possibleVals rest (Function.update assigned sig (some v))

/-- `assign_signal_vals`; the dictionary it returns is a partial function. -/
def assignSignalVals (sigSets : List (List α)) : Except Exn (α → Option ℕ) := do
  let signals := sigSets.flatten.dedup
  let possibleVals := List.range signals.length
  let assigned ← assignEach sigSets possibleVals (signals.insertionSort (· ≤ ·)) fun _ => none
  if sigSets.all fun sigSet => (sigSet.map assigned).dedup.length = sigSet.length then
    return assigned
  else
    throw .assertionError

end Assign

structure XmlTask where
  name : String
  start : Bool
  deriving DecidableEq

/-- A signal label; the schema asks for exactly one of `global` and `tasks`. -/
structure XmlLabel where
  name : String
  global : Option Bool
  tasks : Option (List String)
  deriving DecidableEq

structure XmlInterruptEvent where
  name : String
  sigSet : String
  deriving DecidableEq

structure XmlConfig where
  signalsetSize : ℕ
  namePrefix : Option String
  tasks : List XmlTask
  signalLabels : List XmlLabel
  interruptEvents : List XmlInterruptEvent
  timers : List XmlTimer

structure Config where
  signalsetSize : ℕ
  interrupteventidSize : ℕ
  taskidSize : ℕ
  prefixes : NamePrefixes
  signalLabels : List SignalLabel
  signalSets : List SignalSet
  interruptEvents : List XmlInterruptEvent
  tasks : List (Task XmlTask)
  timers : List TimerEntry

/-- The signal labels with the built-in ones. -/
def XmlConfig.labels (xml : XmlConfig) : List XmlLabel :=
  xml.signalLabels ++ [⟨"_task_timer", some true, none⟩, ⟨"_rtos_util", some true, none⟩]

/-- `sig.get('global', False) or task['name'] in [t['name'] for t in sig['tasks']]`; iterating over
    a missing list of tasks raises `TypeError`. -/
def XmlLabel.usableBy (sig : XmlLabel) (task : String) : Except Exn Bool :=
  if sig.global = some true then .ok true
  else match sig.tasks with
    | some tasks => .ok (task ∈ tasks)
    | none => .error .typeError

/-- The names of the signals of one task. -/
def sigSet (task : String) : List XmlLabel → Except Exn (List String)
  | [] => .ok []
  | sig :: rest => do
    let usable ← sig.usableBy task
    let names ← sigSet task rest
    return if usable then sig.name :: names else names

/-- `sig['idx'] = label_ids[sig['name']]` -/
def withId (labelIds : String → Option ℕ) (sig : XmlLabel) : Except Exn SignalLabel :=
  match labelIds sig.name with
  | some idx => .ok ⟨sig.name, idx⟩
  | none => .error (.keyError sig.name)

def checkInterruptEvent (signalSetNames : List String) (e : XmlInterruptEvent) : Except Exn Unit :=
  if e.sigSet ∈ signalSetNames then .ok ()
  else .error (.systemParseError
    ("Unknown signal-set '" ++ e.sigSet ++ "' in interrupt_event '" ++ e.name ++ "'"))

def checkTimer (signalSetNames : List String) (t : TimerEntry) : Except Exn Unit :=
  match t.sigSet with
  | none => .ok ()
  | some sigSet =>
    if sigSet ∈ signalSetNames then .ok ()
    else .error (.systemParseError
      ("Unknown signal-set '" ++ sigSet ++ "' in timer '" ++ t.name ++ "'"))

/-- `configure` -/
def configure (xml : XmlConfig) : Except Exn Config := do
  if ¬ xml.tasks.any (·.start) then
    throw (.systemParseError "At least one task must be configured to start.")
  let sigSets ← xml.tasks.mapM fun task => sigSet task.name xml.labels
  let labelIds ← assignSignalVals sigSets
  let signalLabels ← xml.labels.mapM (withId labelIds)
  let signalSets := signalLabels.map SignalLabel.signalSet
  let signalSetNames := signalSets.map (·.name)
  xml.interruptEvents.forM (checkInterruptEvent signalSetNames)
  (addIndex xml.timers).forM (checkTimer signalSetNames)
  let created := createTaskTimers XmlTask.name 0 xml.tasks (addIndex xml.timers)
  return {
    signalsetSize := xml.signalsetSize
    interrupteventidSize := 8
    taskidSize := 8
    prefixes := namePrefixes xml.namePrefix
    signalLabels := signalLabels
    signalSets := signalSets
    interruptEvents := xml.interruptEvents
    tasks := created.1
    timers := created.2 }

/-! ### What `assign_signal_vals` returns -/

section Assigned

variable {α : Type} [LinearOrder α] {sigSets : List (List α)} {possibleVals : List ℕ}
  {assigned assigned' : α → Option ℕ} {rank : α → ℕ} {done : Finset α} {sig : α} {v : ℕ}

/-- Some signal set holds both labels. -/
def Common (sigSets : List (List α)) (a b : α) : Prop := ∃ sigSet ∈ sigSets, a ∈ sigSet ∧ b ∈ sigSet

theorem unused_iff : (∀ used ∈ (sigSets.filter (sig ∈ ·)).map (·.map assigned), some v ∉ used) ↔
    ∀ b, Common sigSets sig b → assigned b ≠ some v := by
  simp only [List.mem_map, List.mem_filter, decide_eq_true_eq, Common]
  constructor
  · rintro h b ⟨sigSet, hmem, hsig, hb⟩ hi
    exact h _ ⟨sigSet, ⟨hmem, hsig⟩, rfl⟩ (List.mem_map.mpr ⟨b, hb, hi⟩)
  · rintro h _ ⟨sigSet, ⟨hmem, hsig⟩, rfl⟩ hi
    obtain ⟨b, hb, hi⟩ := List.mem_map.mp hi
    exact h b ⟨sigSet, hmem, hsig, hb⟩ hi

/-- What the minimum says: the number is unused, and every lower one is used. -/
theorem leastUnused_eq_some : leastUnused sigSets possibleVals assigned sig = some v ↔
    v ∈ possibleVals ∧ (∀ b, Common sigSets sig b → assigned b ≠ some v) ∧
      ∀ i ∈ possibleVals, i < v → ∃ b, Common sigSets sig b ∧ assigned b = some i := by
  rw [leastUnused, List.min?_eq_some_iff]
  simp only [List.mem_filter, decide_eq_true_eq, unused_iff]
  refine and_assoc.trans (and_congr_right fun _ => and_congr_right fun _ => ?_)
  constructor
  · intro hmin i hi hlt
    by_contra hnone
    push Not at hnone
    exact absurd (hmin i ⟨hi, hnone⟩) (by omega)
  · rintro htaken i ⟨hi, hfree⟩
    by_contra hlt
    obtain ⟨b, hb, hbi⟩ := htaken i hi (by omega)
    exact hfree b hb hbi

theorem leastUnused_isSome (hv : v ∈ possibleVals) (hfree : ∀ b, assigned b ≠ some v) :
    ∃ i, leastUnused sigSets possibleVals assigned sig = some i := by
  refine Option.isSome_iff_exists.mp (List.isSome_min?_of_mem (a := v) ?_)
  simp only [List.mem_filter, decide_eq_true_eq, unused_iff]
  exact ⟨hv, fun b _ => hfree b⟩

/-- `assigned` holds the numbers of the labels in `done`, which are those of a first fit. -/
structure Numbered (sigSets : List (List α)) (done : Finset α) (assigned : α → Option ℕ)
    (rank : α → ℕ) : Prop where
  firstFit : Schemes.FirstFit done (Common sigSets) rank
  eq_rank : ∀ a ∈ done, assigned a = some (rank a)
  eq_none : ∀ a ∉ done, assigned a = none

namespace Numbered

theorem mem (h : Numbered sigSets done assigned rank) {a : α} (ha : assigned a = some v) :
    a ∈ done ∧ rank a = v := by
  by_cases hmem : a ∈ done
  · exact ⟨hmem, Option.some.inj ((h.eq_rank a hmem).symm.trans ha)⟩
  · simp [h.eq_none a hmem] at ha

theorem empty : Numbered sigSets ∅ (fun _ => none) rank :=
  ⟨by simpa using Schemes.FirstFit.empty, by simp, by simp⟩

/-- One turn of the loop numbers one more label. -/
theorem insert {n : ℕ} (h : Numbered sigSets done assigned rank) (hlast : ∀ a ∈ done, a < sig)
    (hv : leastUnused sigSets (List.range n) assigned sig = some v) :
    Numbered sigSets (insert sig done) (Function.update assigned sig (some v))
      (Function.update rank sig v) := by
  obtain ⟨hrange, hfree, htaken⟩ := leastUnused_eq_some.mp hv
  have hold : ∀ a ∈ done, a ≠ sig := fun a ha => (hlast a ha).ne
  refine ⟨?_, fun a ha => ?_, fun a ha => ?_⟩
  · rw [Finset.coe_insert]
    refine h.firstFit.insert hlast (fun b hb hcommon heq => ?_) fun i hi => ?_
    · exact hfree b hcommon (heq ▸ h.eq_rank b hb)
    · obtain ⟨b, hcommon, hb⟩ :=
        htaken i (List.mem_range.mpr (hi.trans (List.mem_range.mp hrange))) hi
      exact ⟨b, (h.mem hb).1, hcommon, (h.mem hb).2⟩
  · rcases Finset.mem_insert.mp ha with rfl | ha
    · simp
    · rw [Function.update_of_ne (hold a ha), Function.update_of_ne (hold a ha), h.eq_rank a ha]
  · obtain ⟨hne, ha⟩ : a ≠ sig ∧ a ∉ done := by simpa using ha
    rw [Function.update_of_ne hne, h.eq_none a ha]

/-- As long as not every label is numbered, a number is left. -/
theorem exists_unused {n : ℕ} (h : Numbered sigSets done assigned rank) (hcard : done.card < n) :
    ∃ i ∈ List.range n, ∀ a, assigned a ≠ some i := by
  obtain ⟨i, hi, hfree⟩ : ∃ i ∈ Finset.range n, i ∉ done.image rank :=
    Finset.exists_mem_notMem_of_card_lt_card
      (Finset.card_image_le.trans_lt (by simpa using hcard))
  refine ⟨i, by simpa using hi, fun a ha => hfree (Finset.mem_image.mpr ⟨a, ?_⟩)⟩
  exact h.mem ha

/-- The whole loop numbers every label that is left. -/
theorem assignEach {n : ℕ} : ∀ {rest : List α} {done : Finset α} {assigned : α → Option ℕ}
    {rank : α → ℕ}, Numbered sigSets done assigned rank → rest.Pairwise (· < ·) →
    (∀ a ∈ done, ∀ b ∈ rest, a < b) → done.card + rest.length = n →
    ∃ assigned' rank', assignEach sigSets (List.range n) rest assigned = .ok assigned' ∧
      Numbered sigSets (done ∪ rest.toFinset) assigned' rank'
  | [], done, assigned, rank, h, _, _, _ => ⟨assigned, rank, rfl, by simpa using h⟩
  | sig :: rest, done, assigned, rank, h, hsorted, hlast, hn => by
    obtain ⟨hfirst, hrest⟩ := List.pairwise_cons.mp hsorted
    have hlast' : ∀ a ∈ done, a < sig := fun a ha => hlast a ha sig List.mem_cons_self
    have hnew : sig ∉ done := fun hmem => lt_irrefl _ (hlast' sig hmem)
    obtain ⟨i, hi, hunused⟩ := h.exists_unused (n := n) (by rw [List.length_cons] at hn; omega)
    obtain ⟨v, hv⟩ : ∃ v, leastUnused sigSets (List.range n) assigned sig = some v :=
      leastUnused_isSome hi hunused
    obtain ⟨assigned', rank', hok, hnum⟩ := assignEach (n := n) (h.insert hlast' hv) hrest
      (fun a ha b hb => by
        rcases Finset.mem_insert.mp ha with rfl | ha
        · exact hfirst b hb
        · exact hlast a ha b (List.mem_cons_of_mem _ hb))
      (by rw [Finset.card_insert_of_notMem hnew, ← hn, List.length_cons]; omega)
    refine ⟨assigned', rank', by simpa [Rigel.assignEach, hv] using hok, ?_⟩
    simpa [Finset.insert_union, Finset.union_insert] using hnum

/-- Two labels of a signal set have different numbers. -/
theorem injOn (h : Numbered sigSets done assigned rank) {sigSet : List α} (hmem : sigSet ∈ sigSets)
    (hdone : ∀ a ∈ sigSet, a ∈ done) :
    ∀ a ∈ sigSet, ∀ b ∈ sigSet, assigned a = assigned b → a = b := by
  intro a ha b hb hab
  by_contra hne
  refine h.firstFit.ne_of_conflict (fun a b ⟨s, hs, ha, hb⟩ => ⟨s, hs, hb, ha⟩)
    (hdone a ha) (hdone b hb) hne ⟨sigSet, hmem, ha, hb⟩ ?_
  simpa [h.eq_rank a (hdone a ha), h.eq_rank b (hdone b hb)] using hab

end Numbered

theorem sorted_signals (l : List α) : (l.dedup.insertionSort (· ≤ ·)).Pairwise (· < ·) := by
  have hnodup : (l.dedup.insertionSort (· ≤ ·)).Nodup :=
    (List.perm_insertionSort _ _).nodup_iff.mpr (List.nodup_dedup l)
  exact ((List.pairwise_insertionSort (· ≤ ·) l.dedup).and hnodup).imp fun h => h.1.lt_of_ne h.2

/-- The loop of `assign_signal_vals` never fails. -/
theorem exists_assignEach (sigSets : List (List α)) : ∃ assigned rank,
    assignEach sigSets (List.range sigSets.flatten.dedup.length)
      (sigSets.flatten.dedup.insertionSort (· ≤ ·)) (fun _ => none) = .ok assigned ∧
    Numbered sigSets sigSets.flatten.toFinset assigned rank := by
  have hempty : Numbered sigSets ∅ (fun _ => none) fun _ => 0 := .empty
  have hset : (sigSets.flatten.dedup.insertionSort (· ≤ ·)).toFinset = sigSets.flatten.toFinset := by
    ext a
    simp
  simpa only [hset, Finset.empty_union] using
    hempty.assignEach (sorted_signals sigSets.flatten) (by simp) (by simp)

theorem numbered_of_assignSignalVals (h : assignSignalVals sigSets = .ok assigned) :
    ∃ rank, Numbered sigSets sigSets.flatten.toFinset assigned rank := by
  obtain ⟨assigned', rank, hok, hnum⟩ := exists_assignEach sigSets
  simp only [assignSignalVals, hok, bind, Except.bind] at h
  split at h
  · exact ⟨rank, Except.ok.inj h ▸ hnum⟩
  · cases h

/-- The assertion of `assign_signal_vals` rejects exactly the signal sets with a label twice. -/
theorem assignSignalVals_isOk : (∃ assigned, assignSignalVals sigSets = .ok assigned) ↔
    ∀ sigSet ∈ sigSets, sigSet.Nodup := by
  obtain ⟨assigned, rank, hok, hnum⟩ := exists_assignEach sigSets
  have hset : ∀ sigSet ∈ sigSets, ((sigSet.map assigned).dedup.length = sigSet.length ↔
      sigSet.Nodup) := by
    intro sigSet hmem
    have hinj := hnum.injOn hmem fun a ha => by
      rw [List.mem_toFinset]
      exact List.mem_flatten_of_mem hmem ha
    constructor
    · intro hlen
      have hmap := (List.dedup_sublist (sigSet.map assigned)).eq_of_length (by simpa using hlen)
      exact List.Nodup.of_map assigned (List.dedup_eq_self.mp hmap)
    · intro hnodup
      rw [List.dedup_eq_self.mpr (hnodup.map_on hinj), List.length_map]
  rw [← forall₂_congr hset]
  simp only [assignSignalVals, hok, bind, Except.bind]
  split
  · rename_i hall
    simpa [pure, Except.pure] using hall
  · rename_i hall
    simpa [throw, throwThe, MonadExceptOf.throw] using hall

end Assigned

/-! ### What an accepted configuration satisfies -/

/-- A task can use a signal if it is global or configured for the task. -/
def XmlLabel.UsableBy (sig : XmlLabel) (task : String) : Prop :=
  sig.global = some true ∨ ∃ tasks, sig.tasks = some tasks ∧ task ∈ tasks

/-- Some label of that name can be used by the task. -/
def XmlConfig.Uses (xml : XmlConfig) (task : XmlTask) (name : String) : Prop :=
  ∃ sig ∈ xml.labels, sig.name = name ∧ sig.UsableBy task.name

/-- Some task can use both labels. -/
def XmlConfig.Conflict (xml : XmlConfig) (a b : String) : Prop :=
  ∃ task ∈ xml.tasks, xml.Uses task a ∧ xml.Uses task b

theorem usableBy_eq_ok {sig : XmlLabel} {task : String} {b : Bool}
    (h : sig.usableBy task = .ok b) : b = true ↔ sig.UsableBy task := by
  unfold XmlLabel.usableBy at h
  unfold XmlLabel.UsableBy
  split_ifs at h with hglobal
  · simp [← Except.ok.inj h, hglobal]
  · split at h
    · rename_i tasks htasks
      simp [← Except.ok.inj h, hglobal, htasks]
    · cases h

theorem mem_sigSet {task name : String} : ∀ {labels : List XmlLabel} {names : List String},
    sigSet task labels = .ok names →
    (name ∈ names ↔ ∃ sig ∈ labels, sig.name = name ∧ sig.UsableBy task)
  | [], names, h => by
    cases h
    simp
  | sig :: rest, names, h => by
    obtain ⟨usable, husable, h⟩ := bind_eq_ok.mp h
    obtain ⟨names', hrest, h⟩ := bind_eq_ok.mp h
    obtain rfl := Except.ok.inj h
    have hu := usableBy_eq_ok husable
    have ih : name ∈ names' ↔ ∃ sig ∈ rest, sig.name = name ∧ sig.UsableBy task := mem_sigSet hrest
    cases usable <;> simp_all [eq_comm]

section SigSets

variable {xml : XmlConfig} {sigSets : List (List String)}

theorem mem_flatten_sigSets
    (h : (xml.tasks.mapM fun task => sigSet task.name xml.labels) = .ok sigSets) (name : String) :
    name ∈ sigSets.flatten ↔ ∃ task ∈ xml.tasks, xml.Uses task name := by
  rw [List.mem_flatten]
  constructor
  · rintro ⟨names, hmem, hname⟩
    obtain ⟨task, htask, hnames⟩ := (mem_of_mapM h names).mp hmem
    exact ⟨task, htask, (mem_sigSet hnames).mp hname⟩
  · rintro ⟨task, htask, huses⟩
    obtain ⟨names, hmem, hnames⟩ := ok_of_mapM h task htask
    exact ⟨names, hmem, (mem_sigSet hnames).mpr huses⟩

theorem common_sigSets
    (h : (xml.tasks.mapM fun task => sigSet task.name xml.labels) = .ok sigSets) :
    Common sigSets = xml.Conflict := by
  ext a b
  constructor
  · rintro ⟨names, hmem, ha, hb⟩
    obtain ⟨task, htask, hnames⟩ := (mem_of_mapM h names).mp hmem
    exact ⟨task, htask, (mem_sigSet hnames).mp ha, (mem_sigSet hnames).mp hb⟩
  · rintro ⟨task, htask, ha, hb⟩
    obtain ⟨names, hmem, hnames⟩ := ok_of_mapM h task htask
    exact ⟨names, hmem, (mem_sigSet hnames).mpr ha, (mem_sigSet hnames).mpr hb⟩

end SigSets

/-- The names of all signal labels, the built-in ones included. -/
def XmlConfig.labelNames (xml : XmlConfig) : Set String :=
  {name | ∃ sig ∈ xml.labels, sig.name = name}

theorem XmlConfig.finite_labelNames (xml : XmlConfig) : xml.labelNames.Finite := by
  have h : xml.labelNames = ↑(xml.labels.map (·.name)).toFinset := by
    ext name
    simp [XmlConfig.labelNames]
  rw [h]
  exact Finset.finite_toSet _

theorem withId_eq_ok {labelIds : String → Option ℕ} {sig : XmlLabel} {l : SignalLabel}
    (h : withId labelIds sig = .ok l) : labelIds sig.name = some l.idx ∧ l.name = sig.name := by
  unfold withId at h
  split at h
  · rename_i idx hidx
    obtain rfl := Except.ok.inj h
    exact ⟨hidx, rfl⟩
  · cases h

/-- An accepted configuration numbers its labels by first fit. -/
theorem configure_eq_ok {xml : XmlConfig} {config : Config} (h : configure xml = .ok config) :
    ∃ rank : String → ℕ, Schemes.FirstFit xml.labelNames xml.Conflict rank ∧
      config.signalsetSize = xml.signalsetSize ∧
      config.signalLabels = xml.labels.map (fun sig => ⟨sig.name, rank sig.name⟩) ∧
      config.signalSets = config.signalLabels.map SignalLabel.signalSet := by
  unfold configure at h
  split at h
  · cases h
  obtain ⟨sigSets, hsets, h⟩ := bind_eq_ok.mp h
  obtain ⟨labelIds, hids, h⟩ := bind_eq_ok.mp h
  obtain ⟨signalLabels, hlabels, h⟩ := bind_eq_ok.mp h
  obtain ⟨-, -, h⟩ := bind_eq_ok.mp h
  obtain ⟨-, -, h⟩ := bind_eq_ok.mp h
  obtain rfl := Except.ok.inj h
  obtain ⟨rank, hnum⟩ := numbered_of_assignSignalVals hids
  refine ⟨rank, ?_, rfl, ?_, rfl⟩
  · -- every label has an id, so every label is used by some task
    have hset : xml.labelNames = ↑sigSets.flatten.toFinset := by
      ext name
      rw [Finset.mem_coe, List.mem_toFinset]
      constructor
      · rintro ⟨sig, hsig, rfl⟩
        obtain ⟨l, -, hl⟩ := ok_of_mapM hlabels sig hsig
        exact List.mem_toFinset.mp (hnum.mem (withId_eq_ok hl).1).1
      · intro hname
        obtain ⟨-, -, sig, hsig, hname, -⟩ := (mem_flatten_sigSets hsets name).mp hname
        exact ⟨sig, hsig, hname⟩
    rw [hset, ← common_sigSets hsets]
    exact hnum.firstFit
  · have hall : List.Forall₂ (fun sig l => SignalLabel.mk sig.name (rank sig.name) = l) xml.labels
        signalLabels := (mapM_eq_ok hlabels).imp fun sig l hl => by
      obtain ⟨hid, hname⟩ := withId_eq_ok hl
      rw [(hnum.mem hid).2, ← hname]
    rw [← List.forall₂_map_left_iff, List.forall₂_eq_eq_eq] at hall
    exact hall.symm

end Echronos.Configure.Rigel
