import Mathlib.Data.List.Sort
import Mathlib.Data.String.Basic

/-! # What the `configure` methods share

    A module turns the system description, once it is parsed against the schema, into the data that
    the code templates are rendered with. Parsing gives the entries of a list their positions as
    `idx`; `configure` then adds the built-in signal labels, the signal sets and one timer for every
    task. An entry refers to another one by name, as the generated macros do. -/

namespace Echronos.Configure

variable {τ : Type}

/-- The exceptions that reject a configuration. -/
inductive Exn
  | systemParseError (msg : String)
  | keyError (key : String)
  | typeError
  | valueError
  | assertionError
  deriving DecidableEq

/-- `prefix_func`, `prefix_type` and `prefix_const`. -/
structure NamePrefixes where
  func : String
  type : String
  const : String

def namePrefixes : Option String → NamePrefixes
  | some p => ⟨p ++ "_", p.toLower.capitalize, p.toUpper ++ "_"⟩
  | none => ⟨"", "", ""⟩

/-! ### Signals -/

structure SignalLabel where
  name : String
  idx : ℕ
  deriving DecidableEq

/-- The user's signal labels, each with its position as `idx`, and the built-in label of Kochab and
    Phact. -/
def withTaskTimer (signalLabels : List String) : List SignalLabel :=
  signalLabels.mapIdx (fun idx name => ⟨name, idx⟩) ++ [⟨"_task_timer", signalLabels.length⟩]

/-- An entry of `signal_sets`. -/
structure SignalSet where
  name : String
  value : ℕ
  singleton : Bool
  deriving DecidableEq

/-- `{'name': sig['name'], 'value': 1 << sig['idx'], 'singleton': True}` -/
def SignalLabel.signalSet (sig : SignalLabel) : SignalSet := ⟨sig.name, 1 <<< sig.idx, true⟩

/-- `SIGNAL_SET_<name>`: the value, cast to the unsigned type of `signalset_size` bits. -/
def SignalSet.constant (signalsetSize : ℕ) (s : SignalSet) : BitVec signalsetSize :=
  BitVec.ofNat signalsetSize s.value

/-! ### Timers -/

structure XmlTimer where
  name : String
  enabled : Bool
  reload : ℤ
  error : ℤ
  task : Option String
  sigSet : Option String
  deriving DecidableEq

structure TimerEntry extends XmlTimer where
  idx : ℕ
  deriving DecidableEq

/-- The user's timers with the `idx` that `add_index` gives them. -/
def addIndex (timers : List XmlTimer) : List TimerEntry := timers.mapIdx fun idx t => { t with idx }

/-- A task's entry with the fields that `configure` adds. -/
structure Task (τ : Type) where
  entry : τ
  idx : ℕ
  timer : TimerEntry
  deriving DecidableEq

/-- The timer of a task that is created when there are `idx` timers already. -/
def taskTimer (task : String) (idx : ℕ) : TimerEntry where
  name := "_task_" ++ task
  error := 0
  reload := 0
  task := some task
  idx := idx
  enabled := false
  sigSet := some "_task_timer"

/-- The loop that creates a timer for each task, from task number `idx` on. -/
def createTaskTimers (name : τ → String) :
    ℕ → List τ → List TimerEntry → List (Task τ) × List TimerEntry
  | _, [], timers => ([], timers)
  | idx, t :: rest, timers =>
    let timer := taskTimer (name t) timers.length
    let created := createTaskTimers name (idx + 1) rest (timers ++ [timer])
    (⟨t, idx, timer⟩ :: created.1, created.2)

variable {name : τ → String}

theorem createTaskTimers_timers : ∀ (idx : ℕ) (tasks : List τ) (timers : List TimerEntry),
    (createTaskTimers name idx tasks timers).2 =
      timers ++ (createTaskTimers name idx tasks timers).1.map (·.timer)
  | _, [], timers => by simp [createTaskTimers]
  | idx, t :: rest, timers => by
    simp [createTaskTimers, createTaskTimers_timers (idx + 1) rest]

@[simp] theorem createTaskTimers_entry : ∀ (idx : ℕ) (tasks : List τ) (timers : List TimerEntry),
    (createTaskTimers name idx tasks timers).1.map (·.entry) = tasks
  | _, [], _ => rfl
  | idx, t :: rest, timers => by simp [createTaskTimers, createTaskTimers_entry (idx + 1) rest]

/-- The tasks are numbered in the order in which they are visited. -/
theorem createTaskTimers_idx : ∀ (idx : ℕ) (tasks : List τ) (timers : List TimerEntry),
    (createTaskTimers name idx tasks timers).1.map (·.idx) = List.range' idx tasks.length
  | _, [], _ => rfl
  | idx, t :: rest, timers => by
    simp [createTaskTimers, createTaskTimers_idx (idx + 1) rest, List.range'_succ]

@[simp] theorem createTaskTimers_length (idx : ℕ) (tasks : List τ) (timers : List TimerEntry) :
    (createTaskTimers name idx tasks timers).1.length = tasks.length := by
  rw [← List.length_map Task.entry, createTaskTimers_entry]

theorem createTaskTimers_timer : ∀ (idx : ℕ) (tasks : List τ) (timers : List TimerEntry),
    ∀ t ∈ (createTaskTimers name idx tasks timers).1, ∃ i, t.timer = taskTimer (name t.entry) i
  | _, [], _, t, h => by simp [createTaskTimers] at h
  | idx, t :: rest, timers, u, h => by
    rcases List.mem_cons.mp h with rfl | h
    · exact ⟨_, rfl⟩
    · exact createTaskTimers_timer (idx + 1) rest _ u h

/-- Every timer's `idx` is its position, also after the tasks' timers are appended. -/
theorem createTaskTimers_timer_idx : ∀ (idx : ℕ) (tasks : List τ) (timers : List TimerEntry),
    timers.map (·.idx) = List.range timers.length →
    (createTaskTimers name idx tasks timers).2.map (·.idx) =
      List.range (timers.length + tasks.length)
  | _, [], _, h => by simpa [createTaskTimers] using h
  | idx, t :: rest, timers, h => by
    have hrest := createTaskTimers_timer_idx (idx + 1) rest
      (timers ++ [taskTimer (name t) timers.length])
      (by simp [h, taskTimer, List.range_succ])
    simpa [createTaskTimers, Nat.add_assoc, Nat.add_comm 1] using hrest

theorem addIndex_idx (timers : List XmlTimer) :
    (addIndex timers).map (·.idx) = List.range (addIndex timers).length := by
  apply List.ext_getElem <;> simp [addIndex]

theorem getElem?_idx {timers : List TimerEntry} (h : timers.map (·.idx) = List.range timers.length)
    {t : TimerEntry} (ht : t ∈ timers) : timers[t.idx]? = some t := by
  obtain ⟨i, hi, rfl⟩ := List.getElem_of_mem ht
  have hidx := congrArg (·[i]?) h
  simp only [List.getElem?_map, List.getElem?_eq_getElem hi, List.getElem?_range hi, Option.map_some,
    Option.some.injEq] at hidx
  rw [hidx, List.getElem?_eq_getElem hi]

@[simp] theorem addIndex_length (timers : List XmlTimer) :
    (addIndex timers).length = timers.length := by
  simp [addIndex]

/-- `lst.sort(key=itemgetter('priority'), reverse=True)`, which keeps the order of equals. -/
def sortByPriority (priority : τ → ℤ) (l : List τ) : List τ :=
  l.insertionSort fun a b => priority b ≤ priority a

@[simp] theorem sortByPriority_length (priority : τ → ℤ) (l : List τ) :
    (sortByPriority priority l).length = l.length :=
  List.length_insertionSort _ l

theorem sortByPriority_perm (priority : τ → ℤ) (l : List τ) : (sortByPriority priority l).Perm l :=
  List.perm_insertionSort _ l

theorem sortByPriority_pairwise (priority : τ → ℤ) (l : List τ) :
    (sortByPriority priority l).Pairwise fun a b => priority b ≤ priority a := by
  have : Std.Total fun a b : τ => priority b ≤ priority a := ⟨fun _ _ => le_total _ _⟩
  have : IsTrans τ fun a b => priority b ≤ priority a := ⟨fun _ _ _ hab hbc => hbc.trans hab⟩
  exact List.pairwise_insertionSort _ l

/-- With unique priorities the order is strict. -/
theorem sortByPriority_pairwise_lt {priority : τ → ℤ} {l : List τ} (h : (l.map priority).Nodup) :
    (sortByPriority priority l).Pairwise fun a b => priority b < priority a := by
  have hne := List.pairwise_map.mp (((sortByPriority_perm priority l).map priority).nodup_iff.mpr h)
  exact ((sortByPriority_pairwise priority l).and hne).imp fun ⟨hle, hne⟩ => hle.lt_of_ne' hne

end Echronos.Configure
