import Echronos.Kernel.Core

/-! # What a piece of code executed by one task can do to the tasks

    Whatever the current task executes between two context switches, its effect on program places,
    pending signals and scheduler links is a sequence of a few moves: it sends signals, receives
    its own, goes to another place in its own code, or blocks itself. `Moves` is that sequence, and
    invariants about tasks and signals are proved once for each move. Its parameter says of which
    components functions are executed: the waits and events of all others are old ones. -/

namespace Echronos

open Schemes

variable {c : Config} {S : Sched c.tasks c.mutexes}

/-- The components whose functions a task can be executing, and `entry` for those functions of any
    component that run with preemption enabled at first. -/
inductive Component
  | kernel | entry | mutex | sem | messageQueue
  deriving DecidableEq

/-- The component whose function waits inside `signal_wait_set`. -/
def Cont.component : Cont c → Component
  | .signalWaitSet => .kernel
  | .sleep _ _ => .kernel
  | .mutexLock _ => .mutex
  | .mutexLockTimeout _ _ => .mutex
  | .semWait _ => .sem
  | .semWaitTimeout _ _ => .sem
  | .messageQueuePut _ _ => .messageQueue
  | .messageQueuePutTimeout _ _ _ => .messageQueue
  | .messageQueueGet _ _ => .messageQueue
  | .messageQueueGetTimeout _ _ _ => .messageQueue

/-- The component that records an event, unless several do. -/
def Event.component : Event c → Option Component
  | .sent _ _ => none
  | .received _ _ _ => none
  | .slept _ _ _ _ => some .kernel
  | .acquired _ _ => some .mutex
  | .released _ _ => some .mutex
  | .posted _ _ => some .sem
  | .took _ _ => some .sem
  | .maxInit _ _ => some .sem
  | .timedOut _ _ _ => none

/-- The events of a history that concern signals. -/
def Event.isSignal : Event c → Bool
  | .sent _ _ => true
  | .received _ _ _ => true
  | _ => false

/-- An event other than a signal's that components of `A` record. -/
def Event.Of (A : Set Component) (e : Event c) : Prop :=
  e.isSignal = false ∧ ∀ C, e.component = some C → C ∈ A

namespace Core

def signalHistory (k : Core c S) : List (Event c) := k.history.filter Event.isSignal

/-- The current task is outside `signal_wait_set`. -/
def Awake (k : Core c S) : Prop := ∀ w, k.pc k.currentTask ≠ .wait w

/-- Nothing changes about program places, signals and links, and only mutex functions change the
    scheduler's state at all. -/
structure Quiet (A : Set Component) (k k' : Core c S) : Prop where
  currentTask : k'.currentTask = k.currentTask
  pc : k'.pc = k.pc
  signals : k'.signals = k.signals
  link : k'.link = k.link
  sched : .mutex ∉ A → k'.sched = k.sched
  halted : k'.halted = none → k.halted = none
  history : ∃ new, k'.history = new ++ k.history ∧ ∀ e ∈ new, e.Of A

theorem Quiet.refl (A : Set Component) (k : Core c S) : Quiet A k k :=
  ⟨rfl, rfl, rfl, rfl, fun _ => rfl, id, [], rfl, by simp⟩

theorem Quiet.trans {A : Set Component} {k k' k'' : Core c S} (h : Quiet A k k')
    (h' : Quiet A k' k'') : Quiet A k k'' := by
  obtain ⟨new, hn, hA⟩ := h.history
  obtain ⟨new', hn', hA'⟩ := h'.history
  refine ⟨h'.1.trans h.1, h'.2.trans h.2, h'.3.trans h.3, h'.4.trans h.4,
    fun hA => (h'.sched hA).trans (h.sched hA), fun hk => h.halted (h'.halted hk), new' ++ new, ?_, ?_⟩
  · rw [hn', hn, List.append_assoc]
  · simpa [or_imp, forall_and] using ⟨hA', hA⟩

/-- Code that moves nobody: it sends signals and otherwise is quiet. -/
inductive Wakes (A : Set Component) (k : Core c S) : Core c S → Prop
  | refl : Wakes A k k
  | quiet {k' k''} : Wakes A k k' → Quiet A k' k'' → Wakes A k k''
  | send {k'} (t : c.TaskId) (set : c.SignalSet) : Wakes A k k' →
      Wakes A k (signalSendSet t set k')

/-- What a task executes, in functions of components of `A`. -/
inductive Moves (A : Set Component) (k : Core c S) : Core c S → Prop
  | refl : Moves A k k
  | wakes {k' k''} : Moves A k k' → Wakes A k' k'' → Moves A k k''
  | receive {k'} (requested : c.SignalSet) : Moves A k k' →
      (∀ w, k'.pc k'.currentTask = .wait w → w.blocked = true →
        signalPeek (k'.signals k'.currentTask) w.requested = true) →
      Moves A k (setPc .app (signalRecv k'.currentTask requested k').2)
  | goto {k'} (p : Pc c) : Moves A k k' → (∀ w, p ≠ .wait w) →
      (∀ e, p = .entered e → .entry ∈ A) → Awake k' → Moves A k (setPc p k')
  | wait {k'} (requested : c.SignalSet) (blocker : Option c.TaskId) (cont : Cont c) :
      Moves A k k' → cont.component ∈ A → Awake k' →
      Moves A k (signalWaitSet requested blocker cont k')
  | block {k'} (w : Wait c) : Moves A k k' → k'.pc k'.currentTask = .wait w → w.blocked = true →
      signalPeek (k'.signals k'.currentTask) w.requested = false → Moves A k (blockOn w.blocker k')

variable {A : Set Component} {k k' k'' : Core c S}

theorem Wakes.of_quiet (h : Quiet A k k') : Wakes A k k' := .quiet .refl h

theorem Wakes.trans (h : Wakes A k k') (h' : Wakes A k' k'') : Wakes A k k'' := by
  induction h' with
  | refl => exact h
  | quiet _ hq ih => exact .quiet ih hq
  | send t set _ ih => exact .send t set ih

theorem Moves.of_quiet (h : Quiet A k k') : Moves A k k' := .wakes .refl (.of_quiet h)

theorem Moves.of_wakes (h : Wakes A k k') : Moves A k k' := .wakes .refl h

theorem Moves.trans (h : Moves A k k') (h' : Moves A k' k'') : Moves A k k'' := by
  induction h' with
  | refl => exact h
  | wakes _ hw ih => exact .wakes ih hw
  | receive r _ hp ih => exact .receive r ih hp
  | goto p _ hp he ha ih => exact .goto p ih hp he ha
  | wait r b cont _ hc ha ih => exact .wait r b cont ih hc ha
  | block w _ hpc hb hp ih => exact .block w ih hpc hb hp

/-! ### The pending signals of a task -/

theorem signalPeek_iff {p r : c.SignalSet} :
    signalPeek p r = true ↔ ∃ i, p.getLsbD i = true ∧ r.getLsbD i = true := by
  rw [signalPeek, bne_iff_ne, Ne, BitVec.eq_of_getLsbD_eq_iff]
  simp only [BitVec.getLsbD_and, BitVec.ofNat_eq_ofNat, BitVec.getLsbD_zero, not_forall,
    Bool.and_eq_false_imp]
  constructor
  · rintro ⟨i, _, h⟩
    exact ⟨i, by simpa using h⟩
  · rintro ⟨i, hp, hr⟩
    exact ⟨i, BitVec.lt_of_getLsbD hp, by simp [hp, hr]⟩

/-- A `_task_timer` signal is pending for `t`. -/
def taskTimerPending (k : Core c S) (t : c.TaskId) : Bool := (k.signals t).getLsbD c.taskTimerIdx

theorem signalPeek_taskTimer {p : c.SignalSet} :
    signalPeek p c.signalIdTaskTimer = true ↔ p.getLsbD c.taskTimerIdx = true := by
  rw [signalPeek_iff]
  constructor
  · rintro ⟨i, hp, hr⟩
    obtain rfl : i = c.taskTimerIdx := by
      simpa [Config.signalIdTaskTimer, BitVec.getLsbD_twoPow, eq_comm] using hr
    exact hp
  · intro h
    exact ⟨c.taskTimerIdx, h, by simp [Config.signalIdTaskTimer]⟩

/-! ### Fields the moves leave alone -/

@[simp] theorem signalSendSet_pc (t : c.TaskId) (set : c.SignalSet) (k : Core c S) :
    (signalSendSet t set k).pc = k.pc := rfl
@[simp] theorem signalSendSet_currentTask (t : c.TaskId) (set : c.SignalSet) (k : Core c S) :
    (signalSendSet t set k).currentTask = k.currentTask := rfl
@[simp] theorem signalSendSet_signals (t : c.TaskId) (set : c.SignalSet) (k : Core c S) :
    (signalSendSet t set k).signals = Function.update k.signals t (k.signals t ||| set) := rfl
@[simp] theorem signalSendSet_link (t : c.TaskId) (set : c.SignalSet) (k : Core c S) :
    (signalSendSet t set k).link = Function.update k.link t (some t) := S.link_setRunnable t k.sched
@[simp] theorem signalSendSet_halted (t : c.TaskId) (set : c.SignalSet) (k : Core c S) :
    (signalSendSet t set k).halted = k.halted := rfl

@[simp] theorem setPc_pc (p : Pc c) (k : Core c S) :
    (setPc p k).pc = Function.update k.pc k.currentTask p := rfl
@[simp] theorem setPc_currentTask (p : Pc c) (k : Core c S) :
    (setPc p k).currentTask = k.currentTask := rfl
@[simp] theorem setPc_signals (p : Pc c) (k : Core c S) : (setPc p k).signals = k.signals := rfl
@[simp] theorem setPc_link (p : Pc c) (k : Core c S) : (setPc p k).link = k.link := rfl

@[simp] theorem signalRecv_pc (t : c.TaskId) (r : c.SignalSet) (k : Core c S) :
    (signalRecv t r k).2.pc = k.pc := rfl
@[simp] theorem signalRecv_currentTask (t : c.TaskId) (r : c.SignalSet) (k : Core c S) :
    (signalRecv t r k).2.currentTask = k.currentTask := rfl
@[simp] theorem signalRecv_link (t : c.TaskId) (r : c.SignalSet) (k : Core c S) :
    (signalRecv t r k).2.link = k.link := rfl
@[simp] theorem signalRecv_signals (t : c.TaskId) (r : c.SignalSet) (k : Core c S) :
    (signalRecv t r k).2.signals =
      Function.update k.signals t (k.signals t &&& ~~~(k.signals t &&& r)) := rfl

@[simp] theorem getNext_pc (k : Core c S) : (getNext k).pc = k.pc := rfl
@[simp] theorem getNext_currentTask (k : Core c S) : (getNext k).currentTask = k.currentTask := rfl
@[simp] theorem getNext_signals (k : Core c S) : (getNext k).signals = k.signals := rfl
@[simp] theorem getNext_link (k : Core c S) : (getNext k).link = k.link := rfl

@[simp] theorem blockOn_pc (b : Option c.TaskId) (k : Core c S) : (blockOn b k).pc = k.pc := rfl
@[simp] theorem blockOn_currentTask (b : Option c.TaskId) (k : Core c S) :
    (blockOn b k).currentTask = k.currentTask := rfl
@[simp] theorem blockOn_signals (b : Option c.TaskId) (k : Core c S) :
    (blockOn b k).signals = k.signals := rfl
@[simp] theorem blockOn_link (b : Option c.TaskId) (k : Core c S) :
    (blockOn b k).link = Function.update k.link k.currentTask (if S.inherits then b else none) :=
  S.link_setBlockedOn k.currentTask b k.sched

@[simp] theorem signalWaitSet_pc (r : c.SignalSet) (b : Option c.TaskId) (cont : Cont c)
    (k : Core c S) : (signalWaitSet r b cont k).pc = Function.update k.pc k.currentTask
      (.wait ⟨r, b, !signalPeek (k.signals k.currentTask) r, cont⟩) := by
  unfold signalWaitSet
  split <;> rename_i h <;> simp [h]
@[simp] theorem signalWaitSet_currentTask (r : c.SignalSet) (b : Option c.TaskId) (cont : Cont c)
    (k : Core c S) : (signalWaitSet r b cont k).currentTask = k.currentTask := by
  unfold signalWaitSet
  split <;> rfl
@[simp] theorem signalWaitSet_halted (r : c.SignalSet) (b : Option c.TaskId) (cont : Cont c)
    (k : Core c S) : (signalWaitSet r b cont k).halted = k.halted := by
  unfold signalWaitSet
  split <;> rfl
@[simp] theorem signalWaitSet_history (r : c.SignalSet) (b : Option c.TaskId) (cont : Cont c)
    (k : Core c S) : (signalWaitSet r b cont k).history = k.history := by
  unfold signalWaitSet
  split <;> rfl
@[simp] theorem signalWaitSet_signals (r : c.SignalSet) (b : Option c.TaskId) (cont : Cont c)
    (k : Core c S) : (signalWaitSet r b cont k).signals = k.signals := by
  unfold signalWaitSet
  split <;> rfl

theorem signalWaitSet_link (r : c.SignalSet) (b : Option c.TaskId) (cont : Cont c) (k : Core c S) :
    (signalWaitSet r b cont k).link =
      if signalPeek (k.signals k.currentTask) r then k.link
      else Function.update k.link k.currentTask (if S.inherits then b else none) := by
  unfold signalWaitSet
  split <;> simp

/-! ### Other tasks -/

/-- What one task's code can do to another task: at most wake it with signals. -/
structure Other (t : c.TaskId) (k k' : Core c S) : Prop where
  pc : k'.pc t = k.pc t
  signals : ∀ i, (k.signals t).getLsbD i = true → (k'.signals t).getLsbD i = true
  link : (k'.link t = k.link t ∧ k'.signals t = k.signals t) ∨ k'.link t = some t

theorem Other.refl (t : c.TaskId) (k : Core c S) : Other t k k :=
  ⟨rfl, fun _ h => h, .inl ⟨rfl, rfl⟩⟩

theorem Other.trans {t : c.TaskId} (h : Other t k k') (h' : Other t k' k'') : Other t k k'' where
  pc := h'.pc.trans h.pc
  signals i hi := h'.signals i (h.signals i hi)
  link := by
    rcases h'.link with ⟨hl, hs⟩ | hl
    · rw [hl, hs]; exact h.link
    · exact .inr hl

theorem Other.runnable {t : c.TaskId} (h : Other t k k') (hr : k.runnable t) : k'.runnable t := by
  rcases h.link with ⟨hl, -⟩ | hl
  · exact hl.trans hr
  · exact hl

theorem Quiet.other (h : Quiet A k k') (t : c.TaskId) : Other t k k' where
  pc := by rw [h.pc]
  signals i hi := by rwa [h.signals]
  link := .inl ⟨by rw [h.link], by rw [h.signals]⟩

theorem signalSendSet_other (t u : c.TaskId) (set : c.SignalSet) (k : Core c S) :
    Other u k (signalSendSet t set k) := by
  refine ⟨rfl, fun i hi => ?_, ?_⟩
  · by_cases h : u = t
    · subst h; simp [hi]
    · simpa [h] using hi
  · by_cases h : u = t
    · subst h; simp
    · simp [h]

theorem Wakes.currentTask (h : Wakes A k k') : k'.currentTask = k.currentTask := by
  induction h with
  | refl => rfl
  | quiet _ hq ih => exact hq.currentTask.trans ih
  | send => simpa

theorem Wakes.other (h : Wakes A k k') (t : c.TaskId) : Other t k k' := by
  induction h with
  | refl => exact .refl t k
  | quiet _ hq ih => exact ih.trans (hq.other t)
  | send u set _ ih => exact ih.trans (signalSendSet_other u t set _)

theorem Wakes.awake (h : Wakes A k k') (ha : Awake k) : Awake k' := by
  intro w
  rw [(h.other _).pc, h.currentTask]
  exact ha w

theorem Moves.currentTask (h : Moves A k k') : k'.currentTask = k.currentTask := by
  induction h with
  | refl => rfl
  | wakes _ hw ih => exact hw.currentTask.trans ih
  | receive => simpa
  | goto => simpa
  | wait => simpa
  | block => simpa

theorem Wakes.halted (h : Wakes A k k') (hk : k'.halted = none) : k.halted = none := by
  induction h with
  | refl => exact hk
  | quiet _ hq ih => exact ih (hq.halted hk)
  | send _ _ _ ih => exact ih hk

/-- A system that has stopped stays stopped. -/
theorem Moves.halted (h : Moves A k k') (hk : k'.halted = none) : k.halted = none := by
  induction h with
  | refl => exact hk
  | wakes _ hw ih => exact ih (hw.halted hk)
  | receive _ _ _ ih => exact ih hk
  | goto _ _ _ _ _ ih => exact ih hk
  | wait _ _ _ _ _ _ ih => exact ih (by simpa using hk)
  | block _ _ _ _ _ ih => exact ih hk

theorem Moves.other (h : Moves A k k') {t : c.TaskId} (ht : t ≠ k.currentTask) : Other t k k' := by
  induction h with
  | refl => exact .refl t k
  | wakes _ hw ih => exact ih.trans (hw.other t)
  | receive r h _ ih =>
    rw [← h.currentTask] at ht
    exact ih.trans ⟨by simp [ht], by simp [ht], .inl (by simp [ht])⟩
  | goto p h _ _ _ ih =>
    rw [← h.currentTask] at ht
    exact ih.trans ⟨by simp [ht], by simp, .inl (by simp)⟩
  | wait r b cont h _ _ ih =>
    rw [← h.currentTask] at ht
    refine ih.trans ⟨by simp [ht], by simp, .inl ?_⟩
    rw [signalWaitSet_link]
    split <;> simp [ht]
  | block w h _ _ _ ih =>
    rw [← h.currentTask] at ht
    exact ih.trans ⟨rfl, by simp, .inl (by simp [ht])⟩

/-! ### Waits and events of one component -/

/-- A wait of a component whose functions are not executed is an old one, and its signals are still
    pending. -/
theorem Moves.keeps (h : Moves A k k') {t : c.TaskId} {w : Wait c} (hw : k'.pc t = .wait w)
    (hA : w.cont.component ∉ A) :
    k.pc t = .wait w ∧ ∀ i, (k.signals t).getLsbD i = true → (k'.signals t).getLsbD i = true := by
  induction h with
  | refl => exact ⟨hw, fun _ h => h⟩
  | wakes _ hk ih =>
    obtain ⟨hpc, hs⟩ := ih ((hk.other t).pc ▸ hw)
    exact ⟨hpc, fun i hi => (hk.other t).signals i (hs i hi)⟩
  | @receive k' r h hp ih =>
    by_cases ht : t = k'.currentTask
    · subst ht; simp at hw
    · have ho := (Moves.receive (A := A) r .refl hp).other ht
      obtain ⟨hpc, hs⟩ := ih (ho.pc ▸ hw)
      exact ⟨hpc, fun i hi => ho.signals i (hs i hi)⟩
  | @goto k' p h hp he ha ih =>
    by_cases ht : t = k'.currentTask
    · subst ht; exact absurd (by simpa using hw) (hp w)
    · exact ih (by simpa [ht] using hw)
  | @wait k' r b cont h hc ha ih =>
    by_cases ht : t = k'.currentTask
    · subst ht
      obtain rfl : (⟨r, b, !signalPeek (k'.signals k'.currentTask) r, cont⟩ : Wait c) = w := by
        simpa using hw
      exact absurd hc hA
    · simpa using ih (by simpa [ht] using hw)
  | block w' h hpc hb hp ih => simpa using ih hw

/-- No function is entered but those of `entry`. -/
theorem Moves.entered (h : Moves A k k') {t : c.TaskId} {e : Entry c} (he : k'.pc t = .entered e)
    (hA : .entry ∉ A) : k.pc t = .entered e := by
  induction h with
  | refl => exact he
  | wakes _ hw ih => exact ih ((hw.other t).pc ▸ he)
  | @receive k' r h hp ih =>
    by_cases ht : t = k'.currentTask
    · subst ht; simp at he
    · exact ih (by simpa [ht] using he)
  | @goto k' p h hp hentry ha ih =>
    by_cases ht : t = k'.currentTask
    · subst ht; exact absurd (hentry e (by simpa using he)) hA
    · exact ih (by simpa [ht] using he)
  | @wait k' r b cont h hc ha ih =>
    by_cases ht : t = k'.currentTask
    · subst ht; simp at he
    · exact ih (by simpa [ht] using he)
  | block w' h hpc hb hp ih => exact ih he

theorem Quiet.filter_history (h : Quiet A k k') {p : Event c → Bool}
    (hp : ∀ e, e.Of A → p e = false) : k'.history.filter p = k.history.filter p := by
  obtain ⟨new, hn, hA⟩ := h.history
  rw [hn, List.filter_append, List.filter_eq_nil_iff.mpr fun e he => by simp [hp e (hA e he)],
    List.nil_append]

/-- A property of the scheduler's state that runnable and blocked tasks do not affect. -/
theorem Wakes.sched {I : S.State → Prop} (h : Wakes A k k') (hA : .mutex ∉ A)
    (runnable : ∀ t s, I s → I (S.schedSetRunnable t s)) (hk : I k.sched) : I k'.sched := by
  induction h with
  | refl => exact hk
  | quiet _ hq ih => rw [hq.sched hA]; exact ih
  | send t _ _ ih => exact runnable t _ ih

theorem signalWaitSet_sched {I : S.State → Prop} {r : c.SignalSet} {b : Option c.TaskId}
    {cont : Cont c} (blocked : ∀ t b s, I s → I (S.schedSetBlockedOn t b s)) (hk : I k.sched) :
    I (signalWaitSet r b cont k).sched := by
  unfold signalWaitSet
  split
  · exact hk
  · exact blocked _ _ _ hk

@[inherit_doc Wakes.sched]
theorem Moves.sched {I : S.State → Prop} (h : Moves A k k') (hA : .mutex ∉ A)
    (runnable : ∀ t s, I s → I (S.schedSetRunnable t s))
    (blocked : ∀ t b s, I s → I (S.schedSetBlockedOn t b s)) (hk : I k.sched) : I k'.sched := by
  induction h with
  | refl => exact hk
  | wakes _ hw ih => exact hw.sched hA runnable ih
  | receive _ _ _ ih => exact ih
  | goto _ _ _ _ _ ih => exact ih
  | wait r b cont _ _ _ ih => exact signalWaitSet_sched blocked ih
  | block w _ _ _ _ ih => exact blocked _ _ _ ih

theorem Quiet.signalHistory (h : Quiet A k k') : k'.signalHistory = k.signalHistory :=
  h.filter_history fun _ he => he.1

/-- Events that are not signals' and belong to none of the executed components are not recorded. -/
theorem Wakes.filter_history (h : Wakes A k k') {p : Event c → Bool}
    (hp : ∀ e, e.Of A → p e = false) (hs : ∀ e, e.isSignal = true → p e = false) :
    k'.history.filter p = k.history.filter p := by
  induction h with
  | refl => rfl
  | quiet _ hq ih => exact (hq.filter_history hp).trans ih
  | send t set _ ih => simpa [signalSendSet, unblock, hs (.sent t set) rfl] using ih

theorem Moves.filter_history (h : Moves A k k') {p : Event c → Bool}
    (hp : ∀ e, e.Of A → p e = false) (hs : ∀ e, e.isSignal = true → p e = false) :
    k'.history.filter p = k.history.filter p := by
  induction h with
  | refl => rfl
  | wakes _ hw ih => exact (hw.filter_history hp hs).trans ih
  | receive r _ _ ih => simpa [setPc, signalRecv, hs (.received _ _ _) rfl] using ih
  | goto => assumption
  | wait => simpa
  | block => assumption

end Core

end Echronos
