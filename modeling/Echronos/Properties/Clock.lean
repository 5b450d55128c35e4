import Echronos.Kernel.Effects

/-! # The clock and the timers of sleeping tasks

    `Clocked` says that `timer_current_ticks` counts the processed ticks, that only a task's own timer
    sends it `_task_timer`, and that a task inside `sleep` without the signal pending has its timer
    set to the end of its sleep. The list it carries names the timers `timer_tick_process` has yet to
    look at: only the timers in it can be due already. -/

namespace Echronos.Core

open Schemes

variable {c : Config} {S : Sched c.tasks c.mutexes}

/-- The signals in `set` include `_task_timer`. -/
def HasTaskTimer (set : c.SignalSet) : Prop := set.getLsbD c.taskTimerIdx = true

/-- A timer `configure` created for a task. -/
def IsTaskTimer (i : c.TimerId) : Prop := ∃ t, c.taskTimers t = i

/-- Task `t` is in a wait of `sleep` for `n` ticks that began after `start` processed ticks. -/
def InSleep (k : Core c S) (t : c.TaskId) (w : Wait c) (n : BitVec 16) (start : ℕ) : Prop :=
  k.pc t = .wait w ∧ w.cont = .sleep n start

/-- A blocked task whose timer is set to the end of its sleep, which is not over. -/
structure Armed (l : List c.TimerId) (k : Core c S) (t : c.TaskId) (w : Wait c) (n : BitVec 16)
    (start : ℕ) : Prop where
  blocked : w.blocked = true
  enabled : (k.timers (c.taskTimers t)).enabled = true
  expiry : (k.timers (c.taskTimers t)).expiry = BitVec.ofNat 16 (start + n.toNat)
  le : k.processed ≤ start + n.toNat
  due : k.processed = start + n.toNat → c.taskTimers t ∈ l

structure Resting (l : List c.TimerId) (k : Core c S) (t : c.TaskId) (w : Wait c) (n : BitVec 16)
    (start : ℕ) : Prop where
  requested : w.requested = c.signalIdTaskTimer
  start_le : start ≤ k.processed
  ended : k.taskTimerPending t → start + n.toNat ≤ k.processed
  armed : ¬ k.taskTimerPending t → Armed l k t w n start

structure Clocked (l : List c.TimerId) (k : Core c S) : Prop where
  clock : k.timerCurrentTicks = BitVec.ofNat 32 k.processed
  events : ∀ i, ¬ HasTaskTimer (k.interruptEvents i).sigSet
  userTimers : ∀ i, ¬ IsTaskTimer i → ¬ HasTaskTimer (k.timers i).signalSet
  taskTimers : ∀ t, (k.timers (c.taskTimers t)).taskId = some t ∧
    HasTaskTimer (k.timers (c.taskTimers t)).signalSet
  resting : ∀ t w n start, k.InSleep t w n start → Resting l k t w n start

variable {l : List c.TimerId} {k k' : Core c S}

theorem taskTimerPending_signalSendSet {t u : c.TaskId} {set : c.SignalSet} :
    (signalSendSet t set k).taskTimerPending u ↔
      k.taskTimerPending u ∨ (u = t ∧ HasTaskTimer set) := by
  by_cases h : u = t
  · subst h
    simp [taskTimerPending, HasTaskTimer]
  · simp [taskTimerPending, h]

/-- The state of a sleep depends on clock, timer and signals only. -/
theorem Resting.congr {t : c.TaskId} {w : Wait c} {n : BitVec 16} {start : ℕ}
    (h : Resting l k t w n start) (hproc : k'.processed = k.processed)
    (htimer : k'.timers (c.taskTimers t) = k.timers (c.taskTimers t))
    (hp : k'.taskTimerPending t ↔ k.taskTimerPending t) : Resting l k' t w n start := by
  refine ⟨h.requested, hproc ▸ h.start_le, fun ht => hproc ▸ h.ended (hp.mp ht), fun ht => ?_⟩
  have ha := h.armed (mt hp.mpr ht)
  exact ⟨ha.blocked, by rw [htimer, ha.enabled], by rw [htimer, ha.expiry], hproc ▸ ha.le,
    by rw [hproc]; exact ha.due⟩

/-- Code that leaves clock, timers, signals and places alone. -/
theorem Clocked.frame (h : Clocked l k) (hclock : k'.timerCurrentTicks = k.timerCurrentTicks)
    (hproc : k'.processed = k.processed) (hevents : k'.interruptEvents = k.interruptEvents)
    (htimers : k'.timers = k.timers) (hsignals : k'.signals = k.signals) (hpc : k'.pc = k.pc) :
    Clocked l k' where
  clock := by rw [hclock, hproc, h.clock]
  events := by rw [hevents]; exact h.events
  userTimers := by rw [htimers]; exact h.userTimers
  taskTimers := by rw [htimers]; exact h.taskTimers
  resting t w n start hw := by
    have hr := h.resting t w n start (by unfold InSleep at hw ⊢; rwa [hpc] at hw)
    exact hr.congr hproc (by rw [htimers]) (by unfold taskTimerPending; rw [hsignals])

/-- A task that sleeps on is not sent `_task_timer`. -/
theorem Clocked.send (h : Clocked l k) (t : c.TaskId) {set : c.SignalSet}
    (hset : HasTaskTimer set → ∀ w n start, k.InSleep t w n start →
      start + n.toNat ≤ k.processed) : Clocked l (signalSendSet t set k) where
  clock := h.clock
  events := h.events
  userTimers := h.userTimers
  taskTimers := h.taskTimers
  resting u w n start hw := by
    have hr := h.resting u w n start hw
    refine ⟨hr.requested, hr.start_le, fun hu => ?_, fun hu => ?_⟩
    · rcases taskTimerPending_signalSendSet.mp hu with hu | ⟨rfl, hs⟩
      · exact hr.ended hu
      · exact hset hs w n start hw
    · have ha := hr.armed fun h => hu (taskTimerPending_signalSendSet.mpr (.inl h))
      exact ⟨ha.blocked, ha.enabled, ha.expiry, ha.le, ha.due⟩

/-- A task receives its signals outside `sleep`. -/
theorem Clocked.receive (h : Clocked l k) (t : c.TaskId) (requested : c.SignalSet)
    (ht : ∀ w n start, ¬ k.InSleep t w n start) : Clocked l (signalRecv t requested k).2 where
  clock := h.clock
  events := h.events
  userTimers := h.userTimers
  taskTimers := h.taskTimers
  resting u w n start hw := by
    have hr := h.resting u w n start hw
    have hut : u ≠ t := by rintro rfl; exact ht w n start hw
    exact hr.congr rfl rfl (by simp [taskTimerPending, hut])

/-- The current task goes to a place that is not a wait of `sleep`, or is a sound one. -/
theorem Clocked.setPc (h : Clocked l k) {p : Pc c}
    (hp : ∀ w n start, p = .wait w → w.cont = .sleep n start →
      Resting l k k.currentTask w n start) : Clocked l (setPc p k) where
  clock := h.clock
  events := h.events
  userTimers := h.userTimers
  taskTimers := h.taskTimers
  resting t w n start hw := by
    by_cases ht : t = k.currentTask
    · subst ht
      exact (hp w n start (by simpa using hw.1) hw.2).congr rfl rfl Iff.rfl
    · have hr := h.resting t w n start ⟨by simpa [ht] using hw.1, hw.2⟩
      exact hr.congr rfl rfl Iff.rfl

theorem Clocked.setUserTimer (h : Clocked l k) {i : c.TimerId} (hi : ¬ IsTaskTimer i)
    {tm : Timer c.tasks c.signalsetSize} (htm : ¬ HasTaskTimer tm.signalSet) :
    Clocked l (setTimer i tm k) := by
  have hne : ∀ t, c.taskTimers t ≠ i := fun t ht => hi ⟨t, ht⟩
  refine ⟨h.clock, h.events, fun j hj => ?_, fun t => ?_, fun t w n start hw => ?_⟩
  · by_cases hji : j = i
    · subst hji; simpa [setTimer] using htm
    · simpa [setTimer, hji] using h.userTimers j hj
  · simpa [setTimer, hne t] using h.taskTimers t
  · have hr := h.resting t w n start hw
    exact hr.congr rfl (by simp [setTimer, hne t]) Iff.rfl

/-- The timer of a task that does not sleep on may be set. -/
theorem Clocked.setTaskTimer (h : Clocked l k) {t : c.TaskId} {tm : Timer c.tasks c.signalsetSize}
    (hid : tm.taskId = some t ∧ HasTaskTimer tm.signalSet)
    (ht : ∀ w n start, k.InSleep t w n start → k.taskTimerPending t) :
    Clocked l (setTimer (c.taskTimers t) tm k) := by
  have hne : ∀ u, u ≠ t → c.taskTimers u ≠ c.taskTimers t := fun u hu =>
    c.taskTimers_injective.ne hu
  refine ⟨h.clock, h.events, fun j hj => ?_, fun u => ?_, fun u w n start hw => ?_⟩
  · have hji : j ≠ c.taskTimers t := by rintro rfl; exact hj ⟨t, rfl⟩
    simpa [setTimer, hji] using h.userTimers j hj
  · by_cases hut : u = t
    · subst hut; simpa [setTimer] using hid
    · simpa [setTimer, hne u hut] using h.taskTimers u
  · have hr := h.resting u w n start hw
    by_cases hut : u = t
    · subst hut
      have hp := ht w n start hw
      exact ⟨hr.requested, hr.start_le, hr.ended, fun hn => absurd hp hn⟩
    · exact hr.congr rfl (by simp [setTimer, hne u hut]) Iff.rfl

/-- Application code leaves `_task_timer` and the timers of tasks to the kernel. -/
def Call.Spares : Call c → Prop
  | .signalSendSet _ set => ¬ HasTaskTimer set
  | .timerEnable i => ¬ IsTaskTimer i
  | .timerDisable i => ¬ IsTaskTimer i
  | .timerOneshot i _ => ¬ IsTaskTimer i
  | .timerCheckOverflow i => ¬ IsTaskTimer i
  | .timerReloadSet i _ => ¬ IsTaskTimer i
  | .timerSignalSet i _ set => ¬ IsTaskTimer i ∧ ¬ HasTaskTimer set
  | .timerErrorSet i _ => ¬ IsTaskTimer i
  | _ => True

/-! ### Timer functions -/

@[simp] theorem rearm_taskId (tm : Timer c.tasks c.signalsetSize) :
    (rearm tm).taskId = tm.taskId := by
  unfold rearm; split <;> rfl

@[simp] theorem rearm_signalSet (tm : Timer c.tasks c.signalsetSize) :
    (rearm tm).signalSet = tm.signalSet := by
  unfold rearm; split <;> rfl

/-- Without an error a timer sends its signals and changes its own entry. -/
theorem timerProcessOne_eq {i : c.TimerId} (h : (timerProcessOne i k).halted = none) :
    ∃ t tm, (k.timers i).taskId = some t ∧ tm.taskId = some t ∧
      tm.signalSet = (k.timers i).signalSet ∧
      timerProcessOne i k = setTimer i tm (signalSendSet t (k.timers i).signalSet k) := by
  unfold timerProcessOne at h ⊢
  dsimp only at h ⊢
  split at h
  · simp [halt] at h
  · rename_i he
    rw [if_neg he]
    split at h
    · simp [halt] at h
    · rename_i t ht
      rw [rearm_taskId] at ht
      refine ⟨t, _, ht, ?_, ?_,
        congrArg (fun set => signalSendSet t set (setTimer i _ k)) (rearm_signalSet _)⟩
      · split <;> simp [ht]
      · split <;> simp

theorem andThen_of_halted {f : Core c S → Core c S} (h : (andThen f k).halted = none) :
    k.halted = none ∧ andThen f k = f k := by
  unfold andThen at h ⊢
  split at h
  · rename_i hk
    simp [h] at hk
  · rename_i hk
    exact ⟨by simpa using hk, if_neg hk⟩

/-- A timer may be processed unless its task sleeps on. -/
theorem Clocked.processOne (h : Clocked l k) {i : c.TimerId}
    (hhalt : (timerProcessOne i k).halted = none)
    (hi : ∀ t, c.taskTimers t = i → ∀ w n start, k.InSleep t w n start →
      start + n.toNat ≤ k.processed) : Clocked l (timerProcessOne i k) := by
  obtain ⟨t, tm, ht, htm, hset, heq⟩ := timerProcessOne_eq hhalt
  rw [heq]
  by_cases hu : ∃ u, c.taskTimers u = i
  · obtain ⟨u, rfl⟩ := hu
    obtain ⟨hid, htt⟩ := h.taskTimers u
    obtain rfl : u = t := Option.some.inj (hid.symm.trans ht)
    refine (h.send u fun _ => hi u rfl).setTaskTimer ⟨htm, hset ▸ htt⟩ fun w n start _ => ?_
    exact taskTimerPending_signalSendSet.mpr (.inr ⟨rfl, htt⟩)
  · have hfree := h.userTimers i hu
    exact (h.send t fun hs => absurd hs hfree).setUserTimer hu (hset ▸ hfree)

/-- The timer of a task sends it `_task_timer`. -/
theorem Clocked.pending_processOne (h : Clocked l k) {t : c.TaskId}
    (hhalt : (timerProcessOne (c.taskTimers t) k).halted = none) :
    (timerProcessOne (c.taskTimers t) k).taskTimerPending t := by
  obtain ⟨u, tm, hu, -, -, heq⟩ := timerProcessOne_eq hhalt
  obtain ⟨hid, htt⟩ := h.taskTimers t
  obtain rfl : t = u := Option.some.inj (hid.symm.trans hu)
  rw [heq]
  exact taskTimerPending_signalSendSet.mpr (.inr ⟨rfl, htt⟩)

/-- The clock modulo `2 ^ 16`. -/
theorem Clocked.currentTimeout (h : Clocked l k) : currentTimeout k = BitVec.ofNat 16 k.processed := by
  unfold Core.currentTimeout
  rw [h.clock]
  apply BitVec.eq_of_toNat_eq
  simp only [BitVec.toNat_setWidth, BitVec.toNat_ofNat]
  omega

/-- The timer of a task that sleeps on expires at the end of its sleep. -/
theorem Resting.expired {t : c.TaskId} {w : Wait c} {n : BitVec 16} {start : ℕ}
    (h : Resting l k t w n start) (hp : ¬ k.taskTimerPending t) :
    timerExpired (k.timers (c.taskTimers t)) (BitVec.ofNat 16 k.processed) = true ↔
      k.processed = start + n.toNat := by
  have ha := h.armed hp
  have hle := ha.le
  have hstart := h.start_le
  have hn := n.isLt
  rw [timerExpired, ha.enabled, Bool.true_and, beq_iff_eq, ha.expiry, ← BitVec.toNat_inj]
  simp only [BitVec.toNat_ofNat]
  omega

/-- No task sleeps until now on a timer the loop has looked at. -/
theorem Clocked.drop {i : c.TimerId} (h : Clocked (i :: l) k)
    (hi : ∀ t, c.taskTimers t = i → ∀ w n start, k.InSleep t w n start → ¬ k.taskTimerPending t →
      k.processed ≠ start + n.toNat) : Clocked l k where
  clock := h.clock
  events := h.events
  userTimers := h.userTimers
  taskTimers := h.taskTimers
  resting t w n start hw := by
    have hr := h.resting t w n start hw
    refine ⟨hr.requested, hr.start_le, hr.ended, fun hp => ?_⟩
    have ha := hr.armed hp
    refine ⟨ha.blocked, ha.enabled, ha.expiry, ha.le, fun heq => ?_⟩
    rcases List.mem_cons.mp (ha.due heq) with ht | hl
    · exact absurd heq (hi t ht w n start hw hp)
    · exact hl

theorem timerProcessOne_processed (i : c.TimerId) (k : Core c S) :
    (timerProcessOne i k).processed = k.processed := by
  unfold timerProcessOne
  dsimp only
  split
  · rfl
  · split <;> rfl

theorem tickTurn_processed (timeout : BitVec 16) (k : Core c S) (i : c.TimerId) :
    (tickTurn timeout k i).processed = k.processed := by
  unfold tickTurn andThen
  split
  · rfl
  · dsimp only
    split
    · exact timerProcessOne_processed i k
    · rfl

theorem Clocked.turn {i : c.TimerId} (h : Clocked (i :: l) k)
    (hhalt : (tickTurn (BitVec.ofNat 16 k.processed) k i).halted = none) :
    Clocked l (tickTurn (BitVec.ofNat 16 k.processed) k i) := by
  have hexp : ∀ t w n start, c.taskTimers t = i → k.InSleep t w n start → ¬ k.taskTimerPending t →
      (timerExpired (k.timers i) (BitVec.ofNat 16 k.processed) = true ↔
        k.processed = start + n.toNat) := by
    rintro t w n start rfl hw hp
    exact (h.resting t w n start hw).expired hp
  rw [tickTurn, (andThen_of_halted hhalt).2]
  rw [tickTurn, (andThen_of_halted hhalt).2] at hhalt
  by_cases he : timerExpired (k.timers i) (BitVec.ofNat 16 k.processed) = true
  · rw [if_pos he] at hhalt ⊢
    have hover : ∀ t, c.taskTimers t = i → ∀ w n start, k.InSleep t w n start →
        start + n.toNat ≤ k.processed := by
      intro t ht w n start hw
      by_cases hp : k.taskTimerPending t
      · exact (h.resting t w n start hw).ended hp
      · exact ((hexp t w n start ht hw hp).mp he).ge
    refine (h.processOne hhalt hover).drop ?_
    rintro t rfl w n start - hp
    exact absurd (h.pending_processOne hhalt) hp
  · rw [if_neg he]
    exact h.drop fun t ht w n start hw hp heq => he ((hexp t w n start ht hw hp).mpr heq)

/-- A tick is counted before the loop looks at the timers. -/
theorem Clocked.count (h : Clocked [] k) : Clocked (List.finRange c.timers) (countTick k) where
  clock := by
    simp only [countTick, h.clock, BitVec.ofNat_add]
    rfl
  events := h.events
  userTimers := h.userTimers
  taskTimers := h.taskTimers
  resting t w n start hw := by
    have hr := h.resting t w n start hw
    refine ⟨hr.requested, Nat.le_succ_of_le hr.start_le, fun hp => Nat.le_succ_of_le (hr.ended hp),
      fun hp => ?_⟩
    have ha := hr.armed hp
    have hlt : k.processed ≠ start + n.toNat := fun heq => by simpa using ha.due heq
    exact ⟨ha.blocked, ha.enabled, ha.expiry, Nat.lt_of_le_of_ne ha.le hlt,
      fun _ => List.mem_finRange _⟩

theorem Clocked.tick (h : Clocked [] k) (hhalt : (timerTickProcess k).halted = none) :
    Clocked [] (timerTickProcess k) := by
  unfold timerTickProcess at hhalt ⊢
  split at hhalt
  · simp [halt] at hhalt
  · rename_i hone
    rw [if_neg hone]
    split at hhalt
    · rename_i hzero
      rw [if_pos hzero]
      exact h.frame rfl rfl rfl rfl rfl rfl
    · rename_i hzero
      rw [if_neg hzero]
      have hcount := h.count
      rw [hcount.currentTimeout] at hhalt ⊢
      refine (scan_rest (p := fun l k' => k'.processed = k.processed + 1 ∧
        (k'.halted = none → Clocked l k')) (fun i l k' hk' => ⟨?_, fun hh => ?_⟩)
        ⟨rfl, fun _ => hcount⟩).2 hhalt
      · exact (tickTurn_processed _ k' i).trans hk'.1
      · have hturn := (hk'.2 (andThen_of_halted hh).1).turn (by rw [hk'.1]; exact hh)
        rwa [hk'.1] at hturn

theorem Clocked.interruptEvents (h : Clocked l k) : Clocked l (interruptEventProcess k) := by
  refine scan_invariant (p := Clocked l) (fun k' i hk' => ?_) h
  split
  · have hclear : Clocked l { k' with
        interruptEvent := Function.update k'.interruptEvent i false } :=
      hk'.frame rfl rfl rfl rfl rfl rfl
    exact hclear.send _ fun hset => absurd hset (hk'.events i)
  · exact hk'

/-! ### Functions of the current task -/

/-- No task sleeps on timer `i`. -/
def Idle (k : Core c S) (i : c.TimerId) : Prop :=
  ∀ t, c.taskTimers t = i → ∀ w n start, ¬ k.InSleep t w n start

theorem Idle.of_user {i : c.TimerId} (h : ¬ IsTaskTimer i) : k.Idle i := fun t ht =>
  absurd ⟨t, ht⟩ h

theorem Awake.idle (h : Awake k) : k.Idle (ownTimer k) := by
  intro t ht w n start hw
  obtain rfl := c.taskTimers_injective ht
  exact h w hw.1

/-- The times and flags of an idle timer may change. -/
theorem Clocked.retime (h : Clocked l k) {i : c.TimerId} (hi : k.Idle i)
    {tm : Timer c.tasks c.signalsetSize} (hid : tm.taskId = (k.timers i).taskId)
    (hset : tm.signalSet = (k.timers i).signalSet) : Clocked l (setTimer i tm k) := by
  by_cases hu : IsTaskTimer i
  · obtain ⟨t, rfl⟩ := hu
    refine h.setTaskTimer ?_ fun w n start hw => absurd hw (hi t rfl w n start)
    rw [hid, hset]
    exact h.taskTimers t
  · exact h.setUserTimer hu (hset ▸ h.userTimers i hu)

theorem Clocked.enable (h : Clocked l k) {i : c.TimerId} (hi : k.Idle i)
    (hhalt : (timerEnable i k).halted = none) : Clocked l (timerEnable i k) := by
  unfold timerEnable at hhalt ⊢
  split at hhalt
  · rename_i hr
    rw [if_pos hr]
    exact h.processOne hhalt fun t ht w n start hw => absurd hw (hi t ht w n start)
  · rename_i hr
    rw [if_neg hr]
    exact h.retime hi rfl rfl

theorem timerEnable_pc (i : c.TimerId) (k : Core c S) : (timerEnable i k).pc = k.pc :=
  funext fun t => ((timerEnable_wakes (A := ∅) i k).other t).pc

theorem Clocked.oneshot (h : Clocked l k) {i : c.TimerId} (hi : k.Idle i) {n : BitVec 16}
    (hhalt : (timerOneshot i n k).halted = none) : Clocked l (timerOneshot i n k) := by
  obtain ⟨hnone, heq⟩ := andThen_of_halted hhalt
  have hset : Clocked l (timerReloadSet i n k) := h.retime hi rfl rfl
  have henable := hset.enable (i := i) hi hnone
  unfold timerOneshot
  rw [heq]
  refine henable.retime (fun t ht w m start hw => hi t ht w m start ?_) rfl rfl
  exact ⟨timerEnable_pc i (timerReloadSet i n k) ▸ hw.1, hw.2⟩

/-- The current task starts to wait, in `sleep` with its timer set. -/
theorem Clocked.wait (h : Clocked l k) (requested : c.SignalSet) (blocker : Option c.TaskId)
    {cont : Cont c} (hcont : ∀ n start, cont = .sleep n start → Resting l k k.currentTask
      ⟨requested, blocker, !signalPeek (k.signals k.currentTask) requested, cont⟩ n start) :
    Clocked l (signalWaitSet requested blocker cont k) := by
  have hpc : Clocked l (Core.setPc (.wait
      ⟨requested, blocker, !signalPeek (k.signals k.currentTask) requested, cont⟩) k) :=
    h.setPc fun w n start hw hs => by
      obtain rfl := Pc.wait.inj hw
      exact hcont n start hs
  refine hpc.frame ?_ ?_ ?_ ?_ (by simp) (by simp)
  all_goals
    unfold signalWaitSet
    split <;> rfl

theorem timerOneshot_of_ne_zero {i : c.TimerId} {n : BitVec 16} (hn : n ≠ 0)
    (hk : k.halted = none) : timerOneshot i n k = setTimer i { k.timers i with
      expiry := Core.currentTimeout k + n, enabled := true, reload := 0 } k := by
  have henable : timerEnable i (timerReloadSet i n k) = setTimer i { k.timers i with
      expiry := Core.currentTimeout k + n, enabled := true, reload := n } k := by
    have hreload : (timerReloadSet i n k).timers i = { k.timers i with reload := n } := by
      simp [timerReloadSet, setTimer]
    rw [timerEnable, hreload, if_neg hn]
    simp [timerReloadSet, setTimer, Core.currentTimeout]
  rw [timerOneshot, henable, andThen, if_neg (by simp [setTimer, hk])]
  simp [timerReloadSet, setTimer]

/-- A timer set to no time at all sends its signals at once. -/
theorem timerOneshot_zero {i : c.TimerId} (hhalt : (timerOneshot i 0 k).halted = none) :
    timerOneshot i 0 k = timerReloadSet i 0 (timerProcessOne i (timerReloadSet i 0 k)) ∧
      (timerProcessOne i (timerReloadSet i 0 k)).halted = none := by
  have henable : timerEnable i (timerReloadSet i 0 k) = timerProcessOne i (timerReloadSet i 0 k) :=
    if_pos (by simp [timerReloadSet, setTimer])
  unfold timerOneshot at hhalt ⊢
  rw [henable] at hhalt ⊢
  obtain ⟨hnone, heq⟩ := andThen_of_halted hhalt
  exact ⟨heq, hnone⟩

/-- `sleep` without a signal left from before. -/
theorem Clocked.sleep (h : Clocked [] k) (ha : Awake k) {n : BitVec 16}
    (hn : n = 0 ∨ ¬ k.taskTimerPending k.currentTask)
    (hhalt : (sleep n k).halted = none) : Clocked [] (sleep n k) := by
  obtain ⟨hnone, heq⟩ := andThen_of_halted hhalt
  have hk : k.halted = none := (timerOneshot_wakes (A := ∅) _ _ _).halted hnone
  have hone := h.oneshot ha.idle hnone
  unfold Core.sleep
  rw [heq]
  refine hone.wait _ _ fun m start hcont => ?_
  obtain ⟨rfl, rfl⟩ := Cont.sleep.inj hcont
  by_cases h0 : n = 0
  · subst h0
    obtain ⟨hz, hpnone⟩ := timerOneshot_zero hnone
    have hset : Clocked [] (timerReloadSet (ownTimer k) 0 k) := h.retime ha.idle rfl rfl
    have hpend := hset.pending_processOne hpnone
    have hproc : (timerOneshot (ownTimer k) 0 k).processed = k.processed := by
      rw [hz]
      exact timerProcessOne_processed _ _
    have hcur := (timerOneshot_wakes (A := ∅) (ownTimer k) 0 k).currentTask
    refine ⟨rfl, hproc.ge, fun _ => hproc.ge, fun hp => absurd ?_ hp⟩
    rw [hcur, hz]
    exact hpend
  · have hp := hn.resolve_left h0
    rw [timerOneshot_of_ne_zero h0 hk]
    refine ⟨rfl, le_rfl, fun hp' => absurd hp' hp, fun _ => ⟨?_, ?_, ?_, Nat.le_add_right _ _, ?_⟩⟩
    · simpa [setTimer] using mt signalPeek_taskTimer.mp hp
    · simp [setTimer, ownTimer]
    · simp [setTimer, ownTimer, h.currentTimeout, BitVec.ofNat_add]
    · intro hzero
      have : n.toNat ≠ 0 := fun h => h0 (BitVec.eq_of_toNat_eq h)
      simp only [setTimer] at hzero
      omega

theorem Clocked.call (h : Clocked [] k) {f : Call c} (happ : k.pc k.currentTask = .app)
    (hf : f.Spares) (hsleep : ∀ n, f = .sleep n → n = 0 ∨ ¬ k.taskTimerPending k.currentTask)
    (hcall : call f k = some k') (hhalt : k'.halted = none) : Clocked [] k' := by
  have ha := Awake.of_app happ
  cases f with
  | yield =>
    obtain ⟨-, ⟨⟩⟩ := Option.ite_none_left_eq_some.mp hcall
    exact h.frame rfl rfl rfl rfl rfl rfl
  | signalSendSet t set =>
    obtain rfl := Option.some.inj hcall
    exact h.send t fun hset => absurd hset hf
  | signalWaitSet r => obtain rfl := Option.some.inj hcall; exact h.wait r none nofun
  | signalPollSet r =>
    obtain rfl := Option.some.inj hcall
    exact h.receive _ r fun w _ _ hw => ha w hw.1
  | sleep n => obtain rfl := Option.some.inj hcall; exact h.sleep ha (hsleep n rfl) hhalt
  | timerEnable i => obtain rfl := Option.some.inj hcall; exact h.enable (.of_user hf) hhalt
  | timerDisable i => obtain rfl := Option.some.inj hcall; exact h.retime (.of_user hf) rfl rfl
  | timerOneshot i n => obtain rfl := Option.some.inj hcall; exact h.oneshot (.of_user hf) hhalt
  | timerCheckOverflow i =>
    obtain rfl := Option.some.inj hcall
    exact h.retime (.of_user hf) rfl rfl
  | timerReloadSet i n => obtain rfl := Option.some.inj hcall; exact h.retime (.of_user hf) rfl rfl
  | timerSignalSet i t set =>
    obtain ⟨-, ⟨⟩⟩ := Option.ite_none_left_eq_some.mp hcall
    exact h.setUserTimer hf.1 hf.2
  | timerErrorSet i e => obtain rfl := Option.some.inj hcall; exact h.retime (.of_user hf) rfl rfl
  | interruptEventTaskSet i t =>
    obtain ⟨-, ⟨⟩⟩ := Option.ite_none_left_eq_some.mp hcall
    refine ⟨h.clock, fun j => ?_, h.userTimers, h.taskTimers, fun u w n start hw =>
      (h.resting u w n start hw).congr rfl rfl Iff.rfl⟩
    by_cases hji : j = i
    · subst hji; simpa using h.events j
    · simpa [hji] using h.events j

end Echronos.Core
