import Echronos.Properties.Handover

/-! # What the task-sync example does

    In every run without a lost interrupt event, what is transmitted is a prefix of the answers to the
    messages that were received. While nothing more is received the system comes to rest, and then every
    message has been answered, unless the system was stopped by an error or an event was lost. Whether or
    not events are lost, no access to the arrays that are shared is out of bounds, and none meets one of
    the other side. -/

namespace Echronos.P2020

open Schemes Ppce500

variable {s s' : State} {rxBuf msgBuf pBuf : ℕ → UInt8} {thre : Bool} {acts : List Act}

/-- Nothing is transmitted but the answers, in order, with no character lost, added or repeated. -/
theorem transmitted_prefix (h : run step (fun act s => decide (Spared act s)) acts
    (.init rxBuf msgBuf pBuf thre) = some s) : s.transmitted <+: reply (messages (line acts)) :=
  (sound_of_run h).transmitted

/-- `interrupt_event_process()` from its call to its return, for one event. -/
def processOne : List Act := List.replicate 11 .process

/-- A run that receives `ab` and a carriage return, and goes on until nothing is left to do. -/
def runAb : List Act :=
  .receive [(97, false), (98, false), (13, false)] :: processOne ++ List.replicate 21 .a ++
  List.replicate 6 .b ++ [.drain, .thre] ++ processOne ++ List.replicate 5 .b ++ List.replicate 4 .a ++
  [.b, .drain, .thre] ++ processOne ++ List.replicate 4 .b ++ [.drain, .thre] ++ processOne ++
  List.replicate 3 .b ++ [.drain, .thre] ++ processOne

def start : State := .init (fun _ => 0) (fun _ => 0) (fun _ => 0) false

theorem transmitted_prefix_runAb :
    ∃ s, run step (fun act s => decide (Spared act s)) (runAb.take 40) start = some s ∧
      s.transmitted = [98] ∧ s.transmitted <+: reply (messages (line (runAb.take 40))) := by
  have hrun : (run step (fun act s => decide (Spared act s)) (runAb.take 40) start).any
      fun s => s.transmitted = [98] := by
    decide +kernel
  obtain ⟨s, hs, h⟩ := (Option.any_eq_true _ _).mp hrun
  exact ⟨s, hs, of_decide_eq_true h, transmitted_prefix hs⟩

/-! ### The arrays -/

/-- What is asked of the accesses to arrays: they are within bounds, `fn_a` reads `rx_buf` while no
    interrupt can come, and only one task is at `msg_buf`. -/
structure Safe (s : State) : Prop where
  copy : ∀ i, s.a = .copy i → i < s.rxCount → s.enabled = false ∧ i < bufCapacity
  loop : ∀ i, s.a = .loop i → i < s.pCount → i < bufCapacity
  store : ∀ i, s.a = .store i → i < bufCapacity ∧ s.msgLen < msgSize ∧ s.b.busy = false
  test : ∀ i, s.a = .test i → i < bufCapacity
  read : ∀ i, s.b = .loop i → i < s.msgLen → s.msgLen - 1 - i < msgSize
  busy : s.b.busy = true → ∃ i, s.a = .waitTx i

/-- The message that `fn_b` is at has been complete. -/
theorem msgLen_le {taken : List UInt8} {i : ℕ} (h : Assembling taken s) (ha : s.a = .waitTx i) :
    s.msgLen ≤ msgSize := by
  unfold Assembling at h
  rw [ha] at h
  obtain ⟨done, hdone⟩ := h.2
  have hmem : s.msg ∈ messages taken := by
    rw [messages, hdone]
    exact List.mem_append_right _ List.mem_cons_self
  simpa [State.msg] using (length_of_mem_messages hmem).2

theorem accesses_safe (h : run step (fun _ _ => true) acts (.init rxBuf msgBuf pBuf thre) = some s)
    (hfatal : s.fatal = none) : Safe s := by
  obtain ⟨taken, ⟨hrx, hp, hmasked, -, hcopied⟩, hassembling, hhandover, -⟩ := lives_of_run h hfatal
  have hturn := hhandover.turn
  unfold State.Copied at hcopied
  refine ⟨fun i ha hi => ⟨(hmasked (by rw [ha]; rfl)).2, by omega⟩, fun i _ hi => by omega, fun i ha => ?_,
    fun i ha => ?_, fun i hb hi => ?_, fun hb => (hturn.of_busy hb).1⟩
  · rw [ha] at hcopied
    unfold State.Turn at hturn
    rw [ha] at hturn
    exact ⟨Nat.lt_of_lt_of_le hcopied hp, hassembling.msgLen_lt ha, hturn.2.1⟩
  · rw [ha] at hcopied
    exact Nat.lt_of_lt_of_le hcopied hp
  · obtain ⟨⟨j, ha⟩, -⟩ := hturn.of_busy (by rw [hb]; rfl)
    have hle := msgLen_le hassembling ha
    omega

theorem accesses_safe_runAb : ∃ s, run step (fun _ _ => true) (runAb.take 23) start = some s ∧
    s.a = .store 0 ∧ Safe s := by
  have hrun : (run step (fun _ _ => true) (runAb.take 23) start).any
      fun s => s.a = .store 0 ∧ s.fatal = none := by
    decide +kernel
  obtain ⟨s, hs, h⟩ := (Option.any_eq_true _ _).mp hrun
  exact ⟨s, hs, (of_decide_eq_true h).1, accesses_safe hs (of_decide_eq_true h).2⟩

/-! ### Rest -/

/-- Nothing can happen but that something is received. -/
def AtRest (s : State) : Prop := ∀ act, (∀ ready, act ≠ .receive ready) → step act s = none

theorem atRest_iff : AtRest s ↔ step .a s = none ∧ step .b s = none ∧ step .drain s = none ∧
    step .thre s = none ∧ step .process s = none := by
  constructor
  · intro h
    exact ⟨h .a (by simp), h .b (by simp), h .drain (by simp), h .thre (by simp), h .process (by simp)⟩
  · rintro ⟨ha, hb, hdrain, hthre, hprocess⟩ act hact
    cases act with
    | a => exact ha
    | b => exact hb
    | receive ready => exact absurd rfl (hact ready)
    | drain => exact hdrain
    | thre => exact hthre
    | process => exact hprocess

instance : Decidable (AtRest s) :=
  decidable_of_iff ((step .a s).isNone ∧ (step .b s).isNone ∧ (step .drain s).isNone ∧
    (step .thre s).isNone ∧ (step .process s).isNone) (by simp only [Option.isNone_iff_eq_none, atRest_iff])

theorem exists_process (s : State) : ∃ s', s.process = some s' := by
  cases hp : s.events.process <;> simp [State.process, EventSystem.step, hp]

theorem mayRun_of_quiet (h : s.quiet = true) (isApi : Bool) : s.mayRun isApi = true := by
  obtain ⟨hprocess, hword⟩ := quiet_iff.mp h
  simp [State.mayRun, hprocess, hword]

theorem AtRest.waiting (h : AtRest s) (hfatal : s.fatal = none) :
    s.quiet = true ∧ s.txReady = true ∧ (s.enabled = true → s.thre = false) ∧
      s.runA = none ∧ s.runB = none := by
  have hprocess := h .process (by simp)
  have hdrain := h .drain (by simp)
  have hthre := h .thre (by simp)
  have ha := h .a (by simp)
  have hb := h .b (by simp)
  simp only [step, hfatal, ne_eq, not_true_eq_false, if_false] at hprocess hdrain hthre ha hb
  have hquiet : s.quiet = true := by
    by_contra hne
    obtain ⟨s', hs'⟩ := exists_process s
    simp [hne, hs'] at hprocess
  rw [if_pos (mayRun_of_quiet hquiet _)] at ha hb
  refine ⟨hquiet, ?_, fun henabled => ?_, ha, hb⟩
  · by_contra hne
    simp [hne] at hdrain
  · by_contra hne
    simp [henabled, hne] at hthre

theorem runA_eq_none (h : s.runA = none) :
    (s.a = .waitRx ∧ s.signalsA.rx = false) ∨ (∃ i, s.a = .waitTx i ∧ s.signalsA.tx = false) := by
  rw [State.runA] at h
  cases ha : s.a <;> simp_all <;> split_ifs at h

theorem runB_eq_none (h : s.runB = none) :
    (s.b = .waitRx ∧ s.signalsB.rx = false) ∨ (∃ c k, s.b = .waitTx c k ∧ s.signalsB.tx = false) ∨
      (∃ k, s.b = .overrun k) := by
  rw [State.runB] at h
  cases hb : s.b <;> simp_all <;> split_ifs at h

/-- At rest every message that was received has been answered. -/
theorem answered_at_rest (h : run step (fun act s => decide (Spared act s)) acts
    (.init rxBuf msgBuf pBuf thre) = some s) (hrest : AtRest s) (hfatal : s.fatal = none) :
    s.transmitted = reply (messages (line acts)) := by
  obtain ⟨taken, ⟨hreader, -, hhandover, -⟩, hbuffered⟩ := (sound_of_run h).inv hfatal
  obtain ⟨hquiet, hready, hthre, ha, hb⟩ := hrest.waiting hfatal
  have hhandled := unhandled_of_quiet hbuffered.events.kept hquiet
  have hunmasked : s.a.masked = false := by
    rcases runA_eq_none ha with ⟨ha, -⟩ | ⟨i, ha, -⟩ <;> rw [ha] <;> rfl
  have hb : s.b = .waitRx ∧ s.signalsB.rx = false := by
    rcases runB_eq_none hb with hb | ⟨c, k, hb, htx⟩ | ⟨k, hb⟩
    · exact hb
    · have henabled : s.enabled = true := by
        rw [hreader.enabled hunmasked, EventSystem.masking, (quiet_iff.mp hquiet).1]
        rfl
      simpa [hthre henabled, hhandled, htx] using hhandover.woken c k hb hready
    · have hseen := hhandover.seen
      unfold State.Seen at hseen
      rw [hb] at hseen
      exact hseen.elim
  have hturn := hhandover.turn
  have hsent := hhandover.sent
  unfold State.Turn at hturn
  rcases runA_eq_none ha with ⟨ha, hrx⟩ | ⟨i, ha, htx⟩
  · have htaken := hbuffered.mailbox.consumed_eq (Nat.zero_lt_succ _)
      (by simp [State.mailbox, ha, TaskA.phase]) hrx (hhandled _)
    rw [← htaken, ← hsent, hb.1, State.unsent, ha, TaskB.rest, List.append_nil, List.append_nil]
  · rw [ha] at hturn
    simp [hb, TaskB.busy, htx] at hturn

theorem answered_at_rest_runAb :
    ∃ s, run step (fun act s => decide (Spared act s)) runAb start = some s ∧ AtRest s ∧
      s.transmitted = [98, 97, 10, 13] ∧ s.transmitted = reply (messages (line runAb)) := by
  have hrun : (run step (fun act s => decide (Spared act s)) runAb start).any
      fun s => AtRest s ∧ s.fatal = none ∧ s.transmitted = [98, 97, 10, 13] := by
    decide +kernel
  obtain ⟨s, hs, h⟩ := (Option.any_eq_true _ _).mp hrun
  obtain ⟨hrest, hfatal, htransmitted⟩ := of_decide_eq_true h
  exact ⟨s, hs, hrest, htransmitted, answered_at_rest hs hrest hfatal⟩

/-- While `fn_b` waits for the transmitter, `b` is received, and the transmitter's interrupt comes between
    the load and the store that clear the bit of `rx`. -/
def runLost : List Act :=
  .receive [(97, false), (13, false)] :: processOne ++ List.replicate 16 .a ++ List.replicate 7 .b ++
  List.replicate 4 .a ++ .receive [(98, false)] :: List.replicate 7 .process ++ [.drain, .thre] ++
  List.replicate 4 .process ++ List.replicate 14 .a

/-- Then `fn_b` is not woken. -/
example : (run step (fun _ _ => true) runLost start).any fun s =>
    AtRest s ∧ s.fatal = none ∧ s.transmitted ≠ reply (messages (line runLost)) := by
  decide +kernel

/-! ### Coming to rest -/

/-- A bound for the steps that a character and what comes after it can take. -/
def Next.work (msgLen : ℕ) : Next → ℕ
  | .loop i => 66 * (msgLen - i) + 133
  | .carriageReturn => 65
  | .waitRx => 0

def TaskB.work (msgLen : ℕ) : TaskB → ℕ
  | .waitRx => 0
  | .loop i => 66 * (msgLen - i) + 133
  | .ready _ k => k.work msgLen + 65
  | .waitTx _ k => k.work msgLen + 64
  | .put _ k => k.work msgLen + 63
  | .overrun k => k.work msgLen + 62
  | .send => 132

/-- A bound for the steps of `fn_a`, which pays for the transmission of what it hands over. -/
def State.workA (s : State) : ℕ :=
  match s.a with
  | .waitRx => 207 * s.rxCount + 66 * s.msgLen
  | .disable => 207 * s.rxCount + 66 * s.msgLen + 8
  | .check => 207 * s.rxCount + 66 * s.msgLen + 7
  | .copy i => 206 * s.rxCount + (s.rxCount - i) + 66 * s.msgLen + 6
  | .count => 206 * s.rxCount + 66 * s.msgLen + 5
  | .reset => 206 * s.rxCount + 66 * s.msgLen + 4
  | .enable => 207 * s.rxCount + 206 * s.pCount + 66 * s.msgLen + 3
  | .loop i => 207 * s.rxCount + 206 * (s.pCount - i) + 66 * s.msgLen + 2
  | .store i => 207 * s.rxCount + 206 * (s.pCount - (i + 1)) + 66 * s.msgLen + 207
  | .incr i => 207 * s.rxCount + 206 * (s.pCount - (i + 1)) + 66 * s.msgLen + 206
  | .test i => 207 * s.rxCount + 206 * (s.pCount - (i + 1)) + 66 * s.msgLen + 139
  | .send i => 207 * s.rxCount + 206 * (s.pCount - (i + 1)) + 66 * s.msgLen + 138
  | .waitTx i | .clear i => 207 * s.rxCount + 206 * (s.pCount - (i + 1)) + 3
  | .poll => 207 * s.rxCount + 66 * s.msgLen + 1

/-- A bound for what the bits of `interrupt_event` can lead to. -/
def bitWork (x : BitVec 32) : ℕ :=
  (bif x.getLsbD 0 then 40 else 0) + (bif x.getLsbD 1 then 40 else 0) + (bif x.getLsbD 2 then 40 else 0)

/-- A bound for the accesses of `interrupt_event_process()` up to the next bit that it clears, or to its
    return. A call that returns may have to be made again. -/
def pointWork (e : EventSystem interruptEvents) : ℕ :=
  match e.process with
  | none => if e.irq.interruptEvent = 0 then 0 else 16
  | some .enter => 15
  | some .clear => 14
  | some .copy => 13
  | some (.enable _) => 12
  | some (.loop tmp) => if tmp = 0 then 17 else 11
  | some (.load _ _) => 10
  | some (.store _ _ _) => 9
  | some (.handle _ _) => 40
  | some (.mask _ _) => 20

def eventWork (e : EventSystem interruptEvents) : ℕ := bitWork e.irq.interruptEvent + pointWork e

/-- A bound for what signals and interrupts that are yet to be seen can lead to. -/
def State.workRaised (s : State) : ℕ :=
  (bif s.signalsA.rx then 9 else 0) + (bif s.signalsA.tx then 1 else 0) +
  (bif s.signalsB.rx then 66 * s.msgLen + 134 else 0) + (bif s.signalsB.tx then 2 else 0) +
  eventWork s.events + (bif s.thre then 60 else 0) + (bif s.txReady then 0 else 61)

/-- A bound for the steps that are left while nothing is received. -/
def State.work (s : State) : ℕ :=
  s.workA + s.b.work s.msgLen + s.workRaised + bif s.fatal.isNone then 1 else 0

theorem pc_work (k : Next) (msgLen : ℕ) : k.pc.work msgLen = k.work msgLen := by cases k <;> rfl

theorem Next.work_of_not_busy {k : Next} (n n' : ℕ) (h : k.busy = false) : k.work n = k.work n' := by
  cases k with
  | loop i => cases h
  | carriageReturn | waitRx => rfl

theorem work_of_not_busy {b : TaskB} (n n' : ℕ) (h : b.busy = false) : b.work n = b.work n' := by
  cases b with
  | waitRx => rfl
  | loop i => cases h
  | send => cases h
  | ready c k | waitTx c k | put c k | overrun k =>
    simp only [TaskB.work, Next.work_of_not_busy n n' h]

theorem work_stepA {cs : List UInt8} (h : Reader s) (hturn : s.Turn) (hstep : StepA cs s s')
    (hs : s.fatal = none) : s'.work < s.work := by
  have hcopied := h.copied
  unfold State.Copied at hcopied
  unfold State.Turn at hturn
  cases hstep with
  | waitRx ha hrx =>
    simp only [State.work, State.workA, State.workRaised, ha, hrx, cond_true, cond_false]
    omega
  | disable ha _ =>
    have hevents : eventWork { s.events with irq := s.events.irq.interruptsDisable } = eventWork s.events := rfl
    simp only [State.work, State.workA, State.workRaised, ha, hevents]
    omega
  | enable ha =>
    have hevents : eventWork { s.events with irq := s.events.irq.interruptsEnable } = eventWork s.events := rfl
    simp only [State.work, State.workA, State.workRaised, ha, hevents]
    omega
  | check ha | ordinary i ha _ _ | skip i ha _ _ | through i ha _ | poll ha _ | more i ha _ | store i ha =>
    simp only [State.work, State.workA, State.workRaised, ha]
    omega
  | copy i ha _ | copied i ha _ | count ha | reset ha _ =>
    rw [ha] at hcopied
    simp only [State.work, State.workA, State.workRaised, ha]
    omega
  | oob ha _ | overrun ha _ =>
    simp only [State.work, State.workA, State.workRaised, ha, hs, Option.isNone_none, Option.isNone_some,
      cond_true, cond_false]
    omega
  | incr i ha =>
    rw [ha] at hturn
    have hb := work_of_not_busy s.msgLen (s.msgLen + 1) hturn.2.1
    simp only [State.work, State.workA, State.workRaised, ha, hturn.1, hb, cond_false]
    omega
  | full i ha _ =>
    simp only [State.work, State.workA, State.workRaised, ha]
    omega
  | send i ha =>
    rw [ha] at hturn
    simp only [State.work, State.workA, State.workRaised, ha, hturn.1, cond_true, cond_false]
    omega
  | waitTx i ha htx =>
    simp only [State.work, State.workA, State.workRaised, ha, htx, cond_true, cond_false]
    omega
  | clear i ha =>
    rw [ha] at hturn
    have hb := work_of_not_busy s.msgLen 0 hturn.2.1
    simp only [State.work, State.workA, State.workRaised, ha, hturn.1, hb, cond_false]
    omega

theorem work_stepB (hstep : StepB s s') : s'.work < s.work := by
  cases hstep with
  | waitRx hb hrx =>
    simp only [State.work, State.workA, State.workRaised, TaskB.work, hb, hrx, cond_true, cond_false]
    omega
  | loop i hb hi =>
    simp only [State.work, State.workA, State.workRaised, TaskB.work, Next.work, hb]
    omega
  | through i hb hi =>
    simp only [State.work, State.workA, State.workRaised, TaskB.work, hb]
    omega
  | ready c k hb _ | notReady c k hb _ | notReadyPut c k hb _ =>
    simp only [State.work, State.workA, State.workRaised, TaskB.work, hb]
    omega
  | waitTx c k hb htx =>
    simp only [State.work, State.workA, State.workRaised, TaskB.work, hb, htx, cond_true, cond_false]
    omega
  | put c k hb hready | overrun k hb hready =>
    simp only [State.work, State.workA, State.workRaised, pc_work, hb, hready, cond_true, cond_false]
    simp only [TaskB.work]
    omega
  | send hb =>
    have hsend : s.b.work s.msgLen = 132 := by rw [hb]; rfl
    have hready : (TaskB.ready lineFeed .carriageReturn).work s.msgLen = 130 := rfl
    simp only [State.work, State.workA, State.workRaised, hsend, hready, cond_true]
    omega

theorem cond_or_le (a b : Bool) (n : ℕ) :
    (bif a || b then n else 0) ≤ (bif a then n else 0) + bif b then n else 0 := by
  cases a <;> cases b <;> simp

theorem cond_le {a b : Bool} (h : a = true → b = true) (n : ℕ) :
    (bif a then n else 0) ≤ bif b then n else 0 := by
  cases a
  · exact Nat.zero_le _
  · rw [h rfl]

theorem bitWork_raise (j : InterruptEventId) (e : EventSystem interruptEvents) :
    bitWork (interruptEventRaise j e).irq.interruptEvent ≤ bitWork e.irq.interruptEvent + 40 := by
  have hbit (k : ℕ) : (interruptEventRaise j e).irq.interruptEvent.getLsbD k =
      (e.irq.interruptEvent.getLsbD k || (decide (j.val < 32) && decide (j.val = k))) :=
    getLsbD_interruptEventRaise _ _ _
  have hor (k : ℕ) := cond_or_le (e.irq.interruptEvent.getLsbD k)
    (decide (j.val < 32) && decide (j.val = k)) 40
  have h0 := hor 0
  have h1 := hor 1
  have h2 := hor 2
  have hone : (bif decide (j.val < 32) && decide (j.val = 0) then 40 else 0) +
      (bif decide (j.val < 32) && decide (j.val = 1) then 40 else 0) +
      (bif decide (j.val < 32) && decide (j.val = 2) then 40 else 0) ≤ 40 := by
    have hj : j.val < 3 := j.isLt
    obtain hj | hj | hj : j.val = 0 ∨ j.val = 1 ∨ j.val = 2 := by omega
    all_goals simp [hj]
  simp only [bitWork, hbit]
  omega

theorem eventWork_raise (j : InterruptEventId) (e : EventSystem interruptEvents) :
    eventWork (interruptEventRaise j e) ≤ eventWork e + 56 := by
  have hbits := bitWork_raise j e
  have hpoint : pointWork (interruptEventRaise j e) ≤ pointWork e + 16 := by
    unfold pointWork
    cases hp : e.process with
    | none =>
      simp only [interruptEventRaise, hp]
      split_ifs <;> omega
    | some p => cases p <;> simp only [interruptEventRaise, hp] <;> omega
  unfold eventWork
  omega

/-- To clear a bit makes up for what comes behind it. -/
theorem bitWork_clearBit {x y : BitVec 32} {i : ℕ} (hi : i < 3) (hy : y.getLsbD i = true) (h : Within x y) :
    bitWork (clearBit x i) + 40 ≤ bitWork y := by
  have h0 := cond_le (h 0) 40
  have h1 := cond_le (h 1) 40
  have h2 := cond_le (h 2) 40
  simp only [bitWork, getLsbD_clearBit]
  obtain rfl | rfl | rfl : i = 0 ∨ i = 1 ∨ i = 2 := by omega
  all_goals
    simp only [hy, cond_true] at h0 h1 h2 ⊢
    simp at h0 h1 h2 ⊢
    omega

/-- Each access leaves less to do, also when the event that is handled gives work to a task. -/
theorem eventWork_next {e e' : EventSystem interruptEvents} (h : Processing e)
    (hquiet : e.process = none → e.irq.interruptEvent ≠ 0) (hstep : EventSystem.step .next e = some e') :
    eventWork e' + (bif (e.process.bind Process.handles).isSome then 9 else 0) < eventWork e := by
  rcases EventSystem.next_eq hstep with ⟨hp, rfl⟩ | ⟨p, hp, rfl⟩
  · simp only [eventWork, pointWork, hp, if_neg (hquiet hp), Option.bind_none, Option.isSome_none, cond_false]
    omega
  · have hcopied := h.backed.point p hp
    have hbusy := h.busy
    unfold Busy at hbusy
    rw [hp] at hbusy
    cases p with
    | enter | clear | copy | load tmp i | handle tmp i =>
      simp [eventWork, pointWork, hp, interruptEventProcess, Process.handles, Irq.interruptsDisable,
        Irq.preemptClear]
    | enable tmp =>
      have htmp : tmp ≠ 0 := hbusy
      simp only [eventWork, pointWork, hp, interruptEventProcess, Process.handles, if_neg htmp,
        Irq.interruptsEnable, Option.bind_some, Option.isSome_none, cond_false]
      omega
    | loop tmp =>
      have hnone : (if e.irq.interruptEvent = 0 then 0 else 16) ≤ 16 := by split_ifs <;> omega
      by_cases htmp : tmp = 0
      · simp only [eventWork, pointWork, hp, interruptEventProcess, Process.handles, if_pos htmp,
          Option.bind_some, Option.isSome_none, cond_false]
        omega
      · simp only [eventWork, pointWork, hp, interruptEventProcess, Process.handles, if_neg htmp,
          Option.bind_some, Option.isSome_none, cond_false]
        omega
    | store tmp i r =>
      obtain ⟨hi, htmp, hr⟩ := hcopied
      have hword := hr i (htmp i hi)
      have hbits := bitWork_clearBit (h.backed.lt i hword) hword hr
      simp only [eventWork, pointWork, hp, interruptEventProcess, Process.handles, Option.bind_some,
        Option.isSome_none, cond_false]
      omega
    | mask tmp i =>
      have hloop : (if clearBit tmp i = 0 then 17 else 11) ≤ 17 := by split_ifs <;> omega
      simp only [eventWork, pointWork, hp, interruptEventProcess, Process.handles, Option.bind_some,
        Option.isSome_none, cond_false]
      omega

theorem work_process {events : EventSystem interruptEvents} (h : Processing s.events)
    (hquiet : s.quiet = false) (hstep : EventSystem.step .next s.events = some events) :
    ({ s.interruptEventHandle (s.events.process.bind Process.handles) with events := events } : State).work <
      s.work := by
  have hevents := eventWork_next h (interruptEvent_ne_zero hquiet) hstep
  generalize s.events.process.bind Process.handles = i at hevents ⊢
  have hrx := cond_or_le s.signalsA.rx (i == some interruptEventIdRx.val) 9
  have htx := cond_or_le s.signalsB.tx (i == some interruptEventIdTx.val) 2
  -- one event is handled, and gives work to one of the tasks
  have hone : (bif i == some interruptEventIdRx.val then 9 else 0) +
      (bif i == some interruptEventIdTx.val then 2 else 0) ≤ bif i.isSome then 9 else 0 := by
    cases i with
    | none => exact Nat.le_refl 0
    | some i =>
      by_cases hi : i = 0
      · subst hi
        decide
      · have hrx : (some i == some interruptEventIdRx.val) = false := by simpa [interruptEventIdRx] using hi
        rw [hrx]
        cases some i == some interruptEventIdTx.val <;> simp
  simp only [State.work, State.workA, State.workRaised, State.interruptEventHandle]
  omega

/-- Each step but the reception of something leaves less to do. -/
theorem work_step {taken : List UInt8} {act : Act} (hlive : Live taken s)
    (hact : ∀ ready, act ≠ .receive ready) (h : step act s = some s') : s'.work < s.work := by
  obtain ⟨hs, cs, hstep⟩ := step_cases h
  cases hstep with
  | a hstep => exact work_stepA hlive.reader hlive.handover.turn hstep hs
  | b hstep => exact work_stepB hstep
  | receive ready _ => exact absurd rfl (hact ready)
  | drain hready =>
    simp only [State.work, State.workA, State.workRaised, hready, cond_true, cond_false]
    omega
  | thre _ hthre =>
    have hraise := eventWork_raise interruptEventIdTx s.events
    simp only [State.work, State.workA, State.workRaised, hthre, cond_true, cond_false]
    omega
  | process events hquiet hstep => exact work_process hlive.processing hquiet hstep

theorem length_le_work : ∀ {acts' : List Act} {s : State}, Lives s →
    (∀ act ∈ acts', ∀ ready, act ≠ .receive ready) → run step (fun _ _ => true) acts' s = some s' →
    acts'.length ≤ s.work
  | [], _, _, _, _ => Nat.zero_le _
  | act :: acts', s, h, hacts, hrun => by
    obtain ⟨-, hrun⟩ := Option.ite_none_right_eq_some.mp hrun
    obtain ⟨t, ht, hrest⟩ := Option.bind_eq_some_iff.mp hrun
    obtain ⟨hact, hacts⟩ := List.forall_mem_cons.mp hacts
    obtain ⟨taken, hlive⟩ := h (step_cases ht).1
    have hless := work_step hlive hact ht
    have hlength := length_le_work (h.step ht) hacts hrest
    rw [List.length_cons]
    omega

/-- While nothing is received, only so many steps are left. -/
theorem comes_to_rest (h : run step (fun _ _ => true) acts (.init rxBuf msgBuf pBuf thre) = some s)
    {acts' : List Act} (hacts : ∀ act ∈ acts', ∀ ready, act ≠ .receive ready)
    (h' : run step (fun _ _ => true) acts' s = some s') : acts'.length ≤ s.work :=
  length_le_work (lives_of_run h) hacts h'

theorem comes_to_rest_runAb : ∃ s s', run step (fun _ _ => true) (runAb.take 1) start = some s ∧
    run step (fun _ _ => true) (runAb.drop 1) s = some s' ∧ (runAb.drop 1).length ≤ s.work := by
  have hrun : ((run step (fun _ _ => true) (runAb.take 1) start).bind
      (run step (fun _ _ => true) (runAb.drop 1))).isSome := by
    decide +kernel
  obtain ⟨s', hs'⟩ := Option.isSome_iff_exists.mp hrun
  obtain ⟨s, hs, hrest⟩ := Option.bind_eq_some_iff.mp hs'
  have hacts : ∀ act ∈ runAb.drop 1, ∀ ready, act ≠ .receive ready := by
    simp [runAb, processOne]
  exact ⟨s, s', hs, hrest, comes_to_rest hs hacts hrest⟩

end Echronos.P2020
