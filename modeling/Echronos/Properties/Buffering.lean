import Echronos.P2020.Steps
import Echronos.Properties.InterruptEvents
import Echronos.Schemes.Mailbox

/-! # The buffer of the task-sync example

    The handler, the interrupt events and the part of `fn_a` that empties `rx_buf` behave as a reader of
    a bounded buffer: each step is a step of the abstract protocol, or one that it does not see. So as
    long as no interrupt event is lost, `fn_a` puts together messages from what was received, with
    nothing left out, and where something is lost it does not get that far. -/

namespace Echronos.P2020

open Schemes Ppce500

variable {s s' : State} {ready : List (UInt8 × Bool)}

/-! ### The interrupt handler -/

theorem receiveLoop_frame : ∀ (ready : List (UInt8 × Bool)) (s : State), ∃ rxBuf rxCount fatal,
    s.receiveLoop ready = { s with rxBuf := rxBuf, rxCount := rxCount, fatal := fatal }
  | [], s => ⟨s.rxBuf, s.rxCount, s.fatal, rfl⟩
  | (c, overrun) :: rest, s => by
    rw [State.receiveLoop]
    split_ifs
    · exact ⟨s.rxBuf, s.rxCount, _, rfl⟩
    · obtain ⟨rxBuf, rxCount, fatal, heq⟩ := receiveLoop_frame rest
        { s with rxBuf := Function.update s.rxBuf s.rxCount c, rxCount := s.rxCount + 1 }
      exact ⟨rxBuf, rxCount, fatal, heq⟩
    · exact ⟨s.rxBuf, s.rxCount, s.fatal, rfl⟩

/-- Events are raised, one after the other. -/
def raise (js : List InterruptEventId) (e : EventSystem interruptEvents) : EventSystem interruptEvents :=
  js.foldl (fun e j => interruptEventRaise j e) e

/-- The handler leaves the tasks and the transmitter alone. -/
theorem receive_frame (s : State) (ready : List (UInt8 × Bool)) : ∃ rxBuf rxCount fatal,
    s.receive ready =
      { s with
        rxBuf := rxBuf
        rxCount := rxCount
        events := raise ((Act.receive ready).raises s) s.events
        fatal := fatal } := by
  obtain ⟨rxBuf, rxCount, fatal, heq⟩ := receiveLoop_frame ready s
  rw [State.receive, Act.raises, heq, State.received]
  dsimp only
  split_ifs
  · exact ⟨rxBuf, rxCount, fatal, rfl⟩
  · exact ⟨rxBuf, rxCount, fatal, rfl⟩
  · exact ⟨rxBuf, rxCount, _, rfl⟩
  · exact ⟨rxBuf, rxCount, fatal, rfl⟩

/-- The loop stores as many bytes as there is room for. -/
theorem receiveLoop_spec : ∀ {ready : List (UInt8 × Bool)} {s : State}, s.rxCount ≤ bufCapacity →
    (s.receiveLoop ready).fatal = none → ∃ rxBuf,
      s.receiveLoop ready = { s with rxBuf := rxBuf, rxCount := min bufCapacity (s.rxCount + ready.length) } ∧
      contents rxBuf (min bufCapacity (s.rxCount + ready.length)) =
        contents s.rxBuf s.rxCount ++ (ready.map Prod.fst).take (bufCapacity - s.rxCount)
  | [], s, hcount, _ => by
    refine ⟨s.rxBuf, ?_, ?_⟩
    · rw [List.length_nil, Nat.add_zero, Nat.min_eq_right hcount]
      rfl
    · rw [List.length_nil, Nat.add_zero, Nat.min_eq_right hcount, List.map_nil, List.take_nil,
        List.append_nil]
  | (c, overrun) :: rest, s, hcount, hfatal => by
    rw [State.receiveLoop] at hfatal ⊢
    split_ifs at hfatal ⊢ with hroom hoverrun
    · obtain ⟨rxBuf, heq, hcontents⟩ := receiveLoop_spec (Nat.succ_le_of_lt hroom) hfatal
      have hmin : s.rxCount + 1 + rest.length = s.rxCount + (rest.length + 1) := by omega
      have htake : bufCapacity - s.rxCount = bufCapacity - (s.rxCount + 1) + 1 := by omega
      dsimp only at heq hcontents
      rw [hmin] at heq hcontents
      refine ⟨rxBuf, heq, ?_⟩
      rw [List.length_cons, hcontents, contents_update_succ, List.map_cons, htake, List.take_succ_cons,
        List.append_assoc, List.singleton_append]
    · have hfull : s.rxCount = bufCapacity := by omega
      refine ⟨s.rxBuf, ?_, ?_⟩
      · rw [hfull, Nat.min_eq_left (Nat.le_add_right _ _), ← hfull]
      · rw [hfull, Nat.min_eq_left (Nat.le_add_right _ _), Nat.sub_self, List.take_zero, List.append_nil]

/-- The handler stores as many bytes as there is room for, and reports a full buffer. -/
theorem receive_spec (hs : s.rxCount ≤ bufCapacity) (hfatal : (s.receive ready).fatal = none) :
    ∃ rxBuf events, s.receive ready =
      { s with rxBuf := rxBuf, rxCount := min bufCapacity (s.rxCount + ready.length), events := events } ∧
      contents rxBuf (min bufCapacity (s.rxCount + ready.length)) =
        contents s.rxBuf s.rxCount ++ (ready.map Prod.fst).take (bufCapacity - s.rxCount) ∧
      events.unhandled interruptEventIdRx = true ∧
      events.unhandled interruptEventIdRxOverrun = (s.events.unhandled interruptEventIdRxOverrun ||
        decide (bufCapacity ≤ s.rxCount + ready.length)) := by
  have hloop : (s.receiveLoop ready).fatal = none := by
    by_contra hne
    rw [State.receive, State.received, if_pos hne] at hfatal
    exact hne hfatal
  obtain ⟨rxBuf, heq, hcontents⟩ := receiveLoop_spec hs hloop
  rw [State.receive, State.received, if_neg (not_not.mpr hloop)] at hfatal ⊢
  rw [heq] at hfatal ⊢
  dsimp only at hfatal ⊢
  split_ifs at hfatal ⊢ with hfull hspurious
  · refine ⟨rxBuf, _, rfl, hcontents, rfl, ?_⟩
    rw [decide_eq_true (by omega), Bool.or_true]
    rfl
  · refine ⟨rxBuf, _, rfl, hcontents, rfl, ?_⟩
    rw [decide_eq_false (by omega), Bool.or_false]
    rfl

/-! ### The reader -/

/-- Where `fn_a` has interrupts disabled. -/
def TaskA.masked : TaskA → Bool
  | .check | .copy _ | .count | .reset | .enable => true
  | _ => false

def TaskA.phase : TaskA → Mailbox.Phase
  | .waitRx => .waiting
  | .disable | .check | .copy _ | .count | .reset => .emptying
  | _ => .consuming

/-- What `fn_a` knows of its buffer. -/
def State.Copied (s : State) : Prop :=
  match s.a with
  | .copy i => i ≤ s.rxCount ∧ contents s.pBuf i = contents s.rxBuf i
  | .count => contents s.pBuf s.rxCount = contents s.rxBuf s.rxCount
  | .reset => s.pCount = s.rxCount ∧ contents s.pBuf s.rxCount = contents s.rxBuf s.rxCount
  | .store i | .incr i | .test i | .send i | .waitTx i | .clear i => i < s.pCount
  | _ => True

structure Reader (s : State) : Prop where
  rxCount_le : s.rxCount ≤ bufCapacity
  pCount_le : s.pCount ≤ bufCapacity
  masked : s.a.masked = true → s.quiet = true ∧ s.enabled = false
  enabled : s.a.masked = false → s.enabled = !s.events.masking
  copied : s.Copied

/-- While interrupts are enabled, and while events are processed, `fn_a` is not at `rx_buf`. -/
theorem Reader.unmasked (h : Reader s) (hs : s.enabled = true ∨ s.quiet = false) : s.a.masked = false := by
  by_contra hmasked
  obtain ⟨hquiet, henabled⟩ := h.masked (Bool.of_not_eq_false hmasked)
  rcases hs with hs | hs
  · rw [henabled] at hs
    cases hs
  · rw [hquiet] at hs
    cases hs

theorem quiet_iff : s.quiet = true ↔ s.events.process = none ∧ s.events.irq.interruptEvent = 0 := by
  rw [State.quiet, Bool.and_eq_true, Option.isNone_iff_eq_none, beq_iff_eq]

/-- Where `fn_a` is not at `rx_buf` it knows nothing of it. -/
theorem copied_of_unmasked {rxBuf : ℕ → UInt8} {rxCount : ℕ} {events : EventSystem interruptEvents}
    (h : s.Copied) (ha : s.a.masked = false) :
    ({ s with rxBuf := rxBuf, rxCount := rxCount, events := events } : State).Copied := by
  unfold State.Copied at h ⊢
  cases hpc : s.a <;> simp only [hpc, TaskA.masked, Bool.true_eq_false] at h ha ⊢ <;> exact h

theorem Reader.stepA {cs : List UInt8} (h : Reader s) (hstep : StepA cs s s') (hfatal : s'.fatal = none) :
    Reader s' := by
  obtain ⟨hrx, hp, hmasked, henabled, hcopied⟩ := h
  unfold State.Copied at hcopied
  -- with interrupts enabled before and after, or disabled before and after
  have hon (ha : s.a.masked = false) {a : TaskA} (ha' : a.masked = false) :
      (a.masked = true → s.quiet = true ∧ s.enabled = false) ∧
      (a.masked = false → s.enabled = !s.events.masking) :=
    ⟨fun hm => absurd (ha'.symm.trans hm) (by decide), fun _ => henabled ha⟩
  have hoff (ha : s.a.masked = true) {a : TaskA} (ha' : a.masked = true) :
      (a.masked = true → s.quiet = true ∧ s.enabled = false) ∧
      (a.masked = false → s.enabled = !s.events.masking) :=
    ⟨fun _ => hmasked ha, fun hm => absurd (ha'.symm.trans hm) (by decide)⟩
  cases hstep with
  | waitRx ha _ =>
    obtain ⟨hm, he⟩ := hon (by rw [ha]; rfl) (a := .disable) rfl
    exact ⟨hrx, hp, hm, he, trivial⟩
  | disable ha hquiet => exact ⟨hrx, hp, fun _ => ⟨hquiet, rfl⟩, nofun, trivial⟩
  | oob ha _ => cases hfatal
  | check ha =>
    obtain ⟨hm, he⟩ := hoff (by rw [ha]; rfl) (a := .copy 0) rfl
    exact ⟨hrx, hp, hm, he, Nat.zero_le _, rfl⟩
  | copy i ha hi =>
    obtain ⟨hm, he⟩ := hoff (by rw [ha]; rfl) (a := .copy (i + 1)) rfl
    rw [ha] at hcopied
    refine ⟨hrx, hp, hm, he, hi, ?_⟩
    rw [contents_update_succ, hcopied.2, contents_succ]
  | copied i ha hi =>
    obtain ⟨hm, he⟩ := hoff (by rw [ha]; rfl) (a := .count) rfl
    rw [ha] at hcopied
    obtain rfl : i = s.rxCount := Nat.le_antisymm hcopied.1 hi
    exact ⟨hrx, hp, hm, he, hcopied.2⟩
  | count ha =>
    obtain ⟨hm, he⟩ := hoff (by rw [ha]; rfl) (a := .reset) rfl
    rw [ha] at hcopied
    exact ⟨hrx, hrx, hm, he, rfl, hcopied⟩
  | reset ha _ =>
    obtain ⟨hm, he⟩ := hoff (by rw [ha]; rfl) (a := .enable) rfl
    exact ⟨Nat.zero_le _, hp, hm, he, trivial⟩
  | enable ha =>
    obtain ⟨hprocess, -⟩ := quiet_iff.mp (hmasked (by rw [ha]; rfl)).1
    refine ⟨hrx, hp, nofun, fun _ => ?_, trivial⟩
    rw [EventSystem.masking, hprocess]
    rfl
  | ordinary i ha hi _ =>
    obtain ⟨hm, he⟩ := hon (by rw [ha]; rfl) (a := .store i) rfl
    exact ⟨hrx, hp, hm, he, hi⟩
  | skip i ha hi _ =>
    obtain ⟨hm, he⟩ := hon (by rw [ha]; rfl) (a := .test i) rfl
    exact ⟨hrx, hp, hm, he, hi⟩
  | through i ha _ =>
    obtain ⟨hm, he⟩ := hon (by rw [ha]; rfl) (a := .poll) rfl
    exact ⟨hrx, hp, hm, he, trivial⟩
  | store i ha | incr i ha | full i ha _ | send i ha | waitTx i ha _ =>
    obtain ⟨hm, he⟩ := hon (by rw [ha]; rfl) (a := .test i) rfl
    rw [ha] at hcopied
    exact ⟨hrx, hp, hm, he, hcopied⟩
  | more i ha _ | clear i ha =>
    obtain ⟨hm, he⟩ := hon (by rw [ha]; rfl) (a := .loop (i + 1)) rfl
    exact ⟨hrx, hp, hm, he, trivial⟩
  | overrun ha _ => cases hfatal
  | poll ha _ =>
    obtain ⟨hm, he⟩ := hon (by rw [ha]; rfl) (a := .waitRx) rfl
    exact ⟨hrx, hp, hm, he, trivial⟩

theorem Reader.stepB (h : Reader s) (hstep : StepB s s') : Reader s' := by
  obtain ⟨hrx, hp, hmasked, henabled, hcopied⟩ := h
  cases hstep <;> exact ⟨hrx, hp, hmasked, henabled, hcopied⟩

/-- What is raised leaves the point of `interrupt_event_process()` and `MSR[EE]` alone. -/
theorem raise_frame : ∀ (js : List InterruptEventId) (e : EventSystem interruptEvents),
    (raise js e).irq.interruptsEnabled = e.irq.interruptsEnabled ∧ (raise js e).process = e.process
  | [], _ => ⟨rfl, rfl⟩
  | _ :: js, _ => raise_frame js _

theorem Reader.raise (h : Reader s) (henabled : s.enabled = true) (js : List InterruptEventId) :
    Reader { s with events := raise js s.events } := by
  have ha := h.unmasked (.inl henabled)
  obtain ⟨he, hp⟩ := raise_frame js s.events
  refine ⟨h.rxCount_le, h.pCount_le, fun hm => absurd (ha.symm.trans hm) (by decide), fun _ => ?_,
    copied_of_unmasked h.copied ha⟩
  change (P2020.raise js s.events).irq.interruptsEnabled = !(P2020.raise js s.events).masking
  rw [he, EventSystem.masking, hp]
  exact h.enabled ha

theorem Reader.receive (h : Reader s) (henabled : s.enabled = true)
    (hfatal : (s.receive ready).fatal = none) : Reader (s.receive ready) := by
  have ha := h.unmasked (.inl henabled)
  obtain ⟨rxBuf, events, heq, -⟩ := receive_spec h.rxCount_le hfatal
  obtain ⟨_, _, _, hframe⟩ := receive_frame s ready
  have hevents : events = P2020.raise ((Act.receive ready).raises s) s.events :=
    congrArg State.events (heq.symm.trans hframe)
  have hraised := h.raise henabled ((Act.receive ready).raises s)
  rw [heq, hevents]
  exact ⟨Nat.min_le_left _ _, h.pCount_le, hraised.masked, hraised.enabled, copied_of_unmasked h.copied ha⟩

/-- Every step leaves what the reader knows true, as long as the system goes on. -/
theorem Reader.step {cs : List UInt8} {act : Act} (h : Reader s) (hstep : Step cs act s s')
    (hfatal : s'.fatal = none) : Reader s' := by
  cases hstep with
  | a hstep => exact h.stepA hstep hfatal
  | b hstep => exact h.stepB hstep
  | receive ready henabled => exact h.receive henabled hfatal
  | drain => exact ⟨h.rxCount_le, h.pCount_le, h.masked, h.enabled, h.copied⟩
  | thre henabled _ =>
    obtain ⟨hrx, hp, hmasked, hon, hcopied⟩ := h.raise henabled [interruptEventIdTx]
    exact ⟨hrx, hp, hmasked, hon, hcopied⟩
  | process events hquiet hstep =>
    have ha := h.unmasked (.inr hquiet)
    exact ⟨h.rxCount_le, h.pCount_le, fun hm => absurd (ha.symm.trans hm) (by decide),
      fun _ => EventSystem.masking_next hstep (h.enabled ha), copied_of_unmasked h.copied ha⟩

/-! ### The abstract protocol -/

/-- What `fn_a` has copied and is not done with. -/
def State.held (s : State) : List UInt8 :=
  match s.a with
  | .enable => contents s.pBuf s.pCount
  | .loop i | .store i | .incr i | .test i => (contents s.pBuf s.pCount).drop i
  | .send i | .waitTx i | .clear i => (contents s.pBuf s.pCount).drop (i + 1)
  | _ => []

def State.mailbox (s : State) : Mailbox UInt8 where
  buffer := contents s.rxBuf s.rxCount
  held := s.held
  phase := s.a.phase
  wakeRaised := s.events.unhandled interruptEventIdRx
  wake := s.signalsA.rx
  fullRaised := s.events.unhandled interruptEventIdRxOverrun
  full := s.signalsA.rxOverrun

theorem unhandled_of_quiet (h : s.events.Kept) (hquiet : s.quiet = true) (j : InterruptEventId) :
    s.events.unhandled j = false := by
  obtain ⟨hprocess, hword⟩ := quiet_iff.mp hquiet
  exact h.handled hprocess hword j

theorem mailbox_stepA {cs : List UInt8} (h : Reader s) (hkept : s.events.Kept) (hstep : StepA cs s s')
    (hfatal : s'.fatal = none) :
    Mailbox.Step bufCapacity [] cs s.mailbox s'.mailbox ∨ cs = [] ∧ s'.mailbox = s.mailbox := by
  have hcopied := h.copied
  unfold State.Copied at hcopied
  cases hstep with
  | waitRx ha hrx =>
    refine .inl ?_
    have hwake := Mailbox.Step.wake (n := bufCapacity) (m := s.mailbox)
      (by simp [State.mailbox, ha, TaskA.phase]) hrx
    simpa [State.mailbox, State.held, ha, TaskA.phase] using hwake
  | reset ha hquiet =>
    rw [ha] at hcopied
    refine .inl ?_
    have hempty := Mailbox.Step.empty (n := bufCapacity) (m := s.mailbox)
      (by simp [State.mailbox, ha, TaskA.phase]) (unhandled_of_quiet hkept hquiet _)
    simpa [State.mailbox, State.held, TaskA.phase, hcopied.1, hcopied.2] using hempty
  | full i ha _ | more i ha _ =>
    rw [ha] at hcopied
    refine .inl ?_
    have hconsume := Mailbox.Step.consume (n := bufCapacity) (m := s.mailbox) (s.pBuf i)
      ((contents s.pBuf s.pCount).drop (i + 1)) (by simp [State.mailbox, ha, TaskA.phase])
      (by simp [State.mailbox, State.held, ha, drop_contents hcopied])
    simpa [State.mailbox, State.held, ha, TaskA.phase] using hconsume
  | poll ha hoverrun =>
    refine .inl ?_
    have hcheck := Mailbox.Step.check (n := bufCapacity) (m := s.mailbox)
      (by simp [State.mailbox, ha, TaskA.phase]) (by simp [State.mailbox, State.held, ha]) hoverrun
    simpa [State.mailbox, State.held, ha, TaskA.phase] using hcheck
  | through i ha hi =>
    have hheld : (contents s.pBuf s.pCount).drop i = [] := List.drop_eq_nil_of_le (by simpa using hi)
    exact .inr ⟨rfl, by simp [State.mailbox, State.held, ha, TaskA.phase, hheld]⟩
  | oob | overrun => cases hfatal
  | disable ha _ | check ha | copy i ha _ | copied i ha _ | count ha | enable ha | ordinary i ha _ _
  | skip i ha _ _ | store i ha | incr i ha | send i ha | waitTx i ha _ | clear i ha =>
    exact .inr ⟨rfl, by simp [State.mailbox, State.held, ha, TaskA.phase]⟩

theorem mailbox_stepB (hstep : StepB s s') : s'.mailbox = s.mailbox := by
  cases hstep <;> rfl

/-- Each step is one of the abstract protocol, or one that it does not see. -/
theorem mailbox_step {cs : List UInt8} {act : Act} (h : Reader s) (hkept : s.events.Kept)
    (hstep : Step cs act s s') (hfatal : s'.fatal = none) :
    Mailbox.Step bufCapacity act.bytes cs s.mailbox s'.mailbox ∨
      act.bytes = [] ∧ cs = [] ∧ s'.mailbox = s.mailbox := by
  cases hstep with
  | a hstep => exact (mailbox_stepA h hkept hstep hfatal).imp_right fun hstays => ⟨rfl, hstays⟩
  | b hstep => exact .inr ⟨rfl, rfl, mailbox_stepB hstep⟩
  | receive ready _ =>
    obtain ⟨rxBuf, events, heq, hcontents, hrx, hoverrun⟩ := receive_spec h.rxCount_le hfatal
    have hreceive : (s.receive ready).mailbox = s.mailbox.receive bufCapacity (ready.map Prod.fst) := by
      rw [heq]
      simp [State.mailbox, Mailbox.receive, State.held, hcontents, hrx, hoverrun]
    rw [hreceive]
    exact .inl (.receive _)
  | drain | thre => exact .inr ⟨rfl, rfl, rfl⟩
  | process events _ hstep =>
    let o := s.events.process.bind Process.handles
    have hsee : ({ s.interruptEventHandle o with events := events } : State).mailbox =
        s.mailbox.see (o == some interruptEventIdRx.val) (o == some interruptEventIdRxOverrun.val) := by
      simp only [State.mailbox, Mailbox.see, EventSystem.unhandled_next hstep]
      rfl
    rw [hsee]
    exact .inl (.see _ _)

/-- A state the system is in when `fn_a` is done with the bytes `taken` of the bytes `received`, and no
    interrupt event has been lost. -/
structure Buffered (taken received : List UInt8) (s : State) : Prop where
  reader : Reader s
  events : s.events.Sound
  mailbox : s.mailbox.Sound bufCapacity taken received

/-- The interrupt events that a step raises are not lost. -/
def Spared (act : Act) (s : State) : Prop :=
  ∀ j ∈ act.raises s, EventSystem.Spared (.interruptEventRaise j) s.events

instance (act : Act) (s : State) : Decidable (Spared act s) :=
  inferInstanceAs (Decidable (∀ j ∈ act.raises s, EventSystem.Spared (.interruptEventRaise j) s.events))

/-- A call of `interrupt_event_process()` begins with an event pending. -/
def Busy (e : EventSystem interruptEvents) : Prop :=
  match e.process with
  | some .enter | some .clear | some .copy => e.irq.interruptEvent ≠ 0
  | some (.enable tmp) => tmp ≠ 0
  | _ => True

/-- What holds of interrupt events whether or not some are lost. -/
structure Processing (e : EventSystem interruptEvents) : Prop where
  backed : e.Backed
  busy : Busy e

theorem Processing.raise : ∀ {js : List InterruptEventId} {e : EventSystem interruptEvents}, Processing e →
    Processing (P2020.raise js e)
  | [], _, h => h
  | j :: js, e, h => by
    have hbusy : Busy (interruptEventRaise j e) := by
      have hword : e.irq.interruptEvent ≠ 0 → (interruptEventRaise j e).irq.interruptEvent ≠ 0 :=
        fun hne heq => hne (BitVec.or_eq_zero_iff.mp heq).1
      have hbusy := h.busy
      unfold Busy at hbusy ⊢
      change match e.process with
        | some .enter | some .clear | some .copy => (interruptEventRaise j e).irq.interruptEvent ≠ 0
        | some (.enable tmp) => tmp ≠ 0
        | _ => True
      split
      · rename_i hp
        rw [hp] at hbusy
        exact hword hbusy
      · rename_i hp
        rw [hp] at hbusy
        exact hword hbusy
      · rename_i hp
        rw [hp] at hbusy
        exact hword hbusy
      · rename_i hp
        rw [hp] at hbusy
        exact hbusy
      · trivial
    change Processing (P2020.raise js (interruptEventRaise j e))
    exact Processing.raise ⟨h.backed.raise j, hbusy⟩

theorem Processing.next {e e' : EventSystem interruptEvents} (h : Processing e)
    (hword : e.process = none → e.irq.interruptEvent ≠ 0) (hstep : EventSystem.step .next e = some e') :
    Processing e' := by
  refine ⟨h.backed.next hstep, ?_⟩
  have hbusy := h.busy
  unfold Busy at hbusy ⊢
  rcases EventSystem.next_eq hstep with ⟨hp, rfl⟩ | ⟨p, hp, rfl⟩
  · exact hword hp
  · rw [hp] at hbusy
    cases p with
    | enter | clear | copy => exact hbusy
    | loop tmp =>
      simp only [interruptEventProcess]
      split_ifs <;> trivial
    | enable | load | store | handle | mask => trivial

theorem interruptEvent_ne_zero (h : s.quiet = false) (hp : s.events.process = none) :
    s.events.irq.interruptEvent ≠ 0 := by
  intro hword
  rw [quiet_iff.mpr ⟨hp, hword⟩] at h
  cases h

theorem Processing.step {cs : List UInt8} {act : Act} (h : Processing s.events) (hstep : Step cs act s s') :
    Processing s'.events := by
  cases hstep with
  | a hstep => cases hstep <;> first | exact h | exact ⟨h.backed.congr rfl rfl, h.busy⟩
  | b hstep => cases hstep <;> exact h
  | receive ready _ =>
    obtain ⟨_, _, _, heq⟩ := receive_frame s ready
    rw [heq]
    exact h.raise
  | drain => exact h
  | thre =>
    have hraised : Processing (P2020.raise [interruptEventIdTx] s.events) := h.raise
    exact hraised
  | process events hquiet hstep => exact h.next (interruptEvent_ne_zero hquiet) hstep

theorem sound_raise : ∀ {js : List InterruptEventId} {e : EventSystem interruptEvents}, e.Sound →
    e.irq.interruptsEnabled = true → (∀ j ∈ js, EventSystem.Spared (.interruptEventRaise j) e) →
    (raise js e).Sound
  | [], _, h, _, _ => h
  | j :: js, e, h, henabled, hspared => by
    obtain ⟨hj, hjs⟩ := List.forall_mem_cons.mp hspared
    have hstep : EventSystem.step (.interruptEventRaise j) e = some (interruptEventRaise j e) :=
      if_pos henabled
    have hraised : (interruptEventRaise j e).Sound := h.raise hj hstep
    change (raise js (interruptEventRaise j e)).Sound
    exact sound_raise hraised henabled hjs

theorem sound_step {cs : List UInt8} {act : Act} (h : s.events.Sound) (hspared : Spared act s)
    (hstep : Step cs act s s') : s'.events.Sound := by
  cases hstep with
  | a hstep => cases hstep <;> first | exact h | exact h.congr rfl rfl rfl
  | b hstep => cases hstep <;> exact h
  | receive ready henabled =>
    obtain ⟨_, _, _, heq⟩ := receive_frame s ready
    rw [heq]
    exact sound_raise h henabled hspared
  | drain => exact h
  | thre henabled _ =>
    have hraised : (raise [interruptEventIdTx] s.events).Sound := sound_raise h henabled hspared
    exact hraised
  | process events _ hstep => exact h.next hstep

theorem Buffered.step {cs taken received : List UInt8} {act : Act} (h : Buffered taken received s)
    (hspared : Spared act s) (hstep : Step cs act s s') (hfatal : s'.fatal = none) :
    Buffered (taken ++ cs) (received ++ act.bytes) s' where
  reader := h.reader.step hstep hfatal
  events := sound_step h.events hspared hstep
  mailbox := by
    rcases mailbox_step h.reader h.events.kept hstep hfatal with habstract | ⟨hbytes, rfl, heq⟩
    · exact h.mailbox.step habstract
    · rw [hbytes, List.append_nil, List.append_nil, heq]
      exact h.mailbox

end Echronos.P2020
