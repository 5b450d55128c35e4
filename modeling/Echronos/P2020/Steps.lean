import Echronos.P2020.TaskSync

/-! # The steps of the task-sync example

    What each step does, with its guard. A step of `fn_a` is labelled with the bytes that it is done
    with. -/

namespace Echronos.P2020

open Schemes Ppce500

variable {s s' : State}

/-- The steps of `fn_a`. -/
inductive StepA : List UInt8 → State → State → Prop
  | waitRx {s : State} (ha : s.a = .waitRx) (hrx : s.signalsA.rx = true) :
    StepA [] s { s with signalsA := { s.signalsA with rx := false }, a := .disable }
  | disable {s : State} (ha : s.a = .disable) (hquiet : s.quiet = true) :
    StepA [] s { s with events := { s.events with irq := s.events.irq.interruptsDisable }, a := .check }
  | oob {s : State} (ha : s.a = .check) (hcount : bufCapacity < s.rxCount) :
    StepA [] s { s with a := .check, fatal := some errorIdBufferCountOob }
  | check {s : State} (ha : s.a = .check) : StepA [] s { s with a := .copy 0 }
  | copy {s : State} (i : ℕ) (ha : s.a = .copy i) (hi : i < s.rxCount) :
    StepA [] s { s with pBuf := Function.update s.pBuf i (s.rxBuf i), a := .copy (i + 1) }
  | copied {s : State} (i : ℕ) (ha : s.a = .copy i) (hi : s.rxCount ≤ i) : StepA [] s { s with a := .count }
  | count {s : State} (ha : s.a = .count) : StepA [] s { s with pCount := s.rxCount, a := .reset }
  | reset {s : State} (ha : s.a = .reset) (hquiet : s.quiet = true) :
    StepA [] s { s with rxCount := 0, a := .enable }
  | enable {s : State} (ha : s.a = .enable) :
    StepA [] s { s with events := { s.events with irq := s.events.irq.interruptsEnable }, a := .loop 0 }
  | ordinary {s : State} (i : ℕ) (ha : s.a = .loop i) (hi : i < s.pCount) (hc : Ordinary (s.pBuf i)) :
    StepA [] s { s with a := .store i }
  | skip {s : State} (i : ℕ) (ha : s.a = .loop i) (hi : i < s.pCount) (hc : ¬ Ordinary (s.pBuf i)) :
    StepA [] s { s with a := .test i }
  | through {s : State} (i : ℕ) (ha : s.a = .loop i) (hi : s.pCount ≤ i) : StepA [] s { s with a := .poll }
  | store {s : State} (i : ℕ) (ha : s.a = .store i) :
    StepA [] s { s with msgBuf := Function.update s.msgBuf s.msgLen (s.pBuf i), a := .incr i }
  | incr {s : State} (i : ℕ) (ha : s.a = .incr i) :
    StepA [] s { s with msgLen := s.msgLen + 1, a := .test i }
  | full {s : State} (i : ℕ) (ha : s.a = .test i)
      (h : s.msgLen = msgSize ∨ (s.pBuf i = carriageReturn ∧ s.msgLen ≠ 0)) :
    StepA [s.pBuf i] s { s with a := .send i }
  | more {s : State} (i : ℕ) (ha : s.a = .test i)
      (h : ¬ (s.msgLen = msgSize ∨ (s.pBuf i = carriageReturn ∧ s.msgLen ≠ 0))) :
    StepA [s.pBuf i] s { s with a := .loop (i + 1) }
  | send {s : State} (i : ℕ) (ha : s.a = .send i) :
    StepA [] s { s with signalsB := { s.signalsB with rx := true }, a := .waitTx i }
  | waitTx {s : State} (i : ℕ) (ha : s.a = .waitTx i) (htx : s.signalsA.tx = true) :
    StepA [] s { s with signalsA := { s.signalsA with tx := false }, a := .clear i }
  | clear {s : State} (i : ℕ) (ha : s.a = .clear i) : StepA [] s { s with msgLen := 0, a := .loop (i + 1) }
  | overrun {s : State} (ha : s.a = .poll) (h : s.signalsA.rxOverrun = true) :
    StepA [] s { s with
      a := .poll, signalsA := { s.signalsA with rxOverrun := false }, fatal := some errorIdRxBufOverrun }
  | poll {s : State} (ha : s.a = .poll) (h : s.signalsA.rxOverrun = false) :
    StepA [] s { s with a := .waitRx }

/-- The steps of `fn_b`. -/
inductive StepB : State → State → Prop
  | waitRx {s : State} (hb : s.b = .waitRx) (hrx : s.signalsB.rx = true) :
    StepB s { s with signalsB := { s.signalsB with rx := false }, b := .loop 0 }
  | loop {s : State} (i : ℕ) (hb : s.b = .loop i) (hi : i < s.msgLen) :
    StepB s { s with b := .ready (s.msgBuf (s.msgLen - 1 - i)) (.loop (i + 1)) }
  | through {s : State} (i : ℕ) (hb : s.b = .loop i) (hi : s.msgLen ≤ i) : StepB s { s with b := .send }
  | ready {s : State} (c : UInt8) (k : Next) (hb : s.b = .ready c k) (h : s.txReady = true) :
    StepB s { s with b := .put c k }
  | notReady {s : State} (c : UInt8) (k : Next) (hb : s.b = .ready c k) (h : s.txReady = false) :
    StepB s { s with b := .waitTx c k }
  | waitTx {s : State} (c : UInt8) (k : Next) (hb : s.b = .waitTx c k) (htx : s.signalsB.tx = true) :
    StepB s { s with signalsB := { s.signalsB with tx := false }, b := .ready c k }
  | put {s : State} (c : UInt8) (k : Next) (hb : s.b = .put c k) (h : s.txReady = true) :
    StepB s { s with transmitted := s.transmitted ++ [c], txReady := false, b := k.pc }
  | notReadyPut {s : State} (c : UInt8) (k : Next) (hb : s.b = .put c k) (h : s.txReady = false) :
    StepB s { s with b := .overrun k }
  | overrun {s : State} (k : Next) (hb : s.b = .overrun k) (h : s.txReady = true) :
    StepB s { s with
      transmitted := s.transmitted ++ [txPutOverrunChar], txReady := false, b := k.pc }
  | send {s : State} (hb : s.b = .send) :
    StepB s { s with
      signalsA := { s.signalsA with tx := true }, b := .ready lineFeed .carriageReturn }

theorem runA_cases (hrun : s.mayRun s.a.isApi = true) (h : s.runA = some s') :
    ∃ cs, StepA cs s s' := by
  have hquiet : s.a.isApi = false → s.quiet = true := fun hapi => by
    rwa [hapi, State.mayRun, Bool.false_or] at hrun
  rw [State.runA] at h
  cases ha : s.a with
  | waitRx =>
    simp only [ha, Option.ite_none_right_eq_some, Option.some.injEq] at h
    obtain ⟨hrx, rfl⟩ := h
    exact ⟨_, .waitRx ha hrx⟩
  | disable =>
    simp only [ha] at h
    cases h
    exact ⟨_, .disable ha (hquiet (by rw [ha]; rfl))⟩
  | check =>
    simp only [ha] at h
    split_ifs at h with hcount
    · cases h
      exact ⟨_, .oob ha hcount⟩
    · cases h
      exact ⟨_, .check ha⟩
  | copy i =>
    simp only [ha] at h
    split_ifs at h with hi
    · cases h
      exact ⟨_, .copy i ha hi⟩
    · cases h
      exact ⟨_, .copied i ha (Nat.le_of_not_lt hi)⟩
  | count =>
    simp only [ha] at h
    cases h
    exact ⟨_, .count ha⟩
  | reset =>
    simp only [ha] at h
    cases h
    exact ⟨_, .reset ha (hquiet (by rw [ha]; rfl))⟩
  | enable =>
    simp only [ha] at h
    cases h
    exact ⟨_, .enable ha⟩
  | loop i =>
    simp only [ha] at h
    split_ifs at h with hi hc
    · cases h
      exact ⟨_, .ordinary i ha hi hc⟩
    · cases h
      exact ⟨_, .skip i ha hi hc⟩
    · cases h
      exact ⟨_, .through i ha (Nat.le_of_not_lt hi)⟩
  | store i =>
    simp only [ha] at h
    cases h
    exact ⟨_, .store i ha⟩
  | incr i =>
    simp only [ha] at h
    cases h
    exact ⟨_, .incr i ha⟩
  | test i =>
    simp only [ha] at h
    split_ifs at h with hfull
    · cases h
      exact ⟨_, .full i ha hfull⟩
    · cases h
      exact ⟨_, .more i ha hfull⟩
  | send i =>
    simp only [ha] at h
    cases h
    exact ⟨_, .send i ha⟩
  | waitTx i =>
    simp only [ha, Option.ite_none_right_eq_some, Option.some.injEq] at h
    obtain ⟨htx, rfl⟩ := h
    exact ⟨_, .waitTx i ha htx⟩
  | clear i =>
    simp only [ha] at h
    cases h
    exact ⟨_, .clear i ha⟩
  | poll =>
    simp only [ha] at h
    split_ifs at h with hoverrun
    · cases h
      exact ⟨_, .overrun ha hoverrun⟩
    · cases h
      exact ⟨_, .poll ha (Bool.of_not_eq_true hoverrun)⟩

theorem runB_cases (h : s.runB = some s') : StepB s s' := by
  rw [State.runB] at h
  cases hb : s.b with
  | waitRx =>
    simp only [hb, Option.ite_none_right_eq_some, Option.some.injEq] at h
    obtain ⟨hrx, rfl⟩ := h
    exact .waitRx hb hrx
  | loop i =>
    simp only [hb] at h
    split_ifs at h with hi
    · cases h
      exact .loop i hb hi
    · cases h
      exact .through i hb (Nat.le_of_not_lt hi)
  | ready c k =>
    simp only [hb] at h
    split_ifs at h with hready
    · cases h
      exact .ready c k hb hready
    · cases h
      exact .notReady c k hb (Bool.of_not_eq_true hready)
  | waitTx c k =>
    simp only [hb, Option.ite_none_right_eq_some, Option.some.injEq] at h
    obtain ⟨htx, rfl⟩ := h
    exact .waitTx c k hb htx
  | put c k =>
    simp only [hb] at h
    split_ifs at h with hready
    · cases h
      exact .put c k hb hready
    · cases h
      exact .notReadyPut c k hb (Bool.of_not_eq_true hready)
  | overrun k =>
    simp only [hb, Option.ite_none_right_eq_some, Option.some.injEq] at h
    obtain ⟨hready, rfl⟩ := h
    exact .overrun k hb hready
  | send =>
    simp only [hb] at h
    cases h
    exact .send hb

/-- A step, labelled with the bytes that `fn_a` is done with in it. -/
inductive Step : List UInt8 → Act → State → State → Prop
  | a {s s' : State} {cs : List UInt8} (h : StepA cs s s') : Step cs .a s s'
  | b {s s' : State} (h : StepB s s') : Step [] .b s s'
  | receive {s : State} (ready : List (UInt8 × Bool)) (h : s.enabled = true) :
    Step [] (.receive ready) s (s.receive ready)
  | drain {s : State} (h : s.txReady = false) : Step [] .drain s { s with txReady := true, thre := true }
  | thre {s : State} (h : s.enabled = true) (hthre : s.thre = true) :
    Step [] .thre s { s with thre := false, events := interruptEventRaise interruptEventIdTx s.events }
  | process {s : State} (events : EventSystem interruptEvents) (hquiet : s.quiet = false)
      (h : EventSystem.step .next s.events = some events) : Step [] .process s
        { s.interruptEventHandle (s.events.process.bind Process.handles) with events := events }

theorem step_cases {act : Act} (h : step act s = some s') :
    s.fatal = none ∧ ∃ cs, Step cs act s s' := by
  unfold step at h
  obtain ⟨hfatal, h⟩ := Option.ite_none_left_eq_some.mp h
  refine ⟨not_not.mp hfatal, ?_⟩
  cases act with
  | a =>
    obtain ⟨hrun, h⟩ := Option.ite_none_right_eq_some.mp h
    obtain ⟨cs, hstep⟩ := runA_cases hrun h
    exact ⟨cs, .a hstep⟩
  | b => exact ⟨[], .b (runB_cases (Option.ite_none_right_eq_some.mp h).2)⟩
  | receive ready =>
    obtain ⟨henabled, hs'⟩ := Option.ite_none_right_eq_some.mp h
    cases hs'
    exact ⟨[], .receive ready henabled⟩
  | drain =>
    obtain ⟨hready, hs'⟩ := Option.ite_none_left_eq_some.mp h
    cases hs'
    exact ⟨[], .drain (Bool.of_not_eq_true hready)⟩
  | thre =>
    obtain ⟨hthre, hs'⟩ := Option.ite_none_right_eq_some.mp h
    cases hs'
    exact ⟨[], .thre hthre.1 hthre.2⟩
  | process =>
    obtain ⟨hquiet, h⟩ := Option.ite_none_left_eq_some.mp h
    obtain ⟨events, hevents, rfl⟩ := Option.map_eq_some_iff.mp h
    exact ⟨[], .process events (Bool.of_not_eq_true hquiet) hevents⟩

end Echronos.P2020
