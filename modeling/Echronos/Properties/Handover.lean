import Echronos.Properties.Buffering

/-! # The messages of the task-sync example

    `fn_a` puts the messages together that are in the bytes it is done with. It gives each of them to
    `fn_b`, and leaves the buffer alone until `fn_b` gives it back. So whatever the order of the steps,
    the answers are transmitted one behind the other, and when everything has come to rest, every
    message that was received has been answered. -/

namespace Echronos.P2020

open Schemes Ppce500

variable {s s' : State} {taken : List UInt8} {m : List UInt8}

/-! ### Putting messages together -/

/-- The message in `msg_buf`. -/
def State.msg (s : State) : List UInt8 := contents s.msgBuf s.msgLen

/-- The message in `msg_buf` is the one of the bytes that `fn_a` is done with. -/
def Assembling (taken : List UInt8) (s : State) : Prop :=
  match s.a with
  | .store i => s.msg = (assemble taken).part ∧ Ordinary (s.pBuf i)
  | .incr i => contents s.msgBuf (s.msgLen + 1) = (assemble taken).part ++ [s.pBuf i] ∧ Ordinary (s.pBuf i)
  | .test i => s.msg = grow (assemble taken).part (s.pBuf i)
  | .send _ | .waitTx _ | .clear _ =>
    (assemble taken).part = [] ∧ ∃ done, (assemble taken).done = done ++ [s.msg]
  | _ => s.msg = (assemble taken).part

theorem message_complete_iff {part : List UInt8} {c : UInt8} (h : s.msg = grow part c) :
    Complete (grow part c) c ↔ s.msgLen = msgSize ∨ (c = carriageReturn ∧ s.msgLen ≠ 0) := by
  have hlength : (grow part c).length = s.msgLen := by rw [← h, State.msg, length_contents]
  rw [Complete, hlength, ← List.length_pos_iff, hlength, Nat.pos_iff_ne_zero]

theorem Assembling.stepA {cs : List UInt8} (h : Assembling taken s) (hstep : StepA cs s s') :
    Assembling (taken ++ cs) s' := by
  unfold Assembling at h
  cases hstep with
  | waitRx ha _ | disable ha _ | oob ha _ | check ha | copy i ha _ | copied i ha _ | count ha | reset ha _
  | enable ha | through i ha _ | overrun ha _ | poll ha _ | send i ha | waitTx i ha _ =>
    rw [List.append_nil]
    rw [ha] at h
    exact h
  | ordinary i ha _ hc =>
    rw [List.append_nil]
    rw [ha] at h
    exact ⟨h, hc⟩
  | skip i ha _ hc =>
    rw [List.append_nil]
    rw [ha] at h
    exact h.trans (if_neg hc).symm
  | store i ha =>
    rw [List.append_nil]
    rw [ha] at h
    exact ⟨by rw [contents_update_succ, ← h.1, State.msg], h.2⟩
  | incr i ha =>
    rw [List.append_nil]
    rw [ha] at h
    exact h.1.trans (if_pos h.2).symm
  | full i ha hfull =>
    rw [ha] at h
    have hfeed := feed_of_complete (m := assemble taken) ((message_complete_iff h).mpr hfull)
    refine ⟨?_, (assemble taken).done, ?_⟩
    · rw [assemble_append_singleton, hfeed]
    · rw [assemble_append_singleton, hfeed, ← h]
      rfl
  | more i ha hmore =>
    rw [ha] at h
    have hfeed := feed_of_not_complete (m := assemble taken) fun hc => hmore ((message_complete_iff h).mp hc)
    change State.msg _ = _
    rw [assemble_append_singleton, hfeed]
    exact h
  | clear i ha =>
    rw [List.append_nil]
    rw [ha] at h
    exact h.1.symm

theorem Assembling.step {cs : List UInt8} {act : Act} (h : Assembling taken s) (hstep : Step cs act s s') :
    Assembling (taken ++ cs) s' := by
  cases hstep with
  | a hstep => exact h.stepA hstep
  | b hstep =>
    rw [List.append_nil]
    cases hstep <;> exact h
  | receive ready _ =>
    obtain ⟨_, _, _, heq⟩ := receive_frame s ready
    rw [heq, List.append_nil]
    exact h
  | drain | thre | process =>
    rw [List.append_nil]
    exact h

/-- Where `fn_a` writes into `msg_buf` there is room. -/
theorem Assembling.msgLen_lt {i : ℕ} (h : Assembling taken s) (ha : s.a = .store i) : s.msgLen < msgSize := by
  unfold Assembling at h
  rw [ha] at h
  have hlength := length_part_lt taken
  rwa [← h.1, State.msg, length_contents] at hlength

/-! ### Giving messages to the other task -/

/-- Whether `fn_b` comes back to `msg_buf` from here. -/
def Next.busy : Next → Bool
  | .loop _ => true
  | _ => false

/-- Whether `fn_b` is at `msg_buf`. -/
def TaskB.busy : TaskB → Bool
  | .waitRx => false
  | .loop _ | .send => true
  | .ready _ k | .waitTx _ k | .put _ k | .overrun k => k.busy

/-- What `fn_b` is yet to transmit, of the message in `msg_buf` if it is there. -/
def Next.rest (m : List UInt8) : Next → List UInt8
  | .loop i => m.reverse.drop i ++ [lineFeed, P2020.carriageReturn]
  | .carriageReturn => [P2020.carriageReturn]
  | .waitRx => []

def TaskB.rest (m : List UInt8) : TaskB → List UInt8
  | .waitRx => []
  | .loop i => m.reverse.drop i ++ [lineFeed, P2020.carriageReturn]
  | .ready c k | .waitTx c k | .put c k => c :: k.rest m
  | .overrun k => k.rest m
  | .send => [lineFeed, P2020.carriageReturn]

/-- What `fn_b` has not taken over. -/
def State.unsent (s : State) : List UInt8 :=
  match s.a with
  | .send _ => reply [s.msg]
  | .waitTx _ => if s.signalsB.rx then reply [s.msg] else []
  | _ => []

/-- Whose turn it is: while `fn_a` waits, the message is on its way to `fn_b`, or there, or on its way
    back. -/
def State.Turn (s : State) : Prop :=
  match s.a with
  | .waitTx _ =>
    (s.signalsB.rx = true ∧ s.b.busy = false ∧ s.signalsA.tx = false) ∨
    (s.signalsB.rx = false ∧ s.b.busy = true ∧ s.signalsA.tx = false) ∨
    (s.signalsB.rx = false ∧ s.b.busy = false ∧ s.signalsA.tx = true)
  | _ => s.signalsB.rx = false ∧ s.b.busy = false ∧ s.signalsA.tx = false

/-- The transmitter is ready where `fn_b` has seen that it is. -/
def State.Seen (s : State) : Prop :=
  match s.b with
  | .put _ _ => s.txReady = true
  | .overrun _ => False
  | _ => True

structure Handover (taken : List UInt8) (s : State) : Prop where
  turn : s.Turn
  sent : s.transmitted ++ s.b.rest s.msg ++ s.unsent = reply (messages taken)
  seen : s.Seen
  woken : ∀ c k, s.b = .waitTx c k → s.txReady = true →
    s.thre = true ∨ s.events.unhandled interruptEventIdTx = true ∨ s.signalsB.tx = true

theorem pc_busy (k : Next) : k.pc.busy = k.busy := by cases k <;> rfl

theorem pc_rest (k : Next) (m : List UInt8) : k.pc.rest m = k.rest m := by cases k <;> rfl

theorem Next.rest_of_not_busy {k : Next} (m m' : List UInt8) (h : k.busy = false) :
    k.rest m = k.rest m' := by
  cases k with
  | loop i => cases h
  | carriageReturn | waitRx => rfl

theorem rest_of_not_busy {b : TaskB} (m m' : List UInt8) (h : b.busy = false) : b.rest m = b.rest m' := by
  cases b with
  | waitRx => rfl
  | loop i => cases h
  | send => cases h
  | ready c k | waitTx c k | put c k => exact congrArg (c :: ·) (Next.rest_of_not_busy m m' h)
  | overrun k => exact Next.rest_of_not_busy m m' h

theorem reply_singleton (m : List UInt8) : reply [m] = m.reverse ++ [lineFeed, carriageReturn] := by
  rw [reply, List.flatMap_singleton]

theorem Handover.stepA {cs : List UInt8} (h : Handover taken s) (hassembling : Assembling taken s)
    (hstep : StepA cs s s') : Handover (taken ++ cs) s' := by
  obtain ⟨hturn, hsent, hseen, hwoken⟩ := h
  unfold State.Turn at hturn
  unfold State.unsent at hsent
  unfold Assembling at hassembling
  cases hstep with
  | waitRx ha _ | disable ha _ | oob ha _ | check ha | copy i ha _ | copied i ha _ | count ha | reset ha _
  | enable ha | ordinary i ha _ _ | skip i ha _ _ | through i ha _ | overrun ha _ | poll ha _ =>
    rw [ha] at hturn hsent
    rw [List.append_nil]
    exact ⟨hturn, hsent, hseen, hwoken⟩
  | store i ha | incr i ha | clear i ha =>
    rw [ha] at hturn hsent
    rw [List.append_nil]
    rw [rest_of_not_busy _ _ hturn.2.1] at hsent
    exact ⟨hturn, hsent, hseen, hwoken⟩
  | full i ha hfull =>
    rw [ha] at hturn hsent hassembling
    refine ⟨hturn, ?_, hseen, hwoken⟩
    have hfeed := feed_of_complete (m := assemble taken) ((message_complete_iff hassembling).mpr hfull)
    rw [messages, assemble_append_singleton, hfeed, ← hassembling, reply_append_singleton, ← reply_singleton]
    change s.transmitted ++ s.b.rest s.msg ++ reply [s.msg] = reply (messages taken) ++ reply [s.msg]
    rw [← hsent, List.append_nil]
  | more i ha hmore =>
    rw [ha] at hturn hsent hassembling
    have hfeed := feed_of_not_complete (m := assemble taken) fun hc =>
      hmore ((message_complete_iff hassembling).mp hc)
    refine ⟨hturn, ?_, hseen, hwoken⟩
    rw [messages, assemble_append_singleton, hfeed]
    exact hsent
  | send i ha =>
    rw [ha] at hturn hsent
    rw [List.append_nil]
    exact ⟨.inl ⟨rfl, hturn.2⟩, hsent, hseen, hwoken⟩
  | waitTx i ha htx =>
    rw [ha] at hturn hsent
    rw [List.append_nil]
    have hback : s.signalsB.rx = false ∧ s.b.busy = false ∧ s.signalsA.tx = true := by simpa [htx] using hturn
    simp only [hback.1, Bool.false_eq_true, if_false] at hsent
    exact ⟨⟨hback.1, hback.2.1, rfl⟩, hsent, hseen, hwoken⟩

theorem State.Turn.congr (h : s.Turn) (ha : s'.a = s.a) (hrx : s'.signalsB.rx = s.signalsB.rx)
    (hb : s'.b.busy = s.b.busy) (htx : s'.signalsA.tx = s.signalsA.tx) : s'.Turn := by
  unfold State.Turn at h ⊢
  rw [ha, hrx, hb, htx]
  exact h

/-- While `fn_b` is at `msg_buf`, `fn_a` waits for it. -/
theorem State.Turn.of_busy (h : s.Turn) (hb : s.b.busy = true) :
    (∃ i, s.a = .waitTx i) ∧ s.signalsB.rx = false ∧ s.signalsA.tx = false := by
  unfold State.Turn at h
  cases ha : s.a <;> simp_all

theorem State.Turn.of_rx (h : s.Turn) (hrx : s.signalsB.rx = true) :
    (∃ i, s.a = .waitTx i) ∧ s.b.busy = false ∧ s.signalsA.tx = false := by
  unfold State.Turn at h
  cases ha : s.a <;> simp_all

theorem Handover.stepB (h : Handover taken s) (hstep : StepB s s') : Handover taken s' := by
  obtain ⟨hturn, hsent, hseen, hwoken⟩ := h
  unfold State.Seen at hseen
  cases hstep with
  | waitRx hb hrx =>
    obtain ⟨⟨i, ha⟩, -, htx⟩ := hturn.of_rx hrx
    refine ⟨?_, ?_, trivial, by simp⟩
    · unfold State.Turn
      rw [ha]
      exact .inr (.inl ⟨rfl, rfl, htx⟩)
    · rw [hb, State.unsent, ha, hrx, if_pos rfl, reply_singleton, TaskB.rest, List.append_nil] at hsent
      rw [State.unsent, ha, if_neg (by simp), List.append_nil]
      exact hsent
  | loop i hb hi =>
    refine ⟨hturn.congr rfl rfl (by rw [hb]; rfl) rfl, ?_, trivial, by simp⟩
    rw [hb, TaskB.rest, State.msg, drop_reverse_contents hi] at hsent
    exact hsent
  | through i hb hi =>
    refine ⟨hturn.congr rfl rfl (by rw [hb]; rfl) rfl, ?_, trivial, by simp⟩
    have hdrop : s.msg.reverse.drop i = [] := List.drop_eq_nil_of_le (by simpa [State.msg] using hi)
    rw [hb, TaskB.rest, hdrop] at hsent
    exact hsent
  | ready c k hb hready =>
    refine ⟨hturn.congr rfl rfl (by rw [hb]; rfl) rfl, ?_, hready, by simp⟩
    rw [hb] at hsent
    exact hsent
  | notReady c k hb hready =>
    refine ⟨hturn.congr rfl rfl (by rw [hb]; rfl) rfl, ?_, trivial, by simp [hready]⟩
    rw [hb] at hsent
    exact hsent
  | waitTx c k hb htx =>
    refine ⟨hturn.congr rfl rfl (by rw [hb]; rfl) rfl, ?_, trivial, by simp⟩
    rw [hb] at hsent
    exact hsent
  | put c k hb hready =>
    refine ⟨hturn.congr rfl rfl (by rw [hb]; exact pc_busy k) rfl, ?_, ?_, by simp⟩
    · rw [hb, TaskB.rest, List.append_cons] at hsent
      dsimp only
      rw [pc_rest]
      exact hsent
    · unfold State.Seen
      cases k <;> trivial
  | notReadyPut c k hb hready =>
    rw [hb] at hseen
    exact absurd hseen (by simp [hready])
  | overrun k hb _ =>
    rw [hb] at hseen
    exact hseen.elim
  | send hb =>
    obtain ⟨⟨i, ha⟩, hrx, -⟩ := hturn.of_busy (by rw [hb]; rfl)
    refine ⟨?_, ?_, trivial, by simp⟩
    · unfold State.Turn
      rw [ha]
      exact .inr (.inr ⟨hrx, rfl, rfl⟩)
    · rw [hb] at hsent
      exact hsent

/-- What has been raised is not forgotten when more is raised. -/
theorem unhandled_raise : ∀ (js : List InterruptEventId) {e : EventSystem interruptEvents}
    {j : InterruptEventId}, e.unhandled j = true → (raise js e).unhandled j = true
  | [], _, _, h => h
  | i :: js, e, j, h => by
    refine unhandled_raise js ?_
    by_cases hij : j = i
    · rw [hij]
      exact Function.update_self _ _ _
    · exact (Function.update_of_ne hij _ _).trans h

theorem Handover.step {cs : List UInt8} {act : Act} (h : Handover taken s) (hassembling : Assembling taken s)
    (hstep : Step cs act s s') : Handover (taken ++ cs) s' := by
  obtain ⟨hturn, hsent, hseen, hwoken⟩ := h
  cases hstep with
  | a hstep => exact Handover.stepA ⟨hturn, hsent, hseen, hwoken⟩ hassembling hstep
  | b hstep =>
    rw [List.append_nil]
    exact Handover.stepB ⟨hturn, hsent, hseen, hwoken⟩ hstep
  | receive ready _ =>
    obtain ⟨_, _, _, heq⟩ := receive_frame s ready
    rw [heq, List.append_nil]
    exact ⟨hturn, hsent, hseen, fun c k hb hready => (hwoken c k hb hready).imp_right
      (Or.imp_left (unhandled_raise _))⟩
  | drain =>
    rw [List.append_nil]
    refine ⟨hturn, hsent, ?_, fun _ _ _ _ => .inl rfl⟩
    unfold State.Seen at hseen ⊢
    cases hb : s.b <;> simp_all
  | thre =>
    rw [List.append_nil]
    exact ⟨hturn, hsent, hseen, fun _ _ _ _ => .inr (.inl rfl)⟩
  | process events _ hstep =>
    rw [List.append_nil]
    refine ⟨hturn, hsent, hseen, fun c k hb hready => (hwoken c k hb hready).imp_right fun hraised => ?_⟩
    dsimp only
    rw [EventSystem.unhandled_next hstep]
    exact Mailbox.raised_or_seen _ _ _ hraised

/-! ### Runs -/

/-- What holds while the system goes on, `fn_a` being done with the bytes `taken`. -/
structure Live (taken : List UInt8) (s : State) : Prop where
  reader : Reader s
  assembling : Assembling taken s
  handover : Handover taken s
  processing : Processing s.events

theorem live_init (rxBuf msgBuf pBuf : ℕ → UInt8) (thre : Bool) : Live [] (.init rxBuf msgBuf pBuf thre) where
  reader := ⟨Nat.zero_le _, Nat.zero_le _, nofun, fun _ => rfl, trivial⟩
  assembling := rfl
  handover := ⟨⟨rfl, rfl, rfl⟩, rfl, trivial, nofun⟩
  processing := ⟨.start, trivial⟩

theorem Live.step {cs : List UInt8} {act : Act} (h : Live taken s) (hstep : Step cs act s s')
    (hfatal : s'.fatal = none) : Live (taken ++ cs) s' :=
  ⟨h.reader.step hstep hfatal, h.assembling.step hstep, h.handover.step h.assembling hstep,
    h.processing.step hstep⟩

/-- The system has stopped, or goes on as it should. -/
def Lives (s : State) : Prop := s.fatal = none → ∃ taken, Live taken s

theorem Lives.step {act : Act} (h : Lives s) (hstep : step act s = some s') : Lives s' := by
  intro hfatal
  obtain ⟨hnone, cs, hstep⟩ := step_cases hstep
  obtain ⟨taken, hlive⟩ := h hnone
  exact ⟨taken ++ cs, hlive.step hstep hfatal⟩

/-- It does so whether or not interrupt events are lost. -/
theorem lives_of_run {rxBuf msgBuf pBuf : ℕ → UInt8} {thre : Bool} {acts : List Act}
    (h : run step (fun _ _ => true) acts (.init rxBuf msgBuf pBuf thre) = some s) : Lives s := by
  have hreach : Reach step (fun _ _ => True) (.init rxBuf msgBuf pBuf thre) s :=
    Reach.of_run .start (fun _ _ _ _ => trivial) h
  exact hreach.invariant (fun _ => ⟨[], live_init rxBuf msgBuf pBuf thre⟩)
    fun _ _ _ _ hs _ hstep => hs.step hstep

/-- What holds besides, in every state of a run that has received `received` and lost no event. -/
structure Sound (received : List UInt8) (s : State) : Prop where
  transmitted : s.transmitted <+: reply (messages received)
  inv : s.fatal = none → ∃ taken, Live taken s ∧ Buffered taken received s

theorem sound_init (rxBuf msgBuf pBuf : ℕ → UInt8) (thre : Bool) :
    Sound [] (.init rxBuf msgBuf pBuf thre) where
  transmitted := List.nil_prefix
  inv _ := by
    have hlive := live_init rxBuf msgBuf pBuf thre
    refine ⟨[], hlive, hlive.reader, .start, Nat.zero_le _, fun _ => rfl, ?_, fun hne => absurd rfl hne⟩
    exact .inl ⟨List.nil_prefix, .inl rfl⟩

theorem transmitted_prefix_of_inv {received : List UInt8} (hbuffered : Buffered taken received s)
    (hhandover : Handover taken s) : s.transmitted <+: reply (messages received) := by
  have hsent : s.transmitted <+: reply (messages taken) := by
    rw [← hhandover.sent, List.append_assoc]
    exact List.prefix_append _ _
  exact hsent.trans (reply_mono (messages_mono hbuffered.mailbox.consumed_isPrefix))

/-- A step that stops the system transmits nothing. -/
theorem transmitted_of_fatal {cs : List UInt8} {act : Act} (hstep : Step cs act s s')
    (hs : s.fatal = none) (hfatal : s'.fatal ≠ none) : s'.transmitted = s.transmitted := by
  cases hstep with
  | a hstep => cases hstep <;> rfl
  | b hstep => cases hstep <;> exact absurd hs hfatal
  | receive ready _ =>
    obtain ⟨_, _, _, heq⟩ := receive_frame s ready
    rw [heq]
  | drain | thre | process => rfl

theorem Sound.step {received : List UInt8} {act : Act} (h : Sound received s) (hspared : Spared act s)
    (hstep : step act s = some s') : Sound (received ++ act.bytes) s' := by
  obtain ⟨hs, cs, hstep⟩ := step_cases hstep
  by_cases hfatal : s'.fatal = none
  · obtain ⟨taken, hlive, hbuffered⟩ := h.inv hs
    have hlive' := hlive.step hstep hfatal
    have hbuffered' := hbuffered.step hspared hstep hfatal
    exact ⟨transmitted_prefix_of_inv hbuffered' hlive'.handover, fun _ => ⟨_, hlive', hbuffered'⟩⟩
  · refine ⟨?_, fun hnone => absurd hnone hfatal⟩
    rw [transmitted_of_fatal hstep hs hfatal]
    exact h.transmitted.trans (reply_mono (messages_mono (List.prefix_append _ _)))

theorem sound_of_run {rxBuf msgBuf pBuf : ℕ → UInt8} {thre : Bool} {acts : List Act}
    (h : run step (fun act s => decide (Spared act s)) acts (.init rxBuf msgBuf pBuf thre) = some s) :
    Sound (line acts) s :=
  run_invariant (I := Sound) (fun _ _ _ _ hs hcheck hstep => hs.step (of_decide_eq_true hcheck) hstep)
    (sound_init rxBuf msgBuf pBuf thre) h

end Echronos.P2020
