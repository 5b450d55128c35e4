import Mathlib.Data.List.Infix
import Mathlib.Logic.Basic

/-! # A buffer between an interrupt handler and a reader

    The handler puts what arrives into a buffer of bounded size, wakes the reader, and reports that the
    buffer is full. The reader waits, takes everything out of the buffer at once, consumes it one by
    one, and goes back to waiting only when no full buffer has been reported. Reports are raised first
    and seen some time later, but none is left unseen when the reader takes out the buffer.

    What arrives at a full buffer is lost. The reader still consumes nothing behind it. -/

namespace Schemes

variable {α : Type*}

namespace Mailbox

inductive Phase
  | waiting
  | emptying
  | consuming
  deriving DecidableEq

end Mailbox

structure Mailbox (α : Type*) where
  buffer : List α
  /-- What the reader has taken out and not yet consumed. -/
  held : List α
  phase : Mailbox.Phase
  wakeRaised : Bool
  wake : Bool
  fullRaised : Bool
  full : Bool

namespace Mailbox

/-- The handler, for a buffer of size `n`. -/
def receive (n : ℕ) (arrived : List α) (m : Mailbox α) : Mailbox α :=
  { m with
    buffer := m.buffer ++ arrived.take (n - m.buffer.length)
    wakeRaised := true
    fullRaised := m.fullRaised || decide (n ≤ m.buffer.length + arrived.length) }

/-- A report is seen, or both are. -/
def see (wake full : Bool) (m : Mailbox α) : Mailbox α :=
  { m with
    wakeRaised := m.wakeRaised && !wake
    wake := m.wake || wake
    fullRaised := m.fullRaised && !full
    full := m.full || full }

/-- The steps, labelled with what arrives and what is consumed. -/
inductive Step (n : ℕ) : List α → List α → Mailbox α → Mailbox α → Prop
  | receive {m : Mailbox α} (arrived : List α) : Step n arrived [] m (m.receive n arrived)
  | see {m : Mailbox α} (wake full : Bool) : Step n [] [] m (m.see wake full)
  | wake {m : Mailbox α} (hphase : m.phase = .waiting) (hwake : m.wake = true) :
    Step n [] [] m { m with wake := false, phase := .emptying }
  | empty {m : Mailbox α} (hphase : m.phase = .emptying) (hraised : m.fullRaised = false) :
    Step n [] [] m { m with held := m.buffer, buffer := [], phase := .consuming }
  | consume {m : Mailbox α} (c : α) (rest : List α) (hphase : m.phase = .consuming)
      (hheld : m.held = c :: rest) : Step n [] [c] m { m with held := rest }
  | check {m : Mailbox α} (hphase : m.phase = .consuming) (hheld : m.held = [])
      (hfull : m.full = false) : Step n [] [] m { m with phase := .waiting }

/-- What is consumed, held and buffered is what arrived, but for what is behind the first full buffer. -/
structure Sound (n : ℕ) (consumed arrived : List α) (m : Mailbox α) : Prop where
  length_le : m.buffer.length ≤ n
  held_eq : m.phase ≠ .consuming → m.held = []
  flow : (consumed ++ m.held ++ m.buffer <+: arrived ∧ (consumed ++ m.held ++ m.buffer = arrived ∨
      m.buffer.length = n ∧ (m.fullRaised = true ∨ m.full = true))) ∨
    (m.phase = .consuming ∧ m.full = true ∧ consumed ++ m.held <+: arrived)
  awake : m.buffer ≠ [] → m.wakeRaised = true ∨ m.wake = true ∨ m.phase = .emptying

variable {n : ℕ} {consumed arrived new old : List α} {m m' : Mailbox α}

theorem Sound.receive (h : Sound n consumed arrived m) :
    Sound n consumed (arrived ++ new) (m.receive n new) where
  length_le := by
    have hle := h.length_le
    have htake := List.length_take_le (n - m.buffer.length) new
    rw [Mailbox.receive, List.length_append]
    omega
  held_eq := h.held_eq
  flow := by
    rcases h.flow with ⟨hwithin, hflow⟩ | ⟨hphase, hfull, hwithin⟩
    · refine .inl ?_
      rcases hflow with heq | ⟨hlength, hfull⟩
      · have hnew : consumed ++ m.held ++ (m.receive n new).buffer =
            arrived ++ new.take (n - m.buffer.length) := by
          rw [← heq, Mailbox.receive, List.append_assoc _ m.buffer]
        change consumed ++ m.held ++ (m.receive n new).buffer <+: _ ∧
          (consumed ++ m.held ++ (m.receive n new).buffer = _ ∨ _)
        rw [hnew]
        refine ⟨(List.prefix_append_right_inj _).mpr (List.take_prefix _ _), ?_⟩
        by_cases hfits : new.length ≤ n - m.buffer.length
        · exact .inl (by rw [List.take_of_length_le hfits])
        · have hle := h.length_le
          refine .inr ⟨?_, .inl ?_⟩
          · rw [Mailbox.receive, List.length_append, List.length_take]
            omega
          · rw [Mailbox.receive, Bool.or_eq_true, decide_eq_true_eq]
            exact .inr (by omega)
      · have hbuffer : (m.receive n new).buffer = m.buffer := by
          rw [Mailbox.receive, hlength, Nat.sub_self, List.take_zero, List.append_nil]
        refine ⟨hbuffer ▸ hwithin.trans (List.prefix_append _ _), .inr ⟨hbuffer ▸ hlength, ?_⟩⟩
        exact hfull.imp (fun hraised => by rw [Mailbox.receive, hraised, Bool.true_or]) id
    · exact .inr ⟨hphase, hfull, hwithin.trans (List.prefix_append _ _)⟩
  awake _ := .inl rfl

/-- A report is still raised, or it has been seen. -/
theorem raised_or_seen (raised seen flag : Bool) (h : raised = true ∨ seen = true) :
    (raised && !flag) = true ∨ (seen || flag) = true := by
  cases flag with
  | true => exact .inr (Bool.or_true _)
  | false => exact h.imp (fun h => by rw [h]; rfl) (fun h => by rw [h]; rfl)

theorem Sound.see (h : Sound n consumed arrived m) (wake full : Bool) :
    Sound n consumed arrived (m.see wake full) where
  length_le := h.length_le
  held_eq := h.held_eq
  flow := by
    rcases h.flow with ⟨hwithin, hflow⟩ | ⟨hphase, hfull, hwithin⟩
    · exact .inl ⟨hwithin, hflow.imp_right fun hfull => ⟨hfull.1, raised_or_seen _ _ _ hfull.2⟩⟩
    · exact .inr ⟨hphase, by rw [Mailbox.see, hfull, Bool.true_or], hwithin⟩
  awake hbuffer := by
    rw [← or_assoc]
    exact (or_assoc.mpr (h.awake hbuffer)).imp_left (raised_or_seen _ _ _)

/-- Every step keeps it. -/
theorem Sound.step (h : Sound n consumed arrived m) (hstep : Step n new old m m') :
    Sound n (consumed ++ old) (arrived ++ new) m' := by
  cases hstep with
  | receive arrived' =>
    rw [List.append_nil]
    exact h.receive
  | see wake full =>
    rw [List.append_nil, List.append_nil]
    exact h.see wake full
  | wake hphase hwake =>
    rw [List.append_nil, List.append_nil]
    refine ⟨h.length_le, fun _ => h.held_eq (by simp [hphase]), ?_, fun _ => .inr (.inr rfl)⟩
    exact h.flow.imp id fun hlost => absurd hlost.1 (by simp [hphase])
  | empty hphase hraised =>
    rw [List.append_nil, List.append_nil]
    have hheld := h.held_eq (by simp [hphase])
    refine ⟨Nat.zero_le _, fun hne => absurd rfl hne, ?_, fun hne => absurd rfl hne⟩
    rcases h.flow with ⟨hwithin, hflow⟩ | ⟨hconsuming, -⟩
    · rw [hheld, List.append_nil] at hwithin hflow
      dsimp only
      rw [List.append_nil]
      rcases hflow with heq | ⟨-, hfull⟩
      · exact .inl ⟨hwithin, .inl heq⟩
      · exact .inr ⟨rfl, hfull.resolve_left (by simp [hraised]), hwithin⟩
    · exact absurd hconsuming (by simp [hphase])
  | consume c rest hphase hheld =>
    have hflow := h.flow
    rw [hheld] at hflow
    rw [List.append_nil]
    refine ⟨h.length_le, fun hne => absurd hphase hne, ?_, h.awake⟩
    simpa only [List.append_assoc, List.singleton_append, List.cons_append, List.nil_append] using hflow
  | check hphase hheld hfull =>
    rw [List.append_nil, List.append_nil]
    refine ⟨h.length_le, fun _ => hheld, ?_, fun hbuffer => (h.awake hbuffer).imp_right fun hawake => ?_⟩
    · exact h.flow.imp id fun hlost => absurd hlost.2.1 (by simp [hfull])
    · exact hawake.imp_right fun hemptying => absurd (hphase.symm.trans hemptying) (by decide)

/-- The reader consumes what arrived, in order, with nothing left out. -/
theorem Sound.consumed_isPrefix (h : Sound n consumed arrived m) : consumed <+: arrived := by
  rcases h.flow with ⟨hwithin, -⟩ | ⟨-, -, hwithin⟩
  · rw [List.append_assoc] at hwithin
    exact (List.prefix_append _ _).trans hwithin
  · exact (List.prefix_append _ _).trans hwithin

/-- Once nothing wakes the reader, it has consumed everything. -/
theorem Sound.consumed_eq (h : Sound n consumed arrived m) (hn : 0 < n) (hphase : m.phase = .waiting)
    (hwake : m.wake = false) (hraised : m.wakeRaised = false) : consumed = arrived := by
  have hbuffer : m.buffer = [] := by
    by_contra hne
    simpa [hphase, hwake, hraised] using h.awake hne
  have hheld := h.held_eq (by simp [hphase])
  rcases h.flow with ⟨-, heq | ⟨hlength, -⟩⟩ | ⟨hconsuming, -⟩
  · rwa [hheld, hbuffer, List.append_nil, List.append_nil] at heq
  · rw [hbuffer, List.length_nil] at hlength
    omega
  · exact absurd (hphase.symm.trans hconsuming) (by decide)

end Mailbox

end Schemes
