import Echronos.Properties.Waits
import Echronos.Variants.Variant

/-! # Signals are never lost, fabricated or left unnoticed

    `Accounted` ties the pending signals of every task to the history of sends and receptions. Every
    move preserves it. Together with the soundness of waits it says that a reception removes exactly
    the signals it returns, that no task blocks with a requested signal pending, and that a signal is
    not received more often than it was sent. -/

namespace Echronos

open Schemes

variable {c : Config} {S : Sched c.tasks c.mutexes} {A : Set Component}

/-! ### Sends and receptions of one signal bit -/

/-- The event sends signal `i` to task `t`. -/
def Event.sends (t : c.TaskId) (i : ℕ) : Event c → Bool
  | .sent u set => u = t && set.getLsbD i
  | _ => false

/-- The event is a reception of signal `i` by task `t`. -/
def Event.receives (t : c.TaskId) (i : ℕ) : Event c → Bool
  | .received u _ r => u = t && r.getLsbD i
  | _ => false

/-- The number of events of a history that send signal `i` to task `t`. -/
def sendCount (t : c.TaskId) (i : ℕ) (h : List (Event c)) : ℕ := h.countP (Event.sends t i)

/-- The number of receptions of signal `i` by task `t`. -/
def receiveCount (t : c.TaskId) (i : ℕ) (h : List (Event c)) : ℕ := h.countP (Event.receives t i)

/-- Whether a history, newest event first, leaves signal `i` of task `t` sent but not received. -/
def pendingAfter (t : c.TaskId) (i : ℕ) : List (Event c) → Bool
  | [] => false
  | e :: h => e.sends t i || (!e.receives t i && pendingAfter t i h)

theorem Event.isSignal_of_sends {t : c.TaskId} {i : ℕ} {e : Event c} (h : e.sends t i = true) :
    e.isSignal = true := by
  cases e <;> simp_all [Event.sends, Event.isSignal]

theorem Event.isSignal_of_receives {t : c.TaskId} {i : ℕ} {e : Event c}
    (h : e.receives t i = true) : e.isSignal = true := by
  cases e <;> simp_all [Event.receives, Event.isSignal]

theorem countP_isSignal {p : Event c → Bool} (hp : ∀ e, p e = true → e.isSignal = true)
    (h : List (Event c)) : (h.filter Event.isSignal).countP p = h.countP p := by
  rw [List.countP_filter]
  refine List.countP_congr fun e _ => ?_
  simp only [Bool.and_eq_true, and_iff_left_iff_imp]
  exact hp e

theorem sendCount_isSignal (t : c.TaskId) (i : ℕ) (h : List (Event c)) :
    sendCount t i (h.filter Event.isSignal) = sendCount t i h :=
  countP_isSignal (fun _ => Event.isSignal_of_sends) h

theorem receiveCount_isSignal (t : c.TaskId) (i : ℕ) (h : List (Event c)) :
    receiveCount t i (h.filter Event.isSignal) = receiveCount t i h :=
  countP_isSignal (fun _ => Event.isSignal_of_receives) h

theorem pendingAfter_isSignal (t : c.TaskId) (i : ℕ) : ∀ h : List (Event c),
    pendingAfter t i (h.filter Event.isSignal) = pendingAfter t i h
  | [] => rfl
  | e :: h => by
    by_cases he : e.isSignal = true
    · simp [he, pendingAfter, pendingAfter_isSignal t i h]
    · have hs : e.sends t i = false := by
        simpa using fun hs => he (Event.isSignal_of_sends (t := t) (i := i) hs)
      have hr : e.receives t i = false := by
        simpa using fun hr => he (Event.isSignal_of_receives (t := t) (i := i) hr)
      simp [he, hs, hr, pendingAfter, pendingAfter_isSignal t i h]

namespace Core

/-- The pending signals are what the history says, and no signal was received more often than sent. -/
def Accounted (k : Core c S) : Prop := ∀ t i,
  (k.signals t).getLsbD i = pendingAfter t i k.history ∧
  receiveCount t i k.history + (pendingAfter t i k.history).toNat ≤ sendCount t i k.history

/-- The bits left by a reception. -/
theorem getLsbD_notReceived {p r : c.SignalSet} {i : ℕ} :
    (p &&& ~~~(p &&& r)).getLsbD i = (p.getLsbD i && !r.getLsbD i) := by
  by_cases hi : i < c.signalsetSize
  · simp only [BitVec.getLsbD_and, BitVec.getLsbD_not, hi, decide_true, Bool.true_and]
    cases p.getLsbD i <;> rfl
  · simp [BitVec.getLsbD_of_ge _ _ (Nat.le_of_not_lt hi)]

theorem Accounted.of_history {k k' : Core c S} (hs : k'.signals = k.signals)
    (hh : k'.signalHistory = k.signalHistory) (hk : Accounted k) : Accounted k' := by
  intro t i
  have h := hk t i
  unfold signalHistory at hh
  rw [← pendingAfter_isSignal, ← receiveCount_isSignal, ← sendCount_isSignal] at h ⊢
  rwa [hs, hh]

theorem Accounted.send {k : Core c S} (hk : Accounted k) (u : c.TaskId) (set : c.SignalSet) :
    Accounted (signalSendSet u set k) := by
  intro t i
  obtain ⟨hp, hc⟩ := hk t i
  have hh : (signalSendSet u set k).history = .sent u set :: k.history := rfl
  by_cases ht : u = t
  · subst ht
    refine ⟨by simp [hh, pendingAfter, Event.sends, Event.receives, hp, Bool.or_comm], ?_⟩
    cases hset : set.getLsbD i <;>
      simp_all [sendCount, receiveCount, pendingAfter, Event.sends, Event.receives]
    omega
  · refine ⟨by simp [hh, pendingAfter, Event.sends, Event.receives, hp, ht, Ne.symm ht], ?_⟩
    simpa [hh, sendCount, receiveCount, pendingAfter, Event.sends, Event.receives, ht] using hc

theorem Accounted.recv {k : Core c S} (hk : Accounted k) (u : c.TaskId) (r : c.SignalSet) :
    Accounted (signalRecv u r k).2 := by
  intro t i
  obtain ⟨hp, hc⟩ := hk t i
  have hh : (signalRecv u r k).2.history = .received u r (k.signals u &&& r) :: k.history := rfl
  by_cases ht : u = t
  · subst ht
    rw [hh, signalRecv_signals, Function.update_self, getLsbD_notReceived, hp]
    cases hpi : pendingAfter u i k.history <;> cases hr : r.getLsbD i <;>
      simp_all [sendCount, receiveCount, pendingAfter, Event.sends, Event.receives]
  · refine ⟨by simp [hh, pendingAfter, Event.sends, Event.receives, hp, ht, Ne.symm ht], ?_⟩
    simpa [hh, sendCount, receiveCount, pendingAfter, Event.sends, Event.receives, ht] using hc

theorem Accounted.wakes {k k' : Core c S} (h : Wakes A k k') (hk : Accounted k) :
    Accounted k' := by
  induction h with
  | refl => exact hk
  | quiet _ hq ih => exact ih.of_history hq.signals hq.signalHistory
  | send u set _ ih => exact ih.send u set

theorem Accounted.moves {k k' : Core c S} (h : Moves A k k') (hk : Accounted k) :
    Accounted k' := by
  induction h with
  | refl => exact hk
  | wakes _ hw ih => exact ih.wakes hw
  | receive r _ _ ih => exact (ih.recv _ r).of_history rfl rfl
  | goto p _ _ _ _ ih => exact ih.of_history rfl rfl
  | wait r b cont _ _ _ ih => exact ih.of_history (by simp) (by simp [signalHistory])
  | block w _ _ _ _ ih => exact ih.of_history (by simp) rfl

theorem Accounted.switch {k k' : Core c S} (h : Switch k k') (hk : Accounted k) : Accounted k' :=
  hk.of_history h.signals (by rw [signalHistory, h.history]; rfl)

/-- Task `t` receives the set `r` of the signals it requested. -/
structure Receives (t : c.TaskId) (requested r : c.SignalSet) (k k' : Core c S) : Prop where
  received : r = k.signals t &&& requested
  removed : k'.signals t = k.signals t &&& ~~~r
  outside : ∀ i, requested.getLsbD i = false →
    (k'.signals t).getLsbD i = (k.signals t).getLsbD i
  others : ∀ u, u ≠ t → k'.signals u = k.signals u
  history : k'.history = .received t requested r :: k.history

end Core

end Echronos
