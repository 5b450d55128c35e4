import Echronos.Schemes.Counter
import Echronos.Schemes.Sentinel
import Mathlib.Algebra.Group.Nat.Defs

/-! # Component `sched-prio`

    Strict priority: tasks are numbered by descending priority, and the first runnable one is selected.
    Identifiers and indices have `w` bits. -/

namespace Echronos.Prio

open Schemes

variable {n : ℕ} (w : ℕ)

/-- `runnable` of each task. -/
abbrev State (n : ℕ) := Fin n → Bool

/-- `idx <= sched_max_index()` -/
def inRange (n : ℕ) (idx : BitVec w) : Bool := decide (idx ≤ BitVec.ofNat w n - 1)

/-- The body of the loop of `sched_get_next`. There is no result of an access out of bounds. -/
def turn (s : State n) (idx : BitVec w) (task : Option (BitVec w)) :
    Option (Except (BitVec w) (Option (BitVec w))) :=
  if h : idx.toNat < n then
    if s ⟨idx.toNat, h⟩ then some (.error idx) else some (.ok task)
  else none

/-- What the loop has left in `task`. -/
def selected : Except (BitVec w) (Option (BitVec w)) → Option (BitVec w)
  | .error idx => some idx
  | .ok task => task

/-- `sched_get_next`, for at most `fuel` turns of its loop. With `assume_runnable`, `task` is not
    initialised, and otherwise it is `TASK_ID_NONE` at first. -/
def schedGetNext (assumeRunnable : Bool) (fuel : ℕ) (s : State n) : Option (Option (BitVec w)) :=
  let task := if assumeRunnable then none else some (idNone w)
  (countFrom (inRange w n) (turn w s) fuel 0 task).map (selected w)

variable {w}

theorem inRange_ofNat {i : ℕ} (hn : n ≤ 2 ^ w) (hi : i < n) :
    inRange w n (BitVec.ofNat w i) = true := by
  rw [inRange, ofNat_sub_one (by omega)]
  simp only [decide_eq_true_eq, BitVec.le_def, BitVec.toNat_ofNat]
  rw [Nat.mod_eq_of_lt (by omega), Nat.mod_eq_of_lt (by omega)]
  omega

theorem turn_ofNat {s : State n} {i : ℕ} (hn : n ≤ 2 ^ w) (hi : i < n) (task : Option (BitVec w)) :
    turn w s (BitVec.ofNat w i) task =
      if s ⟨i, hi⟩ then some (.error (BitVec.ofNat w i)) else some (.ok task) := by
  have hmod : i % 2 ^ w = i := Nat.mod_eq_of_lt (by omega)
  simp [turn, hmod, hi]

/-- From an index on, the loop stops at the first runnable task, `d` places on. -/
theorem countFrom_runnable {s : State n} (hn : n ≤ 2 ^ w) {t : Fin n} (ht : s t = true)
    (hfirst : ∀ u < t, s u = false) : ∀ (d i fuel : ℕ) (task : Option (BitVec w)),
      i + d = t.val → d < fuel →
      countFrom (inRange w n) (turn w s) fuel (BitVec.ofNat w i) task =
        some (.error (BitVec.ofNat w t))
  | 0, i, fuel + 1, task, hi, _ => by
    obtain rfl : i = t.val := hi
    simp [countFrom, inRange_ofNat hn t.isLt, turn_ofNat hn t.isLt, ht]
  | d + 1, i, fuel + 1, task, hi, hfuel => by
    have hlt : i < n := by omega
    have hrun : s ⟨i, hlt⟩ = false := hfirst _ (Fin.mk_lt_of_lt_val (by omega))
    have hsucc : BitVec.ofNat w i + 1 = BitVec.ofNat w (i + 1) := by
      rw [BitVec.ofNat_add]
      rfl
    simp only [countFrom, inRange_ofNat hn hlt, turn_ofNat hn hlt, hrun, if_true, Bool.false_eq_true,
      if_false, hsucc]
    exact countFrom_runnable hn ht hfirst d (i + 1) fuel task (by omega) (by omega)

/-- Without a runnable task the loop runs through all indices, if it can leave them behind. -/
theorem countFrom_none {s : State n} (hpos : 0 < n) (hn : n < 2 ^ w) (hnone : ∀ t, s t = false)
    (task : Option (BitVec w)) {fuel : ℕ} (hfuel : n < fuel) :
    countFrom (inRange w n) (turn w s) fuel 0 task = some (.ok task) := by
  have hstops : StopsAt n (inRange w n) := (visitsEach_iff.mp (visitsEach_le.mpr ⟨hpos, hn⟩))
  rw [countFrom_eq hstops _ _ hfuel]
  have hall : ∀ l : List (Fin n),
      forEach (fun i : Fin n => turn w s (BitVec.ofNat w i)) l task = some (.ok task) := by
    intro l
    induction l with
    | nil => rfl
    | cons i l ih => simpa [forEach, turn_ofNat hn.le i.isLt, hnone i] using ih
  exact hall _

/-- With `2 ^ w` tasks no index is out of range, and the counter starts again. -/
theorem countFrom_wraps {s : State (2 ^ w)} (hnone : ∀ t, s t = false) :
    ∀ (fuel : ℕ) (idx : BitVec w) (task : Option (BitVec w)),
      countFrom (inRange w (2 ^ w)) (turn w s) fuel idx task = none
  | 0, _, _ => rfl
  | fuel + 1, idx, task => by
    have hidx : idx = BitVec.ofNat w idx.toNat := by simp
    have hin : inRange w (2 ^ w) idx = true := by
      rw [hidx]
      exact inRange_ofNat le_rfl idx.isLt
    have hturn : turn w s idx task = some (.ok task) := by simp [turn, idx.isLt, hnone]
    simp only [countFrom, hin, hturn, if_true]
    exact countFrom_wraps hnone fuel (idx + 1) task

end Echronos.Prio
