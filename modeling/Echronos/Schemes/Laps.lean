import Mathlib.Data.Nat.Basic

/-! # Deadlines on a counter that wraps

    A counter modulo `N` stood at `c` when a deadline was set `r` ticks ahead; `e` ticks have passed
    since. Counter and deadline are compared as remainders modulo `N`. -/

namespace Schemes

variable {N c e r : ℕ}

/-- The counter is in the lap of the deadline: it has wrapped as often as the sum that gave it. -/
def SameLap (N c e r : ℕ) : Prop := (c + e) / N = (c + r) / N

instance : Decidable (SameLap N c e r) := inferInstanceAs (Decidable (_ = _))

/-- In the lap of the deadline, the counter is below it until the time has passed. -/
theorem SameLap.mod_lt_iff (h : SameLap N c e r) : (c + e) % N < (c + r) % N ↔ e < r := by
  have he := Nat.div_add_mod (c + e) N
  have hr := Nat.div_add_mod (c + r) N
  rw [h] at he
  omega

/-- In another lap it is not, unless a whole lap has passed since the deadline. -/
theorem mod_lt_iff_iff_sameLap (hr : r < N) (he : e < r + N) :
    ((c + e) % N < (c + r) % N ↔ e < r) ↔ SameLap N c e r := by
  refine ⟨fun h => ?_, SameLap.mod_lt_iff⟩
  have hpos : 0 < N := by omega
  have hcounter := Nat.div_add_mod (c + e) N
  have hdeadline := Nat.div_add_mod (c + r) N
  have hcounterLt := Nat.mod_lt (c + e) hpos
  have hdeadlineLt := Nat.mod_lt (c + r) hpos
  rcases Nat.lt_trichotomy ((c + e) / N) ((c + r) / N) with hlt | heq | hgt
  · have hlap : N * ((c + e) / N) + N ≤ N * ((c + r) / N) := Nat.mul_le_mul_left N hlt
    omega
  · exact heq
  · have hlap : N * ((c + r) / N) + N ≤ N * ((c + e) / N) := Nat.mul_le_mul_left N hgt
    omega

end Schemes
