import Mathlib.Order.Basic

/-! # Runs with enough fuel

    A function that recurses without an evident bound takes the depth of its recursion as an argument
    and returns `none` beyond it. -/

namespace Schemes

universe u

variable {ε α β : Type u}

/-- A computation that may fail, and may not come to an end. -/
abbrev Fuelled (ε α : Type u) := ExceptT ε Option α

def Fuelled.result (x : Except ε α) : Fuelled ε α := ExceptT.mk (some x)

def Fuelled.outOfFuel : Fuelled ε α := ExceptT.mk none

/-- With enough fuel this is the result. -/
def Settles (f : ℕ → Fuelled ε α) (r : Except ε α) : Prop := ∃ n, ∀ fuel, n ≤ fuel → f fuel = Fuelled.result r

variable {f : ℕ → Fuelled ε α} {g : ℕ → Fuelled ε β}

theorem Settles.unique {r r' : Except ε α} (h : Settles f r) (h' : Settles f r') : r = r' := by
  obtain ⟨n, hn⟩ := h
  obtain ⟨m, hm⟩ := h'
  exact Option.some.inj ((hn (n + m) (Nat.le_add_right n m)).symm.trans (hm (n + m) (Nat.le_add_left m n)))

theorem Settles.of_result (x : Except ε α) : Settles (fun _ => Fuelled.result x) x := ⟨0, fun _ _ => rfl⟩

/-- One more level. -/
theorem Settles.succ {r : Except ε α} {f' : ℕ → Fuelled ε α} (h : Settles f r)
    (hsucc : ∀ n, f' (n + 1) = f n) : Settles f' r := by
  obtain ⟨n, hn⟩ := h
  refine ⟨n + 1, fun fuel hfuel => ?_⟩
  obtain ⟨k, rfl⟩ := Nat.exists_eq_add_of_le hfuel
  rw [Nat.add_right_comm, hsucc]
  exact hn _ (Nat.le_add_right n k)

theorem Settles.bind {a : α} {k : ℕ → α → Fuelled ε β} {r : Except ε β} (h : Settles f (.ok a))
    (hk : Settles (fun n => k n a) r) : Settles (fun n => f n >>= k n) r := by
  obtain ⟨n, hn⟩ := h
  obtain ⟨m, hm⟩ := hk
  refine ⟨n + m, fun fuel hfuel => ?_⟩
  have hfirst := hn fuel (by omega)
  have hsecond := hm fuel (by omega)
  dsimp only at hsecond ⊢
  rw [hfirst, ← hsecond]
  rfl

end Schemes
