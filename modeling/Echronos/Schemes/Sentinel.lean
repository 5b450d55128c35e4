import Mathlib.Data.BitVec

/-! # Identifiers with a sentinel

    Objects are numbered from zero with unsigned integers of `w` bits, of which the greatest one stands
    for no object. The numbering is right up to the number of objects that leaves it free. -/

namespace Schemes

variable {n w : ℕ}

/-- The greatest identifier, for no object. -/
def idNone (w : ℕ) : BitVec w := BitVec.allOnes w

/-- The identifier of an object, if there is one. -/
def idOption (w : ℕ) : Option (Fin n) → BitVec w
  | some i => BitVec.ofNat w i
  | none => idNone w

theorem toNat_ofNat_lt {i : ℕ} (h : i < 2 ^ w) : (BitVec.ofNat w i).toNat = i := by
  rw [BitVec.toNat_ofNat, Nat.mod_eq_of_lt h]

theorem ofNat_eq_idNone {i : ℕ} (h : i < 2 ^ w) : BitVec.ofNat w i = idNone w ↔ i = 2 ^ w - 1 := by
  rw [← BitVec.toNat_inj, toNat_ofNat_lt h, idNone, BitVec.toNat_allOnes]

theorem ofNat_eq_iff (h : n < 2 ^ w) (i j : Fin n) : BitVec.ofNat w i = BitVec.ofNat w j ↔ i = j := by
  rw [← BitVec.toNat_inj, toNat_ofNat_lt (i.isLt.trans h), toNat_ofNat_lt (j.isLt.trans h), Fin.val_inj]

/-- The first `n` identifiers fit and differ from the sentinel exactly if `n` does not exceed it. -/
theorem fits_iff : (∀ i < n, (BitVec.ofNat w i).toNat = i ∧ BitVec.ofNat w i ≠ idNone w) ↔
    n < 2 ^ w := by
  have hpos : 0 < 2 ^ w := Nat.two_pow_pos w
  constructor
  · intro h
    by_contra hn
    exact (h (2 ^ w - 1) (by omega)).2 ((ofNat_eq_idNone (by omega)).mpr rfl)
  · intro h i hi
    refine ⟨toNat_ofNat_lt (by omega), fun heq => ?_⟩
    have hlast := (ofNat_eq_idNone (by omega)).mp heq
    omega

theorem ofNat_ne_idNone (h : n < 2 ^ w) (i : Fin n) : BitVec.ofNat w i ≠ idNone w :=
  (fits_iff.mpr h i i.isLt).2

/-- Objects and none have identifiers of their own exactly if `n` does not exceed the sentinel. -/
theorem idOption_injective_iff :
    Function.Injective (idOption w : Option (Fin n) → BitVec w) ↔ n < 2 ^ w := by
  constructor
  · intro h
    by_contra hn
    have hlast : 2 ^ w - 1 < 2 ^ w := Nat.sub_lt (Nat.two_pow_pos w) Nat.one_pos
    have heq : idOption w (some (⟨2 ^ w - 1, by omega⟩ : Fin n)) =
        idOption w (none : Option (Fin n)) :=
      (ofNat_eq_idNone hlast).mpr rfl
    cases h heq
  · intro h a b hab
    cases a with
    | none =>
      cases b with
      | none => rfl
      | some j => exact absurd hab.symm (ofNat_ne_idNone h j)
    | some i =>
      cases b with
      | none => exact absurd hab (ofNat_ne_idNone h i)
      | some j => exact congrArg some ((ofNat_eq_iff h i j).mp hab)

end Schemes
