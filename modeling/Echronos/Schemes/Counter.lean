import Echronos.Schemes.Scan
import Mathlib.Data.BitVec

/-! # Loops over a counter of fixed width

    A `for` loop over the indices of an array, whose counter is an unsigned integer of `w` bits and
    wraps around. Whether the loop ends, and whether it visits the array's entries and no others, is
    a matter of its condition alone: `visitsEach_iff` says of which. -/

namespace Schemes

variable {w n : ℕ} {σ ε ι : Type*} {cond : BitVec w → Bool}

/-- `for (id = i; cond(id); id++) body`, for at most `fuel` turns. The body goes on with `.ok`, leaves
    the loop with `.error`, or never ends with `none`. -/
def countFrom (cond : BitVec w → Bool) (body : BitVec w → σ → Option (Except ε σ)) :
    ℕ → BitVec w → σ → Option (Except ε σ)
  | 0, _, _ => none
  | fuel + 1, id, s =>
    if cond id then
      match body id s with
      | none => none
      | some (.error e) => some (.error e)
      | some (.ok s) => countFrom cond body fuel (id + 1) s
    else some (.ok s)

/-- The same body for each index of a list in turn. -/
def forEach (body : ι → σ → Option (Except ε σ)) : List ι → σ → Option (Except ε σ)
  | [], s => some (.ok s)
  | i :: l, s =>
    match body i s with
    | none => none
    | some (.error e) => some (.error e)
    | some (.ok s) => forEach body l s

/-- A turn that works on the entry of its index; there is none beyond the array. -/
def entryTurn (body : σ → Fin n → σ) (id : BitVec w) (s : σ) : Option (Except Unit σ) :=
  if h : id.toNat < n then some (.ok (body s ⟨id.toNat, h⟩)) else some (.error ())

/-- The loop ends, and works on each of the array's `n` entries once and in order. -/
def VisitsEach (n : ℕ) (cond : BitVec w → Bool) : Prop :=
  ∀ ⦃σ : Type⦄ (body : σ → Fin n → σ) (s : σ), ∃ fuel, ∀ k, fuel ≤ k →
    countFrom cond (entryTurn body) k 0 s = some (.ok (scan body s))

/-- The condition holds of the indices below `n` and fails at `n`. -/
structure StopsAt (n : ℕ) (cond : BitVec w → Bool) : Prop where
  lt : n < 2 ^ w
  holds : ∀ i < n, cond (BitVec.ofNat w i) = true
  fails : cond (BitVec.ofNat w n) = false

theorem forEach_map (f : ι → ℕ) (body : ℕ → σ → Option (Except ε σ)) : ∀ (l : List ι) (s : σ),
    forEach body (l.map f) s = forEach (fun i => body (f i)) l s
  | [], _ => rfl
  | i :: l, s => by
    simp only [List.map_cons, forEach]
    split <;> first | rfl | exact forEach_map f body l _

/-- The loop from `i` on, with `m` indices left. -/
theorem countFrom_range' (h : StopsAt n cond) (body : BitVec w → σ → Option (Except ε σ)) :
    ∀ (m i fuel : ℕ) (s : σ), i + m = n → m < fuel →
      countFrom cond body fuel (BitVec.ofNat w i) s =
        forEach (fun i => body (BitVec.ofNat w i)) (List.range' i m) s
  | 0, i, fuel + 1, s, hi, _ => by
    obtain rfl : i = n := hi
    simp [countFrom, forEach, h.fails]
  | m + 1, i, fuel + 1, s, hi, hfuel => by
    rw [List.range'_succ, countFrom, forEach, if_pos (h.holds i (by omega))]
    split
    · rfl
    · rfl
    · have hsucc : BitVec.ofNat w i + 1 = BitVec.ofNat w (i + 1) := by
        rw [BitVec.ofNat_add]
        rfl
      rw [hsucc]
      exact countFrom_range' h body m (i + 1) fuel _ (by omega) (by omega)

/-- A loop whose condition fails at `n` visits the indices below `n` in order. -/
theorem countFrom_eq (h : StopsAt n cond) (body : BitVec w → σ → Option (Except ε σ)) (s : σ)
    {fuel : ℕ} (hfuel : n < fuel) : countFrom cond body fuel 0 s =
      forEach (fun i : Fin n => body (BitVec.ofNat w i)) (List.finRange n) s := by
  rw [← forEach_map Fin.val fun i => body (BitVec.ofNat w i), List.map_coe_finRange_eq_range,
    List.range_eq_range']
  exact countFrom_range' h body n 0 fuel s (by omega) hfuel

theorem forEach_entryTurn (h : n < 2 ^ w) (body : σ → Fin n → σ) : ∀ (l : List (Fin n)) (s : σ),
    forEach (fun i : Fin n => entryTurn body (BitVec.ofNat w i)) l s = some (.ok (l.foldl body s))
  | [], _ => rfl
  | i :: l, s => by
    have hi : (BitVec.ofNat w i).toNat = i := by
      rw [BitVec.toNat_ofNat, Nat.mod_eq_of_lt (i.isLt.trans h)]
    have hturn : entryTurn body (BitVec.ofNat w i) s = some (.ok (body s i)) := by
      simp [entryTurn, hi]
    rw [forEach, hturn]
    exact forEach_entryTurn h body l _

theorem StopsAt.visitsEach (h : StopsAt n cond) : VisitsEach n cond := fun _ body s =>
  ⟨n + 1, fun k hk => by rw [countFrom_eq h _ s hk, forEach_entryTurn h.lt, scan]⟩

/-- A loop that has ended ends in the same way with more turns to go. -/
theorem countFrom_mono {body : BitVec w → σ → Option (Except ε σ)} {r : Except ε σ} :
    ∀ {fuel fuel' : ℕ} {id : BitVec w} {s : σ}, fuel ≤ fuel' →
      countFrom cond body fuel id s = some r → countFrom cond body fuel' id s = some r
  | fuel + 1, fuel' + 1, id, s, hle, h => by
    simp only [countFrom] at h ⊢
    split_ifs at h ⊢ with hc
    · split at h
      · cases h
      · exact h
      · exact countFrom_mono (by omega) h
    · exact h

/-- A condition that no value of the counter fails keeps the loop running. -/
theorem countFrom_eq_none (hcond : ∀ id, cond id = true) (hn : 2 ^ w ≤ n) (body : σ → Fin n → σ) :
    ∀ (fuel : ℕ) (id : BitVec w) (s : σ), countFrom cond (entryTurn body) fuel id s = none
  | 0, _, _ => rfl
  | fuel + 1, id, s => by
    have hid : id.toNat < n := id.isLt.trans_le hn
    rw [countFrom, if_pos (hcond id), entryTurn, dif_pos hid]
    exact countFrom_eq_none hcond hn body fuel (id + 1) _

/-- A loop that counts its turns and ends has stopped at the first index at which the condition
    fails. -/
theorem turns_of_countFrom : ∀ (fuel : ℕ) (id : BitVec w) (c c' : ℕ),
    countFrom cond (entryTurn fun c (_ : Fin n) => c + 1) fuel id c = some (.ok c') →
    ∃ m, c' = c + m ∧ cond (id + BitVec.ofNat w m) = false ∧
      ∀ j < m, cond (id + BitVec.ofNat w j) = true
  | 0, _, _, _, h => by simp [countFrom] at h
  | fuel + 1, id, c, c', h => by
    rw [countFrom] at h
    split_ifs at h with hcond
    · by_cases hid : id.toNat < n
      · simp only [entryTurn, hid, dif_pos] at h
        obtain ⟨m, rfl, hfails, hholds⟩ := turns_of_countFrom fuel (id + 1) (c + 1) c' h
        have hsucc : ∀ j, id + 1 + BitVec.ofNat w j = id + BitVec.ofNat w (j + 1) := by
          intro j
          rw [BitVec.add_assoc, Nat.add_comm j, BitVec.ofNat_add]
          rfl
        refine ⟨m + 1, by omega, hsucc m ▸ hfails, fun j hj => ?_⟩
        cases j with
        | zero => simpa using hcond
        | succ j => exact hsucc j ▸ hholds j (by omega)
      · simp [entryTurn, hid] at h
    · obtain rfl : c = c' := by simpa using h
      exact ⟨0, rfl, by simpa using hcond, nofun⟩

theorem VisitsEach.stopsAt (h : VisitsEach n cond) : StopsAt n cond := by
  obtain ⟨fuel, hrun⟩ := h (fun c _ => c + 1) 0
  have hcount : scan (fun c (_ : Fin n) => c + 1) 0 = n := by
    simp [scan]
  obtain ⟨m, hm, hfails, hholds⟩ := turns_of_countFrom fuel 0 0 _ (hrun fuel le_rfl)
  obtain rfl : m = n := by omega
  have hzero : ∀ j, (0 : BitVec w) + BitVec.ofNat w j = BitVec.ofNat w j := fun j => BitVec.zero_add _
  simp only [hzero] at hfails hholds
  refine ⟨?_, hholds, hfails⟩
  by_contra hle
  -- after `2 ^ w` turns the counter is where it was, and the condition held there
  have hwrap : BitVec.ofNat w m = BitVec.ofNat w (m - 2 ^ w) := by
    apply BitVec.eq_of_toNat_eq
    rw [BitVec.toNat_ofNat, BitVec.toNat_ofNat, Nat.mod_eq_sub_mod (by omega)]
  have hpos : 0 < 2 ^ w := Nat.two_pow_pos w
  rw [hwrap, hholds (m - 2 ^ w) (by omega)] at hfails
  cases hfails

/-- Which conditions make a loop visit every entry once. -/
theorem visitsEach_iff : VisitsEach n cond ↔ StopsAt n cond :=
  ⟨VisitsEach.stopsAt, StopsAt.visitsEach⟩

/-- `id < n`, compared in a wider type. -/
theorem visitsEach_lt : VisitsEach n (fun id : BitVec w => decide (id.toNat < n)) ↔ n < 2 ^ w := by
  refine visitsEach_iff.trans ⟨StopsAt.lt, fun h => ⟨h, fun i hi => ?_, ?_⟩⟩
  · simp [Nat.mod_eq_of_lt (hi.trans h), hi]
  · simp [Nat.mod_eq_of_lt h]

theorem ofNat_sub_one (h : 0 < n) : BitVec.ofNat w n - 1 = BitVec.ofNat w (n - 1) := by
  obtain ⟨m, rfl⟩ := Nat.exists_eq_add_of_le' h
  rw [BitVec.ofNat_add, Nat.add_sub_cancel]
  exact BitVec.add_sub_cancel _ _

/-- `id <= max` with the counter's own type for the greatest index. -/
theorem visitsEach_le : VisitsEach n (fun id : BitVec w => decide (id ≤ BitVec.ofNat w n - 1)) ↔
    0 < n ∧ n < 2 ^ w := by
  refine visitsEach_iff.trans ⟨fun h => ⟨?_, h.lt⟩, fun ⟨hpos, h⟩ => ⟨h, fun i hi => ?_, ?_⟩⟩
  · by_contra hn
    obtain rfl : n = 0 := by omega
    simpa [BitVec.le_def] using h.fails
  · rw [ofNat_sub_one hpos]
    simp only [decide_eq_true_eq, BitVec.le_def, BitVec.toNat_ofNat]
    rw [Nat.mod_eq_of_lt (by omega), Nat.mod_eq_of_lt (by omega)]
    omega
  · rw [ofNat_sub_one hpos]
    simp only [decide_eq_false_iff_not, BitVec.le_def, BitVec.toNat_ofNat]
    rw [Nat.mod_eq_of_lt h, Nat.mod_eq_of_lt (by omega)]
    omega

end Schemes
