import Mathlib.Logic.Basic
import Mathlib.Data.List.Nodup

/-! # Dictionaries in the order of insertion

    A dictionary lists its keys with their values, each key where it was first put. Putting a key that
    is there replaces its value. -/

namespace Schemes

variable {κ β : Type*} [DecidableEq κ] {d : List (κ × β)} {key k : κ} {v w : β}

namespace Assoc

/-- `d[key] = v` -/
def set (key : κ) (v : β) : List (κ × β) → List (κ × β)
  | [] => [(key, v)]
  | (k, w) :: d => if k = key then (k, v) :: d else (k, w) :: set key v d

section Lookup

variable [BEq κ] [LawfulBEq κ]

theorem lookup_cons : List.lookup key ((k, w) :: d) = if key = k then some w else d.lookup key := by
  by_cases h : key = k
  · subst h
    rw [List.lookup_cons_self, if_pos rfl]
  · rw [List.lookup_cons, beq_eq_false_iff_ne.mpr h, if_neg h]

theorem lookup_set : ∀ {d : List (κ × β)},
    (set key v d).lookup k = if k = key then some v else d.lookup k
  | [] => lookup_cons
  | (k', w) :: d => by
    rw [set, lookup_cons]
    by_cases hk' : k' = key
    · subst hk'
      rw [if_pos rfl, lookup_cons]
      split_ifs <;> rfl
    · rw [if_neg hk', lookup_cons, lookup_set]
      by_cases hk : k = k'
      · subst hk
        rw [if_pos rfl, if_neg hk', if_pos rfl]
      · rw [if_neg hk, if_neg hk]

theorem set_of_lookup : ∀ {d : List (κ × β)}, d.lookup key = some v → set key v d = d
  | (k', w) :: d, h => by
    rw [lookup_cons] at h
    rw [set]
    by_cases hk : key = k'
    · rw [if_pos hk] at h
      rw [if_pos hk.symm, Option.some.inj h]
    · rw [if_neg hk] at h
      rw [if_neg (Ne.symm hk), set_of_lookup h]

theorem mem_keys : key ∈ d.map Prod.fst ↔ ∃ w, d.lookup key = some w := by
  induction d with
  | nil => simp
  | cons item d ih =>
    obtain ⟨k, w⟩ := item
    rw [List.map_cons, List.mem_cons, lookup_cons, ih]
    by_cases hk : key = k
    · rw [if_pos hk]
      exact ⟨fun _ => ⟨w, rfl⟩, fun _ => .inl hk⟩
    · rw [if_neg hk]
      exact ⟨fun h => h.resolve_left hk, .inr⟩

theorem lookup_append_cons (h : key ∉ d.map Prod.fst) (rest : List (κ × β)) :
    (d ++ (key, v) :: rest).lookup key = some v := by
  induction d with
  | nil => exact List.lookup_cons_self
  | cons item d ih =>
    obtain ⟨k, w⟩ := item
    obtain ⟨hne, hd⟩ := not_or.mp (mt List.mem_cons.mpr h)
    rw [List.cons_append, lookup_cons, if_neg hne, ih hd]

end Lookup

theorem set_set (w : β) : ∀ {d : List (κ × β)}, set key v (set key w d) = set key v d
  | [] => by simp [set]
  | (k', w') :: d => by
    rw [set]
    split_ifs with h
    · rw [set, if_pos h, set, if_pos h]
    · rw [set, if_neg h, set_set, set, if_neg h]

theorem map_fst_set : ∀ {d : List (κ × β)}, (set key v d).map Prod.fst =
    if key ∈ d.map Prod.fst then d.map Prod.fst else d.map Prod.fst ++ [key]
  | [] => rfl
  | (k', w) :: d => by
    rw [set]
    by_cases hk : k' = key
    · subst hk
      simp
    · rw [if_neg hk, List.map_cons, map_fst_set]
      by_cases hmem : key ∈ d.map Prod.fst
      · rw [if_pos hmem, if_pos (by simp only [List.map_cons, List.mem_cons, hmem, or_true])]
        rfl
      · rw [if_neg hmem, if_neg (by simpa [Ne.symm hk] using hmem)]
        rfl

theorem nodup_set (h : (d.map Prod.fst).Nodup) : ((set key v d).map Prod.fst).Nodup := by
  rw [map_fst_set]
  split_ifs with hmem
  · exact h
  · exact List.nodup_append.mpr ⟨h, List.nodup_singleton _,
      fun a ha b hb => by rintro rfl; exact hmem (List.mem_singleton.mp hb ▸ ha)⟩

theorem mem_map_fst_set : k ∈ (set key v d).map Prod.fst ↔ k = key ∨ k ∈ d.map Prod.fst := by
  rw [map_fst_set]
  split_ifs with hmem
  · exact ⟨.inr, fun h => h.elim (fun hk => hk ▸ hmem) id⟩
  · rw [List.mem_append, List.mem_singleton, or_comm]

/-- A key that is not there is put at the end. -/
theorem set_of_notMem (h : key ∉ d.map Prod.fst) : set key v d = d ++ [(key, v)] := by
  induction d with
  | nil => rfl
  | cons e d ih =>
    obtain ⟨k, w⟩ := e
    rw [List.map_cons, List.mem_cons, not_or] at h
    rw [set, if_neg (Ne.symm h.1), ih h.2]
    rfl

theorem set_append_cons (h : key ∉ d.map Prod.fst) (rest : List (κ × β)) :
    set key v (d ++ (key, w) :: rest) = d ++ (key, v) :: rest := by
  induction d with
  | nil => rw [List.nil_append, set, if_pos rfl, List.nil_append]
  | cons item d ih =>
    obtain ⟨k, w'⟩ := item
    obtain ⟨hne, hd⟩ := not_or.mp (mt List.mem_cons.mpr h)
    rw [List.cons_append, set, if_neg (Ne.symm hne), ih hd, List.cons_append]

/-- The dictionary of a list of pairs, of which later ones replace earlier ones. -/
def ofPairs (pairs : List (κ × β)) : List (κ × β) := pairs.foldl (fun d p => set p.1 p.2 d) []

theorem foldl_set_of_nodup : ∀ {pairs d : List (κ × β)}, ((d ++ pairs).map Prod.fst).Nodup →
    pairs.foldl (fun d p => set p.1 p.2 d) d = d ++ pairs
  | [], d, _ => (List.append_nil d).symm
  | p :: pairs, d, h => by
    have hp : p.1 ∉ d.map Prod.fst := by
      rw [List.map_append, List.map_cons, List.nodup_append] at h
      exact fun hmem => h.2.2 _ hmem _ List.mem_cons_self rfl
    rw [List.foldl_cons, set_of_notMem hp, foldl_set_of_nodup (by simpa using h)]
    simp

/-- Pairs with different keys make up a dictionary as they are. -/
theorem ofPairs_of_nodup {pairs : List (κ × β)} (h : (pairs.map Prod.fst).Nodup) :
    ofPairs pairs = pairs := by
  rw [ofPairs, foldl_set_of_nodup (by simpa using h), List.nil_append]

end Assoc

end Schemes
