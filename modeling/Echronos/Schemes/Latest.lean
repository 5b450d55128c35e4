import Mathlib.Data.List.Induction
import Mathlib.Data.List.Nodup
import Mathlib.Order.Lattice

/-! # The latest entry for every key

    A pass over entries in any order keeps one entry for each key, and replaces it when an entry with
    the same key outranks it. -/

namespace Schemes

variable {α κ ρ : Type*} [LinearOrder ρ] (key : α → κ) (rank : α → ρ)

/-- No entry of `l` with the key of `a` outranks `a`. -/
def IsLatest (l : List α) (a : α) : Prop := a ∈ l ∧ ∀ b ∈ l, key b = key a → rank b ≤ rank a

/-- What a pass over `l` has kept. -/
structure Latest (l kept : List α) : Prop where
  mem : ∀ a ∈ kept, a ∈ l
  covers : ∀ a ∈ l, ∃ b ∈ kept, key b = key a ∧ rank a ≤ rank b
  nodup : (kept.map key).Nodup

variable {key rank} {l kept : List α} {a b : α}

namespace Latest

theorem isLatest (h : Latest key rank l kept) (ha : a ∈ kept) : IsLatest key rank l a := by
  refine ⟨h.mem a ha, fun b hb hkey => ?_⟩
  obtain ⟨c, hc, hckey, hrank⟩ := h.covers b hb
  have hca : c = a := List.inj_on_of_nodup_map h.nodup hc ha (hckey.trans hkey)
  exact hca ▸ hrank

/-- Where no two entries have the same key and rank, the latest ones are kept and no others. -/
theorem mem_iff (h : Latest key rank l kept)
    (hinj : ∀ a ∈ l, ∀ b ∈ l, key a = key b → rank a = rank b → a = b) :
    a ∈ kept ↔ IsLatest key rank l a := by
  refine ⟨h.isLatest, ?_⟩
  rintro ⟨hmem, hle⟩
  obtain ⟨b, hb, hkey, hrank⟩ := h.covers a hmem
  have heq : b = a := hinj b (h.mem b hb) a hmem hkey (le_antisymm (hle b (h.mem b hb) hkey) hrank)
  exact heq ▸ hb

/-- Two entries are kept if and only if there are two keys. -/
theorem two_le_length_iff (h : Latest key rank l kept) :
    2 ≤ kept.length ↔ ∃ a ∈ l, ∃ b ∈ l, key a ≠ key b := by
  constructor
  · intro hlength
    rcases kept with - | ⟨a, - | ⟨b, rest⟩⟩
    · simp at hlength
    · simp at hlength
    · have hne : key a ≠ key b := fun heq =>
        (List.nodup_cons.mp h.nodup).1 (heq ▸ List.mem_cons_self)
      exact ⟨a, h.mem a List.mem_cons_self, b, h.mem b (List.mem_cons_of_mem _ List.mem_cons_self), hne⟩
  · rintro ⟨a, ha, b, hb, hne⟩
    obtain ⟨c, hc, hca, -⟩ := h.covers a ha
    obtain ⟨d, hd, hdb, -⟩ := h.covers b hb
    by_contra hlt
    rcases kept with - | ⟨e, - | ⟨f, rest⟩⟩
    · cases hc
    · have hcd : c = d := (List.mem_singleton.mp hc).trans (List.mem_singleton.mp hd).symm
      exact hne (hca.symm.trans ((congrArg key hcd).trans hdb))
    · refine hlt ?_
      rw [List.length_cons, List.length_cons]
      omega

end Latest

/-! ### The pass -/

variable [DecidableEq κ]

variable (key rank) in
/-- One turn of the pass. -/
def keepLatest : List α → α → List α
  | [], a => [a]
  | b :: kept, a =>
    if key b = key a then (if rank b < rank a then a else b) :: kept
    else b :: keepLatest kept a

theorem map_keepLatest : ∀ {kept : List α}, (keepLatest key rank kept a).map key =
    if key a ∈ kept.map key then kept.map key else kept.map key ++ [key a]
  | [] => rfl
  | b :: kept => by
    rw [keepLatest]
    by_cases hb : key b = key a
    · have hhead : key (if rank b < rank a then a else b) = key b := by
        split_ifs
        · exact hb.symm
        · rfl
      have hmem : key a ∈ (b :: kept).map key := by simp [hb]
      rw [if_pos hb, if_pos hmem, List.map_cons, List.map_cons, hhead]
    · rw [if_neg hb, List.map_cons, map_keepLatest, List.map_cons]
      by_cases ha : key a ∈ kept.map key
      · rw [if_pos ha, if_pos (List.mem_cons_of_mem _ ha)]
      · have hmem : key a ∉ key b :: kept.map key := List.not_mem_cons_of_ne_of_not_mem (Ne.symm hb) ha
        rw [if_neg ha, if_neg hmem, List.cons_append]

theorem mem_of_mem_keepLatest : ∀ {kept : List α}, b ∈ keepLatest key rank kept a → b = a ∨ b ∈ kept
  | [], h => .inl (List.mem_singleton.mp h)
  | c :: kept, h => by
    rw [keepLatest] at h
    split_ifs at h
    · exact (List.mem_cons.mp h).imp_right (List.mem_cons_of_mem _)
    · exact .inr h
    · rcases List.mem_cons.mp h with rfl | h
      · exact .inr List.mem_cons_self
      · exact (mem_of_mem_keepLatest h).imp_right (List.mem_cons_of_mem _)

theorem exists_keepLatest_self : ∀ kept : List α,
    ∃ b ∈ keepLatest key rank kept a, key b = key a ∧ rank a ≤ rank b
  | [] => ⟨a, List.mem_singleton_self a, rfl, le_rfl⟩
  | c :: kept => by
    rw [keepLatest]
    split_ifs with hkey hrank
    · exact ⟨a, List.mem_cons_self, rfl, le_rfl⟩
    · exact ⟨c, List.mem_cons_self, hkey, not_lt.mp hrank⟩
    · obtain ⟨b, hb, h⟩ := exists_keepLatest_self kept
      exact ⟨b, List.mem_cons_of_mem _ hb, h⟩

theorem exists_keepLatest_of_mem (a : α) : ∀ {kept : List α}, b ∈ kept →
    ∃ c ∈ keepLatest key rank kept a, key c = key b ∧ rank b ≤ rank c
  | c :: kept, h => by
    rw [keepLatest]
    split_ifs with hkey hrank
    · rcases List.mem_cons.mp h with rfl | h
      · exact ⟨a, List.mem_cons_self, hkey.symm, le_of_lt hrank⟩
      · exact ⟨b, List.mem_cons_of_mem _ h, rfl, le_rfl⟩
    · exact ⟨b, h, rfl, le_rfl⟩
    · rcases List.mem_cons.mp h with rfl | h
      · exact ⟨b, List.mem_cons_self, rfl, le_rfl⟩
      · obtain ⟨d, hd, hdb⟩ := exists_keepLatest_of_mem a h
        exact ⟨d, List.mem_cons_of_mem _ hd, hdb⟩

theorem Latest.step (h : Latest key rank l kept) (a : α) :
    Latest key rank (l ++ [a]) (keepLatest key rank kept a) where
  mem b hb := by
    rw [List.mem_append, List.mem_singleton]
    exact (mem_of_mem_keepLatest hb).symm.imp_left (h.mem b)
  covers b hb := by
    rcases List.mem_append.mp hb with hb | hb
    · obtain ⟨c, hc, hkey, hrank⟩ := h.covers b hb
      have hlater : ∃ d ∈ keepLatest key rank kept a, key d = key c ∧ rank c ≤ rank d :=
        exists_keepLatest_of_mem a hc
      obtain ⟨d, hd, hdkey, hdrank⟩ := hlater
      exact ⟨d, hd, hdkey.trans hkey, le_trans hrank hdrank⟩
    · rw [List.mem_singleton.mp hb]
      exact exists_keepLatest_self kept
  nodup := by
    rw [map_keepLatest]
    split_ifs with ha
    · exact h.nodup
    · exact List.nodup_append.mpr ⟨h.nodup, List.nodup_singleton _, fun k hk k' hk' heq =>
        ha (List.mem_singleton.mp hk' ▸ heq ▸ hk)⟩

/-- The whole pass. -/
theorem latest_foldl (l : List α) : Latest key rank l (l.foldl (keepLatest key rank) []) := by
  induction l using List.reverseRecOn with
  | nil => exact ⟨nofun, nofun, List.nodup_nil⟩
  | append_singleton l a ih =>
    rw [List.foldl_append]
    exact ih.step a

end Schemes
