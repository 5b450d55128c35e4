import Echronos.Configure.Rigel

/-! # The numbers of Rigel's signal labels

    `assign_signal_vals` colours the graph of labels that occur together in some set. It succeeds on
    all sets without repeated labels, two labels of one set get different numbers, and no label gets
    a higher number than it has neighbours. As a first fit is unique, only the sets themselves matter
    to the result, not the order in which they or their labels are listed. -/

namespace Echronos.Configure.Rigel

open Schemes

variable {α : Type} {sigSets sigSets' : List (List α)}

/-- The same sets, listed in another order, with their labels in other orders. -/
def Reordered (sigSets sigSets' : List (List α)) : Prop :=
  ∃ permuted, sigSets.Perm permuted ∧ List.Forall₂ List.Perm permuted sigSets'

namespace Reordered

theorem forall_iff (h : Reordered sigSets sigSets') {p : List α → Prop}
    (hp : ∀ l l' : List α, l.Perm l' → (p l ↔ p l')) :
    (∃ sigSet ∈ sigSets, p sigSet) ↔ ∃ sigSet ∈ sigSets', p sigSet := by
  obtain ⟨permuted, hperm, hall⟩ := h
  have hfirst : (∃ sigSet ∈ sigSets, p sigSet) ↔ ∃ sigSet ∈ permuted, p sigSet := by
    simp only [hperm.mem_iff]
  rw [hfirst]
  clear hperm hfirst
  induction hall with
  | nil => rfl
  | cons hhead _ ih => simp only [List.exists_mem_cons_iff, hp _ _ hhead, ih]

theorem common (h : Reordered sigSets sigSets') : Common sigSets = Common sigSets' := by
  ext a b
  exact h.forall_iff fun l l' hl => by rw [hl.mem_iff, hl.mem_iff]

theorem nodup (h : Reordered sigSets sigSets') (hnodup : ∀ sigSet ∈ sigSets, sigSet.Nodup) :
    ∀ sigSet ∈ sigSets', sigSet.Nodup := by
  have hnot : (∃ sigSet ∈ sigSets, ¬ sigSet.Nodup) ↔ ∃ sigSet ∈ sigSets', ¬ sigSet.Nodup :=
    h.forall_iff fun l l' hl => not_congr hl.nodup_iff
  by_contra hex
  push Not at hex
  obtain ⟨sigSet, hmem, hdup⟩ := hnot.mpr hex
  exact hdup (hnodup sigSet hmem)

end Reordered

variable [LinearOrder α] {assigned : α → Option ℕ}

/-- The other labels that share a set with `a`. -/
def neighbours (sigSets : List (List α)) (a : α) : Finset α :=
  (sigSets.filter (·.contains a)).flatten.toFinset.erase a

theorem mem_neighbours {a b : α} : b ∈ neighbours sigSets a ↔ b ≠ a ∧ Common sigSets a b := by
  simp only [neighbours, Finset.mem_erase, List.mem_toFinset, List.mem_flatten, List.mem_filter,
    List.contains_iff_mem, Common, and_assoc]

theorem Reordered.toFinset (h : Reordered sigSets sigSets') :
    sigSets.flatten.toFinset = sigSets'.flatten.toFinset := by
  ext a
  simp only [List.mem_toFinset, List.mem_flatten]
  exact h.forall_iff fun l l' hl => hl.mem_iff

/-- The numbers are determined by which labels there are and which share a set. -/
theorem Numbered.unique {done : Finset α} {assigned' : α → Option ℕ} {rank rank' : α → ℕ}
    (h : Numbered sigSets done assigned rank) (h' : Numbered sigSets' done assigned' rank')
    (hcommon : Common sigSets = Common sigSets') : assigned = assigned' := by
  funext a
  by_cases ha : a ∈ done
  · have hfit := h'.firstFit
    rw [← hcommon] at hfit
    rw [h.eq_rank a ha, h'.eq_rank a ha, h.firstFit.eqOn hfit done.finite_toSet ha]
  · rw [h.eq_none a ha, h'.eq_none a ha]

theorem Numbered.le_card {done : Finset α} {rank : α → ℕ}
    (h : Numbered sigSets done assigned rank) {a : α} (ha : a ∈ done) :
    rank a ≤ (neighbours sigSets a).card :=
  h.firstFit.rank_le_card ha fun _ _ hlt hcommon => mem_neighbours.mpr ⟨hlt.ne, hcommon⟩

theorem assignSignalVals_sound (sigSets : List (List α))
    (hnodup : ∀ sigSet ∈ sigSets, sigSet.Nodup) :
    ∃ assigned, assignSignalVals sigSets = .ok assigned ∧
      (∀ a ∈ sigSets.flatten, ∃ v, assigned a = some v ∧ v ≤ (neighbours sigSets a).card) ∧
      (∀ sigSet ∈ sigSets, ∀ a ∈ sigSet, ∀ b ∈ sigSet, a ≠ b → assigned a ≠ assigned b) ∧
      ∀ sigSets', Reordered sigSets sigSets' → assignSignalVals sigSets' = .ok assigned := by
  obtain ⟨assigned, hok⟩ := assignSignalVals_isOk.mpr hnodup
  obtain ⟨rank, hnum⟩ := numbered_of_assignSignalVals hok
  have hlabel : ∀ a ∈ sigSets.flatten, a ∈ sigSets.flatten.toFinset := fun a =>
    List.mem_toFinset.mpr
  refine ⟨assigned, hok, fun a ha => ?_, fun sigSet hmem a ha b hb hne heq => ?_,
    fun sigSets' hre => ?_⟩
  · exact ⟨rank a, hnum.eq_rank a (hlabel a ha), hnum.le_card (hlabel a ha)⟩
  · have hdone : ∀ a ∈ sigSet, a ∈ sigSets.flatten.toFinset := fun a ha =>
      hlabel a (List.mem_flatten_of_mem hmem ha)
    exact hne (hnum.injOn hmem hdone a ha b hb heq)
  · obtain ⟨assigned', hok'⟩ := assignSignalVals_isOk.mpr (hre.nodup hnodup)
    obtain ⟨rank', hnum'⟩ := numbered_of_assignSignalVals hok'
    rw [hok', hnum.unique (hre.toFinset ▸ hnum') hre.common]

/-- Three tasks, of which the first two and the last two share a label. -/
theorem assignSignalVals_sound_three :
    ∃ assigned, assignSignalVals [["rx", "tx"], ["tx", "err"], ["err", "log"]] = .ok assigned ∧
      assignSignalVals [["log", "err"], ["tx", "rx"], ["tx", "err"]] = .ok assigned := by
  obtain ⟨assigned, hok, -, -, hre⟩ :=
    assignSignalVals_sound [["rx", "tx"], ["tx", "err"], ["err", "log"]] (by decide)
  refine ⟨assigned, hok, hre _ ⟨[["err", "log"], ["rx", "tx"], ["tx", "err"]], by decide, ?_⟩⟩
  exact .cons (by decide) (.cons (by decide) (.cons (by decide) .nil))

end Echronos.Configure.Rigel
