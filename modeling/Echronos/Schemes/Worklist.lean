import Mathlib.Data.List.Basic
import Mathlib.Logic.Relation
import Mathlib.Data.Fintype.EquivFin
import Mathlib.Order.WellFounded

/-! # Putting a list in order with a worklist

    Some elements need others before them. Those that need none are moved to the result first. The
    result is then scanned, while it grows, and the elements that need the one scanned are moved to
    its end. What is left are elements that need each other in a circle, or hang on such a circle. -/

namespace Schemes

variable {α : Type*} (needs : α → α → Bool)

/-- Every element comes after those of `all` that it needs. -/
def PutAfter (all r : List α) : Prop :=
  ∀ before a after, r = before ++ a :: after → ∀ b ∈ all, needs a b = true → b ∈ before

/-- No element needs itself, directly or through others. -/
def NoCircle (all : List α) : Prop :=
  ∀ a, ¬ Relation.TransGen (fun a b => a ∈ all ∧ b ∈ all ∧ needs a b = true) a a

variable {needs} {all todo r rest : List α} {i : ℕ}

theorem PutAfter.nil : PutAfter needs all [] := by
  intro before a after h
  cases before <;> cases h

theorem PutAfter.append (h : PutAfter needs all r) {new : List α}
    (hnew : ∀ a ∈ new, ∀ b ∈ all, needs a b = true → b ∈ r) : PutAfter needs all (r ++ new) := by
  intro before a after heq b hb hneeds
  rcases List.append_eq_append_iff.mp heq with ⟨mid, rfl, hmid⟩ | ⟨mid, rfl, hmid⟩
  · have ha : a ∈ new := hmid ▸ List.mem_append_right _ List.mem_cons_self
    exact List.mem_append_left _ (hnew a ha b hb hneeds)
  · cases mid with
    | nil =>
      rw [List.nil_append] at hmid
      have := hnew a (hmid ▸ List.mem_cons_self) b hb hneeds
      rwa [List.append_nil] at this
    | cons a' mid =>
      cases hmid
      exact h before a mid rfl b hb hneeds

variable [DecidableEq α]

/-- Among elements in a circle, or that hang on one, each needs another one; where there is no circle,
    there are no such elements. -/
theorem NoCircle.eq_nil (h : NoCircle needs all) (hsubset : rest ⊆ all)
    (hneeds : ∀ a ∈ rest, ∃ b ∈ rest, needs a b = true) : rest = [] := by
  let Needed (a b : {a // a ∈ rest}) : Prop :=
    Relation.TransGen (fun a b => a ∈ all ∧ b ∈ all ∧ needs a b = true) b.1 a.1
  have htrans : IsTrans _ Needed := ⟨fun _ _ _ hab hbc => hbc.trans hab⟩
  have hirrefl : Std.Irrefl Needed := ⟨fun a => h a.1⟩
  have hwf : WellFounded Needed := Finite.wellFounded_of_trans_of_irrefl Needed
  by_contra hne
  obtain ⟨a, ha⟩ := List.exists_mem_of_ne_nil rest hne
  obtain ⟨least, -, hleast⟩ := hwf.has_min Set.univ ⟨⟨a, ha⟩, trivial⟩
  obtain ⟨b, hb, hneed⟩ := hneeds least.1 least.2
  exact hleast ⟨b, hb⟩ trivial (.single ⟨hsubset least.2, hsubset hb, hneed⟩)

/-! ### The loops -/

/-- A loop over a copy of `todo` that moves the elements with a property from `todo` to the end of
    `r`. -/
def moveAll (p : α → Bool) (todo r : List α) : List α × List α :=
  todo.foldl (fun s a => if p a then (s.1.erase a, s.2 ++ [a]) else s) (todo, r)

theorem moveAll_eq (p : α → Bool) (todo r : List α) :
    moveAll p todo r = (todo.filter fun a => !p a, r ++ todo.filter p) := by
  have hloop : ∀ rest kept r : List α, (∀ a ∈ kept, p a = false) →
      rest.foldl (fun s a => if p a then (s.1.erase a, s.2 ++ [a]) else s) (kept ++ rest, r) =
        (kept ++ rest.filter fun a => !p a, r ++ rest.filter p) := by
    intro rest
    induction rest with
    | nil => simp
    | cons a rest ih =>
      intro kept r hkept
      rw [List.foldl_cons]
      by_cases ha : p a = true
      · have hnot : a ∉ kept := fun h => by simp [hkept a h] at ha
        rw [if_pos ha, List.erase_append_right _ hnot, List.erase_cons_head, ih kept _ hkept]
        simp [ha]
      · have hkept' : ∀ b ∈ kept ++ [a], p b = false := by
          simpa [or_imp, forall_and] using And.intro hkept (Bool.eq_false_iff.mpr ha)
        have happend : kept ++ a :: rest = kept ++ [a] ++ rest := by simp
        rw [if_neg ha, happend, ih (kept ++ [a]) r hkept']
        simp [ha]
  exact hloop todo [] r nofun

variable (needs)

/-- The scan: `r[i]` is next. -/
def drain (todo r : List α) (i : ℕ) : List α :=
  if h : i < r.length then
    let s := moveAll (fun a => needs a r[i]) todo r
    drain s.1 s.2 (i + 1)
  else r
termination_by todo.length + (r.length - i)
decreasing_by
  rw [moveAll_eq]
  have := List.length_eq_length_filter_add (fun a => needs a r[i]) (l := todo)
  simp only [List.length_append]
  omega

variable {needs}

/-- What the scan leaves behind needs no element of the result. -/
theorem drain_spec (hunique : ∀ a ∈ all, ∀ b ∈ all, ∀ b' ∈ all, needs a b = true →
      needs a b' = true → b = b') (hall : all.Perm (r ++ todo)) (hafter : PutAfter needs all r)
    (hscanned : ∀ a ∈ todo, ∀ b ∈ r.take i, needs a b = false) :
    ∃ rest ⊆ todo, all.Perm (drain needs todo r i ++ rest) ∧ PutAfter needs all (drain needs todo r i) ∧
      ∀ a ∈ rest, ∀ b ∈ drain needs todo r i, needs a b = false := by
  induction todo, r, i using drain.induct needs with
  | case1 todo r i hi s ih =>
    have hs : s = (todo.filter fun a => !needs a r[i], r ++ todo.filter fun a => needs a r[i]) :=
      moveAll_eq _ _ _
    have hmoved : ∀ a ∈ s.1, a ∈ todo ∧ needs a r[i] = false := by
      rw [hs]
      simp
    have hperm : (r ++ todo).Perm (s.2 ++ s.1) := by
      have hfilter := List.filter_append_perm (fun a => needs a r[i]) todo
      rw [hs, List.append_assoc]
      exact (hfilter.symm).append_left r
    have hmem : r[i] ∈ all := hall.symm.subset (List.mem_append_left _ (List.getElem_mem hi))
    have hnew : ∀ a ∈ todo.filter fun a => needs a r[i], ∀ b ∈ all, needs a b = true → b ∈ r := by
      intro a ha b hb hneed
      obtain ⟨ha, hneedi⟩ := List.mem_filter.mp ha
      rw [hunique a (hall.symm.subset (List.mem_append_right _ ha)) b hb _ hmem hneed hneedi]
      exact List.getElem_mem hi
    have hafter' : PutAfter needs all s.2 := by
      rw [hs]
      exact hafter.append hnew
    have hscanned' : ∀ a ∈ s.1, ∀ b ∈ s.2.take (i + 1), needs a b = false := by
      intro a ha b hb
      obtain ⟨hatodo, hneedi⟩ := hmoved a ha
      rw [hs, List.take_append_of_le_length hi, List.take_add_one] at hb
      rcases List.mem_append.mp hb with hb | hb
      · exact hscanned a hatodo b hb
      · rw [List.getElem?_eq_getElem hi] at hb
        rw [List.mem_singleton.mp hb]
        exact hneedi
    obtain ⟨rest, hrest, hresult⟩ := ih (hall.trans hperm) hafter' hscanned'
    rw [drain, dif_pos hi]
    exact ⟨rest, fun a ha => (hmoved a (hrest ha)).1, hresult⟩
  | case2 todo r i hi =>
    rw [drain, dif_neg hi]
    rw [List.take_of_length_le (not_lt.mp hi)] at hscanned
    exact ⟨todo, List.Subset.refl _, hall, hafter, hscanned⟩

/-- With the elements that need none in front, the scan puts all elements in order, unless some need
    each other. -/
theorem drain_roots (hcircle : NoCircle needs all)
    (hunique : ∀ a ∈ all, ∀ b ∈ all, ∀ b' ∈ all, needs a b = true → needs a b' = true → b = b')
    {isRoot : α → Bool} (hroot : ∀ a ∈ all, isRoot a = true ↔ ∀ b ∈ all, needs a b = false) :
    let s := moveAll isRoot all []
    (drain needs s.1 s.2 0).Perm all ∧ PutAfter needs all (drain needs s.1 s.2 0) := by
  rw [moveAll_eq, List.nil_append]
  have hafter : PutAfter needs all (all.filter isRoot) := by
    refine List.nil_append (all.filter isRoot) ▸ PutAfter.nil.append fun a ha b hb hneed => ?_
    obtain ⟨ha, hisRoot⟩ := List.mem_filter.mp ha
    rw [(hroot a ha).mp hisRoot b hb] at hneed
    cases hneed
  obtain ⟨rest, hsubset, hperm, hresult, hrest⟩ := drain_spec (i := 0) hunique
    (List.filter_append_perm isRoot all).symm hafter (by simp)
  have hnil : rest = [] := by
    refine hcircle.eq_nil (fun a ha => (List.mem_filter.mp (hsubset ha)).1) fun a ha => ?_
    obtain ⟨haall, hnotRoot⟩ := List.mem_filter.mp (hsubset ha)
    have hneeds : ∃ b ∈ all, needs a b = true := by
      by_contra hnone
      push Not at hnone
      rw [(hroot a haall).mpr fun b hb => Bool.eq_false_iff.mpr (hnone b hb)] at hnotRoot
      cases hnotRoot
    obtain ⟨b, hb, hneed⟩ := hneeds
    refine ⟨b, (List.mem_append.mp (hperm.subset hb)).resolve_left fun hb => ?_, hneed⟩
    rw [hrest a ha b hb] at hneed
    cases hneed
  rw [hnil, List.append_nil] at hperm
  exact ⟨hperm.symm, hresult⟩

end Schemes
