import Mathlib.Data.Finset.Card
import Mathlib.Order.WellFoundedSet

/-! # First-fit numbering

    The elements of a linear order are numbered from the least one on, each with the least number
    that no earlier element in conflict with it holds. Such a numbering is unique, whatever run it
    comes from; `FirstFit.insert` is one turn of the run that builds it. -/

namespace Schemes

variable {α : Type*} [LinearOrder α] {s : Set α} {conflict : α → α → Prop} {rank rank' : α → ℕ}

/-- `rank` numbers the elements of `s` by first fit. -/
structure FirstFit (s : Set α) (conflict : α → α → Prop) (rank : α → ℕ) : Prop where
  /-- No earlier element in conflict with `a` holds the number of `a`. -/
  free : ∀ a ∈ s, ∀ b ∈ s, b < a → conflict a b → rank b ≠ rank a
  /-- Every lower number is taken by an earlier element in conflict with `a`. -/
  taken : ∀ a ∈ s, ∀ i < rank a, ∃ b ∈ s, b < a ∧ conflict a b ∧ rank b = i

namespace FirstFit

theorem empty : FirstFit ∅ conflict rank := ⟨nofun, nofun⟩

/-- Elements in conflict with each other have different numbers. -/
theorem ne_of_conflict (h : FirstFit s conflict rank) (hsymm : ∀ a b, conflict a b → conflict b a)
    {a b : α} (ha : a ∈ s) (hb : b ∈ s) (hne : a ≠ b) (hab : conflict a b) : rank a ≠ rank b := by
  rcases lt_or_gt_of_ne hne with hlt | hlt
  · exact h.free b hb a ha hlt (hsymm a b hab)
  · exact (h.free a ha b hb hlt hab).symm

/-- One half of uniqueness, at `a`, from what is known of the elements before it. -/
theorem not_lt_of_eqOn (h : FirstFit s conflict rank) (h' : FirstFit s conflict rank') {a : α}
    (ha : a ∈ s) (ih : ∀ b ∈ s, b < a → rank b = rank' b) : ¬ rank a < rank' a := by
  intro hlt
  obtain ⟨b, hb, hba, hconf, hrank⟩ := h'.taken a ha _ hlt
  exact h.free a ha b hb hba hconf ((ih b hb hba).trans hrank)

/-- A finite set has one first-fit numbering. -/
theorem eqOn (h : FirstFit s conflict rank) (h' : FirstFit s conflict rank') (hs : s.Finite) {a : α}
    (ha : a ∈ s) : rank a = rank' a := by
  have hwf : s.WellFoundedOn (· < ·) := hs.wellFoundedOn
  refine hwf.induction (P := fun a => rank a = rank' a) ha fun a ha ih => ?_
  have hle := h.not_lt_of_eqOn h' ha ih
  have hge := h'.not_lt_of_eqOn h ha fun b hb hba => (ih b hb hba).symm
  omega

/-- A number is at most the number of elements in conflict. -/
theorem rank_le_card (h : FirstFit s conflict rank) {a : α} (ha : a ∈ s) {others : Finset α}
    (hothers : ∀ b ∈ s, b < a → conflict a b → b ∈ others) : rank a ≤ others.card := by
  have hsub : Finset.range (rank a) ⊆ others.image rank := by
    intro i hi
    obtain ⟨b, hb, hba, hconf, hrank⟩ := h.taken a ha i (Finset.mem_range.mp hi)
    exact Finset.mem_image.mpr ⟨b, hothers b hb hba hconf, hrank⟩
  calc rank a = (Finset.range (rank a)).card := (Finset.card_range _).symm
    _ ≤ (others.image rank).card := Finset.card_le_card hsub
    _ ≤ others.card := Finset.card_image_le

/-- A new last element takes the least number that none of its conflicts holds. -/
theorem insert (h : FirstFit s conflict rank) {a : α} {v : ℕ} (hlast : ∀ b ∈ s, b < a)
    (hfree : ∀ b ∈ s, conflict a b → rank b ≠ v)
    (htaken : ∀ i < v, ∃ b ∈ s, conflict a b ∧ rank b = i) :
    FirstFit (Insert.insert a s) conflict (Function.update rank a v) := by
  have hold : ∀ b ∈ s, Function.update rank a v b = rank b := fun b hb =>
    Function.update_of_ne (hlast b hb).ne _ _
  refine ⟨?_, ?_⟩
  · rintro c (rfl | hc) b (rfl | hb) hbc hconf
    · exact absurd hbc (lt_irrefl _)
    · rw [hold b hb, Function.update_self]
      exact hfree b hb hconf
    · exact absurd hbc (hlast c hc).asymm
    · rw [hold b hb, hold c hc]
      exact h.free c hc b hb hbc hconf
  · rintro c (rfl | hc) i hi
    · rw [Function.update_self] at hi
      obtain ⟨b, hb, hconf, hrank⟩ := htaken i hi
      exact ⟨b, Or.inr hb, hlast b hb, hconf, (hold b hb).trans hrank⟩
    · rw [hold c hc] at hi
      obtain ⟨b, hb, hbc, hconf, hrank⟩ := h.taken c hc i hi
      exact ⟨b, Or.inr hb, hbc, hconf, (hold b hb).trans hrank⟩

end FirstFit

end Schemes
