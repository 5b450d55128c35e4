import Mathlib.Data.Option.Basic
import Mathlib.Data.Fintype.Card

/-! # Chains of links

    A partial function links each element to at most one other, and an element linked to itself is a
    root. Following links from an element ends at a root or at an element without link, or goes round
    a cycle forever. The lemmas say when a change of one element's link keeps every chain finite. -/

namespace Schemes

variable {α : Type*} {f f' : α → Option α} {t : α}

/-- Following links from an element ends. -/
inductive Ends (f : α → Option α) : α → Prop
  | last {a : α} : f a = none → Ends f a
  | root {a : α} : f a = some a → Ends f a
  | next {a b : α} : f a = some b → Ends f b → Ends f a

/-- Following links from an element comes to `t`. -/
inductive Leads (f : α → Option α) (t : α) : α → Prop
  | here : Leads f t t
  | next {a b : α} : f a = some b → Leads f t b → Leads f t a

/-- A chain that does not come to `t` still ends when `t` gets another link and others become roots. -/
theorem Ends.of_not_leads (hf : ∀ a, a ≠ t → f' a = f a ∨ f' a = some a) {a : α} (h : Ends f a)
    (hl : ¬ Leads f t a) : Ends f' a := by
  induction h with
  | @last a ha =>
    rcases hf a (fun h => hl (h ▸ .here)) with h | h
    · exact .last (h.trans ha)
    · exact .root h
  | @root a ha =>
    rcases hf a (fun h => hl (h ▸ .here)) with h | h
    · exact .root (h.trans ha)
    · exact .root h
  | @next a b ha _ ih =>
    rcases hf a (fun h => hl (h ▸ .here)) with h | h
    · exact .next (h.trans ha) (ih fun hb => hl (.next ha hb))
    · exact .root h

/-- Every chain still ends if `t` gets a link to itself or to an element that does not lead to `t`. -/
theorem Ends.relink (h : ∀ a, Ends f a) (hf : ∀ a, a ≠ t → f' a = f a ∨ f' a = some a)
    (ht : ∀ u, f' t = some u → u ≠ t → ¬ Leads f t u) (a : α) : Ends f' a := by
  have hend : Ends f' t := by
    cases hu : f' t with
    | none => exact .last hu
    | some u =>
      by_cases hut : u = t
      · subst hut
        exact .root hu
      · exact .next hu ((h u).of_not_leads hf (ht u hu hut))
  induction h a with
  | @last a ha =>
    by_cases hat : a = t
    · subst hat; exact hend
    · rcases hf a hat with h | h
      · exact .last (h.trans ha)
      · exact .root h
  | @root a ha =>
    by_cases hat : a = t
    · subst hat; exact hend
    · rcases hf a hat with h | h
      · exact .root (h.trans ha)
      · exact .root h
  | @next a b ha _ ih =>
    by_cases hat : a = t
    · subst hat; exact hend
    · rcases hf a hat with h | h
      · exact .next (h.trans ha) ih
      · exact .root h

/-- There are no cycles but elements linked to themselves. -/
def Acyclic (f : α → Option α) : Prop := ∀ a b, f a = some b → b ≠ a → ¬ Leads f a b

/-- Following links from an element ends at the root `r`. -/
def EndsIn (f : α → Option α) (a r : α) : Prop := Leads f r a ∧ f r = some r

theorem Leads.snoc {a b r : α} (h : Leads f r a) (hr : f r = some b) : Leads f b a := by
  induction h with
  | here => exact .next hr .here
  | next ha _ ih => exact .next ha ih

/-- Without cycles every chain of finitely many elements ends. -/
theorem Acyclic.ends [Finite α] (h : Acyclic f) (a : α) : Ends f a := by
  let R : α → α → Prop := fun b a => f a = some b ∧ b ≠ a
  have hleads : ∀ {a b}, Relation.TransGen R b a → ∃ c, f a = some c ∧ c ≠ a ∧ Leads f b c := by
    intro a b hab
    induction hab with
    | single hab => exact ⟨_, hab.1, hab.2, .here⟩
    | tail _ hab ih =>
      obtain ⟨c, hc, -, hl⟩ := ih
      exact ⟨_, hab.1, hab.2, .next hc hl⟩
  have : IsTrans α (Relation.TransGen R) := ⟨fun _ _ _ => Relation.TransGen.trans⟩
  have : Std.Irrefl (Relation.TransGen R) := ⟨fun a ha => by
    obtain ⟨c, hc, hne, hl⟩ := hleads ha
    exact h a c hc hne hl⟩
  have hwf := Finite.wellFounded_of_trans_of_irrefl (Relation.TransGen R)
  induction a using hwf.induction with
  | _ a ih =>
    cases ha : f a with
    | none => exact .last ha
    | some b =>
      by_cases hba : b = a
      · subst hba
        exact .root ha
      · exact .next ha (ih b (.single ⟨ha, hba⟩))

/-- A chain goes on with the link of its first element, unless that is a root. -/
theorem ends_iff_next {a b : α} (hab : f a = some b) (hne : b ≠ a) : Ends f a ↔ Ends f b := by
  refine ⟨fun h => ?_, .next hab⟩
  cases h with
  | last ha => simp [hab] at ha
  | root ha => exact absurd (Option.some.inj (hab.symm.trans ha)) hne
  | next ha h =>
    obtain rfl := Option.some.inj (hab.symm.trans ha)
    exact h

/-- A chain that comes back to its first element does not end. -/
theorem not_ends_of_leads {a b : α} (hab : f a = some b) (hne : b ≠ a) (hl : Leads f a b) :
    ¬ Ends f a := by
  intro h
  induction h generalizing b with
  | last ha => simp [hab] at ha
  | root ha => exact hne (Option.some.inj (hab.symm.trans ha))
  | @next a b' ha _ ih =>
    obtain rfl := Option.some.inj (hab.symm.trans ha)
    -- the next element is on the same cycle
    cases hl with
    | here => exact hne rfl
    | @next b c hb hl =>
      by_cases hcb : c = b
      · subst hcb
        have : ∀ {x}, Leads f a x → x = c → c = a := by
          intro x hx
          induction hx with
          | here => exact Eq.symm
          | next hx _ ih =>
            rintro rfl
            exact ih (Option.some.inj (hx.symm.trans hb))
        exact hne (this hl rfl)
      · exact ih hb hcb (hl.snoc hab)

theorem acyclic_iff_ends [Finite α] : Acyclic f ↔ ∀ a, Ends f a :=
  ⟨Acyclic.ends, fun h a _ hab hne hl => not_ends_of_leads hab hne hl (h a)⟩

/-- A chain that ends comes to a root or to an element without link. -/
theorem Ends.exists_leads {a : α} (h : Ends f a) :
    ∃ r, Leads f r a ∧ ∀ b, f r = some b → b = r := by
  induction h with
  | last ha => exact ⟨_, .here, by simp [ha]⟩
  | root ha => exact ⟨_, .here, by simp [ha]⟩
  | next ha _ ih =>
    obtain ⟨r, hl, hr⟩ := ih
    exact ⟨r, .next ha hl, hr⟩

theorem Leads.exists_last {a r : α} (h : Leads f r a) (hne : r ≠ a) : ∃ b, f b = some r := by
  induction h with
  | here => exact absurd rfl hne
  | @next a b ha _ ih =>
    by_cases hb : r = b
    · exact ⟨a, hb ▸ ha⟩
    · exact ih hb

/-- Chains of fewer links. -/
theorem Leads.mono {g : α → Option α} (h : ∀ a b, f a = some b → b ≠ a → g a = some b) {r a : α}
    (hl : Leads f r a) : Leads g r a := by
  induction hl with
  | here => exact .here
  | @next a b ha _ ih =>
    by_cases hba : b = a
    · exact hba ▸ ih
    · exact .next (h a b ha hba) ih

theorem Acyclic.mono {g : α → Option α} (h : ∀ a b, f a = some b → b ≠ a → g a = some b)
    (hg : Acyclic g) : Acyclic f :=
  fun a b ha hba hl => hg a b (h a b ha hba) hba (hl.mono h)

/-- Along a chain whose links raise a rank, the rank of its elements with links rises. -/
theorem Leads.rank_lt {rank : α → ℕ} (h : ∀ a b c, f a = some b → f b = some c → rank a < rank b)
    {a b c r : α} (hl : Leads f r b) (ha : f a = some b) (hr : f r = some c) : rank a < rank r := by
  induction hl generalizing a with
  | here => exact h a _ c ha hr
  | next hb _ ih => exact (h _ _ _ ha hb).trans (ih hb)

theorem acyclic_of_rank (rank : α → ℕ)
    (h : ∀ a b c, f a = some b → f b = some c → rank a < rank b) : Acyclic f :=
  fun _ _ ha _ hl => (hl.rank_lt h ha ha).false

end Schemes
