import Mathlib.Data.List.Basic

/-! # Words

    A text is cut at every separator, and what lies between two separators is a word unless it is
    empty. -/

namespace Schemes

variable {α : Type*} (p : α → Bool)

/-- The words of a text. -/
def words (text : List α) : List (List α) := (text.splitOnP p).filter fun w => !w.isEmpty

variable {p} {text text' w : List α} {sep : α}

@[simp] theorem words_nil : words p [] = [] := rfl

theorem words_append_cons (hsep : p sep = true) :
    words p (text ++ sep :: text') = words p text ++ words p text' := by
  rw [words, List.splitOnP_append_cons text text' hsep, List.filter_append, words, words]

theorem words_of_forall (h : ∀ x ∈ w, p x = false) (hne : w ≠ []) : words p w = [w] := by
  rw [words, List.splitOnP_eq_singleton h]
  simp [hne]

/-- A word is not empty and has no separators. -/
theorem mem_words (h : w ∈ words p text) : w ≠ [] ∧ ∀ x ∈ w, p x = false := by
  obtain ⟨hw, hne⟩ := List.mem_filter.mp h
  refine ⟨by simpa using hne, ?_⟩
  clear h hne
  induction text generalizing w with
  | nil => simp_all
  | cons a text ih =>
    rw [List.splitOnP_cons_eq_if_modifyHead] at hw
    split_ifs at hw with ha
    · rcases List.mem_cons.mp hw with rfl | hw
      · simp
      · exact ih hw
    · obtain ⟨first, rest, heq⟩ := List.exists_cons_of_ne_nil (List.splitOnP_ne_nil p text)
      rw [heq, List.modifyHead_cons] at hw
      rcases List.mem_cons.mp hw with rfl | hw
      · intro x hx
        rcases List.mem_cons.mp hx with rfl | hx
        · simpa using ha
        · exact ih (heq ▸ List.mem_cons_self) x hx
      · exact ih (heq ▸ List.mem_cons_of_mem _ hw)

theorem mem_intercalate {x : α} : ∀ {ws : List (List α)},
    x ∈ [sep].intercalate ws → x = sep ∨ ∃ w ∈ ws, x ∈ w
  | [], h => nomatch h
  | [w], h => by
    rw [List.intercalate_singleton] at h
    exact .inr ⟨w, List.mem_cons_self, h⟩
  | w :: w' :: ws, h => by
    rw [List.intercalate_cons_cons, List.append_assoc, List.mem_append, List.mem_append] at h
    rcases h with h | h | h
    · exact .inr ⟨w, List.mem_cons_self, h⟩
    · exact .inl (List.mem_singleton.mp h)
    · exact (mem_intercalate h).imp_right fun ⟨v, hv, hx⟩ => ⟨v, List.mem_cons_of_mem _ hv, hx⟩

/-- The words of words that were joined. -/
theorem words_intercalate (hsep : p sep = true) : ∀ {ws : List (List α)},
    (∀ w ∈ ws, w ≠ [] ∧ ∀ x ∈ w, p x = false) → words p ([sep].intercalate ws) = ws
  | [], _ => rfl
  | [w], h => by
    obtain ⟨hne, hw⟩ := h w List.mem_cons_self
    rw [List.intercalate_singleton, words_of_forall hw hne]
  | w :: w' :: ws, h => by
    obtain ⟨hne, hw⟩ := h w List.mem_cons_self
    rw [List.intercalate_cons_cons, List.append_assoc, List.singleton_append,
      words_append_cons hsep, words_of_forall hw hne, List.singleton_append,
      words_intercalate hsep fun v hv => h v (List.mem_cons_of_mem _ hv)]

end Schemes
