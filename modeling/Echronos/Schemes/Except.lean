import Mathlib.Data.List.Forall2

/-! # Results of computations that may fail

    What a computation in `Except` has done when it succeeds. -/

namespace Schemes

universe u v w

variable {ε : Type u} {α : Type w} {β : Type v}

theorem bind_eq_ok {α : Type v} {x : Except ε α} {f : α → Except ε β} {b : β} :
    (x >>= f) = .ok b ↔ ∃ a, x = .ok a ∧ f a = .ok b := by
  cases x <;> simp [bind, Except.bind]

theorem mapM_eq_ok {f : α → Except ε β} : ∀ {l : List α} {r : List β},
    l.mapM f = .ok r → List.Forall₂ (fun a b => f a = .ok b) l r
  | [], r, h => by
    cases h
    exact .nil
  | a :: l, r, h => by
    rw [List.mapM_cons] at h
    obtain ⟨b, hb, h⟩ := bind_eq_ok.mp h
    obtain ⟨bs, hbs, h⟩ := bind_eq_ok.mp h
    cases h
    exact .cons hb (mapM_eq_ok hbs)

theorem mapM_of_forall {f : α → Except ε β} {g : α → β} : ∀ {l : List α},
    (∀ a ∈ l, f a = .ok (g a)) → l.mapM f = .ok (l.map g)
  | [], _ => rfl
  | a :: l, h => by
    obtain ⟨ha, hl⟩ := List.forall_mem_cons.mp h
    rw [List.mapM_cons, ha, mapM_of_forall hl]
    rfl

theorem exists_mapM_eq_ok {f : α → Except ε β} : ∀ {l : List α},
    (∀ a ∈ l, ∃ b, f a = .ok b) → ∃ r, l.mapM f = .ok r
  | [], _ => ⟨[], rfl⟩
  | a :: l, h => by
    obtain ⟨⟨b, hb⟩, hl⟩ := List.forall_mem_cons.mp h
    obtain ⟨r, hr⟩ := exists_mapM_eq_ok hl
    exact ⟨b :: r, by rw [List.mapM_cons, hb, hr]; rfl⟩

/-- Where all the errors are the same, the first of them is that one. -/
theorem mapM_eq_error {f : α → Except ε β} {e : ε} : ∀ {l : List α},
    (∀ a ∈ l, ∀ e', f a = .error e' → e' = e) → (∃ a ∈ l, f a = .error e) → l.mapM f = .error e
  | a :: l, h, ⟨a', hmem, hfa'⟩ => by
    obtain ⟨ha, hl⟩ := List.forall_mem_cons.mp h
    rw [List.mapM_cons]
    cases hfa : f a with
    | error e' =>
      rw [ha e' hfa]
      rfl
    | ok b =>
      rcases List.mem_cons.mp hmem with rfl | hmem
      · cases hfa.symm.trans hfa'
      · rw [mapM_eq_error hl ⟨a', hmem, hfa'⟩]
        rfl

theorem mem_of_mapM {f : α → Except ε β} {l : List α} {r : List β}
    (h : l.mapM f = .ok r) (b : β) : b ∈ r ↔ ∃ a ∈ l, f a = .ok b := by
  have hall := mapM_eq_ok h
  clear h
  induction hall with
  | nil => simp
  | @cons a c l r hac _ ih => simp [ih, hac, eq_comm]

theorem ok_of_mapM {f : α → Except ε β} {l : List α} {r : List β}
    (h : l.mapM f = .ok r) : ∀ a ∈ l, ∃ b ∈ r, f a = .ok b := by
  have hall := mapM_eq_ok h
  clear h
  induction hall with
  | nil => simp
  | @cons a c l r hac _ ih =>
    rintro x (_ | hx)
    · exact ⟨c, List.mem_cons_self, hac⟩
    · obtain ⟨b, hb, hxb⟩ := ih x ‹_›
      exact ⟨b, List.mem_cons_of_mem _ hb, hxb⟩

theorem forM_eq_ok {f : α → Except ε PUnit} : ∀ {l : List α},
    l.forM f = .ok ⟨⟩ ↔ ∀ a ∈ l, f a = .ok ⟨⟩
  | [] => by simp [pure, Except.pure]
  | a :: l => by
    have hcons : (a :: l).forM f = f a >>= fun _ => l.forM f := rfl
    rw [hcons, bind_eq_ok, List.forall_mem_cons, ← forM_eq_ok]
    exact ⟨fun ⟨_, ha, hl⟩ => ⟨ha, hl⟩, fun ⟨ha, hl⟩ => ⟨⟨⟩, ha, hl⟩⟩

/-- A check of every element fails at the first one it fails for. -/
theorem forM_throw {p : α → Prop} [DecidablePred p] (e : α → ε) : ∀ l : List α,
    (l.forM fun a => if p a then throw (e a) else pure ⟨⟩ : Except ε PUnit) =
      match l.find? fun a => p a with
      | some a => .error (e a)
      | none => .ok ⟨⟩
  | [] => rfl
  | a :: l => by
    have hcons : ((a :: l).forM fun a => if p a then throw (e a) else pure ⟨⟩ : Except ε PUnit) =
        (if p a then throw (e a) else pure ⟨⟩ : Except ε PUnit) >>= fun _ =>
          l.forM fun a => if p a then throw (e a) else pure ⟨⟩ := rfl
    rw [hcons, List.find?_cons]
    by_cases ha : p a
    · rw [if_pos ha, decide_eq_true ha]
      rfl
    · rw [if_neg ha, decide_eq_false ha]
      exact forM_throw e l

end Schemes
