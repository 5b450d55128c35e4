import Mathlib.Logic.Basic
import Mathlib.Data.List.Basic

/-! # What holds since an event

    A history lists events, the newest first. `Since p q` says that an event with `p` has occurred and
    none with `q` after it: a lock is held since it was acquired and not released, a task is awake
    since it was woken and not put to sleep. -/

namespace Schemes

variable {ε : Type*} {p p' q q' : ε → Prop}

def Since (p q : ε → Prop) : List ε → Prop
  | [] => False
  | e :: h => p e ∨ ¬ q e ∧ Since p q h

def decidableSince (p q : ε → Prop) [DecidablePred p] [DecidablePred q] :
    ∀ h : List ε, Decidable (Since p q h)
  | [] => .isFalse id
  | e :: h =>
    have := decidableSince p q h
    inferInstanceAs (Decidable (p e ∨ ¬ q e ∧ Since p q h))

instance [DecidablePred p] [DecidablePred q] : DecidablePred (Since p q) := decidableSince p q

@[simp]
theorem since_nil : ¬ Since p q [] := id

theorem since_cons {e : ε} {h : List ε} : Since p q (e :: h) ↔ p e ∨ ¬ q e ∧ Since p q h := Iff.rfl

theorem Since.exists_mem : ∀ {h : List ε}, Since p q h → ∃ e ∈ h, p e
  | e :: _, .inl hp => ⟨e, List.mem_cons_self, hp⟩
  | _ :: _, .inr ⟨_, hs⟩ => by
    obtain ⟨e, he, hp⟩ := hs.exists_mem
    exact ⟨e, List.mem_cons_of_mem _ he, hp⟩

/-- More events begin it, fewer end it. -/
theorem Since.mono (hp : ∀ e, p e → p' e) (hq : ∀ e, q' e → q e) :
    ∀ {h : List ε}, Since p q h → Since p' q' h
  | _ :: _, .inl h => .inl (hp _ h)
  | _ :: _, .inr ⟨hn, h⟩ => .inr ⟨mt (hq _) hn, h.mono hp hq⟩

/-- Events that neither begin nor end it do not matter. -/
theorem since_append {old : List ε} : ∀ {new : List ε}, (∀ e ∈ new, ¬ p e ∧ ¬ q e) →
    (Since p q (new ++ old) ↔ Since p q old)
  | [], _ => Iff.rfl
  | e :: new, hnew => by
    obtain ⟨⟨hp, hq⟩, hrest⟩ := List.forall_mem_cons.mp hnew
    rw [List.cons_append, since_cons, since_append hrest]
    simp [hp, hq]

/-- It has begun after the last event that ends it. -/
theorem since_iff_exists : ∀ {h : List ε}, Since p q h ↔
    ∃ new e old, h = new ++ e :: old ∧ p e ∧ ∀ e' ∈ new, ¬ q e'
  | [] => by simp
  | e :: h => by
    rw [since_cons, since_iff_exists]
    constructor
    · rintro (hp | ⟨hq, new, e', old, rfl, hp, hnew⟩)
      · exact ⟨[], e, h, rfl, hp, by simp⟩
      · exact ⟨e :: new, e', old, rfl, hp, List.forall_mem_cons.mpr ⟨hq, hnew⟩⟩
    · rintro ⟨_ | ⟨x, new⟩, e', old, heq, hp, hnew⟩
      · obtain ⟨rfl, rfl⟩ := List.cons.inj heq
        exact .inl hp
      · obtain ⟨rfl, rfl⟩ := List.cons.inj heq
        obtain ⟨hq, hnew⟩ := List.forall_mem_cons.mp hnew
        exact .inr ⟨hq, new, e', old, rfl, hp, hnew⟩

end Schemes
