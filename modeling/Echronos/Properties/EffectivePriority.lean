import Echronos.Variants.PrioInherit
import Mathlib.Data.Fintype.EquivFin
import Mathlib.Order.Bounds.Defs
import Mathlib.Order.Monotone.Defs

/-! # What the scheduler of Kochab selects

    The effective priority of a runnable task is the best base priority among the tasks whose
    `blocked_on` chain ends in it. `sched_get_next` selects a task of highest effective priority, as
    does `PrioInheritSchedModel`, the reference model that its test compares it with. -/

namespace Echronos

open Schemes

variable {n : ℕ} {P : Type*} [LinearOrder P]

/-- `p` is the best base priority among the tasks whose chain ends in `t`. -/
def EffectivePriority (blockedOn : PrioInherit.State n) (priority : Fin n → P) (t : Fin n) (p : P) :
    Prop :=
  IsGreatest {q | ∃ u, EndsIn blockedOn u t ∧ q = priority u} p

namespace PrioInheritSchedModel

/-- `resolve_block_chain`, for at most `fuel` turns of its loop. There is no result either when the
    assertion `blocked_on not in seen` fails. -/
def resolveBlockChain (blockedOn : PrioInherit.State n) :
    ℕ → List (Fin n) → Fin n → Option (Option (Fin n))
  | 0, _, _ => none
  | fuel + 1, seen, taskId =>
    match blockedOn taskId with
    | none => some none
    | some next =>
      if next ∈ seen then none
      else if next = taskId then some (some next)
      else resolveBlockChain blockedOn fuel (taskId :: seen) next

/-- `head` of the chains' ends that are not `None`. -/
def head (blockedOn : PrioInherit.State n) (fuel : ℕ) : List (Fin n) → Option (Option (Fin n))
  | [] => some none
  | taskId :: rest =>
    match resolveBlockChain blockedOn fuel [] taskId with
    | none => none
    | some none => head blockedOn fuel rest
    | some (some next) => some (some next)

/-- `get_next` -/
def getNext (fuel : ℕ) (blockedOn : PrioInherit.State n) : Option (Option (Fin n)) :=
  head blockedOn fuel (List.finRange n)

/-- Without cycles the assertion holds: a task seen before leads to the one looked at. -/
theorem resolveBlockChain_eq {blockedOn : PrioInherit.State n} (h : Acyclic blockedOn) :
    ∀ (fuel : ℕ) (seen : List (Fin n)) (taskId : Fin n),
    (∀ u ∈ seen, ∃ v, blockedOn u = some v ∧ v ≠ u ∧ Leads blockedOn taskId v) →
    resolveBlockChain blockedOn fuel seen taskId = PrioInherit.followChain blockedOn fuel taskId
  | 0, _, _, _ => rfl
  | fuel + 1, seen, taskId, hseen => by
    cases hnext : blockedOn taskId with
    | none => simp [resolveBlockChain, PrioInherit.followChain, hnext]
    | some next =>
      have hnew : next ∉ seen := by
        intro hmem
        obtain ⟨v, hv, hne, hl⟩ := hseen next hmem
        by_cases hself : next = taskId
        · subst hself
          exact hne (Option.some.inj (hv.symm.trans hnext))
        · exact h next v hv hne (hl.snoc hnext)
      by_cases hself : next = taskId
      · subst hself
        simp [resolveBlockChain, PrioInherit.followChain, hnext, hnew]
      · have ih := resolveBlockChain_eq h fuel (taskId :: seen) next fun u hu => by
          rcases List.mem_cons.mp hu with rfl | hu
          · exact ⟨next, hnext, hself, .here⟩
          · obtain ⟨v, hv, hne, hl⟩ := hseen u hu
            exact ⟨v, hv, hne, hl.snoc hnext⟩
        simp [resolveBlockChain, PrioInherit.followChain, hnext, hnew, hself, ih]

theorem head_eq {blockedOn : PrioInherit.State n} (h : Acyclic blockedOn) (fuel : ℕ) :
    ∀ idxs : List (Fin n), head blockedOn fuel idxs = PrioInherit.searchFrom blockedOn fuel idxs
  | [] => rfl
  | taskId :: rest => by
    have hchain := resolveBlockChain_eq h fuel [] taskId nofun
    rcases hnext : PrioInherit.followChain blockedOn fuel taskId with _ | _ | next
    · simp [head, PrioInherit.searchFrom, hchain, hnext]
    · simp [head, PrioInherit.searchFrom, hchain, hnext, head_eq h fuel rest]
    · simp [head, PrioInherit.searchFrom, hchain, hnext]

end PrioInheritSchedModel

/-- The task found first ends the chain of the first task that has one, which lends it the highest
    priority of all tasks with a chain. -/
theorem exists_effectivePriority {blockedOn : PrioInherit.State n} {priority : Fin n → P}
    (hsorted : Antitone priority) {idx t : Fin n} (hidx : EndsIn blockedOn idx t)
    (hmin : ∀ i r, EndsIn blockedOn i r → idx ≤ i) :
    ∃ p, EffectivePriority blockedOn priority t p ∧
      ∀ u q, EffectivePriority blockedOn priority u q → q ≤ p := by
  refine ⟨priority idx, ⟨⟨idx, hidx, rfl⟩, ?_⟩, ?_⟩
  · rintro _ ⟨i, hi, rfl⟩
    exact hsorted (hmin i t hi)
  · rintro u q ⟨⟨i, hi, rfl⟩, -⟩
    exact hsorted (hmin i u hi)

/-- `sched_get_next` terminates, selects a runnable task of highest effective priority if there is
    one, and agrees with the reference model. -/
theorem schedGetNext_effectivePriority (blockedOn : PrioInherit.State n) (h : Acyclic blockedOn)
    (priority : Fin n → P) (hsorted : Antitone priority) :
    ∃ fuel₀, ∀ fuel, fuel₀ ≤ fuel → ∃ r,
      PrioInherit.schedGetNext fuel blockedOn = some (r.map Fin.val, blockedOn) ∧
      PrioInheritSchedModel.getNext fuel blockedOn = some r ∧
      (r = none ↔ ∀ t, blockedOn t ≠ some t) ∧
      ∀ t, r = some t → blockedOn t = some t ∧
        ∃ p, EffectivePriority blockedOn priority t p ∧
          ∀ u q, blockedOn u = some u → EffectivePriority blockedOn priority u q → q ≤ p := by
  obtain ⟨fuel₀, hfuel⟩ := PrioInherit.searchFrom_isSome h.ends (List.finRange n)
  refine ⟨fuel₀, fun fuel hle => ?_⟩
  obtain ⟨r, hr⟩ := Option.isSome_iff_exists.mp (hfuel fuel hle)
  refine ⟨r, by simp [PrioInherit.schedGetNext, hr], ?_, ?_, ?_⟩
  · rw [PrioInheritSchedModel.getNext, PrioInheritSchedModel.head_eq h, hr]
  · cases r with
    | none =>
      have hnone := PrioInherit.searchFrom_none hr
      exact ⟨fun _ t ht => hnone t (List.mem_finRange t) t ⟨.here, ht⟩, fun _ => rfl⟩
    | some t =>
      obtain ⟨_, -, hends, -⟩ := PrioInherit.searchFrom_some (List.pairwise_lt_finRange n) hr
      exact ⟨fun hnone => absurd hnone (Option.some_ne_none t), fun hrun => absurd hends.2 (hrun t)⟩
  · rintro t rfl
    obtain ⟨idx, -, hends, hmin⟩ := PrioInherit.searchFrom_some (List.pairwise_lt_finRange n) hr
    obtain ⟨p, hp, hbest⟩ := exists_effectivePriority hsorted hends
      fun i r => hmin i (List.mem_finRange i) r
    exact ⟨hends.2, p, hp, fun u q _ => hbest u q⟩

/-- Two tasks, the first blocked on the second, which is runnable. -/
def lending : PrioInherit.State 2 := fun _ => some 1

theorem acyclic_lending : Acyclic lending := by
  intro a b hab hne hl
  obtain rfl : b = 1 := (Option.some.inj hab).symm
  have hback : ∀ {u}, Leads lending a u → u = a := by
    intro u hu
    induction hu with
    | here => rfl
    | next hu _ ih => exact absurd ((Option.some.inj hu).trans ih) hne
  exact hne (hback hl)

/-- The second task is selected, at some effective priority. -/
theorem schedGetNext_effectivePriority_lending :
    ∃ fuel p, PrioInherit.schedGetNext fuel lending = some (some 1, lending) ∧
      EffectivePriority lending (fun t => 2 - t.val) 1 p := by
  obtain ⟨fuel, h⟩ := schedGetNext_effectivePriority lending acyclic_lending (fun t => 2 - t.val)
    fun t u htu => Nat.sub_le_sub_left htu 2
  obtain ⟨r, hr, -, hnone, hsome⟩ := h fuel le_rfl
  cases r with
  | none => exact absurd rfl (hnone.mp rfl 1)
  | some t =>
    obtain ⟨ht, p, hp, -⟩ := hsome t rfl
    obtain rfl : 1 = t := Option.some.inj ht
    exact ⟨fuel, p, hr, hp⟩

end Echronos
