import Echronos.Variants.RoundRobin
import Mathlib.Data.List.FinRange
import Mathlib.Data.List.Rotate

/-! # What the scheduler of Rigel selects

    `sched_get_next` looks at the tasks in the order in which they follow the current one, and agrees
    with `RrSchedModel`, the reference model that its test compares it with. A runnable task comes
    closer to its turn with every call that selects another one, so it is selected within as many
    calls as there are tasks. -/

namespace Echronos

namespace RrSchedModel

/-- `RrSchedModel` -/
structure Model where
  runnable : List Bool
  cur : ℕ
  deriving DecidableEq

def Model.size (m : Model) : ℕ := m.runnable.length

/-- The pairs `(index, runnable)`. -/
def Model.indexed (m : Model) : List (ℕ × Bool) := m.runnable.zipIdx.map Prod.swap

def rotate {α : Type} (sequence : List α) (n : ℕ) : List α := sequence.drop n ++ sequence.take n

def incmod (i n : ℕ) : ℕ := (i + 1) % n

/-- `get_next`: the task selected, and the model with its new `cur`. -/
def getNext (m : Model) : Option ℕ × Model :=
  let next := (((rotate m.indexed (incmod m.cur m.size)).filter (·.2)).map (·.1)).head?
  (next, { m with cur := match next with | none => m.size - 1 | some idx => idx })

end RrSchedModel

namespace RoundRobin

variable {n : ℕ}

/-- The model of a state. -/
def State.model (s : State n) : RrSchedModel.Model := ⟨List.ofFn s.runnable, s.cur⟩

/-- All indices, from the one after `cur` round to `cur`. -/
def following (cur : Fin n) : List (Fin n) := (List.finRange n).rotate (cur + 1)

theorem length_following (cur : Fin n) : (following cur).length = n := by
  simp [following]

theorem getElem_following (cur : Fin n) {k : ℕ} (hk : k < (following cur).length) :
    ((following cur)[k]).val = (cur + (k + 1)) % n := by
  simp only [following, List.getElem_rotate, List.length_finRange, List.getElem_finRange,
    Fin.val_cast]
  congr 1
  omega

/-- The loop selects the first runnable task that follows; at last it looks at `cur`. -/
theorem loop_eq (s : State n) : ∀ (m k : ℕ) (next : Fin n) (fuel : ℕ), k + m = n → 0 < m →
    next.val = (s.cur + k) % n → m ≤ fuel →
    loop s fuel next = some (match ((following s.cur).drop k).find? s.runnable with
      | some idx => (true, idx)
      | none => (false, s.cur))
  | m + 1, k, next, fuel + 1, hk, _, hnext, hfuel => by
    have hlt : k < (following s.cur).length := by rw [length_following]; omega
    have hval : (schedNextIndex next).val = (s.cur + (k + 1)) % n := by
      rw [val_schedNextIndex, hnext, Nat.mod_add_mod, Nat.add_assoc]
    have hidx : schedNextIndex next = (following s.cur)[k] :=
      Fin.ext (hval.trans (getElem_following s.cur hlt).symm)
    rw [List.drop_eq_getElem_cons hlt, ← hidx, List.find?_cons, loop]
    cases hrun : s.runnable (schedNextIndex next) with
    | true => simp
    | false =>
      by_cases hcur : schedNextIndex next = s.cur
      · have hend : k + 1 = n := eq_of_add_mod (by omega) (by rw [← hval, hcur])
        have hdrop : (following s.cur).drop (k + 1) = [] :=
          List.drop_of_length_le (by rw [length_following, hend])
        simp [hcur, hdrop]
      · have hm : 0 < m := by
          refine Nat.pos_of_ne_zero fun hm => hcur (Fin.ext ?_)
          rw [hval, show k + 1 = n by omega, Nat.add_mod_right, Nat.mod_eq_of_lt s.cur.isLt]
        simp only [hcur, ne_eq, not_false_eq_true, and_self, if_true]
        exact loop_eq s m (k + 1) _ fuel (by omega) hm hval (by omega)

/-- `sched_get_next` terminates and selects the first runnable task that follows. -/
theorem schedGetNext_eq (s : State n) {fuel : ℕ} (hfuel : n ≤ fuel) :
    schedGetNext fuel s = some (match (following s.cur).find? s.runnable with
      | some idx => (some idx.val, { s with cur := idx })
      | none => (none, { s with cur := schedMaxIndex s.cur })) := by
  have hloop := loop_eq s n 0 s.cur fuel (Nat.zero_add n) s.cur.pos
    (Nat.mod_eq_of_lt s.cur.isLt).symm hfuel
  rw [List.drop_zero] at hloop
  rw [schedGetNext, hloop]
  cases (following s.cur).find? s.runnable <;> rfl

/-! ### The reference model -/

theorem rotate_indexed (s : State n) :
    RrSchedModel.rotate s.model.indexed (RrSchedModel.incmod s.model.cur s.model.size) =
      (following s.cur).map fun idx => (idx.val, s.runnable idx) := by
  have hindexed : s.model.indexed = (List.finRange n).map fun idx => (idx.val, s.runnable idx) := by
    apply List.ext_getElem <;> simp [State.model, RrSchedModel.Model.indexed]
  have hpos : 0 < n := s.cur.pos
  rw [RrSchedModel.rotate, hindexed, following, List.map_rotate, ← List.rotate_mod]
  simp only [State.model, RrSchedModel.incmod, RrSchedModel.Model.size, List.length_ofFn,
    List.length_map, List.length_finRange]
  rw [List.rotate_eq_drop_append_take]
  simpa using (Nat.mod_lt _ hpos).le

/-- The model selects the same task. -/
theorem getNext_model (s : State n) :
    RrSchedModel.getNext s.model = (match (following s.cur).find? s.runnable with
      | some idx => (some idx.val, State.model { s with cur := idx })
      | none => (none, State.model { s with cur := schedMaxIndex s.cur })) := by
  have hnext : (((following s.cur).map fun idx => (idx.val, s.runnable idx)).filter (·.2)).map
      (·.1) = ((following s.cur).filter s.runnable).map (·.val) := by
    simp [List.filter_map, Function.comp_def]
  simp only [RrSchedModel.getNext, rotate_indexed, hnext, List.head?_map, List.head?_filter]
  cases (following s.cur).find? s.runnable with
  | none => simp [State.model, RrSchedModel.Model.size, schedMaxIndex]
  | some idx => simp [State.model]

/-- `sched_get_next` and the reference model return the same and move to the same current index. -/
theorem schedGetNext_refines (s : State n) {fuel : ℕ} (hfuel : n ≤ fuel) :
    ∃ r s', schedGetNext fuel s = some (r, s') ∧ RrSchedModel.getNext s.model = (r, s'.model) := by
  rw [schedGetNext_eq s hfuel, getNext_model]
  cases (following s.cur).find? s.runnable <;> exact ⟨_, _, rfl, rfl⟩

/-! ### Fairness -/

/-- Consecutive calls of `sched_get_next`, and what each returns. Before each call, any tasks become
    runnable or blocked. -/
def calls (fuel : ℕ) : List (Fin n → Bool) → Fin n → Option (List (Option ℕ))
  | [], _ => some []
  | runnable :: rest, cur =>
    match schedGetNext fuel ⟨cur, runnable⟩ with
    | none => none
    | some (r, s) => (calls fuel rest s.cur).map (r :: ·)

theorem calls_isSome {fuel : ℕ} (hfuel : n ≤ fuel) : ∀ (vectors : List (Fin n → Bool)) (cur : Fin n),
    ∃ rs, calls fuel vectors cur = some rs
  | [], _ => ⟨[], rfl⟩
  | runnable :: rest, cur => by
    obtain ⟨r, s, hnext, -⟩ := schedGetNext_refines ⟨cur, runnable⟩ hfuel
    obtain ⟨rs, hrs⟩ := calls_isSome hfuel rest s.cur
    exact ⟨r :: rs, by simp [calls, hnext, hrs]⟩

/-- No call moves the current index past a runnable task. -/
theorem find_following {runnable : Fin n → Bool} {cur t : Fin n} {j : ℕ} (hj : 0 < j) (hjn : j ≤ n)
    (ht : t.val = (cur + j) % n) (hrun : runnable t = true) :
    ∃ (idx : Fin n) (k : ℕ), (following cur).find? runnable = some idx ∧ 0 < k ∧ k ≤ j ∧
      idx.val = (cur + k) % n := by
  have hlt : j - 1 < (following cur).length := by rw [length_following]; omega
  have hget : (following cur)[j - 1] = t := by
    refine Fin.ext ?_
    rw [getElem_following, ht, Nat.sub_add_cancel hj]
  cases hfind : (following cur).find? runnable with
  | none =>
    have := List.find?_eq_none.mp hfind t (hget ▸ List.getElem_mem hlt)
    exact absurd hrun this
  | some idx =>
    obtain ⟨-, k, hk, hidx, hbefore⟩ := List.find?_eq_some_iff_getElem.mp hfind
    refine ⟨idx, k + 1, rfl, Nat.succ_pos k, ?_, by rw [← hidx, getElem_following]⟩
    by_contra hgt
    have := hbefore (j - 1) (by omega)
    rw [hget, hrun] at this
    cases this

theorem loop_mono {s : State n} {r : Bool × Fin n} : ∀ {fuel fuel' : ℕ} {next : Fin n},
    fuel ≤ fuel' → loop s fuel next = some r → loop s fuel' next = some r
  | fuel + 1, fuel' + 1, next, hle, h => by
    simp only [loop] at h ⊢
    split_ifs at h ⊢
    · exact loop_mono (by omega) h
    · exact h

/-- What `sched_get_next` returns does not depend on the fuel. -/
theorem eq_of_schedGetNext {s : State n} {fuel : ℕ} {r : Option ℕ × State n}
    (h : schedGetNext fuel s = some r) :
    r = match (following s.cur).find? s.runnable with
      | some idx => (some idx.val, { s with cur := idx })
      | none => (none, { s with cur := schedMaxIndex s.cur }) := by
  obtain ⟨l, hl⟩ : ∃ l, loop s fuel s.cur = some l := by
    cases hl : loop s fuel s.cur with
    | none => simp [schedGetNext, hl] at h
    | some l => exact ⟨l, rfl⟩
  have hmax := schedGetNext_eq s (le_max_right fuel n)
  rw [schedGetNext, loop_mono (le_max_left fuel n) hl] at hmax
  rw [schedGetNext, hl] at h
  exact Option.some.inj (h.symm.trans hmax)

/-- Task `t` is runnable, and at most `k` places behind the current index. -/
def Ahead (t : Fin n) (k : ℕ) (s : State n) : Prop :=
  s.runnable t = true ∧ ∃ j, 0 < j ∧ j ≤ k ∧ j ≤ n ∧ t.val = (s.cur + j) % n

theorem ahead_of_runnable {s : State n} {t : Fin n} (h : s.runnable t = true) : Ahead t n s := by
  obtain ⟨j, hj, hjn, ht⟩ := exists_add_mod s.cur t
  exact ⟨h, j, hj, hjn, hjn, ht⟩

theorem not_ahead_zero {s : State n} {t : Fin n} : ¬ Ahead t 0 s := by
  rintro ⟨-, j, hj, hj0, -⟩
  omega

theorem Ahead.mono {s : State n} {t : Fin n} {k l : ℕ} (h : Ahead t k s) (hkl : k ≤ l) :
    Ahead t l s := by
  obtain ⟨hr, j, hj, hjk, hjn, ht⟩ := h
  exact ⟨hr, j, hj, hjk.trans hkl, hjn, ht⟩

theorem Ahead.frame {s s' : State n} {t : Fin n} {k : ℕ} (h : Ahead t k s)
    (hr : s.runnable t = true → s'.runnable t = true) (hc : s'.cur = s.cur) : Ahead t k s' := by
  obtain ⟨hrun, j, hj, hjk, hjn, ht⟩ := h
  exact ⟨hr hrun, j, hj, hjk, hjn, by rw [hc, ht]⟩

theorem Ahead.exists_next {s : State n} {t : Fin n} {k : ℕ} (h : Ahead t k s) :
    ∃ next, (following s.cur).find? s.runnable = some next := by
  obtain ⟨hrun, j, hj, -, hjn, ht⟩ := h
  obtain ⟨next, -, hnext, -⟩ := find_following hj hjn ht hrun
  exact ⟨next, hnext⟩

/-- A selection is that of the task, or brings it closer to its turn. -/
theorem Ahead.select {s : State n} {t next : Fin n} {k : ℕ} (h : Ahead t (k + 1) s)
    (hnext : (following s.cur).find? s.runnable = some next) :
    next = t ∨ Ahead t k { s with cur := next } := by
  obtain ⟨hrun, j, hj, hjk, hjn, ht⟩ := h
  obtain ⟨idx, i, hfind, hi, hij, hidx⟩ := find_following hj hjn ht hrun
  obtain rfl : next = idx := Option.some.inj (hnext.symm.trans hfind)
  rcases Nat.lt_or_ge i j with hlt | hge
  · refine .inr ⟨hrun, j - i, by omega, by omega, by omega, ?_⟩
    change t.val = (next + (j - i)) % n
    rw [ht, hidx, Nat.mod_add_mod, Nat.add_assoc, Nat.add_sub_cancel' hij]
  · obtain rfl : i = j := le_antisymm hij hge
    exact .inl (Fin.ext (hidx.trans ht.symm))

/-- The distance to a task that stays runnable falls with every call that does not select it. -/
theorem calls_reach {fuel : ℕ} (hfuel : n ≤ fuel) {t : Fin n} : ∀ (vectors : List (Fin n → Bool))
    (cur : Fin n) (j : ℕ), 0 < j → j ≤ n → j ≤ vectors.length → t.val = (cur + j) % n →
    (∀ runnable ∈ vectors, runnable t = true) →
    ∃ rs, calls fuel vectors cur = some rs ∧ some t.val ∈ rs
  | [], _, _, hj, _, hlen, _, _ => absurd hlen (by simpa using hj.ne')
  | runnable :: rest, cur, j, hj, hjn, hlen, ht, hruns => by
    obtain ⟨hrun, hruns⟩ := List.forall_mem_cons.mp hruns
    obtain ⟨idx, k, hfind, hk, hkj, hidx⟩ := find_following hj hjn ht hrun
    have hcalls : calls fuel (runnable :: rest) cur =
        (calls fuel rest idx).map (some idx.val :: ·) := by
      simp [calls, schedGetNext_eq _ hfuel, hfind]
    rcases Nat.lt_or_ge k j with hlt | hge
    · rw [List.length_cons] at hlen
      obtain ⟨rs, hrs, hmem⟩ := calls_reach hfuel rest idx (j - k) (by omega) (by omega) (by omega)
        (by rw [ht, hidx, Nat.mod_add_mod, Nat.add_assoc, Nat.add_sub_cancel' hkj]) hruns
      exact ⟨some idx.val :: rs, by rw [hcalls, hrs]; rfl, List.mem_cons_of_mem _ hmem⟩
    · obtain rfl : k = j := le_antisymm hkj hge
      obtain ⟨rs, hrs⟩ := calls_isSome hfuel rest idx
      exact ⟨some idx.val :: rs, by rw [hcalls, hrs]; rfl, by simp [ht, hidx]⟩

/-- A task that stays runnable is selected within as many calls as there are tasks. -/
theorem calls_fair {fuel : ℕ} (hfuel : n ≤ fuel) (t : Fin n) {vectors : List (Fin n → Bool)}
    (hlen : vectors.length = n) (hruns : ∀ runnable ∈ vectors, runnable t = true) (cur : Fin n) :
    ∃ rs, calls fuel vectors cur = some rs ∧ some t.val ∈ rs := by
  obtain ⟨j, hj, hjn, ht⟩ := exists_add_mod cur t
  exact calls_reach hfuel vectors cur j hj hjn (hjn.trans hlen.ge) ht hruns

/-- Round-robin selection refines the reference model and is fair. -/
theorem schedGetNext_refines_fair (fuel : ℕ) (hfuel : n ≤ fuel) :
    (∀ s : State n, ∃ r s', schedGetNext fuel s = some (r, s') ∧
      RrSchedModel.getNext s.model = (r, s'.model)) ∧
    ∀ (t : Fin n) (vectors : List (Fin n → Bool)), vectors.length = n →
      (∀ runnable ∈ vectors, runnable t = true) → ∀ cur : Fin n,
        ∃ rs, calls fuel vectors cur = some rs ∧ some t.val ∈ rs :=
  ⟨fun s => schedGetNext_refines s hfuel, fun t _ hlen hruns => calls_fair hfuel t hlen hruns⟩

/-- With three tasks, the last has its turn although the others may become runnable before it. -/
theorem schedGetNext_refines_fair_three :
    ∃ rs, calls 3 [fun _ => true, fun t => t.val != 0, fun _ => true] (2 : Fin 3) = some rs ∧
      some 2 ∈ rs :=
  (schedGetNext_refines_fair 3 le_rfl).2 2 _ rfl (by decide) 2

end RoundRobin

end Echronos
