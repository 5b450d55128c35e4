import Echronos.Kernel.Config

/-! # Component `sched-rr`, the scheduler of Rigel

    Round-robin selection, built with `assume_runnable` false. -/

namespace Echronos.RoundRobin

variable {n : ℕ}

structure State (n : ℕ) where
  cur : Fin n
  runnable : Fin n → Bool

/-- `sched_next_index`: the index after `cur`, wrapping after the last one. -/
def schedNextIndex (cur : Fin n) : Fin n :=
  if h : cur.val + 1 < n then ⟨cur.val + 1, h⟩ else ⟨0, cur.pos⟩

/-- `sched_max_index` -/
def schedMaxIndex (cur : Fin n) : Fin n := ⟨n - 1, Nat.sub_lt cur.pos Nat.one_pos⟩

/-- The `do`-`while` loop: whether a runnable task was found, and the last index looked at. -/
def loop (s : State n) : ℕ → Fin n → Option (Bool × Fin n)
  | 0, _ => none
  | fuel + 1, next =>
    let next := schedNextIndex next
    if s.runnable next = false ∧ next ≠ s.cur then loop s fuel next
    else some (s.runnable next, next)

/-- `sched_get_next` -/
def schedGetNext (fuel : ℕ) (s : State n) : Option (Option ℕ × State n) :=
  match loop s fuel s.cur with
  | none => none
  | some (true, next) => some (some next, { s with cur := next })
  | some (false, _) => some (none, { s with cur := schedMaxIndex s.cur })

def schedSetRunnable (t : Fin n) (s : State n) : State n :=
  { s with runnable := Function.update s.runnable t true }

def schedSetBlocked (t : Fin n) (s : State n) : State n :=
  { s with runnable := Function.update s.runnable t false }

def link (s : State n) (t : Fin n) : Option (Fin n) := if s.runnable t then some t else none

theorem link_schedSetRunnable (t : Fin n) (s : State n) :
    link (schedSetRunnable t s) = Function.update (link s) t (some t) := by
  funext u
  by_cases h : u = t
  · subst h; simp [link, schedSetRunnable]
  · simp [link, schedSetRunnable, h]

theorem link_schedSetBlocked (t : Fin n) (s : State n) :
    link (schedSetBlocked t s) = Function.update (link s) t none := by
  funext u
  by_cases h : u = t
  · subst h; simp [link, schedSetBlocked]
  · simp [link, schedSetBlocked, h]

/-- Selection only moves the current index. -/
theorem link_schedGetNext (fuel : ℕ) (s : State n) (r : Option ℕ × State n)
    (h : schedGetNext fuel s = some r) : link r.2 = link s := by
  unfold schedGetNext at h
  split at h
  · cases h
  · obtain rfl := Option.some.inj h; rfl
  · obtain rfl := Option.some.inj h; rfl

theorem val_schedNextIndex (cur : Fin n) : (schedNextIndex cur).val = (cur + 1) % n := by
  unfold schedNextIndex
  split_ifs with h
  · exact (Nat.mod_eq_of_lt h).symm
  · have hn : cur.val + 1 = n := by omega
    rw [hn, Nat.mod_self]

/-- Every index lies between the one after `cur` and `cur`, going round. -/
theorem exists_add_mod (cur t : Fin n) : ∃ j, 0 < j ∧ j ≤ n ∧ t.val = (cur + j) % n := by
  by_cases h : cur < t
  · refine ⟨t - cur, by omega, by omega, ?_⟩
    rw [Nat.add_sub_of_le (le_of_lt h), Nat.mod_eq_of_lt t.isLt]
  · refine ⟨n + t - cur, by omega, by omega, ?_⟩
    have : cur.val + (n + t - cur) = t + n := by omega
    rw [this, Nat.add_mod_right, Nat.mod_eq_of_lt t.isLt]

/-- Only after all steps does one get back to where one started. -/
theorem eq_of_add_mod {cur : Fin n} {k : ℕ} (hk : k < n) (h : (cur + (k + 1)) % n = cur) :
    k + 1 = n := by
  rcases Nat.lt_or_ge (cur + (k + 1)) n with hlt | hge
  · rw [Nat.mod_eq_of_lt hlt] at h
    omega
  · by_contra hne
    rw [Nat.mod_eq_sub_mod hge, Nat.mod_eq_of_lt (by omega)] at h
    omega

/-- The loop reports whether the last index it looked at is runnable, and reports that it is not
    only after it has gone round all of them. -/
theorem loop_result {s : State n} {b : Bool} {last : Fin n} : ∀ (fuel : ℕ) (next : Fin n) (k : ℕ),
    k < n → next.val = (s.cur + k) % n →
    (∀ t : Fin n, ∀ j, 0 < j → j ≤ k → t.val = (s.cur + j) % n → s.runnable t = false) →
    loop s fuel next = some (b, last) →
    s.runnable last = b ∧ (b = false → ∀ t, s.runnable t = false)
  | 0, _, _, _, _, _, h => by simp [loop] at h
  | fuel + 1, next, k, hk, hnext, hseen, h => by
    have hval : (schedNextIndex next).val = (s.cur + (k + 1)) % n := by
      rw [val_schedNextIndex, hnext, Nat.mod_add_mod, Nat.add_assoc]
    have hseen' (hnot : s.runnable (schedNextIndex next) = false) (t : Fin n) (j : ℕ) (hj : 0 < j)
        (hjk : j ≤ k + 1) (ht : t.val = (s.cur + j) % n) : s.runnable t = false := by
      rcases Nat.lt_or_ge k j with hkj | hkj
      · obtain rfl : j = k + 1 := by omega
        have : t = schedNextIndex next := Fin.ext (ht.trans hval.symm)
        rw [this, hnot]
      · exact hseen t j hj hkj ht
    simp only [loop] at h
    split_ifs at h with hgo
    · -- the next index is not `cur`, so the loop has not gone round yet
      refine loop_result fuel _ (k + 1) ?_ hval (hseen' hgo.1) h
      by_contra hend
      obtain rfl : k + 1 = n := by omega
      exact hgo.2 (Fin.ext (by rw [hval, Nat.add_mod_right, Nat.mod_eq_of_lt s.cur.isLt]))
    · obtain ⟨rfl, rfl⟩ : _ ∧ _ := by simpa using h
      refine ⟨rfl, fun hfalse t => ?_⟩
      have hcur : schedNextIndex next = s.cur := by
        by_contra hne
        exact hgo ⟨hfalse, hne⟩
      have hround : (s.cur + (k + 1)) % n = s.cur := by rw [← hval, hcur]
      have hkn := eq_of_add_mod hk hround
      obtain ⟨j, hj, hjn, ht⟩ := exists_add_mod s.cur t
      exact hseen' hfalse t j hj (by omega) ht

theorem runnable_of_schedGetNext {fuel next : ℕ} {s s' : State n}
    (h : schedGetNext fuel s = some (some next, s')) : ∃ t : Fin n, next = t ∧ link s' t = some t := by
  unfold schedGetNext at h
  split at h
  · cases h
  · rename_i last hloop
    obtain ⟨rfl, rfl⟩ : _ ∧ _ := by simpa using h
    obtain ⟨hrun, -⟩ := loop_result fuel s.cur 0 s.cur.pos (by simp [Nat.mod_eq_of_lt]) (by omega) hloop
    exact ⟨last, rfl, by simp [link, hrun]⟩
  · cases h

theorem not_runnable_of_schedGetNext {fuel : ℕ} {s s' : State n}
    (h : schedGetNext fuel s = some (none, s')) (t : Fin n) : link s' t = none := by
  unfold schedGetNext at h
  split at h
  · cases h
  · cases h
  · rename_i last hloop
    obtain rfl : _ = s' := by simpa using h
    obtain ⟨-, hnone⟩ := loop_result fuel s.cur 0 s.cur.pos (by simp [Nat.mod_eq_of_lt]) (by omega) hloop
    simp [link, hnone rfl t]

end RoundRobin

/-- The scheduler of Rigel. -/
def rigelSched (tasks mutexes : ℕ) (pos : 0 < tasks) : Sched tasks mutexes where
  State := RoundRobin.State tasks
  start := ⟨⟨0, pos⟩, fun _ => true⟩
  schedSetRunnable := RoundRobin.schedSetRunnable
  schedSetBlockedOn t _ := RoundRobin.schedSetBlocked t
  schedSetMutexLockedBy _ _ s := s
  schedSetMutexUnlocked _ s := s
  schedGetNext := RoundRobin.schedGetNext
  inherits := false
  link := RoundRobin.link
  link_start _ := rfl
  link_setRunnable := RoundRobin.link_schedSetRunnable
  link_setBlockedOn t _ s := RoundRobin.link_schedSetBlocked t s
  link_setMutexLockedBy _ _ _ := rfl
  link_setMutexUnlocked _ _ := rfl
  link_getNext := RoundRobin.link_schedGetNext

end Echronos
