import Echronos.Kernel.Steps
import Echronos.Variants.Variant

/-! # Semaphores as counts of tokens

    The value of a semaphore is the number of posts less the number of successful waits, until a post
    finds the largest value of its type: where no maximum is enforced, `value++` then starts again
    from zero, and the tokens are gone. -/

namespace Echronos

open Schemes

variable {c : Config} {S : Sched c.tasks c.mutexes}

/-- A completed `sem_post`. -/
def Event.isPosted (i : c.SemId) : Event c → Bool
  | .posted _ j => j = i
  | _ => false

/-- A successful wait. -/
def Event.isTook (i : c.SemId) : Event c → Bool
  | .took _ j => j = i
  | _ => false

namespace State

open Echronos.Core

def posts (i : c.SemId) (s : State c S) : ℕ := s.core.history.countP (Event.isPosted i)

def takes (i : c.SemId) (s : State c S) : ℕ := s.core.history.countP (Event.isTook i)

def Conserved (s : State c S) : Prop :=
  ∀ i, (s.semaphores i).value.toNat + s.takes i = s.posts i

/-- Two histories agree about posts and successful waits. -/
def SameTokens (h h' : List (Event c)) : Prop :=
  ∀ i, h'.filter (Event.isPosted i) = h.filter (Event.isPosted i) ∧
    h'.filter (Event.isTook i) = h.filter (Event.isTook i)

variable {s s' : State c S} {i : c.SemId}

theorem Conserved.frame (hs : s.Conserved)
    (hvalue : ∀ i, (s'.semaphores i).value = (s.semaphores i).value)
    (hhist : SameTokens s.core.history s'.core.history) : s'.Conserved := by
  intro i
  have hi := hs i
  rw [takes, posts, List.countP_eq_length_filter, List.countP_eq_length_filter] at hi ⊢
  rw [hvalue i, (hhist i).1, (hhist i).2, hi]

/-- Sending signals posts and takes nothing. -/
theorem sameTokens_of_wakes {k k' : Core c S} (h : Wakes ∅ k k') : SameTokens k.history k'.history := by
  refine fun i => ⟨h.filter_history (fun e he => ?_) fun e he => ?_,
    h.filter_history (fun e he => ?_) fun e he => ?_⟩
  all_goals cases e <;> simp_all [Event.isPosted, Event.isTook, Event.Of, Event.component, Event.isSignal]

theorem toNat_sub_one {w : ℕ} {v : BitVec w} (hv : v ≠ 0) : (v - 1).toNat + 1 = v.toNat := by
  have hpos : v.toNat ≠ 0 := fun h => hv (BitVec.eq_of_toNat_eq (by simpa))
  have hlt := v.isLt
  have hone : (1 : BitVec w).toNat = 1 :=
    (BitVec.toNat_ofNat 1 w).trans (Nat.mod_eq_of_lt (by omega))
  rw [BitVec.toNat_sub_of_le (BitVec.le_def.mpr (by omega)), hone]
  omega

/-- Incrementing stays within the type, but at its largest value. -/
theorem toNat_add_one {w : ℕ} {v : BitVec w} (hv : v ≠ BitVec.allOnes w) :
    (v + 1).toNat = v.toNat + 1 := by
  have hne : v.toNat ≠ 2 ^ w - 1 := fun h => hv (BitVec.eq_of_toNat_eq (by simpa))
  have hlt := v.isLt
  have hone : (1 : BitVec w).toNat = 1 :=
    (BitVec.toNat_ofNat 1 w).trans (Nat.mod_eq_of_lt (by omega))
  rw [BitVec.toNat_add, hone, Nat.mod_eq_of_lt (by omega)]

theorem Conserved.take (hs : s.Conserved) (hv : (s.semaphores i).value ≠ 0) :
    (internalSemTryWait i s).2.Conserved := by
  rw [internalSemTryWait_of_ne hv]
  intro j
  have hj := hs j
  by_cases hji : j = i
  · subst hji
    have hsub := toNat_sub_one hv
    simp only [takes, posts, record, List.countP_cons, Event.isTook, Event.isPosted,
      Function.update_self, decide_true, if_true, Bool.false_eq_true, if_false] at hj ⊢
    omega
  · simpa [takes, posts, record, Event.isTook, Event.isPosted, hji, Ne.symm hji] using hj

/-- A post adds a token unless the value is the largest of its type. -/
theorem Conserved.post (hs : s.Conserved)
    (hmax : c.semaphoreEnableMax → (s.semaphores i).value < (s.semaphores i).max)
    (hv : (s.semaphores i).value ≠ BitVec.allOnes _) : (semPost i s).Conserved := by
  rw [semPost_eq hmax]
  intro j
  have hwake : SameTokens s.core.history (if (s.semaphores i).value = 0 then
      wakeWaiters i s.semWaiters s.core else (s.semWaiters, s.core)).2.history := by
    split
    · exact sameTokens_of_wakes (wakeWaiters_wakes i s.semWaiters s.core)
    · exact fun _ => ⟨rfl, rfl⟩
  have hold : Conserved { s with core := (if (s.semaphores i).value = 0 then
      wakeWaiters i s.semWaiters s.core else (s.semWaiters, s.core)).2 } :=
    hs.frame (fun _ => rfl) hwake
  have hj := hold j
  by_cases hji : j = i
  · subst hji
    have hadd := toNat_add_one hv
    simp only [takes, posts, record, List.countP_cons, Event.isTook, Event.isPosted,
      Function.update_self, decide_true, if_true, Bool.false_eq_true, if_false] at hj ⊢
    omega
  · simpa [takes, posts, record, Event.isTook, Event.isPosted, hji, Ne.symm hji] using hj

/-- Every piece but a post. -/
theorem Conserved.piece {x : Service c} (h : Piece x s s') (hx : ∀ i, x ≠ .semPost i)
    (hs : s.Conserved) : s'.Conserved := by
  by_cases hc : x.component = .sem
  · cases h with
    | semTake i _ hv => exact hs.take hv
    | semWait i => exact hs.frame (fun _ => rfl) fun _ => by simp [waitTaskTimer, onCore, semRegister]
    | semWaitTimeout i d =>
      obtain ⟨k, hk, he | he⟩ := blockTimeout_cases (semRegister i s) none (s.remaining d)
        (.semWaitTimeout i d)
      · rw [he]
        exact hs.frame (fun _ => rfl) (sameTokens_of_wakes hk)
      · rw [he]
        refine hs.frame (fun _ => rfl) fun j => ?_
        rw [signalWaitSet_history]
        exact sameTokens_of_wakes hk j
    | semPost i => exact absurd rfl (hx i)
    | semMaxStore i max =>
      refine hs.frame (fun j => ?_) fun j => by
        simp [semMaxStore, record, Event.isPosted, Event.isTook]
      by_cases hji : j = i
      · subst hji
        simp [semMaxStore]
      · simp [semMaxStore, hji]
    | mutexAcquire _ m hl => exact absurd ((component_of_locks hl).symm.trans hc) (by decide)
    | _ => cases hc
  · obtain ⟨hsem, -⟩ := h.semaphores hc
    refine hs.frame (fun j => by rw [hsem]) fun j => ⟨?_, ?_⟩
    · refine h.filter_history hc fun e he => ?_
      cases e <;> simp_all [Event.isPosted, Event.component]
    · refine h.filter_history hc fun e he => ?_
      cases e <;> simp_all [Event.isTook, Event.component]

/-! ### Runs -/

/-- Where no maximum is enforced, `sem_post` does not find the largest value of the type. -/
def NoWrap : Act c → State c S → Prop
  | .call (.sem (.post i)), s =>
    c.semaphoreEnableMax = true ∨ (s.semaphores i).value ≠ BitVec.allOnes _
  | _, _ => True

/-- Only `sem_post` executes its code. -/
theorem service_eq_semPost {a : Act c} (h : s.service a = .semPost i) :
    a = .call (.sem (.post i)) := by
  obtain ⟨f, rfl, hf⟩ := exists_call_of_service h nofun (fun e => by cases e <;> nofun)
    fun cont => by cases cont <;> nofun
  rcases f with f | f | f | f <;> (cases f <;> cases hf)
  rfl

theorem Conserved.step {a : Act c} (hs : s.Conserved) (hstep : State.step a s = some s')
    (ha : NoWrap a s) : s'.Conserved := by
  by_cases hpost : ∃ i, a = .call (.sem (.post i))
  · obtain ⟨i, rfl⟩ := hpost
    obtain ⟨-, h⟩ := Option.ite_none_left_eq_some.mp hstep
    obtain ⟨-, h⟩ := Option.ite_none_right_eq_some.mp h
    obtain ⟨-, ⟨⟩⟩ := Option.ite_none_left_eq_some.mp h
    by_cases hfull : c.semaphoreEnableMax ∧ (s.semaphores i).max ≤ (s.semaphores i).value
    · rw [semPost, if_pos hfull]
      exact hs.frame (fun _ => rfl) fun _ => ⟨rfl, rfl⟩
    · have hmax : c.semaphoreEnableMax → (s.semaphores i).value < (s.semaphores i).max :=
        fun hm => by simpa using fun hle => hfull ⟨hm, hle⟩
      refine hs.post hmax ?_
      rcases ha with hm | hv
      · -- an enforced maximum keeps the value below the largest one
        intro hall
        have hlt := BitVec.lt_def.mp (hmax hm)
        rw [hall, BitVec.toNat_allOnes] at hlt
        have hle := (s.semaphores i).max.isLt
        omega
      · exact hv
  · refine (step_pieces hstep).invariant (fun y t t' hy hp => .piece hp fun i hi => ?_) hs
    rcases hy with rfl | rfl
    · cases hi
    · exact hpost ⟨i, service_eq_semPost hi⟩

theorem ReachedBy.conserved (h : s.ReachedBy NoWrap) : s.Conserved := by
  obtain ⟨memory, h⟩ := h
  refine h.invariant (fun i => ?_) fun s a s' _ hs ha hstep => hs.step hstep ha
  simp [State.start, Core.start, takes, posts]

end State

open State

/-- While no post finds the largest value of the type, a semaphore's value is the number of posts
    less the number of successful waits, and a wait fails only if these are equal. -/
theorem semaphores_conserved (v : Variant c) (s : State c v.sched) (h : s.ReachedBy NoWrap)
    (i : c.SemId) : (s.semaphores i).value.toNat + s.takes i = s.posts i ∧
      ((internalSemTryWait i s).1 = false ↔ s.takes i = s.posts i) := by
  have hs := h.conserved i
  refine ⟨hs, ?_⟩
  have hzero : (s.semaphores i).value = 0 ↔ (s.semaphores i).value.toNat = 0 := by
    simp [← BitVec.toNat_inj]
  unfold internalSemTryWait
  by_cases hv : (s.semaphores i).value = 0
  · have h0 := hzero.mp hv
    simp only [hv, if_true, true_iff]
    omega
  · have h0 := mt hzero.mpr hv
    simp only [hv, if_false, Bool.true_eq_false, false_iff]
    omega

/-- A task posts twice and takes once. -/
theorem semaphores_conserved_posted :
    ∃ s : State (.plain 1 0 1 0 true false Nat.one_pos) Variant.kochab.sched,
      s.posts 0 = 2 ∧ (s.semaphores 0).value.toNat + s.takes 0 = s.posts 0 := by
  obtain ⟨s, hs, hp⟩ := exists_reachedBy_of_run
    (c := .plain 1 0 1 0 true false Nat.one_pos) (S := Variant.kochab.sched) NoWrap
    (fun _ s => (s.semaphores 0).value ≠ BitVec.allOnes _)
    [.call (.sem (.post 0)), .call (.sem (.post 0)), .call (.sem (.tryWait 0))]
    (fun s => s.posts 0 = 2) (by simp [NoWrap]) (by decide +kernel)
  exact ⟨s, of_decide_eq_true hp, (semaphores_conserved .kochab s hs 0).1⟩

/-- After as many posts as there are values, the value is `0` again. -/
theorem semaphores_wrap :
    ¬ ∀ s : State (.plain 1 0 1 0 true false Nat.one_pos) (kochabSched 1 0),
      s.Reached → s.Conserved := by
  intro hconserved
  obtain ⟨s, hs, hp⟩ := exists_reached_of_run
    (c := .plain 1 0 1 0 true false Nat.one_pos) (S := kochabSched 1 0)
    (.replicate 256 (.call (.sem (.post 0))))
    (fun s => (s.semaphores 0).value = 0 ∧ s.takes 0 = 0 ∧ s.posts 0 = 256) (by decide +kernel)
  obtain ⟨hvalue, htakes, hposts⟩ := of_decide_eq_true hp
  have hsum := hconserved s hs 0
  rw [hvalue, htakes, hposts] at hsum
  exact absurd hsum (by decide)

end Echronos
