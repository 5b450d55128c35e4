import Echronos.Schemes.Memory
import Mathlib.Data.List.Induction

/-! # The tasks' stacks and contexts in memory

    A component `stack-*` defines an array of words for each task, and component `task` an array of
    `struct task`, whose only member is the pointer `ctx` to the saved context of a task. -/

namespace Echronos

open Schemes

structure Stacks (tasks : ℕ) where
  /-- `stack_<idx>` and its length in words. -/
  stack : Fin tasks → Word
  stackSize : Fin tasks → ℕ
  /-- `rtos_internal_tasks` -/
  contexts : Word
  stack_aligned (t : Fin tasks) : (stack t).toNat % 4 = 0
  contexts_aligned : contexts.toNat % 4 = 0
  stack_fits (t : Fin tasks) : (stack t).toNat + 4 * stackSize t ≤ 2 ^ 32
  contexts_fits : contexts.toNat + 4 * tasks ≤ 2 ^ 32
  stack_disjoint {t u : Fin tasks} (x : Word) : t ≠ u → x ∈ span (stack t) (stackSize t) →
    x ∉ span (stack u) (stackSize u)
  contexts_disjoint (t : Fin tasks) (x : Word) : x ∈ span contexts tasks →
    x ∉ span (stack t) (stackSize t)

namespace Stacks

variable {tasks : ℕ} (L : Stacks tasks) {t u : Fin tasks} {k n : ℕ} {x : Word}

/-- `get_task_context` -/
def getTaskContext (t : Fin tasks) : Word := wordAt L.contexts t

/-- A word of a task's stack. -/
def word (t : Fin tasks) (k : ℕ) : Word := wordAt (L.stack t) k

/-- The context of a task is saved: `n` words from the `k`-th of its stack on, to which `ctx` points. -/
structure HoldsFrame (n : ℕ) (t : Fin tasks) (k : ℕ) (ws : List Word) (mem : Word → Word) : Prop where
  le : k + n ≤ L.stackSize t
  context : mem (L.getTaskContext t) = L.word t k
  words : loadWords mem (L.word t k) n = ws

/-- Code that leaves the saved contexts of the other tasks alone. -/
def Spares (n : ℕ) (t : Fin tasks) (mem mem' : Word → Word) : Prop :=
  ∀ u ≠ t, mem' (L.getTaskContext u) = mem (L.getTaskContext u) ∧
    ∀ x ∈ span (mem (L.getTaskContext u)) n, mem' x = mem x

variable {L}

theorem getTaskContext_inj : L.getTaskContext t = L.getTaskContext u ↔ t = u := by
  have := L.contexts_fits
  rw [getTaskContext, getTaskContext, wordAt_inj (by omega) (by omega), Fin.val_inj]

theorem getTaskContext_aligned : (L.getTaskContext t).toNat % 4 = 0 := by
  have := L.contexts_fits
  have := L.contexts_aligned
  rw [getTaskContext, toNat_wordAt (by omega)]
  omega

theorem getTaskContext_notMem_stack : L.getTaskContext t ∉ span (L.stack u) (L.stackSize u) :=
  L.contexts_disjoint u _ (wordAt_mem_span t.isLt)

theorem stackSize_le : L.stackSize t ≤ 2 ^ 30 := by
  have := L.stack_fits t
  omega

theorem word_aligned : (L.word t k).toNat % 4 = 0 := by
  have := L.stack_aligned t
  rw [word, wordAt, BitVec.toNat_add, BitVec.toNat_ofNat]
  omega

theorem span_word_subset (h : k + n ≤ L.stackSize t) :
    span (L.word t k) n ⊆ span (L.stack t) (L.stackSize t) := span_wordAt_subset h

namespace HoldsFrame

variable {mem mem' : Word → Word} {ws : List Word}

theorem spares (h : L.HoldsFrame n u k ws mem) (hspares : L.Spares n t mem mem') (hut : u ≠ t) :
    L.HoldsFrame n u k ws mem' where
  le := h.le
  context := (hspares u hut).1.trans h.context
  words := by
    rw [← h.words]
    exact loadWords_congr fun x hx => (hspares u hut).2 x (by rwa [h.context])

/-- What a task writes to its own stack and context leaves those of the others alone. -/
theorem spares_of_own (hmem : ∀ x ∉ span (L.stack t) (L.stackSize t), x ≠ L.getTaskContext t →
    mem' x = mem x) (hut : u ≠ t) (h : L.HoldsFrame n u k ws mem) : L.HoldsFrame n u k ws mem' where
  le := h.le
  context := by
    rw [hmem _ getTaskContext_notMem_stack (getTaskContext_inj.not.mpr hut), h.context]
  words := by
    rw [← h.words]
    refine loadWords_congr fun x hx => ?_
    have hx := span_word_subset h.le hx
    refine hmem x (L.stack_disjoint x hut hx) ?_
    rintro rfl
    exact getTaskContext_notMem_stack hx

/-- Every task's context is prepared by code that writes to its own stack and context. -/
theorem foldl {f : Fin tasks → (Word → Word) → Word → Word} {k : Fin tasks → ℕ}
    {Q : Fin tasks → List Word → Prop}
    (hown : ∀ t mem, ∀ x ∉ span (L.stack t) (L.stackSize t), x ≠ L.getTaskContext t →
      f t mem x = mem x)
    (hinit : ∀ t mem, ∃ ws, L.HoldsFrame n t (k t) ws (f t mem) ∧ Q t ws) (ts : List (Fin tasks))
    (ht : t ∈ ts) : ∃ ws, L.HoldsFrame n t (k t) ws (ts.foldl (fun mem t => f t mem) mem) ∧ Q t ws := by
  induction ts using List.reverseRecOn with
  | nil => exact absurd ht List.not_mem_nil
  | append_singleton ts u ih =>
    rw [List.foldl_append, List.foldl_cons, List.foldl_nil]
    by_cases htu : t = u
    · subst htu
      exact hinit t _
    · have ht : t ∈ ts := by simpa [htu] using ht
      obtain ⟨ws, hws, hQ⟩ := ih ht
      exact ⟨ws, hws.spares_of_own (hown u _) htu, hQ⟩

end HoldsFrame

end Stacks

/-- Two stacks of 64 words. -/
def twoStacks : Stacks 2 where
  stack t := BitVec.ofNat 32 (0x20000000 + 256 * t.val)
  stackSize _ := 64
  contexts := 0x20001000
  stack_aligned t := by
    have := t.isLt
    rw [BitVec.toNat_ofNat]
    omega
  contexts_aligned := by decide
  stack_fits t := by
    have := t.isLt
    rw [BitVec.toNat_ofNat]
    omega
  contexts_fits := by decide
  stack_disjoint {t u} x htu ht hu := by
    have := t.isLt
    have := u.isLt
    have hne : t.val ≠ u.val := Fin.val_ne_of_ne htu
    have ht := toNat_of_mem_span (by rw [BitVec.toNat_ofNat]; omega) ht
    have hu := toNat_of_mem_span (by rw [BitVec.toNat_ofNat]; omega) hu
    rw [BitVec.toNat_ofNat] at ht hu
    omega
  contexts_disjoint t x ht hu := by
    have := t.isLt
    have hcontexts : (0x20001000 : Word).toNat = 0x20001000 := by decide
    have ht := toNat_of_mem_span (by decide) ht
    have hu := toNat_of_mem_span (by rw [BitVec.toNat_ofNat]; omega) hu
    rw [BitVec.toNat_ofNat] at hu
    omega

end Echronos
