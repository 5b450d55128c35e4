import Mathlib.Data.Set.Basic
import Mathlib.Logic.Function.Basic
import Mathlib.Algebra.Group.Nat.Defs

/-! # A memory of words

    Words of 32 bits lie at byte addresses, which wrap. The values of several registers are stored to
    and loaded from consecutive words. -/

namespace Schemes

abbrev Word := BitVec 32

/-- The address of the `i`-th word from `a` on. -/
def wordAt (a : Word) (i : ℕ) : Word := a + BitVec.ofNat 32 (4 * i)

/-- The addresses of `n` words. -/
def span (a : Word) (n : ℕ) : Set Word := {x | ∃ i < n, x = wordAt a i}

def storeWords (mem : Word → Word) (a : Word) : List Word → Word → Word
  | [] => mem
  | w :: ws => storeWords (Function.update mem a w) (wordAt a 1) ws

def loadWords (mem : Word → Word) (a : Word) : ℕ → List Word
  | 0 => []
  | n + 1 => mem a :: loadWords mem (wordAt a 1) n

variable {mem mem' : Word → Word} {a x : Word} {i j m n : ℕ} {ws : List Word}

@[simp] theorem wordAt_zero : wordAt a 0 = a := by simp [wordAt]

@[simp] theorem wordAt_wordAt : wordAt (wordAt a i) j = wordAt a (i + j) := by
  simp [wordAt, Nat.mul_add, BitVec.ofNat_add, BitVec.add_assoc]

theorem wordAt_sub : wordAt a (i + n) - BitVec.ofNat 32 (4 * n) = wordAt a i := by
  rw [← wordAt_wordAt, wordAt, BitVec.add_sub_cancel]

theorem toNat_wordAt (h : a.toNat + 4 * i < 2 ^ 32) : (wordAt a i).toNat = a.toNat + 4 * i := by
  rw [wordAt, BitVec.toNat_add, BitVec.toNat_ofNat]
  omega

/-- Fewer than 2³⁰ words do not wrap around. -/
theorem wordAt_inj (hi : i < 2 ^ 30) (hj : j < 2 ^ 30) : wordAt a i = wordAt a j ↔ i = j := by
  refine ⟨fun h => ?_, fun h => h ▸ rfl⟩
  have h := congrArg BitVec.toNat h
  simp only [wordAt, BitVec.toNat_add, BitVec.toNat_ofNat] at h
  omega

theorem wordAt_mem_span (h : i < n) : wordAt a i ∈ span a n := ⟨i, h, rfl⟩

theorem span_wordAt_subset (h : i + m ≤ n) : span (wordAt a i) m ⊆ span a n := by
  rintro x ⟨j, hj, rfl⟩
  exact ⟨i + j, by omega, wordAt_wordAt⟩

/-- The addresses of words that do not wrap around. -/
theorem toNat_of_mem_span (h : a.toNat + 4 * n ≤ 2 ^ 32) (hx : x ∈ span a n) :
    a.toNat ≤ x.toNat ∧ x.toNat < a.toNat + 4 * n := by
  obtain ⟨i, hi, rfl⟩ := hx
  rw [toNat_wordAt (by omega)]
  omega

theorem storeWords_of_notMem : ∀ {ws : List Word} {mem : Word → Word} {a : Word},
    x ∉ span a ws.length → storeWords mem a ws x = mem x
  | [], _, _, _ => rfl
  | w :: ws, mem, a, h => by
    have hx : x ≠ a := fun h' => h ⟨0, by simp, by rw [h', wordAt_zero]⟩
    have hrest : x ∉ span (wordAt a 1) ws.length := fun h' =>
      h (span_wordAt_subset (by simp [Nat.add_comm]) h')
    rw [storeWords, storeWords_of_notMem hrest, Function.update_of_ne hx]

@[simp] theorem length_loadWords : ∀ {n : ℕ} {a : Word}, (loadWords mem a n).length = n
  | 0, _ => rfl
  | _ + 1, _ => by rw [loadWords, List.length_cons, length_loadWords]

theorem getElem?_loadWords : ∀ {n i : ℕ} {a : Word}, i < n →
    (loadWords mem a n)[i]? = some (mem (wordAt a i))
  | _ + 1, 0, a, _ => by rw [loadWords, List.getElem?_cons_zero, wordAt_zero]
  | n + 1, i + 1, a, h => by
    rw [loadWords, List.getElem?_cons_succ, getElem?_loadWords (Nat.lt_of_succ_lt_succ h),
      wordAt_wordAt, Nat.add_comm]

theorem loadWords_congr : ∀ {n : ℕ} {a : Word}, (∀ x ∈ span a n, mem x = mem' x) →
    loadWords mem a n = loadWords mem' a n
  | 0, _, _ => rfl
  | n + 1, a, h => by
    rw [loadWords, loadWords, h a ⟨0, by omega, wordAt_zero.symm⟩,
      loadWords_congr fun x hx => h x (span_wordAt_subset (by omega) hx)]

theorem loadWords_storeWords : ∀ {ws : List Word} {mem : Word → Word} {a : Word},
    ws.length ≤ 2 ^ 30 → loadWords (storeWords mem a ws) a ws.length = ws
  | [], _, _, _ => rfl
  | w :: ws, mem, a, h => by
    have ha : a ∉ span (wordAt a 1) ws.length := by
      rintro ⟨i, hi, hai⟩
      rw [List.length_cons] at h
      rw [wordAt_wordAt] at hai
      have := (wordAt_inj (i := 0) (j := 1 + i) (by omega) (by omega)).mp (by rwa [wordAt_zero])
      omega
    rw [List.length_cons, storeWords, loadWords, storeWords_of_notMem ha, Function.update_self,
      loadWords_storeWords (by rw [List.length_cons] at h; omega)]

theorem take_loadWords : ∀ {n m : ℕ} {a : Word}, m ≤ n → (loadWords mem a n).take m = loadWords mem a m
  | _, 0, _, _ => List.take_zero
  | n + 1, m + 1, a, h => by
    rw [loadWords, List.take_succ_cons, take_loadWords (Nat.le_of_succ_le_succ h), loadWords]

theorem drop_loadWords : ∀ {n i : ℕ} {a : Word},
    (loadWords mem a (i + n)).drop i = loadWords mem (wordAt a i) n
  | n, 0, a => by rw [List.drop_zero, wordAt_zero, Nat.zero_add]
  | n, i + 1, a => by
    rw [Nat.add_right_comm, loadWords, List.drop_succ_cons, drop_loadWords, wordAt_wordAt, Nat.add_comm 1]

/-- Several registers are set, each to the value in its place. -/
def setAll {ι α : Type*} [DecidableEq ι] (f : ι → α) : List ι → List α → ι → α
  | i :: is, v :: vs => setAll (Function.update f i v) is vs
  | _, _ => f

section SetAll

variable {ι α : Type*} [DecidableEq ι]

theorem setAll_of_notMem {i : ι} : ∀ {is : List ι} {vs : List α} {f : ι → α}, i ∉ is →
    setAll f is vs i = f i
  | [], _, _, _ => rfl
  | _ :: _, [], _, _ => rfl
  | j :: is, v :: vs, f, h => by
    obtain ⟨hij, his⟩ := List.ne_and_not_mem_of_not_mem_cons h
    rw [setAll, setAll_of_notMem his, Function.update_of_ne hij]

theorem map_setAll : ∀ {is : List ι} {vs : List α} {f : ι → α}, is.Nodup → is.length = vs.length →
    is.map (setAll f is vs) = vs
  | [], [], _, _, _ => rfl
  | i :: is, v :: vs, f, hnodup, hlength => by
    obtain ⟨hi, his⟩ := List.nodup_cons.mp hnodup
    rw [setAll, List.map_cons, setAll_of_notMem hi, Function.update_self,
      map_setAll his (Nat.succ.inj hlength)]

end SetAll

end Schemes
