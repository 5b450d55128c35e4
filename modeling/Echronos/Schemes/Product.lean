import Mathlib.Data.Fin.Tuple.Basic
import Mathlib.Data.List.Nodup
import Mathlib.Data.List.FinRange

/-! # Tuples over a pool

    All tuples of a length with entries from a list, the last entry changing fastest. Each is listed
    once if the pool lists each entry once. -/

namespace Schemes

variable {α : Type*} {pool : List α}

/-- All tuples of length `n` over the pool. -/
def product (pool : List α) : (n : ℕ) → List (Fin n → α)
  | 0 => [Fin.elim0]
  | n + 1 => pool.flatMap fun x => (product pool n).map (Fin.cons x)

theorem mem_product : ∀ {n : ℕ} {f : Fin n → α}, f ∈ product pool n ↔ ∀ i, f i ∈ pool
  | 0, f => by simp [product, Subsingleton.elim f Fin.elim0]
  | n + 1, f => by
    simp only [product, List.mem_flatMap, List.mem_map]
    constructor
    · rintro ⟨x, hx, g, hg, rfl⟩ i
      cases i using Fin.cases with
      | zero => exact hx
      | succ i => exact mem_product.mp hg i
    · intro h
      exact ⟨f 0, h 0, Fin.tail f, mem_product.mpr fun i => h i.succ, Fin.cons_self_tail f⟩

theorem nodup_product (h : pool.Nodup) : ∀ n : ℕ, (product pool n).Nodup
  | 0 => List.nodup_singleton _
  | n + 1 => by
    refine List.nodup_flatMap.mpr ⟨fun x _ => ?_, ?_⟩
    · exact (nodup_product h n).map fun f g hfg => (Fin.cons_injective2 hfg).2
    · refine h.imp fun hxy f hx hy => ?_
      obtain ⟨g, -, rfl⟩ := List.mem_map.mp hx
      obtain ⟨g', -, hg⟩ := List.mem_map.mp hy
      exact hxy (Fin.cons_injective2 hg).1.symm

end Schemes
