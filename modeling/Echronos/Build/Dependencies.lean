import Mathlib.Data.Finset.Lattice.Lemmas
import Mathlib.Data.Finset.SDiff

/-! # Sorting by dependencies, as `pylib/components.py` does it

    A node may be yielded once the labels it requires are provided by nodes yielded before it. The
    generator yields the first such node, as long as there is one. It can do no harm by this: what is
    provided only grows, so a node that may be yielded now may still be yielded later. -/

namespace Echronos.Build

/-- `_UnresolvableDependencyError`, with what its message names. -/
inductive UnresolvableDependencyError (Node Label : Type*)
  /-- "The nodes {} have the unresolvable dependencies {}." -/
  | unresolvable (todo : List Node) (dependencies : Finset Label)
  /-- "The dependencies of the nodes {} cannot be resolved." -/
  | unresolved (todo : List Node)

variable {Node Label : Type*} [DecidableEq Label] (provides requires : Node → List Label)

/-- `set(node.requires).issubset(provided)` -/
def IsReady (provided : Finset Label) (node : Node) : Prop := (requires node).toFinset ⊆ provided

instance (provided : Finset Label) : DecidablePred (IsReady requires provided) :=
  fun node => inferInstanceAs (Decidable ((requires node).toFinset ⊆ provided))

/-- The loop over `enumerate(todo)`: the node it stops at and what `del todo[idx]` leaves. -/
def takeReady (provided : Finset Label) : List Node → Option (Node × List Node)
  | [] => none
  | node :: todo =>
    if IsReady requires provided node then some (node, todo)
    else (takeReady provided todo).map fun r => (r.1, node :: r.2)

variable {provides requires} {provided provided' : Finset Label} {node : Node} {todo todo' : List Node}

theorem takeReady_eq_none :
    takeReady requires provided todo = none ↔ ∀ node ∈ todo, ¬ IsReady requires provided node := by
  induction todo with
  | nil => simp [takeReady]
  | cons node todo ih =>
    rw [takeReady, List.forall_mem_cons]
    split_ifs with h
    · simp [h]
    · simp [h, ih]

theorem takeReady_eq_some (h : takeReady requires provided todo = some (node, todo')) :
    IsReady requires provided node ∧ todo.Perm (node :: todo') := by
  induction todo generalizing todo' with
  | nil => cases h
  | cons first todo ih =>
    rw [takeReady] at h
    split_ifs at h with hready
    · cases h
      exact ⟨hready, .refl _⟩
    · obtain ⟨⟨found, rest⟩, hfound, heq⟩ := Option.map_eq_some_iff.mp h
      cases heq
      obtain ⟨hnode, hperm⟩ := ih hfound
      exact ⟨hnode, (hperm.cons first).trans (.swap _ _ _)⟩

variable (provides requires)

/-- The labels that some nodes provide, or require. -/
def labels (labelsOf : Node → List Label) (nodes : List Node) : Finset Label :=
  (nodes.flatMap labelsOf).toFinset

/-- The end of the generator, when no node of `todo` may be yielded. -/
def giveUp (ignoreCyclicDependencies : Bool) (todo : List Node) (provided : Finset Label) :
    List Node × Except (UnresolvableDependencyError Node Label) Unit :=
  if ignoreCyclicDependencies then
    let allProvided := provided ∪ labels provides todo
    let todoRequired := labels requires todo
    if todoRequired ⊆ allProvided then (todo, .ok ())
    else ([], .error (.unresolvable todo (todoRequired \ allProvided)))
  else ([], .error (.unresolved todo))

/-- The loop `while todo`: the nodes that are yielded from here on, and how it ends. -/
def sortFrom (ignoreCyclicDependencies : Bool) (todo : List Node) (provided : Finset Label) :
    List Node × Except (UnresolvableDependencyError Node Label) Unit :=
  match _h : takeReady requires provided todo with
  | some (node, todo') =>
    let (yielded, outcome) :=
      sortFrom ignoreCyclicDependencies todo' (provided ∪ (provides node).toFinset)
    (node :: yielded, outcome)
  | none =>
    if todo.isEmpty then ([], .ok ())
    else giveUp provides requires ignoreCyclicDependencies todo provided
termination_by todo.length
decreasing_by
  rw [(takeReady_eq_some _h).2.length_eq]
  exact Nat.lt_succ_self _

/-- `_sort_by_dependencies`: the nodes it yields, and whether it returns or raises an exception. -/
def sortByDependencies (nodes : List Node) (ignoreCyclicDependencies : Bool) :
    List Node × Except (UnresolvableDependencyError Node Label) Unit :=
  sortFrom provides requires ignoreCyclicDependencies nodes ∅

/-! ### Orders -/

/-- An order in which every label a node requires is provided by a node before it. -/
def Resolves (order : List Node) : Prop :=
  ∀ before node after, order = before ++ node :: after →
    ∀ label ∈ requires node, ∃ provider ∈ before, label ∈ provides provider

variable {provides requires} {order yielded rest : List Node}

theorem mem_labels {label : Label} :
    label ∈ labels provides order ↔ ∃ node ∈ order, label ∈ provides node := by
  simp [labels]

theorem labels_append : labels provides (yielded ++ rest) =
    labels provides yielded ∪ labels provides rest := by
  simp [labels, List.toFinset_append]

theorem labels_cons : labels provides (node :: rest) =
    (provides node).toFinset ∪ labels provides rest := by
  simp [labels, List.toFinset_append]

@[simp] theorem labels_nil : labels provides ([] : List Node) = ∅ := rfl

theorem IsReady.mono {p p' : Finset Label} (h : IsReady requires p node) (hp : p ⊆ p') :
    IsReady requires p' node := h.trans hp

/-- Each node may be yielded when those before it have been. -/
theorem resolves_iff : Resolves provides requires order ↔
    ∀ before node after, order = before ++ node :: after →
      IsReady requires (labels provides before) node := by
  simp only [Resolves, IsReady, Finset.subset_iff, List.mem_toFinset, mem_labels]

omit [DecidableEq Label] in
theorem resolves_nil : Resolves provides requires [] := by
  intro before node after h
  cases before <;> cases h

omit [DecidableEq Label] in
theorem Resolves.provider (h : Resolves provides requires order) (hnode : node ∈ order) {label : Label}
    (hlabel : label ∈ requires node) : ∃ provider ∈ order, label ∈ provides provider := by
  obtain ⟨before, after, heq⟩ := List.append_of_mem hnode
  obtain ⟨provider, hprovider, hprovides⟩ := h before node after heq label hlabel
  exact ⟨provider, heq ▸ List.mem_append_left _ hprovider, hprovides⟩

/-- An order is continued by a node that may be yielded. -/
theorem Resolves.concat (h : Resolves provides requires order)
    (hnode : IsReady requires (labels provides order) node) :
    Resolves provides requires (order ++ [node]) := by
  rw [resolves_iff] at h ⊢
  intro before last after heq
  rcases List.eq_nil_or_concat after with rfl | ⟨after, final, rfl⟩
  · obtain ⟨rfl, hlast⟩ := List.append_inj' heq rfl
    cases hlast
    exact hnode
  · rw [List.concat_eq_append, ← List.cons_append, ← List.append_assoc] at heq
    exact h before last after (List.append_inj' heq rfl).1

/-- Where nothing more may be yielded although there is an order for all nodes, none are left. -/
theorem Resolves.rest_eq_nil (h : Resolves provides requires order) (hperm : order.Perm (yielded ++ rest))
    (hstuck : ∀ node ∈ rest, ¬ IsReady requires (labels provides yielded) node) : rest = [] := by
  have hlabels : ∀ before after, order = before ++ after →
      labels provides before ⊆ labels provides yielded := by
    intro before
    induction before using List.reverseRecOn with
    | nil => exact fun _ _ => Finset.empty_subset _
    | append_singleton before node ih =>
      intro after heq
      rw [List.append_assoc, List.singleton_append] at heq
      have hbefore := ih _ heq
      have hready := (resolves_iff.mp h before node after heq).mono hbefore
      have hmem : node ∈ yielded ++ rest :=
        hperm.subset (heq ▸ List.mem_append_right _ List.mem_cons_self)
      have hyielded : node ∈ yielded :=
        (List.mem_append.mp hmem).resolve_right fun hrest => hstuck node hrest hready
      rw [labels_append]
      refine Finset.union_subset hbefore fun label hlabel => ?_
      obtain ⟨provider, hprovider, hlabel⟩ := mem_labels.mp hlabel
      exact mem_labels.mpr ⟨node, hyielded, List.mem_singleton.mp hprovider ▸ hlabel⟩
  rw [List.eq_nil_iff_forall_not_mem]
  intro node hnode
  obtain ⟨before, after, heq⟩ :=
    List.append_of_mem (hperm.symm.subset (List.mem_append_right yielded hnode))
  exact hstuck node hnode ((resolves_iff.mp h before node after heq).mono (hlabels _ _ heq))

/-! ### The generator -/

/-- What the loop does, in either mode: it yields nodes in order until no node that is left may be
    yielded. -/
theorem sortFrom_spec (todo : List Node) : ∀ (before : List Node),
    Resolves provides requires before → ∃ yielded rest,
      todo.Perm (yielded ++ rest) ∧ Resolves provides requires (before ++ yielded) ∧
      (∀ node ∈ rest, ¬ IsReady requires (labels provides (before ++ yielded)) node) ∧
      ∀ ignoreCyclicDependencies,
        sortFrom provides requires ignoreCyclicDependencies todo (labels provides before) =
          if rest.isEmpty then (yielded, .ok ())
          else
            let r := giveUp provides requires ignoreCyclicDependencies rest
              (labels provides (before ++ yielded))
            (yielded ++ r.1, r.2) := by
  induction hn : todo.length using Nat.strong_induction_on generalizing todo with
  | _ n ih =>
    intro before hbefore
    cases htake : takeReady requires (labels provides before) todo with
    | none =>
      refine ⟨[], todo, .refl _, by rwa [List.append_nil], ?_, fun ignoreCyclicDependencies => ?_⟩
      · rw [List.append_nil]
        exact takeReady_eq_none.mp htake
      · rw [sortFrom, htake, List.append_nil]
        simp
    | some r =>
      obtain ⟨node, todo'⟩ := r
      obtain ⟨hready, hperm⟩ := takeReady_eq_some htake
      have hlt : todo'.length < n := by
        rw [← hn, hperm.length_eq]
        exact Nat.lt_succ_self _
      obtain ⟨yielded, rest, hrest, hresolves, hstuck, hsort⟩ :=
        ih _ hlt todo' rfl (before ++ [node]) (hbefore.concat hready)
      have happend : before ++ [node] ++ yielded = before ++ node :: yielded := by simp
      rw [happend] at hresolves hstuck
      refine ⟨node :: yielded, rest, hperm.trans (hrest.cons node), hresolves, hstuck, ?_⟩
      intro ignoreCyclicDependencies
      have hstep := hsort ignoreCyclicDependencies
      rw [labels_append, labels_cons, labels_nil, Finset.union_empty, happend] at hstep
      rw [sortFrom, htake]
      simp only [hstep]
      split <;> rfl

/-- The generator raises an exception. -/
def Raises (outcome : Except (UnresolvableDependencyError Node Label) Unit) : Prop :=
  ∃ e, outcome = .error e

theorem giveUp_strict (rest : List Node) (p : Finset Label) :
    Raises (giveUp provides requires false rest p).2 := ⟨_, rfl⟩

/-- If cyclic dependencies are ignored, only labels that no node provides are a reason to give up. -/
theorem giveUp_ignoring (rest : List Node) (p : Finset Label) :
    (Raises (giveUp provides requires true rest p).2 ↔
      ∃ node ∈ rest, ∃ label ∈ requires node, label ∉ p ∪ labels provides rest) ∧
    (¬ Raises (giveUp provides requires true rest p).2 →
      (giveUp provides requires true rest p).1 = rest) := by
  have hsubset : labels requires rest ⊆ p ∪ labels provides rest ↔
      ¬ ∃ node ∈ rest, ∃ label ∈ requires node, label ∉ p ∪ labels provides rest := by
    simp only [Finset.subset_iff, mem_labels]
    push Not
    exact ⟨fun h node hnode label hlabel => h ⟨node, hnode, hlabel⟩,
      fun h label ⟨node, hnode, hlabel⟩ => h node hnode label hlabel⟩
  simp only [giveUp, if_true]
  by_cases h : labels requires rest ⊆ p ∪ labels provides rest
  · rw [if_pos h]
    exact ⟨⟨nofun, fun hmissing => absurd hmissing (hsubset.mp h)⟩, fun _ => rfl⟩
  · rw [if_neg h]
    exact ⟨⟨fun _ => not_not.mp (mt hsubset.mpr h), fun _ => ⟨_, rfl⟩⟩,
      fun hreturns => absurd ⟨_, rfl⟩ hreturns⟩

/-- In strict mode all nodes are yielded, in an order that resolves their dependencies, unless there is
    no such order. If cyclic dependencies are ignored, all nodes are yielded unless a required label is
    provided by no node at all, and as in strict mode if that finds an order. -/
theorem sortByDependencies_correct (provides requires : Node → List Label) (nodes : List Node) :
    let strict := sortByDependencies provides requires nodes false
    let ignoring := sortByDependencies provides requires nodes true
    (Raises strict.2 ↔ ¬ ∃ order, order.Perm nodes ∧ Resolves provides requires order) ∧
    (¬ Raises strict.2 → strict.1.Perm nodes ∧ Resolves provides requires strict.1) ∧
    (Raises ignoring.2 ↔
      ∃ node ∈ nodes, ∃ label ∈ requires node, ∀ provider ∈ nodes, label ∉ provides provider) ∧
    (¬ Raises ignoring.2 → ignoring.1.Perm nodes) ∧
    ((∃ order, order.Perm nodes ∧ Resolves provides requires order) → ignoring = strict) := by
  have hnil : Resolves provides requires [] := resolves_nil
  obtain ⟨yielded, rest, hperm, hresolves, hstuck, hsort⟩ := sortFrom_spec nodes [] hnil
  rw [List.nil_append] at hresolves hstuck
  simp only [labels_nil, List.nil_append] at hsort
  have hall : ∀ label, (∀ provider ∈ nodes, label ∉ provides provider) ↔
      label ∉ labels provides yielded ∪ labels provides rest := by
    intro label
    rw [← labels_append, mem_labels]
    push Not
    simp only [hperm.mem_iff]
  cases rest with
  | nil =>
    rw [List.append_nil] at hperm
    simp only [List.isEmpty_nil, if_true] at hsort
    simp only [sortByDependencies, hsort]
    have hreturns : ¬ Raises (.ok () : Except (UnresolvableDependencyError Node Label) Unit) := nofun
    have horder : ∃ order, order.Perm nodes ∧ Resolves provides requires order :=
      ⟨yielded, hperm.symm, hresolves⟩
    refine ⟨⟨fun h => absurd h hreturns, fun h => absurd horder h⟩, fun _ => ⟨hperm.symm, hresolves⟩,
      ⟨fun h => absurd h hreturns, ?_⟩, fun _ => hperm.symm, fun _ => trivial⟩
    rintro ⟨node, hnode, label, hlabel, hnone⟩
    obtain ⟨provider, hprovider, hprovides⟩ := hresolves.provider (hperm.subset hnode) hlabel
    exact absurd hprovides (hnone provider (hperm.symm.subset hprovider))
  | cons first rest =>
    have hnone : ¬ ∃ order : List Node, order.Perm nodes ∧ Resolves provides requires order := by
      rintro ⟨order, horder, h⟩
      cases h.rest_eq_nil (horder.trans hperm) hstuck
    have hgiveUp := @giveUp_ignoring _ _ _ provides requires (first :: rest) (labels provides yielded)
    obtain ⟨hraises, hreturns⟩ := hgiveUp
    simp only [List.isEmpty_cons, Bool.false_eq_true, if_false] at hsort
    simp only [sortByDependencies, hsort]
    refine ⟨⟨fun _ => hnone, fun _ => giveUp_strict _ _⟩, fun h => absurd (giveUp_strict _ _) h,
      ⟨fun h => ?_, fun h => hraises.mpr ?_⟩, fun h => ?_, fun h => absurd h hnone⟩
    · obtain ⟨node, hnode, label, hlabel, hmissing⟩ := hraises.mp h
      exact ⟨node, hperm.symm.subset (List.mem_append_right _ hnode), label, hlabel,
        (hall label).mpr hmissing⟩
    · obtain ⟨node, hnode, label, hlabel, hmissing⟩ := h
      refine ⟨node, ?_, label, hlabel, (hall label).mp hmissing⟩
      -- a node that was yielded requires only labels that are provided
      refine (List.mem_append.mp (hperm.subset hnode)).resolve_left fun hyielded => ?_
      obtain ⟨provider, hprovider, hprovides⟩ := hresolves.provider hyielded hlabel
      exact hmissing provider (hperm.symm.subset (List.mem_append_left _ hprovider)) hprovides
    · rw [hreturns h]
      exact hperm.symm

end Echronos.Build
