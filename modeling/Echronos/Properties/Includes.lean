import Echronos.Schemes.Text
import Echronos.Xml.Include
import Mathlib.Data.Set.Finite.Basic
import Mathlib.Logic.Relation
import Mathlib.Order.WellFounded

/-! # Include elements are replaced by what they include

    The loop over the child nodes goes on with the next index after an include element has been
    replaced. Nodes that have come in are visited again, without effect; if none have come in, the
    next sibling is not visited. -/

namespace Echronos.Xml

open Schemes

mutual

/-- The include elements in a node: it is one, or they are below it. -/
def includesOf : Node → List Element
  | .element tagName attributes childNodes position =>
    if tagName = "include" then [⟨tagName, attributes, childNodes, position⟩] else includeElements childNodes
  | .text _ => []
  | .other _ _ => []
termination_by structural node => node

def includeElements : List Node → List Element
  | [] => []
  | node :: rest => includesOf node ++ includeElements rest
termination_by structural nodes => nodes

end

variable (p : XmlIncludeParser)

/-- The nodes with each include element replaced, in order, by the child nodes of the root of the file
    it names, in which the same has been done. -/
inductive Resolved : Path → List Node → List Node → Prop
  | nil {parentDir} : Resolved parentDir [] []
  | leaf {parentDir node rest rest'} : node.element? = none → Resolved parentDir rest rest' →
      Resolved parentDir (node :: rest) (node :: rest')
  | element {parentDir tagName attributes childNodes childNodes' position rest rest'} :
      tagName ≠ "include" → Resolved parentDir childNodes childNodes' → Resolved parentDir rest rest' →
      Resolved parentDir (.element tagName attributes childNodes position :: rest)
        (.element tagName attributes childNodes' position :: rest')
  | included {parentDir attributes childNodes position path root nodes rest rest'} :
      p.checkInclude ⟨"include", attributes, childNodes, position⟩ parentDir = .ok path →
      p.files.document path = .ok root → Resolved (dirname path) root.childNodes nodes →
      Resolved parentDir rest rest' →
      Resolved parentDir (.element "include" attributes childNodes position :: rest) (nodes ++ rest')

/-- An include element and the nodes that it stands for. -/
def Includes (parentDir : Path) (el : Element) (nodes : List Node) : Prop :=
  ∃ path root, p.checkInclude el parentDir = .ok path ∧ p.files.document path = .ok root ∧
    Resolved p (dirname path) root.childNodes nodes

mutual

/-- No include element that stands for no nodes has a sibling directly behind it that is an include
    element or contains one. -/
def Clear (parentDir : Path) : List Node → Prop
  | [] => True
  | node :: rest =>
    (∀ el, node.element? = some el → el.tagName = "include" → Includes p parentDir el [] →
      includeElements rest.head?.toList = []) ∧ ClearBelow parentDir node ∧ Clear parentDir rest
termination_by structural nodes => nodes

/-- And likewise below a node. -/
def ClearBelow (parentDir : Path) : Node → Prop
  | .element tagName _ childNodes _ => tagName ≠ "include" → Clear parentDir childNodes
  | .text _ => True
  | .other _ _ => True
termination_by structural node => node

end

variable {p} {parentDir : Path} {before after rest nodes result : List Node} {node : Node}

/-! ### The nodes -/

theorem includesOf_of_leaf (h : node.element? = none) : includesOf node = [] := by
  cases node with
  | element => cases h
  | text => rfl
  | other => rfl

@[simp] theorem includeElements_append (nodes rest : List Node) :
    includeElements (nodes ++ rest) = includeElements nodes ++ includeElements rest := by
  induction nodes with
  | nil => rfl
  | cons node nodes ih => rw [List.cons_append, includeElements, includeElements, ih, List.append_assoc]

/-- No include elements are left. -/
theorem Resolved.includeElements_eq (h : Resolved p parentDir nodes result) : includeElements result = [] := by
  induction h with
  | nil => rfl
  | leaf hnode _ ih => rw [includeElements, includesOf_of_leaf hnode, ih, List.append_nil]
  | element htag _ _ ihchildren ihrest =>
    rw [includeElements, includesOf, if_neg htag, ihchildren, ihrest, List.append_nil]
  | included _ _ _ _ ihnodes ihrest => rw [includeElements_append, ihnodes, ihrest, List.append_nil]

/-- Nodes without include elements stay as they are. -/
theorem resolved_append : ∀ {nodes rest result : List Node}, includeElements nodes = [] →
    Resolved p parentDir rest result → Resolved p parentDir (nodes ++ rest) (nodes ++ result)
  | [], _, _, _, h => h
  | .element tagName attributes childNodes position :: nodes, _, _, hnone, h => by
    obtain ⟨hchildren, hnodes⟩ := List.append_eq_nil_iff.mp hnone
    have htag : tagName ≠ "include" := by
      rintro rfl
      cases hchildren
    rw [includesOf, if_neg htag] at hchildren
    have ihchildren := resolved_append hchildren (.nil : Resolved p parentDir [] [])
    rw [List.append_nil] at ihchildren
    exact .element htag ihchildren (resolved_append hnodes h)
  | .text data :: nodes, _, _, hnone, h => by
    have hnodes : includeElements nodes = [] := hnone
    exact .leaf rfl (resolved_append hnodes h)
  | .other nodeType data :: nodes, _, _, hnone, h => by
    have hnodes : includeElements nodes = [] := hnone
    exact .leaf rfl (resolved_append hnodes h)

mutual

theorem clear_of_includeElements : ∀ {nodes : List Node}, includeElements nodes = [] →
    Clear p parentDir nodes
  | [], _ => trivial
  | node :: nodes, hnone => by
    obtain ⟨hnode, hnodes⟩ := List.append_eq_nil_iff.mp hnone
    refine ⟨fun el hel htag _ => ?_, clearBelow_of_includesOf hnode, clear_of_includeElements hnodes⟩
    cases nodes with
    | nil => rfl
    | cons next nodes => exact List.append_eq_nil_iff.mpr ⟨(List.append_eq_nil_iff.mp hnodes).1, rfl⟩

theorem clearBelow_of_includesOf : ∀ {node : Node}, includesOf node = [] → ClearBelow p parentDir node
  | .element tagName attributes childNodes position, hnone => fun htag => by
    rw [includesOf, if_neg htag] at hnone
    exact clear_of_includeElements hnone
  | .text _, _ => trivial
  | .other _ _, _ => trivial

end

/-! ### The loop

    The nodes before the index are done. -/

variable (p parentDir) in
/-- Coming to `after` in `before ++ after`, the loop makes `result` of the child nodes. -/
def Visits (before after result : List Node) : Prop :=
  Settles (fun fuel => p.resolveIncludesBelow fuel (before ++ after) before.length parentDir) (.ok result)

theorem Visits.nil : Visits p parentDir before [] before := by
  refine (Settles.of_result (.ok before)).succ fun n => ?_
  have hend : (before ++ [])[before.length]? = none := by simp
  rw [XmlIncludeParser.resolveIncludesBelow, hend, List.append_nil]
  rfl

theorem getElem?_visited : (before ++ node :: after)[before.length]? = some node := by simp

theorem Visits.leaf (hnode : node.element? = none) (h : Visits p parentDir (before ++ [node]) after result) :
    Visits p parentDir before (node :: after) result := by
  refine Settles.succ h fun n => ?_
  rw [XmlIncludeParser.resolveIncludesBelow, getElem?_visited, List.length_append, List.append_assoc]
  cases node with
  | element => cases hnode
  | text => rfl
  | other => rfl

theorem Visits.element {tagName : String} {attributes : List (String × String)}
    {childNodes childNodes' : List Node} {position : Position} (htag : tagName ≠ "include")
    (hchildren : Visits p parentDir [] childNodes childNodes')
    (h : Visits p parentDir (before ++ [.element tagName attributes childNodes' position]) after result) :
    Visits p parentDir before (.element tagName attributes childNodes position :: after) result := by
  have hset : (before ++ .element tagName attributes childNodes position :: after).set before.length
      (.element tagName attributes childNodes' position) =
      before ++ [.element tagName attributes childNodes' position] ++ after := by simp
  rw [Visits, List.length_append, ← hset] at h
  refine Settles.succ (Settles.bind (k := fun fuel children' => p.resolveIncludesBelow fuel
    ((before ++ .element tagName attributes childNodes position :: after).set before.length
      (.element tagName attributes children' position)) (before.length + 1) parentDir) hchildren h) fun n => ?_
  rw [XmlIncludeParser.resolveIncludesBelow, getElem?_visited]
  exact if_neg htag

theorem Visits.included {el : Element} (htag : el.tagName = "include")
    (hnodes : Settles (fun fuel => p.resolveIncludeElement fuel el parentDir) (.ok nodes))
    (h : Settles (fun fuel => p.resolveIncludesBelow fuel (before ++ nodes ++ after) (before.length + 1)
      parentDir) (.ok result)) : Visits p parentDir before (el.node :: after) result := by
  have htake : (before ++ el.node :: after).take before.length = before := by simp
  have hdrop : (before ++ el.node :: after).drop (before.length + 1) = after := by simp
  refine Settles.succ (Settles.bind (k := fun fuel included => p.resolveIncludesBelow fuel
    (before ++ included ++ after) (before.length + 1) parentDir) hnodes h) fun n => ?_
  rw [XmlIncludeParser.resolveIncludesBelow, getElem?_visited, htake, hdrop]
  exact if_pos htag

/-- Nodes without include elements are visited in vain. -/
theorem Visits.append : ∀ {before nodes after result : List Node}, includeElements nodes = [] →
    Visits p parentDir (before ++ nodes) after result → Visits p parentDir before (nodes ++ after) result
  | before, [], after, result, _, h => by rwa [List.append_nil] at h
  | before, .element tagName attributes childNodes position :: nodes, after, result, hnone, h => by
    obtain ⟨hchildren, hnodes⟩ := List.append_eq_nil_iff.mp hnone
    have htag : tagName ≠ "include" := by
      rintro rfl
      cases hchildren
    rw [includesOf, if_neg htag] at hchildren
    have ihchildren := Visits.append hchildren (.nil : Visits p parentDir ([] ++ childNodes) [] childNodes)
    rw [List.append_nil] at ihchildren
    rw [List.append_cons] at h
    exact .element htag ihchildren (Visits.append hnodes h)
  | before, .text data :: nodes, after, result, hnone, h => by
    have hnodes : includeElements nodes = [] := hnone
    rw [List.append_cons] at h
    exact .leaf rfl (Visits.append hnodes h)
  | before, .other nodeType data :: nodes, after, result, hnone, h => by
    have hnodes : includeElements nodes = [] := hnone
    rw [List.append_cons] at h
    exact .leaf rfl (Visits.append hnodes h)

/-- An include element that stands for no nodes is gone, and the loop goes on behind its sibling. -/
theorem Visits.vanished {el : Element} (htag : el.tagName = "include")
    (hnodes : Settles (fun fuel => p.resolveIncludeElement fuel el parentDir) (.ok []))
    (h : Visits p parentDir (before ++ [node]) after result) :
    Visits p parentDir before (el.node :: node :: after) result := by
  rw [Visits, List.length_append, List.append_assoc] at h
  refine .included htag hnodes ?_
  rw [List.append_nil]
  exact h

/-! ### What becomes of the child nodes -/

theorem Resolved.unique {result' : List Node} (h : Resolved p parentDir nodes result)
    (h' : Resolved p parentDir nodes result') : result = result' := by
  induction h generalizing result' with
  | nil => cases h'; rfl
  | leaf hnode _ ih =>
    cases h' with
    | leaf _ hrest => rw [ih hrest]
    | element => cases hnode
    | included => cases hnode
  | element htag _ _ ihchildren ihrest =>
    cases h' with
    | leaf hnode => cases hnode
    | element _ hchildren hrest => rw [ihchildren hchildren, ihrest hrest]
    | included => exact absurd rfl htag
  | included hpath hdocument _ _ ihnodes ihrest =>
    cases h' with
    | leaf hnode => cases hnode
    | element htag => exact absurd rfl htag
    | included hpath' hdocument' hnodes hrest =>
      cases hpath.symm.trans hpath'
      cases hdocument.symm.trans hdocument'
      rw [ihnodes hnodes, ihrest hrest]

theorem Includes.unique {el : Element} {nodes' : List Node} (h : Includes p parentDir el nodes)
    (h' : Includes p parentDir el nodes') : nodes = nodes' := by
  obtain ⟨path, root, hpath, hdocument, hnodes⟩ := h
  obtain ⟨path', root', hpath', hdocument', hnodes'⟩ := h'
  cases hpath.symm.trans hpath'
  cases hdocument.symm.trans hdocument'
  exact hnodes.unique hnodes'

theorem Includes.includeElements_eq {el : Element} (h : Includes p parentDir el nodes) :
    includeElements nodes = [] := by
  obtain ⟨_, _, _, _, hnodes⟩ := h
  exact hnodes.includeElements_eq

variable (p parentDir) in
/-- `after'` is right for `after` if that is clear, and has an include element if not. -/
structure Replaces (after after' : List Node) : Prop where
  resolved : Clear p parentDir after → Resolved p parentDir after after'
  unresolved : ¬ Clear p parentDir after → includeElements after' ≠ []

theorem Replaces.nil : Replaces p parentDir [] [] := ⟨fun _ => .nil, fun h => absurd trivial h⟩

variable {after' : List Node}

/-- A node without include elements, visited or not. -/
theorem Replaces.cons (hnone : includesOf node = []) (h : Replaces p parentDir after after') :
    Replaces p parentDir (node :: after) (node :: after') := by
  have hnode : includeElements [node] = [] := by rw [includeElements, hnone]; rfl
  refine ⟨fun hclear => resolved_append hnode (h.resolved hclear.2.2), fun hclear hall => ?_⟩
  refine h.unresolved (fun hafter => hclear ⟨fun el hel htag _ => ?_, clearBelow_of_includesOf hnone, hafter⟩)
    (List.append_eq_nil_iff.mp hall).2
  cases node with
  | element =>
    cases hel
    rw [includesOf, if_pos htag] at hnone
    cases hnone
  | text => cases hel
  | other => cases hel

theorem Replaces.element {tagName : String} {attributes : List (String × String)}
    {childNodes childNodes' : List Node} {position : Position} (htag : tagName ≠ "include")
    (hchildren : Replaces p parentDir childNodes childNodes') (h : Replaces p parentDir after after') :
    Replaces p parentDir (.element tagName attributes childNodes position :: after)
      (.element tagName attributes childNodes' position :: after') := by
  constructor
  · rintro ⟨-, hbelow, hafter⟩
    exact .element htag (hchildren.resolved (hbelow htag)) (h.resolved hafter)
  · intro hclear hall
    rw [includeElements, includesOf, if_neg htag] at hall
    obtain ⟨hnochildren, hnoafter⟩ := List.append_eq_nil_iff.mp hall
    refine hclear ⟨fun el hel heltag => ?_, fun _ => ?_, ?_⟩
    · cases hel
      exact absurd heltag htag
    · exact not_not.mp fun hne => hchildren.unresolved hne hnochildren
    · exact not_not.mp fun hne => h.unresolved hne hnoafter

theorem Includes.resolved {el : Element} (htag : el.tagName = "include")
    (h : Includes p parentDir el nodes) (hafter : Resolved p parentDir after after') :
    Resolved p parentDir (el.node :: after) (nodes ++ after') := by
  obtain ⟨path, root, hpath, hdocument, hnodes⟩ := h
  obtain ⟨tagName, attributes, childNodes, position⟩ := el
  cases htag
  exact .included hpath hdocument hnodes hafter

/-- An include element is replaced, if either it stands for some nodes or nothing is missed. -/
theorem Replaces.included {el : Element} (htag : el.tagName = "include")
    (hel : Includes p parentDir el nodes) (h : Replaces p parentDir after after')
    (hvisited : nodes ≠ [] ∨ includeElements after.head?.toList = []) :
    Replaces p parentDir (el.node :: after) (nodes ++ after') := by
  constructor
  · rintro ⟨-, -, hafter⟩
    exact hel.resolved htag (h.resolved hafter)
  · intro hclear hall
    rw [includeElements_append] at hall
    refine h.unresolved (fun hafter => hclear ⟨fun el' hel' _ hempty => ?_, fun hne => ?_, hafter⟩)
      (List.append_eq_nil_iff.mp hall).2
    · cases hel'
      exact hvisited.resolve_left (not_not.mpr (hel.unique hempty))
    · exact absurd htag hne

/-- The loop, if what the include elements stand for is found: it comes to an end, with the right
    result just if the child nodes are clear. -/
theorem exists_visits : ∀ before after : List Node,
    (∀ el ∈ includeElements after, ∃ nodes, Includes p parentDir el nodes ∧
      Settles (fun fuel => p.resolveIncludeElement fuel el parentDir) (.ok nodes)) →
    ∃ after', Visits p parentDir before after (before ++ after') ∧ Replaces p parentDir after after'
  | before, [], _ => ⟨[], by rw [List.append_nil]; exact .nil, .nil⟩
  | before, .text data :: after, h => by
    obtain ⟨after', hvisits, hreplaces⟩ := exists_visits (before ++ [.text data]) after h
    rw [← List.append_cons] at hvisits
    exact ⟨.text data :: after', .leaf rfl hvisits, .cons rfl hreplaces⟩
  | before, .other nodeType data :: after, h => by
    obtain ⟨after', hvisits, hreplaces⟩ := exists_visits (before ++ [.other nodeType data]) after h
    rw [← List.append_cons] at hvisits
    exact ⟨.other nodeType data :: after', .leaf rfl hvisits, .cons rfl hreplaces⟩
  | before, .element tagName attributes childNodes position :: after, h => by
    have hafter : ∀ el ∈ includeElements after, ∃ nodes, Includes p parentDir el nodes ∧
        Settles (fun fuel => p.resolveIncludeElement fuel el parentDir) (.ok nodes) :=
      fun el hel => h el (List.mem_append_right _ hel)
    by_cases htag : tagName = "include"
    · obtain ⟨nodes, hincludes, hnodes⟩ := h ⟨tagName, attributes, childNodes, position⟩
        (List.mem_append_left _ (by rw [includesOf, if_pos htag]; exact List.mem_singleton.mpr rfl))
      cases nodes with
      | cons first nodes =>
        -- the second node and those behind it are visited again
        obtain ⟨after', hvisits, hreplaces⟩ := exists_visits (before ++ first :: nodes) after hafter
        have hnone := (List.append_eq_nil_iff.mp hincludes.includeElements_eq).2
        have hsecond : Visits p parentDir (before ++ [first]) (nodes ++ after)
            (before ++ (first :: nodes ++ after')) := .append hnone (by simpa using hvisits)
        rw [Visits, List.length_append, List.append_assoc, ← List.append_assoc [first]] at hsecond
        refine ⟨first :: nodes ++ after', .included htag hnodes ?_, .included htag hincludes hreplaces
          (.inl (List.cons_ne_nil _ _))⟩
        rw [List.append_assoc]
        exact hsecond
      | nil =>
        cases after with
        | nil =>
          have hend : Settles (fun fuel => p.resolveIncludesBelow fuel (before ++ [] ++ [])
              (before.length + 1) parentDir) (.ok before) := by
            refine (Settles.of_result (.ok before)).succ fun n => ?_
            have hend : (before ++ [] ++ [])[before.length + 1]? = none := by simp
            rw [XmlIncludeParser.resolveIncludesBelow, hend, List.append_nil, List.append_nil]
            rfl
          refine ⟨[], ?_, .included htag hincludes .nil (.inr rfl)⟩
          rw [List.append_nil]
          exact .included htag hnodes hend
        | cons node after =>
          -- the next sibling is not visited
          obtain ⟨after', hvisits, hreplaces⟩ := exists_visits (before ++ [node]) after
            fun el hel => hafter el (List.mem_append_right _ hel)
          rw [← List.append_cons] at hvisits
          refine ⟨node :: after', .vanished htag hnodes hvisits, ?_⟩
          by_cases hnone : includesOf node = []
          · refine .included htag hincludes (.cons hnone hreplaces) (.inr ?_)
            rw [List.head?_cons]
            simp [includeElements, hnone]
          · refine ⟨fun hclear => ?_, fun _ hall => hnone (List.append_eq_nil_iff.mp hall).1⟩
            have hmissed := hclear.1 _ rfl htag hincludes
            exact absurd (List.append_eq_nil_iff.mp hmissed).1 hnone
    · rw [includeElements, includesOf, if_neg htag] at h
      obtain ⟨childNodes', hvisitsChildren, hreplacesChildren⟩ := exists_visits [] childNodes
        fun el hel => h el (List.mem_append_left _ hel)
      obtain ⟨after', hvisits, hreplaces⟩ := exists_visits
        (before ++ [.element tagName attributes childNodes' position]) after hafter
      rw [← List.append_cons] at hvisits
      exact ⟨_, .element htag hvisitsChildren hvisits, .element htag hreplacesChildren hreplaces⟩

/-! ### The files -/

variable (p) in
/-- A file names another one in an include element. -/
def IncludesFile (file included : Path) : Prop :=
  ∃ root, p.files.document file = .ok root ∧
    ∃ el ∈ includeElements root.childNodes, p.checkInclude el (dirname file) = .ok included

variable (p) in
/-- A finite acyclic set of files whose include elements are well formed and name files of the set. -/
structure WellFormed (files : Set Path) : Prop where
  finite : files.Finite
  acyclic : ∀ file ∈ files, ¬ Relation.TransGen (IncludesFile p) file file
  document : ∀ file ∈ files, ∃ root, p.files.document file = .ok root ∧ root.tagName ≠ "include"
  resolvable : ∀ file ∈ files, ∀ root, p.files.document file = .ok root →
    ∀ el ∈ includeElements root.childNodes, ∃ included ∈ files, p.checkInclude el (dirname file) = .ok included
  includeRoot : ∀ file ∈ files, ∀ included, IncludesFile p file included →
    ∀ root, p.files.document included = .ok root → root.tagName = "include_root"

variable {files : Set Path} {file included : Path}

theorem WellFormed.mem (h : WellFormed p files) (hfile : file ∈ files)
    (hincludes : IncludesFile p file included) :
    included ∈ files := by
  obtain ⟨root, hroot, el, hel, hcheck⟩ := hincludes
  obtain ⟨included', hmem, hcheck'⟩ := h.resolvable file hfile root hroot el hel
  cases hcheck.symm.trans hcheck'
  exact hmem

/-- Induction from the files that include nothing. -/
theorem WellFormed.induction (h : WellFormed p files) {P : Path → Prop}
    (hstep : ∀ file ∈ files, (∀ included, IncludesFile p file included → P included) → P file) :
    ∀ file ∈ files, P file := by
  let below (a b : files) : Prop := Relation.TransGen (IncludesFile p) b a
  have htrans : IsTrans files below := ⟨fun _ _ _ hab hbc => hbc.trans hab⟩
  have hirrefl : Std.Irrefl below := ⟨fun a => h.acyclic a a.2⟩
  have hfinite : Finite files := h.finite
  have hwf := Finite.wellFounded_of_trans_of_irrefl below
  intro file hfile
  refine hwf.induction (C := fun a => P a) ⟨file, hfile⟩ fun a ih => ?_
  refine hstep a a.2 fun included hincluded => ?_
  exact ih ⟨included, h.mem a.2 hincluded⟩ (.single hincluded)

theorem parse_settles {root : Element} (hroot : p.files.document file = .ok root)
    (htag : root.tagName ≠ "include") (hvisits : Visits p (dirname file) [] root.childNodes result) :
    Settles (fun fuel => p.parse fuel file) (.ok { root with childNodes := result }) := by
  have hchildren : Settles (fun fuel => p.resolveIncludesBelow fuel root.childNodes 0 (dirname file))
    (.ok result) := hvisits
  refine Settles.succ (Settles.bind (k := fun _ childNodes => pure { root with childNodes }) hchildren
    (Settles.of_result _)) fun n => ?_
  rw [XmlIncludeParser.parse, hroot]
  exact if_neg htag

theorem resolveIncludeElement_settles {el root : Element} (hcheck : p.checkInclude el parentDir = .ok file)
    (htag : root.tagName = "include_root") (hparse : Settles (fun fuel => p.parse fuel file) (.ok root)) :
    Settles (fun fuel => p.resolveIncludeElement fuel el parentDir) (.ok root.childNodes) := by
  obtain ⟨n, hn⟩ := hparse
  refine ⟨n + 1, fun fuel hfuel => ?_⟩
  obtain ⟨k, rfl⟩ := Nat.exists_eq_add_of_le' (Nat.one_le_of_lt hfuel)
  have hresult := hn k (Nat.le_of_succ_le_succ hfuel)
  dsimp only at hresult ⊢
  rw [XmlIncludeParser.resolveIncludeElement, hcheck]
  change (p.parse k file >>= _) = _
  rw [hresult]
  exact if_neg (not_not.mpr htag)

variable (p) in
/-- `parse` returns the tree of the file with the include elements replaced, and none left. -/
def ParsesRight (file : Path) : Prop :=
  ∃ root childNodes, p.files.document file = .ok root ∧ Resolved p (dirname file) root.childNodes childNodes ∧
    Settles (fun fuel => p.parse fuel file) (.ok { root with childNodes }) ∧
    includeElements [({ root with childNodes } : Element).node] = []

variable (p) in
/-- In this file no include element that stands for no nodes hides another one. -/
def ClearFile (file : Path) : Prop :=
  ∀ root, p.files.document file = .ok root → Clear p (dirname file) root.childNodes

/-- What `parse` does with a file if it is right about the files it includes. -/
theorem WellFormed.parse (h : WellFormed p files) (hfile : file ∈ files)
    (hincluded : ∀ included, IncludesFile p file included → ParsesRight p included) :
    ∃ root childNodes, p.files.document file = .ok root ∧ root.tagName ≠ "include" ∧
      Settles (fun fuel => p.parse fuel file) (.ok { root with childNodes }) ∧
      Replaces p (dirname file) root.childNodes childNodes := by
  obtain ⟨root, hroot, htag⟩ := h.document file hfile
  have hall : ∀ el ∈ includeElements root.childNodes, ∃ nodes, Includes p (dirname file) el nodes ∧
      Settles (fun fuel => p.resolveIncludeElement fuel el (dirname file)) (.ok nodes) := by
    intro el hel
    obtain ⟨included, -, hcheck⟩ := h.resolvable file hfile root hroot el hel
    have hincludes : IncludesFile p file included := ⟨root, hroot, el, hel, hcheck⟩
    obtain ⟨root', nodes, hroot', hnodes, hparse, -⟩ := hincluded included hincludes
    have htag' := h.includeRoot file hfile included hincludes root' hroot'
    exact ⟨nodes, ⟨included, root', hcheck, hroot', hnodes⟩,
      resolveIncludeElement_settles hcheck (by exact htag') hparse⟩
  obtain ⟨childNodes, hvisits, hreplaces⟩ := exists_visits [] root.childNodes hall
  exact ⟨root, childNodes, hroot, htag, parse_settles hroot htag hvisits, hreplaces⟩

/-- All files of the set are parsed right just if none of them has an include element that stands for
    no nodes directly before a sibling with something to include. -/
theorem forall_parsesRight_iff (h : WellFormed p files) :
    (∀ file ∈ files, ParsesRight p file) ↔ ∀ file ∈ files, ClearFile p file := by
  constructor
  · intro hright file hfile root hroot
    obtain ⟨root', childNodes, hroot', -, hparse, hreplaces⟩ :=
      h.parse hfile fun included hincludes => hright included (h.mem hfile hincludes)
    cases hroot.symm.trans hroot'
    by_contra hclear
    obtain ⟨root', childNodes', hroot', hresolved, hparse', -⟩ := hright file hfile
    cases hroot.symm.trans hroot'
    have htree := Except.ok.inj (hparse.unique hparse')
    have hsame : childNodes = childNodes' := congrArg Element.childNodes htree
    exact hreplaces.unresolved hclear (hsame ▸ hresolved.includeElements_eq)
  · intro hclear
    refine h.induction fun file hfile hincluded => ?_
    obtain ⟨root, childNodes, hroot, htag, hparse, hreplaces⟩ := h.parse hfile hincluded
    have hresolved := hreplaces.resolved (hclear file hfile root hroot)
    refine ⟨root, childNodes, hroot, hresolved, hparse, ?_⟩
    rw [includeElements, Element.node, includesOf, if_neg htag, hresolved.includeElements_eq]
    rfl

/-! A file that includes an empty one and one with an element. -/

def anywhere : Position := ⟨"", 0, 0, 0⟩

def includeElement (file : String) : Element := ⟨"include", [("file", file)], [], anywhere⟩

def threeDocuments (nodes : List Node) (path : Path) : Except Exn Element :=
  if path = "/main".toList then .ok ⟨"system", [], nodes, anywhere⟩
  else if path = "/empty".toList then .ok ⟨"include_root", [], [], anywhere⟩
  else if path = "/leaf".toList then .ok ⟨"include_root", [], [.element "leaf" [] [] anywhere], anywhere⟩
  else .error .osError

def threeFiles (nodes : List Node) : XmlIncludeParser where
  files :=
    { isfile path := path ∈ ["/main".toList, "/empty".toList, "/leaf".toList]
      pathExists path := path ∈ ["/main".toList, "/empty".toList, "/leaf".toList]
      document := threeDocuments nodes }
  includePaths := []

theorem includesFile_threeFiles {nodes : List Node}
    (hnodes : includeElements nodes = [includeElement "/empty", includeElement "/leaf"])
    (h : IncludesFile (threeFiles nodes) file included) :
    file = "/main".toList ∧ (included = "/empty".toList ∨ included = "/leaf".toList) := by
  obtain ⟨root, hroot, el, hel, hcheck⟩ := h
  change threeDocuments nodes file = _ at hroot
  unfold threeDocuments at hroot
  split_ifs at hroot with hmain hempty hleaf
  · cases hroot
    refine ⟨hmain, ?_⟩
    rw [hnodes] at hel
    rcases List.mem_cons.mp hel with rfl | hel
    · exact .inl (Except.ok.inj hcheck).symm
    · cases List.mem_singleton.mp hel
      exact .inr (Except.ok.inj hcheck).symm
  · cases hroot
    cases hel
  · cases hroot
    cases hel

theorem wellFormed_threeFiles {nodes : List Node}
    (hnodes : includeElements nodes = [includeElement "/empty", includeElement "/leaf"]) :
    WellFormed (threeFiles nodes) {"/main".toList, "/empty".toList, "/leaf".toList} where
  finite := Set.toFinite _
  acyclic file _ hcycle := by
    obtain ⟨next, hfirst, -⟩ := Relation.TransGen.head'_iff.mp hcycle
    obtain ⟨last, -, hlast⟩ := Relation.TransGen.tail'_iff.mp hcycle
    rw [(includesFile_threeFiles hnodes hfirst).1] at hlast
    exact absurd (includesFile_threeFiles hnodes hlast).2 (by decide)
  document file hfile := by
    rcases hfile with rfl | rfl | rfl
    · exact ⟨_, rfl, (by decide : "system" ≠ "include")⟩
    · exact ⟨_, rfl, (by decide : "include_root" ≠ "include")⟩
    · exact ⟨_, rfl, (by decide : "include_root" ≠ "include")⟩
  resolvable file hfile root hroot el hel := by
    rcases hfile with rfl | rfl | rfl
    · cases hroot
      rw [hnodes] at hel
      rcases List.mem_cons.mp hel with rfl | hel
      · exact ⟨"/empty".toList, .inr (.inl rfl), rfl⟩
      · cases List.mem_singleton.mp hel
        exact ⟨"/leaf".toList, .inr (.inr rfl), rfl⟩
    · cases hroot
      cases hel
    · cases hroot
      cases hel
  includeRoot file _ included hincludes root hroot := by
    rcases (includesFile_threeFiles hnodes hincludes).2 with rfl | rfl
    · cases hroot
      rfl
    · cases hroot
      rfl

/-- With a line break between the include elements all is well. -/
theorem forall_parsesRight_threeFiles :
    ParsesRight (threeFiles [(includeElement "/empty").node, .text "\n", (includeElement "/leaf").node])
      "/main".toList := by
  refine (forall_parsesRight_iff (wellFormed_threeFiles rfl)).mpr (fun file hfile root hroot => ?_) _ (.inl rfl)
  rcases hfile with rfl | rfl | rfl
  · cases hroot
    exact ⟨fun _ _ _ _ => rfl, fun h => absurd rfl h, nofun, trivial, fun _ _ _ _ => rfl,
      fun h => absurd rfl h, trivial⟩
  · cases hroot
    trivial
  · cases hroot
    exact ⟨fun _ _ _ _ => rfl, fun _ => trivial, trivial⟩

/-- Without it the second one is left. -/
theorem not_forall_parsesRight : ¬ ∀ (p : XmlIncludeParser) (files : Set Path), WellFormed p files →
    ∀ file ∈ files, ParsesRight p file := by
  intro h
  have hwf : WellFormed (threeFiles [(includeElement "/empty").node, (includeElement "/leaf").node])
      {"/main".toList, "/empty".toList, "/leaf".toList} := wellFormed_threeFiles rfl
  obtain ⟨root, childNodes, hroot, -, hparse, hnone⟩ := h _ _ hwf "/main".toList (.inl rfl)
  have hrun : Settles (fun fuel =>
      (threeFiles [(includeElement "/empty").node, (includeElement "/leaf").node]).parse fuel "/main".toList)
      (.ok ⟨"system", [], [(includeElement "/leaf").node], anywhere⟩) := by
    refine ⟨9, fun fuel hfuel => ?_⟩
    obtain ⟨k, rfl⟩ := Nat.exists_eq_add_of_le' hfuel
    rfl
  rw [← Except.ok.inj (hrun.unique hparse)] at hnone
  cases hnone

end Echronos.Xml
