import Echronos.Schemes.Except
import Mathlib.Data.List.Nodup

/-! # Merging component schemas, as `pylib/components.py` does it

    The configuration schema of a system is put together from those of its components. An entry that
    several of them have is merged entry by entry below it, or replaced, if it has no entries below. -/

namespace Echronos.Build

open Schemes

/-- `xml.etree.ElementTree.Element`; an entry of a schema, or a schema as a whole. -/
inductive Entry
  | node (tag : String) (attrib : List (String × String)) (children : List Entry)

namespace Entry

def attrib : Entry → List (String × String)
  | node _ attrib _ => attrib

def children : Entry → List Entry
  | node _ _ children => children

def withChildren (children : List Entry) : Entry → Entry
  | node tag attrib _ => node tag attrib children

/-- `attrib['name']` -/
def name? (e : Entry) : Option String := e.attrib.lookup "name"

/-- `len(e) == 0` -/
def isChildless (e : Entry) : Bool := e.children.isEmpty

@[simp] theorem children_withChildren (cs : List Entry) (e : Entry) :
    (e.withChildren cs).children = cs := by cases e; rfl

@[simp] theorem attrib_withChildren (cs : List Entry) (e : Entry) :
    (e.withChildren cs).attrib = e.attrib := by cases e; rfl

@[simp] theorem name?_withChildren (cs : List Entry) (e : Entry) :
    (e.withChildren cs).name? = e.name? := by cases e; rfl

theorem sizeOf_lt_of_mem {c e : Entry} (h : c ∈ e.children) : sizeOf c < sizeOf e := by
  cases e with
  | node tag attrib children =>
    have := List.sizeOf_lt_of_mem (show c ∈ children from h)
    simp only [node.sizeOf_spec]
    omega

end Entry

/-- The exceptions of `_merge_schema_entries`. -/
inductive MergeError
  | schemaFormatError (msg : String)
  | keyError
  deriving DecidableEq

/-- `{child.attrib['name']: child for child in a}` -/
def childrenByName (cs : List Entry) : Except MergeError (List (String × Entry)) :=
  cs.mapM fun c =>
    match c.name? with
    | some name => pure (name, c)
    | none => throw .keyError

/-- A child of that name. -/
def child? (cs : List Entry) (name : String) : Option Entry := cs.find? (·.name? = some name)

/-- The child of that name is changed in place. -/
def update (name : String) (c : Entry) (cs : List Entry) : List Entry :=
  cs.map fun c' => if c'.name? = some name then c else c'

/-- `a.remove(a_child)`, for the child of that name. -/
def remove (name : String) (cs : List Entry) : List Entry := cs.filter (·.name? ≠ some name)

def unnamedError (path : String) : MergeError :=
  .schemaFormatError ("A schema entry under \"" ++ path ++ "\" does not contain a name attribute")

def childrenError (path name : String) : MergeError :=
  .schemaFormatError ("Unable to merge two schemas: the entry " ++ path ++ "." ++ name ++
    " is present in both schemas, but it has children in one and no children in the other. " ++
    "To merge two schemas, corresponding entries both need need to either have child entries or not.")

mutual

/-- `_merge_schema_entries`: what becomes of `a`. The names of siblings are unique, so that a child is
    known by its name. -/
def mergeSchemaEntries : Entry → Entry → String → Except MergeError Entry
  | a, .node _ _ bs, path => do
    let aChildren ← childrenByName a.children
    let cs ← mergeChildren aChildren bs path a.children
    pure (a.withChildren cs)

/-- The loop over the children of `b`: what becomes of the children of `a`. -/
def mergeChildren (aChildren : List (String × Entry)) :
    List Entry → String → List Entry → Except MergeError (List Entry)
  | [], _, cs => pure cs
  | b :: bs, path, cs =>
    match b.name? with
    | none => throw (unnamedError path)
    | some name =>
      match aChildren.lookup name with
      | none => mergeChildren aChildren bs path (cs ++ [b])
      | some a =>
        if b.isChildless ≠ a.isChildless then throw (childrenError path name)
        else if ¬ b.isChildless then do
          let c ← mergeSchemaEntries a b (path ++ "." ++ name)
          mergeChildren aChildren bs path (update name c cs)
        else mergeChildren aChildren bs path (remove name cs ++ [b])

end

/-- `<schema>\n</schema>` -/
def emptySchema : Entry := .node "schema" [] []

/-- The loop of `_merge_schema_files` over the schemas that were read. -/
def mergeSchemas (schemas : List Entry) : Except MergeError Entry :=
  schemas.foldlM (fun merged schema => mergeSchemaEntries merged schema "") emptySchema

/-! ### Paths -/

/-- What a schema has at a path below an entry: an entry without children, with its attributes, or one
    that has children. -/
def look : List String → Entry → Option (Option (List (String × String)))
  | [], e => some (if e.isChildless then some e.attrib else none)
  | n :: p, e => (child? e.children n).bind (look p)

/-- Siblings have names, and different ones. -/
structure Siblings (cs : List Entry) : Prop where
  named : ∀ c ∈ cs, c.name? ≠ none
  nodup : (cs.map Entry.name?).Nodup

/-- So it is at every level of a schema. -/
inductive WellNamed : Entry → Prop
  | mk {e : Entry} (siblings : Siblings e.children) (below : ∀ c ∈ e.children, WellNamed c) :
    WellNamed e

theorem WellNamed.siblings {e : Entry} : WellNamed e → Siblings e.children
  | .mk siblings _ => siblings

theorem WellNamed.children {e : Entry} : WellNamed e → ∀ c ∈ e.children, WellNamed c
  | .mk _ below => below

/-- At the path, one of two entries has children and the other has none. -/
def Clash (a b : Entry) (p : List String) : Prop :=
  ∃ x y, look p a = some x ∧ look p b = some y ∧ x.isSome ≠ y.isSome

variable {a b c : Entry} {cs bs : List Entry} {m n : String} {p : List String}

theorem look_nil (e : Entry) : look [] e = some (if e.isChildless then some e.attrib else none) := rfl

theorem look_cons (n : String) (p : List String) (e : Entry) :
    look (n :: p) e = (child? e.children n).bind (look p) := rfl

theorem look_of_isChildless (h : a.isChildless = true) (hp : p ≠ []) : look p a = none := by
  cases p with
  | nil => exact absurd rfl hp
  | cons n p => rw [look_cons, child?, List.isEmpty_iff.mp h, List.find?_nil, Option.bind_none]

/-- An entry with something below it has children. -/
theorem isChildless_of_look {x : Option (List (String × String))} (hp : p ≠ [])
    (h : look p a = some x) : a.isChildless = false := by
  by_contra hchildless
  rw [look_of_isChildless (Bool.not_eq_false _ ▸ hchildless) hp] at h
  cases h

theorem clash_nil : Clash a b [] ↔ a.isChildless ≠ b.isChildless := by
  simp only [Clash, look_nil, Option.some.injEq, exists_and_left, exists_eq_left']
  cases a.isChildless <;> cases b.isChildless <;> simp

/-! ### Children by their names -/

theorem child?_cons : child? (b :: bs) n = if b.name? = some n then some b else child? bs n := by
  rw [child?, List.find?_cons]
  by_cases h : b.name? = some n
  · simp [h]
  · simp [h, child?]

theorem child?_name (h : child? cs n = some c) : c ∈ cs ∧ c.name? = some n :=
  ⟨List.mem_of_find?_eq_some h, by simpa using List.find?_some h⟩

theorem child?_eq_none : child? cs n = none ↔ ∀ c ∈ cs, c.name? ≠ some n := by
  simp [child?]

/-- An entry with children has something below it. -/
theorem WellNamed.exists_look (h : WellNamed a) (hchildren : a.isChildless = false) :
    ∃ p ≠ [], ∃ x, look p a = some x := by
  obtain ⟨c, hc⟩ := List.exists_mem_of_ne_nil a.children (by simpa [Entry.isChildless] using hchildren)
  obtain ⟨n, hn⟩ := Option.ne_none_iff_exists'.mp (h.siblings.named c hc)
  have hchild : child? a.children n ≠ none := fun hnone => child?_eq_none.mp hnone c hc hn
  obtain ⟨d, hd⟩ := Option.ne_none_iff_exists'.mp hchild
  exact ⟨[n], List.cons_ne_nil n [], _, by rw [look_cons, hd, Option.bind_some, look_nil]⟩

theorem child?_concat : child? (cs ++ [b]) n =
    (child? cs n).or (if b.name? = some n then some b else none) := by
  rw [child?, List.find?_append, child?]
  by_cases h : b.name? = some n <;> simp [h]

theorem child?_remove : child? (remove m cs) n = if n = m then none else child? cs n := by
  rw [child?, remove, List.find?_filter]
  split_ifs with h
  · subst h
    simp
  · rw [child?]
    congr 1
    funext c
    by_cases hc : c.name? = some n
    · simp [hc, h]
    · simp [hc]

theorem child?_update (hc : c.name? = some m) (h : child? cs m ≠ none) :
    child? (update m c cs) n = if n = m then some c else child? cs n := by
  have hname : ∀ c' : Entry, (if c'.name? = some m then c else c').name? = c'.name? := by
    intro c'
    split_ifs with hc'
    · rw [hc, hc']
    · rfl
  have hfind : child? (update m c cs) n =
      (child? cs n).map fun c' => if c'.name? = some m then c else c' := by
    rw [child?, update, List.find?_map, child?]
    simp only [Function.comp_def, hname]
  rw [hfind]
  split_ifs with hn
  · subst hn
    obtain ⟨c', hc'⟩ := Option.ne_none_iff_exists'.mp h
    rw [hc', Option.map_some, if_pos (child?_name hc').2]
  · cases hc' : child? cs n with
    | none => rfl
    | some c' =>
      have hne : c'.name? ≠ some m := by
        rw [(child?_name hc').2]
        simpa using hn
      rw [Option.map_some, if_neg hne]

/-! ### One child of `b` -/

/-- The children of `a` after a turn of the loop for the child `b` of that name. -/
structure Turned (b : Entry) (m : String) (cs cs' : List Entry) : Prop where
  siblings : Siblings cs'
  wellNamed : ∀ c ∈ cs', WellNamed c
  other : ∀ n, n ≠ m → child? cs' n = child? cs n
  look : ∀ p, (child? cs' m).bind (look p) = (Build.look p b).or ((child? cs m).bind (Build.look p))

theorem Siblings.concat (h : Siblings cs) (hb : b.name? = some m) (hm : child? cs m = none) :
    Siblings (cs ++ [b]) := by
  refine ⟨fun c hc => ?_, ?_⟩
  · rcases List.mem_append.mp hc with hc | hc
    · exact h.named c hc
    · rw [List.mem_singleton.mp hc, hb]
      exact Option.some_ne_none m
  · rw [List.map_append, List.map_singleton, List.nodup_append]
    refine ⟨h.nodup, List.nodup_singleton _, fun x hx y hy => ?_⟩
    obtain ⟨c, hc, rfl⟩ := List.mem_map.mp hx
    rw [List.mem_singleton.mp hy, hb]
    exact child?_eq_none.mp hm c hc

theorem Siblings.remove (h : Siblings cs) (m : String) : Siblings (remove m cs) where
  named c hc := h.named c (List.mem_filter.mp hc).1
  nodup := h.nodup.sublist (List.filter_sublist.map _)

theorem Siblings.update (h : Siblings cs) (hc : c.name? = some m) : Siblings (update m c cs) := by
  have hnames : (Build.update m c cs).map Entry.name? = cs.map Entry.name? := by
    rw [Build.update, List.map_map]
    refine List.map_congr_left fun c' _ => ?_
    rw [Function.comp_apply]
    split_ifs with hc'
    · rw [hc, hc']
    · rfl
  refine ⟨fun c' hc' => ?_, hnames ▸ h.nodup⟩
  obtain ⟨c'', hc'', heq⟩ := List.mem_map.mp (hnames ▸ List.mem_map_of_mem hc')
  exact heq ▸ h.named c'' hc''

variable (hsiblings : Siblings cs) (hwell : ∀ c ∈ cs, WellNamed c) (hb : WellNamed b)
  (hname : b.name? = some m)
include hsiblings hwell hb hname

/-- The entry is new. -/
theorem turned_append (hm : child? cs m = none) : Turned b m cs (cs ++ [b]) where
  siblings := hsiblings.concat hname hm
  wellNamed := List.forall_mem_append.mpr ⟨hwell, List.forall_mem_singleton.mpr hb⟩
  other n hn := by rw [child?_concat, hname, if_neg (by simpa using Ne.symm hn), Option.or_none]
  look p := by rw [child?_concat, hm, if_pos hname, Option.none_or, Option.bind_some,
    Option.bind_none, Option.or_none]

/-- The entry replaces one, and neither has children. -/
theorem turned_replace (hm : child? cs m = some a) (ha : a.isChildless = true) :
    Turned b m cs (remove m cs ++ [b]) := by
  have hremoved : child? (remove m cs) m = none := by rw [child?_remove, if_pos rfl]
  refine ⟨(hsiblings.remove m).concat hname hremoved, ?_, fun n hn => ?_, fun p => ?_⟩
  · exact List.forall_mem_append.mpr
      ⟨fun c hc => hwell c (List.mem_filter.mp hc).1, List.forall_mem_singleton.mpr hb⟩
  · rw [child?_concat, hname, if_neg (by simpa using Ne.symm hn), Option.or_none, child?_remove,
      if_neg hn]
  · rw [child?_concat, hremoved, if_pos hname, Option.none_or, hm, Option.bind_some, Option.bind_some]
    cases p with
    | nil => rw [look_nil, look_nil, Option.some_or]
    | cons n p => rw [look_of_isChildless ha (List.cons_ne_nil n p), Option.or_none]

omit hname in
/-- The entry is merged into one, and both have children. -/
theorem turned_update (hm : child? cs m = some a) (hchildren : b.isChildless = false)
    (hc : WellNamed c) (hcname : c.attrib = a.attrib)
    (hlook : ∀ p ≠ [], look p c = (look p b).or (look p a)) : Turned b m cs (update m c cs) := by
  have hcname' : c.name? = some m := by
    rw [Entry.name?, hcname]
    exact (child?_name hm).2
  have hsome : child? cs m ≠ none := by
    rw [hm]
    exact Option.some_ne_none a
  refine ⟨hsiblings.update hcname', ?_, fun n hn => ?_, fun p => ?_⟩
  · intro c' hc'
    obtain ⟨c'', hc'', rfl⟩ := List.mem_map.mp hc'
    split_ifs
    · exact hc
    · exact hwell c'' hc''
  · rw [child?_update hcname' hsome, if_neg hn]
  · rw [child?_update hcname' hsome, if_pos rfl, hm, Option.bind_some, Option.bind_some]
    cases p with
    | cons n p => exact hlook (n :: p) (List.cons_ne_nil n p)
    | nil =>
      obtain ⟨p, hp, x, hx⟩ := hb.exists_look hchildren
      have hc : look p c = some x := by rw [hlook p hp, hx, Option.some_or]
      rw [look_nil, look_nil, isChildless_of_look hp hc, hchildren]
      rfl

omit hsiblings hwell hb hname

/-! ### The loop -/

/-- Merging makes a right-biased union of two schemas, unless they clash somewhere. -/
structure MergesTo (a b : Entry) (path : String) : Prop where
  merged : (∀ p ≠ [], ¬ Clash a b p) → ∃ r, mergeSchemaEntries a b path = .ok r ∧ WellNamed r ∧
    r.attrib = a.attrib ∧ ∀ p ≠ [], look p r = (look p b).or (look p a)
  clash : (∃ p ≠ [], Clash a b p) →
    ∃ msg, mergeSchemaEntries a b path = .error (.schemaFormatError msg)

/-- The children of that name clash at the path or below. -/
def ChildrenClash (cs bs : List Entry) : Prop :=
  ∃ n a b, child? cs n = some a ∧ child? bs n = some b ∧ ∃ p, Clash a b p

theorem Turned.childrenClash_iff {cs' : List Entry} (h : Turned b m cs cs') (hname : b.name? = some m)
    (hm : child? bs m = none) (hfree : ∀ a, child? cs m = some a → ∀ p, ¬ Clash a b p) :
    ChildrenClash cs (b :: bs) ↔ ChildrenClash cs' bs := by
  constructor
  · rintro ⟨n, a, b', ha, hb', p, hclash⟩
    rw [child?_cons, hname] at hb'
    by_cases hn : n = m
    · subst hn
      rw [if_pos rfl] at hb'
      cases hb'
      exact absurd hclash (hfree a ha p)
    · rw [if_neg (by simpa using Ne.symm hn)] at hb'
      exact ⟨n, a, b', (h.other n hn).trans ha, hb', p, hclash⟩
  · rintro ⟨n, a, b', ha, hb', hclash⟩
    have hn : n ≠ m := by
      rintro rfl
      rw [hm] at hb'
      cases hb'
    refine ⟨n, a, b', (h.other n hn).symm.trans ha, ?_, hclash⟩
    rw [child?_cons, hname, if_neg (by simpa using Ne.symm hn), hb']

/-- What the loop does with the children `bs` of `b`. -/
structure LoopMerges (aChildren : List (String × Entry)) (bs : List Entry) (path : String)
    (cs : List Entry) : Prop where
  merged : ¬ ChildrenClash cs bs → ∃ cs', mergeChildren aChildren bs path cs = .ok cs' ∧ Siblings cs' ∧
    (∀ c ∈ cs', WellNamed c) ∧ ∀ n p, (child? cs' n).bind (look p) =
      ((child? bs n).bind (look p)).or ((child? cs n).bind (look p))
  clash : ChildrenClash cs bs →
    ∃ msg, mergeChildren aChildren bs path cs = .error (.schemaFormatError msg)

/-- A turn of the loop, and what follows it. -/
theorem LoopMerges.cons {aChildren : List (String × Entry)} {path : String} {cs' : List Entry}
    (hloop : LoopMerges aChildren bs path cs') (h : Turned b m cs cs') (hname : b.name? = some m)
    (hm : child? bs m = none) (hfree : ∀ a, child? cs m = some a → ∀ p, ¬ Clash a b p)
    (heq : mergeChildren aChildren (b :: bs) path cs = mergeChildren aChildren bs path cs') :
    LoopMerges aChildren (b :: bs) path cs := by
  have hclash := h.childrenClash_iff hname hm hfree
  refine ⟨fun hnone => ?_, fun hsome => heq ▸ hloop.clash (hclash.mp hsome)⟩
  obtain ⟨r, hr, hsiblings, hwell, hlook⟩ := hloop.merged (mt hclash.mpr hnone)
  refine ⟨r, heq.trans hr, hsiblings, hwell, fun n p => ?_⟩
  rw [hlook, child?_cons, hname]
  by_cases hn : n = m
  · subst hn
    rw [hm, if_pos rfl, Option.bind_none, Option.none_or, h.look, Option.bind_some]
  · rw [if_neg (by simpa using Ne.symm hn), h.other n hn]

theorem mergeChildren_spec {aChildren : List (String × Entry)} {path : String} :
    ∀ {bs cs : List Entry}, Siblings bs → (∀ b ∈ bs, WellNamed b) →
    (∀ b ∈ bs, ∀ a path, WellNamed a → MergesTo a b path) → Siblings cs → (∀ c ∈ cs, WellNamed c) →
    (∀ n, child? bs n ≠ none → aChildren.lookup n = child? cs n) → LoopMerges aChildren bs path cs
  | [], cs, _, _, _, hcs, hwell, _ => by
    refine ⟨fun _ => ⟨cs, by rw [mergeChildren]; rfl, hcs, hwell, fun n p => rfl⟩, ?_⟩
    rintro ⟨n, a, b, -, hb, -⟩
    cases hb
  | b :: bs, cs, hbs, hwellB, hmerge, hcs, hwell, hlookup => by
    obtain ⟨m, hname⟩ := Option.ne_none_iff_exists'.mp (hbs.named b List.mem_cons_self)
    obtain ⟨hb, hwellB⟩ := List.forall_mem_cons.mp hwellB
    obtain ⟨hmergeB, hmerge⟩ := List.forall_mem_cons.mp hmerge
    have hnodup := List.nodup_cons.mp (List.map_cons (f := Entry.name?) ▸ hbs.nodup)
    have hrest : Siblings bs := ⟨fun c hc => hbs.named c (List.mem_cons_of_mem _ hc), hnodup.2⟩
    have hm : child? bs m = none :=
      child?_eq_none.mpr fun c hc heq =>
        hnodup.1 (List.mem_map.mpr ⟨c, hc, heq.trans hname.symm⟩)
    have hlookupM : aChildren.lookup m = child? cs m :=
      hlookup m (by rw [child?_cons, if_pos hname]; exact Option.some_ne_none b)
    -- the other children of `a` are still the ones it had at the start
    have hnext : ∀ cs', Turned b m cs cs' → LoopMerges aChildren bs path cs' := fun cs' hturn =>
      mergeChildren_spec hrest hwellB hmerge hturn.siblings hturn.wellNamed fun n hn => by
        have hne : n ≠ m := fun heq => hn (heq ▸ hm)
        rw [hturn.other n hne]
        refine hlookup n ?_
        rwa [child?_cons, hname, if_neg (by simpa using Ne.symm hne)]
    cases ha : child? cs m with
    | none =>
      have hturn := turned_append hcs hwell hb hname ha
      refine (hnext _ hturn).cons hturn hname hm (by simp [ha]) ?_
      rw [mergeChildren, hname]
      simp only [hlookupM, ha]
    | some a =>
      have hmem := child?_name ha
      have hloop : mergeChildren aChildren (b :: bs) path cs =
          if b.isChildless ≠ a.isChildless then throw (childrenError path m)
          else if ¬ b.isChildless then do
            let c ← mergeSchemaEntries a b (path ++ "." ++ m)
            mergeChildren aChildren bs path (update m c cs)
          else mergeChildren aChildren bs path (remove m cs ++ [b]) := by
        rw [mergeChildren, hname]
        simp only [hlookupM, ha]
      have hclash : ∀ p, Clash a b p → ChildrenClash cs (b :: bs) := fun p hp =>
        ⟨m, a, b, ha, by rw [child?_cons, if_pos hname], p, hp⟩
      have hfree : ∀ a', child? cs m = some a' → (∀ p, ¬ Clash a b p) → ∀ p, ¬ Clash a' b p := by
        intro a' ha' h
        cases ha.symm.trans ha'
        exact h
      by_cases hdiffer : b.isChildless ≠ a.isChildless
      · rw [if_pos hdiffer] at hloop
        exact ⟨fun hnone => absurd (hclash [] (clash_nil.mpr hdiffer.symm)) hnone,
          fun _ => ⟨_, hloop⟩⟩
      rw [if_neg hdiffer] at hloop
      have hnil : ¬ Clash a b [] := fun h => hdiffer (clash_nil.mp h).symm
      cases hchildren : b.isChildless with
      | true =>
        have haChildless : a.isChildless = true := (not_not.mp hdiffer).symm.trans hchildren
        rw [hchildren, if_neg (by simp)] at hloop
        have hturn := turned_replace hcs hwell hb hname ha haChildless
        refine (hnext _ hturn).cons hturn hname hm (fun a' ha' => hfree a' ha' fun p hp => ?_) hloop
        cases p with
        | nil => exact hnil hp
        | cons n p =>
          obtain ⟨x, y, hx, -⟩ := hp
          rw [look_of_isChildless haChildless (List.cons_ne_nil n p)] at hx
          cases hx
      | false =>
        rw [hchildren, if_pos (by simp)] at hloop
        have hsub := hmergeB a (path ++ "." ++ m) (hwell a hmem.1)
        by_cases hbelow : ∃ p ≠ [], Clash a b p
        · obtain ⟨p, -, hp⟩ := id hbelow
          obtain ⟨msg, hmsg⟩ := hsub.clash hbelow
          exact ⟨fun hnone => absurd (hclash p hp) hnone, fun _ => ⟨msg, by rw [hloop, hmsg]; rfl⟩⟩
        · have hbelow' : ∀ p ≠ [], ¬ Clash a b p := fun p hp h => hbelow ⟨p, hp, h⟩
          obtain ⟨c, hc, hcwell, hattrib, hlook⟩ := hsub.merged hbelow'
          have hturn := turned_update hcs hwell hb ha hchildren hcwell hattrib hlook
          refine (hnext _ hturn).cons hturn hname hm (fun a' ha' => hfree a' ha' fun p hp => ?_) ?_
          · rcases eq_or_ne p [] with rfl | hne
            · exact hnil hp
            · exact hbelow' p hne hp
          · rw [hloop, hc]
            rfl

/-! ### Two schemas -/

theorem clash_cons : Clash a b (n :: p) ↔
    ∃ a' b', child? a.children n = some a' ∧ child? b.children n = some b' ∧ Clash a' b' p := by
  simp only [Clash, look_cons, Option.bind_eq_some_iff]
  constructor
  · rintro ⟨x, y, ⟨a', ha', hx⟩, ⟨b', hb', hy⟩, hne⟩
    exact ⟨a', b', ha', hb', x, y, hx, hy, hne⟩
  · rintro ⟨a', b', ha', hb', x, y, hx, hy, hne⟩
    exact ⟨x, y, ⟨a', ha', hx⟩, ⟨b', hb', hy⟩, hne⟩

theorem childrenClash_iff : ChildrenClash a.children b.children ↔ ∃ p ≠ [], Clash a b p := by
  constructor
  · rintro ⟨n, a', b', ha, hb, p, hclash⟩
    exact ⟨n :: p, List.cons_ne_nil n p, clash_cons.mpr ⟨a', b', ha, hb, hclash⟩⟩
  · rintro ⟨_ | ⟨n, p⟩, hp, hclash⟩
    · exact absurd rfl hp
    · obtain ⟨a', b', ha, hb, hclash⟩ := clash_cons.mp hclash
      exact ⟨n, a', b', ha, hb, p, hclash⟩

/-- The dictionary of the children finds them by their names. -/
theorem childrenByName_eq : ∀ {cs : List Entry}, (∀ c ∈ cs, c.name? ≠ none) →
    ∃ d, childrenByName cs = .ok d ∧ ∀ n, d.lookup n = child? cs n
  | [], _ => ⟨[], rfl, fun _ => rfl⟩
  | c :: cs, h => by
    obtain ⟨hc, hcs⟩ := List.forall_mem_cons.mp h
    obtain ⟨m, hm⟩ := Option.ne_none_iff_exists'.mp hc
    obtain ⟨d, hd, hlookup⟩ := childrenByName_eq hcs
    refine ⟨(m, c) :: d, ?_, fun n => ?_⟩
    · rw [childrenByName, List.mapM_cons, hm]
      rw [childrenByName] at hd
      rw [hd]
      rfl
    · rw [child?_cons, hm, List.lookup_cons, hlookup]
      by_cases hn : n = m
      · simp [hn]
      · simp [beq_eq_false_iff_ne.mpr hn, Ne.symm hn]

/-- `_merge_schema_entries` on well-named schemas. -/
theorem mergesTo (b : Entry) (hb : WellNamed b) (a : Entry) (path : String) (ha : WellNamed a) :
    MergesTo a b path := by
  obtain ⟨d, hd, hlookup⟩ := childrenByName_eq ha.siblings.named
  have hmerge : ∀ c ∈ b.children, ∀ a path, WellNamed a → MergesTo a c path :=
    fun c hc => mergesTo c (hb.children c hc)
  have hloop : LoopMerges d b.children path a.children :=
    mergeChildren_spec hb.siblings hb.children hmerge ha.siblings ha.children fun n _ => hlookup n
  have heq : mergeSchemaEntries a b path = (do
      let cs ← mergeChildren d b.children path a.children
      pure (a.withChildren cs)) := by
    cases b
    rw [mergeSchemaEntries, hd]
    rfl
  refine ⟨fun hnone => ?_, fun hclash => ?_⟩
  · obtain ⟨cs, hcs, hcsSiblings, hwell, hlook⟩ := hloop.merged fun h => by
      obtain ⟨p, hp, hclash⟩ := childrenClash_iff.mp h
      exact hnone p hp hclash
    refine ⟨a.withChildren cs, by rw [heq, hcs]; rfl, .mk ?_ ?_, Entry.attrib_withChildren cs a, ?_⟩
    · rwa [Entry.children_withChildren]
    · rwa [Entry.children_withChildren]
    · rintro (_ | ⟨n, p⟩) hp
      · exact absurd rfl hp
      · rw [look_cons, Entry.children_withChildren, look_cons, look_cons, hlook]
  · obtain ⟨msg, hmsg⟩ := hloop.clash (childrenClash_iff.mpr hclash)
    exact ⟨msg, by rw [heq, hmsg]; rfl⟩
termination_by sizeOf b
decreasing_by exact Entry.sizeOf_lt_of_mem hc

/-! ### All schemas -/

theorem Clash.symm (h : Clash a b p) : Clash b a p := by
  obtain ⟨x, y, hx, hy, hne⟩ := h
  exact ⟨y, x, hy, hx, hne.symm⟩

theorem not_clash_self : ¬ Clash a a p := by
  rintro ⟨x, y, hx, hy, hne⟩
  rw [hx] at hy
  cases hy
  exact hne rfl

/-- A union clashes with what one of its parts clashes with. -/
theorem clash_union {r : Entry} (hr : look p r = (look p b).or (look p a)) (h : ¬ Clash a b p) :
    Clash r c p ↔ Clash a c p ∨ Clash b c p := by
  cases hb : look p b with
  | none =>
    rw [hb, Option.none_or] at hr
    simp only [Clash, hr, hb, reduceCtorEq, false_and, exists_false, or_false]
  | some y =>
    rw [hb, Option.some_or] at hr
    simp only [Clash, hr, hb]
    refine ⟨.inr, fun hclash => hclash.elim ?_ id⟩
    rintro ⟨x, z, hx, hz, hne⟩
    have hxy : x.isSome = y.isSome := by
      by_contra hxy
      exact h ⟨x, y, hx, hb, hxy⟩
    exact ⟨y, z, rfl, hz, hxy ▸ hne⟩

/-- Two of the schemas clash. -/
def SomeClash (schemas : List Entry) : Prop :=
  ∃ p ≠ [], ∃ s ∈ schemas, ∃ s' ∈ schemas, Clash s s' p

/-- What the last schema that has the path has there. -/
def lookLast (p : List String) (schemas : List Entry) : Option (Option (List (String × String))) :=
  schemas.reverse.findSome? (look p)

theorem lookLast_cons (schemas : List Entry) :
    lookLast p (a :: schemas) = (lookLast p schemas).or (look p a) := by
  rw [lookLast, List.reverse_cons, List.findSome?_append, List.findSome?_cons, lookLast]
  cases look p a <;> rfl

theorem lookLast_of_forall {schemas : List Entry} (h : ∀ s ∈ schemas, look p s = none) :
    lookLast p schemas = none :=
  List.findSome?_eq_none_iff.mpr fun s hs => h s (List.mem_reverse.mp hs)

theorem lookLast_append (before after : List Entry) :
    lookLast p (before ++ after) = (lookLast p after).or (lookLast p before) := by
  rw [lookLast, List.reverse_append, List.findSome?_append, lookLast, lookLast]

theorem someClash_cons {schemas : List Entry} :
    SomeClash (a :: schemas) ↔ (∃ p ≠ [], ∃ s ∈ schemas, Clash a s p) ∨ SomeClash schemas := by
  constructor
  · rintro ⟨p, hp, s, hs, s', hs', hclash⟩
    rcases List.mem_cons.mp hs with heq | hs
    · subst heq
      rcases List.mem_cons.mp hs' with heq | hs'
      · exact absurd (heq ▸ hclash) not_clash_self
      · exact .inl ⟨p, hp, s', hs', hclash⟩
    · rcases List.mem_cons.mp hs' with heq | hs'
      · exact .inl ⟨p, hp, s, hs, heq ▸ hclash.symm⟩
      · exact .inr ⟨p, hp, s, hs, s', hs', hclash⟩
  · rintro (⟨p, hp, s, hs, hclash⟩ | ⟨p, hp, s, hs, s', hs', hclash⟩)
    · exact ⟨p, hp, a, List.mem_cons_self, s, List.mem_cons_of_mem _ hs, hclash⟩
    · exact ⟨p, hp, s, List.mem_cons_of_mem _ hs, s', List.mem_cons_of_mem _ hs', hclash⟩

/-- The union of two schemas clashes with the others if one of the two does. -/
theorem someClash_union {r : Entry} {schemas : List Entry}
    (hr : ∀ p ≠ [], look p r = (look p b).or (look p a)) (h : ∀ p ≠ [], ¬ Clash a b p) :
    SomeClash (r :: schemas) ↔ SomeClash (a :: b :: schemas) := by
  have hunion : (∃ p ≠ [], ∃ s ∈ schemas, Clash r s p) ↔
      (∃ p ≠ [], ∃ s ∈ schemas, Clash a s p) ∨ ∃ p ≠ [], ∃ s ∈ schemas, Clash b s p := by
    constructor
    · rintro ⟨p, hp, s, hs, hclash⟩
      rcases (clash_union (hr p hp) (h p hp)).mp hclash with hclash | hclash
      · exact .inl ⟨p, hp, s, hs, hclash⟩
      · exact .inr ⟨p, hp, s, hs, hclash⟩
    · rintro (⟨p, hp, s, hs, hclash⟩ | ⟨p, hp, s, hs, hclash⟩)
      · exact ⟨p, hp, s, hs, (clash_union (hr p hp) (h p hp)).mpr (.inl hclash)⟩
      · exact ⟨p, hp, s, hs, (clash_union (hr p hp) (h p hp)).mpr (.inr hclash)⟩
  have hfirst : (∃ p ≠ [], ∃ s ∈ b :: schemas, Clash a s p) ↔
      ∃ p ≠ [], ∃ s ∈ schemas, Clash a s p := by
    refine exists_congr fun p => and_congr_right fun hp => ?_
    simp only [List.mem_cons, exists_eq_or_imp, h p hp, false_or]
  rw [someClash_cons, someClash_cons, someClash_cons, hunion, hfirst, or_assoc]

/-- Schemas that clash nowhere are merged into their right-biased union. -/
theorem foldlM_merge : ∀ {schemas : List Entry} {a : Entry}, WellNamed a → (∀ s ∈ schemas, WellNamed s) →
    (¬ SomeClash (a :: schemas) →
      ∃ r, schemas.foldlM (fun merged schema => mergeSchemaEntries merged schema "") a = .ok r ∧
        WellNamed r ∧ ∀ p ≠ [], look p r = (lookLast p schemas).or (look p a)) ∧
    (SomeClash (a :: schemas) →
      ∃ msg, schemas.foldlM (fun merged schema => mergeSchemaEntries merged schema "") a =
        .error (.schemaFormatError msg))
  | [], a, ha, _ => by
    refine ⟨fun _ => ⟨a, rfl, ha, fun p _ => rfl⟩, fun h => ?_⟩
    rcases someClash_cons.mp h with ⟨p, -, s, hs, -⟩ | ⟨p, -, s, hs, -⟩
    · cases hs
    · cases hs
  | b :: schemas, a, ha, hschemas => by
    obtain ⟨hb, hschemas⟩ := List.forall_mem_cons.mp hschemas
    have hmerge := mergesTo b hb a "" ha
    rw [List.foldlM_cons]
    by_cases hclash : ∃ p ≠ [], Clash a b p
    · obtain ⟨p, hp, hab⟩ := id hclash
      obtain ⟨msg, hmsg⟩ := hmerge.clash hclash
      refine ⟨fun hnone => absurd ?_ hnone, fun _ => ⟨msg, by rw [hmsg]; rfl⟩⟩
      exact someClash_cons.mpr (.inl ⟨p, hp, b, List.mem_cons_self, hab⟩)
    · have hfree : ∀ p ≠ [], ¬ Clash a b p := fun p hp h => hclash ⟨p, hp, h⟩
      obtain ⟨r, hr, hrwell, -, hlook⟩ := hmerge.merged hfree
      obtain ⟨hmerged, herror⟩ := foldlM_merge hrwell hschemas
      rw [hr]
      rw [someClash_union hlook hfree] at hmerged herror
      refine ⟨fun hnone => ?_, herror⟩
      obtain ⟨r', hr', hwell', hlook'⟩ := hmerged hnone
      refine ⟨r', hr', hwell', fun p hp => ?_⟩
      rw [hlook' p hp, hlook p hp, lookLast_cons, Option.or_assoc]

/-- Merging fails if and only if an entry has children in one schema and none in another one. Otherwise
    the names of siblings are unique in the result, its paths are those of all schemas, and each entry
    without children is as in the last schema that has its path. -/
theorem mergeSchemas_correct (schemas : List Entry) (h : ∀ s ∈ schemas, WellNamed s) :
    ((∃ msg, mergeSchemas schemas = .error (.schemaFormatError msg)) ↔
      ∃ p ≠ [], ∃ s ∈ schemas, ∃ s' ∈ schemas, Clash s s' p) ∧
    ((¬ ∃ p ≠ [], ∃ s ∈ schemas, ∃ s' ∈ schemas, Clash s s' p) →
      ∃ r, mergeSchemas schemas = .ok r ∧ WellNamed r ∧
        (∀ p ≠ [], look p r ≠ none ↔ ∃ s ∈ schemas, look p s ≠ none) ∧
        ∀ p ≠ [], ∀ before s after, schemas = before ++ s :: after → look p s ≠ none →
          (∀ s' ∈ after, look p s' = none) → look p r = look p s) := by
  have hempty : WellNamed emptySchema := .mk ⟨nofun, List.nodup_nil⟩ nofun
  have hlookEmpty : ∀ p ≠ [], look p emptySchema = none := fun p hp => look_of_isChildless rfl hp
  have hsome : SomeClash (emptySchema :: schemas) ↔ SomeClash schemas := by
    rw [someClash_cons]
    refine or_iff_right ?_
    rintro ⟨p, hp, s, -, x, y, hx, -⟩
    rw [hlookEmpty p hp] at hx
    cases hx
  obtain ⟨hmerged, herror⟩ := foldlM_merge hempty h
  rw [hsome] at hmerged herror
  refine ⟨⟨fun ⟨msg, hmsg⟩ => ?_, herror⟩, fun hnone => ?_⟩
  · by_contra hnone
    obtain ⟨r, hr, -⟩ := hmerged hnone
    cases hmsg.symm.trans hr
  · obtain ⟨r, hr, hwell, hlook⟩ := hmerged hnone
    have hlast : ∀ p ≠ [], look p r = lookLast p schemas := fun p hp => by
      rw [hlook p hp, hlookEmpty p hp, Option.or_none]
    refine ⟨r, hr, hwell, fun p hp => ?_, fun p hp before s after heq hs hafter => ?_⟩
    · rw [hlast p hp, lookLast, Ne, List.findSome?_eq_none_iff]
      simp only [List.mem_reverse, not_forall, exists_prop, ne_eq]
    · rw [hlast p hp, heq, lookLast_append, lookLast_cons, lookLast_of_forall hafter, Option.none_or]
      exact Option.or_of_isSome (Option.isSome_iff_ne_none.mpr hs)

/-- Two schemas of which the second overrides an entry of the first one. -/
def twoSchemas : List Entry :=
  [.node "schema" [] [.node "entry" [("name", "prefix"), ("type", "ident")] [],
      .node "entry" [("name", "tasks")] [.node "entry" [("name", "task")] []]],
    .node "schema" [] [.node "entry" [("name", "prefix"), ("type", "c_ident")] []]]

theorem twoSchemas_wellNamed : ∀ s ∈ twoSchemas, WellNamed s := by
  have hleaf : ∀ tag attrib, WellNamed (.node tag attrib []) :=
    fun tag attrib => .mk ⟨nofun, List.nodup_nil⟩ nofun
  have htasks : WellNamed (.node "entry" [("name", "tasks")] [.node "entry" [("name", "task")] []]) :=
    .mk ⟨by simp [Entry.children, Entry.name?, Entry.attrib], List.nodup_singleton _⟩
      (List.forall_mem_singleton.mpr (hleaf _ _))
  refine List.forall_mem_cons.mpr ⟨.mk ⟨?_, ?_⟩ ?_, List.forall_mem_singleton.mpr (.mk ⟨?_, ?_⟩ ?_)⟩
  · simp [Entry.children, Entry.name?, Entry.attrib]
  · decide
  · exact List.forall_mem_cons.mpr ⟨hleaf _ _, List.forall_mem_singleton.mpr htasks⟩
  · simp [Entry.children, Entry.name?, Entry.attrib]
  · decide
  · exact List.forall_mem_singleton.mpr (hleaf _ _)

theorem mergeSchemas_correct_twoSchemas :
    ∃ r, mergeSchemas twoSchemas = .ok r ∧ WellNamed r ∧
      look ["prefix"] r = some (some [("name", "prefix"), ("type", "c_ident")]) := by
  obtain ⟨hraises, hmerges⟩ := mergeSchemas_correct twoSchemas twoSchemas_wellNamed
  have hok : (mergeSchemas twoSchemas).isOk = true := by rfl
  obtain ⟨r, hr, hwell, -, hlast⟩ := hmerges fun hclash => by
    obtain ⟨msg, hmsg⟩ := hraises.mpr hclash
    rw [hmsg] at hok
    cases hok
  refine ⟨r, hr, hwell, ?_⟩
  exact hlast ["prefix"] (List.cons_ne_nil _ _) [_] _ [] rfl (by decide) nofun

end Echronos.Build
