import Echronos.Xml.Schema
import Mathlib.Data.List.Nodup

/-! # What a `one_of` constraint accepts

    `get_dict_val` counts the listed elements whose value is `None` and expects one. An optional
    element that is absent is `None`, unless it is a dictionary, which is then empty; so the check
    demands that exactly one element be absent. For two elements, none of them a dictionary, this is
    to say that exactly one is present. -/

namespace Echronos.Xml

open Schemes

/-! ### Values that are `None` -/

theorem coerce_isNone {type : LeafType} {val : String} {el : Option Element} {v : Value}
    (h : coerce type val el = .ok v) : v.isNone = false := by
  cases type with
  | string | cIdent | object group => cases h; rfl
  | bool =>
    simp only [coerce] at h
    split_ifs at h <;> cases h <;> rfl
  | int =>
    simp only [coerce] at h
    split at h <;> cases h
    rfl
  | ident =>
    simp only [coerce] at h
    split at h <;> cases h
    rfl

theorem getTextValue_some {name : String} {default : Option String} {optional : Bool}
    {el parent : Element} {r : Option String}
    (h : getTextValue name default optional (some el) parent = .ok r) : r ≠ none := by
  rintro rfl
  simp only [getTextValue] at h
  cases htext : singleTextChild el <;> simp [htext, Functor.map, Except.map] at h

theorem getDictVal_isNone {schemas : List Schema} {constraints : List Constraint} {el : Element}
    {v : Value} (h : getDictVal schemas constraints el = .ok v) : v.isNone = false := by
  obtain ⟨-, -, h⟩ := bind_eq_ok.mp h
  split_ifs at h
  · cases hvals : untypedVals el.childNodes <;> simp [hvals, Functor.map, Except.map] at h
    subst h
    rfl
  · obtain ⟨⟨r, els⟩, -, h⟩ := bind_eq_ok.mp h
    cases els with
    | nil =>
      obtain ⟨-, -, h⟩ := bind_eq_ok.mp h
      cases h
      rfl
    | cons => cases h

/-- An optional entry without default is `None` when it is absent, a dictionary apart. -/
theorem getElVal_isNone {f : Schema} {el : Option Element} {parent : Element} {v : Value}
    (hoptional : f.optional = true) (hdefault : f.hasDefault = false)
    (h : getElVal f el parent = .ok v) :
    v.isNone = true ↔ el = none ∧ f.isDict = false := by
  cases f with
  | leaf type name default optional =>
    obtain rfl : optional = true := hoptional
    obtain rfl : default = none := by simpa [Schema.hasDefault] using hdefault
    rw [getElVal] at h
    obtain ⟨-, -, h⟩ := bind_eq_ok.mp h
    obtain ⟨val, hval, h⟩ := bind_eq_ok.mp h
    cases el with
    | none =>
      cases hval
      cases h
      simp [Value.isNone, Schema.isDict]
    | some el =>
      obtain ⟨val, rfl⟩ := Option.ne_none_iff_exists'.mp (getTextValue_some hval)
      simp [coerce_isNone h]
  | list name hasDefault optional listType autoIndexField =>
    obtain rfl : optional = true := hoptional
    obtain rfl : hasDefault = false := hdefault
    cases el with
    | none =>
      rw [getElVal] at h
      cases h
      simp [Value.isNone, Schema.isDict]
    | some el =>
      rw [getElVal] at h
      obtain ⟨-, -, h⟩ := bind_eq_ok.mp h
      obtain ⟨r, -, h⟩ := bind_eq_ok.mp h
      cases hr : addIndexes autoIndexField el r <;> simp [hr, Functor.map, Except.map] at h
      subst h
      simp [Value.isNone]
  | dict name default optional schemas constraints =>
    cases el with
    | none =>
      rw [getElVal] at h
      cases h
      simp [Value.isNone, Schema.isDict]
    | some el =>
      rw [getElVal_dict] at h
      obtain ⟨-, -, h⟩ := bind_eq_ok.mp h
      simp [getDictVal_isNone h]

/-! ### The entries of a dictionary -/

variable {schemas : List Schema} {els els' : List Element} {r r' : Dict} {el : Element} {n : String}

theorem getEntries_cons {f : Schema} {rest : List Schema}
    (h : getEntries (f :: rest) els r el = .ok (r', els')) :
    ∃ v, getElVal f (els.find? (·.tagName = f.name)) el = .ok v ∧
      getEntries rest (els.filter (·.tagName ≠ f.name)) (Assoc.set f.name v r) el = .ok (r', els') := by
  rw [getEntries] at h
  exact bind_eq_ok.mp h

theorem getEntries_lookup_of_not_mem : ∀ {schemas : List Schema} {els : List Element} {r : Dict},
    getEntries schemas els r el = .ok (r', els') → n ∉ schemas.map Schema.name →
    r'.lookup n = r.lookup n
  | [], _, _, h, _ => by cases h; rfl
  | f :: rest, els, r, h, hn => by
    obtain ⟨hne, hrest⟩ := not_or.mp (mt List.mem_cons.mpr hn)
    obtain ⟨v, -, h⟩ := getEntries_cons h
    rw [getEntries_lookup_of_not_mem h hrest, Assoc.lookup_set, if_neg hne]

/-- The item of an entry that is declared once is what its element gives. -/
theorem getEntries_lookup {f : Schema} : ∀ {schemas : List Schema} {els : List Element} {r : Dict},
    getEntries schemas els r el = .ok (r', els') → schemas.filter (·.name = n) = [f] →
    ∃ v, r'.lookup n = some v ∧ getElVal f (els.find? (·.tagName = n)) el = .ok v
  | [], _, _, _, hf => by cases hf
  | g :: rest, els, r, h, hf => by
    obtain ⟨v, hv, h⟩ := getEntries_cons h
    by_cases hg : g.name = n
    · subst hg
      rw [List.filter_cons_of_pos (by simp)] at hf
      obtain ⟨rfl, hrest⟩ := List.cons.inj hf
      have hn : g.name ∉ rest.map Schema.name := by
        simpa [List.filter_eq_nil_iff] using hrest
      refine ⟨v, ?_, hv⟩
      rw [getEntries_lookup_of_not_mem h hn, Assoc.lookup_set, if_pos rfl]
    · rw [List.filter_cons_of_neg (by simpa using hg)] at hf
      obtain ⟨w, hw, hval⟩ := getEntries_lookup h hf
      refine ⟨w, hw, ?_⟩
      rwa [find?_filter_ne hg] at hval
where
  find?_filter_ne {a n : String} {els : List Element} (h : a ≠ n) :
      (els.filter (·.tagName ≠ a)).find? (·.tagName = n) = els.find? (·.tagName = n) := by
    rw [List.find?_filter]
    congr 1
    funext c
    by_cases hc : c.tagName = n
    · simp [hc, Ne.symm h]
    · simp [hc]

/-- What `get_dict_val` accepts when some entries are declared. -/
theorem getDictVal_eq_ok {constraints : List Constraint} {v : Value} (hne : schemas ≠ []) :
    getDictVal schemas constraints el = .ok v ↔
      (childNames el).Nodup ∧ ∃ r, getEntries schemas (elementChildren el) [] el = .ok (r, []) ∧
        (∀ c ∈ constraints, checkConstraint el r c = .ok ()) ∧ v = .dict r := by
  have hunique : ensureUniqueTagNames [] (elementChildren el) = .ok () ↔ (childNames el).Nodup := by
    rw [ensureUniqueTagNames_eq_ok]
    simp [childNames]
  have hempty : ¬ schemas.isEmpty = true := by simpa using hne
  rw [getDictVal, bind_eq_ok]
  simp only [hempty, if_false, Bool.false_eq_true]
  constructor
  · rintro ⟨⟨⟩, hnodup, h⟩
    obtain ⟨⟨r, els⟩, hentries, h⟩ := bind_eq_ok.mp h
    cases els with
    | cons => cases h
    | nil =>
      obtain ⟨⟨⟩, hconstraints, h⟩ := bind_eq_ok.mp h
      cases h
      exact ⟨hunique.mp hnodup, r, hentries, forM_eq_ok.mp hconstraints, rfl⟩
  · rintro ⟨hnodup, r, hentries, hconstraints, rfl⟩
    refine ⟨(), hunique.mpr hnodup, bind_eq_ok.mpr ⟨(r, []), hentries, ?_⟩⟩
    exact bind_eq_ok.mpr ⟨(), forM_eq_ok.mpr hconstraints, rfl⟩

/-! ### The constraint -/

/-- The elements are declared in the dictionary, each once, as optional and without a default. -/
structure Declares (schemas : List Schema) (elements : List String) : Prop where
  nodup : elements.Nodup
  entry : ∀ n ∈ elements, ∃ f, schemas.filter (·.name = n) = [f] ∧ f.optional = true ∧
    f.hasDefault = false

/-- The dictionary declares an element that is itself a dictionary. -/
def declaresDict (schemas : List Schema) (n : String) : Bool :=
  schemas.any fun f => f.name = n && f.isDict

/-- The element has a child of that name. -/
def present (el : Element) (n : String) : Bool := n ∈ childNames el

theorem declaresDict_of_filter {f : Schema} (hf : schemas.filter (·.name = n) = [f]) :
    declaresDict schemas n = f.isDict := by
  have hany : declaresDict schemas n = (schemas.filter (·.name = n)).any Schema.isDict := by
    rw [List.any_filter]
    rfl
  rw [hany, hf]
  simp

theorem present_iff : present el n = true ↔ ∃ c ∈ elementChildren el, c.tagName = n := by
  simp [present, childNames]

theorem find?_eq_none_iff : (elementChildren el).find? (·.tagName = n) = none ↔
    present el n = false := by
  simp [present, childNames]

variable {elements : List String}

theorem Declares.schemas_ne_nil (h : Declares schemas elements) (hn : n ∈ elements) :
    schemas ≠ [] := by
  rintro rfl
  obtain ⟨f, hf, -⟩ := h.entry n hn
  cases hf

/-- The check of a `one_of` constraint: as many listed elements are absent, dictionaries apart, as it
    takes. -/
theorem checkConstraint_eq_ok (hdeclares : Declares schemas elements)
    (h : getEntries schemas (elementChildren el) [] el = .ok (r, [])) :
    checkConstraint el r ⟨.oneOf, elements⟩ = .ok () ↔
      elements.countP (fun n => !present el n && !declaresDict schemas n) = 1 := by
  have hitem : ∀ n ∈ elements, ∃ v, getItem r n = .ok v ∧
      v.isNone = (!present el n && !declaresDict schemas n) := by
    intro n hn
    obtain ⟨f, hf, hoptional, hdefault⟩ := hdeclares.entry n hn
    obtain ⟨v, hv, hval⟩ := getEntries_lookup h hf
    refine ⟨v, by simp [getItem, hv, pure, Except.pure], Bool.eq_iff_iff.mpr ?_⟩
    rw [getElVal_isNone hoptional hdefault hval, find?_eq_none_iff, declaresDict_of_filter hf]
    simp
  have hvalues : ∀ l ⊆ elements, ∃ values, l.mapM (getItem r) = .ok values ∧
      (values.filter Value.isNone).length =
        l.countP fun n => !present el n && !declaresDict schemas n := by
    intro l
    induction l with
    | nil => exact fun _ => ⟨[], rfl, rfl⟩
    | cons n l ih =>
      intro hl
      obtain ⟨hn, hl⟩ := List.cons_subset.mp hl
      obtain ⟨v, hv, hnone⟩ := hitem n hn
      obtain ⟨values, hvalues, hlength⟩ := ih hl
      refine ⟨v :: values, ?_, ?_⟩
      · rw [List.mapM_cons, hv, hvalues]
        rfl
      · rw [List.countP_cons, ← hlength, ← hnone, List.filter_cons]
        split <;> simp
  obtain ⟨values, hmap, hlength⟩ := hvalues elements (List.Subset.refl _)
  simp only [checkConstraint, hmap, bind, Except.bind, hlength]
  split_ifs with hcount
  · exact ⟨nofun, fun h => absurd h hcount⟩
  · exact ⟨fun _ => not_not.mp hcount, fun _ => rfl⟩

/-- The constraint accepts a dictionary, as far as it alone is concerned, if and only if exactly one
    of the listed elements is present. -/
def MeansExactlyOne (schemas : List Schema) (elements : List String) : Prop :=
  ∀ (el : Element) (v : Value), getDictVal schemas [] el = .ok v →
    (getDictVal schemas [⟨.oneOf, elements⟩] el = .ok v ↔ elements.countP (present el) = 1)

theorem getDictVal_oneOf {v : Value} (hne : schemas ≠ []) (hdeclares : Declares schemas elements)
    (h : getDictVal schemas [] el = .ok v) :
    getDictVal schemas [⟨.oneOf, elements⟩] el = .ok v ↔
      elements.countP (fun n => !present el n && !declaresDict schemas n) = 1 := by
  obtain ⟨hnodup, r, hentries, -, rfl⟩ := (getDictVal_eq_ok hne).mp h
  rw [getDictVal_eq_ok hne, ← checkConstraint_eq_ok hdeclares hentries]
  constructor
  · rintro ⟨-, r', hentries', hcheck, hr⟩
    obtain rfl := Value.dict.inj hr
    exact hcheck _ (List.mem_singleton.mpr rfl)
  · intro hcheck
    exact ⟨hnodup, r, hentries, by simpa using hcheck, rfl⟩

/-- With two elements that are no dictionaries, one is absent if and only if one is present. -/
theorem meansExactlyOne_of_two (hdeclares : Declares schemas elements) (htwo : elements.length = 2)
    (hdict : ∀ n ∈ elements, declaresDict schemas n = false) : MeansExactlyOne schemas elements := by
  intro el v h
  obtain ⟨n, hn⟩ := List.exists_mem_of_length_pos (by omega : 0 < elements.length)
  have hne := hdeclares.schemas_ne_nil hn
  have habsent : elements.countP (fun n => !present el n && !declaresDict schemas n) =
      elements.countP fun n => !present el n :=
    List.countP_congr fun n hn => by simp [hdict n hn]
  have htotal := List.length_eq_countP_add_countP (present el) (l := elements)
  rw [getDictVal_oneOf hne hdeclares h, habsent]
  simp only [Bool.not_eq_true, Bool.decide_eq_false] at htotal
  omega

/-! ### Configurations in which any of the elements occur -/

/-- Text that an entry of a type can hold. -/
def sampleText : LeafType → String
  | .bool => "true"
  | .int => "0"
  | .ident => "a"
  | .string | .cIdent | .object _ => ""

/-- An element for an entry that is no dictionary; a list has no entries. -/
def sample (f : Schema) : Element where
  tagName := f.name
  attributes := []
  childNodes := match f with
    | .leaf type _ _ _ => [.text (sampleText type)]
    | .list _ _ _ _ _ | .dict _ _ _ _ _ => []
  position := ⟨"", 0, 0, 0⟩

theorem coerce_sampleText (type : LeafType) (el : Option Element) :
    ∃ v, coerce type (sampleText type) el = .ok v := by
  cases type with
  | string | cIdent | object group => exact ⟨_, rfl⟩
  | bool =>
    have htrue : ("true" : String).toLower = "true" := by decide +kernel
    exact ⟨.bool true, by simp [coerce, sampleText, htrue, pure, Except.pure]⟩
  | int =>
    have hzero : int? "0" = some 0 := by decide +kernel
    exact ⟨.int 0, by simp [coerce, sampleText, hzero, pure, Except.pure]⟩
  | ident =>
    have hident : checkIdent "a" = none := by decide +kernel
    exact ⟨.str "a", by simp [coerce, sampleText, hident, pure, Except.pure]⟩

theorem getElVal_sample {f : Schema} (h : f.isDict = false) (parent : Element) :
    ∃ v, getElVal f (some (sample f)) parent = .ok v := by
  cases f with
  | leaf type name default optional =>
    obtain ⟨v, hv⟩ := coerce_sampleText type (some (sample (.leaf type name default optional)))
    refine ⟨v, ?_⟩
    rw [getElVal]
    exact bind_eq_ok.mpr ⟨(), if_neg (not_not.mpr rfl), bind_eq_ok.mpr ⟨some (sampleText type), rfl, hv⟩⟩
  | list name hasDefault optional listType autoIndexField =>
    refine ⟨.list [], ?_⟩
    rw [getElVal]
    refine bind_eq_ok.mpr ⟨(), if_neg (not_not.mpr rfl), bind_eq_ok.mpr ⟨[], rfl, ?_⟩⟩
    cases autoIndexField with
    | none => rfl
    | some key => rfl
  | dict => cases h

/-- Entries that find their elements, or need none. -/
theorem getEntries_pick {pick : Schema → Option Element} : ∀ {schemas : List Schema},
    (schemas.map Schema.name).Nodup → (∀ f ∈ schemas, ∀ c ∈ pick f, c.tagName = f.name) →
    (∀ f ∈ schemas, ∃ v, getElVal f (pick f) el = .ok v) →
    ∀ r, ∃ r', getEntries schemas (schemas.filterMap pick) r el = .ok (r', [])
  | [], _, _, _, r => ⟨r, rfl⟩
  | f :: rest, hnames, htag, hval, r => by
    obtain ⟨hf, hrest⟩ := List.nodup_cons.mp hnames
    obtain ⟨htagf, htag⟩ := List.forall_mem_cons.mp htag
    obtain ⟨⟨v, hv⟩, hval⟩ := List.forall_mem_cons.mp hval
    have hother : ∀ c ∈ rest.filterMap pick, c.tagName ≠ f.name := by
      intro c hc heq
      obtain ⟨g, hg, hcg⟩ := List.mem_filterMap.mp hc
      exact hf (List.mem_map.mpr ⟨g, hg, (htag g hg c hcg).symm.trans heq⟩)
    have hfilter : (rest.filterMap pick).filter (·.tagName ≠ f.name) = rest.filterMap pick :=
      List.filter_eq_self.mpr fun c hc => by simpa using hother c hc
    have hfind : (rest.filterMap pick).find? (·.tagName = f.name) = none :=
      List.find?_eq_none.mpr fun c hc => by simpa using hother c hc
    obtain ⟨r', hr'⟩ := getEntries_pick hrest htag hval (Assoc.set f.name v r)
    refine ⟨r', ?_⟩
    rw [getEntries]
    refine bind_eq_ok.mpr ⟨v, ?_, ?_⟩
    · cases hc : pick f with
      | none => rw [List.filterMap_cons_none hc, hfind, ← hc, hv]
      | some c =>
        rw [List.filterMap_cons_some hc, List.find?_cons_of_pos (by simp [htagf c hc]), ← hc, hv]
    · cases hc : pick f with
      | none => rw [List.filterMap_cons_none hc, hfilter, hr']
      | some c =>
        rw [List.filterMap_cons_some hc, List.filter_cons_of_neg (by simp [htagf c hc]), hfilter, hr']

/-- The elements that are picked stand in the order of the schema. -/
theorem pick_sublist {pick : Schema → Option Element} : ∀ {schemas : List Schema},
    (∀ f ∈ schemas, ∀ c ∈ pick f, c.tagName = f.name) →
    ((schemas.filterMap pick).map (·.tagName)).Sublist (schemas.map Schema.name)
  | [], _ => .refl _
  | f :: rest, htag => by
    obtain ⟨htagf, htag⟩ := List.forall_mem_cons.mp htag
    have ih := pick_sublist htag
    cases hc : pick f with
    | none =>
      rw [List.filterMap_cons_none hc]
      exact ih.cons _
    | some c =>
      rw [List.filterMap_cons_some hc, List.map_cons, List.map_cons, htagf c hc]
      exact ih.cons_cons _

/-- A configuration made of what is picked for each entry. -/
theorem exists_config {pick : Schema → Option Element} (hne : schemas ≠ [])
    (hnames : (schemas.map Schema.name).Nodup) (htag : ∀ f ∈ schemas, ∀ c ∈ pick f, c.tagName = f.name)
    (hval : ∀ f ∈ schemas, ∀ parent, ∃ v, getElVal f (pick f) parent = .ok v) :
    ∃ (el : Element) (v : Value), getDictVal schemas [] el = .ok v ∧
      ∀ f ∈ schemas, present el f.name = (pick f).isSome := by
  let el : Element := ⟨"", [], (schemas.filterMap pick).map Element.node, ⟨"", 0, 0, 0⟩⟩
  have hchildren : elementChildren el = schemas.filterMap pick := by
    simp [elementChildren, el, List.filterMap_map, Function.comp_def]
  have hnodup : (childNames el).Nodup := by
    rw [childNames, hchildren]
    exact hnames.sublist (pick_sublist htag)
  obtain ⟨r, hr⟩ := getEntries_pick hnames htag (fun f hf => hval f hf el) []
  refine ⟨el, .dict r, (getDictVal_eq_ok hne).mpr ⟨hnodup, r, hchildren ▸ hr, nofun, rfl⟩, ?_⟩
  intro f hf
  rw [Bool.eq_iff_iff, present_iff, hchildren]
  constructor
  · rintro ⟨c, hc, hname⟩
    obtain ⟨g, hg, hgc⟩ := List.mem_filterMap.mp hc
    obtain rfl := List.inj_on_of_nodup_map hnames hg hf ((htag g hg c hgc).symm.trans hname)
    exact Option.isSome_of_eq_some hgc
  · intro hsome
    obtain ⟨c, hc⟩ := Option.isSome_iff_exists.mp hsome
    exact ⟨c, List.mem_filterMap.mpr ⟨f, hf, hc⟩, htag f hf c hc⟩

/-- Any subset of the elements occurs in some configuration that is accepted otherwise. -/
def AnySubset (schemas : List Schema) (elements : List String) : Prop :=
  ∀ p : String → Bool, ∃ (el : Element) (v : Value),
    getDictVal schemas [] el = .ok v ∧ ∀ n ∈ elements, present el n = p n

theorem getElVal_none {f : Schema} (hoptional : f.optional = true) (hdefault : f.hasDefault = false)
    (parent : Element) : ∃ v, getElVal f none parent = .ok v := by
  cases f with
  | leaf type name default optional =>
    obtain rfl : optional = true := hoptional
    obtain rfl : default = none := by simpa [Schema.hasDefault] using hdefault
    exact ⟨.none, by rw [getElVal]; rfl⟩
  | list name hasDefault optional listType autoIndexField =>
    obtain rfl : optional = true := hoptional
    obtain rfl : hasDefault = false := hdefault
    exact ⟨.none, by rw [getElVal]; rfl⟩
  | dict name default optional schemas constraints => exact ⟨.dict [], by rw [getElVal]; rfl⟩

/-- So it is where the names of the entries are distinct and the dictionaries among the elements can
    be given. -/
theorem anySubset (hnames : (schemas.map Schema.name).Nodup) (hne : schemas ≠ [])
    (hdeclares : Declares schemas elements)
    (hdict : ∀ f ∈ schemas, f.name ∈ elements → f.isDict = true →
      ∃ c : Element, c.tagName = f.name ∧ ∀ parent, ∃ v, getElVal f (some c) parent = .ok v) :
    AnySubset schemas elements := by
  intro p
  have hchild : ∀ f : Schema, ∃ c : Element, f ∈ schemas → f.name ∈ elements →
      c.tagName = f.name ∧ ∀ parent, ∃ v, getElVal f (some c) parent = .ok v := by
    intro f
    cases hf : f.isDict with
    | false => exact ⟨sample f, fun _ _ => ⟨rfl, getElVal_sample hf⟩⟩
    | true =>
      by_cases hlisted : f ∈ schemas ∧ f.name ∈ elements
      · obtain ⟨c, hc⟩ := hdict f hlisted.1 hlisted.2 hf
        exact ⟨c, fun _ _ => hc⟩
      · exact ⟨sample f, fun hf hn => absurd ⟨hf, hn⟩ hlisted⟩
  choose child hchild using hchild
  let pick (f : Schema) : Option Element :=
    if f.name ∈ elements then if p f.name then some (child f) else none
    else if f.isDict then none else some (sample f)
  have htag : ∀ f ∈ schemas, ∀ c ∈ pick f, c.tagName = f.name := by
    intro f hf c hc
    simp only [pick] at hc
    split_ifs at hc with hlisted
    · cases hc
      exact (hchild f hf hlisted).1
    · cases hc
    · cases hc
    · cases hc
      rfl
  have hval : ∀ f ∈ schemas, ∀ parent, ∃ v, getElVal f (pick f) parent = .ok v := by
    intro f hf parent
    simp only [pick]
    split_ifs with hlisted hp hisDict
    · exact (hchild f hf hlisted).2 parent
    · obtain ⟨g, hg, hoptional, hdefault⟩ := hdeclares.entry _ hlisted
      have hmem : f ∈ schemas.filter (·.name = f.name) := by simp [hf]
      obtain rfl : f = g := List.mem_singleton.mp (hg ▸ hmem)
      exact getElVal_none hoptional hdefault parent
    · cases f with
      | dict => exact ⟨.dict [], by rw [getElVal]; rfl⟩
      | leaf | list => cases hisDict
    · exact getElVal_sample (Bool.not_eq_true _ ▸ hisDict) parent
  obtain ⟨el, v, hel, hpresent⟩ := exists_config hne hnames htag hval
  refine ⟨el, v, hel, fun n hn => ?_⟩
  obtain ⟨f, hf, -⟩ := hdeclares.entry n hn
  obtain ⟨hmem, hname⟩ := List.mem_filter.mp (hf ▸ List.mem_singleton_self f)
  obtain rfl : f.name = n := of_decide_eq_true hname
  rw [hpresent f hmem]
  simp only [pick, if_pos hn]
  cases p f.name <;> rfl

/-- What `MeansExactlyOne` says of the configurations with a subset of the elements. -/
theorem MeansExactlyOne.subset (h : MeansExactlyOne schemas elements) (hne : schemas ≠ [])
    (hdeclares : Declares schemas elements) (hany : AnySubset schemas elements) (p : String → Bool) :
    elements.countP (fun n => !p n && !declaresDict schemas n) = 1 ↔ elements.countP p = 1 := by
  obtain ⟨el, v, hel, hpresent⟩ := hany p
  have hcount : elements.countP (present el) = elements.countP p :=
    List.countP_congr fun n hn => by rw [hpresent n hn]
  have habsent : elements.countP (fun n => !present el n && !declaresDict schemas n) =
      elements.countP fun n => !p n && !declaresDict schemas n :=
    List.countP_congr fun n hn => by rw [hpresent n hn]
  rw [← hcount, ← habsent, ← h el v hel, getDictVal_oneOf hne hdeclares hel]

/-- With none of the elements, and with one of them, the constraint is wrong unless there are two. -/
theorem MeansExactlyOne.two (h : MeansExactlyOne schemas elements) (hne : elements ≠ [])
    (hdeclares : Declares schemas elements) (hany : AnySubset schemas elements) :
    elements.length = 2 ∧ ∀ n ∈ elements, declaresDict schemas n = false := by
  obtain ⟨a, ha⟩ := List.exists_mem_of_ne_nil elements hne
  have hschemas := hdeclares.schemas_ne_nil ha
  have hnone : elements.countP (fun n => !declaresDict schemas n) ≠ 1 := by
    simpa using h.subset hschemas hdeclares hany fun _ => false
  have hsingle : ∀ n ∈ elements,
      elements.countP (fun x => !decide (x = n) && !declaresDict schemas x) = 1 := by
    intro n hn
    refine (h.subset hschemas hdeclares hany fun x => x = n).mpr ?_
    exact List.count_eq_one_of_mem hdeclares.nodup hn
  have hdict : ∀ n ∈ elements, declaresDict schemas n = false := by
    intro n hn
    by_contra hdict
    refine hnone ((List.countP_congr fun x _ => ?_).trans (hsingle n hn))
    by_cases hx : x = n
    · simp [hx, Bool.not_eq_false _ ▸ hdict]
    · simp [hx]
  refine ⟨?_, hdict⟩
  have hothers : elements.countP (fun x => !decide (x = a)) = 1 := by
    rw [← hsingle a ha]
    exact List.countP_congr fun x hx => by simp [hdict x hx]
  have hself : elements.countP (fun x => decide (x = a)) = 1 :=
    List.count_eq_one_of_mem hdeclares.nodup ha
  have htotal := List.length_eq_countP_add_countP (fun x => decide (x = a)) (l := elements)
  simp only [decide_eq_true_eq, decide_not] at htotal
  omega

/-! ### Exactly one -/

/-- A `one_of` constraint over optional elements without defaults means that exactly one is present
    where it lists two and neither is a dictionary, and, if any subset of the elements can occur, only
    there. -/
theorem oneOf_means_exactlyOne_iff (hne : elements ≠ []) (hdeclares : Declares schemas elements) :
    (elements.length = 2 ∧ (∀ n ∈ elements, declaresDict schemas n = false) →
      MeansExactlyOne schemas elements) ∧
    (AnySubset schemas elements → MeansExactlyOne schemas elements →
      elements.length = 2 ∧ ∀ n ∈ elements, declaresDict schemas n = false) :=
  ⟨fun ⟨htwo, hdict⟩ => meansExactlyOne_of_two hdeclares htwo hdict,
    fun hany h => h.two hne hdeclares hany⟩

/-- The entries of a message queue. -/
def messageQueueEntries : List Schema :=
  [.leaf .ident "name" none false, .leaf .int "message_size" none true,
    .leaf .string "message_type" none true, .leaf .int "queue_length" none false]

theorem messageQueueEntries_declares :
    Declares messageQueueEntries ["message_size", "message_type"] where
  nodup := by decide
  entry n hn := by
    rcases List.mem_pair.mp hn with rfl | rfl
    · exact ⟨.leaf .int "message_size" none true, rfl, rfl, rfl⟩
    · exact ⟨.leaf .string "message_type" none true, rfl, rfl, rfl⟩

/-- A message queue has exactly one of `message_size` and `message_type`. -/
theorem oneOf_means_exactlyOne_iff_messageQueue :
    AnySubset messageQueueEntries ["message_size", "message_type"] ∧
    MeansExactlyOne messageQueueEntries ["message_size", "message_type"] :=
  ⟨anySubset (by decide) (List.cons_ne_nil _ _) messageQueueEntries_declares (by
      simp [messageQueueEntries, Schema.isDict]),
    (oneOf_means_exactlyOne_iff (List.cons_ne_nil _ _) messageQueueEntries_declares).1
      ⟨rfl, by decide⟩⟩

/-- Three optional entries. -/
def threeEntries : List Schema :=
  [.leaf .string "a" none true, .leaf .string "b" none true, .leaf .string "c" none true]

theorem threeEntries_declares : Declares threeEntries ["a", "b", "c"] where
  nodup := by decide
  entry n hn := by
    simp only [List.mem_cons, List.not_mem_nil, or_false] at hn
    rcases hn with rfl | rfl | rfl
    · exact ⟨.leaf .string "a" none true, rfl, rfl, rfl⟩
    · exact ⟨.leaf .string "b" none true, rfl, rfl, rfl⟩
    · exact ⟨.leaf .string "c" none true, rfl, rfl, rfl⟩

/-- `<entry><a>x</a></entry>` -/
def onlyFirst : Element :=
  ⟨"entry", [], [.element "a" [] [.text "x"] ⟨"prx", 0, 2, 2⟩], ⟨"prx", 0, 1, 0⟩⟩

/-- Of three elements, exactly one must not be given alone: two are absent. -/
theorem not_oneOf_means_exactlyOne_three :
    ¬ ∀ (schemas : List Schema) (elements : List String), elements ≠ [] →
      Declares schemas elements → MeansExactlyOne schemas elements := by
  intro h
  have hvalue : getDictVal threeEntries [] onlyFirst =
      .ok (.dict [("a", .str "x"), ("b", .none), ("c", .none)]) := by
    rfl
  have hrejected := getDictVal_oneOf (List.cons_ne_nil _ _) threeEntries_declares hvalue
  have haccepted := h _ _ (List.cons_ne_nil _ _) threeEntries_declares _ _ hvalue
  exact absurd (hrejected.mp (haccepted.mpr (by decide))) (by decide)

end Echronos.Xml
