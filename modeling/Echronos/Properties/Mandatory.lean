import Echronos.Properties.OneOf
import Echronos.Xml.Objects

/-! # Mandatory entries

    The value of an absent entry is its default, or `None` if it is optional, or an exception. Only an
    absent dictionary is taken to be empty whatever has been declared, and nothing below it is looked
    at. -/

namespace Echronos.Xml

open Schemes

/-- The entry is neither optional nor given a default. -/
def Schema.mandatory (entry : Schema) : Prop := entry.optional = false ∧ entry.hasDefault = false

/-- The entries declared at some level of a schema, and the element that is to have them. A child
    element belongs to the first entry of its name. -/
inductive Level : Schema → Element → List Schema → Element → Prop
  | here {name default optional schemas constraints el} :
      Level (.dict name default optional schemas constraints) el schemas el
  | entry {name default optional schemas constraints el child entry schemas' el'} :
      child ∈ elementChildren el → schemas.find? (·.name = child.tagName) = some entry →
      Level entry child schemas' el' →
      Level (.dict name default optional schemas constraints) el schemas' el'
  | member {name hasDefault optional listType autoIndexField el child schemas' el'} :
      child ∈ elementChildren el → Level listType child schemas' el' →
      Level (.list name hasDefault optional listType autoIndexField) el schemas' el'

variable {schema entry : Schema} {schemas : List Schema} {el el' child parent : Element} {v : Value}

/-- An absent entry that has a value nevertheless. -/
theorem isDict_of_getElVal_none (h : getElVal entry none parent = .ok v) (hmandatory : entry.mandatory) :
    entry.isDict = true := by
  obtain ⟨hoptional, hdefault⟩ := hmandatory
  cases entry with
  | leaf type name default optional =>
    obtain rfl : optional = false := hoptional
    obtain rfl : default = none := by simpa [Schema.hasDefault] using hdefault
    rw [getElVal] at h
    cases h
  | list name hasDefault optional listType autoIndexField =>
    obtain rfl : optional = false := hoptional
    obtain rfl : hasDefault = false := hdefault
    rw [getElVal] at h
    cases h
  | dict => rfl

/-- Each element is read as the first entry of its name. -/
theorem getEntries_child : ∀ {schemas : List Schema} {els : List Element} {r r' : Dict},
    getEntries schemas els r el = .ok (r', []) → ∀ child ∈ els,
    ∃ entry, schemas.find? (·.name = child.tagName) = some entry ∧
      ∃ v, getElVal entry (els.find? (·.tagName = child.tagName)) el = .ok v
  | [], els, _, _, h, child, hchild => by
    cases h
    cases hchild
  | f :: rest, els, _, _, h, child, hchild => by
    obtain ⟨v, hv, h⟩ := getEntries_cons h
    by_cases hf : f.name = child.tagName
    · exact ⟨f, by rw [List.find?_cons_of_pos (by simpa using hf)], v, hf ▸ hv⟩
    · have hrest : child ∈ els.filter (·.tagName ≠ f.name) :=
        List.mem_filter.mpr ⟨hchild, by simpa using Ne.symm hf⟩
      obtain ⟨entry, hentry, w, hw⟩ := getEntries_child h child hrest
      rw [getEntries_lookup.find?_filter_ne hf] at hw
      exact ⟨entry, by rwa [List.find?_cons_of_neg (by simpa using hf)], w, hw⟩

/-- Each entry for which there is no element is read as absent. -/
theorem getEntries_absent : ∀ {schemas : List Schema} {els : List Element} {r r' : Dict} {els' : List Element},
    getEntries schemas els r el = .ok (r', els') → ∀ entry ∈ schemas,
    entry.name ∉ els.map (·.tagName) → ∃ v, getElVal entry none el = .ok v
  | f :: rest, els, _, _, _, h, entry, hentry, hnone => by
    obtain ⟨v, hv, h⟩ := getEntries_cons h
    rcases List.mem_cons.mp hentry with rfl | hentry
    · have hfind : els.find? (·.tagName = entry.name) = none := by
        rw [List.find?_eq_none]
        intro child hchild htag
        exact hnone (List.mem_map.mpr ⟨child, hchild, by simpa using htag⟩)
      exact ⟨v, hfind ▸ hv⟩
    · refine getEntries_absent h entry hentry fun hmem => hnone ?_
      exact List.map_subset _ List.filter_sublist.subset hmem

/-- With distinct names the element of a name is the only one. -/
theorem find?_tagName (hnodup : (childNames el).Nodup) (hchild : child ∈ elementChildren el) :
    (elementChildren el).find? (·.tagName = child.tagName) = some child := by
  cases hfind : (elementChildren el).find? (·.tagName = child.tagName) with
  | none =>
    have hne := List.find?_eq_none.mp hfind child hchild
    simp at hne
  | some other =>
    have htag : other.tagName = child.tagName := by simpa using List.find?_some hfind
    rw [List.inj_on_of_nodup_map hnodup (List.mem_of_find?_eq_some hfind) hchild htag]

/-- A level that is reached has been read as a dictionary. -/
theorem Level.read (h : Level schema el schemas el') :
    ∀ {parent : Element} {v : Value}, getElVal schema (some el) parent = .ok v →
    ∃ constraints w, getDictVal schemas constraints el' = .ok w := by
  induction h with
  | @here name default optional schemas constraints el =>
    intro parent v hv
    rw [getElVal_dict] at hv
    obtain ⟨-, -, hv⟩ := bind_eq_ok.mp hv
    exact ⟨constraints, v, hv⟩
  | @entry name default optional schemas constraints el child entry schemas' el' hchild hentry _ ih =>
    intro parent v hv
    rw [getElVal_dict] at hv
    obtain ⟨-, -, hv⟩ := bind_eq_ok.mp hv
    have hne : schemas ≠ [] := by
      rintro rfl
      cases hentry
    obtain ⟨hnodup, r, hentries, -, -⟩ := (getDictVal_eq_ok hne).mp hv
    obtain ⟨entry', hentry', w, hw⟩ := getEntries_child hentries child hchild
    cases hentry.symm.trans hentry'
    rw [find?_tagName hnodup hchild] at hw
    exact ih hw
  | @member name hasDefault optional listType autoIndexField el child schemas' el' hchild _ ih =>
    intro parent v hv
    rw [getElVal] at hv
    obtain ⟨-, -, hv⟩ := bind_eq_ok.mp hv
    obtain ⟨r, hr, -⟩ := bind_eq_ok.mp hv
    obtain ⟨w, -, hw⟩ := ok_of_mapM hr child hchild
    exact ih hw

/-- An element of a dictionary has all mandatory entries that are not dictionaries themselves. -/
theorem mem_childNames_of_getDictVal {constraints : List Constraint}
    (h : getDictVal schemas constraints el = .ok v) (hentry : entry ∈ schemas) (hmandatory : entry.mandatory)
    (hdict : entry.isDict = false) : entry.name ∈ childNames el := by
  obtain ⟨-, r, hentries, -, -⟩ := (getDictVal_eq_ok (List.ne_nil_of_mem hentry)).mp h
  by_contra hnone
  obtain ⟨w, hw⟩ := getEntries_absent hentries entry hentry hnone
  rw [isDict_of_getElVal_none hw hmandatory] at hdict
  cases hdict

variable (schema el) in
/-- At every level that the configuration reaches, each mandatory entry is present. -/
def Complete : Prop :=
  ∀ schemas el', Level schema el schemas el' → ∀ entry ∈ schemas, entry.mandatory →
    entry.name ∈ childNames el'

/-- A configuration that `xml2dict` accepts is complete just if no mandatory dictionary is absent at a
    level that it reaches. -/
theorem complete_iff (h : xml2dict el schema = .ok v) : Complete schema el ↔
    ¬ ∃ schemas el', Level schema el schemas el' ∧ ∃ entry ∈ schemas,
      entry.isDict = true ∧ entry.mandatory ∧ entry.name ∉ childNames el' := by
  obtain ⟨-, -, h⟩ := bind_eq_ok.mp h
  obtain ⟨dct, hdct, -⟩ := bind_eq_ok.mp h
  constructor
  · rintro hcomplete ⟨schemas, el', hlevel, entry, hentry, -, hmandatory, habsent⟩
    exact habsent (hcomplete schemas el' hlevel entry hentry hmandatory)
  · intro hnone schemas el' hlevel entry hentry hmandatory
    cases hdict : entry.isDict with
    | true =>
      by_contra habsent
      exact hnone ⟨schemas, el', hlevel, entry, hentry, hdict, hmandatory, habsent⟩
    | false =>
      obtain ⟨constraints, w, hw⟩ := hlevel.read hdct
      exact mem_childNames_of_getDictVal hw hentry hmandatory hdict

def nowhere : Position := ⟨"", 0, 0, 0⟩

/-- An entry for a number. -/
def hzEntry : Element := ⟨"entry", [("name", "hz"), ("type", "int")], [], nowhere⟩

/-- An entry for a mandatory dictionary that has a mandatory number. -/
def clockEntry : Element := ⟨"entry", [("name", "clock"), ("type", "dict")], [hzEntry.node], nowhere⟩

def clockSchema : Schema :=
  .dict "module" none false [.dict "clock" none false [.leaf .int "hz" none false] []] []

theorem readOptional_none (h : el.attributes.lookup "optional" = none) : readOptional el = .ok false := by
  have htrue : ¬ ("false".toLower = "true") := by decide +kernel
  have hfalse : "false".toLower = "false" := by decide +kernel
  rw [readOptional, h, Option.getD_none, if_neg htrue, if_pos hfalse]
  rfl

theorem xml2schema_clockSchema :
    xml2schema ⟨"schema", [], [clockEntry.node], nowhere⟩ = .ok clockSchema := by
  have hhz : readOptional hzEntry = .ok false := readOptional_none (by decide +kernel)
  have hclock : readOptional clockEntry = .ok false := readOptional_none (by decide +kernel)
  simp only [hzEntry, clockEntry, Element.node] at hhz hclock
  simp [xml2schema, clockEntry, hzEntry, clockSchema, readEntries, readEntry, ensureAllChildrenNamed,
    ensureOnlyWhitespaceTextChildren, elementChildren, Element.node, Node.element?, matchingChildren,
    getAttribute, hhz, hclock, validSchemaTypes, leafType?, bind, Except.bind, pure, Except.pure,
    List.lookup_cons, List.lookup_nil]

theorem xml2dict_clockSchema :
    xml2dict ⟨"module", [], [], nowhere⟩ clockSchema = .ok (.dict [("clock", .dict [])]) := by
  simp [xml2dict, clockSchema, checkSchemaIsValid, checkSchemasAreValid, getElVal, getEntries, checkTagName,
    ensureUniqueTagNames, elementChildren, closeDict, Schema.name, Assoc.set, resolveProxies, resolveItems,
    resolveItem, bind, Except.bind, pure, Except.pure]

/-- The element of an entry with this text. -/
def leafElement (name text : String) : Element := ⟨name, [], [.text text], nowhere⟩

/-- A clock of 8 Hz. -/
def clockElement : Element := ⟨"clock", [], [(leafElement "hz" "8").node], nowhere⟩

theorem xml2dict_clockElement : xml2dict ⟨"module", [], [clockElement.node], nowhere⟩ clockSchema =
    .ok (.dict [("clock", .dict [("hz", .int 8)])]) := rfl

/-- A configuration with the clock is complete, and one without it is not. -/
theorem complete_clockSchema : Complete clockSchema ⟨"module", [], [clockElement.node], nowhere⟩ ∧
    ¬ Complete clockSchema ⟨"module", [], [], nowhere⟩ := by
  constructor
  · refine (complete_iff xml2dict_clockElement).mpr ?_
    rintro ⟨schemas, el', hlevel, entry, hentry, hdict, -, habsent⟩
    cases hlevel with
    | here =>
      obtain rfl := List.mem_singleton.mp hentry
      exact habsent (List.mem_singleton.mpr rfl)
    | entry hchild hfind hlevel =>
      obtain rfl := List.mem_singleton.mp hchild
      cases hfind
      cases hlevel with
      | here =>
        obtain rfl := List.mem_singleton.mp hentry
        cases hdict
      | entry hchild hfind hlevel =>
        obtain rfl := List.mem_singleton.mp hchild
        cases hfind
        cases hlevel
  · exact fun h => (complete_iff xml2dict_clockSchema).mp h
      ⟨_, _, .here, _, List.mem_singleton.mpr rfl, rfl, ⟨rfl, rfl⟩, nofun⟩

/-- A mandatory dictionary may be left out, with all that is mandatory in it. -/
theorem not_complete : ¬ ∀ (schemaEl el : Element) (schema : Schema) (v : Value),
    xml2schema schemaEl = .ok schema → xml2dict el schema = .ok v → Complete schema el := by
  intro h
  have hcomplete := h _ _ _ _ xml2schema_clockSchema xml2dict_clockSchema
  have hpresent := hcomplete _ _ .here (.dict "clock" none false [.leaf .int "hz" none false] [])
    (List.mem_singleton.mpr rfl) ⟨rfl, rfl⟩
  cases hpresent

end Echronos.Xml
