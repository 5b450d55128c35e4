import Echronos.Properties.Mandatory
import Echronos.Properties.Proxies
import Echronos.Util.AddIndex

/-! # What `xml2dict` returns conforms to the schema

    Each pass has its part in this: `get_el_val` gives every entry a value of its type, with a proxy for
    an object, and `resolve_proxies` replaces the proxies. -/

namespace Echronos.Xml

open Schemes Util

/-- Of the rules for an `ident`: lower-case letters, digits and underscores, a letter first. -/
def IsIdent (s : String) : Prop :=
  ∃ ch rest, s.toList = ch :: rest ∧ ('a' ≤ ch ∧ ch ≤ 'z') ∧
    ∀ ch ∈ rest, ('a' ≤ ch ∧ ch ≤ 'z') ∨ ch.isDigit ∨ ch = '_'

section Conforms

-- What an object of a group with a name may be.
variable (IsObject : Option String → String → Value → Prop)

/-- A value of this type, for this text. -/
def HasType : LeafType → String → Value → Prop
  | .string, text, v | .cIdent, text, v => v = .str text
  | .bool, text, v => (text.toLower = "true" ∧ v = .bool true) ∨ (text.toLower = "false" ∧ v = .bool false)
  | .int, text, v => ∃ i, int? text = some i ∧ v = .int i
  | .ident, text, v => IsIdent text ∧ v = .str text
  | .object group, text, v => IsObject group text v

/-- The child element of this name. -/
def childNamed (el : Element) (n : String) : Option Element := (elementChildren el).find? (·.tagName = n)

/-- The dictionary has this index. -/
def HasIndex (key : String) (i : ℕ) (v : Value) : Prop := ∃ d, v = .dict d ∧ Carries key d i

mutual

/-- The value conforms to the schema of an entry, for its element if there is one. `index` is the index
    field of the list that the value is a member of. -/
def Conforms : Schema → Option String → Option Element → Value → Prop
  | .leaf type _ default optional, _, el, v =>
    match el with
    | some el => ∃ text, singleTextChild el = .ok text ∧ HasType IsObject type text v
    | none =>
      match default with
      | some text => HasType IsObject type text v
      | none => optional = true ∧ v = .none
  | .list _ hasDefault optional listType autoIndexField, _, el, v =>
    match el with
    | some el => ∃ els l, els.Perm (elementChildren el) ∧ v = .list l ∧
        List.Forall₂ (fun child w => Conforms listType autoIndexField (some child) w) els l ∧
        ∀ key, autoIndexField = some key → ∀ i w, l[i]? = some w → HasIndex key i w
    | none => if hasDefault then v = .list [] else optional = true ∧ v = .none
  | .dict _ _ _ schemas _, index, el, v =>
    match el with
    | some el => ∃ d, v = .dict d ∧ (d.map Prod.fst).Nodup ∧
        (∀ k, k ∈ d.map Prod.fst ↔ k ∈ schemas.map Schema.name ∨ index = some k) ∧
        (∀ key, index = some key → ∃ i, Carries key d i) ∧ ConformsEntries schemas index el d
    | none => v = .dict []
termination_by structural schema => schema

/-- The items of the declared entries conform. An index takes the place of an entry that would be
    `None`. -/
def ConformsEntries : List Schema → Option String → Element → Dict → Prop
  | [], _, _, _ => True
  | entry :: rest, index, el, d =>
    (∃ w, d.lookup entry.name = some w ∧
      (Conforms entry none (childNamed el entry.name) w ∨
        index = some entry.name ∧ Conforms entry none (childNamed el entry.name) .none ∧ ∃ i, w = .int i)) ∧
      ConformsEntries rest index el d
termination_by structural schemas => schemas

end

end Conforms

mutual

/-- Each dictionary declares some entries, with distinct names. -/
def Schema.Proper : Schema → Prop
  | .leaf _ _ _ _ => True
  | .list _ _ _ listType _ => listType.Proper
  | .dict _ _ _ schemas _ => schemas ≠ [] ∧ (schemas.map Schema.name).Nodup ∧ properEntries schemas
termination_by structural schema => schema

def properEntries : List Schema → Prop
  | [] => True
  | entry :: rest => entry.Proper ∧ properEntries rest
termination_by structural schemas => schemas

end

mutual

/-- All elements are declared, in a dictionary no two have the same name, and those of a list have the
    right one. -/
def WellNamed : Schema → Element → Prop
  | .leaf _ name _ _, el => el.tagName = name ∧ elementChildren el = []
  | .list name _ _ listType _, el => el.tagName = name ∧ ∀ child ∈ elementChildren el, WellNamed listType child
  | .dict name _ _ schemas _, el =>
    el.tagName = name ∧ (childNames el).Nodup ∧ ∀ child ∈ elementChildren el, WellNamedEntry schemas child
termination_by structural schema => schema

def WellNamedEntry : List Schema → Element → Prop
  | [], _ => False
  | entry :: rest, child => (entry.name = child.tagName ∧ WellNamed entry child) ∨ WellNamedEntry rest child
termination_by structural schemas => schemas

end

variable {IsObject : Option String → String → Value → Prop} {schemas : List Schema} {entry listType : Schema}
  {index : Option String} {el child parent : Element} {d : Dict} {v w : Value} {key : String} {i : ℤ}

theorem conformsEntries_iff : ∀ {schemas : List Schema}, ConformsEntries IsObject schemas index el d ↔
    ∀ entry ∈ schemas, ∃ w, d.lookup entry.name = some w ∧
      (Conforms IsObject entry none (childNamed el entry.name) w ∨
        index = some entry.name ∧ Conforms IsObject entry none (childNamed el entry.name) .none ∧
          ∃ i, w = .int i)
  | [] => ⟨fun _ => nofun, fun _ => trivial⟩
  | entry :: rest => by
    rw [ConformsEntries, conformsEntries_iff, List.forall_mem_cons]

/-! ### The first pass -/

/-- A proxy for an object. -/
def IsProxy (group : Option String) (text : String) (v : Value) : Prop := ∃ el, v = .proxy text group el

theorem isIdent_of_checkIdent {s : String} (h : checkIdent s = none) : IsIdent s := by
  unfold checkIdent at h
  cases hs : s.toList with
  | nil => simp [hs] at h
  | cons ch rest =>
    simp only [hs] at h
    split_ifs at h with hfirst hrest
    simp only [decide_eq_true_eq] at hfirst
    simp only [Bool.not_eq_true, List.any_eq_false, Bool.not_eq_false', List.forall_mem_cons, Bool.or_eq_true,
      decide_eq_true_eq] at hrest
    exact ⟨ch, rest, hs, hfirst, fun c hc => or_assoc.mp (hrest.2 c hc)⟩

theorem coerce_hasType {type : LeafType} {text : String} {el : Option Element}
    (h : coerce type text el = .ok v) : HasType IsProxy type text v := by
  cases type with
  | string | cIdent => cases h; rfl
  | bool =>
    simp only [coerce] at h
    split_ifs at h with htrue hfalse
    · cases h
      exact .inl ⟨htrue, rfl⟩
    · cases h
      exact .inr ⟨hfalse, rfl⟩
  | int =>
    simp only [coerce] at h
    split at h
    · next i hi =>
      cases h
      exact ⟨i, hi, rfl⟩
    · cases h
  | ident =>
    simp only [coerce] at h
    split at h
    · next hident =>
      cases h
      exact ⟨isIdent_of_checkIdent hident, rfl⟩
    · cases h
  | object group => cases h; exact ⟨el, rfl⟩

/-- The keys of a dictionary after some entries. -/
theorem getEntries_keys : ∀ {schemas : List Schema} {els els' : List Element} {r r' : Dict},
    getEntries schemas els r el = .ok (r', els') → (r.map Prod.fst).Nodup →
    (r'.map Prod.fst).Nodup ∧ ∀ k, k ∈ r'.map Prod.fst ↔ k ∈ schemas.map Schema.name ∨ k ∈ r.map Prod.fst
  | [], _, _, _, _, h, hnodup => by
    cases h
    exact ⟨hnodup, fun k => by simp⟩
  | f :: rest, _, _, r, _, h, hnodup => by
    obtain ⟨v, -, h⟩ := getEntries_cons h
    obtain ⟨hnodup', hmem'⟩ := getEntries_keys h (Assoc.nodup_set hnodup)
    refine ⟨hnodup', fun k => ?_⟩
    rw [hmem', Assoc.mem_map_fst_set, List.map_cons, List.mem_cons]
    tauto

/-- A dictionary conforms to the schema of one. -/
theorem Conforms.isDict (h : Conforms IsProxy listType none (some child) (.dict d)) :
    ∃ name default optional schemas constraints,
      listType = .dict name default optional schemas constraints := by
  cases listType with
  | leaf type name default optional =>
    obtain ⟨text, -, htype⟩ := h
    cases type with
    | string | cIdent => cases htype
    | bool => rcases htype with ⟨-, hv⟩ | ⟨-, hv⟩ <;> cases hv
    | int => obtain ⟨i, -, hv⟩ := htype; cases hv
    | ident => cases htype.2
    | object group => obtain ⟨el, hv⟩ := htype; cases hv
  | list =>
    obtain ⟨els, l, -, hv, -⟩ := h
    cases hv
  | dict name default optional schemas constraints => exact ⟨name, default, optional, schemas, constraints, rfl⟩

/-- A member of a list keeps the index that it has. -/
theorem Conforms.indexed_given (h : Conforms IsProxy listType none (some child) (.dict d))
    (hcarries : Carries key d i) :
    Conforms IsProxy listType (some key) (some child) (.dict d) := by
  obtain ⟨name, default, optional, schemas, constraints, rfl⟩ := h.isDict
  obtain ⟨_, hv, hnodup, hkeys, -, hentries⟩ := h
  cases hv
  refine ⟨d, rfl, hnodup, fun k => ?_, fun k hk => ?_, conformsEntries_iff.mpr fun entry hentry => ?_⟩
  · rw [hkeys]
    constructor
    · exact fun hk => .inl (hk.resolve_right nofun)
    · rintro (hk | hk)
      · exact .inl hk
      · obtain ⟨w, hw, -⟩ := hcarries
        exact (hkeys k).mp (Assoc.mem_keys.mpr ⟨w, Option.some.inj hk ▸ hw⟩)
  · exact ⟨i, Option.some.inj hk ▸ hcarries⟩
  · obtain ⟨w, hw, hconforms⟩ := conformsEntries_iff.mp hentries entry hentry
    exact ⟨w, hw, .inl (hconforms.resolve_right fun hnone => by cases hnone.1)⟩

/-- Or it gets one. -/
theorem Conforms.indexed_new (h : Conforms IsProxy listType none (some child) (.dict d))
    (hgiven : given? key d = none) :
    Conforms IsProxy listType (some key) (some child) (.dict (Assoc.set key (.int i) d)) := by
  obtain ⟨name, default, optional, schemas, constraints, rfl⟩ := h.isDict
  obtain ⟨_, hv, hnodup, hkeys, -, hentries⟩ := h
  cases hv
  refine ⟨_, rfl, Assoc.nodup_set hnodup, fun k => ?_, fun k hk => ?_,
    conformsEntries_iff.mpr fun entry hentry => ?_⟩
  · rw [Assoc.mem_map_fst_set, hkeys, or_comm, Option.some_inj, eq_comm (a := k)]
    constructor
    · exact Or.imp_left fun hk => hk.resolve_right nofun
    · exact Or.imp_left .inl
  · cases hk
    exact ⟨i, .int i, by rw [Assoc.lookup_set, if_pos rfl], rfl⟩
  · obtain ⟨w, hw, hconforms⟩ := conformsEntries_iff.mp hentries entry hentry
    have hconforms := hconforms.resolve_right fun hnone => by cases hnone.1
    by_cases hkey : entry.name = key
    · refine ⟨.int i, by rw [hkey, Assoc.lookup_set, if_pos rfl], .inr ⟨congrArg some hkey.symm, ?_, i, rfl⟩⟩
      have hnone : w = .none := by
        rw [given?, ← hkey, hw] at hgiven
        cases w <;> first | rfl | cases hgiven
      exact hnone ▸ hconforms
    · exact ⟨w, by rw [Assoc.lookup_set, if_neg hkey, hw], .inl hconforms⟩

/-- Indexes are added to dictionaries only. -/
theorem exists_dict_of_addIndex {r l : List Value} (h : Xml.addIndex r key = .ok l) :
    ∀ v ∈ r, ∃ d, v = .dict d := by
  obtain ⟨given, hgiven, -⟩ := bind_eq_ok.mp h
  intro v hv
  obtain ⟨x, -, hx⟩ := ok_of_mapM hgiven v hv
  cases v with
  | dict d => exact ⟨d, rfl⟩
  | _ => cases hx

/-- The members of a list, for their elements, before and after indexes are added. -/
theorem addIndexes_conforms {autoIndexField : Option String} {children : List Element} {r l : List Value}
    (hr : List.Forall₂ (fun child w => Conforms IsProxy listType none (some child) w) children r)
    (h : addIndexes autoIndexField el r = .ok l) : ∃ els : List Element, els.Perm children ∧
      List.Forall₂ (fun child w => Conforms IsProxy listType autoIndexField (some child) w) els l ∧
      ∀ key, autoIndexField = some key → ∀ i w, l[i]? = some w → HasIndex key i w := by
  cases autoIndexField with
  | none =>
    cases h
    exact ⟨children, .refl _, hr, nofun⟩
  | some key =>
    have hadd : Xml.addIndex r key = .ok l := by
      unfold addIndexes at h
      dsimp only at h
      split at h
      · cases h
      · exact h
    have hdict : ∀ i : Fin r.length, ∃ d, r[i] = .dict d :=
      fun i => exists_dict_of_addIndex hadd _ (List.getElem_mem i.2)
    choose dicts hdicts using hdict
    have hlength := hr.length_eq
    have hmap : r = (List.finRange r.length).map fun i => .dict (dicts i) := by
      refine List.ext_getElem (by simp) fun i hi _ => ?_
      simpa using hdicts ⟨i, hi⟩
    rw [hmap] at hadd
    obtain ⟨dicts', sorted, rfl, hperm, hadded, hsorted⟩ := exists_added (List.nodup_finRange _) hadd
    have hchildren : (List.finRange r.length).map (fun i => children[i]) = children :=
      List.ext_getElem (by simp [hlength]) fun i hi _ => by simp
    refine ⟨sorted.map fun i => children[i], hchildren ▸ hperm.map _, ?_, ?_⟩
    · rw [List.forall₂_map_left_iff, List.forall₂_map_right_iff, List.forall₂_same]
      intro i _
      have hconforms : Conforms IsProxy listType none (some children[i]) (.dict (dicts i)) := by
        rw [← hdicts i]
        exact hr.get _ _
      by_cases hnew : i ∈ unindexed key dicts (List.finRange r.length)
      · obtain ⟨j, hj⟩ := hadded.new i hnew
        rw [hj]
        exact hconforms.indexed_new (Option.isNone_iff_eq_none.mp (List.mem_filter.mp hnew).2)
      · obtain ⟨j, hj⟩ := hadded.carries i (List.mem_finRange i)
        rw [hadded.same i hnew] at hj ⊢
        exact hconforms.indexed_given hj
    · intro key' hkey i w hw
      cases hkey
      rw [List.getElem?_map, Option.map_eq_some_iff] at hw
      obtain ⟨ref, href, rfl⟩ := hw
      obtain ⟨j, hj⟩ := hadded.carries ref (List.mem_finRange ref)
      obtain ⟨hi, -⟩ := List.getElem?_eq_some_iff.mp href
      have hindex := congrArg (·[i]?) hsorted
      simp only [List.getElem?_map, href, Option.map_some, hj.indexOf, List.length_finRange] at hindex
      have hlength := hperm.length_eq
      rw [List.length_finRange] at hlength
      rw [List.getElem?_range (hlength ▸ hi)] at hindex
      have hij : j = i := by simpa using hindex
      exact ⟨dicts' ref, rfl, hij ▸ hj⟩

/-! ### The first pass as a whole -/

/-- With distinct names the entry of a name is the only one. -/
theorem filter_name : ∀ {schemas : List Schema}, (schemas.map Schema.name).Nodup → entry ∈ schemas →
    schemas.filter (·.name = entry.name) = [entry]
  | f :: rest, hnodup, hentry => by
    obtain ⟨hf, hnodup⟩ := List.nodup_cons.mp hnodup
    rcases List.mem_cons.mp hentry with rfl | hentry
    · rw [List.filter_cons_of_pos (by simp), List.filter_eq_nil_iff.mpr]
      intro g hg heq
      exact hf (List.mem_map.mpr ⟨g, hg, by simpa using heq⟩)
    · have hne : f.name ≠ entry.name := fun heq => hf (heq ▸ List.mem_map_of_mem hentry)
      rw [List.filter_cons_of_neg (by simpa using hne), filter_name hnodup hentry]

mutual

theorem getElVal_conforms : ∀ {schema : Schema} {el : Option Element} {parent : Element} {v : Value},
    schema.Proper → getElVal schema el parent = .ok v → Conforms IsProxy schema none el v
  | .leaf type name default optional, el, parent, v, _, h => by
    rw [getElVal] at h
    obtain ⟨-, -, h⟩ := bind_eq_ok.mp h
    obtain ⟨text, htext, h⟩ := bind_eq_ok.mp h
    cases el with
    | some el =>
      cases hsingle : singleTextChild el with
      | error e => simp [getTextValue, hsingle, Functor.map, Except.map] at htext
      | ok given =>
        rw [getTextValue, hsingle] at htext
        cases htext
        exact ⟨given, hsingle, coerce_hasType h⟩
    | none =>
      cases default with
      | some text =>
        cases htext
        exact coerce_hasType h
      | none =>
        cases optional with
        | true =>
          cases htext
          cases h
          exact ⟨rfl, rfl⟩
        | false => cases htext
  | .list name hasDefault optional listType autoIndexField, some el, parent, v, hproper, h => by
    rw [getElVal] at h
    obtain ⟨-, -, h⟩ := bind_eq_ok.mp h
    obtain ⟨r, hr, h⟩ := bind_eq_ok.mp h
    cases hadd : addIndexes autoIndexField el r with
    | error e => simp [hadd, Functor.map, Except.map] at h
    | ok l =>
      simp only [hadd, Functor.map, Except.map] at h
      cases h
      have hproper' : listType.Proper := hproper
      have hchildren := (mapM_eq_ok hr).imp fun child w hw => getElVal_conforms hproper' hw
      obtain ⟨els, hperm, hall, hindexes⟩ := addIndexes_conforms hchildren hadd
      exact ⟨els, l, hperm, rfl, hall, hindexes⟩
  | .list name hasDefault optional listType autoIndexField, none, parent, v, _, h => by
    rw [getElVal] at h
    obtain ⟨-, -, h⟩ := bind_eq_ok.mp h
    cases hasDefault with
    | true =>
      cases h
      exact rfl
    | false =>
      cases optional with
      | true =>
        cases h
        exact ⟨rfl, rfl⟩
      | false => cases h
  | .dict name default optional schemas constraints, none, parent, v, _, h => by
    rw [getElVal] at h
    cases h
    exact rfl
  | .dict name default optional schemas constraints, some el, parent, v, ⟨hne, hnodup, hproper⟩, h => by
    rw [getElVal_dict] at h
    obtain ⟨-, -, h⟩ := bind_eq_ok.mp h
    obtain ⟨-, r, hentries, -, rfl⟩ := (getDictVal_eq_ok hne).mp h
    obtain ⟨hkeys, hmem⟩ := getEntries_keys hentries List.nodup_nil
    refine ⟨r, rfl, hkeys, fun k => ?_, nofun, conformsEntries_iff.mpr fun entry hentry => ?_⟩
    · rw [hmem]
      exact or_congr_right ⟨nofun, nofun⟩
    · obtain ⟨w, hw, hval⟩ := getEntries_lookup hentries (filter_name hnodup hentry)
      exact ⟨w, hw, .inl (entries_conform hproper hentry hval)⟩

theorem entries_conform : ∀ {schemas : List Schema}, properEntries schemas → ∀ {entry : Schema},
    entry ∈ schemas → ∀ {el : Option Element} {parent : Element} {v : Value},
    getElVal entry el parent = .ok v → Conforms IsProxy entry none el v
  | f :: rest, ⟨hf, hrest⟩, entry, hentry, el, parent, v, h => by
    rcases List.mem_cons.mp hentry with heq | hmem
    · rw [heq] at h ⊢
      exact getElVal_conforms hf h
    · exact entries_conform hrest hmem h

end

/-! ### The names of the elements -/

theorem tagName_of_checkTagName {name : String} (h : checkTagName name (some el) = .ok ()) :
    el.tagName = name := by
  by_contra hne
  rw [checkTagName, if_pos hne] at h
  cases h

theorem elementChildren_of_singleTextChild {text : String} (h : singleTextChild el = .ok text) :
    elementChildren el = [] := by
  unfold singleTextChild at h
  split at h
  · next hnil => rw [elementChildren, hnil, List.filterMap_nil]
  · next data htext => rw [elementChildren, htext]; rfl
  · cases h

mutual

/-- An element that has a value is one that the schema declares. -/
theorem wellNamed_of_getElVal : ∀ {schema : Schema} {el parent : Element} {v : Value},
    schema.Proper → getElVal schema (some el) parent = .ok v → WellNamed schema el
  | .leaf type name default optional, el, parent, v, _, h => by
    rw [getElVal] at h
    obtain ⟨_, htag, h⟩ := bind_eq_ok.mp h
    obtain ⟨text, htext, -⟩ := bind_eq_ok.mp h
    refine ⟨tagName_of_checkTagName htag, ?_⟩
    cases hsingle : singleTextChild el with
    | error e => simp [getTextValue, hsingle, Functor.map, Except.map] at htext
    | ok given => exact elementChildren_of_singleTextChild hsingle
  | .list name hasDefault optional listType autoIndexField, el, parent, v, hproper, h => by
    rw [getElVal] at h
    obtain ⟨_, htag, h⟩ := bind_eq_ok.mp h
    obtain ⟨r, hr, -⟩ := bind_eq_ok.mp h
    have hproper' : listType.Proper := hproper
    refine ⟨tagName_of_checkTagName htag, fun child hchild => ?_⟩
    obtain ⟨w, -, hw⟩ := ok_of_mapM hr child hchild
    exact wellNamed_of_getElVal hproper' hw
  | .dict name default optional schemas constraints, el, parent, v, ⟨hne, _, hproper⟩, h => by
    rw [getElVal_dict] at h
    obtain ⟨_, htag, h⟩ := bind_eq_ok.mp h
    obtain ⟨hnodup, r, hentries, -⟩ := (getDictVal_eq_ok hne).mp h
    refine ⟨tagName_of_checkTagName htag, hnodup, fun child hchild => ?_⟩
    obtain ⟨entry, hentry, w, hw⟩ := getEntries_child hentries child hchild
    rw [find?_tagName hnodup hchild] at hw
    have hname : entry.name = child.tagName := by simpa using List.find?_some hentry
    exact wellNamedEntry_of_getElVal hproper (List.mem_of_find?_eq_some hentry) hname hw

theorem wellNamedEntry_of_getElVal : ∀ {schemas : List Schema}, properEntries schemas → ∀ {entry : Schema},
    entry ∈ schemas → ∀ {child parent : Element} {v : Value}, entry.name = child.tagName →
    getElVal entry (some child) parent = .ok v → WellNamedEntry schemas child
  | f :: rest, ⟨hf, hrest⟩, entry, hentry, child, parent, v, hname, h => by
    rcases List.mem_cons.mp hentry with heq | hmem
    · rw [heq] at hname h
      exact .inl ⟨hname, wellNamed_of_getElVal hf h⟩
    · exact .inr (wellNamedEntry_of_getElVal hrest hmem hname h)

end

/-! ### No key is there twice -/

theorem nodupKeysList_iff {l : List Value} : NodupKeysList l ↔ ∀ v ∈ l, NodupKeys v := by
  induction l with
  | nil => simp [NodupKeysList]
  | cons v l ih => rw [NodupKeysList, ih, List.forall_mem_cons]

/-- An item of a dictionary whose keys are distinct is found under its key. -/
theorem nodupKeysItems_of_lookup : ∀ {d : Dict}, (d.map Prod.fst).Nodup →
    (∀ k w, d.lookup k = some w → NodupKeys w) → NodupKeysItems d
  | [], _, _ => trivial
  | (k, w) :: d, hnodup, h => by
    obtain ⟨hk, hnodup⟩ := List.nodup_cons.mp hnodup
    refine ⟨h k w List.lookup_cons_self, nodupKeysItems_of_lookup hnodup fun k' w' hw' => h k' w' ?_⟩
    rw [Assoc.lookup_cons, if_neg, hw']
    rintro rfl
    exact hk (Assoc.mem_keys.mpr ⟨w', hw'⟩)

theorem HasType.nodupKeys {type : LeafType} {text : String} (h : HasType IsProxy type text v) :
    NodupKeys v := by
  cases type with
  | string | cIdent => cases h; trivial
  | bool => rcases h with ⟨-, rfl⟩ | ⟨-, rfl⟩ <;> trivial
  | int => obtain ⟨i, -, rfl⟩ := h; trivial
  | ident => obtain ⟨-, rfl⟩ := h; trivial
  | object group => obtain ⟨el, rfl⟩ := h; trivial

mutual

theorem Conforms.nodupKeys : ∀ {schema : Schema} {index : Option String} {el : Option Element} {v : Value},
    Conforms IsProxy schema index el v → NodupKeys v
  | .leaf type name default optional, _, some el, v, ⟨text, _, htype⟩ => htype.nodupKeys
  | .leaf type name (some text) optional, _, none, v, h => by
    have htype : HasType IsProxy type text v := h
    exact htype.nodupKeys
  | .leaf type name none optional, _, none, v, ⟨_, hv⟩ => hv ▸ trivial
  | .list name hasDefault optional listType autoIndexField, _, some el, v, ⟨els, l, _, hv, hall, _⟩ => by
    subst hv
    obtain ⟨hlength, hconforms⟩ := List.forall₂_iff_get.mp hall
    refine nodupKeysList_iff.mpr fun w hw => ?_
    obtain ⟨i, hi, rfl⟩ := List.getElem_of_mem hw
    exact (hconforms i (hlength ▸ hi) hi).nodupKeys
  | .list name hasDefault optional listType autoIndexField, _, none, v, h => by
    cases hasDefault with
    | true =>
      have hv : v = .list [] := h
      exact hv ▸ trivial
    | false =>
      obtain ⟨-, hv⟩ : optional = true ∧ v = .none := h
      exact hv ▸ trivial
  | .dict name default optional schemas constraints, index, some el, v,
      ⟨d, hv, hnodup, hkeys, hindex, hentries⟩ => by
    subst hv
    refine ⟨hnodup, nodupKeysItems_of_lookup hnodup fun k w hw => ?_⟩
    rcases (hkeys k).mp (Assoc.mem_keys.mpr ⟨w, hw⟩) with hk | hk
    · exact ConformsEntries.nodupKeys hentries hk hw
    · obtain ⟨i, w', hw', hi⟩ := hindex k hk
      obtain rfl := Option.some.inj (hw.symm.trans hw')
      cases w with
      | int | bool => trivial
      | _ => cases hi
  | .dict name default optional schemas constraints, _, none, v, h => by
    have hv : v = .dict [] := h
    exact hv ▸ ⟨List.nodup_nil, trivial⟩

theorem ConformsEntries.nodupKeys : ∀ {schemas : List Schema} {index : Option String} {el : Element} {d : Dict},
    ConformsEntries IsProxy schemas index el d → ∀ {k : String}, k ∈ schemas.map Schema.name →
    ∀ {w : Value}, d.lookup k = some w → NodupKeys w
  | entry :: rest, index, el, d, ⟨⟨w', hw', hconforms⟩, hrest⟩, k, hk, w, hw => by
    rcases List.mem_cons.mp hk with hk | hk
    · rw [hk, hw'] at hw
      obtain rfl := Option.some.inj hw
      rcases hconforms with hconforms | ⟨-, -, i, rfl⟩
      · exact hconforms.nodupKeys
      · trivial
    · exact ConformsEntries.nodupKeys hrest hk hw

end

/-! ### The second pass -/

variable {v' : Value} {d' : Dict} {dct : Dict}

/-- The object that a group has under a name. -/
def IsFirst (dct : Dict) (group : Option String) (text : String) (v : Value) : Prop :=
  ∃ g, group = some g ∧ FirstNamed dct g text v

theorem HasType.resolved {type : LeafType} {text : String} (h : HasType IsProxy type text v)
    (hchanges : Changes (Found (.dict dct)) v v') : HasType (IsFirst dct) type text v' := by
  cases type with
  | string | cIdent => cases h; cases hchanges; rfl
  | bool =>
    rcases h with ⟨htext, rfl⟩ | ⟨htext, rfl⟩
    · cases hchanges
      exact .inl ⟨htext, rfl⟩
    · cases hchanges
      exact .inr ⟨htext, rfl⟩
  | int =>
    obtain ⟨i, hi, rfl⟩ := h
    cases hchanges
    exact ⟨i, hi, rfl⟩
  | ident =>
    obtain ⟨hident, rfl⟩ := h
    cases hchanges
    exact ⟨hident, rfl⟩
  | object group =>
    obtain ⟨el, rfl⟩ := h
    obtain ⟨_, g, heq, hgroup, hfirst⟩ := hchanges
    cases heq
    exact ⟨g, hgroup, hfirst⟩

/-- An index is no proxy. -/
theorem carries_resolved (h : Carries key d i) (hchanges : ChangesItems (Found (.dict dct)) d d') :
    Carries key d' i := by
  obtain ⟨w, hw, hi⟩ := h
  obtain ⟨w', hw', hww'⟩ := hchanges.lookup_some hw
  cases w with
  | int j => cases hww'; exact ⟨_, hw', hi⟩
  | bool b => cases hww'; exact ⟨_, hw', hi⟩
  | _ => cases hi

mutual

theorem Conforms.resolved : ∀ {schema : Schema} {index : Option String} {el : Option Element} {v v' : Value},
    Conforms IsProxy schema index el v → Changes (Found (.dict dct)) v v' →
    Conforms (IsFirst dct) schema index el v'
  | .leaf type name default optional, index, some el, v, v', ⟨text, htext, htype⟩, hchanges =>
    ⟨text, htext, htype.resolved hchanges⟩
  | .leaf type name (some text) optional, index, none, v, v', h, hchanges => by
    have htype : HasType IsProxy type text v := h
    exact htype.resolved hchanges
  | .leaf type name none optional, index, none, v, v', ⟨hoptional, hv⟩, hchanges => by
    subst hv
    exact ⟨hoptional, hchanges⟩
  | .list name hasDefault optional listType autoIndexField, index, some el, v, v',
      ⟨els, l, hperm, hv, hall, hindexes⟩, hchanges => by
    subst hv
    obtain ⟨l', rfl, hl⟩ := hchanges
    obtain ⟨hlength, hconforms⟩ := List.forall₂_iff_get.mp hall
    obtain ⟨hlength', hresolved⟩ := List.forall₂_iff_get.mp (changesList_iff.mp hl)
    refine ⟨els, l', hperm, rfl, List.forall₂_iff_get.mpr ⟨hlength.trans hlength', fun i h₁ h₂ => ?_⟩, ?_⟩
    · exact (hconforms i h₁ (hlength ▸ h₁)).resolved (hresolved i _ h₂)
    · intro key hkey i w' hw'
      obtain ⟨hi, rfl⟩ := List.getElem?_eq_some_iff.mp hw'
      obtain ⟨d, hd, hindex⟩ := hindexes key hkey i _ (List.getElem?_eq_getElem (hlength' ▸ hi))
      have hchanges := hresolved i (hlength' ▸ hi) hi
      rw [List.get_eq_getElem, hd] at hchanges
      obtain ⟨d', hd', hdd'⟩ := hchanges
      exact ⟨d', hd', carries_resolved hindex hdd'⟩
  | .list name hasDefault optional listType autoIndexField, index, none, v, v', h, hchanges => by
    cases hasDefault with
    | true =>
      have hv : v = .list [] := h
      subst hv
      obtain ⟨l', rfl, hl⟩ := hchanges
      cases hl
      exact rfl
    | false =>
      obtain ⟨hoptional, hv⟩ : optional = true ∧ v = .none := h
      subst hv
      exact ⟨hoptional, hchanges⟩
  | .dict name default optional schemas constraints, index, some el, v, v',
      ⟨d, hv, hnodup, hkeys, hindex, hentries⟩, hchanges => by
    subst hv
    obtain ⟨d', rfl, hd⟩ := hchanges
    rw [← hd.keys] at hnodup hkeys
    refine ⟨d', rfl, hnodup, hkeys, fun key hkey => ?_, ConformsEntries.resolved hentries hd⟩
    obtain ⟨i, hi⟩ := hindex key hkey
    exact ⟨i, carries_resolved hi hd⟩
  | .dict name default optional schemas constraints, index, none, v, v', h, hchanges => by
    have hv : v = .dict [] := h
    subst hv
    obtain ⟨d', rfl, hd⟩ := hchanges
    cases hd
    exact rfl

theorem ConformsEntries.resolved : ∀ {schemas : List Schema} {index : Option String} {el : Element}
    {d d' : Dict}, ConformsEntries IsProxy schemas index el d → ChangesItems (Found (.dict dct)) d d' →
    ConformsEntries (IsFirst dct) schemas index el d'
  | [], _, _, _, _, _, _ => trivial
  | entry :: rest, index, el, d, d', ⟨⟨w, hw, hconforms⟩, hrest⟩, hchanges => by
    obtain ⟨w', hw', hww'⟩ := hchanges.lookup_some hw
    refine ⟨⟨w', hw', ?_⟩, ConformsEntries.resolved hrest hchanges⟩
    rcases hconforms with hconforms | ⟨hindex, hnone, i, hi⟩
    · exact .inl (hconforms.resolved hww')
    · subst hi
      exact .inr ⟨hindex, hnone.resolved rfl, i, hww'⟩

end

theorem isDict_of_xml2schema {schemaEl : Element} (h : xml2schema schemaEl = .ok schema) :
    ∃ schemas constraints, schema = .dict "module" none false schemas constraints := by
  obtain ⟨-, -, h⟩ := bind_eq_ok.mp h
  obtain ⟨-, -, h⟩ := bind_eq_ok.mp h
  obtain ⟨schemas, -, h⟩ := bind_eq_ok.mp h
  obtain ⟨els, -, h⟩ := bind_eq_ok.mp h
  obtain ⟨constraints, -, h⟩ := bind_eq_ok.mp h
  cases h
  exact ⟨schemas, constraints, rfl⟩

/-- What is returned conforms to the schema, with all references resolved, and elements that the schema
    does not have in their places make an exception. -/
theorem xml2dict_conforms {schemaEl : Element} (hschema : xml2schema schemaEl = .ok schema)
    (hproper : schema.Proper) (el : Element) : (∀ v, xml2dict el schema = .ok v → ∃ r, v = .dict r ∧
        Conforms (IsFirst r) schema none (some el) v ∧ NoProxy v) ∧
      (¬ WellNamed schema el → ∃ e, xml2dict el schema = .error e) := by
  have hgetElVal : ∀ v, xml2dict el schema = .ok v →
      ∃ dct, getElVal schema (some el) el = .ok dct ∧ resolveProxies dct [] dct = .ok v := by
    intro v h
    obtain ⟨-, -, h⟩ := bind_eq_ok.mp h
    exact bind_eq_ok.mp h
  refine ⟨fun v h => ?_, fun hnamed => ?_⟩
  · obtain ⟨dct, hdct, hresolve⟩ := hgetElVal v h
    have hconforms := getElVal_conforms hproper hdct
    obtain ⟨v', hv', hchanges, -⟩ := resolveProxies_eq_ok Frame.root hconforms.nodupKeys hresolve
    obtain rfl : v = v' := hv'
    obtain ⟨schemas, constraints, rfl⟩ := isDict_of_xml2schema hschema
    have ⟨d, hd, _⟩ := hconforms
    subst hd
    have ⟨r, hr, _⟩ := hchanges
    subst hr
    exact ⟨r, rfl, hconforms.resolved hchanges, hchanges.noProxy⟩
  · cases h : xml2dict el schema with
    | error e => exact ⟨e, rfl⟩
    | ok v =>
      obtain ⟨dct, hdct, -⟩ := hgetElVal v h
      exact absurd (wellNamed_of_getElVal hproper hdct) hnamed

/-- A schema of a list of tasks, each with a name, and of a reference to one of them. -/
def tasksSchema : Schema :=
  .dict "module" none false
    [.list "tasks" false false (.dict "task" none false [.leaf .ident "name" none false] []) (some "idx"),
      .leaf (.object (some "tasks")) "first" none false] []

def nameEntry : Element := ⟨"entry", [("name", "name"), ("type", "ident")], [], nowhere⟩

def taskEntry : Element := ⟨"entry", [("name", "task"), ("type", "dict")], [nameEntry.node], nowhere⟩

def tasksEntry : Element :=
  ⟨"entry", [("name", "tasks"), ("type", "list"), ("auto_index_field", "idx")], [taskEntry.node], nowhere⟩

def firstEntry : Element :=
  ⟨"entry", [("name", "first"), ("type", "object"), ("group", "tasks")], [], nowhere⟩

theorem xml2schema_tasksSchema :
    xml2schema ⟨"schema", [], [tasksEntry.node, firstEntry.node], nowhere⟩ = .ok tasksSchema := by
  have hname : readOptional nameEntry = .ok false := readOptional_none (by decide +kernel)
  have htask : readOptional taskEntry = .ok false := readOptional_none (by decide +kernel)
  have htasks : readOptional tasksEntry = .ok false := readOptional_none (by decide +kernel)
  have hfirst : readOptional firstEntry = .ok false := readOptional_none (by decide +kernel)
  simp only [nameEntry, taskEntry, tasksEntry, firstEntry, Element.node] at hname htask htasks hfirst
  simp [xml2schema, nameEntry, taskEntry, tasksEntry, firstEntry, tasksSchema, readEntries, readEntry,
    ensureAllChildrenNamed, ensureOnlyWhitespaceTextChildren, elementChildren, Element.node, Node.element?,
    matchingChildren, singleNamedChild, getAttribute, hname, htask, htasks, hfirst, validSchemaTypes,
    leafType?, bind, Except.bind, pure, Except.pure, List.lookup_cons, List.lookup_nil]

theorem proper_tasksSchema : tasksSchema.Proper :=
  ⟨List.cons_ne_nil _ _, by decide, ⟨List.cons_ne_nil _ _, List.nodup_singleton _, trivial, trivial⟩,
    trivial, trivial⟩

def taskElement (name : String) : Element := ⟨"task", [], [(leafElement "name" name).node], nowhere⟩

/-- Two tasks, of which the second one is referred to. -/
def twoTasks : Element :=
  ⟨"module", [], [.element "tasks" [] [(taskElement "ann").node, (taskElement "bob").node] nowhere,
    (leafElement "first" "bob").node], nowhere⟩

def taskDict (name : String) (idx : ℤ) : Value := .dict [("name", .str name), ("idx", .int idx)]

/-- They are given their indexes, and the reference is that to the second one. -/
def twoTasksDict : Dict :=
  [("tasks", .list [taskDict "ann" 0, taskDict "bob" 1]), ("first", .object "tasks" 1)]

theorem xml2dict_twoTasks : xml2dict twoTasks tasksSchema = .ok (.dict twoTasksDict) := rfl

theorem xml2dict_conforms_twoTasks :
    (∃ r, Value.dict twoTasksDict = .dict r ∧
      Conforms (IsFirst r) tasksSchema none (some twoTasks) (.dict twoTasksDict) ∧
      NoProxy (.dict twoTasksDict)) ∧
    ∃ e, xml2dict ⟨"system", [], [], nowhere⟩ tasksSchema = .error e := by
  refine ⟨(xml2dict_conforms xml2schema_tasksSchema proper_tasksSchema _).1 _ xml2dict_twoTasks,
    (xml2dict_conforms xml2schema_tasksSchema proper_tasksSchema _).2 fun hnamed => ?_⟩
  have htag : "system" = "module" := hnamed.1
  revert htag
  decide

end Echronos.Xml
