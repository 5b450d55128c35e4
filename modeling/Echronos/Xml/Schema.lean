import Echronos.Schemes.Except
import Echronos.Xml.Value

/-! # `xml2dict`

    A schema describes the entry a value is read from. `get_el_val` follows the schema, except below a
    dictionary for which no entries are declared: there it takes the elements as they come. The
    references that `ObjectProxy` stands for are resolved afterwards. -/

namespace Echronos.Xml

open Schemes

/-- The types of `valid_schema_types` other than `dict` and `list`. -/
inductive LeafType
  | string | bool | int | cIdent | ident
  | object (group : Option String)
  deriving DecidableEq

/-- `valid_constraint_types` -/
inductive ConstraintType
  | oneOf
  deriving DecidableEq

structure Constraint where
  type : ConstraintType
  elements : List String
  deriving DecidableEq

/-- A schema as `xml2schema` makes it. The only default of a list is the empty one. -/
inductive Schema
  | leaf (type : LeafType) (name : String) (default : Option String) (optional : Bool)
  | list (name : String) (hasDefault : Bool) (optional : Bool) (listType : Schema)
      (autoIndexField : Option String)
  | dict (name : String) (default : Option String) (optional : Bool) (schemas : List Schema)
      (constraints : List Constraint)

namespace Schema

def name : Schema → String
  | leaf _ name _ _ | list name _ _ _ _ | dict name _ _ _ _ => name

def optional : Schema → Bool
  | leaf _ _ _ optional | list _ _ optional _ _ | dict _ _ optional _ _ => optional

/-- The entry has a default. -/
def hasDefault : Schema → Bool
  | leaf _ _ default _ | dict _ default _ _ _ => default.isSome
  | list _ hasDefault _ _ _ => hasDefault

def isDict : Schema → Bool
  | dict _ _ _ _ _ => true
  | leaf _ _ _ _ | list _ _ _ _ _ => false

end Schema

/-- `check_ident`: the text of the exception it raises. -/
def checkIdent (s : String) : Option String :=
  let lowercase (ch : Char) : Bool := 'a' ≤ ch ∧ ch ≤ 'z'
  let valid (ch : Char) : Bool := lowercase ch || ch.isDigit || ch = '_'
  match s.toList with
  | [] => some "Ident string must not be empty."
  | ch :: rest =>
    if ¬ lowercase ch then
      some "First character of an indent must be a lower-case ascii character."
    else if (ch :: rest).any fun ch => !valid ch then
      some "Ident must only contains ASCII lower-case, digits and '_'"
    else none

/-- The end of `get_el_val`: type checking and coercion of the text of an entry. -/
def coerce (type : LeafType) (val : String) (el : Option Element) : Except Exn Value :=
  match type with
  | .string | .cIdent => pure (.str val)
  | .bool =>
    if val.toLower = "true" then pure (.bool true)
    else if val.toLower = "false" then pure (.bool false)
    else throw (parseError el ("Error converting '" ++ val ++ "' to boolean."))
  | .int =>
    match int? val with
    | some i => pure (.int i)
    | none => throw (parseError el ("Error converting '" ++ val ++ "' to integer: " ++
        "invalid literal for int() with base 0: " ++ strRepr val))
  | .ident =>
    match checkIdent val with
    | none => pure (.str val)
    | some e => throw (parseError el ("Error parsing ident '" ++ val ++ "'. " ++ e))
  | .object group => pure (.proxy val group el)

/-- The exception for an entry that is mandatory. -/
def missing (name : String) (parent : Element) : Exn :=
  parseError parent ("Required config field '" ++ name ++ "' missing.")

/-- `get_text_value` -/
def getTextValue (name : String) (default : Option String) (optional : Bool) (el : Option Element)
    (parent : Element) : Except Exn (Option String) :=
  match el with
  | some el => some <$> singleTextChild el
  | none =>
    match default with
    | some val => pure (some val)
    | none => if optional then pure none else throw (missing name parent)

/-- `get_el_val` compares the name of an element that is present. -/
def checkTagName (name : String) (el : Option Element) : Except Exn Unit :=
  match el with
  | some el =>
    if el.tagName ≠ name then
      throw (parseError el ("Expected tagName: " ++ name ++ ", not " ++ el.tagName))
    else pure ()
  | none => pure ()

/-- The indexes that `get_el_val` adds to the entries of a list. -/
def addIndexes (autoIndexField : Option String) (el : Element) (r : List Value) :
    Except Exn (List Value) :=
  match autoIndexField with
  | none => pure r
  | some key =>
    match addIndex r key with
    | .error (.valueError e) => throw (parseError el e)
    | indexed => indexed

/-! ### Without a schema -/

mutual

/-- `get_el_val(el, None, parent)`, with the name of the element. -/
def untypedVal : Node → Except Exn (Option (String × Value))
  | .text _ | .other _ _ => pure none
  | .element tagName attributes childNodes position =>
    let el : Element := ⟨tagName, attributes, childNodes, position⟩
    if ¬ anyElementChildren el then do
      let val ← singleTextChild el
      pure (some (tagName, .str val))
    else if listAllEqual (childNames el) then do
      let r ← untypedVals childNodes
      pure (some (tagName, .list (r.map Prod.snd)))
    else do
      ensureUniqueTagNames [] (elementChildren el)
      let r ← untypedVals childNodes
      pure (some (tagName, .dict r))

/-- The values of the elements among some nodes. -/
def untypedVals : List Node → Except Exn (List (String × Value))
  | [] => pure []
  | node :: rest => do
    let val ← untypedVal node
    let vals ← untypedVals rest
    pure (val.toList ++ vals)

end

/-! ### With a schema -/

/-- `r[elem]` -/
def getItem (r : Dict) (elem : String) : Except Exn Value :=
  match r.lookup elem with
  | some v => pure v
  | none => throw (.keyError elem)

/-- A turn of the loop of `get_dict_val` over the constraints. -/
def checkConstraint (el : Element) (r : Dict) (constraint : Constraint) : Except Exn Unit :=
  match constraint.type with
  | .oneOf => do
    let values ← constraint.elements.mapM (getItem r)
    if (values.filter Value.isNone).length ≠ 1 then
      throw (parseError el ("Expected exactly one of the following elements: " ++
        listRepr (constraint.elements.map strRepr)))
    else pure ()

/-- The rest of `get_dict_val`, when the declared entries have been read into `r` and the elements
    `els` are left over. -/
def closeDict (constraints : List Constraint) (el : Element) (r : Dict) (els : List Element) :
    Except Exn Value :=
  match els with
  | fst :: _ => throw (parseError fst ("Unexpected configuration entry '" ++ fst.tagName ++ "'"))
  | [] => do
    constraints.forM (checkConstraint el r)
    pure (.dict r)

mutual

/-- `get_el_val`. `parent` is of no account when there is an element. -/
def getElVal : Schema → Option Element → Element → Except Exn Value
  | .leaf type name default optional, el, parent => do
    checkTagName name el
    match ← getTextValue name default optional el parent with
    | none => pure .none
    | some val => coerce type val el
  | .list name hasDefault optional listType autoIndexField, el, parent => do
    checkTagName name el
    match el with
    | none =>
      if hasDefault then pure (.list [])
      else if optional then pure .none
      else throw (missing name parent)
    | some el => do
      let r ← (elementChildren el).mapM fun child => getElVal listType (some child) el
      .list <$> addIndexes autoIndexField el r
  | .dict name _ _ schemas constraints, el, _ => do
    checkTagName name el
    match el with
    | none => pure (.dict [])
    | some el => do
      ensureUniqueTagNames [] (elementChildren el)
      if schemas.isEmpty then .dict <$> untypedVals el.childNodes
      else
        let (r, els) ← getEntries schemas (elementChildren el) [] el
        closeDict constraints el r els

/-- The loop of `get_dict_val` over the declared entries: the items that are read and the elements
    that are left over. -/
def getEntries : List Schema → List Element → Dict → Element → Except Exn (Dict × List Element)
  | [], els, r, _ => pure (r, els)
  | entry :: rest, els, r, el => do
    let v ← getElVal entry (els.find? (·.tagName = entry.name)) el
    getEntries rest (els.filter (·.tagName ≠ entry.name)) (Assoc.set entry.name v r) el

end

/-- `get_dict_val` -/
def getDictVal (schemas : List Schema) (constraints : List Constraint) (el : Element) :
    Except Exn Value := do
  ensureUniqueTagNames [] (elementChildren el)
  if schemas.isEmpty then .dict <$> untypedVals el.childNodes
  else
    let (r, els) ← getEntries schemas (elementChildren el) [] el
    closeDict constraints el r els

theorem getElVal_dict (name : String) (default : Option String) (optional : Bool)
    (schemas : List Schema) (constraints : List Constraint) (el parent : Element) :
    getElVal (.dict name default optional schemas constraints) (some el) parent =
      (checkTagName name (some el) >>= fun _ => getDictVal schemas constraints el) := by
  rw [getElVal, getDictVal]

end Echronos.Xml
