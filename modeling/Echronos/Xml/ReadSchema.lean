import Echronos.Xml.Schema

/-! # `xml2schema`

    A schema is read from XML itself. `xml2dict` checks it before it uses it. -/

namespace Echronos.Xml

def validSchemaTypes : List String :=
  ["dict", "list", "string", "bool", "int", "c_ident", "ident", "object"]

/-- The types other than `dict` and `list`; `group` is that of an object. -/
def leafType? (type : String) (group : Option String) : Option LeafType :=
  if type = "string" then some .string
  else if type = "bool" then some .bool
  else if type = "int" then some .int
  else if type = "c_ident" then some .cIdent
  else if type = "ident" then some .ident
  else if type = "object" then some (.object group)
  else none

/-- `ensure_only_whitespace_text_children` -/
def ensureOnlyWhitespaceTextChildren (el : Element) : Except Exn Unit :=
  let whitespace (ch : Char) : Bool := ch ∈ [' ', '\t', '\n', '\r', '\x0b', '\x0c']
  let bad : Node → Bool
    | .text data => data.toList.any fun ch => !whitespace ch
    | _ => false
  if el.childNodes.any bad then throw (parseError el "Expected only non-whitespace children.")
  else pure ()

/-- `element_children(el, matching=matching, only_whitespace_text=True)` -/
def matchingChildren (el : Element) (matching : String) : Except Exn (List Element) := do
  ensureOnlyWhitespaceTextChildren el
  pure ((elementChildren el).filter (·.tagName = matching))

/-- `single_named_child` -/
def singleNamedChild (el : Element) (tagName : String) : Except Exn Element :=
  match (elementChildren el).filter (·.tagName = tagName) with
  | [] => throw (parseError el ("Expected a single child element named " ++ tagName))
  | [child] => pure child
  | _ => throw (parseError el ("Too many child nodes named " ++ tagName))

/-- `ensure_all_children_named(el, 'entry', 'constraint')`. There is one `%s` in the message for two
    names, so formatting it fails. -/
def ensureAllChildrenNamed (el : Element) : Except Exn Unit :=
  if (elementChildren el).any fun child => child.tagName ∉ ["entry", "constraint"] then throw .typeError
  else pure ()

/-- `read_constraint` -/
def readConstraint (el : Element) : Except Exn Constraint := do
  let type ← getAttribute el "type"
  let entries ← matchingChildren el "entry"
  let elements ← entries.mapM singleTextChild
  if type = "one_of" then pure { type := .oneOf, elements }
  else throw (parseError el ("Invalid constraint type '" ++ type ++ "'"))

/-- The attribute `optional` of an entry. -/
def readOptional (el : Element) : Except Exn Bool :=
  let val := ((el.attributes.lookup "optional").getD "false").toLower
  if val = "true" then pure true
  else if val = "false" then pure false
  else throw (parseError el "Attribute 'optional' should be 'true' or 'false'.")

mutual

/-- `read_entry`, on elements with that name. -/
def readEntry : Node → Except Exn (Option Schema)
  | .text _ | .other _ _ => pure none
  | .element tagName attributes childNodes position =>
    if tagName ≠ "entry" then pure none
    else do
      let el : Element := ⟨tagName, attributes, childNodes, position⟩
      let name ← getAttribute el "name"
      let type := (el.attributes.lookup "type").getD "string"
      let default := el.attributes.lookup "default"
      let optional ← readOptional el
      if type ∉ validSchemaTypes then
        throw (parseError el ("Invalid type '" ++ type ++ "' should be one of " ++
          listRepr (validSchemaTypes.map strRepr)))
      else if type = "list" then do
        let _ ← singleNamedChild el "entry"
        match ← readEntries childNodes with
        | [] => throw .assertionError
        | listType :: _ =>
          let autoIndexField := el.attributes.lookup "auto_index_field"
          match default with
          | none => pure (some (.list name false optional listType autoIndexField))
          | some val =>
            if val ≠ "[]" then
              throw (parseError el ("Invalid default '" ++ val ++
                "'. Only empty list '[]' is supported as a list default."))
            else pure (some (.list name true true listType autoIndexField))
      else if type = "dict" then do
        ensureAllChildrenNamed el
        ensureOnlyWhitespaceTextChildren el
        let schemas ← readEntries childNodes
        let constraintEls ← matchingChildren el "constraint"
        let constraints ← constraintEls.mapM readConstraint
        pure (some (.dict name default optional schemas constraints))
      else
        match leafType? type (el.attributes.lookup "group") with
        | some leaf => pure (some (.leaf leaf name default optional))
        | none => throw .assertionError
termination_by structural node => node

/-- The entries among some nodes. -/
def readEntries : List Node → Except Exn (List Schema)
  | [] => pure []
  | node :: rest => do
    let schema ← readEntry node
    let schemas ← readEntries rest
    pure (schema.toList ++ schemas)
termination_by structural nodes => nodes

end

/-- `xml2schema`, with the `read_dict_schema` of the root. -/
def xml2schema (el : Element) : Except Exn Schema := do
  ensureAllChildrenNamed el
  ensureOnlyWhitespaceTextChildren el
  let schemas ← readEntries el.childNodes
  let constraintEls ← matchingChildren el "constraint"
  let constraints ← constraintEls.mapM readConstraint
  pure (.dict "module" none false schemas constraints)

mutual

/-- `check_schema_is_valid`. What it checks besides holds of every `Schema`. -/
def checkSchemaIsValid : Schema → List String → Except Exn Unit
  | .leaf type name default _, keyPath =>
    match type, default with
    | .ident, some val =>
      match checkIdent val with
      | some e => throw (.schemaInvalidError ("Schema key:" ++ ".".intercalate (keyPath ++ [name]) ++
          " is invalid: default value has a bad type (" ++ e ++ ")"))
      | none => pure ()
    | _, _ => pure ()
  | .list _ _ _ listType _, _ => checkSchemaIsValid listType []
  | .dict name _ _ schemas _, keyPath => checkSchemasAreValid schemas (keyPath ++ [name])
termination_by structural schema => schema

def checkSchemasAreValid : List Schema → List String → Except Exn Unit
  | [], _ => pure ()
  | schema :: rest, keyPath => do
    checkSchemaIsValid schema keyPath
    checkSchemasAreValid rest keyPath
termination_by structural schemas => schemas

end

end Echronos.Xml
