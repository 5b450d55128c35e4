import Mathlib.Data.List.Basic

/-! # XML elements, as `lib/util/xml.py` uses them

    A parsed file is a tree of elements, text and other nodes (comments, CDATA sections, processing
    instructions). Every element knows where it starts, for the messages of exceptions. -/

namespace Echronos.Xml

/-- The exceptions that conversions raise, with their texts where these reach the user. -/
inductive Exn
  | systemParseError (msg : String)
  | valueError (msg : String)
  | keyError (key : String)
  | typeError
  | attributeError
  | expatError
  | osError
  | assertionError
  | indexError
  | schemaInvalidError (msg : String)
  deriving DecidableEq

/-- `path` and `start_line` of the document, `_line` and `_col` of the element. -/
structure Position where
  path : String
  startLine : ℕ
  line : ℕ
  col : ℕ
  deriving DecidableEq

inductive Node
  | element (tagName : String) (attributes : List (String × String)) (childNodes : List Node)
      (position : Position)
  | text (data : String)
  | other (nodeType : ℕ) (data : String)

structure Element where
  tagName : String
  attributes : List (String × String)
  childNodes : List Node
  position : Position

/-- `nodeType == ELEMENT_NODE` -/
def Node.element? : Node → Option Element
  | .element tagName attributes childNodes position =>
    some ⟨tagName, attributes, childNodes, position⟩
  | .text _ | .other _ _ => none

def Element.node (el : Element) : Node :=
  .element el.tagName el.attributes el.childNodes el.position

@[simp] theorem Element.element?_node (el : Element) : el.node.element? = some el := rfl

/-- `xml_error_str` -/
def xmlErrorStr (el : Element) (msg : String) : String :=
  el.position.path ++ ":" ++ toString (el.position.startLine + el.position.line) ++ "." ++
    toString el.position.col ++ " " ++ msg

/-- `raise SystemParseError(xml_error_str(el, msg))`, where `el` may be `None`. -/
def parseError (el : Option Element) (msg : String) : Exn :=
  match el with
  | some el => .systemParseError (xmlErrorStr el msg)
  | none => .attributeError

/-- `element_children`, without its checks. -/
def elementChildren (el : Element) : List Element := el.childNodes.filterMap Node.element?

/-- The names of the child elements. -/
def childNames (el : Element) : List String := (elementChildren el).map (·.tagName)

/-- `any_element_children` -/
def anyElementChildren (el : Element) : Bool := !(elementChildren el).isEmpty

/-- `get_attribute`, without a default. -/
def getAttribute (el : Element) (attrName : String) : Except Exn String :=
  match el.attributes.lookup attrName with
  | some val => pure val
  | none => throw (parseError el ("Expected attribute name '" ++ attrName ++ "'"))

/-- `list_all_equal` -/
def listAllEqual (lst : List String) : Bool := lst.dedup.length = 1

/-- `single_text_child` -/
def singleTextChild (el : Element) : Except Exn String :=
  match el.childNodes with
  | [] => pure ""
  | [.text data] => pure data
  | _ => throw (parseError el "expect a single text node as element child.")

/-- `ensure_unique_tag_names`, from the set of names that were seen before. -/
def ensureUniqueTagNames : List String → List Element → Except Exn Unit
  | _, [] => pure ()
  | seen, el :: rest =>
    if el.tagName ∈ seen then
      throw (parseError el ("Unexpected duplicate tag name " ++ el.tagName))
    else ensureUniqueTagNames (el.tagName :: seen) rest

theorem ensureUniqueTagNames_eq_ok : ∀ {seen : List String} {els : List Element},
    ensureUniqueTagNames seen els = .ok () ↔
      (els.map (·.tagName)).Nodup ∧ ∀ el ∈ els, el.tagName ∉ seen
  | seen, [] => by simp [ensureUniqueTagNames, pure, Except.pure]
  | seen, el :: rest => by
    rw [ensureUniqueTagNames]
    by_cases h : el.tagName ∈ seen
    · simp [h, throw, throwThe, MonadExceptOf.throw]
    · rw [if_neg h, ensureUniqueTagNames_eq_ok]
      simp only [List.map_cons, List.nodup_cons, List.mem_cons, List.mem_map, not_or, forall_eq_or_imp]
      constructor
      · rintro ⟨hnodup, hseen⟩
        refine ⟨⟨fun ⟨x, hx, heq⟩ => (hseen x hx).1 heq, hnodup⟩, h, fun x hx => (hseen x hx).2⟩
      · rintro ⟨⟨hne, hnodup⟩, -, hseen⟩
        exact ⟨hnodup, fun x hx => ⟨fun heq => hne ⟨x, hx, heq⟩, hseen x hx⟩⟩

end Echronos.Xml
