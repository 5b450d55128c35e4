import Echronos.Xml.ReadSchema

/-! # `xml2dict` as a whole

    References to objects are resolved in a second pass, in which the configuration is traversed and
    changed at once. -/

namespace Echronos.Xml

open Schemes

/-! ### `util.config_set` -/

/-- A part of a configuration key. -/
inductive Key
  | index (i : ℕ)
  | name (n : String)

/-- `cfg[key]` -/
def getKey : Value → Key → Except Exn Value
  | .list l, .index i =>
    match l[i]? with
    | some v => pure v
    | none => throw .indexError
  | .dict d, .name n => getItem d n
  | _, _ => throw .typeError

/-- `cfg[key] = val` -/
def setKey : Value → Key → Value → Except Exn Value
  | .list l, .index i, val => if i < l.length then pure (.list (l.set i val)) else throw .indexError
  | .dict d, .name n, val => pure (.dict (Assoc.set n val d))
  | _, _, _ => throw .typeError

/-- `config_set`. The dictionaries and lists on the way are changed in place. -/
def configSet : Value → List Key → Value → Except Exn Value
  | _, [], _ => throw .assertionError
  | cfg, [key], val => setKey cfg key val
  | cfg, key :: key' :: rest, val => do
    let sub ← getKey cfg key
    let sub ← configSet sub (key' :: rest) val
    setKey cfg key sub

/-! ### `util.list_search` -/

/-- The dictionary that a member of a list is. -/
def memberDict (dct : Dict) : Value → Except Exn Dict
  | .dict d => pure d
  | .object group i =>
    match dct.lookup group with
    | some (.list l) =>
      match l[i]? with
      | some (.dict d) => pure d
      | _ => throw .typeError
    | _ => throw .typeError
  | _ => throw .typeError

/-- The values that a loop over a value goes through. -/
def iterate (dct : Dict) : Value → Except Exn (List Value)
  | .list l => pure l
  | .str s => pure (s.toList.map fun ch => .str (String.ofList [ch]))
  | .dict d => pure (d.map fun item => .str item.1)
  | .object group i => do
    let d ← memberDict dct (.object group i)
    pure (d.map fun item => .str item.1)
  | _ => throw .typeError

/-- `list_search(lst, 'name', value)`: the index of the member. -/
def listSearch (dct : Dict) (value : String) : List Value → ℕ → Except Exn ℕ
  | [], _ => throw (.keyError "")
  | v :: rest, i => do
    let d ← memberDict dct v
    match ← getItem d "name" with
    | .str s => if s = value then pure i else listSearch dct value rest (i + 1)
    | _ => listSearch dct value rest (i + 1)

/-- The dictionary that is the member `v` of a group. -/
def reference (group : String) (i : ℕ) (v : Option Value) : Value :=
  match v with
  | some (.object group' i') => .object group' i'
  | _ => .object group i

/-- `util.list_search(dct[val.group], 'name', val.name)` -/
def findObject (dct : Dict) (name : String) (group : Option String) : Except Exn Value :=
  match group with
  | none => throw (.keyError "None")
  | some group => do
    let lst ← getItem dct group
    let members ← iterate dct lst
    let i ← listSearch dct name members 0
    pure (reference group i members[i]?)

/-! ### `resolve_proxies` -/

/-- What is done with a proxy that the traversal comes to. -/
def resolveProxy (name : String) (group : Option String) (el : Option Element) (key : List Key) :
    Value → Except Exn Value
  | .dict dct =>
    match findObject dct name group with
    | .ok realVal => configSet (.dict dct) key realVal
    | .error (.keyError _) => throw (parseError el ("Can't find object named '" ++ name ++ "'"))
    | .error e => throw e
  | _ => throw .typeError

mutual

/-- `resolve_proxies`, from the value at a key on. The last argument is the configuration at the time;
    no value that is still to come has changed by then. -/
def resolveProxies : Value → List Key → Value → Except Exn Value
  | .list l, key, cfg => resolveList l key 0 cfg
  | .dict d, key, cfg => resolveItems d key cfg
  | .proxy name group el, key, cfg => resolveProxy name group el key cfg
  | _, _, cfg => pure cfg
termination_by structural v => v

def resolveList : List Value → List Key → ℕ → Value → Except Exn Value
  | [], _, _, cfg => pure cfg
  | v :: rest, key, i, cfg => do
    let cfg ← resolveProxies v (key ++ [.index i]) cfg
    resolveList rest key (i + 1) cfg
termination_by structural l => l

def resolveItems : List (String × Value) → List Key → Value → Except Exn Value
  | [], _, cfg => pure cfg
  | item :: rest, key, cfg => do
    let cfg ← resolveItem item key cfg
    resolveItems rest key cfg
termination_by structural d => d

def resolveItem : String × Value → List Key → Value → Except Exn Value
  | (n, v), key, cfg => resolveProxies v (key ++ [.name n]) cfg
termination_by structural item => item

end

/-- `xml2dict(el, schema)` -/
def xml2dict (el : Element) (schema : Schema) : Except Exn Value := do
  checkSchemaIsValid schema []
  let dct ← getElVal schema (some el) el
  resolveProxies dct [] dct

end Echronos.Xml
