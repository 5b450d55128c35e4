import Echronos.Schemes.Assoc
import Echronos.Schemes.Text
import Echronos.Xml.Dom
import Mathlib.Data.List.Sort

/-! # Values of a configuration

    What `xml2dict` makes of elements: Python's own values, `ObjectProxy` for a reference to an entry
    that may not be known yet, and the reference itself. A dictionary is the list of its items in the
    order in which its keys were added. -/

namespace Echronos.Xml

open Schemes

inductive Value
  | none
  | str (s : String)
  | bool (b : Bool)
  | int (i : ℤ)
  /-- `LengthList` -/
  | list (l : List Value)
  | dict (d : List (String × Value))
  /-- `ObjectProxy` -/
  | proxy (name : String) (group : Option String) (el : Option Element)
  /-- The dictionary that is this member of the list `group`. -/
  | object (group : String) (index : ℕ)

abbrev Dict := List (String × Value)

/-- `v is None` -/
def Value.isNone : Value → Bool
  | .none => true
  | _ => false

/-! ### Python's own conversions -/

/-- `repr` of a string: in single quotes, unless it has some and no double ones. -/
def strRepr (s : String) : String :=
  let quote := if '\'' ∈ s.toList ∧ '"' ∉ s.toList then '"' else '\''
  let escape (ch : Char) : List Char :=
    if ch = '\\' ∨ ch = quote then ['\\', ch]
    else if ch = '\n' then ['\\', 'n']
    else if ch = '\r' then ['\\', 'r']
    else if ch = '\t' then ['\\', 't']
    else [ch]
  String.ofList ([quote] ++ s.toList.flatMap escape ++ [quote])

/-- `repr` of a list, given that of its elements. -/
def listRepr (l : List String) : String := "[" ++ String.intercalate ", " l ++ "]"

/-- The value of a digit in a base up to 16. -/
def digit? (base : ℕ) (ch : Char) : Option ℕ :=
  let v := if ch.isDigit then ch.toNat - '0'.toNat
    else if 'a' ≤ ch ∧ ch ≤ 'f' then ch.toNat - 'a'.toNat + 10
    else if 'A' ≤ ch ∧ ch ≤ 'F' then ch.toNat - 'A'.toNat + 10
    else 16
  if v < base then some v else none

/-- Digits of a literal, single underscores between them left out. -/
def digits? (base : ℕ) : ℕ → List Char → Option ℕ
  | acc, [] => some acc
  | acc, '_' :: ch :: rest => (digit? base ch).bind fun v => digits? base (acc * base + v) rest
  | acc, ch :: rest => (digit? base ch).bind fun v => digits? base (acc * base + v) rest

/-- At least one digit. -/
def literal? (base : ℕ) : List Char → Option ℕ
  | [] => none
  | ch :: rest => (digit? base ch).bind fun v => digits? base v rest

/-- The digits after a prefix that gives the base; an underscore may stand in between. -/
def prefixed? (base : ℕ) : List Char → Option ℕ
  | '_' :: rest => literal? base rest
  | rest => literal? base rest

/-- A literal without sign. A decimal one may begin with a zero only if it is zero. -/
def unsigned? : List Char → Option ℕ
  | '0' :: 'x' :: rest | '0' :: 'X' :: rest => prefixed? 16 rest
  | '0' :: 'o' :: rest | '0' :: 'O' :: rest => prefixed? 8 rest
  | '0' :: 'b' :: rest | '0' :: 'B' :: rest => prefixed? 2 rest
  | '0' :: rest => (literal? 10 ('0' :: rest)).filter (· = 0)
  | cs => literal? 10 cs

/-- `int(val, base=0)`, on ASCII text: white space around the literal and one sign are allowed. -/
def int? (val : String) : Option ℤ :=
  let isSpace (ch : Char) : Bool := ch.isWhitespace || ch = '\x0b' || ch = '\x0c'
  match strip isSpace val.toList with
  | '-' :: rest => (unsigned? rest).map fun n => -(n : ℤ)
  | '+' :: rest => (unsigned? rest).map fun n => (n : ℤ)
  | rest => (unsigned? rest).map fun n => (n : ℤ)

/-! ### `util.add_index` -/

/-- `d.get(key)`, if that is not `None`. -/
def given? (key : String) (d : Dict) : Option Value := (d.lookup key).filter fun v => !v.isNone

def getIndex (key : String) : Value → Except Exn (Option Value)
  | .dict d => pure (given? key d)
  | _ => throw .attributeError

/-- An index as a number, as comparisons take it. -/
def toIndex : Value → Except Exn ℤ
  | .int i => pure i
  | .bool b => pure (if b then 1 else 0)
  | _ => throw .typeError

/-- `repr` of an index. -/
def indexRepr : Value → String
  | .int i => toString i
  | .bool b => if b then "True" else "False"
  | _ => ""

/-- `out_of_range` -/
def outOfRange (given : List Value) (length : ℕ) : List Value :=
  given.filter fun v =>
    match toIndex v with
    | .ok i => length ≤ i ∨ i < 0
    | .error _ => false

/-- The checks of `add_index`: the indexes that are given, as numbers. -/
def checkIndexes (given : List Value) (length : ℕ) : Except Exn (List ℤ) := do
  let indexes ← given.mapM toIndex
  if outOfRange given length ≠ [] then
    throw (.valueError ("Some index value are out-of-range: " ++
      listRepr ((outOfRange given length).map indexRepr)))
  else if ¬ indexes.Nodup then
    let dups := indexes.dedup.filter fun i => 1 < indexes.count i
    throw (.valueError ("Duplicates found in list: " ++ listRepr (dups.map fun i =>
      "(" ++ toString i ++ ", " ++ toString (indexes.count i) ++ ")")))
  else pure indexes

/-- `remove_multi(list(range(length)), *indexes)` -/
def newIndexes (indexes : List ℤ) (length : ℕ) : List ℤ :=
  indexes.foldl List.erase ((List.range length).map fun i : ℕ => (i : ℤ))

/-- `d[key] = new_index` for the dictionaries without an index, in turn. -/
def assignIndexes (key : String) : List Value → List ℤ → List Value
  | .dict d :: rest, newIndexes =>
    if (given? key d).isSome then
      .dict d :: assignIndexes key rest newIndexes
    else
      match newIndexes with
      | [] => .dict d :: assignIndexes key rest []
      | i :: is => .dict (Assoc.set key (.int i) d) :: assignIndexes key rest is
  | v :: rest, newIndexes => v :: assignIndexes key rest newIndexes
  | [], _ => []

/-- `itemgetter(key)`, on a dictionary that has an index. -/
def indexOf (key : String) : Value → ℤ
  | .dict d =>
    match d.lookup key with
    | some (.int i) => i
    | some (.bool b) => if b then 1 else 0
    | _ => 0
  | _ => 0

/-- `add_index`: the list it leaves. -/
def addIndex (lst : List Value) (key : String) : Except Exn (List Value) := do
  let given := (← lst.mapM (getIndex key)).reduceOption
  let indexes ← checkIndexes given lst.length
  let indexed := assignIndexes key lst (newIndexes indexes lst.length)
  pure (indexed.insertionSort fun v w => indexOf key v ≤ indexOf key w)

end Echronos.Xml
