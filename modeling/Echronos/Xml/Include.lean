import Echronos.Schemes.Paths
import Echronos.Schemes.Settles
import Echronos.Xml.Value

/-! # `XmlIncludeParser`

    Include elements are replaced by the child nodes of the root of the file they name, while the loop
    over the child nodes is under way. The loop keeps an index, as the iterator of a Python list does. -/

namespace Echronos.Xml

open Schemes

/-! ### The parser -/

/-- The file system, and the XML parser on it. -/
structure Files where
  isfile : Path → Bool
  pathExists : Path → Bool
  /-- `xml_parse_file` -/
  document : Path → Except Exn Element

structure XmlIncludeParser where
  files : Files
  includePaths : List Path

/-- The path that `resolve_include_element` makes of the attribute. -/
def XmlIncludeParser.pathToInclude (p : XmlIncludeParser) (parentDir pathAttribute : Path) : Path :=
  if isabs pathAttribute then normpath pathAttribute
  else
    let paths := (parentDir :: p.includePaths).map fun includePath => join includePath pathAttribute
    -- without a `break` the loop leaves the last path
    normpath ((paths.find? p.files.isfile).getD (paths.getLastD []))

/-- How `format` shows a path in a list. -/
def pathRepr (path : Path) : String := strRepr (String.ofList path)

/-- The checks of `resolve_include_element`: the path of the file to include. -/
def XmlIncludeParser.checkInclude (p : XmlIncludeParser) (el : Element) (parentDir : Path) :
    Except Exn Path := do
  if (elementChildren el).length ≠ 0 then
    throw (parseError el ("Expected no child elements in include element. Correct format " ++
      "is <include file=\"FILENAME\" />"))
  let pathAttribute ← getAttribute el "file"
  let path := p.pathToInclude parentDir pathAttribute.toList
  if ¬ p.files.pathExists path then
    throw (parseError el ("The path " ++ String.ofList path ++
      " specified in the include element does not refer to an existing file. The path is considered to be " ++
      (if isabs pathAttribute.toList then "absolute" else "relative") ++
      ". The known prx include paths are " ++ listRepr (p.includePaths.map pathRepr) ++ ")"))
  pure path

mutual

/-- `parse` -/
def XmlIncludeParser.parse (p : XmlIncludeParser) : ℕ → Path → Fuelled Exn Element
  | 0, _ => Fuelled.outOfFuel
  | fuel + 1, filename => do
    let documentElement ← Fuelled.result (p.files.document filename)
    if documentElement.tagName = "include" then
      throw (parseError documentElement ("The XML root element is an include element. This is not " ++
        "supported. include elements may only appear below the root element."))
    else
      let childNodes ← p.resolveIncludesBelow fuel documentElement.childNodes 0 (dirname filename)
      pure { documentElement with childNodes }

/-- `resolve_includes_below_element`: the loop over the child nodes, from an index on. -/
def XmlIncludeParser.resolveIncludesBelow (p : XmlIncludeParser) :
    ℕ → List Node → ℕ → Path → Fuelled Exn (List Node)
  | 0, _, _, _ => Fuelled.outOfFuel
  | fuel + 1, childNodes, i, parentDir =>
    match childNodes[i]? with
    | none => pure childNodes
    | some (.element tagName attributes children position) =>
      if tagName = "include" then do
        let included ← p.resolveIncludeElement fuel ⟨tagName, attributes, children, position⟩ parentDir
        p.resolveIncludesBelow fuel (childNodes.take i ++ included ++ childNodes.drop (i + 1)) (i + 1) parentDir
      else do
        let children' ← p.resolveIncludesBelow fuel children 0 parentDir
        p.resolveIncludesBelow fuel (childNodes.set i (.element tagName attributes children' position)) (i + 1)
          parentDir
    -- text has no child nodes, and neither have the others
    | some _ => p.resolveIncludesBelow fuel childNodes (i + 1) parentDir

/-- `resolve_include_element`: the nodes that take the place of the element. -/
def XmlIncludeParser.resolveIncludeElement (p : XmlIncludeParser) :
    ℕ → Element → Path → Fuelled Exn (List Node)
  | 0, _, _ => Fuelled.outOfFuel
  | fuel + 1, el, parentDir => do
    let path ← Fuelled.result (p.checkInclude el parentDir)
    let root ← p.parse fuel path
    if root.tagName ≠ "include_root" then
      throw (parseError root ("The XML root element in file " ++ String.ofList path ++
        " is not named include_root as expected. Root elements in included XML files must have this " ++
        "name by convention and are removed implicitly by the inclusion process."))
    else pure root.childNodes

end

end Echronos.Xml
