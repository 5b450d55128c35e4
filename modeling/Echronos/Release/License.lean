import Echronos.Schemes.Except
import Echronos.Schemes.Paths
import Echronos.Schemes.Text
import Mathlib.Data.Nat.Digits.Defs

/-! # Files of a release under another license, as `pylib/release.py` reads them

    A file is opened with the old license skipped and the new one in front, and the archive entry is
    given the size of the result. -/

namespace Echronos.Release

open Schemes

abbrev Bytes := List UInt8

inductive ReleaseError
  | exception (msg : Text)
  | unknownFiletype (msg : Text)
  | unicodeDecodeError
  | assertionError
  | ioError
  deriving DecidableEq

/-! ### Text -/

def isLineBreak (ch : Char) : Bool :=
  let n := ch.toNat
  (10 ≤ n ∧ n ≤ 13) ∨ (28 ≤ n ∧ n ≤ 30) ∨ n = 0x85 ∨ n = 0x2028 ∨ n = 0x2029

/-- `str.splitlines()` -/
def splitlines : Text → List Text
  | [] => []
  | '\r' :: '\n' :: text => [] :: splitlines text
  | ch :: text =>
    if isLineBreak ch then [] :: splitlines text
    else
      match splitlines text with
      | [] => [[ch]]
      | line :: lines => (ch :: line) :: lines

/-- `text.replace(old, new, 1)` -/
def replaceFirst (text old new : Text) : Text :=
  match partition old text with
  | (_, [], _) => text
  | (before, _, after) => before ++ new ++ after

/-- How `repr` shows a byte between these quotes. -/
def byteRepr (quote : Char) (byte : UInt8) : Text :=
  let ch := Char.ofNat byte.toNat
  if ch = quote ∨ ch = '\\' then ['\\', ch]
  else if ch = '\t' then "\\t".toList
  else if ch = '\n' then "\\n".toList
  else if ch = '\r' then "\\r".toList
  else if byte < 0x20 ∨ 0x7f ≤ byte then
    "\\x".toList ++ [Nat.digitChar (byte.toNat / 16), Nat.digitChar (byte.toNat % 16)]
  else [ch]

/-- `repr` of bytes -/
def bytesRepr (bytes : Bytes) : Text :=
  let quote := if 0x27 ∈ bytes ∧ 0x22 ∉ bytes then '"' else '\''
  'b' :: quote :: bytes.flatMap (byteRepr quote) ++ [quote]

/-! ### Files -/

structure File where
  bytes : Bytes
  /-- How many bytes `peek` finds at a position, if the file has as many. -/
  buffered : ℕ → ℕ
  buffered_pos : ∀ pos, 0 < buffered pos

/-- A file that is open for reading. -/
structure FileObject where
  file : File
  pos : ℕ

def FileObject.left (f : FileObject) : Bytes := f.file.bytes.drop f.pos

def FileObject.read (f : FileObject) (size : ℕ) : Bytes × FileObject :=
  (f.left.take size, { f with pos := f.pos + (f.left.take size).length })

def FileObject.peek (f : FileObject) : Bytes := f.left.take (f.file.buffered f.pos)

inductive Linesep
  | lf
  | crlf
  deriving DecidableEq

def Linesep.text : Linesep → Text
  | .lf => ['\n']
  | .crlf => ['\r', '\n']

/-- Where the release is built. -/
structure Os where
  linesep : Linesep
  files : Text → Option File
  /-- `find_path(path, topdir)` -/
  findPath : Text → Text → Option Text

/-- `open(filename, 'rb')` -/
def Os.open (os : Os) (filename : Text) : Except ReleaseError FileObject :=
  match os.files filename with
  | some file => pure { file, pos := 0 }
  | none => throw .ioError

/-! ### `_FileWithLicense` -/

structure FileWithLicense where
  f : FileObject
  readLicense : Bool
  /-- What is left of `_license_io`. -/
  licenseIo : Bytes

def FileWithLicense.init (f : FileObject) (lic : Bytes) (oldXmlPrologueLen oldLicenseLen : ℕ) :
    FileWithLicense :=
  let f := if oldXmlPrologueLen ≠ 0 then (f.read oldXmlPrologueLen).2 else f
  let f := if oldLicenseLen ≠ 0 then (f.read oldLicenseLen).2 else f
  { f, readLicense := ¬ 0 < lic.length, licenseIo := lic }

def FileWithLicense.read (self : FileWithLicense) (size : ℕ) :
    Except ReleaseError (Bytes × FileWithLicense) :=
  if ¬ 0 < size then throw .assertionError
  else if self.readLicense then
    let (data, f) := self.f.read size
    pure (data, { self with f })
  else
    let data := self.licenseIo.take size
    let licenseIo := self.licenseIo.drop size
    if data.length < size then
      let (more, f) := self.f.read (size - data.length)
      pure (data ++ more, { f, readLicense := true, licenseIo })
    else pure (data, { self with licenseIo })

/-- Successive reads of these sizes. -/
def FileWithLicense.readAll : List ℕ → FileWithLicense → Except ReleaseError (List Bytes)
  | [], _ => pure []
  | size :: sizes, self => do
    let (data, self) ← self.read size
    let rest ← readAll sizes self
    pure (data :: rest)

/-! ### `_LicenseOpener` -/

structure LicenseOpener where
  license : Text
  docLicense : Text
  topDir : Text
  allowUnknownFiletypes : Bool
  filename : Option Text

def agplTag : Text := "@TAG(NICTA_AGPL)".toList

def agplDocTag : Text := "@TAG(NICTA_DOC_AGPL)".toList

def buildArtifactFiletypes : List Text := [".pyc".toList]

def licenseExemptedFiletypes : List Text :=
  [".pdf".toList, ".svg".toList, ".png".toList, ".txt".toList, ".gdbout".toList]

def xmlPrologue : Text := "<?xml version=\"1.0\" encoding=\"UTF-8\" ?>".toList

/-- `_consume_xml_prologue`: the length of the prologue, and the file behind it. -/
def consumeXmlPrologue (os : Os) (name : Text) (f : FileObject) :
    Except ReleaseError (ℕ × FileObject) :=
  let (fileHeader, f) := f.read xmlPrologue.length
  if fileHeader ≠ encode xmlPrologue then
    throw (.exception ("XML File: '".toList ++ name ++ "' does not contain expected prologue: ".toList ++
      bytesRepr fileHeader ++ " expected ".toList ++ bytesRepr (encode xmlPrologue)))
  else if [10] <+: f.peek then pure (xmlPrologue.length + 1, (f.read 1).2)
  else
    let (lineSep, f) := f.read os.linesep.text.length
    if lineSep = encode os.linesep.text then pure (xmlPrologue.length + os.linesep.text.length, f)
    else
      throw (.exception ("XML File: '".toList ++ name ++
        "' prologue does not end with a valid line separator: ".toList ++ bytesRepr lineSep))

/-- `_agpl_sentinel`: `none` is `None`. -/
def agplSentinel (ext : Text) : Except ReleaseError (Option Text) :=
  if ext ∈ [".c".toList, ".h".toList, ".ld".toList, ".s".toList] then
    pure (some (agplTag ++ "\n */\n".toList))
  else if ext ∈ [".py".toList, ".gdb".toList, ".sh".toList] then
    pure (some (agplTag ++ "\n#\n".toList))
  else if ext ∈ [".prx".toList, ".xml".toList, ".prj".toList] then
    pure (some (agplTag ++ "\n  -->\n".toList))
  else if ext ∈ [".asm".toList] then pure (some (agplTag ++ "\n;\n".toList))
  else if ext ∈ [".md".toList, ".markdown".toList, ".html".toList] then
    pure (some (agplDocTag ++ "\n  -->\n".toList))
  else if ext ∈ [".css".toList] then pure (some (agplDocTag ++ "\n */\n".toList))
  else if ext ∈ licenseExemptedFiletypes ∨ ext ∈ buildArtifactFiletypes then pure none
  else throw (.unknownFiletype ("Unexpected ext: ".toList ++ ext))

def formatLic (os : Os) (lic start perline emptyline stop : Text) : Text :=
  start ++ os.linesep.text ++
    os.linesep.text.intercalate
      ((splitlines lic).map fun line => if line ≠ [] then perline ++ line else emptyline) ++
    os.linesep.text ++ stop ++ os.linesep.text

/-- The license that `_get_lic` chooses for an extension, and whether the files are XML. -/
def newLicense (o : LicenseOpener) (os : Os) (filename ext : Text) :
    Except ReleaseError (Option Text × Bool) :=
  if ext ∈ [".c".toList, ".h".toList, ".ld".toList, ".s".toList, ".css".toList] then
    pure (some (formatLic os o.license "/*".toList " * ".toList " *".toList " */".toList), false)
  else if ext ∈ [".py".toList, ".gdb".toList] then
    pure (some (formatLic os o.license "#".toList "# ".toList "#".toList "#".toList), false)
  else if ext ∈ [".prx".toList, ".xml".toList, ".prj".toList] then
    pure (some (formatLic os o.license "<!--".toList [] [] "  -->".toList), true)
  else if ext ∈ [".asm".toList] then
    pure (some (formatLic os o.license ";".toList "; ".toList ";".toList ";".toList), false)
  else if ext ∈ [".md".toList, ".markdown".toList] then
    pure (some (formatLic os o.docLicense "<!---".toList [] [] "  -->".toList), false)
  else if ext ∈ [".html".toList] then
    pure (some (formatLic os o.docLicense "<!--".toList [] [] "  -->".toList), false)
  else if ext ∉ licenseExemptedFiletypes ∧ ¬ o.allowUnknownFiletypes then
    throw (.exception ("Unexpected ext: ".toList ++ ext ++ ", for file ".toList ++ filename))
  else pure (none, false)

/-- The length of the old license, in the characters of what `peek` finds. -/
def oldLicenseLen (sentinel : Text) (f : FileObject) : Except ReleaseError ℕ :=
  match decode f.peek with
  | none => throw .unicodeDecodeError
  | some text =>
    match partition sentinel text with
    | (_, [], _) => pure 0
    | (oldLicStr, sentinelFound, _) => pure (oldLicStr ++ sentinelFound).length

/-- `_get_lic`: the new license, and the lengths of the prologue and of the old license. -/
def getLic (o : LicenseOpener) (os : Os) (filename : Text) : Except ReleaseError (Bytes × ℕ × ℕ) := do
  let ext := splitext filename
  let (lic, isXml) ← newLicense o os filename ext
  match lic with
  | none => pure ([], 0, 0)
  | some lic =>
    let f ← os.open filename
    let (oldXmlPrologueLen, f) ← if isXml then consumeXmlPrologue os filename f else pure (0, f)
    let lic := if isXml then xmlPrologue ++ os.linesep.text ++ lic else lic
    match ← agplSentinel ext with
    | none => throw .assertionError
    | some sentinel =>
      let oldLicenseLen ← oldLicenseLen sentinel f
      pure (encode lic, oldXmlPrologueLen, oldLicenseLen)

/-- `_LicenseOpener.open` -/
def LicenseOpener.open (o : LicenseOpener) (os : Os) (filename : Text) :
    Except ReleaseError FileWithLicense := do
  let f ← os.open filename
  let (lic, oldXmlPrologueLen, oldLicenseLen) ← getLic o os filename
  pure (FileWithLicense.init f lic oldXmlPrologueLen oldLicenseLen)

/-! ### `tar_info_filter` -/

structure TarInfo where
  name : Text
  isreg : Bool
  size : ℤ
  mode : ℕ
  uname : Text
  gname : Text
  mtime : ℕ
  uid : ℕ
  gid : ℕ

def isNonreleaseDocFile (filename : Text) : Bool :=
  "docs".toList <:+: filename ∧ ¬ "docs.pdf".toList <:+: filename

/-- 2013-01-01 -/
def baseTime : ℕ := 1356998400

/-- `_tar_info_filter`, without the execute permission. -/
def setTarInfo (tarinfo : TarInfo) : TarInfo :=
  { tarinfo with
    uname := "_default_user_".toList
    gname := "_default_group_".toList
    mtime := baseTime
    uid := 1000
    gid := 1000
    mode := if tarinfo.mode &&& 0o100 ≠ 0 then 0o700 else 0o600 }

/-- The file that an archive entry is made of. -/
def sourceOf (o : LicenseOpener) (os : Os) (name : Text) : Except ReleaseError Text :=
  match o.filename with
  | some filename => pure filename
  | none =>
    if ¬ "share/packages".toList <+: name then throw .assertionError
    else
      match os.findPath (replaceFirst name "share/packages".toList "packages".toList) o.topDir with
      | some filename => pure filename
      | none => throw .ioError

/-- `none` excludes the file. -/
def tarInfoFilter (o : LicenseOpener) (os : Os) (tarinfo : TarInfo) :
    Except ReleaseError (Option TarInfo) :=
  if isNonreleaseDocFile tarinfo.name then pure none
  else if tarinfo.isreg then do
    let filename ← sourceOf o os tarinfo.name
    let (lic, oldXmlPrologueLen, oldLicenseLen) ← getLic o os filename
    pure (some (setTarInfo
      { tarinfo with size := tarinfo.size + lic.length - oldXmlPrologueLen - oldLicenseLen }))
  else pure (some (setTarInfo tarinfo))

end Echronos.Release
