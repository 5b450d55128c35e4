import Echronos.Release.License
import Mathlib.Tactic.FinCases

/-! # What a re-licensed file reads as

    The new license and then what follows the old one. `_get_lic` measures the old license in
    characters and `_FileWithLicense` skips bytes, so this needs a header of ASCII characters. -/

namespace Echronos.Release

open Schemes

/-! ### Reading -/

/-- What is left to read of a file. -/
def FileWithLicense.stream (self : FileWithLicense) : Bytes :=
  (if self.readLicense then [] else self.licenseIo) ++ self.f.left

theorem FileObject.left_read (f : FileObject) (size : ℕ) : (f.read size).2.left = f.left.drop size := by
  have hlength : (f.left.take size).length = min size f.left.length := List.length_take
  rw [FileObject.read, FileObject.left, hlength, ← List.drop_drop]
  change f.left.drop (min size f.left.length) = f.left.drop size
  by_cases hle : size ≤ f.left.length
  · rw [min_eq_left hle]
  · rw [min_eq_right (Nat.le_of_not_le hle), List.drop_length, List.drop_of_length_le (Nat.le_of_not_le hle)]

theorem FileObject.read_append {f : FileObject} {front back : Bytes} {size : ℕ}
    (h : f.left = front ++ back) (hsize : front.length = size) :
    f.read size = (front, ⟨f.file, f.pos + size⟩) := by
  subst hsize
  rw [FileObject.read, h, List.take_left]

/-- A read takes the front of the stream. -/
theorem FileWithLicense.read_eq (self : FileWithLicense) {size : ℕ} (hsize : 0 < size) :
    ∃ self', self.read size = .ok (self.stream.take size, self') ∧
      self'.stream = self.stream.drop size := by
  rw [FileWithLicense.read, if_neg (not_not.mpr hsize)]
  cases hread : self.readLicense with
  | true =>
    have hstream : self.stream = self.f.left := by
      rw [stream, hread]
      rfl
    rw [if_pos rfl, hstream]
    refine ⟨_, rfl, ?_⟩
    exact self.f.left_read size
  | false =>
    have hstream : self.stream = self.licenseIo ++ self.f.left := by
      rw [stream, hread]
      rfl
    rw [if_neg Bool.false_ne_true]
    dsimp only
    rw [List.length_take]
    by_cases hend : min size self.licenseIo.length < size
    · have hlength : self.licenseIo.length ≤ size := by omega
      rw [if_pos hend, min_eq_right hlength, List.take_of_length_le hlength]
      refine ⟨_, congrArg Except.ok (Prod.ext ?_ rfl), ?_⟩
      · rw [hstream, List.take_append, List.take_of_length_le hlength]
        rfl
      · rw [hstream, List.drop_append, List.drop_of_length_le hlength]
        exact self.f.left_read _
    · have hlength : size ≤ self.licenseIo.length := by omega
      rw [if_neg hend]
      refine ⟨_, congrArg Except.ok (Prod.ext ?_ rfl), ?_⟩
      · rw [hstream, List.take_append_of_le_length hlength]
      · rw [hstream, List.drop_append_of_le_length hlength]
        rfl

/-- A stream in consecutive pieces of at most these sizes. -/
def chunks : List ℕ → Bytes → List Bytes
  | [], _ => []
  | size :: sizes, stream => stream.take size :: chunks sizes (stream.drop size)

theorem FileWithLicense.readAll_eq : ∀ {sizes : List ℕ} (self : FileWithLicense),
    (∀ size ∈ sizes, 0 < size) → self.readAll sizes = .ok (chunks sizes self.stream)
  | [], _, _ => rfl
  | size :: sizes, self, hpos => by
    obtain ⟨hsize, hpos⟩ := List.forall_mem_cons.mp hpos
    obtain ⟨self', hread, hstream⟩ := self.read_eq hsize
    rw [readAll, hread, chunks, ← hstream]
    change (self'.readAll sizes >>= _) = _
    rw [readAll_eq self' hpos]
    rfl

theorem FileWithLicense.stream_init (f : FileObject) (lic : Bytes) (oldXmlPrologueLen oldLicenseLen : ℕ) :
    (FileWithLicense.init f lic oldXmlPrologueLen oldLicenseLen).stream =
      lic ++ f.left.drop (oldXmlPrologueLen + oldLicenseLen) := by
  have hskip : ∀ (f : FileObject) n, (if n ≠ 0 then (f.read n).2 else f).left = f.left.drop n := by
    intro f n
    by_cases hn : n = 0
    · rw [if_neg (not_not.mpr hn), hn, List.drop_zero]
    · rw [if_pos hn, f.left_read]
  rw [← List.drop_drop, ← hskip, ← hskip]
  cases lic with
  | nil => rfl
  | cons b lic => rfl

/-! ### A file of a licensed type -/

/-- A file whose header is within what `peek` finds. -/
structure SourceFile (o : LicenseOpener) (os : Os) (filename : Text) where
  file : File
  opens : os.files filename = some file
  lic : Text
  isXml : Bool
  licensed : newLicense o os filename (splitext filename) = .ok (some lic, isXml)
  sentinel : Text
  tagged : agplSentinel (splitext filename) = .ok (some sentinel)
  newline : Text
  newline_eq : newline = ['\n'] ∨ newline = os.linesep.text
  header : Text
  first : FirstAt sentinel header
  rest : Bytes
  bytes_eq : file.bytes = encode (if isXml then xmlPrologue ++ newline else []) ++
    (encode (header ++ sentinel) ++ rest)
  within : (encode (header ++ sentinel)).length ≤
    file.buffered (encode (if isXml then xmlPrologue ++ newline else [])).length

/-- The sentinels are ASCII. -/
theorem agplSentinel_some {ext sentinel : Text} (h : agplSentinel ext = .ok (some sentinel)) :
    ASCII sentinel ∧ sentinel ≠ [] := by
  unfold agplSentinel at h
  split_ifs at h
  all_goals
    cases h
  all_goals decide

namespace SourceFile

variable {o : LicenseOpener} {os : Os} {filename : Text} (s : SourceFile o os filename)

def prologue : Text := if s.isXml then xmlPrologue ++ s.newline else []

/-- What the new file starts with. -/
def front : Text := if s.isXml then xmlPrologue ++ os.linesep.text ++ s.lic else s.lic

/-- What the file is to read as. -/
def relicensed : Bytes := encode s.front ++ s.rest

/-- What `peek` finds after the prologue. -/
def peeked : Bytes :=
  (encode (s.header ++ s.sentinel) ++ s.rest).take (s.file.buffered (encode s.prologue).length)

theorem bytes_eq' : s.file.bytes =
    encode s.prologue ++ (encode (s.header ++ s.sentinel) ++ s.rest) := s.bytes_eq

theorem open_file : os.open filename = .ok ⟨s.file, 0⟩ := by
  rw [Os.open, s.opens]
  rfl

theorem peek_eq : FileObject.peek ⟨s.file, (encode s.prologue).length⟩ = s.peeked := by
  rw [FileObject.peek, FileObject.left, s.bytes_eq', List.drop_left]
  rfl

/-- `_consume_xml_prologue` comes to the end of the prologue. -/
theorem consumeXmlPrologue_eq (h : s.isXml = true) :
    consumeXmlPrologue os filename ⟨s.file, 0⟩ =
      .ok ((encode s.prologue).length, ⟨s.file, (encode s.prologue).length⟩) := by
  have hlength : (encode xmlPrologue).length = xmlPrologue.length := length_encode_eq.mpr (by decide)
  have hprologue : s.prologue = xmlPrologue ++ s.newline := if_pos h
  have hleft : (⟨s.file, 0⟩ : FileObject).left =
      encode xmlPrologue ++ (encode s.newline ++ (encode (s.header ++ s.sentinel) ++ s.rest)) := by
    rw [FileObject.left, List.drop_zero, s.bytes_eq', hprologue, encode_append, List.append_assoc]
  have hread := FileObject.read_append hleft hlength
  have hleft' := FileObject.left_read ⟨s.file, 0⟩ xmlPrologue.length
  rw [hread, hleft, ← hlength, List.drop_left, hlength] at hleft'
  rw [consumeXmlPrologue, hread, hprologue, encode_append, List.length_append, hlength]
  dsimp only at hleft' ⊢
  rw [if_neg (not_not.mpr rfl), FileObject.peek, hleft']
  have hlf : s.newline = ['\n'] →
      ([10] : Bytes) <+: (encode s.newline ++ (encode (s.header ++ s.sentinel) ++ s.rest)).take
        (s.file.buffered (0 + xmlPrologue.length)) := by
    intro hnewline
    have hpos := s.file.buffered_pos (0 + xmlPrologue.length)
    obtain ⟨k, hk⟩ := Nat.exists_eq_succ_of_ne_zero hpos.ne'
    rw [hnewline, hk]
    exact ⟨_, rfl⟩
  by_cases hnewline : s.newline = ['\n']
  · have hlength : (encode s.newline).length = 1 := by rw [hnewline]; rfl
    have hone := FileObject.read_append hleft' hlength
    rw [if_pos (hlf hnewline), hone, hnewline]
    dsimp only
    rw [Nat.zero_add]
    rfl
  · have hsep : s.newline = os.linesep.text := s.newline_eq.resolve_left hnewline
    have hcrlf : os.linesep = .crlf := by
      cases hos : os.linesep with
      | lf => exact absurd (hsep.trans (by rw [hos]; rfl)) hnewline
      | crlf => rfl
    have hlength : (encode s.newline).length = 2 := by rw [hsep, hcrlf]; rfl
    have htwo := FileObject.read_append hleft' hlength
    have hnolf : ¬ ([10] : Bytes) <+: (encode s.newline ++
        (encode (s.header ++ s.sentinel) ++ s.rest)).take (s.file.buffered (0 + xmlPrologue.length)) := by
      rw [hsep, hcrlf]
      rintro ⟨tail, htail⟩
      have hpos := s.file.buffered_pos (0 + xmlPrologue.length)
      obtain ⟨k, hk⟩ := Nat.exists_eq_succ_of_ne_zero hpos.ne'
      rw [hk] at htail
      cases htail
    have hlinesep : os.linesep.text.length = 2 := by rw [hcrlf]; rfl
    rw [if_neg hnolf, hlinesep, htwo]
    dsimp only
    rw [if_pos (by rw [hsep]), Nat.zero_add, hsep, hcrlf]
    rfl

/-- The sentinel ends what is in front of it: `partition` finds the header. -/
theorem oldLicenseLen_eq {f : FileObject} (hpeek : f.peek = s.peeked) {text : Text}
    (htext : decode s.peeked = some text) :
    oldLicenseLen s.sentinel f = .ok (s.header ++ s.sentinel).length := by
  have hfront : s.peeked = encode (s.header ++ s.sentinel) ++ s.rest.take
      (s.file.buffered (encode s.prologue).length - (encode (s.header ++ s.sentinel)).length) := by
    have hwithin : (encode (s.header ++ s.sentinel)).length ≤
        s.file.buffered (encode s.prologue).length := s.within
    rw [peeked, List.take_append, List.take_of_length_le hwithin]
  obtain ⟨more, rfl, -⟩ := encode_eq_append ((decode_eq_some.mp htext).trans hfront)
  rw [oldLicenseLen, hpeek, htext]
  dsimp only
  rw [List.append_assoc, partition_of_firstAt more s.first]
  cases hsentinel : s.sentinel with
  | nil => exact absurd hsentinel (agplSentinel_some s.tagged).2
  | cons ch sentinel => rfl

/-- What `_get_lic` returns. -/
theorem getLic_eq : getLic o os filename =
    (oldLicenseLen s.sentinel ⟨s.file, (encode s.prologue).length⟩).map fun n =>
      (encode s.front, (encode s.prologue).length, n) := by
  rw [getLic, s.licensed]
  simp only [bind, Except.bind, s.open_file, s.tagged, front]
  cases hxml : s.isXml with
  | true =>
    simp only [if_true, s.consumeXmlPrologue_eq hxml]
    cases oldLicenseLen s.sentinel ⟨s.file, (encode s.prologue).length⟩ <;> rfl
  | false =>
    have hprologue : s.prologue = [] := by
      rw [prologue, hxml]
      rfl
    simp only [hprologue, Bool.false_eq_true, if_false, pure, Except.pure, encode_nil, List.length_nil]
    cases oldLicenseLen s.sentinel ⟨s.file, 0⟩ <;> rfl

/-- A buffer that does not decode is an exception. -/
theorem open_of_decode_none (h : decode s.peeked = none) :
    o.open os filename = .error .unicodeDecodeError := by
  rw [LicenseOpener.open, s.open_file, s.getLic_eq, oldLicenseLen, s.peek_eq, h]
  rfl

/-- Otherwise the stream of the open file goes on behind the prologue, after as many bytes as the
    header and the sentinel have characters. -/
theorem open_of_decode {text : Text} (htext : decode s.peeked = some text) :
    ∃ self, o.open os filename = .ok self ∧ self.stream = encode s.front ++
      (encode (s.header ++ s.sentinel) ++ s.rest).drop (s.header ++ s.sentinel).length := by
  refine ⟨FileWithLicense.init ⟨s.file, 0⟩ (encode s.front) (encode s.prologue).length
    (s.header ++ s.sentinel).length, ?_, ?_⟩
  · rw [LicenseOpener.open, s.open_file, s.getLic_eq, s.oldLicenseLen_eq s.peek_eq htext]
    rfl
  · rw [FileWithLicense.stream_init, FileObject.left, List.drop_zero, s.bytes_eq', ← List.drop_drop,
      List.drop_left]

/-- The characters are as many as the bytes if the header is ASCII. -/
theorem length_encode_eq_iff :
    (encode (s.header ++ s.sentinel)).length = (s.header ++ s.sentinel).length ↔ ASCII s.header := by
  rw [length_encode_eq]
  have hsentinel := (agplSentinel_some s.tagged).1
  constructor
  · exact fun h ch hch => h ch (List.mem_append_left _ hch)
  · exact fun h ch hch => (List.mem_append.mp hch).elim (h ch) (hsentinel ch)

end SourceFile

/-- An archive entry for the file, as `tarfile` makes it. -/
structure EntryOf (o : LicenseOpener) (os : Os) (filename : Text) (bytes : Bytes) (tarinfo : TarInfo) :
    Prop where
  isreg : tarinfo.isreg = true
  size : tarinfo.size = bytes.length
  source : sourceOf o os tarinfo.name = .ok filename
  release : isNonreleaseDocFile tarinfo.name = false

/-- The file reads as this stream, in pieces of any sizes, and the archive entry has its length. -/
structure ReadsAs (o : LicenseOpener) (os : Os) (filename : Text) (tarinfo : TarInfo) (stream : Bytes) :
    Prop where
  reads : ∀ sizes : List ℕ, (∀ size ∈ sizes, 0 < size) →
    (o.open os filename >>= FileWithLicense.readAll sizes) = .ok (chunks sizes stream)
  size : ∃ tarinfo', tarInfoFilter o os tarinfo = .ok (some tarinfo') ∧ tarinfo'.size = stream.length

variable {o : LicenseOpener} {os : Os} {filename : Text} {tarinfo : TarInfo}

/-- A stream is what it reads as in one piece. -/
theorem chunks_inj {a b : Bytes} (h : ∀ size, 0 < size → chunks [size] a = chunks [size] b) : a = b := by
  have hall := h (a.length + b.length + 1) (Nat.succ_pos _)
  simp only [chunks] at hall
  rw [List.take_of_length_le (by omega), List.take_of_length_le (by omega)] at hall
  exact (List.cons.inj hall).1

/-- `tar_info_filter` adds the length of the new license and takes off what is skipped. -/
theorem tarInfoFilter_size (s : SourceFile o os filename)
    (hentry : EntryOf o os filename s.file.bytes tarinfo) (hascii : ASCII s.header)
    {text : Text} (htext : decode s.peeked = some text) :
    ∃ tarinfo', tarInfoFilter o os tarinfo = .ok (some tarinfo') ∧
      tarinfo'.size = s.relicensed.length := by
  have hlength := s.length_encode_eq_iff.mpr hascii
  rw [tarInfoFilter, hentry.release, if_neg Bool.false_ne_true, if_pos hentry.isreg, hentry.source]
  simp only [bind, Except.bind]
  rw [s.getLic_eq, s.oldLicenseLen_eq s.peek_eq htext]
  refine ⟨_, rfl, ?_⟩
  simp only [setTarInfo, hentry.size, s.bytes_eq', SourceFile.relicensed, List.length_append] at hlength ⊢
  omega

/-- A re-licensed file reads as it should just if its header is ASCII and `peek` finds UTF-8. -/
theorem readsAs_relicensed (s : SourceFile o os filename)
    (hentry : EntryOf o os filename s.file.bytes tarinfo) :
    ReadsAs o os filename tarinfo s.relicensed ↔ ASCII s.header ∧ (decode s.peeked).isSome := by
  cases htext : decode s.peeked with
  | none =>
    refine ⟨fun h => ?_, nofun⟩
    have hnone := h.reads [] nofun
    rw [s.open_of_decode_none htext] at hnone
    cases hnone
  | some text =>
    obtain ⟨self, hopen, hstream⟩ := s.open_of_decode htext
    have hreads : ∀ sizes : List ℕ, (∀ size ∈ sizes, 0 < size) →
        (o.open os filename >>= FileWithLicense.readAll sizes) = .ok (chunks sizes self.stream) := by
      intro sizes hsizes
      rw [hopen, ← self.readAll_eq hsizes]
      rfl
    constructor
    · intro h
      have hequal : self.stream = s.relicensed := by
        refine chunks_inj fun size hsize => ?_
        have hone : ∀ n ∈ [size], 0 < n := fun n hn => (List.mem_singleton.mp hn).symm ▸ hsize
        exact Except.ok.inj ((hreads [size] hone).symm.trans (h.reads [size] hone))
      have hlength := congrArg List.length hequal
      have hle := length_le_length_encode (s.header ++ s.sentinel)
      have hequal : (encode (s.header ++ s.sentinel)).length = (s.header ++ s.sentinel).length := by
        rw [hstream, SourceFile.relicensed] at hlength
        simp only [List.length_append, List.length_drop] at hlength hle ⊢
        omega
      exact ⟨s.length_encode_eq_iff.mp hequal, rfl⟩
    · rintro ⟨hascii, -⟩
      have hequal : self.stream = s.relicensed := by
        rw [hstream, ← s.length_encode_eq_iff.mpr hascii, List.drop_left]
        rfl
      exact ⟨hequal ▸ hreads, tarInfoFilter_size s hentry hascii htext⟩

/-- A C file with this header before the tag of its license. -/
def cFile (header : Text) : File where
  bytes := encode (header ++ (agplTag ++ "\n */\n".toList)) ++ encode "int x;\n".toList
  buffered _ := 128
  buffered_pos _ := by decide

def cOpener : LicenseOpener where
  license := "new".toList
  docLicense := "new".toList
  topDir := "/".toList
  allowUnknownFiletypes := false
  filename := some "a.c".toList

def cOs (header : Text) : Os where
  linesep := .lf
  files filename := if filename = "a.c".toList then some (cFile header) else none
  findPath _ _ := none

def cSource (header : Text) (first : FirstAt (agplTag ++ "\n */\n".toList) header)
    (within : (encode (header ++ (agplTag ++ "\n */\n".toList))).length ≤ 128) :
    SourceFile cOpener (cOs header) "a.c".toList where
  file := cFile header
  opens := rfl
  lic := formatLic (cOs header) "new".toList "/*".toList " * ".toList " *".toList " */".toList
  isXml := false
  licensed := rfl
  sentinel := agplTag ++ "\n */\n".toList
  tagged := rfl
  newline := ['\n']
  newline_eq := .inl rfl
  header := header
  first := first
  rest := encode "int x;\n".toList
  bytes_eq := rfl
  within := within

def cTarInfo (header : Text) : TarInfo where
  name := "share/packages/a.c".toList
  isreg := true
  size := (cFile header).bytes.length
  mode := 0o644
  uname := []
  gname := []
  mtime := 0
  uid := 0
  gid := 0

theorem readsAs_relicensed_ascii : ReadsAs cOpener (cOs "/*\n * old\n * ".toList) "a.c".toList
    (cTarInfo "/*\n * old\n * ".toList) (encode "/*\n * new\n */\nint x;\n".toList) :=
  (readsAs_relicensed (cSource "/*\n * old\n * ".toList (by decide +kernel) (by decide +kernel))
    ⟨rfl, rfl, rfl, by decide +kernel⟩).mpr ⟨by decide +kernel, by decide +kernel⟩

/-- With one letter in the header that takes two bytes, the last byte of the old license is left. -/
theorem not_readsAs_relicensed : ¬ ∀ (o : LicenseOpener) (os : Os) (filename : Text) (tarinfo : TarInfo)
    (s : SourceFile o os filename), EntryOf o os filename s.file.bytes tarinfo →
      ReadsAs o os filename tarinfo s.relicensed := by
  intro h
  have hreads := h _ _ _ (cTarInfo "/*\n * é\n * ".toList)
    (cSource "/*\n * é\n * ".toList (by decide +kernel) (by decide +kernel))
    ⟨rfl, rfl, rfl, by decide +kernel⟩
  have hall := congrArg (fun r => r.toOption.map (List.map List.length)) (hreads.reads [100] (by decide))
  exact absurd hall (by decide +kernel)

end Echronos.Release
