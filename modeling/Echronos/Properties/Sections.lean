import Echronos.Build.Sections

/-! # Reading back sectioned files

    What is written section by section is read back as it was, each section under its name, whatever
    stands before the first one. -/

namespace Echronos.Build

open Schemes

/-! ### Lines -/

/-- A line as it stands in a section: it begins no section, and no white space is at its end. -/
structure IsContent (line : Text) : Prop where
  rstrip_eq : rstrip line = line
  newline_notMem : '\n' ∉ line
  return_notMem : '\r' ∉ line
  section_eq_none : section? line = none

theorem rstrip_concat {ch : Char} (h : isSpace ch = true) (text : Text) :
    rstrip (text ++ [ch]) = rstrip text :=
  List.rdropWhile_concat_pos _ _ _ h

theorem rstrip_concat_of_false {ch : Char} (h : isSpace ch = false) (text : Text) :
    rstrip (text ++ [ch]) = text ++ [ch] :=
  List.rdropWhile_concat_neg _ _ _ (by simp [h])

theorem lines_append_newline (back : Text) : ∀ {line : Text}, '\n' ∉ line → '\r' ∉ line →
    Schemes.lines (line ++ '\n' :: back) = (line ++ ['\n']) :: Schemes.lines back
  | [], _, _ => lines_newline back
  | ch :: line, hn, hr => by
    rw [List.mem_cons, not_or] at hn hr
    rw [List.cons_append, Schemes.lines, if_neg (by rintro (h | h); exacts [hn.1 h.symm, hr.1 h.symm]),
      lines_append_newline back hn.2 hr.2]
    · rfl
    · exact fun _ hch _ => hr.1 hch.symm

theorem lines_flatMap : ∀ {ls : List Text}, (∀ line ∈ ls, '\n' ∉ line ∧ '\r' ∉ line) →
    Schemes.lines (ls.flatMap (· ++ ['\n'])) = ls.map (· ++ ['\n'])
  | [], _ => rfl
  | line :: ls, h => by
    obtain ⟨hline, hls⟩ := List.forall_mem_cons.mp h
    rw [List.flatMap_cons, List.append_assoc, List.singleton_append,
      lines_append_newline _ hline.1 hline.2, lines_flatMap hls]
    rfl

/-! ### What is written -/

/-- A section: a name without white space around it, and lines that begin no section. -/
structure Section where
  name : Text
  body : Text
  strip_name : strip isSpace name = name
  name_line : '\n' ∉ name ∧ '\r' ∉ name
  rstrip_body : rstrip body = body
  content : ∀ line ∈ body.splitOn '\n', IsContent line

/-- `/*| name |*/` -/
def Section.header (s : Section) : Text := opening ++ ' ' :: (s.name ++ ' ' :: closing)

/-- Sections with different names, behind lines that begin no section. -/
structure Sectioned where
  preamble : List Text
  sections : List Section
  plain : ∀ line ∈ preamble, IsContent line
  nodup : (sections.map Section.name).Nodup

/-- The lines of a file. -/
def Sectioned.lines (f : Sectioned) : List Text :=
  f.preamble ++ f.sections.flatMap fun s => s.header :: s.body.splitOn '\n'

/-- The text of a file. -/
def Sectioned.print (f : Sectioned) : Text := f.lines.flatMap (· ++ ['\n'])

theorem rstrip_header (s : Section) : rstrip s.header = s.header := by
  have hheader : s.header = (opening ++ ' ' :: (s.name ++ ' ' :: "|*".toList)) ++ ['/'] := by
    rw [Section.header, closing]
    simp
  rw [hheader, rstrip_concat_of_false (by decide)]

/-- White space at the front goes. -/
theorem strip_ne {ch : Char} (h : isSpace ch = true) (rest : Text) :
    strip isSpace (ch :: rest) ≠ ch :: rest := by
  have hlength : (strip isSpace (ch :: rest)).length ≤ rest.length := by
    rw [strip, List.dropWhile_cons_of_pos h]
    exact (List.rdropWhile_prefix _ _).length_le.trans (List.dropWhile_suffix _).length_le
  intro heq
  rw [heq, List.length_cons] at hlength
  omega

theorem strip_spaced {name : Text} (h : strip isSpace name = name) :
    strip isSpace (' ' :: (name ++ [' '])) = name := by
  rw [strip, List.dropWhile_cons_of_pos (by decide), ← rstrip]
  cases name with
  | nil => decide
  | cons ch rest =>
    have hch : ¬ isSpace ch = true := fun hspace => strip_ne hspace rest h
    rw [strip, List.dropWhile_cons_of_neg hch, ← rstrip] at h
    rw [List.cons_append, List.dropWhile_cons_of_neg hch, ← List.cons_append, rstrip_concat (by decide), h]

theorem section?_header (s : Section) : section? s.header = some s.name := by
  have hheader : s.header = opening ++ (' ' :: (s.name ++ [' '])) ++ closing := by
    rw [Section.header]
    simp
  have htake : s.header.take (s.header.length - 3) = opening ++ ' ' :: (s.name ++ [' ']) := by
    rw [hheader]
    exact List.take_left' (by simp [closing]; omega)
  have hdrop : (opening ++ ' ' :: (s.name ++ [' '])).drop 3 = ' ' :: (s.name ++ [' ']) := rfl
  rw [section?, if_pos, htake, hdrop, strip_spaced s.strip_name]
  exact ⟨List.prefix_append _ _, hheader ▸ List.suffix_append _ _⟩

theorem Sectioned.newline_notMem (f : Sectioned) : ∀ line ∈ f.lines, '\n' ∉ line ∧ '\r' ∉ line := by
  intro line hline
  rcases List.mem_append.mp hline with hline | hline
  · exact ⟨(f.plain line hline).newline_notMem, (f.plain line hline).return_notMem⟩
  · obtain ⟨s, -, hs⟩ := List.mem_flatMap.mp hline
    rcases List.mem_cons.mp hs with rfl | hs
    · have hname := s.name_line
      simp [Section.header, opening, closing, hname.1, hname.2]
    · exact ⟨(s.content line hs).newline_notMem, (s.content line hs).return_notMem⟩

theorem Sectioned.rstrip_lines (f : Sectioned) : ∀ line ∈ f.lines, rstrip line = line := by
  intro line hline
  rcases List.mem_append.mp hline with hline | hline
  · exact (f.plain line hline).rstrip_eq
  · obtain ⟨s, -, hs⟩ := List.mem_flatMap.mp hline
    rcases List.mem_cons.mp hs with rfl | hs
    · exact rstrip_header s
    · exact (s.content line hs).rstrip_eq

theorem Sectioned.map_rstrip_lines (f : Sectioned) : (Schemes.lines f.print).map rstrip = f.lines := by
  rw [Sectioned.print, lines_flatMap f.newline_notMem, List.map_map]
  calc f.lines.map (rstrip ∘ (· ++ ['\n'])) = f.lines.map id := by
        refine List.map_congr_left fun line hline => ?_
        rw [Function.comp, rstrip_concat (by decide), f.rstrip_lines line hline, id]
    _ = f.lines := List.map_id _

theorem readSections_print (f : Sectioned) :
    readSections f.print = f.sections.map fun s => (s.name, s.body.splitOn '\n') := by
  have hblocks : blocks section? (f.sections.flatMap fun s => s.header :: s.body.splitOn '\n') =
      ([], f.sections.map fun s => (s.name, s.body.splitOn '\n')) :=
    blocks_flatMap section?_header (fun s line hline => (s.content line hline).section_eq_none) f.sections
  rw [readSections_eq, f.map_rstrip_lines, Sectioned.lines,
    blocks_append _ fun line hline => (f.plain line hline).section_eq_none, hblocks]
  refine Assoc.ofPairs_of_nodup ?_
  rw [List.map_map]
  exact f.nodup

/-! ### Reading -/

variable {ε γ : Type} {renderData : Text → Text → γ → Except ε Text} {fn : Text} {config : γ}
  {requiredSections : List Text} {rendered : Section → Text}

theorem renderSection_splitOn {s : Section} {data : Text}
    (h : renderData s.body (fn ++ ": Section ".toList ++ s.name) config = .ok data) :
    renderSection renderData fn config (s.name, s.body.splitOn '\n') = .ok (s.name, data) := by
  rw [renderSection]
  dsimp only
  rw [unlines, List.intercalate_splitOn, s.rstrip_body, h]
  rfl

/-- A file that is written is read back: every section with its text rendered, in order, unless a
    required section is not there. -/
theorem parse_print (f : Sectioned)
    (hrender : ∀ s ∈ f.sections,
      renderData s.body (fn ++ ": Section ".toList ++ s.name) config = .ok (rendered s)) :
    parseSectionedFile renderData fn (some f.print) config requiredSections =
      match requiredSections.find? fun s => s ∉ f.sections.map Section.name with
      | some s => .error (.exception (missingSection fn s))
      | none => .ok (some (f.sections.map fun s => (s.name, rendered s))) := by
  have hsections : (readSections f.print).mapM (renderSection renderData fn config) =
      .ok (f.sections.map fun s => (s.name, rendered s)) := by
    rw [readSections_print, List.mapM_map]
    exact mapM_of_forall fun s hs => renderSection_splitOn (hrender s hs)
  have hnames : (f.sections.map fun s => (s.name, rendered s)).map Prod.fst = f.sections.map Section.name :=
    List.map_map
  rw [parseSectionedFile, hsections]
  dsimp only [bind, Except.bind]
  rw [hnames, forM_throw]
  cases requiredSections.find? fun s => s ∉ f.sections.map Section.name with
  | none => rfl
  | some s => rfl

/-- A section with one line in it. -/
def Section.ofLine (name line : Text) (hname : strip isSpace name = name ∧ '\n' ∉ name ∧ '\r' ∉ name)
    (hline : rstrip line = line ∧ '\n' ∉ line ∧ '\r' ∉ line ∧ section? line = none) : Section where
  name := name
  body := line
  strip_name := hname.1
  name_line := hname.2
  rstrip_body := hline.1
  content := by
    rw [List.splitOn_eq_singleton hline.2.1, List.forall_mem_singleton]
    exact ⟨hline.1, hline.2.1, hline.2.2.1, hline.2.2.2⟩

/-- The file that the documentation of `_parse_sectioned_file` has. -/
def fooBar : Sectioned where
  preamble := []
  sections := [.ofLine "foo".toList "foo data....".toList (by decide) (by decide),
    .ofLine "bar".toList "bar data....".toList (by decide) (by decide)]
  plain := by simp
  nodup := by decide

example : fooBar.print = "/*| foo |*/\nfoo data....\n/*| bar |*/\nbar data....\n".toList := by decide

theorem parse_print_fooBar :
    parseSectionedFile (fun data _ (_ : Unit) => (Except.ok data : Except Empty Text)) "header.h".toList
        (some fooBar.print) () ["bar".toList] =
      .ok (some [("foo".toList, "foo data....".toList), ("bar".toList, "bar data....".toList)]) :=
  parse_print fooBar fun s _ => show _ = Except.ok s.body from rfl

end Echronos.Build
