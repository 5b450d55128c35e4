import Echronos.Build.Typedefs
import Echronos.Schemes.Assoc
import Echronos.Schemes.Blocks

/-! # Sectioned files, as `pylib/components.py` reads them

    The files of a component have sections, each of them behind a line such as `/*| types |*/`. -/

namespace Echronos.Build

open Schemes

/-- `text.rstrip()` -/
def rstrip (text : Text) : Text := text.rdropWhile isSpace

/-- `'\n'.join(lines)` -/
def unlines (lines : List Text) : Text := ['\n'].intercalate lines

/-- `'/*|'` -/
def opening : Text := "/*|".toList

/-- `'|*/'` -/
def closing : Text := "|*/".toList

/-- The name of the section that a line begins. -/
def section? (line : Text) : Option Text :=
  if opening <+: line ∧ closing <:+ line then some (strip isSpace ((line.take (line.length - 3)).drop 3))
  else none

/-- `sections`, with the lines of each, and the key that `current_lines` stands under. -/
structure Reader where
  sections : List (Text × List Text)
  current : Option Text

/-- A turn of the loop over the lines. -/
def Reader.turn (r : Reader) (line : Text) : Reader :=
  match section? line with
  | some section' => ⟨Assoc.set section' [] r.sections, some section'⟩
  | none =>
    match r.current with
    | some key => ⟨Assoc.set key ((r.sections.lookup key).getD [] ++ [line]) r.sections, some key⟩
    | none => r

/-- The loop over the lines of a file. -/
def readSections (text : Text) : List (Text × List Text) :=
  (((Schemes.lines text).map rstrip).foldl Reader.turn ⟨[], none⟩).sections

/-- The exceptions of `_parse_sectioned_file`, of which some are those of the template engine. -/
inductive SectionError (ε : Type)
  | render (e : ε)
  | exception (msg : Text)

/-- What is said of a required section that is not there. -/
def missingSection (fn s : Text) : Text :=
  "Couldn't find expected section '".toList ++ s ++ "' in file: '".toList ++ fn ++ "'".toList

/-- A turn of the loop that renders the sections. -/
def renderSection {ε γ : Type} (renderData : Text → Text → γ → Except ε Text) (fn : Text) (config : γ)
    (section' : Text × List Text) : Except (SectionError ε) (Text × Text) := do
  let data ← (renderData (rstrip (unlines section'.2)) (fn ++ ": Section ".toList ++ section'.1)
    config).mapError .render
  pure (section'.1, data)

/-- `_parse_sectioned_file`, for a file that may not exist. -/
def parseSectionedFile {ε γ : Type} (renderData : Text → Text → γ → Except ε Text) (fn : Text)
    (file : Option Text) (config : γ) (requiredSections : List Text) :
    Except (SectionError ε) (Option (List (Text × Text))) :=
  match file with
  | none => pure none
  | some text => do
    let sections ← (readSections text).mapM (renderSection renderData fn config)
    requiredSections.forM fun s =>
      if s ∉ sections.map Prod.fst then throw (.exception (missingSection fn s)) else pure ()
    pure (some sections)

/-! ### The loop -/

variable {d : List (Text × List Text)} {key line name : Text} {body : List Text}

theorem turn_of_some (h : section? line = some name) (r : Reader) :
    r.turn line = ⟨Assoc.set name [] r.sections, some name⟩ := by
  rw [Reader.turn, h]

theorem turn_of_none (h : section? line = none) (hkey : d.lookup key = some body) :
    Reader.turn ⟨d, some key⟩ line = ⟨Assoc.set key (body ++ [line]) d, some key⟩ := by
  rw [Reader.turn, h]
  simp only [hkey, Option.getD_some]

theorem foldl_turn_some : ∀ (lines : List Text) {d : List (Text × List Text)} {key : Text}
    {body : List Text}, d.lookup key = some body →
    (lines.foldl Reader.turn ⟨d, some key⟩).sections =
      (blocks section? lines).2.foldl (fun d p => Assoc.set p.1 p.2 d)
        (Assoc.set key (body ++ (blocks section? lines).1) d)
  | [], d, key, body, h => by
    rw [blocks, List.append_nil, Assoc.set_of_lookup h]
    rfl
  | line :: lines, d, key, body, h => by
    rw [List.foldl_cons]
    cases hline : section? line with
    | some name =>
      rw [turn_of_some hline, blocks_cons_of_some hline,
        foldl_turn_some lines (by rw [Assoc.lookup_set, if_pos rfl]), Assoc.set_set, List.append_nil,
        Assoc.set_of_lookup h]
      rfl
    | none =>
      rw [turn_of_none hline h, blocks_cons_of_none hline,
        foldl_turn_some lines (by rw [Assoc.lookup_set, if_pos rfl]), Assoc.set_set, List.append_assoc]
      rfl

theorem foldl_turn_none : ∀ (lines : List Text) (d : List (Text × List Text)),
    (lines.foldl Reader.turn ⟨d, none⟩).sections =
      (blocks section? lines).2.foldl (fun d p => Assoc.set p.1 p.2 d) d
  | [], _ => rfl
  | line :: lines, d => by
    rw [List.foldl_cons]
    cases hline : section? line with
    | some name =>
      rw [turn_of_some hline, blocks_cons_of_some hline,
        foldl_turn_some lines (by rw [Assoc.lookup_set, if_pos rfl]), Assoc.set_set]
      rfl
    | none =>
      rw [blocks_cons_of_none hline, Reader.turn, hline]
      exact foldl_turn_none lines d

/-- What is before the first section is dropped, and of several sections with one name the last one
    stands in the place of the first. -/
theorem readSections_eq (text : Text) :
    readSections text = Assoc.ofPairs (blocks section? ((Schemes.lines text).map rstrip)).2 :=
  foldl_turn_none _ _

end Echronos.Build
