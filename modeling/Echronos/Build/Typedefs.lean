import Echronos.Schemes.Except
import Echronos.Schemes.Text
import Echronos.Schemes.Words
import Echronos.Schemes.Worklist

/-! # Sorting typedefs, as `pylib/components.py` does it

    The typedefs of all components of a system are collected and put in an order in which a type is
    defined before it is used. -/

namespace Echronos.Build

open Schemes

/-- `str.isspace`, on one character. -/
def isSpace (ch : Char) : Bool :=
  let n := ch.toNat
  (9 ≤ n ∧ n ≤ 13) ∨ (28 ≤ n ∧ n ≤ 32) ∨ n = 0x85 ∨ n = 0xa0 ∨ n = 0x1680 ∨
    (0x2000 ≤ n ∧ n ≤ 0x200a) ∨ n = 0x2028 ∨ n = 0x2029 ∨ n = 0x202f ∨ n = 0x205f ∨ n = 0x3000

/-- `str.split()` -/
def split (text : Text) : List Text := words isSpace text

/-- `' '.join(parts)` -/
def unwords (parts : List Text) : Text := [' '].intercalate parts

/-- The exceptions of `_sort_typedefs`. -/
inductive TypedefError
  | exception (msg : Text)
  | indexError
  deriving DecidableEq

/-- `(new_type, old_type)` -/
structure Typedef where
  new : Text
  old : Text
  deriving DecidableEq

/-- `'typedef'` -/
def keyword : Text := "typedef".toList

/-- The types of a line with these parts. -/
def Typedef.ofParts (parts : List Text) : Typedef where
  new := parts.getLastD []
  old := unwords parts.tail.dropLast

/-- `'typedef {} {};'.format(old, new)` -/
def Typedef.format (td : Typedef) : Text :=
  keyword ++ ' ' :: (td.old ++ ' ' :: td.new) ++ [';']

/-- A turn of the first loop, for a line that is not blank. -/
def parseLine (l : Text) : Except TypedefError Typedef :=
  if l.getLast? ≠ some ';' then
    throw (.exception ("Expect a typedef line to end with ';' (".toList ++ l ++ ")".toList))
  else
    match split l.dropLast with
    | [] => throw .indexError
    | first :: rest =>
      if first ≠ keyword then
        throw (.exception "Expect typedef line to startwith 'typedef'".toList)
      else pure (.ofParts (first :: rest))

/-- The lines that are not blank. -/
def lines (text : Text) : List Text := (text.splitOn '\n').filter fun l => !l.isEmpty

/-- The loops of `_sort_typedefs` over the typedefs. -/
def sortParsed (typedefs : List Typedef) : List Typedef :=
  let newTypes := typedefs.map Typedef.new
  let s := moveAll (fun td => td.old ∉ newTypes) typedefs []
  drain (fun td checked => td.old = checked.new) s.1 s.2 0

/-- `_sort_typedefs` -/
def sortTypedefs (typedefLines : Text) : Except TypedefError Text := do
  let typedefs ← (lines typedefLines).mapM parseLine
  pure (['\n'].intercalate ((sortParsed typedefs).map Typedef.format))

/-! ### Lines -/

/-- A line `typedef old new;`. -/
structure IsTypedefLine (l : Text) : Prop where
  semicolon : l.getLast? = some ';'
  parts : ∃ old new, split l.dropLast = keyword :: (old ++ [new])

/-- The typedef of a line. -/
def typedefOf (l : Text) : Typedef := .ofParts (split l.dropLast)

variable {l : Text}

theorem IsTypedefLine.parseLine (h : IsTypedefLine l) : parseLine l = .ok (typedefOf l) := by
  obtain ⟨old, new, hparts⟩ := h.parts
  rw [Build.parseLine, if_neg (not_not.mpr h.semicolon), typedefOf, hparts]
  rfl

theorem ofParts_eq (old : List Text) (new : Text) :
    Typedef.ofParts (keyword :: (old ++ [new])) = ⟨new, unwords old⟩ := by
  rw [Typedef.ofParts, List.tail_cons, List.dropLast_concat, ← List.cons_append,
    List.getLastD_concat]

/-- The line that is printed for a typedef. -/
structure Prints (l : Text) : Prop where
  semicolon : (typedefOf l).format.getLast? = some ';'
  words : split (typedefOf l).format.dropLast = split l.dropLast
  oneLine : '\n' ∉ (typedefOf l).format

theorem IsTypedefLine.prints (h : IsTypedefLine l) : Prints l := by
  obtain ⟨old, new, hparts⟩ := h.parts
  have hword : ∀ w ∈ keyword :: (old ++ [new]), w ≠ [] ∧ ∀ ch ∈ w, isSpace ch = false :=
    fun w hw => mem_words (hparts ▸ hw)
  obtain ⟨⟨hkeywordNe, hkeyword⟩, hword⟩ := List.forall_mem_cons.mp hword
  obtain ⟨hold, hnew⟩ := List.forall_mem_append.mp hword
  obtain ⟨hnewNe, hnew⟩ := hnew new (List.mem_singleton_self new)
  have hspace : isSpace ' ' = true := by decide
  have hnewline : isSpace '\n' = true := by decide
  have hformat : (typedefOf l).format = keyword ++ ' ' :: (unwords old ++ ' ' :: new) ++ [';'] := by
    rw [typedefOf, hparts, ofParts_eq, Typedef.format]
  refine ⟨?_, ?_, ?_⟩
  · rw [hformat, List.getLast?_concat]
  · rw [hformat, List.dropLast_concat, hparts, split, words_append_cons hspace,
      words_append_cons hspace, words_of_forall hkeyword hkeywordNe, unwords,
      words_intercalate hspace hold, words_of_forall hnew hnewNe, List.singleton_append]
  · rw [hformat]
    simp only [List.mem_append, List.mem_cons, List.not_mem_nil, or_false, not_or]
    refine ⟨⟨fun h => ?_, by decide, fun h => ?_, by decide, fun h => ?_⟩, by decide⟩
    · cases hnewline.symm.trans (hkeyword _ h)
    · rcases mem_intercalate h with h | ⟨w, hw, h⟩
      · cases h
      · cases hnewline.symm.trans ((hold w hw).2 _ h)
    · cases hnewline.symm.trans (hnew _ h)

theorem Prints.typedefOf_format (h : Prints l) : typedefOf (typedefOf l).format = typedefOf l := by
  rw [typedefOf, h.words, typedefOf]

theorem lines_intercalate {ls : List Text} (h : ∀ l ∈ ls, l ≠ [] ∧ '\n' ∉ l) :
    lines (['\n'].intercalate ls) = ls := by
  cases ls with
  | nil => rfl
  | cons l rest =>
    rw [lines, List.splitOn_intercalate '\n' (fun l hl => (h l hl).2) (List.cons_ne_nil l rest)]
    exact List.filter_eq_self.mpr fun l hl => by simpa using (h l hl).1

/-! ### Typedefs -/

/-- A typedef defines its type in terms of the type that another one defines. -/
def refersTo (td td' : Typedef) : Bool := td.old = td'.new

/-- The loops put the typedefs in order. -/
theorem sortParsed_correct {typedefs : List Typedef} (hnames : (typedefs.map Typedef.new).Nodup)
    (hcircle : NoCircle refersTo typedefs) :
    (sortParsed typedefs).Perm typedefs ∧ PutAfter refersTo typedefs (sortParsed typedefs) := by
  refine drain_roots hcircle (fun td _ a ha b hb hrefersA hrefersB => ?_) fun td _ => ?_
  · have hnew : a.new = b.new := (of_decide_eq_true hrefersA).symm.trans (of_decide_eq_true hrefersB)
    exact List.inj_on_of_nodup_map hnames ha hb hnew
  · simp only [refersTo, List.mem_map, decide_eq_true_eq, decide_eq_false_iff_not, not_exists, not_and]
    exact forall₂_congr fun td' _ => not_congr eq_comm

/-- The lines are put out in another order: their words are the same, and every typedef comes after the
    one that defines its old type. -/
theorem sortTypedefs_correct (text : Text) (hlines : ∀ l ∈ lines text, IsTypedefLine l)
    (hnames : (((lines text).map typedefOf).map Typedef.new).Nodup)
    (hcircle : NoCircle refersTo ((lines text).map typedefOf)) :
    ∃ sorted, sortTypedefs text = .ok sorted ∧
      ((lines sorted).map fun l => split l.dropLast).Perm
        ((lines text).map fun l => split l.dropLast) ∧
      PutAfter refersTo ((lines sorted).map typedefOf) ((lines sorted).map typedefOf) := by
  have hparse : (lines text).mapM parseLine = .ok ((lines text).map typedefOf) :=
    mapM_of_forall fun l hl => (hlines l hl).parseLine
  have hprints : ∀ td ∈ (lines text).map typedefOf, ∃ l, typedefOf l = td ∧ Prints l := by
    intro td htd
    obtain ⟨l, hl, rfl⟩ := List.mem_map.mp htd
    exact ⟨l, rfl, (hlines l hl).prints⟩
  have hwords : ((lines text).map typedefOf).map (fun td => split td.format.dropLast) =
      (lines text).map fun l => split l.dropLast := by
    rw [List.map_map]
    exact List.map_congr_left fun l hl => (hlines l hl).prints.words
  generalize (lines text).map typedefOf = typedefs at *
  obtain ⟨hperm, hafter⟩ := sortParsed_correct hnames hcircle
  have hlines' : lines (['\n'].intercalate ((sortParsed typedefs).map Typedef.format)) =
      (sortParsed typedefs).map Typedef.format := by
    refine lines_intercalate fun line hline => ?_
    obtain ⟨td, htd, rfl⟩ := List.mem_map.mp hline
    obtain ⟨l, rfl, hl⟩ := hprints td (hperm.subset htd)
    refine ⟨fun hnil => ?_, hl.oneLine⟩
    have hlast := hl.semicolon
    rw [hnil] at hlast
    cases hlast
  have htypedefs : (sortParsed typedefs).map (typedefOf ∘ Typedef.format) = sortParsed typedefs := by
    refine (List.map_congr_left fun td htd => ?_).trans (List.map_id _)
    obtain ⟨l, rfl, hl⟩ := hprints td (hperm.subset htd)
    exact hl.typedefOf_format
  refine ⟨_, by rw [sortTypedefs, hparse]; rfl, ?_, ?_⟩
  · rw [hlines', ← hwords, List.map_map]
    exact hperm.map _
  · rw [hlines', List.map_map, htypedefs]
    intro before td after heq td' htd' hrefers
    exact hafter before td after heq td' (hperm.subset htd') hrefers

/-- `b_t` is defined in terms of `a_t`. -/
def twoLines : Text := "typedef a_t  b_t;\n\ntypedef uint8_t a_t ;".toList

theorem lines_twoLines :
    lines twoLines = ["typedef a_t  b_t;".toList, "typedef uint8_t a_t ;".toList] := by
  decide +kernel

theorem typedefs_twoLines : (lines twoLines).map typedefOf =
    [⟨"b_t".toList, "a_t".toList⟩, ⟨"a_t".toList, "uint8_t".toList⟩] := by
  decide +kernel

theorem sortTypedefs_correct_twoLines :
    ∃ sorted, sortTypedefs twoLines = .ok sorted ∧
      PutAfter refersTo ((lines sorted).map typedefOf) ((lines sorted).map typedefOf) := by
  have hlines : ∀ l ∈ lines twoLines, IsTypedefLine l := by
    rw [lines_twoLines]
    refine List.forall_mem_cons.mpr ⟨⟨by decide +kernel, ["a_t".toList], "b_t".toList, by decide +kernel⟩,
      List.forall_mem_cons.mpr ⟨⟨by decide +kernel, ["uint8_t".toList], "a_t".toList,
        by decide +kernel⟩, nofun⟩⟩
  have hcircle : NoCircle refersTo ((lines twoLines).map typedefOf) := by
    have hstep : ∀ td ∈ (lines twoLines).map typedefOf, ∀ td' ∈ (lines twoLines).map typedefOf,
        refersTo td td' = true → td.new = "b_t".toList ∧ td'.new = "a_t".toList := by
      rw [typedefs_twoLines]
      decide +kernel
    intro td htd
    have hends : ∀ {a b : Typedef}, Relation.TransGen (fun a b => a ∈ (lines twoLines).map typedefOf ∧
        b ∈ (lines twoLines).map typedefOf ∧ refersTo a b = true) a b →
        a.new = "b_t".toList ∧ b.new = "a_t".toList := by
      intro a b h
      induction h with
      | single h => exact hstep _ h.1 _ h.2.1 h.2.2
      | tail _ h ih => exact ⟨ih.1, (hstep _ h.1 _ h.2.1 h.2.2).2⟩
    obtain ⟨hfirst, hlast⟩ := hends htd
    exact absurd (hfirst.symm.trans hlast) (by decide +kernel)
  obtain ⟨sorted, hsorted, -, hafter⟩ :=
    sortTypedefs_correct twoLines hlines (by rw [typedefs_twoLines]; decide +kernel) hcircle
  exact ⟨sorted, hsorted, hafter⟩

end Echronos.Build
