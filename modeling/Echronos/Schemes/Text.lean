import Mathlib.Data.List.DropRight
import Mathlib.Data.List.Infix

/-! # Text and its encoding

    UTF-8 as a function on lists, white space at the ends of a text, its lines, and cutting a
    text at a separator. -/

namespace Schemes

/-- A string, as the list of its characters. -/
abbrev Text := List Char

instance lawfulBEq_text : LawfulBEq (List Char) := inferInstance

/-! ### UTF-8 -/

def encode (cs : List Char) : List UInt8 := cs.flatMap String.utf8EncodeChar

def decode (bytes : List UInt8) : Option (List Char) := bytes.toByteArray.utf8Decode?.map Array.toList

variable {cs ds : List Char} {bytes rest : List UInt8}

@[simp] theorem encode_nil : encode [] = [] := rfl

@[simp] theorem encode_cons (c : Char) (cs : List Char) :
    encode (c :: cs) = String.utf8EncodeChar c ++ encode cs := rfl

@[simp] theorem encode_append : encode (cs ++ ds) = encode cs ++ encode ds := List.flatMap_append

theorem toByteArray_inj {a b : List UInt8} (h : a.toByteArray = b.toByteArray) : a = b := by
  have hdata := congrArg (fun x : ByteArray => x.data.toList) h
  simpa using hdata

theorem decode_eq_some : decode bytes = some cs ↔ encode cs = bytes := by
  constructor
  · intro h
    have hvalid : bytes.toByteArray.utf8Decode?.isSome := by
      rw [decode] at h
      cases hb : bytes.toByteArray.utf8Decode? with
      | none => rw [hb] at h; cases h
      | some _ => rfl
    obtain ⟨m, hm⟩ := ByteArray.isSome_utf8Decode?_iff.mp hvalid
    rw [decode, hm, List.utf8Decode?_utf8Encode] at h
    cases h
    exact (toByteArray_inj hm).symm
  · rintro rfl
    have henc : (encode cs).toByteArray = cs.utf8Encode := rfl
    rw [decode, henc, List.utf8Decode?_utf8Encode]
    rfl

/-- The first character of an encoding can be read off. -/
theorem utf8EncodeChar_append_inj {c d : Char} {x y : List UInt8}
    (h : String.utf8EncodeChar c ++ x = String.utf8EncodeChar d ++ y) : c = d ∧ x = y := by
  have hcd : c = d := by
    have hbytes := congrArg (fun l : List UInt8 => l.toByteArray.utf8DecodeChar? 0) h
    simp only [List.toByteArray_append, ByteArray.utf8DecodeChar?_utf8EncodeChar_append] at hbytes
    exact Option.some.inj hbytes
  subst hcd
  exact ⟨rfl, List.append_cancel_left h⟩

/-- A text that encodes to these bytes starts with what the first of them encode. -/
theorem encode_eq_append : ∀ {cs ds : List Char}, encode ds = encode cs ++ rest →
    ∃ es, ds = cs ++ es ∧ encode es = rest
  | [], ds, h => ⟨ds, rfl, h⟩
  | c :: cs, [], h => by
    have hlength := congrArg List.length h
    have hpos := c.utf8Size_pos
    simp only [encode_nil, encode_cons, List.length_nil, List.length_append,
      String.length_utf8EncodeChar] at hlength
    omega
  | c :: cs, d :: ds, h => by
    rw [encode_cons, encode_cons, List.append_assoc] at h
    obtain ⟨rfl, hrest⟩ := utf8EncodeChar_append_inj h
    obtain ⟨es, rfl, hes⟩ := encode_eq_append hrest
    exact ⟨es, rfl, hes⟩

/-- There are no fewer bytes than characters. -/
theorem length_le_length_encode : ∀ cs : List Char, cs.length ≤ (encode cs).length
  | [] => le_rfl
  | c :: cs => by
    have ih := length_le_length_encode cs
    have hpos := c.utf8Size_pos
    rw [encode_cons, List.length_append, String.length_utf8EncodeChar, List.length_cons]
    omega

def ASCII (cs : List Char) : Prop := ∀ c ∈ cs, c.toNat < 128

instance : Decidable (ASCII cs) := List.decidableBAll _ cs

theorem utf8Size_eq_one {c : Char} : c.utf8Size = 1 ↔ c.toNat < 128 := by
  rw [Char.utf8Size_eq_one_iff, UInt32.le_iff_toNat_le]
  exact Nat.lt_succ_iff.symm

/-- And just as many if all of them are ASCII. -/
theorem length_encode_eq : ∀ {cs : List Char}, (encode cs).length = cs.length ↔ ASCII cs
  | [] => ⟨fun _ => nofun, fun _ => rfl⟩
  | c :: cs => by
    have ih : (encode cs).length = cs.length ↔ ASCII cs := length_encode_eq
    have hle := length_le_length_encode cs
    have hpos := c.utf8Size_pos
    rw [encode_cons, List.length_append, String.length_utf8EncodeChar, List.length_cons, ASCII,
      List.forall_mem_cons, ← utf8Size_eq_one]
    change _ ↔ c.utf8Size = 1 ∧ ASCII cs
    rw [← ih]
    omega

/-! ### White space -/

/-- The text without the characters at its ends that are space. -/
def strip (space : Char → Bool) (text : Text) : Text := (text.dropWhile space).rdropWhile space

theorem strip_of_forall {space : Char → Bool} {text : Text} (h : ∀ ch ∈ text, space ch = false) :
    strip space text = text := by
  have hfront : text.dropWhile space = text :=
    List.dropWhile_eq_self_iff.mpr fun hpos => by simp [h _ (List.getElem_mem hpos)]
  rw [strip, hfront]
  exact List.rdropWhile_eq_self_iff.mpr fun hne => by simp [h _ (List.getLast_mem hne)]

theorem mem_strip {space : Char → Bool} {text : Text} {ch : Char} (h : ch ∈ text)
    (hch : space ch = false) : ch ∈ strip space text := by
  have hfront : ch ∈ text.dropWhile space := by
    rw [← List.takeWhile_append_dropWhile (p := space) (l := text), List.mem_append] at h
    exact h.resolve_left fun htake => by simp [List.mem_takeWhile_imp htake] at hch
  rw [← List.rdropWhile_append_rtakeWhile (p := space) (l := text.dropWhile space),
    List.mem_append] at hfront
  exact hfront.resolve_right fun htake => by simp [List.mem_rtakeWhile_imp htake] at hch

/-! ### Lines -/

/-- The lines of a text file, as Python iterates over them. -/
def lines : Text → List Text
  | [] => []
  | '\r' :: '\n' :: text => ['\n'] :: lines text
  | ch :: text =>
    if ch = '\n' ∨ ch = '\r' then ['\n'] :: lines text
    else
      match lines text with
      | [] => [[ch]]
      | line :: rest => (ch :: line) :: rest

theorem lines_newline (back : Text) : lines ('\n' :: back) = ['\n'] :: lines back := by
  rw [lines, if_pos (.inl rfl)]
  exact fun _ heq => absurd heq (by decide)

/-- A character in front changes no line but the first. -/
theorem lines_cons_of_eq {text line : Text} {rest : List Text} (ch : Char) (h : lines text = line :: rest) :
    ∃ line' before, lines (ch :: text) = line' :: (before ++ rest) := by
  generalize hwhole : ch :: text = whole
  fun_cases lines whole with
  | case1 => cases hwhole
  | case2 text' =>
    cases hwhole
    rw [lines_newline] at h
    cases h
    exact ⟨['\n'], [], rfl⟩
  | case3 =>
    cases hwhole
    exact ⟨['\n'], [line], by rw [h]; rfl⟩
  | case4 _ _ _ _ hnil =>
    cases hwhole
    rw [hnil] at h
    cases h
  | case5 _ _ _ _ line' rest' hlines =>
    cases hwhole
    cases hlines.symm.trans h
    exact ⟨ch :: line, [], rfl⟩

/-- What is behind a line feed starts on a line of its own. -/
theorem lines_append_cons (back : Text) : ∀ front : Text,
    ∃ line before, lines (front ++ '\n' :: back) = line :: (before ++ lines back)
  | [] => ⟨['\n'], [], lines_newline back⟩
  | ch :: front => by
    obtain ⟨line, before, hlines⟩ := lines_append_cons back front
    obtain ⟨line', before', hcons⟩ := lines_cons_of_eq ch hlines
    exact ⟨line', before' ++ before, by rw [List.cons_append, hcons, List.append_assoc]⟩

/-! ### Cutting at a separator -/

variable {α : Type*} [DecidableEq α]

/-- The list before the first occurrence of `sep`, `sep` if it has one, and the list after it. -/
def partition (sep : List α) : List α → List α × List α × List α
  | [] => if sep.isPrefixOf [] then ([], sep, []) else ([], [], [])
  | a :: l =>
    if sep.isPrefixOf (a :: l) then ([], sep, (a :: l).drop sep.length)
    else
      let (before, found, after) := partition sep l
      (a :: before, found, after)

/-- In `head ++ sep` the separator occurs only at the end. -/
def FirstAt (sep head : List α) : Prop := ∀ i < head.length, ¬ sep <+: (head ++ sep).drop i

instance {sep head : List α} : Decidable (FirstAt sep head) :=
  inferInstanceAs (Decidable (∀ i < head.length, ¬ sep <+: (head ++ sep).drop i))

theorem partition_of_firstAt {sep : List α} : ∀ {head : List α} (tail : List α), FirstAt sep head →
    partition sep (head ++ (sep ++ tail)) = (head, sep, tail)
  | [], tail, _ => by
    have hprefix : sep.isPrefixOf (sep ++ tail) = true :=
      List.isPrefixOf_iff_prefix.mpr (List.prefix_append sep tail)
    rw [List.nil_append]
    cases hl : sep ++ tail with
    | nil =>
      obtain ⟨rfl, rfl⟩ := List.append_eq_nil_iff.mp hl
      rfl
    | cons a l =>
      rw [partition, ← hl, if_pos hprefix, List.drop_left]
  | a :: head, tail, h => by
    have hfirst : ¬ sep.isPrefixOf (a :: (head ++ (sep ++ tail))) = true := by
      rw [List.isPrefixOf_iff_prefix]
      intro hprefix
      refine h 0 (Nat.succ_pos _) (List.prefix_of_prefix_length_le hprefix ?_ ?_)
      · exact ⟨tail, by rw [List.drop_zero, List.cons_append, List.cons_append, List.append_assoc]⟩
      · rw [List.drop_zero, List.length_append]
        omega
    have hrest : FirstAt sep head := fun i hi => h (i + 1) (Nat.succ_lt_succ hi)
    rw [List.cons_append, partition, if_neg hfirst, partition_of_firstAt tail hrest]

end Schemes
