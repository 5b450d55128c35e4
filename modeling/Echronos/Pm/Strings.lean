import Echronos.Schemes.Paths

/-! # Names and numbers as `pylib/task.py` writes and reads them

    Python's functions on strings and paths that review files are named with. -/

namespace Echronos.Pm

open Schemes

/-! ### Characters -/

/-- What Python knows of characters depends on its version of Unicode, but for ASCII. -/
structure Unicode where
  isalnum : Char → Bool
  isspace : Char → Bool
  /-- The value of a digit. -/
  decimal : Char → Option ℕ
  /-- `text.lower()` -/
  lower : Text → Text
  isalnum_ascii : ∀ ch, ch.toNat < 128 → isalnum ch = ch.isAlphanum
  isspace_ascii : ∀ ch, ch.toNat < 128 → (isspace ch = true ↔
    ch = ' ' ∨ (9 ≤ ch.toNat ∧ ch.toNat ≤ 13) ∨ (28 ≤ ch.toNat ∧ ch.toNat ≤ 31))
  decimal_ascii : ∀ ch, ch.toNat < 128 →
    decimal ch = if ch.isDigit then some (ch.toNat - '0'.toNat) else none
  lower_ascii : ∀ text, ASCII text → lower text = text.map Char.toLower

/-- The tables without anything but ASCII. -/
def ascii : Unicode where
  isalnum := Char.isAlphanum
  isspace ch := ch = ' ' ∨ (9 ≤ ch.toNat ∧ ch.toNat ≤ 13) ∨ (28 ≤ ch.toNat ∧ ch.toNat ≤ 31)
  decimal ch := if ch.isDigit then some (ch.toNat - '0'.toNat) else none
  lower := List.map Char.toLower
  isalnum_ascii _ _ := rfl
  isspace_ascii _ _ := decide_eq_true_iff
  decimal_ascii _ _ := rfl
  lower_ascii _ _ := rfl

/-! ### Strings -/

/-- Digits, with single underscores between them left out. -/
def natural? (u : Unicode) (digits : Text) : Option ℕ :=
  if [] ∈ digits.splitOn '_' then none
  else (digits.filter (· ≠ '_')).foldlM (fun n ch => (u.decimal ch).map (10 * n + ·)) 0

/-- What `int` takes for white space: of ASCII, only what the C library does. -/
def Unicode.intSpace (u : Unicode) (ch : Char) : Bool :=
  if ch.toNat < 128 then ch = ' ' ∨ (9 ≤ ch.toNat ∧ ch.toNat ≤ 13) else u.isspace ch

/-- `int(text)`: white space around the number and one sign are allowed. -/
def int? (u : Unicode) (text : Text) : Option ℤ :=
  match strip u.intSpace text with
  | '-' :: digits => (natural? u digits).map fun n => -(n : ℤ)
  | '+' :: digits => (natural? u digits).map fun n => (n : ℤ)
  | digits => (natural? u digits).map fun n => (n : ℤ)

variable {u : Unicode} {text : Text}

theorem toNat_of_isDigit {ch : Char} (h : ch.isDigit) : 48 ≤ ch.toNat ∧ ch.toNat ≤ 57 := by
  rw [Char.isDigit, Bool.and_eq_true, decide_eq_true_eq, decide_eq_true_eq] at h
  exact h

theorem Unicode.intSpace_of_isDigit (u : Unicode) {ch : Char} (h : ch.isDigit) : u.intSpace ch = false := by
  have hrange := toNat_of_isDigit h
  rw [Unicode.intSpace, if_pos (by omega), decide_eq_false_iff_not]
  rintro (rfl | hspace)
  · cases h
  · omega

theorem isDigit_of_mem_toDigits {n : ℕ} {ch : Char} (h : ch ∈ Nat.toDigits 10 n) : ch.isDigit :=
  Nat.isDigit_of_mem_toDigits (by decide) le_rfl h

theorem foldlM_decimal : ∀ {digits : Text} (k : ℕ), (∀ ch ∈ digits, ch.isDigit) →
    digits.foldlM (fun n ch => (u.decimal ch).map (10 * n + ·)) k = some (Nat.ofDigitChars 10 digits k)
  | [], _, _ => rfl
  | ch :: digits, k, h => by
    obtain ⟨hch, hdigits⟩ := List.forall_mem_cons.mp h
    have hrange := toNat_of_isDigit hch
    rw [List.foldlM_cons, u.decimal_ascii ch (by omega), if_pos hch, Nat.ofDigitChars_cons]
    exact foldlM_decimal _ hdigits

theorem foldlM_decimal_of_stop : ∀ {digits : Text} (k : ℕ), '.' ∈ digits →
    digits.foldlM (fun n ch => (u.decimal ch).map (10 * n + ·)) k = none
  | ch :: digits, k, h => by
    rw [List.foldlM_cons]
    rcases List.mem_cons.mp h with rfl | h
    · rw [u.decimal_ascii '.' (by decide)]
      rfl
    · cases u.decimal ch with
      | none => rfl
      | some digit => exact foldlM_decimal_of_stop _ h

theorem natural?_toDigits (u : Unicode) (n : ℕ) : natural? u (Nat.toDigits 10 n) = some n := by
  have hunderscore : '_' ∉ Nat.toDigits 10 n := Nat.underscore_not_in_toDigits
  have hfilter : (Nat.toDigits 10 n).filter (· ≠ '_') = Nat.toDigits 10 n :=
    List.filter_eq_self.mpr fun ch hch => decide_eq_true fun heq => hunderscore (heq ▸ hch)
  have hpieces : [] ∉ (Nat.toDigits 10 n).splitOn '_' := by
    rw [List.splitOn_eq_singleton hunderscore, List.mem_singleton]
    exact Nat.toDigits_ne_nil.symm
  rw [natural?, if_neg hpieces, hfilter, foldlM_decimal _ fun _ => isDigit_of_mem_toDigits,
    Nat.ofDigitChars_ten_toDigits]

theorem natural?_of_stop (h : '.' ∈ text) : natural? u text = none := by
  rw [natural?, foldlM_decimal_of_stop _ (List.mem_filter.mpr ⟨h, rfl⟩), ite_self]

theorem int?_toDigits (u : Unicode) (n : ℕ) : int? u (Nat.toDigits 10 n) = some (n : ℤ) := by
  have hstrip := strip_of_forall fun ch hch => u.intSpace_of_isDigit (isDigit_of_mem_toDigits (n := n) hch)
  rw [int?, hstrip]
  split
  · next digits heq => exact absurd (isDigit_of_mem_toDigits (heq ▸ List.mem_cons_self)) (by decide)
  · next digits heq => exact absurd (isDigit_of_mem_toDigits (heq ▸ List.mem_cons_self)) (by decide)
  · rw [natural?_toDigits]
    rfl

/-- No number has a full stop. -/
theorem int?_of_stop (h : '.' ∈ text) : int? u text = none := by
  have hspace : u.intSpace '.' = false := by
    rw [Unicode.intSpace, if_pos (by decide)]
    decide
  have hstrip := mem_strip h hspace
  rw [int?]
  split
  · next digits heq =>
    rw [natural?_of_stop ((List.mem_cons.mp (heq ▸ hstrip)).resolve_left (by decide))]
    rfl
  · next digits heq =>
    rw [natural?_of_stop ((List.mem_cons.mp (heq ▸ hstrip)).resolve_left (by decide))]
    rfl
  · rw [natural?_of_stop hstrip]
    rfl

/-- `template.format(*args)`, for templates whose only fields are `\x7b\x7d`. -/
def format : Text → List Text → Option Text
  | [], _ => some []
  | '{' :: '{' :: template, args => (format template args).map ('{' :: ·)
  | '}' :: '}' :: template, args => (format template args).map ('}' :: ·)
  | '{' :: '}' :: template, arg :: args => (format template args).map (arg ++ ·)
  | ch :: template, args =>
    if ch = '{' ∨ ch = '}' then none else (format template args).map (ch :: ·)

/-- No braces. -/
def Plain (text : Text) : Prop := ∀ ch ∈ text, ch ≠ '{' ∧ ch ≠ '}'

instance : Decidable (Plain text) := List.decidableBAll _ text

/-- What has no braces stands as it is. -/
theorem format_append (template : Text) (args : List Text) : ∀ {text : Text}, Plain text →
    format (text ++ template) args = (format template args).map (text ++ ·)
  | [], _ => by simp
  | ch :: text, h => by
    obtain ⟨⟨hopen, hclose⟩, htext⟩ := List.forall_mem_cons.mp h
    rw [List.cons_append, format, if_neg (not_or.mpr ⟨hopen, hclose⟩), format_append template args htext,
      Option.map_map]
    · rfl
    · exact fun _ heq => absurd heq hopen
    · exact fun _ heq => absurd heq hclose
    · exact fun _ _ _ _ heq => absurd heq hopen

theorem exists_cons_of_append_eq {sep ch : Char} {front back template : Text} (hne : sep ≠ ch)
    (h : front ++ sep :: back = ch :: template) :
    ∃ front', front = ch :: front' ∧ front' ++ sep :: back = template := by
  cases front with
  | nil => exact absurd (List.cons.inj h).1 hne
  | cons ch' front =>
    obtain ⟨rfl, htemplate⟩ := List.cons.inj h
    exact ⟨front, rfl, htemplate⟩

/-- A template with a separator in it is formatted in two parts. -/
theorem format_append_cons {sep : Char} {front back template : Text} {args : List Text} {text : Text}
    (hopen : sep ≠ '{') (hclose : sep ≠ '}') (htemplate : front ++ sep :: back = template)
    (h : format template args = some text) : ∃ before after args', text = before ++ sep :: after ∧
      args' <:+ args ∧ format back args' = some after := by
  induction template, args using format.induct generalizing front text with
  | case1 args => exact absurd htemplate (by simp)
  | case2 template args ih =>
    obtain ⟨front', rfl, hfront'⟩ := exists_cons_of_append_eq hopen htemplate
    obtain ⟨front, rfl, hfront⟩ := exists_cons_of_append_eq hopen hfront'
    obtain ⟨rest, hrest, rfl⟩ := Option.map_eq_some_iff.mp h
    obtain ⟨before, after, args', rfl, hargs, hafter⟩ := ih hfront hrest
    exact ⟨'{' :: before, after, args', rfl, hargs, hafter⟩
  | case3 template args ih =>
    obtain ⟨front', rfl, hfront'⟩ := exists_cons_of_append_eq hclose htemplate
    obtain ⟨front, rfl, hfront⟩ := exists_cons_of_append_eq hclose hfront'
    obtain ⟨rest, hrest, rfl⟩ := Option.map_eq_some_iff.mp h
    obtain ⟨before, after, args', rfl, hargs, hafter⟩ := ih hfront hrest
    exact ⟨'}' :: before, after, args', rfl, hargs, hafter⟩
  | case4 template arg args ih =>
    obtain ⟨front', rfl, hfront'⟩ := exists_cons_of_append_eq hopen htemplate
    obtain ⟨front, rfl, hfront⟩ := exists_cons_of_append_eq hclose hfront'
    obtain ⟨rest, hrest, rfl⟩ := Option.map_eq_some_iff.mp h
    obtain ⟨before, after, args', rfl, hargs, hafter⟩ := ih hfront hrest
    exact ⟨arg ++ before, after, args', by rw [List.append_assoc],
      hargs.trans (List.suffix_cons _ _), hafter⟩
  | case5 ch template args hopens hcloses hfield hch =>
    rw [format, if_pos hch] at h
    · cases h
    all_goals assumption
  | case6 ch template args hopens hcloses hfield hch ih =>
    rw [format, if_neg hch] at h
    · obtain ⟨rest, hrest, rfl⟩ := Option.map_eq_some_iff.mp h
      cases front with
      | nil =>
        obtain ⟨rfl, rfl⟩ := List.cons.inj htemplate
        exact ⟨[], rest, args, rfl, List.suffix_refl _, hrest⟩
      | cons ch' front =>
        obtain ⟨rfl, hfront⟩ := List.cons.inj htemplate
        obtain ⟨before, after, args', rfl, hargs, hafter⟩ := ih hfront hrest
        exact ⟨ch' :: before, after, args', rfl, hargs, hafter⟩
    all_goals assumption

/-! ### Names -/

/-- `string_to_path` -/
def stringToPath (u : Unicode) (string : Text) : Text :=
  (string.map fun ch => if ch = ' ' then '_' else ch).filter fun ch =>
    u.isalnum ch || ch ∈ ['.', '-', '_']

/-- No other ASCII characters are left than those that are safe. -/
theorem notMem_stringToPath (u : Unicode) (string : Text) {ch : Char} (hascii : ch.toNat < 128)
    (hch : ¬ (ch.isAlphanum || ch ∈ ['.', '-', '_']) = true) : ch ∉ stringToPath u string := by
  intro h
  refine hch ?_
  rw [← u.isalnum_ascii ch hascii]
  exact (List.mem_filter.mp h).2

/-- Every full stop stays. -/
theorem stop_mem_stringToPath {u : Unicode} {string : Text} :
    '.' ∈ stringToPath u string ↔ '.' ∈ string := by
  have hsafe : (u.isalnum '.' || decide ('.' ∈ ['.', '-', '_'])) = true := by
    rw [decide_eq_true (by decide), Bool.or_true]
  rw [stringToPath, List.mem_filter, and_iff_left hsafe, List.mem_map]
  constructor
  · rintro ⟨ch, hch, heq⟩
    split_ifs at heq
    · cases heq
    · exact heq ▸ hch
  · exact fun h => ⟨'.', h, rfl⟩

end Echronos.Pm
