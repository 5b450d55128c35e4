import Echronos.Schemes.Split
import Echronos.Schemes.Text

/-! # POSIX paths

    Paths are put together and taken apart as texts, without a look at any file. The functions are
    those of Python's `posixpath`, `splitext` as the two functions that give its halves. -/

namespace Schemes

abbrev Path := Text

def isabs (path : Path) : Bool := path.head? = some '/'

def join (a b : Path) : Path :=
  if isabs b then b
  else if a = [] ∨ a.getLast? = some '/' then a ++ b
  else a ++ '/' :: b

def dirname (path : Path) : Path :=
  let head := (path.reverse.dropWhile (· ≠ '/')).reverse
  if head ≠ [] ∧ ¬ head.all (· = '/') then (head.reverse.dropWhile (· = '/')).reverse else head

def basename (path : Path) : Path := (path.reverse.takeWhile (· ≠ '/')).reverse

/-- `splitext(path)[1]` -/
def splitext (path : Path) : Text :=
  let base := (basename path).dropWhile (· = '.')
  if '.' ∈ base then '.' :: (base.reverse.takeWhile (· ≠ '.')).reverse else []

/-- `splitext(path)[0]` -/
def splitextRoot (path : Path) : Path := path.take (path.length - (splitext path).length)

/-- The loop of `normpath`, with `new_comps` in reverse. -/
def normComps (initialSlashes : ℕ) : List Path → List Path → List Path
  | newComps, [] => newComps.reverse
  | newComps, comp :: comps =>
    if comp = [] ∨ comp = ['.'] then normComps initialSlashes newComps comps
    else if comp ≠ ['.', '.'] ∨ (initialSlashes = 0 ∧ newComps = []) ∨ newComps.head? = some ['.', '.'] then
      normComps initialSlashes (comp :: newComps) comps
    else normComps initialSlashes newComps.tail comps

def normpath (path : Path) : Path :=
  if path = [] then ['.']
  else
    let initialSlashes :=
      if ['/', '/'] <+: path ∧ ¬ ['/', '/', '/'] <+: path then 2 else if isabs path then 1 else 0
    let comps := normComps initialSlashes [] (path.splitOn '/')
    let path := List.replicate initialSlashes '/' ++ ['/'].intercalate comps
    if path = [] then ['.'] else path

/-! ### The last component -/

theorem basename_append_cons (path : Path) {name : Path} (h : '/' ∉ name) :
    basename (path ++ '/' :: name) = name :=
  takeWhile_reverse_append_cons path h

theorem basename_of_notMem {name : Path} (h : '/' ∉ name) : basename name = name :=
  takeWhile_reverse_of_notMem h

theorem not_isabs {name : Path} (h : '/' ∉ name) : ¬ isabs name = true := fun habs =>
  h (List.mem_of_head? (of_decide_eq_true habs))

theorem join_of_notMem (path : Path) {name : Path} (h : '/' ∉ name) :
    join path name = name ∨ ∃ front, join path name = front ++ '/' :: name := by
  rw [join, if_neg (not_isabs h)]
  split_ifs with hpath
  · rcases hpath with rfl | hlast
    · exact .inl rfl
    · obtain ⟨front, rfl⟩ := List.getLast?_eq_some_iff.mp hlast
      exact .inr ⟨front, List.append_assoc _ _ _⟩
  · exact .inr ⟨path, rfl⟩

theorem join_eq (path : Path) {name : Path} (h : '/' ∉ name) : join path name = join path [] ++ name := by
  rw [join, join, if_neg (not_isabs h), if_neg (not_isabs List.not_mem_nil)]
  split_ifs
  · rw [List.append_nil]
  · rw [List.append_assoc]
    rfl

theorem basename_join (path : Path) {name : Path} (h : '/' ∉ name) :
    basename (join path name) = name := by
  rcases join_of_notMem path h with hjoin | ⟨front, hjoin⟩
  · rw [hjoin, basename_of_notMem h]
  · rw [hjoin, basename_append_cons front h]

theorem slash_notMem_basename (path : Path) : '/' ∉ basename path := by
  intro h
  have hslash := List.mem_takeWhile_imp (List.mem_reverse.mp h)
  simp at hslash

/-- What is behind the last full stop goes, unless nothing but full stops is before it. -/
theorem splitextRoot_append_cons {stem ext : Text} (hstem : ∃ ch ∈ stem, ch ≠ '.')
    (hslash : '/' ∉ stem ++ '.' :: ext) (hext : '.' ∉ ext) :
    splitextRoot (stem ++ '.' :: ext) = stem := by
  have hfront : stem.dropWhile (· = '.') ≠ [] := by
    obtain ⟨ch, hch, hne⟩ := hstem
    intro hnil
    exact hne (of_decide_eq_true (List.dropWhile_eq_nil_iff.mp hnil ch hch))
  have hbase : (stem ++ '.' :: ext).dropWhile (· = '.') = stem.dropWhile (· = '.') ++ '.' :: ext := by
    rw [List.dropWhile_append, if_neg (by rwa [List.isEmpty_iff])]
  have hsplitext : splitext (stem ++ '.' :: ext) = '.' :: ext := by
    unfold splitext
    rw [basename_of_notMem hslash, hbase]
    dsimp only
    rw [if_pos (List.mem_append_right _ List.mem_cons_self), takeWhile_reverse_append_cons _ hext]
  rw [splitextRoot, hsplitext, List.length_append, Nat.add_sub_cancel, List.take_left]

end Schemes
