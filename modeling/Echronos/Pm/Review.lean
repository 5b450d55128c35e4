import Echronos.Pm.Strings
import Echronos.Schemes.Except
import Echronos.Schemes.Latest
import Mathlib.Data.Char
import Mathlib.Data.List.Lex
import Mathlib.Data.List.Sort

/-! # Reviews of development tasks, as `pylib/task.py` keeps them

    A review is a file `author.round.md` in the review directory of a task. `review` creates the file
    of a reviewer's next round, and a task is accepted by the reviews of the last rounds. -/

namespace Echronos.Pm

open Schemes

inductive TaskError
  | invalidTaskState (msg : Text)
  | inconsistentUserName (msg : Text)
  | assertionError
  | valueError
  | indexError
  | nameError
  | formatError
  | fileNotFound
  deriving DecidableEq

/-! ### Files -/

structure FileSystem where
  /-- What the files hold. -/
  files : Text → Option Text
  /-- What `os.listdir` finds in the directories. -/
  directories : Text → Option (List Text)
  /-- The files that `walk` finds below a directory. -/
  walk : Text → List Text
  names : ∀ path names, directories path = some names → ∀ name ∈ names, '/' ∉ name

namespace FileSystem

variable (fs : FileSystem)

/-- `os.path.isfile(path)` -/
def isfile (path : Text) : Bool := (fs.files path).isSome

/-- `os.path.exists(path)` -/
def pathExists (path : Text) : Bool := fs.isfile path || (fs.directories path).isSome

/-- A new file, or new contents of a file. -/
def write (path contents : Text) : FileSystem where
  files := Function.update fs.files path (some contents)
  directories dir := (fs.directories dir).map fun names =>
    if join dir (basename path) = path ∧ basename path ∉ names then names ++ [basename path] else names
  walk dir := if dir ++ ['/'] <+: path ∧ path ∉ fs.walk dir then fs.walk dir ++ [path] else fs.walk dir
  names := by
    intro dir names h name hname
    obtain ⟨old, hold, rfl⟩ := Option.map_eq_some_iff.mp h
    split_ifs at hname
    · rcases List.mem_append.mp hname with hname | hname
      · exact fs.names dir old hold name hname
      · rw [List.mem_singleton.mp hname]
        exact slash_notMem_basename path
    · exact fs.names dir old hold name hname

def remove (path : Text) : FileSystem where
  files := Function.update fs.files path none
  directories dir := (fs.directories dir).map fun names =>
    if join dir (basename path) = path then names.filter (· ≠ basename path) else names
  walk dir := (fs.walk dir).filter (· ≠ path)
  names := by
    intro dir names h name hname
    obtain ⟨old, hold, rfl⟩ := Option.map_eq_some_iff.mp h
    split_ifs at hname
    · exact fs.names dir old hold name (List.mem_filter.mp hname).1
    · exact fs.names dir old hold name hname

@[simp] theorem files_write (path contents : Text) :
    (fs.write path contents).files = Function.update fs.files path (some contents) := rfl

@[simp] theorem files_remove (path : Text) :
    (fs.remove path).files = Function.update fs.files path none := rfl

@[simp] theorem isfile_write (path contents : Text) : (fs.write path contents).isfile path = true := by
  rw [isfile, files_write, Function.update_self]
  rfl

theorem isfile_remove {path other : Text} (h : path ≠ other) :
    (fs.remove other).isfile path = fs.isfile path := by
  rw [isfile, files_remove, Function.update_of_ne h, isfile]

end FileSystem

structure Task where
  name : Text
  reviewsPath : Text

def Task.reviewDir (task : Task) : Text := join task.reviewsPath task.name

def Task.reviewPlaceholderPath (task : Task) : Text :=
  join task.reviewDir ".placeholder_for_git_to_not_remove_this_otherwise_empty_dir".toList

/-! ### `Task.review` -/

/-- A reviewer at the terminal. -/
structure Reviewer where
  /-- The name and the address that git knows. -/
  name : Text
  email : Text
  /-- `difflib.get_close_matches` -/
  closeMatches : Text → List Text → List Text
  /-- The answer to the question whether one of the close matches is the reviewer. -/
  answer : Text

/-- The reviewer of one of the paths that `_get_reviewer_names_from_paths` goes through. -/
def reviewerNameFromPath (path : Text) : Text := (splitLast '.' 2 (basename path)).headD []

/-- `_get_reviewer_names_from_paths` -/
def getReviewerNamesFromPaths (fs : FileSystem) (task : Task) : List Text :=
  ((fs.walk task.reviewsPath).filter fun path => ".md".toList.isSuffixOf path).map reviewerNameFromPath

/-- `_get_reviewer_name_as_path` -/
def getReviewerNameAsPath (u : Unicode) (fs : FileSystem) (task : Task) (reviewer : Reviewer) :
    Except TaskError Text :=
  let nameAsPath := stringToPath u reviewer.name
  let otherNamesAsPaths := getReviewerNamesFromPaths fs task
  if nameAsPath ∉ otherNamesAsPaths ∧ reviewer.closeMatches nameAsPath otherNamesAsPaths ≠ [] ∧
      (reviewer.answer = [] ∨ u.lower reviewer.answer = ['y']) then
    throw (.inconsistentUserName
      ("It seems that you wrote previous reviews under a different git user name. ".toList ++
      "To keep things consistent, please use \"git config --global user.name\" ".toList ++
      "to update your git user name. Your git user name should be consistent across ".toList ++
      "all your repositories and match that of previous reviews. ".toList ++
      "This is necessary for our review system to work as expected.".toList))
  else pure nameAsPath

def reviewPathTemplate (task : Task) (reviewerNameAsPath : Text) : Except TaskError Text :=
  match format "\x7b\x7d.\x7b\x7b\x7d\x7d.md".toList [reviewerNameAsPath] with
  | some fileName => pure (join task.reviewDir fileName)
  | none => throw .formatError

/-- The first of these rounds without a file, and its path. -/
def newRound (fs : FileSystem) (template : Text) : List ℕ → Except TaskError (ℕ × Text)
  -- The message of the `FileNotFoundError` mentions `branch`, which is not defined.
  | [] => throw .nameError
  | reviewRound :: rounds =>
    match format template [Nat.toDigits 10 reviewRound] with
    | some path => if fs.pathExists path then newRound fs template rounds else pure (reviewRound, path)
    | none => throw .formatError

def reviewContents (reviewer : Reviewer) (accept : Bool) : Text :=
  "Reviewer: ".toList ++ reviewer.name ++ " (".toList ++ reviewer.email ++
    (if accept then ")\nConclusion: Accepted\n"
    else ")\nConclusion: Accepted/Rework\n\nLocation: filename:linenum\nComment:\n").toList

/-- The files with a new review, without the placeholder of the review directory. -/
def addReview (fs : FileSystem) (task : Task) (path contents : Text) : FileSystem :=
  let fs := fs.write path contents
  if fs.pathExists task.reviewPlaceholderPath then fs.remove task.reviewPlaceholderPath else fs

/-- `Task.review`, but for the commands of git: the round of the new review, its path, and the files. -/
def review (u : Unicode) (fs : FileSystem) (task : Task) (reviewer : Reviewer) (accept : Bool) :
    Except TaskError (ℕ × Text × FileSystem) :=
  if ¬ fs.pathExists task.reviewDir then
    throw (.invalidTaskState ("The task ".toList ++ task.name ++ " is not on review.".toList))
  else do
    let reviewerNameAsPath ← getReviewerNameAsPath u fs task reviewer
    let template ← reviewPathTemplate task reviewerNameAsPath
    let (reviewRound, path) ← newRound fs template (List.range 1000)
    pure (reviewRound, path, addReview fs task path (reviewContents reviewer accept))

/-! ### `_Review` -/

structure Review where
  filePath : Text
  author : Text
  round : ℤ
  deriving DecidableEq

/-- `_Review(file_path)` -/
def Review.init (u : Unicode) (fs : FileSystem) (filePath : Text) : Except TaskError Review :=
  if ¬ fs.isfile filePath then throw .assertionError
  else
    match splitFirst '.' 1 (splitextRoot (basename filePath)) with
    | [author, round] =>
      match int? u round with
      | some round => pure { filePath, author, round }
      | none => throw .valueError
    | _ => throw .valueError

/-- `_get_conclusion` -/
def Review.conclusion (u : Unicode) (fs : FileSystem) (self : Review) : Except TaskError Text :=
  match fs.files self.filePath with
  | none => throw .fileNotFound
  | some contents =>
    match (lines contents).find? fun line => "Conclusion: ".toList.isPrefixOf line with
    | none => throw .assertionError
    | some line =>
      match (line.splitOn ':')[1]? with
      | some conclusion => pure (u.lower (strip u.isspace conclusion))
      | none => throw .indexError

def Review.isAccepted (u : Unicode) (fs : FileSystem) (self : Review) : Except TaskError Bool := do
  let conclusion ← self.conclusion u fs
  pure (conclusion ∈ ["accept".toList, "accepted".toList])

/-! ### `_check_is_accepted` -/

/-- The files of the review directory that are not hidden, in the order of their names. -/
def relativePaths (fs : FileSystem) (task : Task) (directoryContents : List Text) : List Text :=
  (directoryContents.insertionSort (· ≤ ·)).filter fun relativePath =>
    fs.isfile (join task.reviewDir relativePath) ∧ relativePath.head? ≠ some '.'

/-- `_get_reviews` -/
def getReviews (u : Unicode) (fs : FileSystem) (task : Task) : Except TaskError (List Review) :=
  match fs.directories task.reviewDir with
  | none => throw .fileNotFound
  | some directoryContents =>
    (relativePaths fs task directoryContents).mapM fun relativePath =>
      Review.init u fs (join task.reviewDir relativePath)

/-- `_get_most_recent_reviews` -/
def getMostRecentReviews (u : Unicode) (fs : FileSystem) (task : Task) :
    Except TaskError (List Review) := do
  let reviews ← getReviews u fs task
  pure (reviews.foldl (keepLatest Review.author Review.round) [])

/-- What `_check_is_accepted` asks of each review. -/
def checkReview (u : Unicode) (fs : FileSystem) (task : Task) (review : Review) :
    Except TaskError PUnit := do
  if ← review.isAccepted u fs then pure ⟨⟩
  else
    throw (.invalidTaskState ("The conclusion of review ".toList ++ review.filePath ++
      " for task ".toList ++ task.name ++ " is not \"accepted\"".toList))

/-- `_check_is_accepted` -/
def checkIsAccepted (u : Unicode) (fs : FileSystem) (task : Task) : Except TaskError PUnit := do
  let reviews ← getMostRecentReviews u fs task
  if reviews = [] then
    throw (.invalidTaskState ("Task ".toList ++ task.name ++ " has not been reviewed".toList))
  else
    reviews.forM (checkReview u fs task)
    if reviews.length < 2 then
      throw (.invalidTaskState ("Task ".toList ++ task.name ++
        " does not have enough reviews (minimum: 2)".toList))
    else pure ⟨⟩

/-! ### The names of review files -/

/-- `author.round.md` -/
def reviewFileName (author round : Text) : Text := author ++ '.' :: (round ++ ".md".toList)

theorem reviewFileName_eq (author round : Text) :
    reviewFileName author round = (author ++ '.' :: round) ++ '.' :: "md".toList := by
  rw [reviewFileName, List.append_assoc, List.cons_append]
  rfl

theorem basename_reviewPlaceholderPath (task : Task) : basename task.reviewPlaceholderPath =
    ".placeholder_for_git_to_not_remove_this_otherwise_empty_dir".toList :=
  basename_join task.reviewDir (by decide)

/-- The placeholder of a review directory is not a review. -/
theorem ne_reviewPlaceholderPath (task : Task) {path author round : Text}
    (hname : basename path = reviewFileName author round) : path ≠ task.reviewPlaceholderPath := by
  intro heq
  rw [heq, basename_reviewPlaceholderPath, reviewFileName_eq] at hname
  have hlast := congrArg List.getLast? hname
  rw [List.getLast?_append_of_ne_nil _ (List.cons_ne_nil _ _)] at hlast
  exact absurd hlast (by decide)

section

variable {u : Unicode} {fs : FileSystem} {path author round : Text}

theorem isfile_addReview (task : Task) (contents : Text)
    (hname : basename path = reviewFileName author round) :
    (addReview fs task path contents).isfile path = true := by
  unfold addReview
  dsimp only
  split_ifs
  · rw [FileSystem.isfile_remove _ (ne_reviewPlaceholderPath task hname), FileSystem.isfile_write]
  · exact fs.isfile_write path contents

theorem splitextRoot_reviewFileName (hstem : ∃ ch ∈ author ++ '.' :: round, ch ≠ '.')
    (hslash : '/' ∉ reviewFileName author round) :
    splitextRoot (reviewFileName author round) = author ++ '.' :: round := by
  rw [reviewFileName_eq] at hslash ⊢
  exact splitextRoot_append_cons hstem hslash (by decide)

/-- How the review of a file is read if its author has no full stop. -/
theorem init_eq (hfile : fs.isfile path = true) (hname : basename path = reviewFileName author round)
    (hstem : ∃ ch ∈ author ++ '.' :: round, ch ≠ '.') (hauthor : '.' ∉ author) :
    Review.init u fs path =
      match int? u round with
      | some n => .ok ⟨path, author, n⟩
      | none => .error .valueError := by
  have hslash := slash_notMem_basename path
  rw [hname] at hslash
  rw [Review.init, if_neg (not_not.mpr hfile), hname, splitextRoot_reviewFileName hstem hslash,
    splitFirst_append_cons 0 round hauthor, splitFirst_zero]
  rfl

/-- The rest of the author is taken for a part of the round. -/
theorem init_of_stop (hfile : fs.isfile path = true) (hname : basename path = reviewFileName author round)
    (hstem : ∃ ch ∈ author ++ '.' :: round, ch ≠ '.') (hauthor : '.' ∈ author) :
    Review.init u fs path = .error .valueError := by
  obtain ⟨front, back, rfl, hfront⟩ := List.eq_append_cons_of_mem hauthor
  have hslash := slash_notMem_basename path
  rw [hname] at hslash
  have hsplit : splitFirst '.' 1 ((front ++ '.' :: back) ++ '.' :: round) =
      [front, back ++ '.' :: round] := by
    rw [List.append_assoc, List.cons_append, splitFirst_append_cons 0 _ hfront, splitFirst_zero]
  have hround : int? u (back ++ '.' :: round) = none :=
    int?_of_stop (List.mem_append_right _ List.mem_cons_self)
  rw [Review.init, if_neg (not_not.mpr hfile), hname, splitextRoot_reviewFileName hstem hslash, hsplit]
  dsimp only
  rw [hround]
  rfl

/-- Split from the end, a full stop in the author does no harm. -/
theorem reviewerNameFromPath_eq (hname : basename path = reviewFileName author round)
    (hround : '.' ∉ round) : reviewerNameFromPath path = author := by
  rw [reviewerNameFromPath, hname, reviewFileName_eq, splitLast_append_cons 1 _ (by decide),
    splitLast_append_cons 0 _ hround, splitLast_zero]
  rfl

end

end Echronos.Pm
