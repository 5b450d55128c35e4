import Echronos.Pm.Review

/-! # What the names of review files are read as

    `review` puts the name of the reviewer and the round into the name of a file. A name with a full
    stop is read back by `_get_reviewer_names_from_paths`, and rejected by `_Review`. -/

namespace Echronos.Pm

open Schemes

variable {u : Unicode} {fs fs' : FileSystem} {task : Task} {reviewer : Reviewer} {accept : Bool}

/-! ### The template -/

theorem slash_notMem_stringToPath (u : Unicode) (string : Text) : '/' ∉ stringToPath u string :=
  notMem_stringToPath u string (by decide) (by decide)

theorem plain_stringToPath (u : Unicode) (string : Text) : Plain (stringToPath u string) := by
  intro ch hch
  refine ⟨?_, ?_⟩
  all_goals
    rintro rfl
    exact notMem_stringToPath u string (by decide) (by decide) hch

/-- The name of the file with a field for the round. -/
def nameTemplate (author : Text) : Text := author ++ '.' :: '{' :: '}' :: ".md".toList

theorem reviewPathTemplate_eq (task : Task) (author : Text) :
    reviewPathTemplate task author = .ok (join task.reviewDir (nameTemplate author)) := by
  have hformat : format "\x7b\x7d.\x7b\x7b\x7d\x7d.md".toList [author] = some (nameTemplate author) := rfl
  rw [reviewPathTemplate, hformat]
  rfl

theorem slash_notMem_nameTemplate {author : Text} (h : '/' ∉ author) : '/' ∉ nameTemplate author := by
  rw [nameTemplate, List.mem_append]
  exact not_or.mpr ⟨h, by decide⟩

theorem slash_notMem_reviewFileName {author round : Text} (hauthor : '/' ∉ author)
    (hround : '/' ∉ round) :
    '/' ∉ reviewFileName author round := by
  simp [reviewFileName, hauthor, hround]

theorem format_fileName {author : Text} (hauthor : Plain author) (round : Text) :
    format (nameTemplate author) [round] = some (reviewFileName author round) := by
  have hrest : format ('.' :: '{' :: '}' :: ".md".toList) [round] =
      some ('.' :: (round ++ ".md".toList)) := rfl
  rw [nameTemplate, format_append _ _ hauthor, hrest]
  rfl

/-- Whatever the directory is called: the file is `author.round.md`. -/
theorem basename_of_format {author round path : Text} (hslash : '/' ∉ author) (hplain : Plain author)
    (hround : '/' ∉ round)
    (h : format (join task.reviewDir (nameTemplate author)) [round] = some path) :
    basename path = reviewFileName author round := by
  have hname := slash_notMem_reviewFileName hslash hround
  rcases join_of_notMem task.reviewDir (slash_notMem_nameTemplate hslash) with hjoin | ⟨front, hjoin⟩
  · rw [hjoin, format_fileName hplain] at h
    cases h
    exact basename_of_notMem hname
  · rw [hjoin] at h
    obtain ⟨before, after, args, rfl, hargs, hafter⟩ :=
      format_append_cons (by decide) (by decide) rfl h
    -- The field behind the slash takes the only argument.
    rcases List.suffix_cons_iff.mp hargs with rfl | hargs
    · rw [format_fileName hplain] at hafter
      cases hafter
      exact basename_append_cons before hname
    · have hnone : format ('.' :: '{' :: '}' :: ".md".toList) [] = none := rfl
      rw [List.suffix_nil.mp hargs, nameTemplate, format_append _ _ hplain, hnone] at hafter
      cases hafter

/-! ### A call of `review` -/

theorem slash_notMem_toDigits (round : ℕ) : '/' ∉ Nat.toDigits 10 round := fun hmem =>
  absurd (isDigit_of_mem_toDigits hmem) (by decide)

theorem stop_notMem_toDigits (round : ℕ) : '.' ∉ Nat.toDigits 10 round := fun hmem =>
  absurd (isDigit_of_mem_toDigits hmem) (by decide)

theorem round_inj {author : Text} {r r' : ℕ}
    (h : reviewFileName author (Nat.toDigits 10 r) = reviewFileName author (Nat.toDigits 10 r')) :
    r = r' := by
  have hdigits : Nat.toDigits 10 r = Nat.toDigits 10 r' :=
    List.append_cancel_right (List.cons.inj (List.append_cancel_left h)).2
  rw [← Nat.ofDigitChars_ten_toDigits (n := r), hdigits, Nat.ofDigitChars_ten_toDigits]

theorem newRound_eq_ok {template : Text} {round : ℕ} {path : Text} : ∀ {rounds : List ℕ},
    newRound fs template rounds = .ok (round, path) →
      round ∈ rounds ∧ format template [Nat.toDigits 10 round] = some path ∧ fs.pathExists path = false
  | r :: rounds, h => by
    rw [newRound] at h
    cases hformat : format template [Nat.toDigits 10 r] with
    | none =>
      rw [hformat] at h
      cases h
    | some p =>
      rw [hformat] at h
      dsimp only at h
      split_ifs at h with hexists
      · exact (newRound_eq_ok h).imp_left (List.mem_cons_of_mem _)
      · cases h
        exact ⟨List.mem_cons_self, hformat, Bool.eq_false_iff.mpr hexists⟩

theorem getReviewerNameAsPath_eq_ok {name : Text}
    (h : getReviewerNameAsPath u fs task reviewer = .ok name) : name = stringToPath u reviewer.name := by
  unfold getReviewerNameAsPath at h
  dsimp only at h
  split_ifs at h
  cases h
  rfl

theorem newRound_append {template : Text} {rounds : List ℕ} : ∀ {old : List ℕ},
    (∀ r ∈ old, ∃ path, format template [Nat.toDigits 10 r] = some path ∧ fs.pathExists path = true) →
      newRound fs template (old ++ rounds) = newRound fs template rounds
  | [], _ => rfl
  | r :: old, h => by
    obtain ⟨⟨path, hformat, hexists⟩, hold⟩ := List.forall_mem_cons.mp h
    rw [List.cons_append, newRound, hformat]
    dsimp only
    rw [if_pos hexists, newRound_append hold]

/-- The first round without a file is taken. -/
theorem newRound_range {template : Text} {path : ℕ → Text} {round n : ℕ} (hround : round < n)
    (hformat : ∀ r, format template [Nat.toDigits 10 r] = some (path r))
    (hold : ∀ r < round, fs.pathExists (path r) = true) (hnew : fs.pathExists (path round) = false) :
    newRound fs template (List.range n) = .ok (round, path round) := by
  obtain ⟨k, rfl⟩ := Nat.exists_eq_add_of_lt hround
  have hrange : List.range (round + k + 1) =
      List.range round ++ (List.range (k + 1)).map (round + ·) := by
    rw [Nat.add_assoc, List.range_add]
  rw [hrange, newRound_append fun r hr => ⟨path r, hformat r, hold r (List.mem_range.mp hr)⟩,
    List.range_succ_eq_map, List.map_cons, newRound, Nat.add_zero, hformat]
  dsimp only
  rw [hnew, if_neg Bool.false_ne_true]
  rfl

theorem review_eq_ok {round : ℕ} {path : Text}
    (h : review u fs task reviewer accept = .ok (round, path, fs')) :
    round < 1000 ∧ fs.pathExists path = false ∧
      fs' = addReview fs task path (reviewContents reviewer accept) ∧
      format (join task.reviewDir (nameTemplate (stringToPath u reviewer.name)))
        [Nat.toDigits 10 round] = some path := by
  unfold review at h
  split_ifs at h with hdir
  obtain ⟨name, hname, h⟩ := bind_eq_ok.mp h
  obtain ⟨template, htemplate, h⟩ := bind_eq_ok.mp h
  obtain ⟨⟨round', path'⟩, hnew, h⟩ := bind_eq_ok.mp h
  cases h
  cases getReviewerNameAsPath_eq_ok hname
  rw [reviewPathTemplate_eq] at htemplate
  cases htemplate
  obtain ⟨hrange, hformat, hexists⟩ := newRound_eq_ok hnew
  exact ⟨List.mem_range.mp hrange, hexists, rfl, hformat⟩

/-- The new file has the name of the reviewer and the round. -/
theorem basename_of_review {round : ℕ} {path : Text}
    (h : review u fs task reviewer accept = .ok (round, path, fs')) :
    basename path = reviewFileName (stringToPath u reviewer.name) (Nat.toDigits 10 round) :=
  basename_of_format (slash_notMem_stringToPath u _) (plain_stringToPath u _)
    (slash_notMem_toDigits round) (review_eq_ok h).2.2.2

/-- It is in the review directory, if the name of that has no braces. -/
theorem format_join (hplain : Plain (join task.reviewDir [])) (name : Text) (round : ℕ) :
    format (join task.reviewDir (nameTemplate (stringToPath u name))) [Nat.toDigits 10 round] =
      some (join task.reviewDir (reviewFileName (stringToPath u name) (Nat.toDigits 10 round))) := by
  have hslash := slash_notMem_stringToPath u name
  rw [join_eq _ (slash_notMem_nameTemplate hslash),
    join_eq _ (slash_notMem_reviewFileName hslash (slash_notMem_toDigits round)),
    format_append _ _ hplain, format_fileName (plain_stringToPath u name)]
  rfl

/-- A call goes through if the reviewer is not asked, and takes the first round without a file. -/
theorem review_of_plain (hdir : fs.pathExists task.reviewDir = true)
    (hplain : Plain (join task.reviewDir [])) {author : Text}
    (hauthor : author = stringToPath u reviewer.name)
    (hname : getReviewerNameAsPath u fs task reviewer = .ok author)
    {path : ℕ → Text}
    (hpath : ∀ r, path r = join task.reviewDir (reviewFileName author (Nat.toDigits 10 r)))
    {round : ℕ} (hround : round < 1000) (hold : ∀ r < round, fs.pathExists (path r) = true)
    (hnew : fs.pathExists (path round) = false) :
    review u fs task reviewer accept =
      .ok (round, path round, addReview fs task (path round) (reviewContents reviewer accept)) := by
  have hformat : ∀ r, format (join task.reviewDir (nameTemplate author)) [Nat.toDigits 10 r] =
      some (path r) := by
    intro r
    rw [hpath, hauthor, format_join hplain]
  have hrounds := newRound_range hround hformat hold hnew
  unfold review
  generalize List.range 1000 = rounds at hrounds ⊢
  rw [if_neg (not_not.mpr hdir)]
  refine bind_eq_ok.mpr ⟨author, hname, ?_⟩
  refine bind_eq_ok.mpr ⟨_, reviewPathTemplate_eq task author, ?_⟩
  exact bind_eq_ok.mpr ⟨_, hrounds, rfl⟩

/-! ### Every name and every round -/

/-- A call of `review` that went through. -/
structure Creation (u : Unicode) where
  before : FileSystem
  task : Task
  reviewer : Reviewer
  accept : Bool
  round : ℕ
  path : Text
  after : FileSystem
  created : review u before task reviewer accept = .ok (round, path, after)

def fixTask : Task := ⟨"fix".toList, "pm/reviews".toList⟩

def pathOf (author : Text) (round : ℕ) : Text :=
  join fixTask.reviewDir (reviewFileName author (Nat.toDigits 10 round))

theorem slash_notMem_fileName (u : Unicode) (name : Text) (round : ℕ) :
    '/' ∉ reviewFileName (stringToPath u name) (Nat.toDigits 10 round) :=
  slash_notMem_reviewFileName (slash_notMem_stringToPath u name) (slash_notMem_toDigits round)

/-- The files of a task with the reviews of one reviewer, up to a round. -/
def reviewedBy (u : Unicode) (name : Text) (round : ℕ) : FileSystem where
  files path := if path ∈ (List.range round).map (pathOf (stringToPath u name)) then some [] else none
  directories dir :=
    if dir = fixTask.reviewDir then
      some ((List.range round).map fun r => reviewFileName (stringToPath u name) (Nat.toDigits 10 r))
    else none
  walk dir :=
    if dir = fixTask.reviewsPath then (List.range round).map (pathOf (stringToPath u name)) else []
  names := by
    intro dir names h file hfile
    split_ifs at h
    cases h
    obtain ⟨r, -, rfl⟩ := List.mem_map.mp hfile
    exact slash_notMem_fileName u name r

theorem pathOf_eq (u : Unicode) (name : Text) (r : ℕ) : pathOf (stringToPath u name) r =
    "pm/reviews/fix/".toList ++ reviewFileName (stringToPath u name) (Nat.toDigits 10 r) :=
  join_eq fixTask.reviewDir (slash_notMem_fileName u name r)

theorem pathExists_pathOf (u : Unicode) (name : Text) (round r : ℕ) :
    (reviewedBy u name round).pathExists (pathOf (stringToPath u name) r) = decide (r < round) := by
  have hdir : pathOf (stringToPath u name) r ≠ fixTask.reviewDir := by
    intro heq
    have hlength := congrArg List.length (pathOf_eq u name r)
    rw [heq, List.length_append] at hlength
    have hdirLength : fixTask.reviewDir.length = 14 := rfl
    have hfront : "pm/reviews/fix/".toList.length = 15 := rfl
    omega
  have hmem : pathOf (stringToPath u name) r ∈ (List.range round).map (pathOf (stringToPath u name)) ↔
      r < round := by
    rw [List.mem_map]
    refine ⟨?_, fun hr => ⟨r, List.mem_range.mpr hr, rfl⟩⟩
    rintro ⟨r', hr', heq⟩
    rw [pathOf_eq, pathOf_eq] at heq
    exact round_inj (List.append_cancel_left heq) ▸ List.mem_range.mp hr'
  unfold FileSystem.pathExists FileSystem.isfile reviewedBy
  dsimp only
  rw [if_neg hdir]
  by_cases hr : r < round
  · rw [if_pos (hmem.mpr hr), decide_eq_true hr]
    rfl
  · rw [if_neg (mt hmem.mp hr), decide_eq_false hr]
    rfl

theorem pathExists_reviewDir (u : Unicode) (name : Text) (round : ℕ) :
    (reviewedBy u name round).pathExists fixTask.reviewDir = true := by
  have hdir : ((reviewedBy u name round).directories fixTask.reviewDir).isSome = true := rfl
  rw [FileSystem.pathExists, hdir, Bool.or_true]

/-- The call after those for the rounds before. -/
def Creation.inOrder (u : Unicode) (name : Text) (round : ℕ) (hround : round < 1000) : Creation u where
  before := reviewedBy u name round
  task := fixTask
  reviewer := ⟨name, [], fun _ _ => [], []⟩
  accept := true
  round := round
  path := pathOf (stringToPath u name) round
  after := _
  created := by
    refine review_of_plain (pathExists_reviewDir u name round) (by decide) rfl
      (if_neg fun h => h.2.1 rfl) (fun _ => rfl) hround ?_ ?_
    · exact fun r hr => (pathExists_pathOf u name round r).trans (decide_eq_true hr)
    · exact (pathExists_pathOf u name round round).trans (decide_eq_false (lt_irrefl _))

/-- There is such a call for every name and round. -/
theorem exists_creation (u : Unicode) (name : Text) {round : ℕ} (hround : round < 1000) :
    ∃ c : Creation u, c.reviewer.name = name ∧ c.round = round :=
  ⟨.inOrder u name round hround, rfl, rfl⟩

/-! ### Reading the names back -/

namespace Creation

variable (c : Creation u)

/-- The name of the reviewer in paths. -/
def author : Text := stringToPath u c.reviewer.name

/-- The file is read back as its author and round by both readers, and as no others. -/
structure RoundTrips : Prop where
  review : Review.init u c.after c.path = .ok ⟨c.path, c.author, c.round⟩
  reviewer : reviewerNameFromPath c.path = c.author
  distinct : ∀ d : Creation u, (d.author, d.round) ≠ (c.author, c.round) → d.path ≠ c.path ∧
    ∀ r, Review.init u d.after d.path = .ok r → (r.author, r.round) ≠ (c.author, (c.round : ℤ))

theorem basename_path : basename c.path = reviewFileName c.author (Nat.toDigits 10 c.round) :=
  basename_of_review c.created

theorem isfile_path : c.after.isfile c.path = true := by
  rw [(review_eq_ok c.created).2.2.1]
  exact isfile_addReview c.task _ c.basename_path

/-- Whatever the name, it is before the last but one full stop. -/
theorem reviewerNameFromPath_path : reviewerNameFromPath c.path = c.author :=
  reviewerNameFromPath_eq c.basename_path (stop_notMem_toDigits c.round)

/-- A round is a number, so a name is not made of full stops only. -/
theorem exists_ne_stop (author : Text) (round : ℕ) :
    ∃ ch ∈ author ++ '.' :: Nat.toDigits 10 round, ch ≠ '.' := by
  obtain ⟨ch, digits, hdigits⟩ := List.exists_cons_of_ne_nil (Nat.toDigits_ne_nil (n := round) (b := 10))
  have hmem : ch ∈ Nat.toDigits 10 round := hdigits ▸ List.mem_cons_self
  exact ⟨ch, List.mem_append_right _ (List.mem_cons_of_mem _ hmem), fun heq =>
    stop_notMem_toDigits round (heq ▸ hmem)⟩

theorem init_path (h : '.' ∉ c.author) :
    Review.init u c.after c.path = .ok ⟨c.path, c.author, c.round⟩ := by
  rw [init_eq c.isfile_path c.basename_path (exists_ne_stop _ _) h, int?_toDigits]

theorem init_path_of_stop (h : '.' ∈ c.author) : Review.init u c.after c.path = .error .valueError :=
  init_of_stop c.isfile_path c.basename_path (exists_ne_stop _ _) h

/-- A path belongs to one author and one round. -/
theorem eq_of_path_eq (d : Creation u) (h : d.path = c.path) :
    (d.author, d.round) = (c.author, c.round) := by
  have hauthor : d.author = c.author := by
    rw [← reviewerNameFromPath_path, ← reviewerNameFromPath_path, h]
  have hname := d.basename_path
  rw [h, c.basename_path, hauthor] at hname
  exact Prod.ext hauthor (round_inj hname).symm

/-- The names that `_Review` reads back are those without a full stop. -/
theorem roundTrips_iff : c.RoundTrips ↔ '.' ∉ c.reviewer.name := by
  rw [← stop_mem_stringToPath (u := u)]
  change _ ↔ '.' ∉ c.author
  constructor
  · intro h hstop
    have hreview := h.review
    rw [c.init_path_of_stop hstop] at hreview
    cases hreview
  · intro hstop
    refine ⟨c.init_path hstop, c.reviewerNameFromPath_path, fun d hne => ⟨?_, ?_⟩⟩
    · exact fun hpath => hne (c.eq_of_path_eq d hpath)
    · intro r hr heq
      by_cases hd : '.' ∈ d.author
      · rw [d.init_path_of_stop hd] at hr
        cases hr
      · rw [d.init_path hd] at hr
        cases hr
        obtain ⟨hauthor, hround⟩ := Prod.mk.inj heq
        exact hne (Prod.ext hauthor (Int.ofNat.inj hround))

def johnDoe : Creation ascii := inOrder ascii "J. Doe".toList 0 (by decide)

theorem not_roundTrips : johnDoe.path = "pm/reviews/fix/J._Doe.0.md".toList ∧
    Review.init ascii johnDoe.after johnDoe.path = .error .valueError ∧ ¬ johnDoe.RoundTrips := by
  have hvalueError : Review.init ascii johnDoe.after johnDoe.path = .error .valueError :=
    johnDoe.init_path_of_stop (by decide)
  refine ⟨by decide, hvalueError, fun h => ?_⟩
  rw [h.review] at hvalueError
  cases hvalueError

end Creation

end Echronos.Pm
