import Echronos.Pm.Review

/-! # When a task is accepted

    `_check_is_accepted` goes by the last review of each author: the one with the greatest round, in
    whatever order the directory lists the files. -/

namespace Echronos.Pm

open Schemes

variable {u : Unicode} {fs : FileSystem} {task : Task}

/-! ### Conclusions -/

def conclusionTag : Text := "Conclusion: ".toList

/-- The first conclusion in a review, up to a second colon. -/
def Concludes (contents value : Text) : Prop :=
  ∃ before rest after, lines contents = before ++ (conclusionTag ++ (value ++ rest)) :: after ∧
    (∀ line ∈ before, ¬ conclusionTag <+: line) ∧ ':' ∉ value ∧ (rest = [] ∨ rest.head? = some ':')

/-- The conclusion is one of the two words, in any case and between any white space. -/
def Accepts (u : Unicode) (contents : Text) : Prop :=
  ∃ value, Concludes contents value ∧ u.lower (strip u.isspace value) ∈ ["accept".toList, "accepted".toList]

theorem exists_concludes {contents : Text} (h : ∃ line ∈ lines contents, conclusionTag <+: line) :
    ∃ value, Concludes contents value := by
  have hfind : ((lines contents).find? fun line => conclusionTag.isPrefixOf line).isSome = true := by
    obtain ⟨line, hline, htag⟩ := h
    exact List.find?_isSome.mpr ⟨line, hline, List.isPrefixOf_iff_prefix.mpr htag⟩
  obtain ⟨line, hline⟩ := Option.isSome_iff_exists.mp hfind
  obtain ⟨htag, before, after, hlines, hbefore⟩ := List.find?_eq_some_iff_append.mp hline
  obtain ⟨tail, rfl⟩ := List.isPrefixOf_iff_prefix.mp htag
  have hfirst : ∀ line ∈ before, ¬ conclusionTag <+: line := by
    intro line hline htag
    have hnot := hbefore line hline
    rw [List.isPrefixOf_iff_prefix.mpr htag] at hnot
    cases hnot
  by_cases hcolon : ':' ∈ tail
  · obtain ⟨value, rest, rfl, hvalue⟩ := List.eq_append_cons_of_mem hcolon
    exact ⟨value, before, ':' :: rest, after, hlines, hfirst, hvalue, .inr rfl⟩
  · exact ⟨tail, before, [], after, by rw [hlines, List.append_nil], hfirst, hcolon, .inl rfl⟩

theorem strip_space (u : Unicode) (text : Text) : strip u.isspace (' ' :: text) = strip u.isspace text := by
  have hspace : u.isspace ' ' = true := (u.isspace_ascii ' ' (by decide)).mpr (.inl rfl)
  rw [strip, List.dropWhile_cons_of_pos hspace, strip]

/-- The second piece of the line. -/
theorem splitOn_conclusion {value rest : Text} (hvalue : ':' ∉ value)
    (hrest : rest = [] ∨ rest.head? = some ':') :
    ((conclusionTag ++ (value ++ rest)).splitOn ':')[1]? = some (' ' :: value) := by
  have hpiece : ':' ∉ ' ' :: value := fun hmem => (List.mem_cons.mp hmem).elim (by decide) hvalue
  have hline : conclusionTag ++ (value ++ rest) =
      "Conclusion".toList ++ ':' :: (' ' :: value ++ rest) := rfl
  rw [hline, List.splitOn_append_cons_self_of_not_mem (by decide)]
  rcases hrest with rfl | hhead
  · rw [List.append_nil, List.splitOn_eq_singleton hpiece]
    rfl
  · obtain ⟨rest, rfl⟩ := List.head?_eq_some_iff.mp hhead
    rw [List.splitOn_append_cons_self_of_not_mem hpiece]
    rfl

theorem conclusion_eq {review : Review} {contents value : Text}
    (hfile : fs.files review.filePath = some contents) (h : Concludes contents value) :
    review.conclusion u fs = .ok (u.lower (strip u.isspace value)) := by
  obtain ⟨before, rest, after, hlines, hbefore, hvalue, hrest⟩ := h
  have hfind : (lines contents).find? (fun line => "Conclusion: ".toList.isPrefixOf line) =
      some (conclusionTag ++ (value ++ rest)) := by
    refine List.find?_eq_some_iff_append.mpr ⟨?_, before, after, hlines, fun line hline => ?_⟩
    · exact List.isPrefixOf_iff_prefix.mpr (List.prefix_append _ _)
    · have hnot := mt List.isPrefixOf_iff_prefix.mp (hbefore line hline)
      exact Bool.not_eq_true' _ ▸ Bool.eq_false_iff.mpr hnot
  rw [Review.conclusion, hfile]
  dsimp only
  rw [hfind]
  dsimp only
  rw [splitOn_conclusion hvalue hrest]
  dsimp only
  rw [strip_space]
  rfl

theorem isAccepted_iff {review : Review} {contents : Text}
    (hfile : fs.files review.filePath = some contents)
    (hconclusion : ∃ line ∈ lines contents, conclusionTag <+: line) :
    review.isAccepted u fs = .ok true ↔ Accepts u contents := by
  obtain ⟨value, hvalue⟩ := exists_concludes hconclusion
  have hok := conclusion_eq (u := u) hfile hvalue
  have haccepted : review.isAccepted u fs =
      .ok (decide (u.lower (strip u.isspace value) ∈ ["accept".toList, "accepted".toList])) := by
    rw [Review.isAccepted, hok]
    rfl
  rw [haccepted]
  constructor
  · intro h
    exact ⟨value, hvalue, of_decide_eq_true (Except.ok.inj h)⟩
  · rintro ⟨value', hvalue', hmem⟩
    have hsame := Except.ok.inj (hok.symm.trans (conclusion_eq hfile hvalue'))
    rw [hsame, decide_eq_true hmem]

/-! ### Review directories -/

/-- A file of the review directory that is a review; a hidden file has no author. -/
structure IsReview (u : Unicode) (fs : FileSystem) (task : Task) (name author : Text) (round : ℤ)
    (contents : Text) : Prop where
  listed : ∃ names, fs.directories task.reviewDir = some names ∧ name ∈ names
  file : fs.files (join task.reviewDir name) = some contents
  named : ∃ digits, name = reviewFileName author digits ∧ int? u digits = some round
  author_ne_nil : author ≠ []
  stop_notMem : '.' ∉ author

/-- The files are reviews but for the hidden ones, and no two are the same author's of the same round. -/
structure ReviewDirectory (u : Unicode) (fs : FileSystem) (task : Task) (names : List Text) : Prop where
  directory : fs.directories task.reviewDir = some names
  reviews : ∀ name ∈ names, ∀ contents, fs.files (join task.reviewDir name) = some contents →
    name.head? ≠ some '.' → ∃ author round, IsReview u fs task name author round contents
  conclusions : ∀ name author round contents, IsReview u fs task name author round contents →
    ∃ line ∈ lines contents, conclusionTag <+: line
  distinct : ∀ name name' author round contents contents', IsReview u fs task name author round contents →
    IsReview u fs task name' author round contents' → name = name'

/-- Somebody who has reviewed the task. -/
def Reviewed (u : Unicode) (fs : FileSystem) (task : Task) (author : Text) : Prop :=
  ∃ name round contents, IsReview u fs task name author round contents

/-- The review with the greatest round of an author. -/
def IsLastReview (u : Unicode) (fs : FileSystem) (task : Task) (author : Text) (round : ℤ)
    (contents : Text) : Prop :=
  (∃ name, IsReview u fs task name author round contents) ∧
    ∀ name' round' contents', IsReview u fs task name' author round' contents' → round' ≤ round

variable {names : List Text} {name author contents : Text} {round : ℤ}

theorem IsReview.slash_notMem (h : IsReview u fs task name author round contents) : '/' ∉ name := by
  obtain ⟨names, hnames, hname⟩ := h.listed
  exact fs.names _ _ hnames name hname

theorem IsReview.exists_ne_stop (h : IsReview u fs task name author round contents) (digits : Text) :
    ∃ ch ∈ author ++ '.' :: digits, ch ≠ '.' := by
  obtain ⟨ch, rest, rfl⟩ := List.exists_cons_of_ne_nil h.author_ne_nil
  exact ⟨ch, List.mem_append_left _ List.mem_cons_self, fun heq =>
    h.stop_notMem (heq ▸ List.mem_cons_self)⟩

/-- A review is not hidden. -/
theorem IsReview.head?_ne (h : IsReview u fs task name author round contents) :
    name.head? ≠ some '.' := by
  obtain ⟨digits, rfl, -⟩ := h.named
  obtain ⟨ch, rest, rfl⟩ := List.exists_cons_of_ne_nil h.author_ne_nil
  exact fun heq => h.stop_notMem (Option.some.inj heq ▸ List.mem_cons_self)

theorem IsReview.init_eq (h : IsReview u fs task name author round contents) :
    Review.init u fs (join task.reviewDir name) = .ok ⟨join task.reviewDir name, author, round⟩ := by
  obtain ⟨digits, hname, hround⟩ := h.named
  have hfile : fs.isfile (join task.reviewDir name) = true := by
    rw [FileSystem.isfile, h.file]
    rfl
  have hbasename : basename (join task.reviewDir name) = reviewFileName author digits :=
    (basename_join _ h.slash_notMem).trans hname
  rw [Pm.init_eq hfile hbasename (h.exists_ne_stop digits) h.stop_notMem, hround]

/-- The files that `_get_reviews` reads are the reviews. -/
theorem mem_relativePaths (h : ReviewDirectory u fs task names) :
    name ∈ relativePaths fs task names ↔
      ∃ author round contents, IsReview u fs task name author round contents := by
  rw [relativePaths, List.mem_filter, List.mem_insertionSort, decide_eq_true_iff]
  constructor
  · rintro ⟨hname, hfile, hhead⟩
    obtain ⟨contents, hcontents⟩ := Option.isSome_iff_exists.mp hfile
    obtain ⟨author, round, hreview⟩ := h.reviews name hname contents hcontents hhead
    exact ⟨author, round, contents, hreview⟩
  · rintro ⟨author, round, contents, hreview⟩
    obtain ⟨names', hnames', hname⟩ := hreview.listed
    rw [h.directory] at hnames'
    cases hnames'
    refine ⟨hname, ?_, hreview.head?_ne⟩
    rw [FileSystem.isfile, hreview.file]
    rfl

theorem getReviews_eq (hdirectory : fs.directories task.reviewDir = some names) :
    getReviews u fs task = (relativePaths fs task names).mapM fun relativePath =>
      Review.init u fs (join task.reviewDir relativePath) := by
  rw [getReviews, hdirectory]

/-- What `_get_reviews` returns. -/
def Collects (u : Unicode) (fs : FileSystem) (task : Task) (reviews : List Review) : Prop :=
  ∀ r, r ∈ reviews ↔ ∃ name contents, IsReview u fs task name r.author r.round contents ∧
    r.filePath = join task.reviewDir name

theorem getReviews_eq_ok (h : ReviewDirectory u fs task names) :
    ∃ reviews, getReviews u fs task = .ok reviews ∧ Collects u fs task reviews := by
  have hinit : ∀ name ∈ relativePaths fs task names,
      ∃ r, Review.init u fs (join task.reviewDir name) = .ok r := by
    intro name hname
    obtain ⟨author, round, contents, hreview⟩ := (mem_relativePaths h).mp hname
    exact ⟨_, hreview.init_eq⟩
  obtain ⟨reviews, hreviews⟩ := exists_mapM_eq_ok hinit
  refine ⟨reviews, (getReviews_eq h.directory).trans hreviews, fun r => (mem_of_mapM hreviews r).trans ?_⟩
  constructor
  · rintro ⟨name, hname, hr⟩
    obtain ⟨author, round, contents, hreview⟩ := (mem_relativePaths h).mp hname
    cases hr.symm.trans hreview.init_eq
    exact ⟨name, contents, hreview, rfl⟩
  · rintro ⟨name, contents, hreview, hpath⟩
    refine ⟨name, (mem_relativePaths h).mpr ⟨_, _, _, hreview⟩, ?_⟩
    rw [hreview.init_eq, ← hpath]

/-! ### The last reviews -/

namespace Collects

variable {reviews : List Review} {r : Review}

theorem inj (hc : Collects u fs task reviews) (h : ReviewDirectory u fs task names) :
    ∀ r ∈ reviews, ∀ r' ∈ reviews, r.author = r'.author → r.round = r'.round → r = r' := by
  rintro ⟨path, author, round⟩ hr ⟨path', author', round'⟩ hr' hauthor hround
  obtain ⟨name, contents, hname, rfl⟩ := (hc _).mp hr
  obtain ⟨name', contents', hname', rfl⟩ := (hc _).mp hr'
  cases hauthor
  cases hround
  rw [h.distinct name name' author round contents contents' hname hname']

theorem reviewed_iff (hc : Collects u fs task reviews) :
    Reviewed u fs task author ↔ ∃ r ∈ reviews, r.author = author := by
  constructor
  · rintro ⟨name, round, contents, hname⟩
    exact ⟨⟨_, author, round⟩, (hc _).mpr ⟨name, contents, hname, rfl⟩, rfl⟩
  · rintro ⟨r, hr, rfl⟩
    obtain ⟨name, contents, hname, -⟩ := (hc r).mp hr
    exact ⟨name, r.round, contents, hname⟩

theorem isLastReview (hc : Collects u fs task reviews)
    (h : IsLatest Review.author Review.round reviews r) : ∃ contents,
      fs.files r.filePath = some contents ∧ IsLastReview u fs task r.author r.round contents := by
  obtain ⟨hr, hle⟩ := h
  obtain ⟨name, contents, hname, hpath⟩ := (hc r).mp hr
  refine ⟨contents, hpath ▸ hname.file, ⟨name, hname⟩, ?_⟩
  intro name' round' contents' hname'
  exact hle ⟨_, r.author, round'⟩ ((hc _).mpr ⟨name', contents', hname', rfl⟩) rfl

theorem exists_isLatest (hc : Collects u fs task reviews)
    (h : IsLastReview u fs task author round contents) :
    ∃ r, IsLatest Review.author Review.round reviews r ∧ r.author = author ∧
      fs.files r.filePath = some contents := by
  obtain ⟨⟨name, hname⟩, hle⟩ := h
  refine ⟨⟨_, author, round⟩, ⟨(hc _).mpr ⟨name, contents, hname, rfl⟩, ?_⟩, rfl, hname.file⟩
  intro r hr hauthor
  obtain ⟨name', contents', hname', -⟩ := (hc r).mp hr
  change r.author = author at hauthor
  rw [hauthor] at hname'
  exact hle name' r.round contents' hname'

end Collects

theorem checkReview_eq_ok {r : Review} :
    checkReview u fs task r = .ok ⟨⟩ ↔ r.isAccepted u fs = .ok true := by
  constructor
  · intro h
    obtain ⟨accepted, haccepted, h⟩ := bind_eq_ok.mp h
    cases accepted with
    | false => cases h
    | true => exact haccepted
  · exact fun h => bind_eq_ok.mpr ⟨true, h, rfl⟩

theorem checkIsAccepted_eq_ok {kept : List Review} (hkept : getMostRecentReviews u fs task = .ok kept) :
    checkIsAccepted u fs task = .ok ⟨⟩ ↔ 2 ≤ kept.length ∧ ∀ r ∈ kept, r.isAccepted u fs = .ok true := by
  constructor
  · intro h
    obtain ⟨kept', hkept', h⟩ := bind_eq_ok.mp h
    cases hkept.symm.trans hkept'
    split_ifs at h with hnil hlength
    · obtain ⟨_, _, h⟩ := bind_eq_ok.mp h
      cases h
    obtain ⟨_, hforM, _⟩ := bind_eq_ok.mp h
    exact ⟨not_lt.mp hlength, fun r hr => checkReview_eq_ok.mp (forM_eq_ok.mp hforM r hr)⟩
  · rintro ⟨hlength, haccepted⟩
    have hnil : kept ≠ [] := by
      rintro rfl
      exact absurd hlength (by decide)
    refine bind_eq_ok.mpr ⟨kept, hkept, ?_⟩
    rw [if_neg hnil]
    refine bind_eq_ok.mpr ⟨⟨⟩, forM_eq_ok.mpr fun r hr => checkReview_eq_ok.mpr (haccepted r hr), ?_⟩
    exact if_neg (not_lt.mpr hlength)

/-- Everybody's last review accepts the task, and there are two reviewers at least. -/
def Accepted (u : Unicode) (fs : FileSystem) (task : Task) : Prop :=
  (∃ a b, a ≠ b ∧ Reviewed u fs task a ∧ Reviewed u fs task b) ∧
    ∀ author round contents, IsLastReview u fs task author round contents → Accepts u contents

theorem checkIsAccepted_iff (h : ReviewDirectory u fs task names) :
    checkIsAccepted u fs task = .ok ⟨⟩ ↔ Accepted u fs task := by
  obtain ⟨reviews, hreviews, hc⟩ := getReviews_eq_ok h
  have hlatest : Latest Review.author Review.round reviews _ := latest_foldl reviews
  rw [checkIsAccepted_eq_ok (bind_eq_ok.mpr ⟨reviews, hreviews, rfl⟩), hlatest.two_le_length_iff]
  refine and_congr ⟨?_, ?_⟩ ⟨?_, ?_⟩
  · rintro ⟨r, hr, r', hr', hne⟩
    exact ⟨r.author, r'.author, hne, hc.reviewed_iff.mpr ⟨r, hr, rfl⟩, hc.reviewed_iff.mpr ⟨r', hr', rfl⟩⟩
  · rintro ⟨a, b, hne, ha, hb⟩
    obtain ⟨r, hr, rfl⟩ := hc.reviewed_iff.mp ha
    obtain ⟨r', hr', rfl⟩ := hc.reviewed_iff.mp hb
    exact ⟨r, hr, r', hr', hne⟩
  · intro haccepted author round contents hlast
    obtain ⟨name, hname⟩ := hlast.1
    obtain ⟨r, hr, -, hfile⟩ := hc.exists_isLatest hlast
    exact (isAccepted_iff hfile (h.conclusions _ _ _ _ hname)).mp
      (haccepted r ((hlatest.mem_iff (hc.inj h)).mpr hr))
  · intro haccepts r hr
    obtain ⟨contents, hfile, hlast⟩ := hc.isLastReview (hlatest.isLatest hr)
    obtain ⟨name, hname⟩ := hlast.1
    exact (isAccepted_iff hfile (h.conclusions _ _ _ _ hname)).mpr (haccepts _ _ _ hlast)

/-! ### What has no influence -/

/-- Whoever has reviewed the task has a last review. -/
theorem reviewed_iff_exists_isLastReview (h : ReviewDirectory u fs task names) :
    Reviewed u fs task author ↔ ∃ round contents, IsLastReview u fs task author round contents := by
  constructor
  · intro hauthor
    obtain ⟨reviews, -, hc⟩ := getReviews_eq_ok h
    obtain ⟨r, hr, rfl⟩ := hc.reviewed_iff.mp hauthor
    have hlatest : Latest Review.author Review.round reviews _ := latest_foldl reviews
    obtain ⟨b, hb, hkey, -⟩ := hlatest.covers r hr
    obtain ⟨contents, -, hlast⟩ := hc.isLastReview (hlatest.isLatest hb)
    exact ⟨b.round, contents, hkey ▸ hlast⟩
  · rintro ⟨round, contents, ⟨name, hname⟩, -⟩
    exact ⟨name, round, contents, hname⟩

variable {fs' : FileSystem} {task' : Task} {names' : List Text}

theorem accepted_congr (h : ReviewDirectory u fs task names) (h' : ReviewDirectory u fs' task' names')
    (hlast : ∀ author round contents,
      IsLastReview u fs task author round contents ↔ IsLastReview u fs' task' author round contents) :
    Accepted u fs task ↔ Accepted u fs' task' := by
  have hreviewed : ∀ author, Reviewed u fs task author ↔ Reviewed u fs' task' author := by
    intro author
    rw [reviewed_iff_exists_isLastReview h, reviewed_iff_exists_isLastReview h']
    simp only [hlast]
  simp only [Accepted, hreviewed, hlast]

theorem isfile_congr (hfiles : fs'.files = fs.files) : fs'.isfile = fs.isfile := by
  funext path
  rw [FileSystem.isfile, FileSystem.isfile, hfiles]

theorem relativePaths_perm (hfiles : fs'.files = fs.files) (hperm : names'.Perm names) :
    relativePaths fs' task names' = relativePaths fs task names := by
  have hsort : names'.insertionSort (· ≤ ·) = names.insertionSort (· ≤ ·) := by
    have hsorted := (List.perm_insertionSort (· ≤ ·) names').trans
      (hperm.trans (List.perm_insertionSort (· ≤ ·) names).symm)
    exact hsorted.eq_of_pairwise (fun a b _ _ hab hba => le_antisymm hab hba)
      (List.pairwise_insertionSort _ _) (List.pairwise_insertionSort _ _)
  unfold relativePaths
  rw [hsort, isfile_congr hfiles]

theorem init_congr (hfiles : fs'.files = fs.files) (path : Text) :
    Review.init u fs' path = Review.init u fs path := by
  unfold Review.init
  rw [isfile_congr hfiles]

/-- The outcome, with the error if there is one, is the same for every order of the directory. -/
theorem checkIsAccepted_perm (hdir : fs.directories task.reviewDir = some names)
    (hdir' : fs'.directories task.reviewDir = some names') (hfiles : fs'.files = fs.files)
    (hperm : names'.Perm names) : checkIsAccepted u fs' task = checkIsAccepted u fs task := by
  have hreviews : getMostRecentReviews u fs' task = getMostRecentReviews u fs task := by
    rw [getMostRecentReviews, getMostRecentReviews, getReviews_eq hdir, getReviews_eq hdir',
      relativePaths_perm hfiles hperm]
    simp only [init_congr hfiles]
  have hcheck : checkReview u fs' task = checkReview u fs task := by
    funext r
    simp only [checkReview, Review.isAccepted, Review.conclusion, hfiles]
  rw [checkIsAccepted, checkIsAccepted, hreviews, hcheck]

/-- The gate: two reviewers at least, and each of them accepts in the last round; what came in earlier
    rounds does not count, nor the order of the directory. -/
theorem gate_exact (h : ReviewDirectory u fs task names) :
    (checkIsAccepted u fs task = .ok ⟨⟩ ↔ Accepted u fs task) ∧
    (∀ fs' task' names', ReviewDirectory u fs' task' names' → (∀ author round contents,
      IsLastReview u fs task author round contents ↔ IsLastReview u fs' task' author round contents) →
      (checkIsAccepted u fs task = .ok ⟨⟩ ↔ checkIsAccepted u fs' task' = .ok ⟨⟩)) ∧
    ∀ fs' names', fs'.directories task.reviewDir = some names' → fs'.files = fs.files →
      names'.Perm names → checkIsAccepted u fs' task = checkIsAccepted u fs task := by
  refine ⟨checkIsAccepted_iff h, ?_, ?_⟩
  · intro fs' task' names' h' hlast
    rw [checkIsAccepted_iff h, checkIsAccepted_iff h', accepted_congr h h' hlast]
  · exact fun fs' names' hdir' hfiles hperm => checkIsAccepted_perm h.directory hdir' hfiles hperm

/-! ### Round 10 comes after round 2 -/

def timerTask : Task := ⟨"timer".toList, "pm/reviews".toList⟩

def timerNames : List Text :=
  [".placeholder".toList, "Bob.0.md".toList, "Ann.10.md".toList, "Ann.2.md".toList]

def timerFiles : FileSystem where
  files path :=
    if path = "pm/reviews/timer/Ann.2.md".toList then some "Conclusion: Rework\n".toList
    else if path = "pm/reviews/timer/Ann.10.md".toList then some "Conclusion: Accepted\n".toList
    else if path = "pm/reviews/timer/Bob.0.md".toList then some "Conclusion: accept\n".toList
    else none
  directories dir := if dir = "pm/reviews/timer".toList then some timerNames else none
  walk _ := []
  names := by
    intro dir names h
    split_ifs at h
    cases h
    decide

/-- The author and the round that a name gives. -/
def timerKey (name : Text) : Except TaskError (Text × ℤ) :=
  (Review.init ascii timerFiles (join timerTask.reviewDir name)).map fun r => (r.author, r.round)

theorem timer_review (hname : name ∈ timerNames)
    (hfile : timerFiles.files (join timerTask.reviewDir name) = some contents) :
    (∃ author round, IsReview ascii timerFiles timerTask name author round contents) ∧
      ∃ line ∈ lines contents, conclusionTag <+: line := by
  have hlisted : ∃ names, timerFiles.directories timerTask.reviewDir = some names ∧ name ∈ names :=
    ⟨timerNames, by decide, hname⟩
  have hname' := hname
  simp only [timerNames, List.mem_cons, List.not_mem_nil, or_false] at hname'
  rcases hname' with rfl | rfl | rfl | rfl
  · have hnone : timerFiles.files (join timerTask.reviewDir ".placeholder".toList) = none := by decide
    cases hnone.symm.trans hfile
  · have hbob : timerFiles.files (join timerTask.reviewDir "Bob.0.md".toList) =
        some "Conclusion: accept\n".toList := by decide
    cases hbob.symm.trans hfile
    refine ⟨⟨"Bob".toList, 0, hlisted, hfile, ⟨"0".toList, ?_, ?_⟩, ?_, ?_⟩, ?_⟩
    all_goals decide
  · have hann : timerFiles.files (join timerTask.reviewDir "Ann.10.md".toList) =
        some "Conclusion: Accepted\n".toList := by decide
    cases hann.symm.trans hfile
    refine ⟨⟨"Ann".toList, 10, hlisted, hfile, ⟨"10".toList, ?_, ?_⟩, ?_, ?_⟩, ?_⟩
    all_goals decide
  · have hann : timerFiles.files (join timerTask.reviewDir "Ann.2.md".toList) =
        some "Conclusion: Rework\n".toList := by decide
    cases hann.symm.trans hfile
    refine ⟨⟨"Ann".toList, 2, hlisted, hfile, ⟨"2".toList, ?_, ?_⟩, ?_, ?_⟩, ?_⟩
    all_goals decide

theorem mem_timerNames {author : Text} {round : ℤ}
    (h : IsReview ascii timerFiles timerTask name author round contents) : name ∈ timerNames := by
  obtain ⟨names, hnames, hname⟩ := h.listed
  cases hnames
  exact hname

theorem reviewDirectory_timer : ReviewDirectory ascii timerFiles timerTask timerNames where
  directory := by decide
  reviews name hname contents hfile _ := (timer_review hname hfile).1
  conclusions name author round contents h := (timer_review (mem_timerNames h) h.file).2
  distinct := by
    intro name name' author round contents contents' h h'
    have hkey : ∀ {name contents}, IsReview ascii timerFiles timerTask name author round contents →
        timerKey name = .ok (author, round) := by
      intro name contents h
      rw [timerKey, h.init_eq]
      rfl
    have hnodup : (timerNames.map timerKey).Nodup := by decide +kernel
    exact List.inj_on_of_nodup_map hnodup (mem_timerNames h) (mem_timerNames h')
      ((hkey h).trans (hkey h').symm)

/-- The last review of either reviewer accepts the task, and so does the gate. -/
theorem gate_exact_timer : Accepted ascii timerFiles timerTask :=
  (gate_exact reviewDirectory_timer).1.mp (by decide +kernel)

end Echronos.Pm
