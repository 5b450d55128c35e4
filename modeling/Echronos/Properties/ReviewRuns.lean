import Echronos.Properties.ReviewGate
import Echronos.Properties.ReviewNames
import Echronos.Schemes.Run

/-! # The reviews of a task, from the request for them on

    Reviewers add rounds with `review` and complete them in an editor. As long as their names have no
    full stop, the review directory stays in order, and the gate is exact whenever it is asked. The
    first review under a name with a full stop shuts it, whatever the reviews conclude. -/

namespace Echronos.Pm

open Schemes

variable {u : Unicode} {fs fs' : FileSystem} {task : Task} {path name contents contents' : Text}

/-! ### Steps -/

inductive ReviewAct
  | review (reviewer : Reviewer) (accept : Bool)
  /-- A file of the review directory gets new contents. -/
  | edit (name contents : Text)

def reviewStep (u : Unicode) (task : Task) : ReviewAct → FileSystem → Option FileSystem
  | .review reviewer accept, fs =>
    match review u fs task reviewer accept with
    | .ok (_, _, fs') => some fs'
    | .error _ => none
  | .edit name contents, fs =>
    if name ∈ (fs.directories task.reviewDir).getD [] ∧ fs.isfile (join task.reviewDir name) then
      some (fs.write (join task.reviewDir name) contents)
    else none

/-- The file `name` of the review directory. -/
structure Holds (fs : FileSystem) (task : Task) (name contents : Text) : Prop where
  listed : ∃ names, fs.directories task.reviewDir = some names ∧ name ∈ names
  file : fs.files (join task.reviewDir name) = some contents

theorem Holds.slash_notMem (h : Holds fs task name contents) : '/' ∉ name := by
  obtain ⟨names, hnames, hname⟩ := h.listed
  exact fs.names _ _ hnames name hname

/-- What a step does: it adds a review, or it writes a file that is there. -/
theorem reviewStep_cases {a : ReviewAct} (h : reviewStep u task a fs = some fs') :
    (∃ reviewer accept round path, a = .review reviewer accept ∧
      review u fs task reviewer accept = .ok (round, path, fs')) ∨
    ∃ name contents old, a = .edit name contents ∧ Holds fs task name old ∧
      fs' = fs.write (join task.reviewDir name) contents := by
  cases a with
  | review reviewer accept =>
    rw [reviewStep] at h
    cases hreview : review u fs task reviewer accept with
    | error e =>
      rw [hreview] at h
      cases h
    | ok result =>
      obtain ⟨round, path, files⟩ := result
      rw [hreview] at h
      cases h
      exact .inl ⟨reviewer, accept, round, path, rfl, hreview⟩
  | edit name contents =>
    obtain ⟨⟨hname, hfile⟩, h⟩ := Option.ite_none_right_eq_some.mp h
    obtain ⟨old, hold⟩ := Option.isSome_iff_exists.mp hfile
    refine .inr ⟨name, contents, old, rfl, ⟨?_, hold⟩, (Option.some.inj h).symm⟩
    cases hnames : fs.directories task.reviewDir with
    | none =>
      rw [hnames] at hname
      cases hname
    | some names =>
      rw [hnames] at hname
      exact ⟨names, rfl, hname⟩

/-! ### The files that a step leaves -/

theorem holds_of_write (h : Holds (fs.write path contents) task name contents') :
    (name = basename path ∧ contents' = contents) ∨ Holds fs task name contents' := by
  have hslash := h.slash_notMem
  obtain ⟨⟨names', hnames', hname⟩, hfile⟩ := h
  obtain ⟨names, hnames, rfl⟩ := Option.map_eq_some_iff.mp hnames'
  rw [FileSystem.files_write] at hfile
  by_cases hpath : join task.reviewDir name = path
  · rw [hpath, Function.update_self] at hfile
    cases hfile
    exact .inl ⟨(basename_join _ hslash).symm.trans (congrArg basename hpath), rfl⟩
  · rw [Function.update_of_ne hpath] at hfile
    refine .inr ⟨⟨names, hnames, ?_⟩, hfile⟩
    split_ifs at hname with hnew
    · rcases List.mem_append.mp hname with hname | hname
      · exact hname
      · rw [List.mem_singleton.mp hname] at hpath
        exact absurd hnew.1 hpath
    · exact hname

theorem holds_of_remove (h : Holds (fs.remove path) task name contents) : Holds fs task name contents := by
  obtain ⟨⟨names', hnames', hname⟩, hfile⟩ := h
  obtain ⟨names, hnames, rfl⟩ := Option.map_eq_some_iff.mp hnames'
  rw [FileSystem.files_remove] at hfile
  by_cases hpath : join task.reviewDir name = path
  · rw [hpath, Function.update_self] at hfile
    cases hfile
  · rw [Function.update_of_ne hpath] at hfile
    refine ⟨⟨names, hnames, ?_⟩, hfile⟩
    split_ifs at hname
    · exact (List.mem_filter.mp hname).1
    · exact hname

theorem Holds.write (h : Holds fs task name contents) (path new : Text) :
    ∃ contents', Holds (fs.write path new) task name contents' := by
  obtain ⟨⟨names, hnames, hname⟩, hfile⟩ := h
  have hlisted : ∃ names', (fs.write path new).directories task.reviewDir = some names' ∧ name ∈ names' := by
    refine ⟨_, Option.map_eq_some_iff.mpr ⟨names, hnames, rfl⟩, ?_⟩
    split_ifs
    · exact List.mem_append_left _ hname
    · exact hname
  by_cases hpath : join task.reviewDir name = path
  · exact ⟨new, hlisted, by rw [FileSystem.files_write, hpath, Function.update_self]⟩
  · exact ⟨contents, hlisted, by rw [FileSystem.files_write, Function.update_of_ne hpath, hfile]⟩

theorem Holds.remove (h : Holds fs task name contents) (hpath : join task.reviewDir name ≠ path) :
    Holds (fs.remove path) task name contents := by
  obtain ⟨⟨names, hnames, hname⟩, hfile⟩ := h
  refine ⟨⟨_, Option.map_eq_some_iff.mpr ⟨names, hnames, rfl⟩, ?_⟩, ?_⟩
  · split_ifs with hdir
    · refine List.mem_filter.mpr ⟨hname, decide_eq_true fun heq => hpath ?_⟩
      rw [heq, hdir]
    · exact hname
  · rw [FileSystem.files_remove, Function.update_of_ne hpath, hfile]

/-- The placeholder is a hidden file. -/
theorem Holds.of_write (h : Holds (fs.write path contents) task name contents')
    (hhead : name.head? ≠ some '.') : Holds (addReview fs task path contents) task name contents' := by
  unfold addReview
  dsimp only
  split_ifs
  · refine h.remove fun heq => hhead ?_
    have hname := congrArg basename heq
    rw [basename_join _ h.slash_notMem] at hname
    rw [hname, basename_reviewPlaceholderPath]
    rfl
  · exact h

theorem holds_write (hdir : ∃ names, fs.directories task.reviewDir = some names) (hslash : '/' ∉ name)
    (contents : Text) : Holds (fs.write (join task.reviewDir name) contents) task name contents := by
  obtain ⟨names, hnames⟩ := hdir
  have hbasename : basename (join task.reviewDir name) = name := basename_join _ hslash
  refine ⟨⟨_, Option.map_eq_some_iff.mpr ⟨names, hnames, rfl⟩, ?_⟩, ?_⟩
  · rw [hbasename]
    split_ifs with hnew
    · exact List.mem_append_right _ List.mem_cons_self
    · exact by_contra fun hname => hnew ⟨rfl, hname⟩
  · rw [FileSystem.files_write, Function.update_self]

/-! ### Reviews in order -/

/-- The part of the template behind the first line. -/
def conclusionTemplate (accept : Bool) : Text :=
  if accept then "Conclusion: Accepted\n".toList
  else "Conclusion: Accepted/Rework\n\nLocation: filename:linenum\nComment:\n".toList

theorem reviewContents_eq (reviewer : Reviewer) (accept : Bool) : ∃ front,
    reviewContents reviewer accept = front ++ '\n' :: conclusionTemplate accept := by
  have hfirst : (if accept then ")\nConclusion: Accepted\n"
      else ")\nConclusion: Accepted/Rework\n\nLocation: filename:linenum\nComment:\n").toList =
      [')'] ++ '\n' :: conclusionTemplate accept := by
    cases accept
    all_goals decide +kernel
  refine ⟨"Reviewer: ".toList ++ reviewer.name ++ " (".toList ++ reviewer.email ++ [')'], ?_⟩
  unfold reviewContents
  rw [hfirst, List.append_assoc _ [')']]

/-- A review has a line for the conclusion from the start. -/
theorem exists_conclusion_reviewContents (reviewer : Reviewer) (accept : Bool) :
    ∃ line ∈ lines (reviewContents reviewer accept), conclusionTag <+: line := by
  have htemplate : ∃ line ∈ lines (conclusionTemplate accept), conclusionTag <+: line := by
    cases accept
    all_goals decide +kernel
  obtain ⟨line, hline, htag⟩ := htemplate
  obtain ⟨front, heq⟩ := reviewContents_eq reviewer accept
  obtain ⟨first, before, hlines⟩ := lines_append_cons (conclusionTemplate accept) front
  rw [heq, hlines]
  exact ⟨line, List.mem_cons_of_mem _ (List.mem_append_right _ hline), htag⟩

/-- A file as `review` names it, for an author without a full stop, with a conclusion. -/
def InOrder (name contents : Text) : Prop :=
  (∃ author round, name = reviewFileName author (Nat.toDigits 10 round) ∧ '.' ∉ author) ∧
    ∃ line ∈ lines contents, conclusionTag <+: line

/-- A review directory all of whose files are hidden or in order. -/
structure Tidy (fs : FileSystem) (task : Task) : Prop where
  directory : ∃ names, fs.directories task.reviewDir = some names
  files : ∀ name contents, Holds fs task name contents → name.head? ≠ some '.' → InOrder name contents

theorem reviewFileName_inj {author author' round round' : Text} (h : '.' ∉ author) (h' : '.' ∉ author')
    (heq : reviewFileName author round = reviewFileName author' round') :
    author = author' ∧ round = round' := by
  have hsplit := congrArg (splitFirst '.' 1) heq
  rw [reviewFileName, reviewFileName, splitFirst_append_cons 0 _ h, splitFirst_append_cons 0 _ h',
    splitFirst_zero, splitFirst_zero] at hsplit
  obtain ⟨hauthor, hrest⟩ := List.cons.inj hsplit
  exact ⟨hauthor, List.append_cancel_right (List.cons.inj hrest).1⟩

theorem IsReview.holds {author : Text} {round : ℤ} (h : IsReview u fs task name author round contents) :
    Holds fs task name contents := ⟨h.listed, h.file⟩

/-- The name of a review is the one that `review` gives it. -/
theorem Tidy.name_eq (h : Tidy fs task) {author : Text} {round : ℤ}
    (hreview : IsReview u fs task name author round contents) :
    ∃ r : ℕ, round = r ∧ name = reviewFileName author (Nat.toDigits 10 r) := by
  obtain ⟨⟨author', r, hname, hauthor'⟩, -⟩ := h.files name contents hreview.holds hreview.head?_ne
  obtain ⟨digits, hname', hround⟩ := hreview.named
  obtain ⟨rfl, rfl⟩ := reviewFileName_inj hreview.stop_notMem hauthor' (hname'.symm.trans hname)
  rw [int?_toDigits] at hround
  exact ⟨r, (Option.some.inj hround).symm, hname⟩

theorem Tidy.reviewDirectory (h : Tidy fs task) : ∃ names, ReviewDirectory u fs task names := by
  obtain ⟨names, hnames⟩ := h.directory
  refine ⟨names, hnames, ?_, ?_, ?_⟩
  · intro name hname contents hfile hhead
    have hlisted : ∃ names, fs.directories task.reviewDir = some names ∧ name ∈ names :=
      ⟨names, hnames, hname⟩
    obtain ⟨⟨author, round, rfl, hauthor⟩, -⟩ := h.files name contents ⟨hlisted, hfile⟩ hhead
    refine ⟨author, round, hlisted, hfile, ⟨_, rfl, int?_toDigits u round⟩, ?_, hauthor⟩
    rintro rfl
    exact hhead rfl
  · exact fun name author round contents hreview =>
      (h.files name contents hreview.holds hreview.head?_ne).2
  · intro name name' author round contents contents' hreview hreview'
    obtain ⟨r, hr, rfl⟩ := h.name_eq hreview
    obtain ⟨r', hr', rfl⟩ := h.name_eq hreview'
    rw [Int.ofNat.inj (hr.symm.trans hr')]

/-! ### Names without a full stop -/

theorem Tidy.write (h : Tidy fs task)
    (hnew : (basename path).head? ≠ some '.' → InOrder (basename path) contents) :
    Tidy (fs.write path contents) task := by
  obtain ⟨names, hnames⟩ := h.directory
  refine ⟨⟨_, Option.map_eq_some_iff.mpr ⟨names, hnames, rfl⟩⟩, ?_⟩
  intro name contents' hholds hhead
  rcases holds_of_write hholds with ⟨rfl, rfl⟩ | hold
  · exact hnew hhead
  · exact h.files name contents' hold hhead

theorem Tidy.remove (h : Tidy fs task) (path : Text) : Tidy (fs.remove path) task := by
  obtain ⟨names, hnames⟩ := h.directory
  refine ⟨⟨_, Option.map_eq_some_iff.mpr ⟨names, hnames, rfl⟩⟩, ?_⟩
  exact fun name contents hholds => h.files name contents (holds_of_remove hholds)

theorem Tidy.addReview (h : Tidy fs task) (hnew : InOrder (basename path) contents) :
    Tidy (addReview fs task path contents) task := by
  have hwrite := h.write fun _ => hnew
  unfold Pm.addReview
  dsimp only
  split_ifs
  · exact hwrite.remove _
  · exact hwrite

/-- Reviews come under names without a full stop, and edits leave a conclusion. -/
def Orderly : ReviewAct → FileSystem → Prop
  | .review reviewer _, _ => '.' ∉ reviewer.name
  | .edit _ contents, _ => ∃ line ∈ lines contents, conclusionTag <+: line

theorem Tidy.step {a : ReviewAct} (h : Tidy fs task) (ha : Orderly a fs)
    (hstep : reviewStep u task a fs = some fs') : Tidy fs' task := by
  rcases reviewStep_cases hstep with ⟨reviewer, accept, round, path, rfl, hreview⟩ |
    ⟨name, contents, old, rfl, hold, rfl⟩
  · obtain ⟨-, -, rfl, -⟩ := review_eq_ok hreview
    refine h.addReview ?_
    rw [basename_of_review hreview]
    exact ⟨⟨_, round, rfl, mt stop_mem_stringToPath.mp ha⟩,
      exists_conclusion_reviewContents reviewer accept⟩
  · refine h.write fun hhead => ?_
    rw [basename_join _ hold.slash_notMem] at hhead ⊢
    exact ⟨(h.files name old hold hhead).1, ha⟩

/-- A review directory without reviews, as `request_reviews` leaves it. -/
structure Requested (fs : FileSystem) (task : Task) : Prop where
  directory : ∃ names, fs.directories task.reviewDir = some names
  hidden : ∀ name contents, Holds fs task name contents → name.head? = some '.'

theorem Requested.tidy_of_reach {fs₀ : FileSystem} (hstart : Requested fs₀ task)
    (h : Reach (reviewStep u task) Orderly fs₀ fs) : Tidy fs task := by
  have hfirst : Tidy fs₀ task := by
    refine ⟨hstart.directory, fun name contents hholds hhead => ?_⟩
    exact absurd (hstart.hidden name contents hholds) hhead
  exact h.invariant (I := fun fs => Tidy fs task) hfirst fun _ _ _ _ hs ha hstep => hs.step ha hstep

/-- Whenever the task is integrated: the gate lets it through if everybody's last review accepts it. -/
theorem Requested.gate_iff {fs₀ : FileSystem} (hstart : Requested fs₀ task)
    (h : Reach (reviewStep u task) Orderly fs₀ fs) :
    checkIsAccepted u fs task = .ok ⟨⟩ ↔ Accepted u fs task := by
  obtain ⟨names, hdirectory⟩ := (hstart.tidy_of_reach h).reviewDirectory
  exact checkIsAccepted_iff hdirectory

/-- The step is a review under a name without a full stop. -/
def isOrderly : ReviewAct → Bool
  | .review reviewer _ => decide ('.' ∉ reviewer.name)
  | .edit _ _ => false

theorem orderly_of_isOrderly {a : ReviewAct} (fs : FileSystem) (h : isOrderly a = true) :
    Orderly a fs := by
  cases a with
  | review reviewer => exact of_decide_eq_true (p := '.' ∉ reviewer.name) h
  | edit => cases h

/-- Ann asks for changes in her first round, and accepts in her second. -/
def annAndBob : List ReviewAct :=
  let ann : Reviewer := ⟨"Ann".toList, [], fun _ _ => [], []⟩
  let bob : Reviewer := ⟨"Bob".toList, [], fun _ _ => [], []⟩
  [.review ann false, .review bob true, .review ann true]

theorem Requested.gate_iff_annAndBob : ∃ fs,
    Reach (reviewStep ascii fixTask) Orderly (reviewedBy ascii [] 0) fs ∧
      checkIsAccepted ascii fs fixTask = .ok ⟨⟩ ∧ Accepted ascii fs fixTask := by
  have hrequested : Requested (reviewedBy ascii [] 0) fixTask := by
    refine ⟨⟨[], rfl⟩, fun name contents hholds => ?_⟩
    obtain ⟨names, hnames, hname⟩ := hholds.listed
    obtain rfl : [] = names := Option.some.inj hnames
    cases hname
  have hrun : (run (reviewStep ascii fixTask) (fun a _ => isOrderly a) annAndBob
      (reviewedBy ascii [] 0)).any fun fs => checkIsAccepted ascii fs fixTask = .ok ⟨⟩ := by
    decide +kernel
  obtain ⟨fs, hfs, hp⟩ := exists_reach_of_run (fun _ _ fs h => orderly_of_isOrderly fs h) hrun
  have hok := of_decide_eq_true hp
  exact ⟨fs, hfs, hok, (hrequested.gate_iff hfs).mp hok⟩

/-! ### A name with a full stop -/

/-- A review by an author with a full stop, and not a hidden file. -/
def Shut (fs : FileSystem) (task : Task) : Prop :=
  ∃ author digits contents, Holds fs task (reviewFileName author digits) contents ∧ '.' ∈ author ∧
    author.head? ≠ some '.'

theorem head?_reviewFileName {author : Text} (digits : Text) (hauthor : author ≠ []) :
    (reviewFileName author digits).head? = author.head? := by
  obtain ⟨ch, rest, rfl⟩ := List.exists_cons_of_ne_nil hauthor
  rfl

theorem init_eq_error {e : TaskError} (hfile : fs.isfile path = true)
    (h : Review.init u fs path = .error e) : e = .valueError := by
  rw [Review.init, if_neg (not_not.mpr hfile)] at h
  split at h
  · split at h
    · cases h
    · exact (Except.error.inj h).symm
  · exact (Except.error.inj h).symm

/-- No conclusion is looked at. -/
theorem Shut.checkIsAccepted_eq (h : Shut fs task) : checkIsAccepted u fs task = .error .valueError := by
  obtain ⟨author, digits, contents, hholds, hstop, hhead⟩ := h
  have hslash := hholds.slash_notMem
  have hauthor : author ≠ [] := List.ne_nil_of_mem hstop
  obtain ⟨⟨names, hnames, hname⟩, hcontents⟩ := hholds
  have hfile : fs.isfile (join task.reviewDir (reviewFileName author digits)) = true := by
    rw [FileSystem.isfile, hcontents]
    rfl
  have hstem : ∃ ch ∈ author ++ '.' :: digits, ch ≠ '.' := by
    obtain ⟨ch, rest, rfl⟩ := List.exists_cons_of_ne_nil hauthor
    exact ⟨ch, List.mem_append_left _ List.mem_cons_self, fun heq => hhead (congrArg some heq)⟩
  have hread : reviewFileName author digits ∈ relativePaths fs task names := by
    rw [relativePaths, List.mem_filter, List.mem_insertionSort, decide_eq_true_iff]
    exact ⟨hname, hfile, head?_reviewFileName digits hauthor ▸ hhead⟩
  have hreviews : getReviews u fs task = .error .valueError := by
    rw [getReviews_eq hnames]
    refine mapM_eq_error ?_ ⟨_, hread, init_of_stop hfile (basename_join _ hslash) hstem hstop⟩
    intro relativePath hrelative e he
    rw [relativePaths, List.mem_filter, decide_eq_true_iff] at hrelative
    exact init_eq_error hrelative.2.1 he
  rw [checkIsAccepted, getMostRecentReviews, hreviews]
  rfl

theorem Shut.step {a : ReviewAct} (h : Shut fs task) (hstep : reviewStep u task a fs = some fs') :
    Shut fs' task := by
  obtain ⟨author, digits, contents, hholds, hstop, hhead⟩ := h
  rcases reviewStep_cases hstep with ⟨reviewer, accept, round, path, rfl, hreview⟩ |
    ⟨name, new, old, rfl, hold, rfl⟩
  · obtain ⟨-, -, rfl, -⟩ := review_eq_ok hreview
    have hname := head?_reviewFileName digits (List.ne_nil_of_mem hstop)
    obtain ⟨contents', hholds'⟩ := hholds.write path (reviewContents reviewer accept)
    exact ⟨author, digits, contents', hholds'.of_write (hname ▸ hhead), hstop, hhead⟩
  · obtain ⟨contents', hholds'⟩ := hholds.write (join task.reviewDir name) new
    exact ⟨author, digits, contents', hholds', hstop, hhead⟩

theorem Creation.shut (c : Creation u) (hdir : ∃ names, c.before.directories c.task.reviewDir = some names)
    (hplain : Plain (join c.task.reviewDir [])) (hstop : '.' ∈ c.author)
    (hhead : c.author.head? ≠ some '.') : Shut c.after c.task := by
  obtain ⟨-, -, hafter, hformat⟩ := review_eq_ok c.created
  rw [format_join hplain] at hformat
  have hpath := Option.some.inj hformat
  have hname := head?_reviewFileName (Nat.toDigits 10 c.round) (List.ne_nil_of_mem hstop)
  have hwrite := holds_write hdir (slash_notMem_fileName u c.reviewer.name c.round)
    (reviewContents c.reviewer c.accept)
  rw [hpath] at hwrite
  rw [hafter]
  exact ⟨c.author, _, _, hwrite.of_write (hname ▸ hhead), hstop, hhead⟩

/-- Once somebody has reviewed the task under such a name, it is never integrated. -/
theorem Creation.gate_shut (c : Creation u)
    (hdir : ∃ names, c.before.directories c.task.reviewDir = some names)
    (hplain : Plain (join c.task.reviewDir [])) (hstop : '.' ∈ c.author)
    (hhead : c.author.head? ≠ some '.') (h : Reach (reviewStep u c.task) (fun _ _ => True) c.after fs) :
    checkIsAccepted u fs c.task = .error .valueError := by
  have hshut : Shut fs c.task := h.invariant (I := fun fs => Shut fs c.task)
    (c.shut hdir hplain hstop hhead) fun _ _ _ _ hs _ hstep => hs.step hstep
  exact hshut.checkIsAccepted_eq

/-- Ann and Bob accept the task after `J. Doe` has. -/
theorem Creation.gate_shut_johnDoe : ∃ fs,
    Reach (reviewStep ascii johnDoe.task) (fun _ _ => True) johnDoe.after fs ∧
      checkIsAccepted ascii fs johnDoe.task = .error .valueError := by
  have hrun : (run (reviewStep ascii johnDoe.task) (fun _ _ => true) annAndBob johnDoe.after).any
      fun _ => true := by
    decide +kernel
  obtain ⟨fs, hfs, -⟩ := exists_reach_of_run (fun _ _ _ _ => trivial) hrun
  exact ⟨fs, hfs, johnDoe.gate_shut ⟨_, rfl⟩ (by decide) (by decide) (by decide) hfs⟩

end Echronos.Pm
