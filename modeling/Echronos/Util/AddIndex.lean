import Echronos.Schemes.Except
import Echronos.Xml.Value
import Mathlib.Data.List.Perm.Subperm

/-! # `util.add_index` on the dictionaries themselves

    The list holds references to dictionaries. The generator of the dictionaries without an index is
    evaluated while the loop that consumes it adds indexes to them. -/

namespace Echronos.Util

open Schemes Xml

variable {Ref : Type*} [DecidableEq Ref]

/-- The loop over `zip(dicts_without_index, new_indexes)`. The generator looks at a dictionary only
    when the loop has come to it. -/
def assign (key : String) : List Ref → List ℤ → (Ref → Dict) → Ref → Dict
  | [], _, dicts => dicts
  | d :: lst, newIndexes, dicts =>
    if (given? key (dicts d)).isSome then assign key lst newIndexes dicts
    else
      match newIndexes with
      | [] => dicts
      | i :: is => assign key lst is (Function.update dicts d (Assoc.set key (.int i) (dicts d)))

/-- `add_index`: how it ends, and what becomes of the list and of all dictionaries. -/
def addIndex (key : String) (lst : List Ref) (dicts : Ref → Dict) :
    Except Exn Unit × List Ref × (Ref → Dict) :=
  match checkIndexes (lst.filterMap fun d => given? key (dicts d)) lst.length with
  | .error e => (.error e, lst, dicts)
  | .ok indexes =>
    let dicts' := assign key lst (newIndexes indexes lst.length) dicts
    (.ok (), lst.insertionSort fun d e => indexOf key (.dict (dicts' d)) ≤ indexOf key (.dict (dicts' e)),
      dicts')

/-! ### The checks -/

variable {given : List Value} {indexes : List ℤ} {length : ℕ}

/-- The indexes that the range check lets through. -/
theorem outOfRange_eq_nil (h : given.mapM toIndex = .ok indexes) :
    outOfRange given length = [] ↔ ∀ i ∈ indexes, 0 ≤ i ∧ i < length := by
  rw [outOfRange, List.filter_eq_nil_iff]
  constructor
  · intro hnone i hi
    obtain ⟨v, hv, hvi⟩ := (mem_of_mapM h i).mp hi
    have := hnone v hv
    simp only [hvi, decide_eq_true_eq] at this
    omega
  · intro hrange v hv
    obtain ⟨i, hi, hvi⟩ := ok_of_mapM h v hv
    have := hrange i hi
    simp only [hvi, decide_eq_true_eq]
    omega

theorem checkIndexes_eq_ok : checkIndexes given length = .ok indexes ↔
    given.mapM toIndex = .ok indexes ∧ (∀ i ∈ indexes, 0 ≤ i ∧ i < length) ∧ indexes.Nodup := by
  rw [checkIndexes, bind_eq_ok]
  constructor
  · rintro ⟨is, his, h⟩
    dsimp only at h
    split_ifs at h with hrange hnodup
    · cases h
      exact ⟨his, (outOfRange_eq_nil his).mp (not_not.mp hrange), hnodup⟩
  · rintro ⟨his, hrange, hnodup⟩
    refine ⟨indexes, his, ?_⟩
    rw [if_neg (not_not.mpr ((outOfRange_eq_nil his).mpr hrange)), if_neg (not_not.mpr hnodup)]
    rfl

/-- Numbers that do not pass are a `ValueError`. -/
theorem checkIndexes_error (h : given.mapM toIndex = .ok indexes)
    (hfail : ¬ ((∀ i ∈ indexes, 0 ≤ i ∧ i < length) ∧ indexes.Nodup)) :
    ∃ msg, checkIndexes given length = .error (.valueError msg) := by
  have hcheck : ∀ is, checkIndexes given length ≠ .ok is := by
    intro is his
    obtain ⟨his, hpass⟩ := checkIndexes_eq_ok.mp his
    cases h.symm.trans his
    exact hfail hpass
  rw [checkIndexes, h] at hcheck ⊢
  simp only [bind, Except.bind] at hcheck ⊢
  split_ifs at hcheck ⊢ with hrange hnodup
  · exact ⟨_, rfl⟩
  · exact absurd rfl (hcheck _)
  · exact ⟨_, rfl⟩

/-! ### The new indexes -/

/-- The indexes that are given and the new ones are all indexes of the list. -/
theorem append_newIndexes_perm (hrange : ∀ i ∈ indexes, 0 ≤ i ∧ i < length) (hnodup : indexes.Nodup) :
    (indexes ++ newIndexes indexes length).Perm ((List.range length).map fun i : ℕ => (i : ℤ)) := by
  rw [newIndexes, ← List.diff_eq_foldl]
  refine List.subperm_append_diff_self_of_count_le fun i hi => ?_
  obtain ⟨hpos, hlt⟩ := hrange i hi
  have hmem : i ∈ (List.range length).map fun i : ℕ => (i : ℤ) :=
    List.mem_map.mpr ⟨i.toNat, List.mem_range.mpr (by omega), by omega⟩
  rw [List.count_eq_one_of_mem hnodup hi]
  exact List.one_le_count_iff.mpr hmem

/-- They are in ascending order. -/
theorem pairwise_newIndexes : (newIndexes indexes length).Pairwise (· < ·) := by
  rw [newIndexes, ← List.diff_eq_foldl]
  refine List.Pairwise.sublist (List.diff_sublist _ _) (List.Pairwise.map _ ?_ List.pairwise_lt_range)
  exact fun _ _ h => Int.ofNat_lt.mpr h

/-! ### The loop -/

variable {key : String} {lst : List Ref} {dicts : Ref → Dict} {d : Ref} {is : List ℤ}

/-- The dictionaries without an index. -/
def unindexed (key : String) (dicts : Ref → Dict) (lst : List Ref) : List Ref :=
  lst.filter fun d => (given? key (dicts d)).isNone

theorem assign_cons_some {v : Value} (h : given? key (dicts d) = some v) :
    assign key (d :: lst) is dicts = assign key lst is dicts := by
  rw [assign.eq_def]
  exact if_pos (Option.isSome_of_eq_some h)

theorem assign_cons_none {i : ℤ} (h : given? key (dicts d) = none) :
    assign key (d :: lst) (i :: is) dicts =
      assign key lst is (Function.update dicts d (Assoc.set key (.int i) (dicts d))) := by
  rw [assign.eq_def]
  exact if_neg (by rw [h]; decide)

theorem assign_nil : ∀ {lst : List Ref}, assign key lst [] dicts = dicts
  | [] => rfl
  | d :: lst => by
    rw [assign.eq_def]
    dsimp only
    split
    · exact assign_nil
    · rfl

theorem lookup_zip_eq_none {refs : List Ref} (h : d ∉ refs) : (refs.zip is).lookup d = none := by
  rw [List.lookup_eq_none_iff]
  intro x hx
  have hdx : d ≠ x.1 := fun heq => h (by rw [heq]; exact (List.of_mem_zip hx).1)
  exact bne_iff_ne.mpr hdx

/-- What the loop does if it comes to no dictionary twice: each without an index gets the next one. -/
theorem assign_eq : ∀ {lst : List Ref} {is : List ℤ} {dicts : Ref → Dict},
    (unindexed key dicts lst).Nodup → is.length = (unindexed key dicts lst).length → ∀ d,
    assign key lst is dicts d =
      match ((unindexed key dicts lst).zip is).lookup d with
      | some i => Assoc.set key (.int i) (dicts d)
      | none => dicts d
  | [], _, _, _, _, _ => rfl
  | e :: lst, is, dicts, hnodup, hlength, d => by
    cases he : given? key (dicts e) with
    | some v =>
      have hrest : unindexed key dicts (e :: lst) = unindexed key dicts lst := by
        simp [unindexed, he]
      rw [assign_cons_some he]
      rw [hrest] at hnodup hlength ⊢
      exact assign_eq hnodup hlength d
    | none =>
      have hrest : unindexed key dicts (e :: lst) = e :: unindexed key dicts lst := by
        simp [unindexed, he]
      rw [hrest] at hnodup hlength ⊢
      obtain ⟨hne, hnodup⟩ := List.nodup_cons.mp hnodup
      cases is with
      | nil => cases hlength
      | cons i is =>
        have hother : ∀ e' ∈ lst, e' ≠ e := by
          rintro e' he' rfl
          exact hne (List.mem_filter.mpr ⟨he', by simp [he]⟩)
        have hsame : unindexed key (Function.update dicts e (Assoc.set key (.int i) (dicts e))) lst =
            unindexed key dicts lst :=
          List.filter_congr fun e' he' => by rw [Function.update_of_ne (hother e' he')]
        have hlength' : is.length = (unindexed key
            (Function.update dicts e (Assoc.set key (.int i) (dicts e))) lst).length := by
          rw [hsame]
          exact Nat.succ.inj hlength
        have ih := assign_eq (hsame ▸ hnodup) hlength' d
        rw [hsame] at ih
        rw [assign_cons_none he, List.zip_cons_cons, ih]
        by_cases hd : d = e
        · subst hd
          rw [lookup_zip_eq_none hne, List.lookup_cons_self, Function.update_self]
        · rw [List.lookup_cons, beq_eq_false_iff_ne.mpr hd, Function.update_of_ne hd]

/-- A list of distinct references, zipped, gives each its own. -/
theorem map_lookup_zip : ∀ {refs : List Ref} {is : List ℤ}, refs.Nodup → is.length = refs.length →
    refs.map (fun d => (refs.zip is).lookup d) = is.map some
  | [], [], _, _ => rfl
  | e :: refs, i :: is, hnodup, hlength => by
    obtain ⟨hne, hnodup⟩ := List.nodup_cons.mp hnodup
    rw [List.map_cons, List.map_cons, List.zip_cons_cons, List.lookup_cons_self,
      ← map_lookup_zip hnodup (Nat.succ.inj hlength)]
    refine congrArg _ (List.map_congr_left fun d hd => ?_)
    have hde : d ≠ e := fun heq => hne (heq ▸ hd)
    rw [List.lookup_cons, beq_eq_false_iff_ne.mpr hde]

/-- The dictionary has this index. -/
def Carries (key : String) (d : Dict) (i : ℤ) : Prop :=
  ∃ v, d.lookup key = some v ∧ toIndex v = .ok i

theorem Carries.indexOf {d : Dict} {i : ℤ} (h : Carries key d i) : indexOf key (.dict d) = i := by
  obtain ⟨v, hv, hi⟩ := h
  cases v with
  | int j => cases hi; simp [Xml.indexOf, hv]
  | bool b => cases hi; cases b <;> simp [Xml.indexOf, hv]
  | _ => cases hi

theorem carries_of_given? {d : Dict} {v : Value} {i : ℤ} (h : given? key d = some v)
    (hi : toIndex v = .ok i) : Carries key d i :=
  ⟨v, (Option.filter_eq_some_iff.mp h).1, hi⟩

/-- What a successful call leaves: `dicts'` are the dictionaries after the loop. -/
structure Added (key : String) (lst : List Ref) (dicts dicts' : Ref → Dict) : Prop where
  /-- A dictionary with an index is left alone, and so are those that are not in the list. -/
  same : ∀ d, d ∉ unindexed key dicts lst → dicts' d = dicts d
  other : ∀ d k, k ≠ key → (dicts' d).lookup k = (dicts d).lookup k
  new : ∀ d ∈ unindexed key dicts lst, ∃ i, dicts' d = Assoc.set key (.int i) (dicts d)
  carries : ∀ d ∈ lst, ∃ i, Carries key (dicts' d) i
  ascending : (unindexed key dicts lst).Pairwise fun d e =>
    indexOf key (.dict (dicts' d)) < indexOf key (.dict (dicts' e))
  indexes : (lst.map fun d => indexOf key (.dict (dicts' d))).Perm
    ((List.range lst.length).map fun i : ℕ => (i : ℤ))

omit [DecidableEq Ref] in
/-- The indexes that are given, in the order of the list. -/
theorem map_given {f : Ref → ℤ} : ∀ {lst : List Ref} {indexes : List ℤ},
    (lst.filterMap fun d => given? key (dicts d)).mapM toIndex = .ok indexes →
    (∀ d ∈ lst, ∀ v i, given? key (dicts d) = some v → toIndex v = .ok i → f d = i) →
    (lst.filter fun d => !(given? key (dicts d)).isNone).map f = indexes
  | [], _, h, _ => by
    cases h
    rfl
  | d :: lst, indexes, h, hf => by
    obtain ⟨hd, hf⟩ := List.forall_mem_cons.mp hf
    cases hg : given? key (dicts d) with
    | none =>
      simp only [List.filterMap_cons, hg] at h
      rw [List.filter_cons_of_neg (by simp [hg])]
      exact map_given h hf
    | some v =>
      simp only [List.filterMap_cons, hg, List.mapM_cons] at h
      obtain ⟨i, hi, h⟩ := bind_eq_ok.mp h
      obtain ⟨is, his, h⟩ := bind_eq_ok.mp h
      cases h
      rw [List.filter_cons_of_pos (by simp [hg]), List.map_cons, hd v i hg hi, map_given his hf]

theorem added (hnodup : (unindexed key dicts lst).Nodup)
    (hcheck : checkIndexes (lst.filterMap fun d => given? key (dicts d)) lst.length = .ok indexes) :
    Added key lst dicts (assign key lst (newIndexes indexes lst.length) dicts) := by
  obtain ⟨hindexes, hrange, hdistinct⟩ := checkIndexes_eq_ok.mp hcheck
  have hall := append_newIndexes_perm hrange hdistinct
  have hpartition : ((lst.filter fun d => !(given? key (dicts d)).isNone) ++
      unindexed key dicts lst).Perm lst :=
    List.perm_append_comm.trans (List.filter_append_perm _ lst)
  have hgiven := map_given hindexes fun d _ v i hv hi =>
    (carries_of_given? (d := dicts d) hv hi).indexOf
  have hlength : (newIndexes indexes lst.length).length = (unindexed key dicts lst).length := by
    have htotal := hall.length_eq
    have hparts := hpartition.length_eq
    have hindexed := congrArg List.length hgiven
    simp only [List.length_append, List.length_map, List.length_range] at htotal hparts hindexed
    omega
  have hzip := map_lookup_zip hnodup hlength
  have hassign := assign_eq hnodup hlength
  have hascending : (newIndexes indexes lst.length).Pairwise (· < ·) := pairwise_newIndexes
  generalize newIndexes indexes lst.length = new at *
  have hsame : ∀ d, d ∉ unindexed key dicts lst → assign key lst new dicts d = dicts d := fun d hd => by
    rw [hassign, lookup_zip_eq_none hd]
  have hset : ∀ d ∈ unindexed key dicts lst,
      ∃ i, ((unindexed key dicts lst).zip new).lookup d = some i ∧
        assign key lst new dicts d = Assoc.set key (.int i) (dicts d) := by
    intro d hd
    obtain ⟨i, -, hi⟩ := List.mem_map.mp (hzip ▸ List.mem_map_of_mem hd)
    exact ⟨i, hi.symm, by rw [hassign, ← hi]⟩
  have hvalue : ∀ d i, (Assoc.set key (.int i) (dicts d)).lookup key = some (.int i) := fun d i => by
    rw [Assoc.lookup_set, if_pos rfl]
  have hmapNew : (unindexed key dicts lst).map
      (fun d => indexOf key (.dict (assign key lst new dicts d))) = new := by
    refine List.map_injective_iff.mpr (Option.some_injective ℤ) ?_
    rw [List.map_map, ← hzip]
    refine List.map_congr_left fun d hd => ?_
    obtain ⟨i, hi, heq⟩ := hset d hd
    rw [hi, Function.comp_apply, heq, Carries.indexOf ⟨_, hvalue d i, rfl⟩]
  have hmapGiven : (lst.filter fun d => !(given? key (dicts d)).isNone).map
      (fun d => indexOf key (.dict (assign key lst new dicts d))) = indexes := by
    rw [← hgiven]
    refine List.map_congr_left fun d hd => ?_
    rw [hsame d fun hmem => ?_]
    have hisSome := (List.mem_filter.mp hd).2
    rw [(List.mem_filter.mp hmem).2] at hisSome
    cases hisSome
  refine ⟨hsame, fun d k hk => ?_, fun d hd => ?_, fun d hd => ?_, ?_, ?_⟩
  · rw [hassign]
    split
    · rw [Assoc.lookup_set, if_neg hk]
    · rfl
  · obtain ⟨i, -, heq⟩ := hset d hd
    exact ⟨i, heq⟩
  · by_cases hmem : d ∈ unindexed key dicts lst
    · obtain ⟨i, -, heq⟩ := hset d hmem
      exact ⟨i, _, heq ▸ hvalue d i, rfl⟩
    · have hsome : given? key (dicts d) ≠ none := fun hnone =>
        hmem (List.mem_filter.mpr ⟨hd, by rw [hnone]; rfl⟩)
      obtain ⟨v, hv⟩ := Option.ne_none_iff_exists'.mp hsome
      obtain ⟨i, -, hi⟩ := ok_of_mapM hindexes v (List.mem_filterMap.mpr ⟨d, hd, hv⟩)
      rw [hsame d hmem]
      exact ⟨i, carries_of_given? hv hi⟩
  · exact List.pairwise_map.mp (hmapNew.symm ▸ hascending)
  · refine ((hpartition.map _).symm.trans ?_)
    rw [List.map_append, hmapNew, hmapGiven]
    exact hall

/-! ### The call -/

omit [DecidableEq Ref] in
/-- The list after the call: its i-th dictionary has index i. -/
theorem Added.sorted {dicts' : Ref → Dict} (h : Added key lst dicts dicts') :
    ((lst.insertionSort fun d e => indexOf key (.dict (dicts' d)) ≤ indexOf key (.dict (dicts' e))).map
      fun d => indexOf key (.dict (dicts' d))) = (List.range lst.length).map fun i : ℕ => (i : ℤ) := by
  refine List.Perm.eq_of_pairwise' (r := (· ≤ ·)) ?_ ?_ ?_
  · exact List.pairwise_map.mpr (List.pairwise_insertionSort _ lst)
  · exact List.Pairwise.map _ (fun _ _ hle => Int.ofNat_le.mpr hle) List.pairwise_le_range
  · exact ((List.perm_insertionSort _ lst).map _).trans h.indexes

/-- The integer that a dictionary has as its index. -/
def index? (key : String) (d : Dict) : Option ℤ :=
  match d.lookup key with
  | some (.int i) => some i
  | _ => none

/-- What `add_index` is for. -/
structure AddsIndexes (key : String) (lst : List Ref) (dicts : Ref → Dict) : Prop where
  succeeds : (addIndex key lst dicts).1 = .ok () ↔
    (lst.filterMap fun d => index? key (dicts d)).Nodup ∧
      ∀ i ∈ lst.filterMap fun d => index? key (dicts d), 0 ≤ i ∧ i < lst.length
  perm : (addIndex key lst dicts).1 = .ok () → (addIndex key lst dicts).2.1.Perm lst
  indexed : (addIndex key lst dicts).1 = .ok () →
    ∀ i (h : i < (addIndex key lst dicts).2.1.length),
      index? key ((addIndex key lst dicts).2.2 (addIndex key lst dicts).2.1[i]) = some (i : ℤ)
  given : (addIndex key lst dicts).1 = .ok () → ∀ d ∈ lst, ∀ i, index? key (dicts d) = some i →
    index? key ((addIndex key lst dicts).2.2 d) = some i
  order : (addIndex key lst dicts).1 = .ok () →
    ((addIndex key lst dicts).2.1.filter fun d => (index? key (dicts d)).isNone) =
      lst.filter fun d => (index? key (dicts d)).isNone
  other : (addIndex key lst dicts).1 = .ok () →
    ∀ d k, d ∉ lst ∨ k ≠ key → ((addIndex key lst dicts).2.2 d).lookup k = (dicts d).lookup k
  unchanged : (addIndex key lst dicts).1 ≠ .ok () →
    (∃ msg, (addIndex key lst dicts).1 = .error (.valueError msg)) ∧
      (addIndex key lst dicts).2 = (lst, dicts)

/-- Indexes that are given are integers. -/
def IntIndexes (key : String) (lst : List Ref) (dicts : Ref → Dict) : Prop :=
  ∀ d ∈ lst, ∀ v, given? key (dicts d) = some v → ∃ i, v = .int i

omit [DecidableEq Ref] in
theorem IntIndexes.given?_eq (h : IntIndexes key lst dicts) (hd : d ∈ lst) :
    given? key (dicts d) = (index? key (dicts d)).map Value.int := by
  have hint := h d hd
  unfold given? index? at *
  cases hlookup : (dicts d).lookup key with
  | none => simp
  | some v =>
    rw [hlookup] at hint
    cases v with
    | none => simp [Value.isNone]
    | int i => simp [Value.isNone]
    | _ => obtain ⟨i, hi⟩ := hint _ rfl; cases hi

omit [DecidableEq Ref] in
theorem IntIndexes.mapM_toIndex (h : IntIndexes key lst dicts) :
    (lst.filterMap fun d => given? key (dicts d)).mapM toIndex =
      .ok (lst.filterMap fun d => index? key (dicts d)) := by
  have hgiven : (lst.filterMap fun d => given? key (dicts d)) =
      (lst.filterMap fun d => index? key (dicts d)).map Value.int := by
    rw [List.map_filterMap]
    exact List.filterMap_congr fun d hd => h.given?_eq hd
  have hints : ∀ is : List ℤ, (is.map Value.int).mapM toIndex = .ok is := by
    intro is
    induction is with
    | nil => rfl
    | cons i is ih =>
      rw [List.map_cons, List.mapM_cons, ih]
      rfl
  rw [hgiven, hints]

omit [DecidableEq Ref] in
theorem IntIndexes.unindexed_eq (h : IntIndexes key lst dicts) :
    unindexed key dicts lst = lst.filter fun d => (index? key (dicts d)).isNone :=
  List.filter_congr fun d hd => by rw [h.given?_eq hd, Option.isNone_map]

omit [DecidableEq Ref] in
/-- A dictionary that has an index is left as it is. -/
theorem Added.eq_of_index? {dicts' : Ref → Dict} (h : Added key lst dicts dicts')
    (hint : IntIndexes key lst dicts) {i : ℤ} (hi : index? key (dicts d) = some i) : dicts' d = dicts d := by
  refine h.same d fun hmem => ?_
  rw [hint.unindexed_eq] at hmem
  have hnone := (List.mem_filter.mp hmem).2
  rw [hi] at hnone
  cases hnone

omit [DecidableEq Ref] in
/-- Afterwards every dictionary has an index. -/
theorem Added.index?_eq {dicts' : Ref → Dict} (h : Added key lst dicts dicts')
    (hint : IntIndexes key lst dicts) (hd : d ∈ lst) :
    index? key (dicts' d) = some (indexOf key (.dict (dicts' d))) := by
  have hlookup : ∃ i, (dicts' d).lookup key = some (.int i) := by
    cases hi : index? key (dicts d) with
    | none =>
      obtain ⟨i, heq⟩ := h.new d (hint.unindexed_eq ▸ List.mem_filter.mpr ⟨hd, by rw [hi]; rfl⟩)
      exact ⟨i, by rw [heq, Assoc.lookup_set, if_pos rfl]⟩
    | some i =>
      have hgiven := hint.given?_eq hd
      rw [hi] at hgiven
      rw [h.eq_of_index? hint hi]
      exact ⟨i, (Option.filter_eq_some_iff.mp hgiven).1⟩
  obtain ⟨i, hi⟩ := hlookup
  rw [index?, hi, Carries.indexOf ⟨_, hi, rfl⟩]

omit [DecidableEq Ref] in
/-- The indexes are in order in the list after the call, and so are the dictionaries that had none. -/
theorem Added.insertionSort {dicts' : Ref → Dict} (h : Added key lst dicts dicts')
    (hint : IntIndexes key lst dicts) {sorted : List Ref} (hsorted : sorted = lst.insertionSort fun d e =>
      indexOf key (.dict (dicts' d)) ≤ indexOf key (.dict (dicts' e))) :
    sorted.Perm lst ∧
      (∀ i (hi : i < sorted.length), indexOf key (.dict (dicts' sorted[i])) = i) ∧
      (sorted.filter fun d => (index? key (dicts d)).isNone) =
        lst.filter fun d => (index? key (dicts d)).isNone := by
  have hperm : sorted.Perm lst := hsorted ▸ List.perm_insertionSort _ lst
  refine ⟨hperm, fun i hi => ?_, ?_⟩
  · have hlt : i < lst.length := hperm.length_eq ▸ hi
    have hindex := congrArg (·[i]?) h.sorted
    rw [← hsorted] at hindex
    simpa only [List.getElem?_map, List.getElem?_eq_getElem hi, List.getElem?_range hlt,
      Option.map_some, Option.some.injEq] using hindex
  · have hascending : (lst.filter fun d => (index? key (dicts d)).isNone).Pairwise fun d e =>
        indexOf key (.dict (dicts' d)) ≤ indexOf key (.dict (dicts' e)) := by
      rw [← hint.unindexed_eq]
      exact h.ascending.imp fun hlt => hlt.le
    have hsublist := List.sublist_insertionSort hascending List.filter_sublist
    rw [← hsorted] at hsublist
    have hfilter := hsublist.filter fun d => (index? key (dicts d)).isNone
    simp only [List.filter_filter, Bool.and_self] at hfilter
    exact (hfilter.eq_of_length (hperm.filter _).length_eq.symm).symm

/-- A call that fails leaves everything as it is. -/
theorem addsIndexes_of_error (hint : IntIndexes key lst dicts) {e : Exn}
    (hcheck : checkIndexes (lst.filterMap fun d => given? key (dicts d)) lst.length = .error e) :
    AddsIndexes key lst dicts := by
  have hcall : addIndex key lst dicts = (.error e, lst, dicts) := by rw [addIndex, hcheck]
  have hfail : ¬ ((∀ i ∈ lst.filterMap fun d => index? key (dicts d), 0 ≤ i ∧ i < lst.length) ∧
      (lst.filterMap fun d => index? key (dicts d)).Nodup) := by
    intro hpass
    cases hcheck.symm.trans (checkIndexes_eq_ok.mpr ⟨hint.mapM_toIndex, hpass⟩)
  obtain ⟨msg, hmsg⟩ := checkIndexes_error hint.mapM_toIndex hfail
  cases hcheck.symm.trans hmsg
  rw [and_comm] at hfail
  constructor <;> rw [hcall]
  · exact ⟨nofun, fun hpass => absurd hpass hfail⟩
  · exact nofun
  · exact nofun
  · exact nofun
  · exact nofun
  · exact nofun
  · exact fun _ => ⟨⟨msg, rfl⟩, rfl⟩

/-- If no dictionary without an index is in the list twice, `add_index` does what it is for. -/
theorem addIndex_correct (key : String) (lst : List Ref) (dicts : Ref → Dict)
    (hint : IntIndexes key lst dicts)
    (honce : (lst.filter fun d => (index? key (dicts d)).isNone).Nodup) :
    AddsIndexes key lst dicts := by
  have hnodup : (unindexed key dicts lst).Nodup := hint.unindexed_eq ▸ honce
  cases hcheck : checkIndexes (lst.filterMap fun d => given? key (dicts d)) lst.length with
  | error e => exact addsIndexes_of_error hint hcheck
  | ok indexes =>
    have hadded := added hnodup hcheck
    obtain ⟨hindexes, hpass⟩ := checkIndexes_eq_ok.mp hcheck
    cases hindexes.symm.trans hint.mapM_toIndex
    generalize hdicts' : assign key lst (newIndexes (lst.filterMap fun d => index? key (dicts d))
      lst.length) dicts = dicts' at hadded
    generalize hsorted : (lst.insertionSort fun d e =>
      indexOf key (.dict (dicts' d)) ≤ indexOf key (.dict (dicts' e))) = sorted
    have hcall : addIndex key lst dicts = (.ok (), sorted, dicts') := by
      rw [addIndex, hcheck, ← hsorted, ← hdicts']
    obtain ⟨hperm, hindex, horder⟩ := hadded.insertionSort hint hsorted.symm
    constructor <;> rw [hcall] <;> dsimp only
    · exact ⟨fun _ => ⟨hpass.2, hpass.1⟩, fun _ => rfl⟩
    · exact fun _ => hperm
    · intro _ i hi
      rw [hadded.index?_eq hint (hperm.subset (List.getElem_mem hi)), hindex i hi]
    · intro _ d hd i hi
      rw [hadded.eq_of_index? hint hi, hi]
    · exact fun _ => horder
    · rintro - d k (hd | hk)
      · rw [hadded.same d fun hmem => hd (List.mem_filter.mp hmem).1]
      · exact hadded.other d k hk
    · exact fun hne => absurd rfl hne

/-- Three dictionaries, of which the first one has an index. -/
def threeDicts : Fin 3 → Dict
  | 0 => [("value", .int 1), ("idx", .int 1)]
  | 1 => [("value", .int 0)]
  | 2 => [("value", .int 2)]

theorem addIndex_correct_three : AddsIndexes "idx" [0, 1, 2] threeDicts ∧
    (addIndex "idx" [0, 1, 2] threeDicts).2.1 = [1, 0, 2] := by
  refine ⟨addIndex_correct "idx" [0, 1, 2] threeDicts (fun d _ v hv => ?_) (by decide), by decide +kernel⟩
  match d with
  | 0 => exact ⟨1, (Option.some.inj hv).symm⟩
  | 1 => cases hv
  | 2 => cases hv

/-- One dictionary without an index, twice in the list: when the generator comes to it again, it has
    one. -/
theorem not_addIndex_correct_twice : ¬ ∀ (lst : List Unit) (dicts : Unit → Dict),
    IntIndexes "idx" lst dicts → AddsIndexes "idx" lst dicts := by
  intro h
  have hadds := h [(), ()] (fun _ => []) nofun
  have hindex := hadds.indexed rfl 1 (by decide +kernel)
  exact absurd hindex (by decide +kernel)

/-! ### Dictionaries of their own

    In a list without aliases the dictionaries may be taken as values. -/

theorem assign_of_not_mem : ∀ {lst : List Ref} {is : List ℤ} {dicts : Ref → Dict}, d ∉ lst →
    assign key lst is dicts d = dicts d
  | [], _, _, _ => rfl
  | e :: lst, is, dicts, hd => by
    obtain ⟨hne, hd⟩ := not_or.mp (mt List.mem_cons.mpr hd)
    cases he : given? key (dicts e) with
    | some v => rw [assign_cons_some he, assign_of_not_mem hd]
    | none =>
      cases is with
      | nil => rw [assign_nil]
      | cons i is => rw [assign_cons_none he, assign_of_not_mem hd, Function.update_of_ne hne]

theorem assignIndexes_some {d : Dict} {v : Value} {rest : List Value} (h : given? key d = some v) :
    assignIndexes key (.dict d :: rest) is = .dict d :: assignIndexes key rest is := by
  rw [assignIndexes.eq_def]
  exact if_pos (Option.isSome_of_eq_some h)

theorem assignIndexes_none {d : Dict} {i : ℤ} {rest : List Value} (h : given? key d = none) :
    assignIndexes key (.dict d :: rest) (i :: is) =
      .dict (Assoc.set key (.int i) d) :: assignIndexes key rest is := by
  rw [assignIndexes.eq_def]
  exact if_neg (by rw [h]; decide)

theorem assignIndexes_nil : ∀ lst : List Value, assignIndexes key lst [] = lst
  | [] => rfl
  | v :: lst => by
    cases v with
    | dict d =>
      rw [assignIndexes]
      split <;> rw [assignIndexes_nil lst]
    | _ => rw [assignIndexes, assignIndexes_nil lst]; all_goals simp

theorem assignIndexes_eq : ∀ {lst : List Ref} {is : List ℤ} {dicts : Ref → Dict}, lst.Nodup →
    assignIndexes key (lst.map fun d => .dict (dicts d)) is =
      lst.map fun d => .dict (assign key lst is dicts d)
  | [], _, _, _ => rfl
  | d :: lst, is, dicts, hnodup => by
    obtain ⟨hd, hnodup⟩ := List.nodup_cons.mp hnodup
    rw [List.map_cons, List.map_cons]
    cases he : given? key (dicts d) with
    | some v =>
      rw [assign_cons_some he, assign_of_not_mem hd, ← assignIndexes_eq hnodup, assignIndexes_some he]
    | none =>
      cases is with
      | nil => rw [assignIndexes_nil, assign_nil]
      | cons i is =>
        have hsame : (lst.map fun e => Value.dict (dicts e)) = lst.map fun e =>
            .dict (Function.update dicts d (Assoc.set key (.int i) (dicts d)) e) := by
          refine List.map_congr_left fun e he => ?_
          have hne : e ≠ d := fun heq => hd (heq ▸ he)
          rw [Function.update_of_ne hne]
        rw [assign_cons_none he, assign_of_not_mem hd, Function.update_self,
          ← assignIndexes_eq hnodup, ← hsame, assignIndexes_none he]

/-- `add_index` on values is `add_index` on references to them. -/
theorem addIndex_values (hnodup : lst.Nodup) :
    Xml.addIndex (lst.map fun d => .dict (dicts d)) key =
      (addIndex key lst dicts).1.map fun _ =>
        (addIndex key lst dicts).2.1.map fun d => .dict ((addIndex key lst dicts).2.2 d) := by
  have hgiven : (lst.map fun d => Value.dict (dicts d)).mapM (getIndex key) =
      .ok (lst.map fun d => given? key (dicts d)) := by
    rw [List.mapM_map]
    exact mapM_of_forall fun d _ => rfl
  have hcheck : Xml.addIndex (lst.map fun d => .dict (dicts d)) key =
      (checkIndexes (lst.filterMap fun d => given? key (dicts d)) lst.length).map fun indexes =>
        (assignIndexes key (lst.map fun d => .dict (dicts d)) (newIndexes indexes lst.length)).insertionSort
          fun v w => indexOf key v ≤ indexOf key w := by
    have hreduce : (lst.map fun d => given? key (dicts d)).reduceOption =
        lst.filterMap fun d => given? key (dicts d) := List.filterMap_map
    rw [Xml.addIndex, hgiven]
    simp only [bind, Except.bind, hreduce, List.length_map]
    cases checkIndexes (lst.filterMap fun d => given? key (dicts d)) lst.length <;> rfl
  rw [hcheck, addIndex]
  cases checkIndexes (lst.filterMap fun d => given? key (dicts d)) lst.length with
  | error e => rfl
  | ok indexes =>
    dsimp only [Except.map]
    rw [assignIndexes_eq hnodup]
    have hsort := List.map_insertionSort (r := fun d e =>
        indexOf key (.dict (assign key lst (newIndexes indexes lst.length) dicts d)) ≤
          indexOf key (.dict (assign key lst (newIndexes indexes lst.length) dicts e)))
      (s := fun v w => indexOf key v ≤ indexOf key w)
      (fun d => .dict (assign key lst (newIndexes indexes lst.length) dicts d)) lst
      fun d _ e _ => Iff.rfl
    exact congrArg Except.ok hsort.symm

/-- What `add_index` makes of a list of dictionaries of their own. -/
theorem exists_added {l : List Value} (hnodup : lst.Nodup)
    (h : Xml.addIndex (lst.map fun d => .dict (dicts d)) key = .ok l) :
    ∃ (dicts' : Ref → Dict) (sorted : List Ref), l = sorted.map (fun d => .dict (dicts' d)) ∧ sorted.Perm lst ∧
      Added key lst dicts dicts' ∧ (sorted.map fun d => indexOf key (.dict (dicts' d))) =
        (List.range lst.length).map fun i : ℕ => (i : ℤ) := by
  rw [addIndex_values hnodup, addIndex] at h
  cases hcheck : checkIndexes (lst.filterMap fun d => given? key (dicts d)) lst.length with
  | error e => rw [hcheck] at h; cases h
  | ok indexes =>
    rw [hcheck] at h
    cases h
    have hadded := added (hnodup.filter _) hcheck
    exact ⟨_, _, rfl, List.perm_insertionSort _ _, hadded, hadded.sorted⟩

end Echronos.Util
