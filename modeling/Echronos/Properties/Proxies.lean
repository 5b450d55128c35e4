import Echronos.Xml.Objects

/-! # What `resolve_proxies` makes of a configuration

    The traversal changes the configuration that it traverses, and the search for an object reads it
    in the state of the moment. Replacing one proxy leaves all earlier findings as they are. -/

namespace Echronos.Xml

open Schemes

/-! ### Values with their proxies replaced -/

section Changes

variable (R : String → Option String → Option Element → Value → Prop)

mutual

/-- The second value is the first one with each proxy replaced by something that `R` allows. -/
def Changes : Value → Value → Prop
  | .list l, v' => ∃ l', v' = .list l' ∧ ChangesList l l'
  | .dict d, v' => ∃ d', v' = .dict d' ∧ ChangesItems d d'
  | .proxy name group el, v' => R name group el v'
  | .none, v' => v' = .none
  | .str s, v' => v' = .str s
  | .bool b, v' => v' = .bool b
  | .int i, v' => v' = .int i
  | .object group i, v' => v' = .object group i
termination_by structural v => v

def ChangesList : List Value → List Value → Prop
  | [], l' => l' = []
  | v :: l, l' => ∃ v' rest, l' = v' :: rest ∧ Changes v v' ∧ ChangesList l rest
termination_by structural l => l

def ChangesItems : List (String × Value) → Dict → Prop
  | [], d' => d' = []
  | item :: d, d' => ∃ v' rest, d' = (item.1, v') :: rest ∧ ChangesItem item v' ∧ ChangesItems d rest
termination_by structural d => d

def ChangesItem : String × Value → Value → Prop
  | (_, v), v' => Changes v v'
termination_by structural item => item

end

variable {R} {l l' : List Value} {d d' : Dict} {v v' : Value}

theorem changesList_iff : ∀ {l l' : List Value}, ChangesList R l l' ↔ List.Forall₂ (Changes R) l l'
  | [], l' => by
    rw [ChangesList, List.forall₂_nil_left_iff]
  | v :: l, l' => by
    rw [ChangesList, List.forall₂_cons_left_iff]
    constructor
    · rintro ⟨v', rest, rfl, hv, hrest⟩
      exact ⟨v', rest, hv, changesList_iff.mp hrest, rfl⟩
    · rintro ⟨v', rest, hv, hrest, rfl⟩
      exact ⟨v', rest, rfl, hv, changesList_iff.mpr hrest⟩

theorem ChangesItems.lookup : ∀ {d d' : Dict}, ChangesItems R d d' → ∀ n,
    match d.lookup n with
    | some v => ∃ v', d'.lookup n = some v' ∧ Changes R v v'
    | none => d'.lookup n = none
  | [], _, h, n => by
    cases h
    rfl
  | (k, v) :: d, _, h, n => by
    obtain ⟨v', rest, rfl, hv, hrest⟩ := h
    rw [Assoc.lookup_cons, Assoc.lookup_cons]
    by_cases hn : n = k
    · rw [if_pos hn, if_pos hn]
      exact ⟨v', rfl, hv⟩
    · rw [if_neg hn, if_neg hn]
      exact ChangesItems.lookup hrest n

theorem ChangesItems.lookup_some (h : ChangesItems R d d') {n : String} (hv : d.lookup n = some v) :
    ∃ v', d'.lookup n = some v' ∧ Changes R v v' := by
  have hlookup := h.lookup n
  rw [hv] at hlookup
  exact hlookup

theorem ChangesItems.keys : ∀ {d d' : Dict}, ChangesItems R d d' → d'.map Prod.fst = d.map Prod.fst
  | [], _, h => by
    cases h
    rfl
  | item :: d, _, h => by
    obtain ⟨v', rest, rfl, -, hrest⟩ := h
    rw [List.map_cons, List.map_cons, ChangesItems.keys hrest]

mutual

theorem Changes.mono {R' : String → Option String → Option Element → Value → Prop}
    (hR : ∀ name group el v, R name group el v → R' name group el v) : ∀ {v v' : Value},
    Changes R v v' → Changes R' v v'
  | .list _, _, ⟨l', hl', h⟩ => ⟨l', hl', ChangesList.mono hR h⟩
  | .dict _, _, ⟨d', hd', h⟩ => ⟨d', hd', ChangesItems.mono hR h⟩
  | .proxy _ _ _, _, h => hR _ _ _ _ h
  | .none, _, h | .str _, _, h | .bool _, _, h | .int _, _, h | .object _ _, _, h => h

theorem ChangesList.mono {R' : String → Option String → Option Element → Value → Prop}
    (hR : ∀ name group el v, R name group el v → R' name group el v) : ∀ {l l' : List Value},
    ChangesList R l l' → ChangesList R' l l'
  | [], _, h => h
  | _ :: _, _, ⟨v', rest, hl', hv, hrest⟩ => ⟨v', rest, hl', Changes.mono hR hv, ChangesList.mono hR hrest⟩

theorem ChangesItems.mono {R' : String → Option String → Option Element → Value → Prop}
    (hR : ∀ name group el v, R name group el v → R' name group el v) : ∀ {d d' : Dict},
    ChangesItems R d d' → ChangesItems R' d d'
  | [], _, h => h
  | (_, _) :: _, _, ⟨v', rest, hd', hv, hrest⟩ =>
    ⟨v', rest, hd', Changes.mono hR hv, ChangesItems.mono hR hrest⟩

end

mutual

theorem Changes.refl (hR : ∀ name group el, R name group el (.proxy name group el)) : ∀ v : Value,
    Changes R v v
  | .list l => ⟨l, rfl, ChangesList.refl hR l⟩
  | .dict d => ⟨d, rfl, ChangesItems.refl hR d⟩
  | .proxy name group el => hR name group el
  | .none | .str _ | .bool _ | .int _ | .object _ _ => rfl

theorem ChangesList.refl (hR : ∀ name group el, R name group el (.proxy name group el)) : ∀ l : List Value,
    ChangesList R l l
  | [] => rfl
  | v :: l => ⟨v, l, rfl, Changes.refl hR v, ChangesList.refl hR l⟩

theorem ChangesItems.refl (hR : ∀ name group el, R name group el (.proxy name group el)) : ∀ d : Dict,
    ChangesItems R d d
  | [] => rfl
  | (_, v) :: d => ⟨v, d, rfl, Changes.refl hR v, ChangesItems.refl hR d⟩

end

theorem ChangesList.append (h : ChangesList R l l') {rest rest' : List Value}
    (hrest : ChangesList R rest rest') :
    ChangesList R (l ++ rest) (l' ++ rest') :=
  changesList_iff.mpr (List.rel_append (changesList_iff.mp h) (changesList_iff.mp hrest))

theorem ChangesList.getElem? : ∀ {l l' : List Value} {i : ℕ}, ChangesList R l l' → l[i]? = some v →
    ∃ v', l'[i]? = some v' ∧ Changes R v v'
  | w :: l, _, 0, ⟨w', rest, hl', hw, _⟩, hv => by
    cases hv
    subst hl'
    exact ⟨w', rfl, hw⟩
  | _ :: l, _, i + 1, ⟨w', rest, hl', _, hrest⟩, hv => by
    subst hl'
    exact hrest.getElem? hv

theorem ChangesItems.append : ∀ {d d' rest rest' : Dict}, ChangesItems R d d' → ChangesItems R rest rest' →
    ChangesItems R (d ++ rest) (d' ++ rest')
  | [], _, _, _, h, hrest => by
    cases h
    exact hrest
  | item :: d, _, rest, rest', h, hrest => by
    obtain ⟨v', d', rfl, hv, hd⟩ := h
    exact ⟨v', d' ++ rest', rfl, hv, hd.append hrest⟩

end Changes

/-! ### Later states -/

/-- A state of the configuration that may follow: some proxies have been replaced. -/
abbrev Later : Value → Value → Prop :=
  Changes fun name group el v => v = .proxy name group el ∨ ∃ group' i, v = .object group' i

abbrev LaterItems : Dict → Dict → Prop :=
  ChangesItems fun name group el v => v = .proxy name group el ∨ ∃ group' i, v = .object group' i

theorem Later.refl (v : Value) : Later v v := Changes.refl (fun _ _ _ => .inl rfl) v

/-- `obj` is the first member of the list `group` whose name is `name`. -/
def FirstNamed (dct : Dict) (group name : String) (obj : Value) : Prop :=
  ∃ l i v d, dct.lookup group = some (.list l) ∧ l[i]? = some v ∧ obj = reference group i (some v) ∧
    memberDict dct v = .ok d ∧ d.lookup "name" = some (.str name) ∧
    ∀ j < i, ∃ w e n, l[j]? = some w ∧ memberDict dct w = .ok e ∧ e.lookup "name" = some n ∧ n ≠ .str name

variable {dct dct' d : Dict} {v v' : Value} {group name : String} {obj : Value}

theorem memberDict_object {i : ℕ} : memberDict dct (.object group i) = .ok d ↔
    ∃ l, dct.lookup group = some (.list l) ∧ l[i]? = some (.dict d) := by
  dsimp only [memberDict]
  constructor
  · intro h
    split at h
    · next l hl =>
      split at h
      · next e he =>
        cases h
        exact ⟨l, hl, he⟩
      · cases h
    · cases h
  · rintro ⟨l, hl, hi⟩
    rw [hl]
    dsimp only
    rw [hi]
    rfl

/-- A member stays the same dictionary. -/
theorem memberDict_later (hdct : LaterItems dct dct') (hv : Later v v') (h : memberDict dct v = .ok d) :
    ∃ d', memberDict dct' v' = .ok d' ∧ LaterItems d d' := by
  cases v with
  | dict e =>
    cases h
    obtain ⟨d', rfl, hd⟩ := hv
    exact ⟨d', rfl, hd⟩
  | object group i =>
    cases hv
    obtain ⟨l, hl, hi⟩ := memberDict_object.mp h
    obtain ⟨_, hl', l', rfl, hll'⟩ := hdct.lookup_some hl
    obtain ⟨_, hi', d', rfl, hd⟩ := hll'.getElem? hi
    exact ⟨d', memberDict_object.mpr ⟨l', hl', hi'⟩, hd⟩
  | _ => cases h

theorem reference_later {i : ℕ} (hv : Later v v') (h : memberDict dct v = .ok d) :
    reference group i (some v') = reference group i (some v) := by
  cases v with
  | dict e =>
    obtain ⟨d', rfl, -⟩ := hv
    rfl
  | object group i =>
    cases hv
    rfl
  | _ => cases h

/-- A name stays as it is, and what is none does not become one. -/
theorem name_later {n n' : Value} (h : Later n n') (name : String) : n' = .str name ↔ n = .str name := by
  cases n with
  | str s => cases h; rfl
  | proxy =>
    rcases h with rfl | ⟨group, i, rfl⟩
    · rfl
    · exact ⟨nofun, nofun⟩
  | list l => obtain ⟨l', rfl, -⟩ := h; exact ⟨nofun, nofun⟩
  | dict d => obtain ⟨d', rfl, -⟩ := h; exact ⟨nofun, nofun⟩
  | none | bool | int | object => cases h; rfl

/-- What has been found stays found. -/
theorem FirstNamed.later (h : FirstNamed dct group name obj) (hdct : LaterItems dct dct') :
    FirstNamed dct' group name obj := by
  obtain ⟨l, i, v, d, hl, hi, hobj, hd, hname, hfirst⟩ := h
  obtain ⟨_, hl', l', rfl, hll'⟩ := hdct.lookup_some hl
  obtain ⟨v', hi', hv⟩ := hll'.getElem? hi
  obtain ⟨d', hd', hdd'⟩ := memberDict_later hdct hv hd
  obtain ⟨n', hname', hn⟩ := hdd'.lookup_some hname
  cases hn
  refine ⟨l', i, v', d', hl', hi', hobj.trans (reference_later hv hd).symm, hd', hname', fun j hj => ?_⟩
  obtain ⟨w, e, n, hw, he, hn, hne⟩ := hfirst j hj
  obtain ⟨w', hw', hww'⟩ := hll'.getElem? hw
  obtain ⟨e', he', hee'⟩ := memberDict_later hdct hww' he
  obtain ⟨n', hn', hnn'⟩ := hee'.lookup_some hn
  exact ⟨w', e', n', hw', he', hn', mt (name_later hnn' name).mp hne⟩

/-! ### The search -/

theorem getItem_eq_ok {n : String} : getItem d n = .ok v ↔ d.lookup n = some v := by
  unfold getItem
  split
  · next w hw =>
    rw [hw]
    exact ⟨fun h => congrArg some (Except.ok.inj h), fun h => congrArg Except.ok (Option.some.inj h)⟩
  · next hnone =>
    rw [hnone]
    exact ⟨nofun, nofun⟩

/-- `list_search` returns the first one. -/
theorem listSearch_eq_ok : ∀ {l : List Value} {k i : ℕ}, listSearch dct name l k = .ok i →
    ∃ m, i = k + m ∧ (∃ v d, l[m]? = some v ∧ memberDict dct v = .ok d ∧ d.lookup "name" = some (.str name)) ∧
      ∀ j < m, ∃ w e n, l[j]? = some w ∧ memberDict dct w = .ok e ∧ e.lookup "name" = some n ∧ n ≠ .str name
  | [], _, _, h => by cases h
  | v :: rest, k, i, h => by
    rw [listSearch] at h
    obtain ⟨d, hd, h⟩ := bind_eq_ok.mp h
    obtain ⟨n, hn, h⟩ := bind_eq_ok.mp h
    have hlookup := getItem_eq_ok.mp hn
    have hnext : n ≠ .str name → listSearch dct name rest (k + 1) = .ok i → ∃ m, i = k + m ∧
        (∃ w e, (v :: rest)[m]? = some w ∧ memberDict dct w = .ok e ∧ e.lookup "name" = some (.str name)) ∧
        ∀ j < m, ∃ w e n, (v :: rest)[j]? = some w ∧ memberDict dct w = .ok e ∧ e.lookup "name" = some n ∧
          n ≠ .str name := by
      intro hne hrest
      obtain ⟨m, rfl, hfound, hfirst⟩ := listSearch_eq_ok hrest
      refine ⟨m + 1, by omega, hfound, fun j hj => ?_⟩
      cases j with
      | zero => exact ⟨v, d, n, rfl, hd, hlookup, hne⟩
      | succ j => exact hfirst j (Nat.lt_of_succ_lt_succ hj)
    split at h
    · next s =>
      split_ifs at h with hs
      · cases h
        exact ⟨0, rfl, ⟨v, d, rfl, hd, hs ▸ hlookup⟩, nofun⟩
      · exact hnext (fun heq => hs (Value.str.inj heq)) h
    · next hstr => exact hnext (fun heq => hstr name heq) h

/-- Whatever else than a list is iterated over gives strings. -/
theorem iterate_eq_ok {members : List Value} (h : iterate dct v = .ok members) :
    v = .list members ∨ ∀ w ∈ members, ∃ s, w = .str s := by
  cases v with
  | list l => cases h; exact .inl rfl
  | str s =>
    cases h
    exact .inr fun w hw => by obtain ⟨ch, -, rfl⟩ := List.mem_map.mp hw; exact ⟨_, rfl⟩
  | dict d =>
    cases h
    exact .inr fun w hw => by obtain ⟨item, -, rfl⟩ := List.mem_map.mp hw; exact ⟨_, rfl⟩
  | object group i =>
    obtain ⟨d, -, h⟩ := bind_eq_ok.mp h
    cases h
    exact .inr fun w hw => by obtain ⟨item, -, rfl⟩ := List.mem_map.mp hw; exact ⟨_, rfl⟩
  | _ => cases h

/-- What the search for an object finds. -/
theorem findObject_eq_ok {group : Option String} (h : findObject dct name group = .ok obj) :
    ∃ g, group = some g ∧ FirstNamed dct g name obj := by
  cases group with
  | none => cases h
  | some g =>
    obtain ⟨lst, hlst, h⟩ := bind_eq_ok.mp h
    obtain ⟨members, hmembers, h⟩ := bind_eq_ok.mp h
    obtain ⟨i, hi, h⟩ := bind_eq_ok.mp h
    cases h
    obtain ⟨m, rfl, ⟨v, d, hm, hd, hname⟩, hfirst⟩ := listSearch_eq_ok hi
    rw [Nat.zero_add, hm]
    rcases iterate_eq_ok hmembers with rfl | hstrings
    · exact ⟨g, rfl, members, m, v, d, getItem_eq_ok.mp hlst, hm, rfl, hd, hname, hfirst⟩
    · obtain ⟨s, rfl⟩ := hstrings v (List.mem_of_getElem? hm)
      cases hd

/-! ### The traversal -/

mutual

/-- No dictionary has a key twice. -/
def NodupKeys : Value → Prop
  | .list l => NodupKeysList l
  | .dict d => (d.map Prod.fst).Nodup ∧ NodupKeysItems d
  | .none | .str _ | .bool _ | .int _ | .proxy _ _ _ | .object _ _ => True
termination_by structural v => v

def NodupKeysList : List Value → Prop
  | [] => True
  | v :: l => NodupKeys v ∧ NodupKeysList l
termination_by structural l => l

def NodupKeysItems : List (String × Value) → Prop
  | [] => True
  | item :: d => NodupKeysItem item ∧ NodupKeysItems d
termination_by structural d => d

def NodupKeysItem : String × Value → Prop
  | (_, v) => NodupKeys v
termination_by structural item => item

end

/-- The configuration around the value at a key. -/
structure Frame (key : List Key) (ctx : Value → Value) : Prop where
  put : ∀ v val, key ≠ [] → configSet (ctx v) key val = .ok (ctx val)
  below : ∀ v rest val, rest ≠ [] → configSet (ctx v) (key ++ rest) val = (configSet v rest val).map ctx
  later : ∀ {v v'}, Later v v' → Later (ctx v) (ctx v')

theorem Frame.root : Frame [] id where
  put _ _ h := absurd rfl h
  below v rest val _ := by cases h : configSet v rest val <;> simp [h, Except.map]
  later h := h

/-- One step further down. -/
theorem Frame.extend {key : List Key} {ctx : Value → Value} (h : Frame key ctx) {k : Key}
    {container : Value → Value} (hget : ∀ v, getKey (container v) k = .ok v)
    (hset : ∀ v val, setKey (container v) k val = .ok (container val))
    (hlater : ∀ {v v'}, Later v v' → Later (container v) (container v')) :
    Frame (key ++ [k]) (ctx ∘ container) where
  put v val _ := by
    rw [Function.comp_apply, h.below _ _ _ (List.cons_ne_nil k []), configSet, hset]
    rfl
  below v rest val hrest := by
    obtain ⟨k', rest, rfl⟩ := List.exists_cons_of_ne_nil hrest
    rw [Function.comp_apply, List.append_assoc, List.singleton_append, h.below _ _ _ (List.cons_ne_nil k _),
      configSet, hget]
    cases hsub : configSet v (k' :: rest) val with
    | error e => simp [hsub, bind, Except.bind, Except.map]
    | ok sub => simp [hsub, bind, Except.bind, Except.map, hset]
  later hv := h.later (hlater hv)

theorem Frame.list {key : List Key} {ctx : Value → Value} (h : Frame key ctx) (done rest : List Value) :
    Frame (key ++ [.index done.length]) (ctx ∘ fun v => .list (done ++ v :: rest)) := by
  refine h.extend (fun v => ?_) (fun v val => ?_) fun {v v'} hv => ?_
  · have hi : (done ++ v :: rest)[done.length]? = some v := by simp
    rw [getKey, hi]
    rfl
  · have hlt : done.length < (done ++ v :: rest).length := by simp
    have hset : (done ++ v :: rest).set done.length val = done ++ val :: rest := by simp
    rw [setKey, if_pos hlt, hset]
    rfl
  · exact ⟨_, rfl, (ChangesList.refl (fun _ _ _ => .inl rfl) done).append
      ⟨v', rest, rfl, hv, ChangesList.refl (fun _ _ _ => .inl rfl) rest⟩⟩

theorem Frame.dict {key : List Key} {ctx : Value → Value} (h : Frame key ctx) {done : Dict} {n : String}
    (hn : n ∉ done.map Prod.fst) (rest : Dict) :
    Frame (key ++ [.name n]) (ctx ∘ fun v => .dict (done ++ (n, v) :: rest)) := by
  refine h.extend (fun v => ?_) (fun v val => ?_) fun {v v'} hv => ?_
  · exact getItem_eq_ok.mpr (Assoc.lookup_append_cons hn rest)
  · rw [setKey, Assoc.set_append_cons hn rest]
    rfl
  · exact ⟨_, rfl, (ChangesItems.refl (fun _ _ _ => .inl rfl) done).append
      ⟨v', rest, rfl, hv, ChangesItems.refl (fun _ _ _ => .inl rfl) rest⟩⟩

/-- What a proxy may have been replaced by. -/
def Found (cfg : Value) (name : String) (group : Option String) (_ : Option Element) (v : Value) : Prop :=
  ∃ dct g, cfg = .dict dct ∧ group = some g ∧ FirstNamed dct g name v

/-- What has been found in one state is right in the other one. -/
def Keeps (cfg cfg' : Value) : Prop := ∀ name group el v, Found cfg name group el v → Found cfg' name group el v

theorem Keeps.refl (cfg : Value) : Keeps cfg cfg := fun _ _ _ _ h => h

theorem Keeps.trans {cfg cfg' cfg'' : Value} (h : Keeps cfg cfg') (h' : Keeps cfg' cfg'') : Keeps cfg cfg'' :=
  fun name group el v hv => h' name group el v (h name group el v hv)

theorem Later.keeps {cfg cfg' : Value} (h : Later cfg cfg') : Keeps cfg cfg' := by
  rintro name group el v ⟨dct, g, rfl, rfl, hv⟩
  obtain ⟨dct', rfl, hdct⟩ := h
  exact ⟨dct', g, rfl, rfl, hv.later hdct⟩

theorem Found.eq_object {cfg : Value} {group : Option String} {el : Option Element}
    (h : Found cfg name group el v) : ∃ group' i, v = .object group' i := by
  obtain ⟨dct, g, -, -, l, i, w, d, -, -, rfl, -⟩ := h
  cases w <;> exact ⟨_, _, rfl⟩

/-- A proxy is replaced by what is found. -/
theorem resolveProxy_eq_ok {group : Option String} {el : Option Element} {key : List Key}
    {ctx : Value → Value} {cfg' : Value} (hctx : Frame key ctx)
    (h : resolveProxy name group el key (ctx (.proxy name group el)) = .ok cfg') :
    ∃ v, cfg' = ctx v ∧ Found cfg' name group el v ∧ Keeps (ctx (.proxy name group el)) cfg' := by
  cases hcfg : ctx (.proxy name group el) with
  | dict dct =>
    rw [hcfg] at h
    unfold resolveProxy at h
    cases hfind : findObject dct name group with
    | error e => simp only [hfind] at h; cases e <;> cases h
    | ok realVal =>
      simp only [hfind] at h
      by_cases hkey : key = []
      · subst hkey
        cases h
      · rw [← hcfg, hctx.put _ _ hkey] at h
        cases h
        obtain ⟨g, rfl, hfirst⟩ := findObject_eq_ok hfind
        have hfound : Found (ctx (.proxy name (some g) el)) name (some g) el realVal :=
          ⟨dct, g, hcfg, rfl, hfirst⟩
        have hlater : Later (.proxy name (some g) el) realVal := .inr hfound.eq_object
        have hkeeps := (hctx.later hlater).keeps
        exact ⟨realVal, rfl, hkeeps _ _ _ _ hfound, hcfg ▸ hkeeps⟩
  | _ => rw [hcfg] at h; cases h

mutual

/-- The traversal replaces each proxy by what is found for it, and this is still right in the end. -/
theorem resolveProxies_eq_ok : ∀ {v : Value} {key : List Key} {ctx : Value → Value} {cfg' : Value},
    Frame key ctx → NodupKeys v → resolveProxies v key (ctx v) = .ok cfg' →
    ∃ v', cfg' = ctx v' ∧ Changes (Found cfg') v v' ∧ Keeps (ctx v) cfg'
  | .list l, key, ctx, cfg', hctx, hkeys, h => by
    obtain ⟨l', rfl, hl, hkeeps⟩ := resolveList_eq_ok [] l hctx hkeys h
    exact ⟨.list l', rfl, ⟨l', rfl, hl⟩, hkeeps⟩
  | .dict d, key, ctx, cfg', hctx, hkeys, h => by
    obtain ⟨d', rfl, hd, hkeeps⟩ := resolveItems_eq_ok [] d hctx hkeys.1 hkeys.2 h
    exact ⟨.dict d', rfl, ⟨d', rfl, hd⟩, hkeeps⟩
  | .proxy name group el, key, ctx, cfg', hctx, _, h => resolveProxy_eq_ok hctx h
  | .none, _, ctx, _, _, _, h | .str _, _, ctx, _, _, _, h | .bool _, _, ctx, _, _, _, h
  | .int _, _, ctx, _, _, _, h | .object _ _, _, ctx, _, _, _, h => by
    cases h
    exact ⟨_, rfl, rfl, .refl _⟩

theorem resolveList_eq_ok : ∀ (done rest : List Value) {key : List Key} {ctx : Value → Value} {cfg' : Value},
    Frame key ctx → NodupKeysList rest →
    resolveList rest key done.length (ctx (.list (done ++ rest))) = .ok cfg' →
    ∃ rest', cfg' = ctx (.list (done ++ rest')) ∧ ChangesList (Found cfg') rest rest' ∧
      Keeps (ctx (.list (done ++ rest))) cfg'
  | done, [], key, ctx, cfg', _, _, h => by
    cases h
    exact ⟨[], rfl, rfl, .refl _⟩
  | done, v :: rest, key, ctx, cfg', hctx, ⟨hv, hrest⟩, h => by
    obtain ⟨cfg, hcfg, h⟩ := bind_eq_ok.mp h
    obtain ⟨v', rfl, hchanges, hkeeps⟩ := resolveProxies_eq_ok (hctx.list done rest) hv hcfg
    have hdone : ctx (.list (done ++ v' :: rest)) = ctx (.list ((done ++ [v']) ++ rest)) := by
      rw [← List.append_cons]
    have hlength : done.length + 1 = (done ++ [v']).length := by rw [List.length_append]; rfl
    rw [Function.comp_apply, hdone, hlength] at h
    obtain ⟨rest', rfl, hchanges', hkeeps'⟩ := resolveList_eq_ok (done ++ [v']) rest hctx hrest h
    rw [← hdone] at hkeeps'
    refine ⟨v' :: rest', by rw [← List.append_cons], ⟨v', rest', rfl, hchanges.mono hkeeps', hchanges'⟩, ?_⟩
    exact hkeeps.trans hkeeps'

theorem resolveItems_eq_ok : ∀ (done rest : Dict) {key : List Key} {ctx : Value → Value} {cfg' : Value},
    Frame key ctx → ((done ++ rest).map Prod.fst).Nodup → NodupKeysItems rest →
    resolveItems rest key (ctx (.dict (done ++ rest))) = .ok cfg' →
    ∃ rest', cfg' = ctx (.dict (done ++ rest')) ∧ ChangesItems (Found cfg') rest rest' ∧
      Keeps (ctx (.dict (done ++ rest))) cfg'
  | done, [], key, ctx, cfg', _, _, _, h => by
    cases h
    exact ⟨[], rfl, rfl, .refl _⟩
  | done, (n, v) :: rest, key, ctx, cfg', hctx, hnodup, ⟨hv, hrest⟩, h => by
    obtain ⟨cfg, hcfg, h⟩ := bind_eq_ok.mp h
    have hn : n ∉ done.map Prod.fst := by
      rw [List.map_append, List.map_cons] at hnodup
      exact fun hmem => (List.nodup_append.mp hnodup).2.2 _ hmem _ List.mem_cons_self rfl
    obtain ⟨v', rfl, hchanges, hkeeps⟩ := resolveProxies_eq_ok (hctx.dict hn rest) hv hcfg
    have hdone : ctx (.dict (done ++ (n, v') :: rest)) = ctx (.dict ((done ++ [(n, v')]) ++ rest)) := by
      rw [← List.append_cons]
    have hnodup' : ((done ++ [(n, v')] ++ rest).map Prod.fst).Nodup := by
      rw [← List.append_cons]
      simpa using hnodup
    rw [Function.comp_apply, hdone] at h
    obtain ⟨rest', rfl, hchanges', hkeeps'⟩ := resolveItems_eq_ok (done ++ [(n, v')]) rest hctx hnodup' hrest h
    rw [← hdone] at hkeeps'
    refine ⟨(n, v') :: rest', by rw [← List.append_cons],
      ⟨v', rest', rfl, hchanges.mono hkeeps', hchanges'⟩, ?_⟩
    exact hkeeps.trans hkeeps'

end

mutual

/-- No `ObjectProxy` is left. -/
def NoProxy : Value → Prop
  | .list l => NoProxyList l
  | .dict d => NoProxyItems d
  | .proxy _ _ _ => False
  | .none | .str _ | .bool _ | .int _ | .object _ _ => True
termination_by structural v => v

def NoProxyList : List Value → Prop
  | [] => True
  | v :: l => NoProxy v ∧ NoProxyList l
termination_by structural l => l

def NoProxyItems : List (String × Value) → Prop
  | [] => True
  | item :: d => NoProxyItem item ∧ NoProxyItems d
termination_by structural d => d

def NoProxyItem : String × Value → Prop
  | (_, v) => NoProxy v
termination_by structural item => item

end

mutual

theorem Changes.noProxy {cfg : Value} : ∀ {v v' : Value}, Changes (Found cfg) v v' → NoProxy v'
  | .list _, _, ⟨_, hl', h⟩ => hl' ▸ ChangesList.noProxy h
  | .dict _, _, ⟨_, hd', h⟩ => hd' ▸ ChangesItems.noProxy h
  | .proxy name group el, v', h => by
    have hfound : Found cfg name group el v' := h
    obtain ⟨group', i, rfl⟩ := hfound.eq_object
    trivial
  | .none, _, h | .str _, _, h | .bool _, _, h | .int _, _, h | .object _ _, _, h => by
    cases h
    trivial

theorem ChangesList.noProxy {cfg : Value} : ∀ {l l' : List Value}, ChangesList (Found cfg) l l' → NoProxyList l'
  | [], _, h => by
    cases h
    trivial
  | _ :: _, _, ⟨_, _, hl', hv, hrest⟩ => hl' ▸ ⟨Changes.noProxy hv, ChangesList.noProxy hrest⟩

theorem ChangesItems.noProxy {cfg : Value} : ∀ {d d' : Dict}, ChangesItems (Found cfg) d d' → NoProxyItems d'
  | [], _, h => by
    cases h
    trivial
  | (_, _) :: _, _, ⟨_, _, hd', hv, hrest⟩ => hd' ▸ ⟨Changes.noProxy hv, ChangesItems.noProxy hrest⟩

end

end Echronos.Xml
