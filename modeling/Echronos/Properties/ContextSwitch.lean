import Echronos.Armv7m.ContextSwitch
import Echronos.Ppce500.ContextSwitch

/-! # Tasks get their registers back

    A switch stores what the leaving task has to come back to in its stack, and loads what the other
    left with: the tasks of a system run as though each had a processor of its own. -/

namespace Echronos.Armv7m

open Schemes Schemes.Switching

variable {tasks : ℕ} {L : Stacks tasks} {t u : Fin tasks} {c c' : Cpu} {k : ℕ} {v : Frame}

@[simp] theorem Cpu.access_of_aligned {a : Word} (h : a.toNat % 4 = 0) : Cpu.access a c = some c :=
  if_pos h

/-- The memory once `rtos_internal_context_switch` has stored the context. -/
def savedMem (L : Stacks tasks) (t : Fin tasks) (k : ℕ) (c : Cpu) : Word → Word :=
  Function.update (storeWords c.mem (L.word t k) (c.frame lr).1)
    (L.getTaskContext t) (L.word t k)

theorem savedMem_of_notMem {x : Word} (hx : x ∉ span (L.word t k) CONTEXT_SIZE)
    (hcontext : x ≠ L.getTaskContext t) : savedMem L t k c x = c.mem x := by
  rw [savedMem, Function.update_of_ne hcontext]
  exact storeWords_of_notMem hx

theorem holdsFrame_savedMem (h : k + CONTEXT_SIZE ≤ L.stackSize t) :
    L.HoldsFrame CONTEXT_SIZE t k (c.frame lr).1 (savedMem L t k c) where
  le := h
  context := Function.update_self _ _ _
  words := by
    have hspan : ∀ x ∈ span (L.word t k) CONTEXT_SIZE, savedMem L t k c x = storeWords c.mem (L.word t k)
        (c.frame lr).1 x := by
      intro x hx
      refine Function.update_of_ne ?_ _ _
      rintro rfl
      exact Stacks.getTaskContext_notMem_stack (Stacks.span_word_subset h hx)
    rw [loadWords_congr hspan]
    exact loadWords_storeWords (Nat.le_of_ble_eq_true rfl)

/-- After the context is stored, the tasks' contexts are what they have to come back to. -/
theorem holds_savedMem (h : k + CONTEXT_SIZE ≤ L.stackSize t)
    (hsp : c.regs sp = L.word t (k + CONTEXT_SIZE)) (hsaved : (switching L).Saved () t c u v) :
    ∃ j, L.HoldsFrame CONTEXT_SIZE u j v.1 (savedMem L t k c) ∧ v.2 = L.word u (j + CONTEXT_SIZE) := by
  by_cases hut : u = t
  · subst hut
    rw [hsaved.1 rfl]
    exact ⟨k, holdsFrame_savedMem h, hsp⟩
  · obtain ⟨j, hj, hv⟩ := hsaved.2 hut
    have hown (x : Word) (hx : x ∉ span (L.stack t) (L.stackSize t)) :=
      savedMem_of_notMem (c := c) fun hmem => hx (Stacks.span_word_subset h hmem)
    exact ⟨j, hj.spares_of_own hown hut, hv⟩

/-- `rtos_internal_context_switch_first` loads a context that is saved. -/
theorem exists_execs_first (hcontext : c.regs 0 = L.getTaskContext u)
    (h : L.HoldsFrame CONTEXT_SIZE u k v.1 c.mem) (hv : v.2 = L.word u (k + CONTEXT_SIZE)) :
    ∃ c', c.execs rtosInternalContextSwitchFirst = some c' ∧ c'.mem = c.mem ∧
      c'.frame pc = v := by
  have hsp : (c.set sp (L.word u k)).regs sp = L.word u k := by simp
  have hp : ((c.set sp (L.word u k)).regs sp).toNat % 4 = 0 := by
    rw [hsp]
    exact Stacks.word_aligned
  refine ⟨{ (c.set sp (L.word u k)) with
    regs := (c.set sp (L.word u k)).popped [4, 5, 6, 7, 8, 9, 10, 11, 12, pc] }, ?_, rfl, ?_⟩
  · rw [rtosInternalContextSwitchFirst,
      Cpu.execs_cons (Cpu.exec_ldr hcontext Stacks.getTaskContext_aligned), h.context,
      Cpu.execs_cons (Cpu.exec_pop hp)]
    rfl
  · refine Prod.ext ((Cpu.map_popped (by decide)).trans ?_) ((Cpu.popped_sp (by decide)).trans ?_)
    · rw [hsp]
      exact h.words
    · rw [hsp, hv, Stacks.word, wordAt_wordAt]
      rfl

theorem exists_contextSwitch (h : k + CONTEXT_SIZE ≤ L.stackSize t)
    (hsp : c.regs sp = L.word t (k + CONTEXT_SIZE)) (hsaved : (switching L).Saved () t c u v) :
    ∃ c', contextSwitch L t u c = some c' ∧ c'.mem = savedMem L t k c ∧ c'.frame pc = v := by
  obtain ⟨j, hj, hv⟩ := holds_savedMem h hsp hsaved
  let pushed : Cpu := ⟨Function.update (c.call (L.getTaskContext u) (L.getTaskContext t)).regs sp
    (L.word t k), storeWords c.mem (L.word t k) (c.frame lr).1⟩
  have hpush : (c.call (L.getTaskContext u) (L.getTaskContext t)).exec
      (.push [4, 5, 6, 7, 8, 9, 10, 11, 12, lr]) = some pushed :=
    Cpu.exec_push (a := L.word t k) (hsp ▸ wordAt_sub) Stacks.word_aligned
  have hstr : pushed.exec (.str sp 1) = some { pushed with mem := savedMem L t k c } :=
    Cpu.exec_str rfl Stacks.getTaskContext_aligned
  rw [contextSwitch, rtosInternalContextSwitch, List.cons_append, List.cons_append, List.nil_append,
    Cpu.execs_cons hpush, Cpu.execs_cons hstr]
  exact exists_execs_first (u := u) rfl hj hv

theorem lawful : (switching L).Lawful where
  holds_of_runs := by
    rintro t u v c c' hruns hut ⟨k, hk, hv⟩
    exact ⟨k, hk.spares hruns hut, hv⟩
  exists_switch := by
    rintro ⟨⟩ t u v c ⟨k, hk, hsp⟩ hsaved
    obtain ⟨c', hswitch, hmem, hreturns⟩ := exists_contextSwitch hk hsp hsaved
    refine ⟨c', hswitch, fun x hx hspan => ?_, hreturns, fun w _ v' hw => ?_⟩
    · rw [hmem]
      rw [hsp, Stacks.word, wordAt_sub] at hspan
      exact savedMem_of_notMem hspan hx
    · obtain ⟨j, hj, hv⟩ := holds_savedMem hk hsp hw
      exact ⟨j, hmem ▸ hj, hv⟩

/-- A task that begins in the trampoline calls its function on an empty stack. -/
def Begins (L : Stacks tasks) (trampoline fn : Word) (t : Fin tasks) (v : Frame) : Prop :=
  ∀ c : Cpu, c.frame pc = v → c.regs pc = trampoline ∧
    ∃ c', c.execs rtosInternalTrampoline = some c' ∧ c'.regs pc = fn ∧
      c'.regs sp = L.word t (L.stackSize t)

theorem begins_of_words {trampoline fn : Word} {ws : List Word} (hfn : ws[0]? = some fn)
    (htrampoline : ws[9]? = some trampoline) :
    Begins L trampoline fn t (ws, L.word t (L.stackSize t)) := by
  intro c hc
  obtain ⟨hws, hsp⟩ := Prod.ext_iff.mp hc
  rw [← show _ = ws from hws] at hfn htrampoline
  refine ⟨Option.some.inj htrampoline, _, rfl, ?_, ?_⟩
  · rw [Cpu.set_regs, Function.update_self]
    exact Option.some.inj hfn
  · rw [Cpu.set_regs, Cpu.set_regs, Function.update_of_ne (by decide), Function.update_of_ne (by decide)]
    exact hsp

theorem contextInit_of_notMem {trampoline fn x : Word} {mem : Word → Word}
    (h : CONTEXT_SIZE ≤ L.stackSize t) (hx : x ∉ span (L.stack t) (L.stackSize t))
    (hcontext : x ≠ L.getTaskContext t) : contextInit L trampoline fn t mem x = mem x := by
  have hword : ∀ i < CONTEXT_SIZE, x ≠ wordAt (L.word t (L.stackSize t - CONTEXT_SIZE)) i := by
    rintro i hi rfl
    exact hx (Stacks.span_word_subset (n := CONTEXT_SIZE) (by omega) (wordAt_mem_span hi))
  rw [contextInit, Function.update_of_ne hcontext, Function.update_of_ne (hword _ (by decide)),
    Function.update_of_ne (hword _ (by decide))]

theorem exists_contextInit {trampoline fn : Word} {mem : Word → Word}
    (h : CONTEXT_SIZE ≤ L.stackSize t) :
    ∃ ws, L.HoldsFrame CONTEXT_SIZE t (L.stackSize t - CONTEXT_SIZE) ws
        (contextInit L trampoline fn t mem) ∧
      ws[0]? = some fn ∧ ws[9]? = some trampoline := by
  have hword : ∀ i < CONTEXT_SIZE,
      wordAt (L.word t (L.stackSize t - CONTEXT_SIZE)) i ≠ L.getTaskContext t := by
    intro i hi heq
    exact Stacks.getTaskContext_notMem_stack (u := t)
      (heq ▸ Stacks.span_word_subset (n := CONTEXT_SIZE) (by omega) (wordAt_mem_span hi))
  refine ⟨_, ⟨by omega, Function.update_self _ _ _, rfl⟩, ?_, ?_⟩
  · rw [getElem?_loadWords (by decide), contextInit, Function.update_of_ne (hword 0 (by decide)),
      Function.update_of_ne ((wordAt_inj (by decide) (by decide)).not.mpr (by decide)),
      CONTEXT_V1_IDX, Function.update_self]
  · rw [getElem?_loadWords (by decide), contextInit, Function.update_of_ne (hword 9 (by decide)),
      CONTEXT_PC_IDX, Function.update_self]

/-- The tasks of a system on ARMv7-M run as though each had a processor of its own. `start()` begins
    the first task, and a task that is switched to for the first time begins too. -/
theorem contextSwitch_takesTurns (L : Stacks tasks) (pos : 0 < tasks) (trampoline : Word)
    (fn : Fin tasks → Word) (hsize : ∀ t, CONTEXT_SIZE ≤ L.stackSize t) (c : Cpu) :
    ∃ c₀ fresh, start L pos trampoline fn c = some c₀ ∧ c₀.frame pc = fresh ⟨0, pos⟩ ∧
      (∀ t, Begins L trampoline (fn t) t (fresh t)) ∧
      Machine.TakesTurns (switching L) ⟨⟨0, pos⟩, c₀⟩ fresh := by
  let mem := (List.finRange tasks).foldl (fun mem t => contextInit L trampoline (fn t) t mem) c.mem
  have hinit (t : Fin tasks) : ∃ ws, L.HoldsFrame CONTEXT_SIZE t (L.stackSize t - CONTEXT_SIZE) ws mem ∧
      ws[0]? = some (fn t) ∧ ws[9]? = some trampoline :=
    Stacks.HoldsFrame.foldl (f := fun t mem => contextInit L trampoline (fn t) t mem)
      (Q := fun t ws => ws[0]? = some (fn t) ∧ ws[9]? = some trampoline)
      (fun t mem x hx => contextInit_of_notMem (hsize t) hx)
      (fun t mem => exists_contextInit (hsize t)) _ (List.mem_finRange t)
  choose ws hframe hfn htrampoline using hinit
  let fresh (t : Fin tasks) : Frame := (ws t, L.word t (L.stackSize t))
  have hsp (t : Fin tasks) : (fresh t).2 = L.word t (L.stackSize t - CONTEXT_SIZE + CONTEXT_SIZE) := by
    rw [Nat.sub_add_cancel (hsize t)]
  obtain ⟨c₀, hstart, hmem, hreturns⟩ := exists_execs_first (u := ⟨0, pos⟩) (v := fresh ⟨0, pos⟩)
    (c := ({ c with mem := mem } : Cpu).set 0 (L.getTaskContext ⟨0, pos⟩)) rfl (hframe _) (hsp _)
  refine ⟨c₀, fresh, hstart, hreturns, fun t => begins_of_words (hfn t) (htrampoline t), ?_⟩
  exact Machine.takesTurns lawful fun t _ => ⟨_, hmem ▸ hframe t, hsp t⟩

theorem contextSwitch_takesTurns_two :
    ∃ c₀ fresh, start twoStacks Nat.two_pos 0x1001 (fun _ => 0x2001) ⟨fun _ => 0, fun _ => 0⟩ = some c₀ ∧
      c₀.frame pc = fresh ⟨0, Nat.two_pos⟩ ∧
      (∀ t, Begins twoStacks 0x1001 0x2001 t (fresh t)) ∧
      Machine.TakesTurns (switching twoStacks) ⟨⟨0, Nat.two_pos⟩, c₀⟩ fresh :=
  contextSwitch_takesTurns twoStacks Nat.two_pos 0x1001 _ (fun _ => Nat.le_of_ble_eq_true rfl) _

end Echronos.Armv7m

namespace Echronos.Ppce500

open Schemes Schemes.Switching

variable {tasks : ℕ} {L : Stacks tasks} {t u : Fin tasks} {c c' : Cpu} {k : ℕ} {v : Frame}

theorem map_update {r : ℕ} {a : Word} {f : ℕ → Word} (h : r < 14) :
    (upTo31 14).map (Function.update f r a) = (upTo31 14).map f := by
  refine List.map_congr_left fun i hi => Function.update_of_ne ?_ _ _
  obtain ⟨hle, -⟩ := List.mem_range'_1.mp hi
  omega

/-- The memory once `rtos_internal_context_switch` has stored the context. -/
def savedMem (L : Stacks tasks) (t : Fin tasks) (k : ℕ) (c : Cpu) : Word → Word :=
  let p := L.word t k
  let mem := Function.update c.mem p (c.gpr sp)
  let mem := Function.update mem (wordAt p 21) (c.special .lr)
  Function.update (storeWords mem (wordAt p 2) ((upTo31 14).map c.gpr)) (L.getTaskContext t) p

theorem aligned_word {i : ℕ} : Cpu.Aligned (wordAt (L.word t k) i) := by
  rw [Stacks.word, wordAt_wordAt]
  exact Stacks.word_aligned

theorem exists_execs_first (hcontext : c.gpr 3 = L.getTaskContext u) {ws : List Word}
    (h : L.HoldsFrame CONTEXT_SIZE u k ws c.mem) :
    ∃ c', c.execs rtosInternalContextSwitchFirst = some c' ∧ c'.mem = c.mem ∧
      c'.frame c'.pc = frameOf ws (L.word u (k + CONTEXT_FRAME_SIZE)) := by
  let p := L.word u k
  let lr := c.mem (wordAt p 21)
  let c₁ := c.set sp p
  let c₂ := (c₁.set 0 lr).setSpecial .lr lr
  let c₃ : Cpu := { c₂ with gpr := setAll c₂.gpr (upTo31 14) (loadWords c.mem (wordAt p 2) 18) }
  have hload : c.gpr 3 + 0 = L.getTaskContext u := by rw [hcontext]; exact BitVec.add_zero _
  have hcode : c.execs rtosInternalContextSwitchFirst =
      some { c₃.set sp (c₃.gpr sp + 80) with pc := lr } := by
    rw [rtosInternalContextSwitchFirst, Cpu.execs_lwz hload Stacks.getTaskContext_aligned, h.context,
      Cpu.execs_lwz (a := wordAt p 21) rfl aligned_word, Cpu.execs_mt,
      Cpu.execs_lmw (a := wordAt p 2) rfl aligned_word, Cpu.execs_addi, Cpu.execs_blr]
    rfl
  have hsp : c₃.gpr sp + 80 = L.word u (k + CONTEXT_FRAME_SIZE) := by
    have hloaded : c₃.gpr sp = p := setAll_of_notMem (by decide)
    have hp : p + 80 = wordAt p CONTEXT_FRAME_SIZE := rfl
    rw [hloaded, hp]
    exact wordAt_wordAt
  have hgprs : (upTo31 14).map c₃.gpr = (ws.drop 2).take 18 := by
    have hmap : (upTo31 14).map c₃.gpr = loadWords c.mem (wordAt p 2) 18 :=
      map_setAll List.nodup_range' length_loadWords.symm
    have hdrop : ws.drop 2 = loadWords c.mem (wordAt p 2) 20 := by
      rw [← h.words]
      exact drop_loadWords (n := 20) (i := 2)
    rw [hmap, hdrop, take_loadWords (by decide)]
  have hlr : ws.getD 21 0 = lr := by
    rw [← h.words, List.getD_eq_getElem?_getD, getElem?_loadWords (by decide), Option.getD_some]
  refine ⟨_, hcode, rfl, ?_⟩
  change Frame.mk ((upTo31 14).map (Function.update c₃.gpr sp (c₃.gpr sp + 80))) lr (c₃.gpr sp + 80) = _
  rw [map_update (by decide), hgprs, hsp, ← hlr]
  rfl

theorem savedMem_of_notMem {x : Word} (hx : x ∉ span (L.word t k) CONTEXT_FRAME_SIZE)
    (hlr : x ≠ wordAt (L.word t k) 21) (hcontext : x ≠ L.getTaskContext t) :
    savedMem L t k c x = c.mem x := by
  have hp : x ≠ L.word t k := by
    rintro rfl
    exact hx ⟨0, by decide, wordAt_zero.symm⟩
  have hgprs : x ∉ span (wordAt (L.word t k) 2) ((upTo31 14).map c.gpr).length := fun h =>
    hx (span_wordAt_subset (Nat.le_of_ble_eq_true rfl) h)
  rw [savedMem, Function.update_of_ne hcontext, storeWords_of_notMem hgprs, Function.update_of_ne hlr,
    Function.update_of_ne hp]

theorem holdsFrame_savedMem (h : k + CONTEXT_SIZE ≤ L.stackSize t)
    (hsp : c.gpr sp = L.word t (k + CONTEXT_FRAME_SIZE)) :
    ∃ ws, L.HoldsFrame CONTEXT_SIZE t k ws (savedMem L t k c) ∧
      c.frame (c.special .lr) = frameOf ws (L.word t (k + CONTEXT_FRAME_SIZE)) := by
  have hspan : ∀ x ∈ span (L.word t k) CONTEXT_SIZE, x ≠ L.getTaskContext t := by
    rintro x hx rfl
    exact Stacks.getTaskContext_notMem_stack (Stacks.span_word_subset h hx)
  have hgprs : loadWords (savedMem L t k c) (wordAt (L.word t k) 2) 18 = (upTo31 14).map c.gpr := by
    have hstored (mem : Word → Word) : loadWords (storeWords mem (wordAt (L.word t k) 2)
        ((upTo31 14).map c.gpr)) (wordAt (L.word t k) 2) 18 = (upTo31 14).map c.gpr :=
      loadWords_storeWords (Nat.le_of_ble_eq_true rfl)
    rw [← hstored]
    refine loadWords_congr fun x hx => Function.update_of_ne (hspan x ?_) _ _
    exact span_wordAt_subset (by decide) hx
  have hlr : savedMem L t k c (wordAt (L.word t k) 21) = c.special .lr := by
    have hnot : wordAt (L.word t k) 21 ∉ span (wordAt (L.word t k) 2) ((upTo31 14).map c.gpr).length := by
      rintro ⟨i, hi, heq⟩
      rw [wordAt_wordAt] at heq
      have hi : i < 18 := hi
      have := (wordAt_inj (by decide) (by omega)).mp heq
      omega
    rw [savedMem, Function.update_of_ne (hspan _ (wordAt_mem_span (by decide))),
      storeWords_of_notMem hnot, Function.update_self]
  refine ⟨_, ⟨h, Function.update_self _ _ _, rfl⟩, ?_⟩
  have hdrop : (loadWords (savedMem L t k c) (L.word t k) CONTEXT_SIZE).drop 2 =
      loadWords (savedMem L t k c) (wordAt (L.word t k) 2) 20 := drop_loadWords (n := 20) (i := 2)
  have hpc : (loadWords (savedMem L t k c) (L.word t k) CONTEXT_SIZE).getD 21 0 = c.special .lr := by
    rw [List.getD_eq_getElem?_getD, getElem?_loadWords (by decide), Option.getD_some, hlr]
  change Frame.mk ((upTo31 14).map c.gpr) (c.special .lr) (c.gpr sp) = Frame.mk _ _ _
  rw [CONTEXT_GPR14_IDX, hdrop, take_loadWords (by decide), hgprs, hsp]
  exact congrArg (Frame.mk _ · _) hpc.symm

/-- After the context is stored, the tasks' contexts are what they have to come back to. -/
theorem holds_savedMem (h : k + CONTEXT_SIZE ≤ L.stackSize t)
    (hsp : c.gpr sp = L.word t (k + CONTEXT_FRAME_SIZE)) (hsaved : (switching L).Saved () t c u v) :
    ∃ j ws, L.HoldsFrame CONTEXT_SIZE u j ws (savedMem L t k c) ∧
      v = frameOf ws (L.word u (j + CONTEXT_FRAME_SIZE)) := by
  by_cases hut : u = t
  · subst hut
    obtain ⟨ws, hws, hframe⟩ := holdsFrame_savedMem h hsp
    exact ⟨k, ws, hws, (hsaved.1 rfl).trans hframe⟩
  · obtain ⟨j, ws, hj, hv⟩ := hsaved.2 hut
    refine ⟨j, ws, hj.spares_of_own (fun x hx hcontext => savedMem_of_notMem ?_ ?_ hcontext) hut, hv⟩
    · exact fun hmem => hx (Stacks.span_word_subset (by omega) (span_wordAt_subset (i := 0) (m := 20)
        (n := CONTEXT_SIZE) (by decide) (by rwa [wordAt_zero])))
    · rintro rfl
      exact hx (Stacks.span_word_subset h (wordAt_mem_span (by decide)))

theorem exists_contextSwitch (h : k + CONTEXT_SIZE ≤ L.stackSize t)
    (hsp : c.gpr sp = L.word t (k + CONTEXT_FRAME_SIZE)) (hsaved : (switching L).Saved () t c u v) :
    ∃ c', contextSwitch L t u c = some c' ∧ c'.mem = savedMem L t k c ∧ c'.frame c'.pc = v := by
  obtain ⟨j, ws, hj, rfl⟩ := holds_savedMem h hsp hsaved
  let p := L.word t k
  let c₀ := c.call (L.getTaskContext u) (L.getTaskContext t)
  let c₁ := c₀.set 0 (c₀.special .lr)
  let c₂ := (c₁.store p (c₁.gpr sp)).set sp p
  let c₃ := c₂.store (wordAt p 21) (c₂.gpr 0)
  let c₄ : Cpu := { c₃ with mem := storeWords c₃.mem (wordAt p 2) ((upTo31 14).map c₃.gpr) }
  let c₅ := c₄.store (L.getTaskContext t) (c₄.gpr sp)
  have hp : c₁.gpr sp + -80 = p := by
    change c.gpr sp + -80 = p
    rw [hsp, Stacks.word, ← BitVec.sub_eq_add_neg]
    exact wordAt_sub (n := 20)
  have hsp₂ : c₂.gpr sp = p := by simp [c₂, Cpu.set]
  have h21 : c₂.gpr sp + 84 = wordAt p 21 := by rw [hsp₂]; rfl
  have h2 : c₃.gpr sp + 8 = wordAt p 2 := by rw [show c₃.gpr sp = p from hsp₂]; rfl
  have hcontext : c₄.gpr 4 + 0 = L.getTaskContext t := BitVec.add_zero _
  have hcode : contextSwitch L t u c = c₅.execs rtosInternalContextSwitchFirst :=
    Cpu.execs_mf.trans <| (Cpu.execs_stwu hp Stacks.word_aligned).trans <|
      (Cpu.execs_stw h21 aligned_word).trans <| (Cpu.execs_stmw h2 aligned_word).trans <|
      Cpu.execs_stw hcontext Stacks.getTaskContext_aligned
  have hmem : c₅.mem = savedMem L t k c := by
    have hgprs : (upTo31 14).map c₃.gpr = (upTo31 14).map c.gpr := by
      refine (map_update (by decide)).trans ((map_update (by decide)).trans ?_)
      exact (map_update (by decide)).trans (map_update (by decide))
    change Function.update (storeWords c₃.mem (wordAt p 2) ((upTo31 14).map c₃.gpr)) _ (c₂.gpr sp) = _
    rw [hgprs, hsp₂]
    rfl
  have hthree : c₅.gpr 3 = L.getTaskContext u := by
    simp [c₅, c₄, c₃, c₂, c₁, c₀, Cpu.store, Cpu.set, Cpu.call, sp]
  have hj₅ : L.HoldsFrame CONTEXT_SIZE u j ws c₅.mem := by rwa [hmem]
  obtain ⟨c', hexecs, hmem', hframe⟩ := exists_execs_first hthree hj₅
  exact ⟨c', hcode.trans hexecs, hmem'.trans hmem, hframe⟩

theorem lawful : (switching L).Lawful where
  holds_of_runs := by
    rintro t u v c c' hruns hut ⟨k, ws, hk, hv⟩
    exact ⟨k, ws, hk.spares hruns hut, hv⟩
  exists_switch := by
    rintro ⟨⟩ t u v c ⟨k, hk, hsp⟩ hsaved
    obtain ⟨c', hswitch, hmem, hreturns⟩ := exists_contextSwitch hk hsp hsaved
    refine ⟨c', ?_, fun x hx hlr hspan => ?_, hreturns, fun w _ v' hw => ?_⟩
    · dsimp only [switching]
      exact hswitch
    · rw [hmem]
      rw [hsp, Stacks.word, wordAt_sub] at hspan
      rw [hsp, Stacks.word, wordAt_wordAt] at hlr
      exact savedMem_of_notMem hspan (by rwa [Stacks.word, wordAt_wordAt]) hx
    · obtain ⟨j, ws, hj, hv⟩ := holds_savedMem hk hsp hw
      exact ⟨j, ws, hmem ▸ hj, hv⟩

theorem contextInit_eq {fn : Word} {mem : Word → Word} (h : L.stackSize t = k + CONTEXT_SIZE) :
    contextInit L fn t mem = Function.update (Function.update (Function.update
      (Function.update mem (L.word t (k + 20)) 0) (L.word t (k + 21)) fn) (L.word t k)
      (L.word t (k + 20))) (L.getTaskContext t) (L.word t k) := by
  have hinit : L.word t (L.stackSize t - CONTEXT_HEADER_SIZE) = L.word t (k + 20) := by rw [h]; rfl
  have hcontext : L.word t (k + 20) - BitVec.ofNat 32 (4 * CONTEXT_FRAME_SIZE) = L.word t k :=
    wordAt_sub (n := 20)
  have hlr : wordAt (L.word t (k + 20)) CONTEXT_LR_IDX = L.word t (k + 21) := wordAt_wordAt
  simp only [contextInit, CONTEXT_BC_IDX, wordAt_zero, hinit, hcontext, hlr]

theorem contextInit_of_notMem {fn x : Word} {mem : Word → Word} (h : CONTEXT_SIZE ≤ L.stackSize t)
    (hx : x ∉ span (L.stack t) (L.stackSize t)) (hcontext : x ≠ L.getTaskContext t) :
    contextInit L fn t mem x = mem x := by
  obtain ⟨k, hk⟩ := Nat.exists_eq_add_of_le' h
  have hword : ∀ i < k + CONTEXT_SIZE, x ≠ L.word t i := by
    rintro i hi rfl
    exact hx (wordAt_mem_span (hk ▸ hi))
  have hsize : CONTEXT_SIZE = 22 := rfl
  rw [contextInit_eq hk, Function.update_of_ne hcontext, Function.update_of_ne (hword k (by omega)),
    Function.update_of_ne (hword (k + 21) (by omega)), Function.update_of_ne (hword (k + 20) (by omega))]

theorem exists_contextInit {fn : Word} {mem : Word → Word} (h : CONTEXT_SIZE ≤ L.stackSize t) :
    ∃ ws, L.HoldsFrame CONTEXT_SIZE t (L.stackSize t - CONTEXT_SIZE) ws (contextInit L fn t mem) ∧
      ws[21]? = some fn := by
  obtain ⟨k, hk⟩ := Nat.exists_eq_add_of_le' h
  have hle : L.stackSize t ≤ 2 ^ 30 := Stacks.stackSize_le
  have hsize : CONTEXT_SIZE = 22 := rfl
  have hcontext : L.word t (k + 21) ≠ L.getTaskContext t := by
    intro heq
    have hmem : L.word t (k + 21) ∈ span (L.stack t) (L.stackSize t) := wordAt_mem_span (by omega)
    rw [heq] at hmem
    exact Stacks.getTaskContext_notMem_stack hmem
  have hne : L.word t (k + 21) ≠ L.word t k := (wordAt_inj (by omega) (by omega)).not.mpr (by omega)
  rw [contextInit_eq hk, hk, Nat.add_sub_cancel]
  refine ⟨_, ⟨by omega, Function.update_self _ _ _, rfl⟩, ?_⟩
  have hlr : wordAt (L.word t k) 21 = L.word t (k + 21) := wordAt_wordAt
  rw [getElem?_loadWords (by decide), hlr, Function.update_of_ne hcontext, Function.update_of_ne hne,
    Function.update_self]

/-- The tasks of a system on the e500 run as though each had a processor of its own. `start()` begins
    the first task in its function, below an empty stack frame, and so does a switch to a task for the
    first time. -/
theorem stackFrame_takesTurns (L : Stacks tasks) (pos : 0 < tasks) (fn : Fin tasks → Word)
    (hsize : ∀ t, CONTEXT_SIZE ≤ L.stackSize t) (c : Cpu) :
    ∃ c₀ fresh, start L pos fn c = some c₀ ∧ c₀.frame c₀.pc = fresh ⟨0, pos⟩ ∧
      (∀ t, (fresh t).pc = fn t ∧ (fresh t).sp = L.word t (L.stackSize t - CONTEXT_HEADER_SIZE)) ∧
      Machine.TakesTurns (switching L) ⟨⟨0, pos⟩, c₀⟩ fresh := by
  let mem := (List.finRange tasks).foldl (fun mem t => contextInit L (fn t) t mem) c.mem
  have hinit (t : Fin tasks) : ∃ ws, L.HoldsFrame CONTEXT_SIZE t (L.stackSize t - CONTEXT_SIZE) ws mem ∧
      ws[21]? = some (fn t) :=
    Stacks.HoldsFrame.foldl (f := fun t mem => contextInit L (fn t) t mem)
      (Q := fun t ws => ws[21]? = some (fn t)) (fun t mem x hx => contextInit_of_notMem (hsize t) hx)
      (fun t mem => exists_contextInit (hsize t)) _ (List.mem_finRange t)
  choose ws hframe hfn using hinit
  let fresh (t : Fin tasks) : Frame :=
    frameOf (ws t) (L.word t (L.stackSize t - CONTEXT_SIZE + CONTEXT_FRAME_SIZE))
  obtain ⟨c₀, hstart, hmem, hreturns⟩ := exists_execs_first (u := ⟨0, pos⟩)
    (c := ({ c with mem := mem } : Cpu).set 3 (L.getTaskContext ⟨0, pos⟩)) rfl (hframe _)
  refine ⟨c₀, fresh, hstart, hreturns, fun t => ⟨?_, ?_⟩, ?_⟩
  · change (ws t).getD 21 0 = fn t
    rw [List.getD_eq_getElem?_getD, hfn, Option.getD_some]
  · have hsize := hsize t
    have hwords : CONTEXT_SIZE = 22 := rfl
    have hheader : L.stackSize t - CONTEXT_SIZE + 20 = L.stackSize t - 2 := by omega
    exact congrArg (L.word t) hheader
  · exact Machine.takesTurns lawful fun t _ => ⟨_, ws t, hmem ▸ hframe t, rfl⟩

theorem stackFrame_takesTurns_two :
    ∃ c₀ fresh, start twoStacks Nat.two_pos (fun _ => 0x2000) ⟨fun _ => 0, fun _ => 0, 0, fun _ => 0⟩ =
        some c₀ ∧
      c₀.frame c₀.pc = fresh ⟨0, Nat.two_pos⟩ ∧
      (∀ t, (fresh t).pc = 0x2000 ∧
        (fresh t).sp = twoStacks.word t (twoStacks.stackSize t - CONTEXT_HEADER_SIZE)) ∧
      Machine.TakesTurns (switching twoStacks) ⟨⟨0, Nat.two_pos⟩, c₀⟩ fresh :=
  stackFrame_takesTurns twoStacks Nat.two_pos _ (fun _ => Nat.le_of_ble_eq_true rfl) _

end Echronos.Ppce500
