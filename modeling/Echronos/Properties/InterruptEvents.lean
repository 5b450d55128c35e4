import Echronos.Kernel.Config
import Echronos.Ppce500.InterruptEvent

/-! # Interrupt events on PowerPC e500

    An interrupt service routine that runs between the load and the store of
    `interrupt_event &= ~(1U << i)` has its update of `interrupt_event` overwritten. The loaded word
    still holds the events that were pending before, and event `i` itself is about to be handled: so
    exactly the other events are lost when they are raised there. -/

namespace Echronos.Ppce500

open Schemes

namespace EventSystem

variable {e : EventConfig} {s s' : EventSystem e}

/-- Every event that was raised and not handled since is pending, or in the local copy. -/
def Kept (s : EventSystem e) : Prop :=
  ∀ j, s.unhandled j → s.irq.interruptEvent.getLsbD j ∨ s.tmp.getLsbD j

/-- An event raised between the load and the store of `interrupt_event &= ~(1U << i)` is `i` itself
    or pending already when the word is loaded. -/
def Spared : EventAct e → EventSystem e → Prop
  | .interruptEventRaise j, s =>
    ∀ tmp i r, s.process = some (.store tmp i r) → j.val = i ∨ r.getLsbD j
  | .next, _ => True

instance (a : EventAct e) (s : EventSystem e) : Decidable (Spared a s) :=
  match a, hp : s.process with
  | .next, _ => .isTrue trivial
  | .interruptEventRaise j, some (.store tmp i r) =>
    decidable_of_iff (j.val = i ∨ r.getLsbD j) (by simp [Spared, hp])
  | .interruptEventRaise _, none | .interruptEventRaise _, some .enter
  | .interruptEventRaise _, some .clear | .interruptEventRaise _, some .copy
  | .interruptEventRaise _, some (.enable _) | .interruptEventRaise _, some (.loop _)
  | .interruptEventRaise _, some (.load _ _) | .interruptEventRaise _, some (.handle _ _)
  | .interruptEventRaise _, some (.mask _ _) => .isTrue (by simp [Spared, hp])

/-- What the values of the local variables are worth at each point. -/
def At (s : EventSystem e) : Process → Prop
  | .enter | .clear | .copy => True
  | .enable tmp | .loop tmp => Within tmp s.irq.interruptEvent
  | .load tmp i => tmp.getLsbD i ∧ Within tmp s.irq.interruptEvent
  | .store tmp i r => tmp.getLsbD i ∧ Within tmp r ∧ Within r s.irq.interruptEvent ∧
      ∀ k, s.irq.interruptEvent.getLsbD k → k = i ∨ r.getLsbD k
  | .handle tmp i => tmp.getLsbD i ∧ Within (clearBit tmp i) s.irq.interruptEvent
  | .mask tmp i => Within (clearBit tmp i) s.irq.interruptEvent ∧
      ∀ j, s.unhandled j → j.val = i → s.irq.interruptEvent.getLsbD j

structure Sound (s : EventSystem e) : Prop where
  kept : s.Kept
  point : ∀ p, s.process = some p → s.At p

theorem Sound.start : Sound (start (e := e)) where
  kept := by simp [Kept, EventSystem.start]
  point := by simp [EventSystem.start]

/-- The interrupt service routine sets the bit of its event, which the processor's word has room
    for. -/
theorem Sound.raise (h : Sound s) {j : Fin e.interruptEvents}
    (hj : Spared (.interruptEventRaise j) s)
    (hstep : step (.interruptEventRaise j) s = some s') : Sound s' := by
  obtain ⟨-, ⟨⟩⟩ := Option.ite_none_right_eq_some.mp hstep
  have hword : ∀ k, (s.irq.interruptEventRaise j).interruptEvent.getLsbD k =
      (s.irq.interruptEvent.getLsbD k || decide (j.val = k)) := fun k => by
    have : (j : ℕ) < 32 := lt_of_lt_of_le j.isLt e.interruptEvents_le
    rw [getLsbD_interruptEventRaise, decide_eq_true this, Bool.true_and]
  have hunhandled : ∀ k, Function.update s.unhandled j true k = true → k = j ∨ s.unhandled k = true := by
    intro k hk
    by_cases hkj : k = j
    · exact .inl hkj
    · exact .inr (by simpa [hkj] using hk)
  refine ⟨fun k hk => ?_, fun p hp => ?_⟩
  · rcases hunhandled k hk with rfl | hk
    · exact .inl (by simp [hword])
    · exact (h.kept k hk).imp (fun hk => by simp [hword, hk]) id
  · have hat := h.point p hp
    cases p with
    | enter | clear | copy => trivial
    | enable tmp | loop tmp => exact hat.raise j
    | load tmp i => exact ⟨hat.1, hat.2.raise j⟩
    | store tmp i r =>
      obtain ⟨hi, htmp, hr, hback⟩ := hat
      refine ⟨hi, htmp, hr.raise j, fun k hk => ?_⟩
      rw [hword, Bool.or_eq_true, decide_eq_true_eq] at hk
      rcases hk with hk | rfl
      · exact hback k hk
      · exact hj tmp i r hp
    | handle tmp i => exact ⟨hat.1, hat.2.raise j⟩
    | mask tmp i =>
      refine ⟨hat.1.raise j, fun k hk hki => ?_⟩
      rcases hunhandled k hk with rfl | hk
      · simp [hword]
      · simp [hword, hat.2 k hk hki]

/-- `interrupt_event_process()` makes its next access. -/
theorem Sound.next (h : Sound s) (hstep : step .next s = some s') : Sound s' := by
  cases hp : s.process with
  | none =>
    simp only [step, hp, Option.some.injEq] at hstep
    subst hstep
    refine ⟨fun j hj => by simpa [tmp, hp, Process.tmp] using h.kept j hj, fun p hp' => ?_⟩
    cases hp'
    trivial
  | some p =>
    have hat := h.point p hp
    have hkept : ∀ j, s.unhandled j → s.irq.interruptEvent.getLsbD j ∨ p.tmp.getLsbD j := by
      simpa [Kept, tmp, hp] using h.kept
    simp only [step, hp, Option.some.injEq] at hstep
    subst hstep
    -- all points but `handle` leave `unhandled` as it is
    have hsame {q : Irq} {o : Option Process}
        (hk : ∀ j, s.unhandled j → q.interruptEvent.getLsbD j ∨ (o.elim 0 Process.tmp).getLsbD j)
        (hat : ∀ p, o = some p → At ⟨q, o, s.unhandled⟩ p) :
        Sound ⟨q, o, fun j => s.unhandled j && (none != some j.val)⟩ := by
      have : (fun j => s.unhandled j && ((none : Option ℕ) != some j.val)) = s.unhandled := by
        funext j
        simp
      rw [this]
      exact ⟨hk, hat⟩
    cases p with
    | enter =>
      have hword : ∀ j, s.unhandled j → s.irq.interruptEvent.getLsbD j := by
        simpa [Process.tmp] using hkept
      simp only [interruptEventProcess, Process.handles]
      split_ifs
      · exact hsame (fun j hj => .inl (hword j hj)) (by rintro _ ⟨⟩)
      · exact hsame (fun j hj => .inl (hword j hj)) (by rintro _ ⟨⟩; trivial)
      · exact hsame (fun j hj => .inl (hword j hj)) (by rintro _ ⟨⟩; exact fun _ => id)
    | clear => exact hsame hkept (by rintro _ ⟨⟩; trivial)
    | copy =>
      have hword : ∀ j, s.unhandled j → s.irq.interruptEvent.getLsbD j := by
        simpa [Process.tmp] using hkept
      exact hsame (fun j hj => .inl (hword j hj)) (by rintro _ ⟨⟩; exact fun _ => id)
    | enable tmp => exact hsame hkept (by rintro _ ⟨⟩; exact hat)
    | loop tmp =>
      simp only [interruptEventProcess, Process.handles]
      split_ifs with htmp
      · refine hsame (fun j hj => .inl ?_) (by rintro _ ⟨⟩)
        simpa [Process.tmp, htmp] using hkept j hj
      · exact hsame hkept (by rintro _ ⟨⟩; exact ⟨getLsbD_builtinFfs htmp, hat⟩)
    | load tmp i =>
      refine hsame hkept ?_
      rintro _ ⟨⟩
      exact ⟨hat.1, hat.2, fun _ => id, fun _ hk => .inr hk⟩
    | store tmp i r =>
      obtain ⟨hi, htmp, hr, hback⟩ := hat
      refine hsame (fun j hj => ?_) ?_
      · rcases hkept j hj with hj | hj
        · by_cases hji : j.val = i
          · exact .inr (hji ▸ hi)
          · have hclear : (clearBit r i).getLsbD j := by
              rw [getLsbD_clearBit, (hback j hj).resolve_left hji]
              simpa using hji
            exact .inl hclear
        · exact .inr hj
      · rintro _ ⟨⟩
        exact ⟨hi, htmp.clearBit i⟩
    | handle tmp i =>
      refine ⟨fun j hj => ?_, ?_⟩
      · rw [Bool.and_eq_true] at hj
        exact hkept j hj.1
      · rintro _ ⟨⟩
        refine ⟨hat.2, fun j hj hji => ?_⟩
        simp [Process.handles, hji] at hj
    | mask tmp i =>
      obtain ⟨hword, hagain⟩ := hat
      refine hsame (fun j hj => ?_) (by rintro _ ⟨⟩; exact hword)
      by_cases hji : j.val = i
      · exact .inl (hagain j hj hji)
      · refine (hkept j hj).imp id fun (hj : tmp.getLsbD j) => ?_
        have hclear : (clearBit tmp i).getLsbD j := by
          rw [getLsbD_clearBit, hj]
          simpa using hji
        exact hclear

/-- Whether interrupts are enabled does not matter. -/
theorem Sound.congr (h : Sound s) (hword : s'.irq.interruptEvent = s.irq.interruptEvent)
    (hprocess : s'.process = s.process) (hunhandled : s'.unhandled = s.unhandled) : Sound s' where
  kept j hj := by
    rw [hword, tmp, hprocess]
    exact h.kept j (hunhandled ▸ hj)
  point p hp := by
    have hat : s'.At p ↔ s.At p := by cases p <;> simp only [At, hword, hunhandled]
    exact hat.mpr (h.point p (hprocess ▸ hp))

/-- With no call under way and no bit set, no event is left. -/
theorem Kept.handled (h : s.Kept) (hprocess : s.process = none) (hword : s.irq.interruptEvent = 0)
    (j : Fin e.interruptEvents) : s.unhandled j = false := by
  by_contra hj
  simpa [tmp, hprocess, hword] using h j (Bool.of_not_eq_false hj)

theorem Sound.step {a : EventAct e} (h : Sound s) (ha : Spared a s)
    (hstep : step a s = some s') : Sound s' := by
  cases a with
  | interruptEventRaise j => exact h.raise ha hstep
  | next => exact h.next hstep

theorem Reach.sound (h : Reach EventSystem.step Spared EventSystem.start s) : Sound s :=
  h.invariant .start fun _ _ _ _ hs ha hstep => hs.step ha hstep

/-! ### Whatever is lost -/

/-- The point that the next access is made from, and its effect on what is unhandled. -/
theorem next_eq (hstep : step .next s = some s') :
    (s.process = none ∧ s' = { s with process := some .enter }) ∨
    ∃ p, s.process = some p ∧
      s' = ⟨(interruptEventProcess e.interruptEvents e.preemptionSupport p s.irq).2,
        (interruptEventProcess e.interruptEvents e.preemptionSupport p s.irq).1,
        fun j => s.unhandled j && p.handles != some j.val⟩ := by
  cases hp : s.process with
  | none =>
    simp only [EventSystem.step, hp, Option.some.injEq] at hstep
    exact .inl ⟨rfl, hstep.symm⟩
  | some p =>
    simp only [EventSystem.step, hp, Option.some.injEq] at hstep
    exact .inr ⟨p, rfl, hstep.symm⟩

theorem unhandled_next (hstep : step .next s = some s') (j : Fin e.interruptEvents) :
    s'.unhandled j = (s.unhandled j && s.process.bind Process.handles != some j.val) := by
  rcases next_eq hstep with ⟨hp, rfl⟩ | ⟨p, hp, rfl⟩
  · simp [hp]
  · rw [hp]
    rfl

/-- Where `interrupt_event_process()` has interrupts disabled. -/
def masking (s : EventSystem e) : Bool :=
  match s.process with
  | some .clear | some .copy | some (.enable _) => true
  | _ => false

theorem masking_next (hstep : step .next s = some s') (h : s.irq.interruptsEnabled = !s.masking) :
    s'.irq.interruptsEnabled = !s'.masking := by
  rcases next_eq hstep with ⟨hp, rfl⟩ | ⟨p, hp, rfl⟩
  · simpa [masking, hp] using h
  · cases p with
    | enter =>
      simp only [interruptEventProcess]
      split_ifs
      · simpa [masking, hp, Irq.preemptClear] using h
      · rfl
      · simpa [masking, hp] using h
    | clear | copy => simpa [masking, hp, interruptEventProcess, Irq.preemptClear] using h
    | enable tmp => rfl
    | loop tmp =>
      simp only [interruptEventProcess]
      split_ifs <;> simpa [masking, hp] using h
    | load tmp i | store tmp i r | handle tmp i | mask tmp i =>
      simpa [masking, hp, interruptEventProcess] using h

/-- The bits of the local variables that are yet to be cleared are set in the word. -/
def Copied (s : EventSystem e) : Process → Prop
  | .enter | .clear | .copy => True
  | .enable tmp | .loop tmp => Within tmp s.irq.interruptEvent
  | .load tmp i => tmp.getLsbD i ∧ Within tmp s.irq.interruptEvent
  | .store tmp i r => tmp.getLsbD i ∧ Within tmp r ∧ Within r s.irq.interruptEvent
  | .handle tmp i | .mask tmp i => Within (clearBit tmp i) s.irq.interruptEvent

/-- What holds of the word whether or not events are lost. -/
structure Backed (s : EventSystem e) : Prop where
  lt : ∀ k, s.irq.interruptEvent.getLsbD k → k < e.interruptEvents
  point : ∀ p, s.process = some p → s.Copied p

theorem Backed.start : Backed (start (e := e)) where
  lt := by simp [EventSystem.start]
  point := by simp [EventSystem.start]

theorem Backed.raise (h : Backed s) (j : Fin e.interruptEvents) {unhandled : Fin e.interruptEvents → Bool} :
    Backed { s with irq := s.irq.interruptEventRaise j, unhandled := unhandled } where
  lt k hk := by
    rw [getLsbD_interruptEventRaise, Bool.or_eq_true, Bool.and_eq_true, decide_eq_true_eq,
      decide_eq_true_eq] at hk
    rcases hk with hk | ⟨-, rfl⟩
    · exact h.lt k hk
    · exact j.isLt
  point p hp := by
    have hcopied := h.point p hp
    cases p with
    | enter | clear | copy => trivial
    | enable tmp | loop tmp | handle tmp i | mask tmp i => exact Within.raise hcopied j
    | load tmp i => exact ⟨hcopied.1, hcopied.2.raise j⟩
    | store tmp i r => exact ⟨hcopied.1, hcopied.2.1, hcopied.2.2.raise j⟩

theorem Backed.congr (h : Backed s) (hword : s'.irq.interruptEvent = s.irq.interruptEvent)
    (hprocess : s'.process = s.process) : Backed s' where
  lt := by
    rw [hword]
    exact h.lt
  point p hp := by
    have hcopied : s'.Copied p ↔ s.Copied p := by cases p <;> simp only [Copied, hword]
    exact hcopied.mpr (h.point p (hprocess ▸ hp))

theorem Backed.next (h : Backed s) (hstep : step .next s = some s') : Backed s' := by
  rcases next_eq hstep with ⟨hp, rfl⟩ | ⟨p, hp, rfl⟩
  · exact ⟨h.lt, by rintro _ ⟨⟩; trivial⟩
  · have hcopied := h.point p hp
    cases p with
    | enter =>
      simp only [interruptEventProcess]
      split_ifs
      · exact ⟨h.lt, nofun⟩
      · exact ⟨h.lt, by rintro _ ⟨⟩; trivial⟩
      · exact ⟨h.lt, by rintro _ ⟨⟩; exact fun _ => id⟩
    | clear => exact ⟨h.lt, by rintro _ ⟨⟩; trivial⟩
    | copy => exact ⟨h.lt, by rintro _ ⟨⟩; exact fun _ => id⟩
    | enable tmp => exact ⟨h.lt, by rintro _ ⟨⟩; exact hcopied⟩
    | loop tmp =>
      simp only [interruptEventProcess]
      split_ifs with htmp
      · exact ⟨h.lt, nofun⟩
      · exact ⟨h.lt, by rintro _ ⟨⟩; exact ⟨getLsbD_builtinFfs htmp, hcopied⟩⟩
    | load tmp i => exact ⟨h.lt, by rintro _ ⟨⟩; exact ⟨hcopied.1, hcopied.2, fun _ => id⟩⟩
    | store tmp i r =>
      refine ⟨fun k hk => ?_, by rintro _ ⟨⟩; exact hcopied.2.1.clearBit i⟩
      have hk : (clearBit r i).getLsbD k = true := hk
      rw [getLsbD_clearBit, Bool.and_eq_true] at hk
      exact h.lt k (hcopied.2.2 k hk.1)
    | handle tmp i => exact ⟨h.lt, by rintro _ ⟨⟩; exact hcopied⟩
    | mask tmp i => exact ⟨h.lt, by rintro _ ⟨⟩; exact hcopied⟩

/-- Any other event that is raised between the load and the store is lost. -/
theorem Sound.lost (h : Sound s) {j : Fin e.interruptEvents} {s₁ s₂ : EventSystem e}
    (hj : ¬ Spared (.interruptEventRaise j) s)
    (hraise : EventSystem.step (.interruptEventRaise j) s = some s₁)
    (hstore : EventSystem.step .next s₁ = some s₂) : ¬ s₂.Kept := by
  obtain ⟨tmp, i, r, hp, hji, hrj⟩ : ∃ tmp i r, s.process = some (.store tmp i r) ∧ j.val ≠ i ∧
      ¬ r.getLsbD j := by simpa [Spared] using hj
  obtain ⟨-, ⟨⟩⟩ := Option.ite_none_right_eq_some.mp hraise
  simp only [EventSystem.step, hp, interruptEventProcess, Option.some.injEq] at hstore
  subst hstore
  intro hkept
  rcases hkept j (by simp [Process.handles]) with hword | (htmp : tmp.getLsbD j)
  · rw [getLsbD_clearBit, Bool.and_eq_true] at hword
    exact hrj hword.1
  · exact hrj ((h.point _ hp).2.1 j htmp)

end EventSystem

open EventSystem

variable {e : EventConfig}

/-- Events are kept in every run whose steps spare the store, and no other event that is raised in
    front of the store is. -/
theorem interruptEvent_kept (s : EventSystem e) (h : Reach step Spared start s) :
    s.Kept ∧ ∀ j s₁ s₂, ¬ Spared (.interruptEventRaise j) s →
      step (.interruptEventRaise j) s = some s₁ → step .next s₁ = some s₂ → ¬ s₂.Kept :=
  ⟨(Reach.sound h).kept, fun _ _ _ hj hraise hstore => (Reach.sound h).lost hj hraise hstore⟩

/-- Two interrupt events, in a variant with preemption. -/
abbrev twoEvents : EventConfig := ⟨2, true, by decide⟩

/-- `interrupt_event_process()` is called and makes `n - 1` accesses. -/
def accesses (n : ℕ) : List (EventAct twoEvents) := .replicate n .next

/-- A test for steps that spare the store. -/
def spares (a : EventAct e) (s : EventSystem e) : Bool :=
  match a, s.process with
  | .interruptEventRaise _, some (.store _ _ _) => false
  | _, _ => true

theorem spared_of_spares {a : EventAct e} {s : EventSystem e} (h : spares a s = true) :
    Spared a s := by
  cases a with
  | next => trivial
  | interruptEventRaise j =>
    intro tmp i r hp
    simp [spares, hp] at h

/-- A run that ends where `p` holds, found by executing it. -/
theorem exists_events (ok : EventAct e → EventSystem e → Prop)
    (check : EventAct e → EventSystem e → Bool) (as : List (EventAct e)) (p : EventSystem e → Bool)
    (has : ∀ a ∈ as, ∀ s, check a s = true → ok a s)
    (h : (run EventSystem.step check as EventSystem.start).any p = true) :
    ∃ s, Reach EventSystem.step ok EventSystem.start s ∧ p s = true :=
  exists_reach_of_run has h

/-- An event raised again after it was handled is pending when the call returns. -/
theorem interruptEvent_kept_pending : ∃ s : EventSystem twoEvents, s.process.isNone ∧
    s.unhandled (0 : Fin 2) ∧ s.irq.interruptEvent.getLsbD 0 := by
  obtain ⟨s, hs, hp⟩ := exists_events Spared spares
    (.interruptEventRaise (0 : Fin 2) :: accesses 9 ++ .interruptEventRaise (0 : Fin 2) :: accesses 2)
    (fun s => s.process.isNone ∧ s.unhandled (0 : Fin 2)) (fun _ _ _ => spared_of_spares)
    (by decide +kernel)
  obtain ⟨hnone, hraised⟩ := of_decide_eq_true hp
  have hkept := (interruptEvent_kept s hs).1 (0 : Fin 2) hraised
  exact ⟨s, hnone, hraised, hkept.resolve_right (by simp [tmp, Option.isNone_iff_eq_none.mp hnone])⟩

/-- Event 1 is raised between the load and the store that clears event 0. -/
theorem interruptEvent_lost : ∃ s : EventSystem twoEvents,
    Reach step (fun _ _ => True) start s ∧ s.process.isNone ∧ ¬ s.Kept := by
  obtain ⟨s, hs, hp⟩ := exists_events (fun _ _ => True) (fun _ _ => true)
    (.interruptEventRaise (0 : Fin 2) :: accesses 7 ++ .interruptEventRaise (1 : Fin 2) :: accesses 4)
    (fun s => s.process.isNone ∧ s.unhandled (1 : Fin 2) ∧ s.irq.interruptEvent = 0)
    (fun _ _ _ _ => trivial) (by decide +kernel)
  obtain ⟨hnone, hraised, hword⟩ := of_decide_eq_true hp
  refine ⟨s, hs, hnone, fun hkept => ?_⟩
  rcases hkept (1 : Fin 2) hraised with h | h
  · simp [hword] at h
  · simp [tmp, Option.isNone_iff_eq_none.mp hnone] at h

end Echronos.Ppce500
