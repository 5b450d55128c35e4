import Echronos.Schemes.Run
import Mathlib.Logic.Function.Basic

/-! # Threads that share a processor

    One thread runs at a time. To switch, it saves its context in the state of the machine and loads
    another's. What a thread left with comes back to it, whatever the others do meanwhile, if a saved
    context survives both their code and their switches. -/

namespace Schemes

/-- A machine of state `σ` with threads `τ`, whose contexts are values of `ν`. A thread switches away
    in one of several ways `κ`. -/
structure Switching (κ τ σ ν : Type*) where
  /-- Switch from a thread to a thread. -/
  switch : κ → τ → τ → σ → Option σ
  /-- What a thread that switches away is to come back to. -/
  leaves : κ → σ → ν
  /-- The running thread has come back to a context. -/
  Returns : ν → σ → Prop
  /-- The context of a thread is saved. -/
  Holds : τ → ν → σ → Prop
  /-- A thread may execute code from one state to another. -/
  Runs : τ → σ → σ → Prop
  /-- A thread may switch to a thread. -/
  Fits : κ → τ → τ → σ → Prop
  /-- What a switch by a thread leaves alone stays. -/
  Keeps : τ → σ → σ → Prop

namespace Switching

variable {κ τ σ ν : Type*}

/-- The context of `u` once `t` has saved its own. -/
def Saved (M : Switching κ τ σ ν) (k : κ) (t : τ) (s : σ) (u : τ) (v : ν) : Prop :=
  (u = t → v = M.leaves k s) ∧ (u ≠ t → M.Holds u v s)

/-- What makes a switching mechanism right. -/
structure Lawful (M : Switching κ τ σ ν) : Prop where
  holds_of_runs {t u : τ} {v : ν} {s s' : σ} : M.Runs t s s' → u ≠ t → M.Holds u v s → M.Holds u v s'
  exists_switch {k : κ} {t u : τ} {v : ν} {s : σ} : M.Fits k t u s → M.Saved k t s u v →
    ∃ s', M.switch k t u s = some s' ∧ M.Keeps t s s' ∧ M.Returns v s' ∧
      ∀ w ≠ u, ∀ v', M.Saved k t s w v' → M.Holds w v' s'

/-- The machine and its running thread. -/
structure Machine (M : Switching κ τ σ ν) where
  current : τ
  state : σ

inductive Act (M : Switching κ τ σ ν)
  | code (state : σ)
  | switch (k : κ) (u : τ)

namespace Machine

variable {M : Switching κ τ σ ν}

def step (a : Act M) (m : Machine M) : Option (Machine M) :=
  match a with
  | .code state => some ⟨m.current, state⟩
  | .switch k u => (M.switch k m.current u m.state).map (⟨u, ·⟩)

/-- Threads keep to what the mechanism asks of them. -/
def Allowed (a : Act M) (m : Machine M) : Prop :=
  match a with
  | .code state => M.Runs m.current m.state state
  | .switch k u => M.Fits k m.current u m.state

variable {m m' m₀ : Machine M} {k : κ} {t u : τ} {v : ν}

/-- Every thread that does not run has a saved context. -/
def Sound (m : Machine M) : Prop := ∀ t ≠ m.current, ∃ v, M.Holds t v m.state

theorem Sound.exists_saved (h : m.Sound) (k : κ) (t : τ) : ∃ v, M.Saved k m.current m.state t v := by
  by_cases ht : t = m.current
  · exact ⟨M.leaves k m.state, fun _ => rfl, fun hne => absurd ht hne⟩
  · obtain ⟨v, hv⟩ := h t ht
    exact ⟨v, fun heq => absurd heq ht, fun _ => hv⟩

/-- A switch is possible, and keeps the contexts. -/
theorem Sound.exists_step (h : m.Sound) (hM : M.Lawful) (hfits : M.Fits k m.current u m.state) :
    ∃ m', Machine.step (.switch k u) m = some m' ∧ m'.current = u ∧
      M.Keeps m.current m.state m'.state ∧
      (∀ v, M.Saved k m.current m.state u v → M.Returns v m'.state) ∧
      ∀ w ≠ u, ∀ v, M.Saved k m.current m.state w v → M.Holds w v m'.state := by
  obtain ⟨v, hv⟩ := h.exists_saved k u
  obtain ⟨state, hswitch, hkeeps, -, hholds⟩ := hM.exists_switch hfits hv
  refine ⟨⟨u, state⟩, Option.map_eq_some_iff.mpr ⟨state, hswitch, rfl⟩, rfl, hkeeps, fun w hw => ?_,
    hholds⟩
  obtain ⟨state', hswitch', -, hreturns, -⟩ := hM.exists_switch hfits hw
  obtain rfl := Option.some.inj (hswitch.symm.trans hswitch')
  exact hreturns

/-- A context is still saved once another thread has run or has been switched to. -/
theorem Sound.holds_of_step (h : m.Sound) (hM : M.Lawful) {a : Act M} (ha : Allowed a m)
    (hstep : Machine.step a m = some m') (ht : t ≠ m'.current) (htm : t ≠ m.current)
    (hv : M.Holds t v m.state) : M.Holds t v m'.state := by
  cases a with
  | code state =>
    obtain rfl := Option.some.inj hstep
    exact hM.holds_of_runs ha htm hv
  | switch k u =>
    obtain ⟨m'', hstep', hcurrent, -, -, hholds⟩ := h.exists_step hM ha
    obtain rfl := Option.some.inj (hstep.symm.trans hstep')
    exact hholds t (hcurrent ▸ ht) v ⟨fun heq => absurd heq htm, fun _ => hv⟩

theorem Sound.step (h : m.Sound) (hM : M.Lawful) {a : Act M} (ha : Allowed a m)
    (hstep : Machine.step a m = some m') : m'.Sound := by
  intro t ht
  cases a with
  | code state =>
    obtain rfl := Option.some.inj hstep
    obtain ⟨v, hv⟩ := h t ht
    exact ⟨v, hM.holds_of_runs ha ht hv⟩
  | switch k u =>
    obtain ⟨m'', hstep', hcurrent, -, -, hholds⟩ := h.exists_step hM ha
    obtain rfl := Option.some.inj (hstep.symm.trans hstep')
    obtain ⟨v, hv⟩ := h.exists_saved k t
    exact ⟨v, hholds t (hcurrent ▸ ht) v hv⟩

theorem Sound.reach (h : m.Sound) (hM : M.Lawful) (hreach : Reach Machine.step Allowed m m') :
    m'.Sound :=
  hreach.invariant h fun _ _ _ _ hs ha hstep => hs.step hM ha hstep

/-- The states reached while no thread switches to `t`. -/
def Away (t : τ) (m m' : Machine M) : Prop :=
  Reach Machine.step (fun a m => Allowed a m ∧ ∀ k, a ≠ .switch k t) m m'

theorem Away.holds (h : Away t m m') (hM : M.Lawful) (hsound : m.Sound) (ht : t ≠ m.current)
    (hv : M.Holds t v m.state) : t ≠ m'.current ∧ M.Holds t v m'.state := by
  suffices hinv : m'.Sound ∧ t ≠ m'.current ∧ M.Holds t v m'.state from hinv.2
  refine h.invariant (I := fun m => m.Sound ∧ t ≠ m.current ∧ M.Holds t v m.state) ⟨hsound, ht, hv⟩ ?_
  rintro m a m' - ⟨hsound, ht, hv⟩ ⟨ha, hat⟩ hstep
  have ht' : t ≠ m'.current := by
    cases a with
    | code state =>
      obtain rfl := Option.some.inj hstep
      exact ht
    | switch k u =>
      obtain ⟨state, -, rfl⟩ := Option.map_eq_some_iff.mp hstep
      exact fun heq => hat k (by rw [heq])
  exact ⟨hsound.step hM ha hstep, ht', hsound.holds_of_step hM ha hstep ht' ht hv⟩

/-- From `m₀` on, threads take turns as though each had a processor of its own: a switch succeeds, and
    a thread comes back to what it last left with, or else to the context `fresh` prepared for it. -/
def TakesTurns (M : Switching κ τ σ ν) (m₀ : Machine M) (fresh : τ → ν) : Prop :=
  ∀ m, Reach Machine.step Allowed m₀ m → ∀ k t, M.Fits k m.current t m.state →
    ∃ m', Machine.step (.switch k t) m = some m' ∧ m'.current = t ∧
      M.Keeps m.current m.state m'.state ∧
      (t = m.current → M.Returns (M.leaves k m.state) m'.state) ∧
      (t ≠ m₀.current → Away t m₀ m → M.Returns (fresh t) m'.state) ∧
      ∀ m₁ m₂ j u, Reach Machine.step Allowed m₀ m₁ → m₁.current = t → M.Fits j t u m₁.state → u ≠ t →
        Machine.step (.switch j u) m₁ = some m₂ → Away t m₂ m →
        M.Returns (M.leaves j m₁.state) m'.state

theorem takesTurns (hM : M.Lawful) {fresh : τ → ν}
    (hfresh : ∀ t ≠ m₀.current, M.Holds t (fresh t) m₀.state) : TakesTurns M m₀ fresh := by
  intro m hreach k t hfits
  have hsound₀ : m₀.Sound := fun u hu => ⟨fresh u, hfresh u hu⟩
  obtain ⟨m', hstep, hcurrent, hkeeps, hreturns, -⟩ := (hsound₀.reach hM hreach).exists_step hM hfits
  refine ⟨m', hstep, hcurrent, hkeeps, fun ht => ?_, fun ht haway => ?_, ?_⟩
  · exact hreturns _ ⟨fun _ => rfl, fun hne => absurd ht hne⟩
  · obtain ⟨htm, hv⟩ := haway.holds hM hsound₀ ht (hfresh t ht)
    exact hreturns _ ⟨fun heq => absurd heq htm, fun _ => hv⟩
  · rintro m₁ m₂ j u hreach₁ rfl hfits₁ hu hleave haway
    have hsound₁ := hsound₀.reach hM hreach₁
    obtain ⟨m₂', hleave', hu₂, -, -, hholds⟩ := hsound₁.exists_step hM hfits₁
    obtain rfl := Option.some.inj (hleave.symm.trans hleave')
    have hv := hholds m₁.current hu.symm _ ⟨fun _ => rfl, fun hne => absurd rfl hne⟩
    have hsound₂ := hsound₁.step hM (a := .switch j u) hfits₁ hleave
    obtain ⟨htm, hv⟩ := haway.holds hM hsound₂ (hu₂ ▸ hu.symm) hv
    exact hreturns _ ⟨fun heq => absurd heq htm, fun _ => hv⟩

end Machine

end Switching

end Schemes
