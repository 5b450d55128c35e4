import Echronos.Kernel.Pieces

/-! # Every step of the system is made of pieces

    One lemma for each function, in the order of the modules that define them. `step_pieces` sums
    them up, and `Reached.invariant` is the way an invariant of all runs is proved. -/

namespace Echronos

open Schemes Echronos.Core

variable {c : Config} {S : Sched c.tasks c.mutexes}

def Entry.service : Entry c → Service c
  | .mutexLockTimeout m d => .mutexLockTimeout m d
  | .semWaitTimeout i _ => .semWait i
  | .semMaxInit i _ => .semMaxInit i

def Cont.service : Cont c → Service c
  | .signalWaitSet => .kernel
  | .sleep _ _ => .kernel
  | .mutexLock m => .mutexLock m
  | .mutexLockTimeout m d => .mutexLockTimeout m d
  | .semWait i => .semWait i
  | .semWaitTimeout i _ => .semWait i
  | .messageQueuePut q _ => .messageQueue q
  | .messageQueuePutTimeout q _ _ => .messageQueue q
  | .messageQueueGet q _ => .messageQueue q
  | .messageQueueGetTimeout q _ _ => .messageQueue q

namespace State

/-- The function whose code a call executes before its first context switch. -/
def callService (s : State c S) : Call c → Service c
  | .core f => .core f
  | .mutex (.lock m) => .mutexLock m
  | .mutex (.lockTimeout m n) => .enter (.mutexLockTimeout m (s.deadline n))
  | .mutex (.tryLock m) => .mutexTryLock m
  | .mutex (.unlock m) => .mutexUnlock m
  | .sem (.wait i) => .semWait i
  | .sem (.waitTimeout i n) => .enter (.semWaitTimeout i (s.deadline n))
  | .sem (.post i) => .semPost i
  | .sem (.tryWait i) => .semWait i
  | .sem (.maxInit i max) => .enter (.semMaxInit i max)
  | .messageQueue (.put q _) => .messageQueue q
  | .messageQueue (.tryPut q _) => .messageQueue q
  | .messageQueue (.putTimeout q _ _) => .messageQueue q
  | .messageQueue (.get q _) => .messageQueue q
  | .messageQueue (.tryGet q _) => .messageQueue q
  | .messageQueue (.getTimeout q _ _) => .messageQueue q

/-- The function whose code a step executes. -/
def service (s : State c S) : Act c → Service c
  | .kernel (.schedGetNext _ _) => .switch
  | .kernel _ => .kernel
  | .call f => s.callService f
  | .resume =>
    match s.core.pc s.currentTask with
    | .app => .kernel
    | .entered e => e.service
    | .wait w => w.cont.service
  | .store _ _ => .kernel

/-! ### Mutexes -/

theorem mutexTryLock_pieces {x : Service c} {m : c.MutexId} {s : State c S}
    (hx : x.locks = some m) (ha : s.core.Awake) : Pieces x s (mutexTryLock m s).2 := by
  by_cases hm : s.mutexes m = none
  · exact .single (.mutexAcquire x m hx ha hm)
  · have : (mutexTryLock m s).2 = s := by simp [mutexTryLock, hm]
    rw [this]
    exact .refl s

theorem mutexTryLock_fst {m : c.MutexId} {s : State c S} :
    (mutexTryLock m s).1 = true ↔ s.mutexes m = none := by
  by_cases h : s.mutexes m = none <;> simp [mutexTryLock, h]

theorem mutexLockLoop_pieces {m : c.MutexId} {s : State c S} (ha : s.core.Awake) :
    Pieces (.mutexLock m) s (mutexLockLoop m s) := by
  unfold mutexLockLoop
  dsimp only
  split
  · exact mutexTryLock_pieces rfl ha
  · rename_i hm
    exact .single (.mutexWait m ha (mt mutexTryLock_fst.mpr hm))

/-- A turn of the loop of `mutex_lock` ends with the mutex held, or in a wait for it. -/
theorem mutexLockLoop_cases (m : c.MutexId) (s : State c S) :
    ((mutexLockLoop m s).core.pc = s.core.pc ∧ (mutexLockLoop m s).mutexes m = some s.currentTask) ∨
    ∃ w, (mutexLockLoop m s).core.pc s.currentTask = .wait w ∧ w.cont = .mutexLock m := by
  unfold mutexLockLoop
  dsimp only
  split
  · rename_i hm
    rw [mutexTryLock_of_none (mutexTryLock_fst.mp hm)]
    exact .inl ⟨rfl, Function.update_self m _ _⟩
  · exact .inr ⟨_, (congrFun (signalWaitSet_pc _ _ _ _) _).trans (Function.update_self _ _ _), rfl⟩

theorem mutexLockTimeoutLoop_pieces {m : c.MutexId} {d : Deadline} {s : State c S}
    (ha : s.core.Awake) : Pieces (.mutexLockTimeout m d) s (mutexLockTimeoutLoop m d s) := by
  unfold mutexLockTimeoutLoop
  dsimp only
  split_ifs with hm hd
  · exact mutexTryLock_pieces rfl ha
  · exact .single (.mutexWaitTimeout m d ha (mt mutexTryLock_fst.mpr hm) hd)
  · exact .kernel (.giveUp d (by simpa using hd))

theorem mutexCall_pieces {f : MutexCall c} {s s' : State c S}
    (hpc : s.core.pc s.currentTask = .app) (h : mutexCall f s = some s') :
    Pieces (s.callService (.mutex f)) s s' := by
  have ha := Awake.of_app hpc
  cases f with
  | lock m =>
    obtain ⟨-, ⟨⟩⟩ := Option.ite_none_right_eq_some.mp h
    exact mutexLockLoop_pieces ha
  | lockTimeout m n =>
    obtain ⟨hm, ⟨⟩⟩ := Option.ite_none_right_eq_some.mp h
    exact .single (.enter _ hpc ⟨rfl, hm.2⟩)
  | tryLock m =>
    obtain rfl := Option.some.inj h
    exact mutexTryLock_pieces rfl ha
  | unlock m =>
    obtain ⟨hm, ⟨⟩⟩ := Option.ite_none_right_eq_some.mp h
    exact .single (.mutexUnlock m ha hm)

/-! ### Semaphores -/

theorem internalSemTryWait_pieces {i : c.SemId} {s : State c S} (ha : s.core.Awake) :
    Pieces (.semWait i) s (internalSemTryWait i s).2 := by
  by_cases hv : (s.semaphores i).value = 0
  · have : (internalSemTryWait i s).2 = s := by
      unfold internalSemTryWait
      rw [if_pos hv]
    rw [this]
    exact .refl s
  · exact .single (.semTake i ha hv)

theorem internalSemTryWait_fst {i : c.SemId} {s : State c S} :
    (internalSemTryWait i s).1 = false ↔ (s.semaphores i).value = 0 := by
  unfold internalSemTryWait
  split <;> simp_all

theorem semWaitLoop_pieces {i : c.SemId} {s : State c S} (ha : s.core.Awake) :
    Pieces (.semWait i) s (semWaitLoop i s) := by
  unfold semWaitLoop
  dsimp only
  split
  · exact internalSemTryWait_pieces ha
  · rename_i hv
    exact .single (.semWait i ha (internalSemTryWait_fst.mp (by simpa using hv)))

theorem semWaitTimeoutLoop_pieces {i : c.SemId} {d : Deadline} {s : State c S}
    (ha : s.core.Awake) : Pieces (.semWait i) s (semWaitTimeoutLoop i d s) := by
  unfold semWaitTimeoutLoop
  dsimp only
  split_ifs with hv hd
  · exact internalSemTryWait_pieces ha
  · exact .single (.semWaitTimeout i d ha (internalSemTryWait_fst.mp (by simpa using hv)) hd)
  · exact .kernel (.giveUp d (by simpa using hd))

theorem semPost_pieces {i : c.SemId} {s : State c S} (ha : s.core.Awake) :
    Pieces (.semPost i) s (semPost i s) := by
  by_cases h : c.semaphoreEnableMax = true ∧ (s.semaphores i).max ≤ (s.semaphores i).value
  · have : semPost i s = s.onCore (Core.halt (.fatalError errorIdSemaphoreMaxExceeded)) := by
      simp [semPost, h]
    rw [this]
    exact .kernel (.still (halt_still _ _))
  · exact .single (.semPost i ha fun hm => by simpa [hm] using h)

theorem semCall_pieces {f : SemCall c} {s s' : State c S} (hpc : s.core.pc s.currentTask = .app)
    (h : semCall f s = some s') : Pieces (s.callService (.sem f)) s s' := by
  have ha := Awake.of_app hpc
  cases f with
  | wait i => obtain rfl := Option.some.inj h; exact semWaitLoop_pieces ha
  | waitTimeout i n => obtain rfl := Option.some.inj h; exact .single (.enter _ hpc rfl)
  | post i =>
    obtain ⟨-, ⟨⟩⟩ := Option.ite_none_left_eq_some.mp h
    exact semPost_pieces ha
  | tryWait i => obtain rfl := Option.some.inj h; exact internalSemTryWait_pieces ha
  | maxInit i max =>
    obtain ⟨hmax, ⟨⟩⟩ := Option.ite_none_right_eq_some.mp h
    exact .single (.enter _ hpc hmax.2)

/-! ### Message queues -/

/-- An attempt to put a message that fails finds the queue full and changes nothing. -/
theorem messageQueueTryPut_false {q : c.MessageQueueId} {message : ℕ} {s s' : State c S}
    (h : messageQueueTryPut q message s = some (false, s')) :
    (s.messageQueues q).available = (s.messageQueues q).queueLength ∧ s' = s := by
  obtain ⟨hfull, h⟩ | ⟨-, memory, -, h⟩ := messageQueueTryPut_cases h
  · exact ⟨hfull, (Prod.mk.inj h).2⟩
  · cases (Prod.mk.inj h).1

/-- An attempt to get a message that fails finds the queue empty and changes nothing. -/
theorem messageQueueTryGet_false {q : c.MessageQueueId} {message : ℕ} {s s' : State c S}
    (h : messageQueueTryGet q message s = some (false, s')) :
    (s.messageQueues q).available = 0 ∧ s' = s := by
  obtain ⟨hempty, h⟩ | ⟨-, memory, -, h⟩ := messageQueueTryGet_cases h
  · exact ⟨hempty, (Prod.mk.inj h).2⟩
  · cases (Prod.mk.inj h).1

theorem messageQueueTryPut_pieces {q : c.MessageQueueId} {message : ℕ} {s : State c S}
    {r : Bool × State c S} (ha : s.core.Awake) (h : messageQueueTryPut q message s = some r) :
    Pieces (.messageQueue q) s r.2 := by
  obtain ⟨_ | _, s'⟩ := r
  · rw [(messageQueueTryPut_false h).2]; exact .refl s
  · exact .single (.messageQueuePut q message ha h)

theorem messageQueueTryGet_pieces {q : c.MessageQueueId} {message : ℕ} {s : State c S}
    {r : Bool × State c S} (ha : s.core.Awake) (h : messageQueueTryGet q message s = some r) :
    Pieces (.messageQueue q) s r.2 := by
  obtain ⟨_ | _, s'⟩ := r
  · rw [(messageQueueTryGet_false h).2]; exact .refl s
  · exact .single (.messageQueueGet q message ha h)

theorem messageQueuePutLoop_pieces {q : c.MessageQueueId} {message : ℕ} {s s' : State c S}
    (ha : s.core.Awake) (h : messageQueuePutLoop q message s = some s') :
    Pieces (.messageQueue q) s s' := by
  obtain ⟨⟨b, t⟩, hr, rfl⟩ := Option.map_eq_some_iff.mp h
  cases b with
  | true => exact messageQueueTryPut_pieces ha hr
  | false =>
    obtain ⟨hfull, rfl⟩ := messageQueueTryPut_false hr
    exact .single (.messageQueueWait q _ ha rfl hfull)

theorem messageQueueGetLoop_pieces {q : c.MessageQueueId} {message : ℕ} {s s' : State c S}
    (ha : s.core.Awake) (h : messageQueueGetLoop q message s = some s') :
    Pieces (.messageQueue q) s s' := by
  obtain ⟨⟨b, t⟩, hr, rfl⟩ := Option.map_eq_some_iff.mp h
  cases b with
  | true => exact messageQueueTryGet_pieces ha hr
  | false =>
    obtain ⟨hempty, rfl⟩ := messageQueueTryGet_false hr
    exact .single (.messageQueueWait q _ ha rfl hempty)

theorem messageQueuePutTimeoutLoop_pieces {q : c.MessageQueueId} {message : ℕ} {d : Deadline}
    {s s' : State c S} (ha : s.core.Awake)
    (h : messageQueuePutTimeoutLoop q message d s = some s') : Pieces (.messageQueue q) s s' := by
  unfold messageQueuePutTimeoutLoop at h
  dsimp only at h
  split at h
  · rename_i hd
    obtain rfl := Option.some.inj h
    exact .single (.messageQueueWaitTimeout q d _ ha rfl hd.1 hd.2)
  · rename_i hd
    obtain ⟨⟨b, t⟩, hr, rfl⟩ := Option.map_eq_some_iff.mp h
    cases b with
    | true => exact messageQueueTryPut_pieces ha hr
    | false =>
      obtain ⟨hfull, rfl⟩ := messageQueueTryPut_false hr
      exact .kernel (.giveUp d (by simpa [hfull] using hd))

theorem messageQueueGetTimeoutLoop_pieces {q : c.MessageQueueId} {message : ℕ} {d : Deadline}
    {s s' : State c S} (ha : s.core.Awake)
    (h : messageQueueGetTimeoutLoop q message d s = some s') : Pieces (.messageQueue q) s s' := by
  unfold messageQueueGetTimeoutLoop at h
  split at h
  · rename_i hd
    obtain rfl := Option.some.inj h
    exact .single (.messageQueueWaitTimeout q d _ ha rfl hd.1 hd.2)
  · rename_i hd
    obtain ⟨⟨b, t⟩, hr, rfl⟩ := Option.map_eq_some_iff.mp h
    cases b with
    | true => exact messageQueueTryGet_pieces ha hr
    | false =>
      obtain ⟨hempty, rfl⟩ := messageQueueTryGet_false hr
      exact .kernel (.giveUp d (by simpa [hempty] using hd))

theorem messageQueueCall_pieces {f : MessageQueueCall c} {s s' : State c S} (ha : s.core.Awake)
    (h : messageQueueCall f s = some s') : Pieces (s.callService (.messageQueue f)) s s' := by
  cases f with
  | put q message => exact messageQueuePutLoop_pieces ha h
  | get q message => exact messageQueueGetLoop_pieces ha h
  | tryPut q message =>
    obtain ⟨r, hr, rfl⟩ := Option.map_eq_some_iff.mp h
    exact messageQueueTryPut_pieces ha hr
  | tryGet q message =>
    obtain ⟨r, hr, rfl⟩ := Option.map_eq_some_iff.mp h
    exact messageQueueTryGet_pieces ha hr
  | putTimeout q message n =>
    exact messageQueuePutTimeoutLoop_pieces ha (Option.ite_none_left_eq_some.mp h).2
  | getTimeout q message n =>
    exact messageQueueGetTimeoutLoop_pieces ha (Option.ite_none_left_eq_some.mp h).2

/-! ### The system -/

theorem inApp_iff {s : State c S} :
    s.inApp = true ↔ s.core.phase = .task ∧ s.core.pc s.currentTask = .app := by
  unfold inApp
  cases h : s.core.pc s.currentTask <;> simp

theorem call_pieces {f : Call c} {s s' : State c S} (hpc : s.core.pc s.currentTask = .app)
    (h : call f s = some s') : Pieces (s.callService f) s s' := by
  cases f with
  | core f =>
    obtain ⟨k, hk, rfl⟩ := Option.map_eq_some_iff.mp h
    exact .single (.core f hpc hk)
  | mutex f => exact mutexCall_pieces hpc h
  | sem f => exact semCall_pieces hpc h
  | messageQueue f => exact messageQueueCall_pieces (.of_app hpc) h

theorem afterEntry_pieces {e : Entry c} {s : State c S} (ha : s.core.Awake) :
    Pieces e.service s (afterEntry e s) := by
  cases e with
  | mutexLockTimeout m d => exact mutexLockTimeoutLoop_pieces ha
  | semWaitTimeout i d => exact semWaitTimeoutLoop_pieces ha
  | semMaxInit i max => exact .single (.semMaxStore i max ha)

/-- The current task receives the signals it waited for, and its caller goes on. -/
theorem afterWait_pieces {w : Wait c} {s s' : State c S} {k : Core c S}
    (hhalt : s.core.halted = none) (hpc : s.core.pc s.currentTask = .wait w)
    (hk : signalWaitReturn w s.core = some k)
    (h : afterWait w.cont { s with core := k } = some s') : Pieces w.cont.service s s' := by
  obtain ⟨hp, rfl⟩ := signalWaitReturn_eq_some.mp hk
  have hreceive := Pieces.kernel (x := w.cont.service) (.receive w hhalt hpc hp)
  have ha : Awake (setPc .app (signalRecv s.core.currentTask w.requested s.core).2) :=
    .of_app (by simp)
  obtain ⟨r, b, blocked, cont⟩ := w
  cases cont with
  | signalWaitSet => obtain rfl := Option.some.inj h; exact hreceive
  | sleep n start => obtain rfl := Option.some.inj h; exact hreceive
  | mutexLock m =>
    obtain rfl := Option.some.inj h
    exact hreceive.trans (mutexLockLoop_pieces ha)
  | mutexLockTimeout m d =>
    obtain rfl := Option.some.inj h
    exact hreceive.trans (mutexLockTimeoutLoop_pieces ha)
  | semWait i => obtain rfl := Option.some.inj h; exact hreceive.trans (semWaitLoop_pieces ha)
  | semWaitTimeout i d =>
    obtain rfl := Option.some.inj h
    exact hreceive.trans (semWaitTimeoutLoop_pieces ha)
  | messageQueuePut q message => exact hreceive.trans (messageQueuePutLoop_pieces ha h)
  | messageQueueGet q message => exact hreceive.trans (messageQueueGetLoop_pieces ha h)
  | messageQueuePutTimeout q message d =>
    exact (hreceive.trans (.single (.messageQueueUnregister q ha))).trans
      (messageQueuePutTimeoutLoop_pieces ha h)
  | messageQueueGetTimeout q message d =>
    exact (hreceive.trans (.single (.messageQueueUnregister q ha))).trans
      (messageQueueGetTimeoutLoop_pieces ha h)

theorem resume_pieces {s s' : State c S} (hhalt : s.core.halted = none) (h : resume s = some s') :
    Pieces (s.service .resume) s s' := by
  cases hpc : s.core.pc s.currentTask with
  | app =>
    simp only [resume, hpc] at h
    cases h
  | entered e =>
    simp only [resume, hpc] at h
    obtain rfl := Option.some.inj h
    have hx : s.service .resume = e.service := by simp only [service, hpc]
    rw [hx]
    exact (Pieces.kernel (.leave e hpc)).trans (afterEntry_pieces (.of_app (by
      simp [onCore, setPc_pc])))
  | wait w =>
    simp only [resume, hpc] at h
    have hx : s.service .resume = w.cont.service := by simp only [service, hpc]
    rw [hx]
    cases hw : signalWaitReturn w s.core with
    | none =>
      simp only [hw] at h
      obtain rfl := Option.some.inj h
      have hblock := signalWaitReturn_eq_none.mp hw
      exact .kernel (.block w hpc hblock.1 hblock.2)
    | some k =>
      simp only [hw] at h
      exact afterWait_pieces hhalt hpc hw h

theorem step_pieces {a : Act c} {s s' : State c S} (h : step a s = some s') :
    Pieces (s.service a) s s' := by
  obtain ⟨hhalt, h⟩ := Option.ite_none_left_eq_some.mp h
  cases a with
  | kernel a =>
    obtain ⟨k, hk, rfl⟩ := Option.map_eq_some_iff.mp h
    rcases act_cases hk with hs | ⟨fuel, again, rfl, hs⟩ | rfl | rfl
    · exact .kernel (.still hs)
    · exact .single (.switch hs)
    · exact .kernel .events
    · exact .kernel .tick
  | call f =>
    obtain ⟨happ, h⟩ := Option.ite_none_right_eq_some.mp h
    exact call_pieces (inApp_iff.mp happ).2 h
  | resume => exact resume_pieces (by simpa using hhalt) (Option.ite_none_right_eq_some.mp h).2
  | store address byte =>
    obtain ⟨-, ⟨⟩⟩ := Option.ite_none_right_eq_some.mp h
    exact .kernel (.store _)

/-- A step without `sched_get_next` makes moves. -/
theorem Pieces.moves {A : Set Component} {x : Service c} {s s' : State c S} (h : Pieces x s s')
    (hx : x ≠ .switch) (hkernel : .kernel ∈ A) (hA : x.component ∈ A) :
    Moves A s.core s'.core := by
  induction h with
  | refl => exact .refl
  | tail _ hp ih =>
    rcases hp with hp | hp
    · rcases hp.moves hkernel with hm | ⟨hy, -⟩
      · exact ih.trans hm
      · cases hy
    · rcases hp.moves hA with hm | ⟨hy, -⟩
      · exact ih.trans hm
      · exact absurd hy hx

/-- What the current task executes when it goes on inside a function. -/
theorem service_resume (s : State c S) : s.service .resume = .kernel ∨
    (∃ e : Entry c, s.service .resume = e.service) ∨ ∃ cont : Cont c, s.service .resume = cont.service := by
  cases hpc : s.core.pc s.currentTask with
  | app => exact .inl (by simp only [service, hpc])
  | entered e => exact .inr (.inl ⟨e, by simp only [service, hpc]⟩)
  | wait w => exact .inr (.inr ⟨w.cont, by simp only [service, hpc]⟩)

theorem service_ne_switch {s : State c S} {a : Act c}
    (h : ∀ fuel again, a ≠ .kernel (.schedGetNext fuel again)) : s.service a ≠ .switch := by
  cases a with
  | kernel a =>
    cases a with
    | schedGetNext fuel again => exact absurd rfl (h fuel again)
    | _ => nofun
  | store => nofun
  | call f => rcases f with f | f | f | f <;> cases f <;> nofun
  | resume =>
    rcases service_resume s with hx | ⟨e, hx⟩ | ⟨cont, hx⟩ <;> rw [hx]
    · nofun
    · cases e <;> nofun
    · cases cont <;> nofun

/-- A function without a context switch or preemption in it is executed by its calls only. -/
theorem exists_call_of_service {s : State c S} {a : Act c} {x : Service c} (h : s.service a = x)
    (hkernel : x.component ≠ .kernel) (hentry : ∀ e : Entry c, e.service ≠ x)
    (hcont : ∀ cont : Cont c, cont.service ≠ x) : ∃ f, a = .call f ∧ s.callService f = x := by
  cases a with
  | kernel a => cases a <;> exact absurd (h ▸ rfl) hkernel
  | store => exact absurd (h ▸ rfl) hkernel
  | call f => exact ⟨f, rfl, h⟩
  | resume =>
    rcases service_resume s with hx | ⟨e, hx⟩ | ⟨cont, hx⟩
    · exact absurd (h ▸ hx ▸ rfl) hkernel
    · exact absurd (hx.symm.trans h) (hentry e)
    · exact absurd (hx.symm.trans h) (hcont cont)

/-- A step makes moves, or is one of `sched_get_next`. -/
theorem step_moves {a : Act c} {s s' : State c S} (h : step a s = some s') :
    Moves Set.univ s.core s'.core ∨ Switch s.core s'.core := by
  by_cases ha : ∃ fuel again, a = .kernel (.schedGetNext fuel again)
  · obtain ⟨fuel, again, rfl⟩ := ha
    obtain ⟨k, hk, rfl⟩ := Option.map_eq_some_iff.mp (Option.ite_none_left_eq_some.mp h).2
    exact .inr (schedGetNext_switch (Option.ite_none_right_eq_some.mp hk).2)
  · have hx := service_ne_switch (s := s) fun fuel again he => ha ⟨fuel, again, he⟩
    exact .inl ((step_pieces h).moves hx (Set.mem_univ _) (Set.mem_univ _))

/-- What one step does to another task than the current one. -/
theorem step_other {a : Act c} {s s' : State c S} (h : step a s = some s') {t : c.TaskId}
    (ht : t ≠ s.core.currentTask) : Other t s.core s'.core := by
  rcases step_moves h with hm | hs
  · exact hm.other ht
  · exact hs.other t

/-- What happens outside the current task's own code leaves all tasks where they are. -/
theorem act_pc {a : Core.Act c} {k k' : Core c S} (h : Core.act a k = some k') : k'.pc = k.pc := by
  rcases act_cases h with hs | ⟨-, -, -, hs⟩ | rfl | rfl
  · exact hs.pc
  · exact hs.pc
  · exact funext fun t => ((interruptEventProcess_wakes (A := ∅) k).other t).pc
  · exact funext fun t => ((timerTickProcess_wakes (A := ∅) k).other t).pc

/-! ### Invariants of runs -/

/-- What pieces preserve, the pieces of a step preserve together. -/
theorem Pieces.invariant {I : State c S → Prop} {x : Service c} {s s' : State c S}
    (h : Pieces x s s')
    (piece : ∀ y s s', y = .kernel ∨ y = x → Piece y s s' → I s → I s') (hI : I s) : I s' := by
  induction h with
  | refl => exact hI
  | tail _ hp ih =>
    rcases hp with hp | hp
    · exact piece _ _ _ (.inl rfl) hp ih
    · exact piece _ _ _ (.inr rfl) hp ih

/-- An invariant of all pieces holds in every reachable state. -/
theorem ReachedBy.invariant {ok : Act c → State c S → Prop} {I : State c S → Prop} {s : State c S}
    (h : ReachedBy ok s) (start : ∀ memory, I (State.start memory))
    (piece : ∀ x s s', Piece x s s' → I s → I s') : I s := by
  obtain ⟨memory, h⟩ := h
  exact Reach.invariant h (start memory) fun s a s' _ hI _ hstep =>
    (step_pieces hstep).invariant (fun y s s' _ hp => piece y s s' hp) hI

/-- A property of the kernel core that moves and switches preserve holds in every reachable state. -/
theorem ReachedBy.core {ok : Act c → State c S → Prop} {I : Core c S → Prop} {s : State c S}
    (h : ReachedBy ok s) (start : I Core.start)
    (moves : ∀ k k', Moves Set.univ k k' → I k → I k')
    (switch : ∀ k k', Switch k k' → I k → I k') : I s.core := by
  refine h.invariant (I := fun s => I s.core) (fun _ => start) fun x s s' hp hI => ?_
  rcases hp.moves (Set.mem_univ _) with hm | ⟨-, hs⟩
  · exact moves _ _ hm hI
  · exact switch _ _ hs hI

/-! ### Held mutexes -/

theorem Piece.held {x : Service c} {s s' : State c S} (h : Piece x s s') {t : c.TaskId} {m : c.MutexId}
    (hx : x ≠ .mutexUnlock m) (hm : s.mutexes m = some t) : s'.mutexes m = some t := by
  by_cases hmutex : x.component = .mutex
  · cases h with
    | mutexAcquire _ l _ _ hl =>
      have hne : m ≠ l := fun heq => by simp [heq, hl] at hm
      simpa [mutexTryLock_of_none hl, hne] using hm
    | mutexWait | mutexWaitTimeout => exact hm
    | mutexUnlock l =>
      have hne : m ≠ l := fun heq => hx (heq ▸ rfl)
      simpa [State.mutexUnlock, hne] using hm
    | _ => cases hmutex
  · rw [(h.mutexes hmutex).1, hm]

/-- Only `mutex_unlock` executes its code. -/
theorem service_eq_mutexUnlock {s : State c S} {a : Act c} {m : c.MutexId} (h : s.service a = .mutexUnlock m) :
    a = .call (.mutex (.unlock m)) := by
  obtain ⟨f, rfl, hf⟩ := exists_call_of_service h nofun (fun e => by cases e <;> nofun)
    fun cont => by cases cont <;> nofun
  rcases f with f | f | f | f <;> (cases f <;> cases hf)
  rfl

/-- A task holds a mutex until it unlocks it. -/
theorem step_held {a : Act c} {s s' : State c S} (h : step a s = some s') {t : c.TaskId} {m : c.MutexId}
    (hm : s.mutexes m = some t) (ht : a = .call (.mutex (.unlock m)) → t ≠ s.currentTask) :
    s'.mutexes m = some t := by
  by_cases ha : a = .call (.mutex (.unlock m))
  · subst ha
    obtain ⟨-, h⟩ := Option.ite_none_left_eq_some.mp h
    obtain ⟨-, h⟩ := Option.ite_none_right_eq_some.mp h
    obtain ⟨hcurrent, -⟩ := Option.ite_none_right_eq_some.mp h
    exact absurd (Option.some.inj (hm.symm.trans hcurrent)) (ht rfl)
  · refine Pieces.invariant (step_pieces h) (I := fun r => r.mutexes m = some t)
      (fun y r r' hy hp => hp.held ?_) hm
    rintro rfl
    exact ha (service_eq_mutexUnlock (hy.resolve_left nofun).symm)

end State

end Echronos
