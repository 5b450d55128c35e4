import Echronos.Kernel.State

/-! # Component `simple-semaphore` -/

namespace Echronos.State

variable {c : Config} {S : Sched c.tasks c.mutexes}

/-- `internal_sem_try_wait` -/
def internalSemTryWait (i : c.SemId) (s : State c S) : Bool × State c S :=
  if (s.semaphores i).value = 0 then (false, s)
  else
    let sem := { s.semaphores i with value := (s.semaphores i).value - 1 }
    (true, { s with
      semaphores := Function.update s.semaphores i sem
      core := Core.record (.took s.currentTask i) s.core })

/-- `sem_waiters[get_current_task()] = s` -/
def semRegister (i : c.SemId) (s : State c S) : State c S :=
  { s with semWaiters := Function.update s.semWaiters s.currentTask (some i) }

/-- A turn of the loop of `sem_wait`. -/
def semWaitLoop (i : c.SemId) (s : State c S) : State c S :=
  let r := internalSemTryWait i s
  if r.1 then r.2
  else (semRegister i s).onCore (Core.waitTaskTimer (.semWait i))

/-- A turn of the loop of `sem_wait_timeout`. -/
def semWaitTimeoutLoop (i : c.SemId) (d : Deadline) (s : State c S) : State c S :=
  let r := internalSemTryWait i s
  if r.1 then r.2
  else if s.before d then
    (semRegister i s).blockTimeout none (s.remaining d) (.semWaitTimeout i d)
  else s.giveUp d

/-- `sem_post` after its assertion. -/
def semPost (i : c.SemId) (s : State c S) : State c S :=
  let sem := s.semaphores i
  if c.semaphoreEnableMax ∧ sem.max ≤ sem.value then
    s.onCore (Core.halt (.fatalError errorIdSemaphoreMaxExceeded))
  else
    let r := if sem.value = 0 then Core.wakeWaiters i s.semWaiters s.core
      else (s.semWaiters, s.core)
    { s with
      semaphores := Function.update s.semaphores i { sem with value := sem.value + 1 }
      semWaiters := r.1
      core := Core.record (.posted s.currentTask i) r.2 }

/-- The store of `sem_max_init`. -/
def semMaxStore (i : c.SemId) (max : c.SemValue) (s : State c S) : State c S :=
  { s with
    semaphores := Function.update s.semaphores i { s.semaphores i with max := max }
    core := Core.record (.maxInit i max) s.core }

/-- The API functions of semaphores. -/
inductive SemCall (c : Config)
  | wait (i : c.SemId)
  | waitTimeout (i : c.SemId) (timeout : BitVec 16)
  | post (i : c.SemId)
  | tryWait (i : c.SemId)
  | maxInit (i : c.SemId) (max : c.SemValue)

/-- A call from application code that meets the function's own API assertions. `sem_max_init` checks
    them and stores the maximum without disabling preemption in between. -/
def semCall : SemCall c → State c S → Option (State c S)
  | .wait i, s => some (semWaitLoop i s)
  | .waitTimeout i timeout, s =>
    some (s.onCore (Core.setPc (.entered (.semWaitTimeout i (s.deadline timeout)))))
  | .post i, s =>
    if c.semaphoreEnableMax ∧ (s.semaphores i).max = 0 then none else some (semPost i s)
  | .tryWait i, s => some (internalSemTryWait i s).2
  | .maxInit i max, s =>
    if c.semaphoreEnableMax ∧ max ≠ 0 ∧ (s.semaphores i).max = 0 then
      some (s.onCore (Core.setPc (.entered (.semMaxInit i max))))
    else none

end Echronos.State
