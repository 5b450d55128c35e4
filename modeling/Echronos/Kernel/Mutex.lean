import Echronos.Kernel.State

/-! # Component `blocking-mutex` -/

namespace Echronos.State

variable {c : Config} {S : Sched c.tasks c.mutexes}

/-- The internal `mutex_try_lock`. -/
def mutexTryLock (m : c.MutexId) (s : State c S) : Bool × State c S :=
  if s.mutexes m = none then
    (true, { s with
      mutexes := Function.update s.mutexes m (some s.currentTask)
      core := Core.record (.acquired s.currentTask m)
        { s.core with sched := S.schedSetMutexLockedBy m s.currentTask s.core.sched } })
  else (false, s)

/-- `mutex_waiters[get_current_task()] = m` -/
def mutexRegister (m : c.MutexId) (s : State c S) : State c S :=
  { s with mutexWaiters := Function.update s.mutexWaiters s.currentTask (some m) }

/-- A turn of the loop of `mutex_lock`. -/
def mutexLockLoop (m : c.MutexId) (s : State c S) : State c S :=
  let r := mutexTryLock m s
  if r.1 then r.2
  else
    (mutexRegister m s).onCore
      (Core.signalWaitSet c.signalIdTaskTimer (s.mutexes m) (.mutexLock m))

/-- A turn of the loop of `mutex_lock_timeout`. -/
def mutexLockTimeoutLoop (m : c.MutexId) (d : Deadline) (s : State c S) : State c S :=
  let r := mutexTryLock m s
  if r.1 then r.2
  else if s.before d then
    (mutexRegister m s).blockTimeout (s.mutexes m) (s.remaining d) (.mutexLockTimeout m d)
  else s.giveUp d

/-- `mutex_unlock` -/
def mutexUnlock (m : c.MutexId) (s : State c S) : State c S :=
  let r := Core.wakeWaiters m s.mutexWaiters
    { s.core with sched := S.schedSetMutexUnlocked m s.core.sched }
  { s with
    mutexes := Function.update s.mutexes m none
    mutexWaiters := r.1
    core := Core.record (.released s.currentTask m) r.2 }

/-- The API functions of mutexes. -/
inductive MutexCall (c : Config)
  | lock (m : c.MutexId)
  | lockTimeout (m : c.MutexId) (timeout : BitVec 16)
  | tryLock (m : c.MutexId)
  | unlock (m : c.MutexId)

/-- A call from application code that meets the function's own API assertions. -/
def mutexCall : MutexCall c → State c S → Option (State c S)
  | .lock m, s =>
    if s.mutexes m ≠ some s.currentTask then some (mutexLockLoop m s) else none
  | .lockTimeout m timeout, s =>
    if c.lockTimeout ∧ s.mutexes m ≠ some s.currentTask then
      some (s.onCore (Core.setPc (.entered (.mutexLockTimeout m (s.deadline timeout)))))
    else none
  | .tryLock m, s => some (mutexTryLock m s).2
  | .unlock m, s =>
    if s.mutexes m = some s.currentTask then some (mutexUnlock m s) else none

end Echronos.State
