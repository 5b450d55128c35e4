import Echronos.Kernel.Steps

/-! # Component `rigel`: the start of a task

    `start()` makes every task runnable, but each begins in a trampoline, `entry_<name>`. A task that
    is not configured to start waits for the signal `_rtos_util` there, which `task_start` sends, and
    calls its function afterwards. -/

namespace Echronos

open Schemes

variable {c : Config} {S : Sched c.tasks c.mutexes}

/-- What a task's trampoline is generated from: `start`, and the bit of the `_rtos_util` signal label. -/
structure TaskStart (c : Config) where
  start : c.TaskId → Bool
  rtosUtilIdx : Fin c.signalsetSize

namespace TaskStart

/-- `SIGNAL_ID__RTOS_UTIL` -/
def signalIdRtosUtil (e : TaskStart c) : c.SignalSet := BitVec.twoPow c.signalsetSize e.rtosUtilIdx

/-- `task_start` -/
def taskStart (e : TaskStart c) (task : c.TaskId) : Call c :=
  .core (.signalSendSet task e.signalIdRtosUtil)

end TaskStart

/-- Where a task is in `entry_<name>`: before its first statement, in the `signal_wait` there, or past
    it, in the task's function. -/
inductive EntryPoint
  | first
  | waiting
  | function
  deriving DecidableEq

/-- The system with the trampolines of its tasks. -/
structure RigelSystem (c : Config) (S : Sched c.tasks c.mutexes) where
  system : State c S
  entry : c.TaskId → EntryPoint

namespace RigelSystem

inductive Act (c : Config)
  /-- The current task executes the first statement of its trampoline. -/
  | entry
  | system (a : Echronos.Act c)

def start (memory : Memory) : RigelSystem c S := ⟨State.start memory, fun _ => .first⟩

def goto (p : EntryPoint) (s : RigelSystem c S) (system : State c S) : RigelSystem c S :=
  ⟨system, Function.update s.entry s.system.currentTask p⟩

/-- Application code is code of the tasks' functions. -/
def takes (s : RigelSystem c S) : Echronos.Act c → Bool
  | .kernel _ | .resume => true
  | .call _ | .store _ _ => s.entry s.system.currentTask = .function

/-- A trampoline whose `signal_wait` has returned calls the task's function. -/
def afterWait (pc : Pc c) : EntryPoint → EntryPoint
  | .waiting =>
    match pc with
    | .app => .function
    | _ => .waiting
  | p => p

def step (e : TaskStart c) (a : Act c) (s : RigelSystem c S) : Option (RigelSystem c S) :=
  match a with
  | .entry =>
    if s.entry s.system.currentTask = .first then
      if e.start s.system.currentTask then
        (State.step (.call (.core .yield)) s.system).map (goto .function s)
      else
        (State.step (.call (.core (.signalWaitSet e.signalIdRtosUtil))) s.system).map (goto .waiting s)
    else none
  | .system a =>
    if s.takes a then
      (State.step a s.system).map fun system =>
        ⟨system, fun t => afterWait (system.core.pc t) (s.entry t)⟩
    else none

/-- The states reached by any run. -/
def Reached (e : TaskStart c) (s : RigelSystem c S) : Prop :=
  ∃ memory, Reach (step e) (fun _ _ => True) (start memory) s

/-- A run that ends where `p` holds, found by executing it. -/
theorem exists_reached_of_run (e : TaskStart c) (as : List (Act c)) (p : RigelSystem c S → Bool)
    (h : (run (step e) (fun _ _ => true) as (start fun _ => 0)).any p = true) :
    ∃ s, Reached e s ∧ p s = true := by
  have hreach : ∃ s, Reach (step e) (fun _ _ => True) (start fun _ => 0) s ∧ p s = true :=
    exists_reach_of_run (fun _ _ _ _ => trivial) h
  obtain ⟨s, hs, hp⟩ := hreach
  exact ⟨s, ⟨_, hs⟩, hp⟩

/-- Every step is one of the system. -/
theorem step_system {e : TaskStart c} {a : Act c} {s s' : RigelSystem c S} (h : step e a s = some s') :
    ∃ b, State.step b s.system = some s'.system := by
  cases a with
  | entry =>
    obtain ⟨-, h⟩ := Option.ite_none_right_eq_some.mp h
    split at h
    all_goals
      obtain ⟨system, hstep, rfl⟩ := Option.map_eq_some_iff.mp h
      exact ⟨_, hstep⟩
  | system a =>
    obtain ⟨-, h⟩ := Option.ite_none_right_eq_some.mp h
    obtain ⟨system, hstep, rfl⟩ := Option.map_eq_some_iff.mp h
    exact ⟨a, hstep⟩

theorem Reached.system {e : TaskStart c} {s : RigelSystem c S} (h : Reached e s) : s.system.Reached := by
  obtain ⟨memory, h⟩ := h
  refine h.invariant (I := fun s => s.system.Reached) ⟨memory, .start⟩ fun s a s' _ hs _ hstep => ?_
  obtain ⟨b, hb⟩ := step_system hstep
  exact hs.next b hb

end RigelSystem

end Echronos
