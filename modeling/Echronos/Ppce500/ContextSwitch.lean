import Echronos.Ports.Stacks
import Echronos.Ppce500.Cpu
import Echronos.Schemes.Switching
import Mathlib.Data.Fin.Basic

/-! # Component `context-switch-ppce500`

    The instructions of `ctxt-switch.s`. A task that switches away creates a stack frame with its
    registers, and its context points to the frame. The link register is in the frame above. -/

namespace Echronos.Ppce500

open Schemes

/-- `rtos_internal_context_switch_first` -/
def rtosInternalContextSwitchFirst : List Instr :=
  [.lwz sp 0 3,
   .lwz 0 84 sp,
   .mt .lr 0,
   .lmw 14 8 sp,
   .addi sp sp 80,
   .blr]

/-- `rtos_internal_context_switch`, which falls through. -/
def rtosInternalContextSwitch : List Instr :=
  [.mf 0 .lr,
   .stwu sp (-80) sp,
   .stw 0 84 sp,
   .stmw 14 8 sp,
   .stw sp 0 4] ++
  rtosInternalContextSwitchFirst

def CONTEXT_BC_IDX : ℕ := 0

def CONTEXT_LR_IDX : ℕ := 1

def CONTEXT_HEADER_SIZE : ℕ := 2

def CONTEXT_GPR14_IDX : ℕ := 2

def CONTEXT_FRAME_SIZE : ℕ := 20

variable {tasks : ℕ} (L : Stacks tasks)

/-- `context_init` for a task. -/
def contextInit (fn : Word) (t : Fin tasks) (mem : Word → Word) : Word → Word :=
  let initContext := L.word t (L.stackSize t - CONTEXT_HEADER_SIZE)
  let context := initContext - BitVec.ofNat 32 (4 * CONTEXT_FRAME_SIZE)
  let mem := Function.update mem (wordAt initContext CONTEXT_BC_IDX) 0
  let mem := Function.update mem (wordAt initContext CONTEXT_LR_IDX) fn
  let mem := Function.update mem (wordAt context CONTEXT_BC_IDX) (wordAt initContext CONTEXT_BC_IDX)
  Function.update mem (L.getTaskContext t) context

/-- The registers hold the arguments of a call. -/
def Cpu.call (a b : Word) (c : Cpu) : Cpu := (c.set 3 a).set 4 b

/-- `context_switch` from a task to a task. -/
def contextSwitch (t u : Fin tasks) (c : Cpu) : Option Cpu :=
  (c.call (L.getTaskContext u) (L.getTaskContext t)).execs rtosInternalContextSwitch

/-- `start()`: every task's context is initialised, and the first task switched to. -/
def start (pos : 0 < tasks) (fn : Fin tasks → Word) (c : Cpu) : Option Cpu :=
  let mem := (List.finRange tasks).foldl (fun mem t => contextInit L (fn t) t mem) c.mem
  (({ c with mem := mem } : Cpu).set 3 (L.getTaskContext ⟨0, pos⟩)).execs rtosInternalContextSwitchFirst

/-- The words that a context takes up, with the header of the frame above. -/
def CONTEXT_SIZE : ℕ := CONTEXT_FRAME_SIZE + CONTEXT_HEADER_SIZE

/-- What a context holds: `r14` to `r31`, the address to go on at, and the stack pointer. -/
structure Frame where
  gprs : List Word
  pc : Word
  sp : Word

def Cpu.frame (pc : Word) (c : Cpu) : Frame := ⟨(upTo31 14).map c.gpr, pc, c.gpr sp⟩

/-- The words of a context. -/
def frameOf (ws : List Word) (sp : Word) : Frame :=
  ⟨(ws.drop CONTEXT_GPR14_IDX).take 18, ws.getD (CONTEXT_FRAME_SIZE + CONTEXT_LR_IDX) 0, sp⟩

/-- The tasks of a system on the processor. They do not write to the saved contexts of others, and
    have the room for a frame on their stacks when they switch away. -/
def switching : Switching Unit (Fin tasks) Cpu Frame where
  switch _ t u c := contextSwitch L t u c
  leaves _ c := c.frame (c.special .lr)
  Returns v c := c.frame c.pc = v
  Holds t v c := ∃ k ws, L.HoldsFrame CONTEXT_SIZE t k ws c.mem ∧
    v = frameOf ws (L.word t (k + CONTEXT_FRAME_SIZE))
  Runs t c c' := L.Spares CONTEXT_SIZE t c.mem c'.mem
  Fits _ t _ c := ∃ k, k + CONTEXT_SIZE ≤ L.stackSize t ∧ c.gpr sp = L.word t (k + CONTEXT_FRAME_SIZE)
  Keeps t c c' := ∀ x, x ≠ L.getTaskContext t → x ≠ wordAt (c.gpr sp) CONTEXT_LR_IDX →
    x ∉ span (c.gpr sp - BitVec.ofNat 32 (4 * CONTEXT_FRAME_SIZE)) CONTEXT_FRAME_SIZE →
    c'.mem x = c.mem x

end Echronos.Ppce500
