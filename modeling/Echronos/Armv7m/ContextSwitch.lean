import Echronos.Ports.Stacks
import Echronos.Schemes.Switching
import Mathlib.Data.Fin.Basic

/-! # Component `context-switch-armv7m`

    The instructions of `ctxt-switch.s` on the registers and a memory of words. A task that switches
    away pushes its registers on its stack, and its context is the stack pointer after that. -/

namespace Echronos.Armv7m

open Schemes

/-- The number of a register. -/
abbrev Reg := ℕ

def sp : Reg := 13

def lr : Reg := 14

def pc : Reg := 15

structure Cpu where
  regs : Reg → Word
  mem : Word → Word

inductive Instr
  | push (rs : List Reg)
  | pop (rs : List Reg)
  /-- `str rt, [rn]` -/
  | str (rt rn : Reg)
  /-- `ldr rt, [rn]` -/
  | ldr (rt rn : Reg)
  | blx (rm : Reg)

namespace Cpu

def set (r : Reg) (v : Word) (c : Cpu) : Cpu := { c with regs := Function.update c.regs r v }

/-- Unaligned accesses fault. -/
def access (a : Word) (c : Cpu) : Option Cpu := if a.toNat % 4 = 0 then some c else none

/-- The registers after `pop rs`. -/
def popped (rs : List Reg) (c : Cpu) : Reg → Word :=
  setAll (Function.update c.regs sp (wordAt (c.regs sp) rs.length)) rs
    (loadWords c.mem (c.regs sp) rs.length)

/-- One instruction. `blx` leaves the address of the next instruction in the link register. -/
def exec (c : Cpu) : Instr → Option Cpu
  | .push rs =>
    let a := c.regs sp - BitVec.ofNat 32 (4 * rs.length)
    access a { c with regs := Function.update c.regs sp a, mem := storeWords c.mem a (rs.map c.regs) }
  | .pop rs => access (c.regs sp) { c with regs := c.popped rs }
  | .str rt rn => access (c.regs rn) { c with mem := Function.update c.mem (c.regs rn) (c.regs rt) }
  | .ldr rt rn => access (c.regs rn) (c.set rt (c.mem (c.regs rn)))
  | .blx rm => some ((c.set lr (c.regs pc + 2)).set pc (c.regs rm))

def execs : List Instr → Cpu → Option Cpu
  | [], c => some c
  | i :: code, c => (c.exec i).bind (execs code)

variable {c c' : Cpu} {code : List Instr} {i : Instr}

@[simp] theorem set_mem {r : Reg} {v : Word} : (c.set r v).mem = c.mem := rfl

@[simp] theorem set_regs {r : Reg} {v : Word} : (c.set r v).regs = Function.update c.regs r v := rfl

theorem map_popped {rs : List Reg} (h : rs.Nodup) :
    rs.map (c.popped rs) = loadWords c.mem (c.regs sp) rs.length :=
  map_setAll h length_loadWords.symm

theorem popped_sp {rs : List Reg} (h : sp ∉ rs) : c.popped rs sp = wordAt (c.regs sp) rs.length := by
  rw [popped, setAll_of_notMem h, Function.update_self]

theorem execs_cons (h : c.exec i = some c') : execs (i :: code) c = execs code c' := by
  rw [execs, h, Option.bind_some]

theorem exec_push {rs : List Reg} {a : Word} (ha : c.regs sp - BitVec.ofNat 32 (4 * rs.length) = a)
    (h : a.toNat % 4 = 0) : c.exec (.push rs) =
      some { regs := Function.update c.regs sp a, mem := storeWords c.mem a (rs.map c.regs) } := by
  subst ha
  exact if_pos h

theorem exec_pop {rs : List Reg} (h : (c.regs sp).toNat % 4 = 0) :
    c.exec (.pop rs) = some { c with regs := c.popped rs } := if_pos h

theorem exec_str {rt rn : Reg} {a : Word} (ha : c.regs rn = a) (h : a.toNat % 4 = 0) :
    c.exec (.str rt rn) = some { c with mem := Function.update c.mem a (c.regs rt) } := by
  subst ha
  exact if_pos h

theorem exec_ldr {rt rn : Reg} {a : Word} (ha : c.regs rn = a) (h : a.toNat % 4 = 0) :
    c.exec (.ldr rt rn) = some (c.set rt (c.mem a)) := by
  subst ha
  exact if_pos h

end Cpu

/-- `rtos_internal_context_switch_first` -/
def rtosInternalContextSwitchFirst : List Instr :=
  [.ldr sp 0,
   .pop [4, 5, 6, 7, 8, 9, 10, 11, 12, pc]]

/-- `rtos_internal_context_switch`, which falls through. -/
def rtosInternalContextSwitch : List Instr :=
  [.push [4, 5, 6, 7, 8, 9, 10, 11, 12, lr],
   .str sp 1] ++
  rtosInternalContextSwitchFirst

/-- `rtos_internal_trampoline` -/
def rtosInternalTrampoline : List Instr := [.blx 4]

def CONTEXT_SIZE : ℕ := 10

def CONTEXT_V1_IDX : ℕ := 0

def CONTEXT_PC_IDX : ℕ := 9

variable {tasks : ℕ} (L : Stacks tasks)

/-- `context_init` for a task; `trampoline` is the address of `rtos_internal_trampoline`. -/
def contextInit (trampoline fn : Word) (t : Fin tasks) (mem : Word → Word) : Word → Word :=
  let context := L.word t (L.stackSize t - CONTEXT_SIZE)
  Function.update
    (Function.update (Function.update mem (wordAt context CONTEXT_V1_IDX) fn)
      (wordAt context CONTEXT_PC_IDX) trampoline)
    (L.getTaskContext t) context

/-- The registers hold the arguments of a call. -/
def Cpu.call (a b : Word) (c : Cpu) : Cpu := (c.set 0 a).set 1 b

/-- `context_switch` from a task to a task. -/
def contextSwitch (t u : Fin tasks) (c : Cpu) : Option Cpu :=
  (c.call (L.getTaskContext u) (L.getTaskContext t)).execs rtosInternalContextSwitch

/-- `start()`: every task's context is initialised, and the first task switched to. -/
def start (pos : 0 < tasks) (trampoline : Word) (fn : Fin tasks → Word) (c : Cpu) : Option Cpu :=
  let mem := (List.finRange tasks).foldl (fun mem t => contextInit L trampoline (fn t) t mem) c.mem
  (({ c with mem := mem } : Cpu).set 0 (L.getTaskContext ⟨0, pos⟩)).execs rtosInternalContextSwitchFirst

/-- What a context holds: `r4` to `r12`, the address to go on at, and the stack pointer. -/
abbrev Frame := List Word × Word

/-- The address to go on at is in register `r`. -/
def Cpu.frame (r : Reg) (c : Cpu) : Frame := ([4, 5, 6, 7, 8, 9, 10, 11, 12, r].map c.regs, c.regs sp)

/-- The tasks of a system on the processor. They do not write to the saved contexts of others, and
    have the room for a context on their stacks when they switch away. -/
def switching : Switching Unit (Fin tasks) Cpu Frame where
  switch _ t u c := contextSwitch L t u c
  leaves _ c := c.frame lr
  Returns v c := c.frame pc = v
  Holds t v c := ∃ k, L.HoldsFrame CONTEXT_SIZE t k v.1 c.mem ∧ v.2 = L.word t (k + CONTEXT_SIZE)
  Runs t c c' := L.Spares CONTEXT_SIZE t c.mem c'.mem
  Fits _ t _ c := ∃ k, k + CONTEXT_SIZE ≤ L.stackSize t ∧ c.regs sp = L.word t (k + CONTEXT_SIZE)
  Keeps t c c' := ∀ x, x ≠ L.getTaskContext t →
    x ∉ span (c.regs sp - BitVec.ofNat 32 (4 * CONTEXT_SIZE)) CONTEXT_SIZE → c'.mem x = c.mem x

end Echronos.Armv7m
