import Echronos.Schemes.Memory

/-! # The instructions of the e500 that `packages/ppce500` uses

    General-purpose and special registers of 32 bits, and a memory of words. An access of an address
    that is not aligned is not described. -/

namespace Echronos.Ppce500

open Schemes

/-- The number of a general-purpose register. -/
abbrev Gpr := ℕ

def sp : Gpr := 1

/-- Registers that are moved from and to a general-purpose register. -/
inductive Special
  | lr
  | ctr
  | xer
  | cr
  | srr0
  | srr1
  | csrr0
  | csrr1
  | mcsrr0
  | mcsrr1
  | msr
  deriving DecidableEq

structure Cpu where
  gpr : Gpr → Word
  special : Special → Word
  pc : Word
  mem : Word → Word

inductive Instr
  /-- `mflr rt`, `mfctr rt` and so on. -/
  | mf (rt : Gpr) (s : Special)
  /-- `mtlr rs`, `mtctr rs` and so on. -/
  | mt (s : Special) (rs : Gpr)
  /-- `stw rs, d(ra)` -/
  | stw (rs : Gpr) (d : Word) (ra : Gpr)
  | stwu (rs : Gpr) (d : Word) (ra : Gpr)
  | stmw (rs : Gpr) (d : Word) (ra : Gpr)
  | lwz (rt : Gpr) (d : Word) (ra : Gpr)
  | lmw (rt : Gpr) (d : Word) (ra : Gpr)
  | addi (rt ra : Gpr) (d : Word)
  | mr (rt rs : Gpr)
  | li (rt : Gpr) (i : BitVec 16)
  | lis (rt : Gpr) (i : BitVec 16)
  | ori (ra rs : Gpr) (i : BitVec 16)
  | oris (ra rs : Gpr) (i : BitVec 16)
  | and (ra rs rb : Gpr)
  /-- `cmpi 0, ra, i` -/
  | cmpi (ra : Gpr) (i : Word)
  | blr
  /-- `rfi`, `rfci` or `rfmci`, from the registers given. -/
  | rf (save0 save1 : Special)

/-- The registers from `r` to `r31`. -/
def upTo31 (r : Gpr) : List Gpr := (List.range' r (32 - r))

/-- The condition register after a signed comparison: field 0 are the bits LT, GT, EQ and SO. -/
def compare (a b xer cr : Word) : Word :=
  let field := if a.slt b then 0x8#4 else if b.slt a then 0x4#4 else 0x2#4
  (cr &&& 0x0fffffff) ||| ((field ||| (if xer.getLsbD 31 then 0x1#4 else 0#4)).setWidth 32 <<< 28)

namespace Cpu

def set (r : Gpr) (v : Word) (c : Cpu) : Cpu := { c with gpr := Function.update c.gpr r v }

def setSpecial (s : Special) (v : Word) (c : Cpu) : Cpu :=
  { c with special := Function.update c.special s v }

def store (a v : Word) (c : Cpu) : Cpu := { c with mem := Function.update c.mem a v }

def exec (c : Cpu) : Instr → Cpu
  | .mf rt s => c.set rt (c.special s)
  | .mt s rs => c.setSpecial s (c.gpr rs)
  | .stw rs d ra => c.store (c.gpr ra + d) (c.gpr rs)
  | .stwu rs d ra => (c.store (c.gpr ra + d) (c.gpr rs)).set ra (c.gpr ra + d)
  | .stmw rs d ra => { c with mem := storeWords c.mem (c.gpr ra + d) ((upTo31 rs).map c.gpr) }
  | .lwz rt d ra => c.set rt (c.mem (c.gpr ra + d))
  | .lmw rt d ra =>
    { c with gpr := setAll c.gpr (upTo31 rt) (loadWords c.mem (c.gpr ra + d) (32 - rt)) }
  | .addi rt ra d => c.set rt (c.gpr ra + d)
  | .mr rt rs => c.set rt (c.gpr rs)
  | .li rt i => c.set rt (i.signExtend 32)
  | .lis rt i => c.set rt (i.setWidth 32 <<< 16)
  | .ori ra rs i => c.set ra (c.gpr rs ||| i.setWidth 32)
  | .oris ra rs i => c.set ra (c.gpr rs ||| i.setWidth 32 <<< 16)
  | .and ra rs rb => c.set ra (c.gpr rs &&& c.gpr rb)
  | .cmpi ra i => c.setSpecial .cr (compare (c.gpr ra) i (c.special .xer) (c.special .cr))
  | .blr => { c with pc := c.special .lr }
  | .rf save0 save1 => { c.setSpecial .msr (c.special save1) with pc := c.special save0 }

/-- The address that an instruction accesses. -/
def address (c : Cpu) : Instr → Word
  | .stw _ d ra | .stwu _ d ra | .stmw _ d ra | .lwz _ d ra | .lmw _ d ra => c.gpr ra + d
  | _ => 0

def Aligned (a : Word) : Prop := a.toNat % 4 = 0

instance : DecidablePred Aligned := fun a => inferInstanceAs (Decidable (a.toNat % 4 = 0))

/-- Straight-line code. -/
def execs : List Instr → Cpu → Option Cpu
  | [], c => some c
  | i :: code, c => if Aligned (c.address i) then execs code (c.exec i) else none

section Execs

variable {c : Cpu} {code : List Instr} {rs rt ra : Gpr} {d a : Word} {s : Special}

theorem aligned_zero : Aligned 0 := by decide

theorem execs_mf : execs (.mf rt s :: code) c = execs code (c.set rt (c.special s)) :=
  if_pos aligned_zero

theorem execs_mt : execs (.mt s rs :: code) c = execs code (c.setSpecial s (c.gpr rs)) :=
  if_pos aligned_zero

theorem execs_addi : execs (.addi rt ra d :: code) c = execs code (c.set rt (c.gpr ra + d)) :=
  if_pos aligned_zero

theorem execs_blr : execs (.blr :: code) c = execs code { c with pc := c.special .lr } :=
  if_pos aligned_zero

theorem execs_stw (ha : c.gpr ra + d = a) (h : Aligned a) :
    execs (.stw rs d ra :: code) c = execs code (c.store a (c.gpr rs)) := by
  subst ha
  exact if_pos h

theorem execs_stwu (ha : c.gpr ra + d = a) (h : Aligned a) :
    execs (.stwu rs d ra :: code) c = execs code ((c.store a (c.gpr rs)).set ra a) := by
  subst ha
  exact if_pos h

theorem execs_stmw (ha : c.gpr ra + d = a) (h : Aligned a) : execs (.stmw rs d ra :: code) c =
    execs code { c with mem := storeWords c.mem a ((upTo31 rs).map c.gpr) } := by
  subst ha
  exact if_pos h

theorem execs_lwz (ha : c.gpr ra + d = a) (h : Aligned a) :
    execs (.lwz rt d ra :: code) c = execs code (c.set rt (c.mem a)) := by
  subst ha
  exact if_pos h

theorem execs_lmw (ha : c.gpr ra + d = a) (h : Aligned a) : execs (.lmw rt d ra :: code) c =
    execs code { c with gpr := setAll c.gpr (upTo31 rt) (loadWords c.mem a (32 - rt)) } := by
  subst ha
  exact if_pos h

end Execs

end Cpu

end Echronos.Ppce500
