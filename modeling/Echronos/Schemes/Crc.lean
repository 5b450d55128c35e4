import Mathlib.Data.BitVec

/-! # Cyclic redundancy checks, bit by bit

    The remainder of a message is kept in `w` bits. A bit of the message, the most significant one of
    a byte first, is combined with the highest bit of the remainder; the remainder moves up by one
    place, and the polynomial is subtracted, that is, combined by exclusive or, if the bit says so. -/

namespace Schemes

variable {w : ℕ} (poly : BitVec w)

/-- One bit of the message. -/
def crcBit (crc : BitVec w) (bit : Bool) : BitVec w :=
  if crc.msb ^^ bit then crc <<< 1 ^^^ poly else crc <<< 1

/-- The bits of a message, in turn. -/
def crcBits (crc : BitVec w) (bits : List Bool) : BitVec w := bits.foldl (crcBit poly) crc

/-- The bits of a byte, the most significant one first. -/
def bitsOfByte (byte : BitVec 8) : List Bool := (List.range 8).map byte.getMsbD

/-- The remainder of a message of bytes. -/
def crcBytes (crc : BitVec w) (bytes : List (BitVec 8)) : BitVec w :=
  crcBits poly crc (bytes.flatMap bitsOfByte)

@[simp] theorem length_bitsOfByte (byte : BitVec 8) : (bitsOfByte byte).length = 8 := by
  simp [bitsOfByte]

theorem crcBits_append (crc : BitVec w) (bits bits' : List Bool) :
    crcBits poly crc (bits ++ bits') = crcBits poly (crcBits poly crc bits) bits' :=
  List.foldl_append

theorem crcBytes_cons (crc : BitVec w) (byte : BitVec 8) (bytes : List (BitVec 8)) :
    crcBytes poly crc (byte :: bytes) =
      crcBytes poly (crcBits poly crc (bitsOfByte byte)) bytes := by
  rw [crcBytes, List.flatMap_cons, crcBits_append, crcBytes]

/-! ### Linearity -/

theorem crcBit_xor (a b : BitVec w) (x y : Bool) :
    crcBit poly (a ^^^ b) (x ^^ y) = crcBit poly a x ^^^ crcBit poly b y := by
  have hcancel : a <<< 1 ^^^ poly ^^^ (b <<< 1 ^^^ poly) = a <<< 1 ^^^ b <<< 1 := by
    rw [BitVec.xor_assoc, ← BitVec.xor_assoc poly, BitVec.xor_comm poly, BitVec.xor_assoc (b <<< 1),
      BitVec.xor_self, BitVec.xor_zero]
  have hmsb : ((a ^^^ b).msb ^^ (x ^^ y)) = ((a.msb ^^ x) ^^ (b.msb ^^ y)) := by
    rw [BitVec.msb_xor, Bool.xor_assoc, Bool.xor_assoc, Bool.xor_left_comm b.msb]
  rw [crcBit, crcBit, crcBit, hmsb, BitVec.shiftLeft_xor_distrib]
  cases a.msb ^^ x <;> cases b.msb ^^ y
  · rfl
  · exact BitVec.xor_assoc _ _ _
  · show a <<< 1 ^^^ b <<< 1 ^^^ poly = a <<< 1 ^^^ poly ^^^ b <<< 1
    rw [BitVec.xor_assoc, BitVec.xor_comm (b <<< 1), ← BitVec.xor_assoc]
  · exact hcancel.symm

theorem crcBits_xor : ∀ (xs ys : List Bool) (a b : BitVec w), xs.length = ys.length →
    crcBits poly (a ^^^ b) (List.zipWith xor xs ys) = crcBits poly a xs ^^^ crcBits poly b ys
  | [], [], _, _, _ => rfl
  | x :: xs, y :: ys, a, b, h => by
    rw [List.zipWith_cons_cons, crcBits, List.foldl_cons, crcBit_xor]
    exact crcBits_xor xs ys _ _ (Nat.succ.inj h)

/-- The remainder moves on as if the message were zero, and the message as if the remainder were. -/
theorem crcBits_split (crc : BitVec w) (bits : List Bool) :
    crcBits poly crc bits =
      crcBits poly crc (List.replicate bits.length false) ^^^ crcBits poly 0#w bits := by
  have hbits : List.zipWith xor (List.replicate bits.length false) bits = bits := by
    induction bits with
    | nil => rfl
    | cons bit bits ih => rw [List.length_cons, List.replicate_succ, List.zipWith_cons_cons, ih,
        Bool.false_xor]
  have hcrc := crcBits_xor poly _ bits crc 0#w (List.length_replicate (n := bits.length) (a := false))
  rwa [hbits, BitVec.xor_zero] at hcrc

theorem crcBits_zeros_xor (n : ℕ) (a b : BitVec w) :
    crcBits poly (a ^^^ b) (List.replicate n false) =
      crcBits poly a (List.replicate n false) ^^^ crcBits poly b (List.replicate n false) := by
  have hzeros : List.zipWith xor (List.replicate n false) (List.replicate n false) =
      List.replicate n false := by
    rw [List.zipWith_replicate, Nat.min_self, Bool.false_xor]
  rw [← crcBits_xor poly _ _ a b rfl, hzeros]

end Schemes
