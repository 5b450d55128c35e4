import Echronos.Schemes.Crc

/-! # `lib/util/crc16.py`

    The engine takes a byte at a time and has no table: the eight steps of a byte are folded into a few
    shifts. -/

namespace Echronos.Util

open Schemes

/-- `util.s16l` -/
def s16l (value n : ℕ) : ℕ := value <<< n &&& 0xffff

/-- `Crc16Ccitt`, as it is made and after `reset`. -/
structure Crc16Ccitt where
  state : ℕ := 0xffff

/-- `Crc16Ccitt.add` -/
def Crc16Ccitt.add (c : Crc16Ccitt) (byte : UInt8) : Crc16Ccitt :=
  let s := byte.toNat ^^^ c.state >>> 8
  let t := s ^^^ s >>> 4
  ⟨s16l c.state 8 ^^^ t ^^^ s16l t 5 ^^^ s16l t 12⟩

/-- `crc16ccitt` -/
def crc16ccitt (datas : List (List UInt8)) : ℕ :=
  (datas.foldl (fun c data => data.foldl Crc16Ccitt.add c) ({} : Crc16Ccitt)).state

/-- The polynomial of CRC-16-CCITT. -/
def polynomial : BitVec 16 := 0x1021

/-! ### A byte -/

/-- What `add` does, on 16 bits. -/
def addBits (crc : BitVec 16) (byte : BitVec 8) : BitVec 16 :=
  let s := byte ^^^ (crc >>> 8).setWidth 8
  let t := (s ^^^ s >>> 4).setWidth 16
  crc <<< 8 ^^^ t ^^^ t <<< 5 ^^^ t <<< 12

theorem s16l_toNat (v : BitVec 16) (n : ℕ) : s16l v.toNat n = (v <<< n).toNat := by
  rw [s16l, BitVec.toNat_shiftLeft]
  exact Nat.and_two_pow_sub_one_eq_mod _ 16

/-- The engine keeps to 16 bits. -/
theorem add_toNat (crc : BitVec 16) (byte : UInt8) :
    (Crc16Ccitt.add ⟨crc.toNat⟩ byte).state = (addBits crc byte.toBitVec).toNat := by
  have hhigh : crc.toNat >>> 8 = ((crc >>> 8).setWidth 8).toNat := by
    rw [BitVec.toNat_setWidth, BitVec.toNat_ushiftRight, Nat.shiftRight_eq_div_pow]
    have := crc.isLt
    omega
  have ht : ∀ s : BitVec 8, s.toNat ^^^ s.toNat >>> 4 = ((s ^^^ s >>> 4).setWidth 16).toNat := by
    intro s
    rw [BitVec.toNat_setWidth, ← BitVec.toNat_ushiftRight, ← BitVec.toNat_xor]
    have := (s ^^^ s >>> 4).isLt
    omega
  simp only [Crc16Ccitt.add, addBits]
  rw [hhigh, show byte.toNat = byte.toBitVec.toNat from rfl, ← BitVec.toNat_xor, ht, s16l_toNat,
    s16l_toNat, s16l_toNat, ← BitVec.toNat_xor, ← BitVec.toNat_xor, ← BitVec.toNat_xor]

/-- The lower half of the remainder moves into the upper one. -/
theorem crcBits_low (low : BitVec 8) :
    crcBits polynomial (low.setWidth 16) (List.replicate 8 false) = low.setWidth 16 <<< 8 := by
  revert low
  decide +kernel

/-- A byte combined with the upper half of the remainder. -/
theorem crcBits_high (s : BitVec 8) :
    crcBits polynomial (s.setWidth 16 <<< 8) (List.replicate 8 false) =
      let t := (s ^^^ s >>> 4).setWidth 16
      t ^^^ t <<< 5 ^^^ t <<< 12 := by
  revert s
  decide +kernel

/-- A byte of the message may be added to the upper half of the remainder beforehand. -/
theorem crcBits_byte (byte : BitVec 8) :
    crcBits polynomial 0#16 (bitsOfByte byte) =
      crcBits polynomial (byte.setWidth 16 <<< 8) (List.replicate 8 false) := by
  revert byte
  decide +kernel

/-- The shifts of `add` are the eight steps of a byte. -/
theorem addBits_eq (crc : BitVec 16) (byte : BitVec 8) :
    addBits crc byte = crcBits polynomial crc (bitsOfByte byte) := by
  have hhalves : (crc.setWidth 8).setWidth 16 ^^^ ((crc >>> 8).setWidth 8).setWidth 16 <<< 8 = crc := by
    apply BitVec.eq_of_getLsbD_eq
    intro i hi
    simp only [BitVec.getLsbD_xor, BitVec.getLsbD_shiftLeft, BitVec.getLsbD_setWidth,
      BitVec.getLsbD_ushiftRight]
    by_cases hlow : i < 8
    · simp [hlow, hi]
    · simp [hlow, hi, show i - 8 < 16 by omega, show i - 8 < 8 by omega, show 8 + (i - 8) = i by omega]
  have hshift : (crc.setWidth 8).setWidth 16 <<< 8 = crc <<< 8 := by
    apply BitVec.eq_of_getLsbD_eq
    intro i hi
    simp only [BitVec.getLsbD_shiftLeft, BitVec.getLsbD_setWidth]
    simp [hi, show i - 8 < 16 by omega, show i - 8 < 8 by omega]
  have hxor : (byte ^^^ (crc >>> 8).setWidth 8).setWidth 16 <<< 8 =
      ((crc >>> 8).setWidth 8).setWidth 16 <<< 8 ^^^ byte.setWidth 16 <<< 8 := by
    rw [BitVec.setWidth_xor, BitVec.shiftLeft_xor_distrib, BitVec.xor_comm]
  symm
  calc crcBits polynomial crc (bitsOfByte byte)
    _ = crcBits polynomial crc (List.replicate 8 false) ^^^
          crcBits polynomial 0#16 (bitsOfByte byte) := by
        rw [crcBits_split, length_bitsOfByte]
    _ = crc <<< 8 ^^^ crcBits polynomial
          ((byte ^^^ (crc >>> 8).setWidth 8).setWidth 16 <<< 8) (List.replicate 8 false) := by
        rw [hxor, crcBits_zeros_xor, crcBits_byte, ← BitVec.xor_assoc]
        congr 1
        conv_lhs => rw [← hhalves]
        rw [crcBits_zeros_xor, crcBits_low, hshift]
    _ = addBits crc byte := by
        rw [crcBits_high, addBits, ← BitVec.xor_assoc, ← BitVec.xor_assoc]

/-! ### The message -/

theorem foldl_add (bytes : List UInt8) : ∀ crc : BitVec 16,
    (bytes.foldl Crc16Ccitt.add ⟨crc.toNat⟩).state =
      (crcBytes polynomial crc (bytes.map UInt8.toBitVec)).toNat := by
  induction bytes with
  | nil => exact fun _ => rfl
  | cons byte bytes ih =>
    intro crc
    rw [List.foldl_cons, List.map_cons, crcBytes_cons, ← addBits_eq, ← ih, ← add_toNat]

theorem foldl_datas : ∀ (datas : List (List UInt8)) (c : Crc16Ccitt),
    datas.foldl (fun c data => data.foldl Crc16Ccitt.add c) c =
      datas.flatten.foldl Crc16Ccitt.add c
  | [], _ => rfl
  | data :: datas, c => by
    rw [List.foldl_cons, List.flatten_cons, List.foldl_append, foldl_datas]

/-- The checksum is the CRC-16-CCITT of all the data, computed bit by bit from all ones; the engine
    keeps to 16 bits after every byte, and how the data is split is of no account. -/
theorem crc16ccitt_bitwise (datas : List (List UInt8)) :
    crc16ccitt datas = (crcBytes polynomial 0xffff (datas.flatten.map UInt8.toBitVec)).toNat ∧
    (∀ n, ((datas.flatten.take n).foldl Crc16Ccitt.add {}).state ≤ 0xffff) ∧
    crc16ccitt datas = crc16ccitt [datas.flatten] := by
  have hstart : ({} : Crc16Ccitt) = ⟨(0xffff : BitVec 16).toNat⟩ := rfl
  refine ⟨?_, fun n => ?_, ?_⟩
  · rw [crc16ccitt, foldl_datas]
    exact foldl_add _ 0xffff
  · rw [hstart, foldl_add]
    exact Nat.le_of_lt_succ (BitVec.isLt _)
  · rw [crc16ccitt, crc16ccitt, foldl_datas]
    rfl

example : crc16ccitt [[0x66, 0x6f, 0x6f, 0x5f], [0x62, 0x61, 0x72]] = 0x37df := by decide +kernel

end Echronos.Util
