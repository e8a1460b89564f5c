import Outscript.Library.BitGroups
import Outscript.Library.ByteString
import Outscript.Library.LinearChecksum
import Outscript.Library.ReflectedCrc

/-!
# CRC-32

The checksum of bytewords and of multi-part messages, by nibbles: a table of
16 entries, two steps a byte. The steps are the usual ones, bit by bit. They are
linear and lose nothing, so a change within four bytes never goes unnoticed.
-/
namespace Outscript.Bcur

open ByteString BitGroups LinearChecksum

/-- One bit of the reflected polynomial division. -/
def crcBit (c : UInt32) : UInt32 :=
  if (c &&& 1) ≠ 0 then (0xedb88320 : UInt32) ^^^ (c >>> 1) else c >>> 1

def crcTable : List UInt32 :=
  (List.range 16).map (fun i => crcBit (crcBit (crcBit (crcBit (UInt32.ofNat i)))))

namespace Crc32

def new : UInt32 := ~~~0

def nibble (c : UInt32) : UInt32 := crcTable.getD (c &&& 15).toNat 0 ^^^ (c >>> 4)

def updateByte (c : UInt32) (byte : UInt8) : UInt32 := nibble (nibble (c ^^^ byte.toUInt32))

def update (c : UInt32) (data : Bytes) : UInt32 := data.foldl updateByte c

def finish (c : UInt32) : UInt32 := ~~~c

theorem update_append (c : UInt32) (a b : Bytes) :
    update c (a ++ b) = update (update c a) b := by
  simp [update]

end Crc32

def crc32 (data : Bytes) : UInt32 := Crc32.finish (Crc32.update Crc32.new data)

/-- The standard check value. -/
example : crc32 [49, 50, 51, 52, 53, 54, 55, 56, 57] = 0xcbf43926 := by decide +kernel

namespace Crc32

theorem and_fifteen_lt (c : UInt32) : (c &&& 15).toNat < 16 := by
  rw [UInt32.toNat_and]
  exact Nat.and_lt_two_pow _ (by decide : 15 < 2 ^ 4)

/-! ## Bit by bit -/

/-- The polynomial of IEEE 802.3, its bits reflected. -/
def polynomial : BitVec 32 := 0xedb88320

theorem crcBit_toBitVec (c : UInt32) :
    (crcBit c).toBitVec = ReflectedCrc.turn polynomial c.toBitVec := by
  have hbit : c &&& 1 ≠ 0 ↔ c.toBitVec.getLsbD 0 = true := by
    rw [ne_eq, ← UInt32.toBitVec_inj, UInt32.toBitVec_and, UInt32.toBitVec_one,
      BitVec.and_one_eq_setWidth_ofBool_getLsbD]
    cases c.toBitVec.getLsbD 0 <;> decide
  have hshift : (c >>> 1).toBitVec = c.toBitVec >>> 1 := by
    apply BitVec.eq_of_toNat_eq
    rfl
  rw [crcBit, ReflectedCrc.turn, ReflectedCrc.bitStep, Bool.xor_false]
  simp only [hbit]
  split_ifs
  · rw [UInt32.toBitVec_xor, hshift, BitVec.xor_comm]
    rfl
  · exact hshift

theorem crcTable_get : ∀ i < 16, crcTable.getD i 0 = crcBit^[4] (UInt32.ofNat i) := by decide

/-- A nibble step is four steps of one bit. -/
theorem nibble_toBitVec (c : UInt32) :
    (nibble c).toBitVec = (ReflectedCrc.turn polynomial)^[4] c.toBitVec := by
  have hturns (c : UInt32) (k : ℕ) :
      (crcBit^[k] c).toBitVec = (ReflectedCrc.turn polynomial)^[k] c.toBitVec :=
    Function.Semiconj.iterate_right crcBit_toBitVec k c
  have hlow : (c &&& 15).toNat = c.toBitVec.toNat % 2 ^ 4 := by
    rw [UInt32.toNat_and]
    exact Nat.and_two_pow_sub_one_eq_mod _ 4
  have hshift : (c >>> 4).toBitVec = c.toBitVec >>> 4 := by
    apply BitVec.eq_of_toNat_eq
    rfl
  rw [nibble, crcTable_get _ (and_fifteen_lt c), UInt32.toBitVec_xor, hturns, hshift,
    ReflectedCrc.iterate_turn_eq c.toBitVec 4, hlow]
  rfl

theorem updateByte_toBitVec (c : UInt32) (byte : UInt8) :
    (updateByte c byte).toBitVec =
      (ReflectedCrc.lowBits 8 byte.toNat).foldl (ReflectedCrc.bitStep polynomial) c.toBitVec := by
  have hbyte : byte.toUInt32.toBitVec = BitVec.ofNat 32 byte.toNat := by
    apply BitVec.eq_of_toNat_eq
    rw [BitVec.toNat_ofNat, Nat.mod_eq_of_lt (byte.toNat_lt.trans (by decide))]
    rfl
  rw [ReflectedCrc.foldl_lowBits (by decide) byte.toNat_lt, updateByte, nibble_toBitVec,
    nibble_toBitVec, ← Function.iterate_add_apply, UInt32.toBitVec_xor, hbyte]

theorem update_toBitVec (c : UInt32) (data : Bytes) :
    (update c data).toBitVec =
      (ReflectedCrc.bits data).foldl (ReflectedCrc.bitStep polynomial) c.toBitVec := by
  induction data generalizing c with
  | nil => rfl
  | cons byte data ih =>
    rw [update, List.foldl_cons, ← update, ih, updateByte_toBitVec,
      ReflectedCrc.bits_cons, List.foldl_append]

/-- However a message is cut, its checksum is the one computed bit by bit. -/
theorem checksum_is_standard (pieces : List Bytes) :
    (finish (pieces.foldl update new)).toBitVec =
      ReflectedCrc.check polynomial (.allOnes 32) (.allOnes 32) pieces.flatten := by
  have hpieces (c : UInt32) : pieces.foldl update c = update c pieces.flatten := by
    induction pieces generalizing c with
    | nil => rfl
    | cons piece pieces ih => rw [List.foldl_cons, ih, List.flatten_cons, update_append]
  rw [finish, hpieces, UInt32.toBitVec_not, update_toBitVec, ReflectedCrc.check,
    BitVec.xor_allOnes]
  rfl

/-! ## Losing nothing -/

/-- The table is linear, and tells its indexes apart by the top bits. -/
theorem table_checked :
    (∀ i < 16, ∀ j < 16, crcTable.getD (i ^^^ j) 0 = crcTable.getD i 0 ^^^ crcTable.getD j 0) ∧
      ∀ i < 16, crcTable.getD i 0 >>> 28 = 0 → i = 0 := by
  decide

/-- A nibble step is linear in the register. -/
theorem nibble_xor (a b : UInt32) : nibble (a ^^^ b) = nibble a ^^^ nibble b := by
  have hmask : (a ^^^ b) &&& 15 = (a &&& 15) ^^^ (b &&& 15) := UInt32.toBitVec_inj.mp (xor_and _ _ _)
  have htable := table_checked.1 _ (and_fifteen_lt a) _ (and_fifteen_lt b)
  rw [nibble, nibble, nibble, hmask, UInt32.toNat_xor, htable, UInt32.shiftRight_xor]
  ac_rfl

/-- A register whose low four bits are clear only moves. -/
theorem nibble_of_low {c : UInt32} (h : c &&& 15 = 0) : nibble c = c >>> 4 := by
  rw [nibble, h]
  exact UInt32.zero_xor

theorem toNat_shiftRight_four (c : UInt32) : (c >>> 4).toNat = c.toNat / 16 := by
  rw [UInt32.toNat_shiftRight]
  exact Nat.shiftRight_eq_div_pow c.toNat 4

/-- A nibble step loses nothing. -/
theorem eq_zero_of_nibble {c : UInt32} (h : nibble c = 0) : c = 0 := by
  have htable : crcTable.getD (c &&& 15).toNat 0 = c >>> 4 := UInt32.xor_eq_zero_iff.mp h
  have htop : c >>> 4 >>> 28 = 0 := by
    apply UInt32.toNat_inj.mp
    have hlt := c.toNat_lt
    rw [UInt32.toNat_shiftRight, toNat_shiftRight_four]
    change (c.toNat / 16) >>> 28 = 0
    rw [Nat.shiftRight_eq_div_pow]
    omega
  have hlow : (c &&& 15).toNat = 0 := table_checked.2 _ (and_fifteen_lt c) (by rw [htable, htop])
  have hmod : c.toNat % 16 = 0 := by
    rw [UInt32.toNat_and] at hlow
    rwa [← Nat.and_two_pow_sub_one_eq_mod c.toNat 4]
  have hhigh := congrArg UInt32.toNat (nibble_of_low (UInt32.toNat_inj.mp hlow))
  rw [h, toNat_shiftRight_four] at hhigh
  apply UInt32.toNat_inj.mp
  change 0 = c.toNat / 16 at hhigh
  change c.toNat = 0
  omega

/-- The register as an element of the group of registers. -/
def register (c : UInt32) : Register 32 := ⟨c.toBitVec⟩

theorem register_injective : Function.Injective register := by
  intro a b h
  exact UInt32.toBitVec_inj.mp (congrArg Register.word h)

/-- A step without a byte. -/
def shift : Register 32 →+ Register 32 where
  toFun g := register (nibble (nibble (.ofBitVec g.word)))
  map_zero' := Register.ext (by decide)
  map_add' a b := by
    have hadd := nibble_xor (.ofBitVec a.word) (.ofBitVec b.word)
    exact congrArg register ((congrArg nibble hadd).trans (nibble_xor _ _))

theorem shift_register (c : UInt32) : shift (register c) = register (nibble (nibble c)) := rfl

theorem shift_injective : Function.Injective shift := by
  refine (injective_iff_map_eq_zero shift).mpr fun g h => ?_
  have hzero : nibble (nibble (.ofBitVec g.word)) = 0 := register_injective h
  have hword := eq_zero_of_nibble (eq_zero_of_nibble hzero)
  exact Register.ext (congrArg UInt32.toBitVec hword)

/-- A byte enters the register before the step. -/
def inject (byte : UInt8) : Register 32 := shift (register byte.toUInt32)

theorem register_update (data : Bytes) (c : UInt32) :
    register (update c data) = remainder shift inject (register c) data := by
  induction data generalizing c with
  | nil => rfl
  | cons byte data ih =>
    have hstep : register (updateByte c byte) = absorb shift inject (register c) byte := by
      rw [absorb, inject, ← map_add]
      rfl
    rw [update, List.foldl_cons, ← update, ih, hstep]
    rfl

/-- A word that leaves the low byte free moves down by it. -/
theorem shift_of_low {v : Nat} (h : v < 2 ^ 24) :
    shift (register (UInt32.ofNat (256 * v))) = register (UInt32.ofNat v) := by
  have hlow {v : Nat} (h : v < 2 ^ 28) :
      nibble (UInt32.ofNat (16 * v)) = UInt32.ofNat v := by
    have hnat : (UInt32.ofNat (16 * v)).toNat = 16 * v := by
      rw [UInt32.toNat_ofNat', Nat.mod_eq_of_lt (by omega)]
    rw [nibble_of_low]
    · apply UInt32.toNat_inj.mp
      rw [toNat_shiftRight_four, hnat, UInt32.toNat_ofNat', Nat.mod_eq_of_lt (by omega)]
      omega
    · apply UInt32.toNat_inj.mp
      rw [UInt32.toNat_and, hnat]
      change 16 * v &&& 2 ^ 4 - 1 = 0
      rw [Nat.and_two_pow_sub_one_eq_mod]
      omega
  have hsplit : 256 * v = 16 * (16 * v) := by omega
  rw [shift_register, hsplit, hlow (by omega), hlow (by omega)]

/-- Up to four bytes enter an empty register as the number they are. -/
theorem remainder_eq_leVal {data : Bytes} (h : data.length ≤ 4) :
    remainder shift inject 0 data = shift^[data.length] (register (UInt32.ofNat (leVal data))) := by
  induction data with
  | nil => rfl
  | cons byte data ih =>
    rw [List.length_cons] at h
    have hbyte := byte.toNat_lt
    have hle : leVal data < 2 ^ 24 := by
      have hpow : 256 ^ data.length ≤ 256 ^ 3 := Nat.pow_le_pow_right (by decide) (by omega)
      exact (leVal_lt data).trans_le hpow
    have hsum : register byte.toUInt32 + register (UInt32.ofNat (256 * leVal data)) =
        register (UInt32.ofNat (leVal (byte :: data))) := by
      refine congrArg register (UInt32.toNat_inj.mp ?_)
      change (byte.toUInt32 ^^^ UInt32.ofNat (256 * leVal data)).toNat = _
      rw [UInt32.toNat_xor, UInt8.toNat_toUInt32, UInt32.toNat_ofNat', UInt32.toNat_ofNat', leVal,
        Nat.mod_eq_of_lt (by omega), Nat.mod_eq_of_lt (by omega), Nat.xor_comm, Nat.mul_comm,
        ← Nat.shiftLeft_eq _ 8, shiftLeft_xor_eq_or hbyte, ← Nat.shiftLeft_add_eq_or_of_lt hbyte,
        Nat.shiftLeft_eq, Nat.add_comm]
    have hstep : remainder shift inject 0 (byte :: data) =
        remainder shift inject (inject byte) data := by
      rw [← zero_add (inject byte), ← map_zero shift]
      rfl
    rw [hstep, remainder_eq, ih (by omega), inject, ← Function.iterate_succ_apply, ← shift_of_low hle,
      ← Function.iterate_succ_apply, ← iterate_map_add, hsum, List.length_cons]

/-- A change within four bytes changes the checksum. -/
theorem burst {vs ws : Bytes} (hlen : vs.length = ws.length) (hle : vs.length ≤ 4) (hne : vs ≠ ws)
    (front back : Bytes) : crc32 (front ++ vs ++ back) ≠ crc32 (front ++ ws ++ back) := by
  intro h
  have hsame : update new (front ++ vs ++ back) = update new (front ++ ws ++ back) :=
    UInt32.not_inj.mp h
  have hregister := congrArg register hsame
  rw [register_update, register_update, remainder_burst_iff shift_injective hlen,
    remainder_eq_leVal hle, remainder_eq_leVal (hlen ▸ hle), hlen,
    (shift_injective.iterate ws.length).eq_iff, register_injective.eq_iff, ← UInt32.toNat_inj,
    UInt32.toNat_ofNat', UInt32.toNat_ofNat'] at hregister
  have hlt {bs : Bytes} (hbs : bs.length ≤ 4) : leVal bs < 2 ^ 32 := by
    have hpow : 256 ^ bs.length ≤ 256 ^ 4 := Nat.pow_le_pow_right (by decide) hbs
    exact (leVal_lt bs).trans_le hpow
  rw [Nat.mod_eq_of_lt (hlt hle), Nat.mod_eq_of_lt (hlt (hlen ▸ hle))] at hregister
  apply hne
  rw [← le_leVal vs, ← le_leVal ws, hregister, hlen]

end Crc32

end Outscript.Bcur
