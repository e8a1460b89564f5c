import Mathlib.Tactic
import Outscript.Library.ByteString

/-!
# Reflected cyclic redundancy checks

A register takes a message bit by bit, each byte from its low bit on, and the
polynomial is taken off where the bit that leaves the register differs from the
one that comes in. Turning the register is linear, so that a table over its low
bits does several turns at once.
-/
namespace ReflectedCrc

open ByteString

variable {w : ℕ} (poly : BitVec w)

def bitStep (c : BitVec w) (bit : Bool) : BitVec w :=
  if c.getLsbD 0 ^^ bit then c >>> 1 ^^^ poly else c >>> 1

/-- So many bits of a number, the lowest first. -/
def lowBits : ℕ → ℕ → List Bool
  | 0, _ => []
  | k + 1, v => v.testBit 0 :: lowBits k (v / 2)

def bits (data : Bytes) : List Bool := data.flatMap fun byte => lowBits 8 byte.toNat

theorem bits_cons (byte : UInt8) (data : Bytes) :
    bits (byte :: data) = lowBits 8 byte.toNat ++ bits data := List.flatMap_cons

def check (start inverted : BitVec w) (data : Bytes) : BitVec w :=
  (bits data).foldl (bitStep poly) start ^^^ inverted

/-- A step without a bit of the message. -/
def turn (c : BitVec w) : BitVec w := bitStep poly c false

variable {poly} {k v : ℕ} {c : BitVec w}

theorem turn_xor (a b : BitVec w) : turn poly (a ^^^ b) = turn poly a ^^^ turn poly b := by
  simp only [turn, bitStep, BitVec.getLsbD_xor, BitVec.ushiftRight_xor_distrib, Bool.xor_false]
  cases a.getLsbD 0 <;> cases b.getLsbD 0
  · rfl
  · exact BitVec.xor_assoc _ _ _
  · simp only [Bool.xor_false, if_true, Bool.false_eq_true, if_false]
    ac_rfl
  · -- the polynomial is taken off twice
    have hcancel : a >>> 1 ^^^ b >>> 1 ^^^ (poly ^^^ poly) = a >>> 1 ^^^ b >>> 1 := by
      rw [BitVec.xor_self, BitVec.xor_zero]
    simp only [Bool.xor_self, if_true, Bool.false_eq_true, if_false]
    rw [← hcancel]
    ac_rfl

theorem iterate_turn_xor (k : ℕ) (a b : BitVec w) :
    (turn poly)^[k] (a ^^^ b) = (turn poly)^[k] a ^^^ (turn poly)^[k] b := by
  induction k generalizing a b with
  | zero => rfl
  | succ k ih =>
    rw [Function.iterate_succ_apply, turn_xor, ih, ← Function.iterate_succ_apply,
      ← Function.iterate_succ_apply]

/-- Clear bits only move out. -/
theorem iterate_turn_of_low (hlow : ∀ i < k, c.getLsbD i = false) :
    (turn poly)^[k] c = c >>> k := by
  induction k with
  | zero => rfl
  | succ k ih =>
    have hbit : (c >>> k).getLsbD 0 = false := by
      rw [BitVec.getLsbD_ushiftRight]
      exact hlow k k.lt_succ_self
    rw [Function.iterate_succ_apply', ih fun i hi => hlow i (hi.trans k.lt_succ_self), turn, bitStep,
      hbit, BitVec.shiftRight_add]
    rfl

/-- Several turns at once, by what they make of the low bits. -/
theorem iterate_turn_eq (c : BitVec w) (k : ℕ) :
    (turn poly)^[k] c = (turn poly)^[k] (BitVec.ofNat w (c.toNat % 2 ^ k)) ^^^ c >>> k := by
  let low := BitVec.ofNat w (c.toNat % 2 ^ k)
  have hbit (i : ℕ) : low.getLsbD i = (decide (i < k) && c.getLsbD i) := by
    have hlt : c.toNat % 2 ^ k < 2 ^ w := (Nat.mod_le _ _).trans_lt c.isLt
    rw [← BitVec.testBit_toNat, BitVec.toNat_ofNat, Nat.mod_eq_of_lt hlt, Nat.testBit_mod_two_pow,
      BitVec.testBit_toNat]
  have hlow : ∀ i < k, (low ^^^ c).getLsbD i = false := by
    intro i hi
    rw [BitVec.getLsbD_xor, hbit, decide_eq_true hi, Bool.true_and, Bool.xor_self]
  have hgone : low >>> k = 0#w := by
    refine BitVec.eq_of_getLsbD_eq fun i _ => ?_
    rw [BitVec.getLsbD_ushiftRight, hbit, decide_eq_false (by omega), Bool.false_and]
    exact BitVec.getLsbD_zero.symm
  have hsplit : c = low ^^^ (low ^^^ c) := by
    rw [← BitVec.xor_assoc, BitVec.xor_self, BitVec.zero_xor]
  calc (turn poly)^[k] c = (turn poly)^[k] (low ^^^ (low ^^^ c)) := by rw [← hsplit]
    _ = (turn poly)^[k] low ^^^ (low ^^^ c) >>> k := by
      rw [iterate_turn_xor, iterate_turn_of_low hlow]
    _ = (turn poly)^[k] low ^^^ c >>> k := by
      rw [BitVec.ushiftRight_xor_distrib, hgone, BitVec.zero_xor]

/-- The low bit of a number decides, and its other bits stay for the steps that follow. -/
theorem turn_xor_ofNat (hv : v < 2 ^ w) :
    turn poly (c ^^^ BitVec.ofNat w v) =
      bitStep poly c (v.testBit 0) ^^^ BitVec.ofNat w (v / 2) := by
  have hbit : (BitVec.ofNat w v).getLsbD 0 = v.testBit 0 := by
    rw [← BitVec.testBit_toNat, BitVec.toNat_ofNat, Nat.mod_eq_of_lt hv]
  have hhalf : BitVec.ofNat w v >>> 1 = BitVec.ofNat w (v / 2) := by
    apply BitVec.eq_of_toNat_eq
    rw [BitVec.toNat_ushiftRight, BitVec.toNat_ofNat, BitVec.toNat_ofNat, Nat.mod_eq_of_lt hv,
      Nat.shiftRight_one, Nat.mod_eq_of_lt ((Nat.div_le_self v 2).trans_lt hv)]
  rw [turn, bitStep, bitStep, BitVec.getLsbD_xor, hbit, BitVec.ushiftRight_xor_distrib, hhalf,
    Bool.xor_false]
  split_ifs
  · ac_rfl
  · rfl

/-- Bits that come in one by one can be put into the register beforehand. -/
theorem foldl_lowBits (hk : k ≤ w) (hv : v < 2 ^ k) :
    (lowBits k v).foldl (bitStep poly) c = (turn poly)^[k] (c ^^^ BitVec.ofNat w v) := by
  induction k generalizing c v with
  | zero =>
    obtain rfl : v = 0 := by omega
    exact BitVec.xor_zero.symm
  | succ k ih =>
    have hhalf : v / 2 < 2 ^ k := by
      rw [Nat.div_lt_iff_lt_mul (by decide), ← Nat.pow_succ]
      exact hv
    rw [lowBits, List.foldl_cons, ih (by omega) hhalf, Function.iterate_succ_apply,
      turn_xor_ofNat (hv.trans_le (Nat.pow_le_pow_right (by decide) hk))]

end ReflectedCrc
