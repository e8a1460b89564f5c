import Mathlib.Algebra.Module.ZMod
import Outscript.Crypto.Order
import Outscript.Crypto.Secp256k1

/-!
# The curve as a group

The scalar and point arithmetic of the cryptography package, first as bare
operations, then as what they are documented to compute: the integers modulo
the group order, and a group of that order whose points other than the identity
have coordinates. A point is found again from its abscissa and the parity of
its ordinate.
-/
namespace Outscript

open ByteString

/-- The scalar and point arithmetic that signatures need. -/
structure Hazmat extends Purecrypto where
  hmacSha256 : Bytes → Bytes → ByteVec 32
  isZero : Scalar → Bool
  scalarFromBytesBeReduce : ByteVec 32 → Scalar
  toBytesBe : Scalar → ByteVec 32
  scalarAdd : Scalar → Scalar → Scalar
  scalarMul : Scalar → Scalar → Scalar
  negate : Scalar → Scalar
  invert : Scalar → Scalar
  ctEq : Scalar → Scalar → Bool
  mul : ProjectivePoint → Scalar → ProjectivePoint
  isIdentity : ProjectivePoint → Bool

namespace Secp256k1

/-- A group of prime order and its coordinates. -/
structure Curve where
  Point : Type
  [group : AddCommGroup Point]
  [decEq : DecidableEq Point]
  generator : Point
  order_nsmul : ∀ p : Point, order • p = 0
  generator_ne_zero : generator ≠ 0
  x : Point → ℕ
  y : Point → ℕ
  x_lt : ∀ p, x p < fieldPrime
  y_lt : ∀ p, y p < fieldPrime
  x_neg : ∀ p, x (-p) = x p
  y_neg : ∀ p, p ≠ 0 → y (-p) + y p = fieldPrime
  fromSec1 : Bytes → Option {p : Point // p ≠ 0}
  fromSec1_compressed : ∀ (head : UInt8), head = 0x02 ∨ head = 0x03 →
    ∀ (xBytes : ByteVec 32) (p : {p : Point // p ≠ 0}),
      fromSec1 (head :: xBytes.toList) = some p ↔
        beVal xBytes.toList = x p ∧ y p % 2 = head.toNat % 2

namespace Curve

variable (K : Curve)

instance : AddCommGroup K.Point := K.group
instance : DecidableEq K.Point := K.decEq

/-- Points are multiplied by scalars. -/
instance : Module (ZMod order) K.Point := AddCommGroup.zmodModule K.order_nsmul

/-- What the package computes with the points of a group. -/
def hazmat (H : Hashes) (hmac : Bytes → Bytes → ByteVec 32) : Hazmat where
  toHashes := H
  AffinePoint := {p : K.Point // p ≠ 0}
  ProjectivePoint := K.Point
  Scalar := ZMod order
  fromSec1 := K.fromSec1
  toSec1Compressed p := (0x02 + UInt8.ofNat (K.y p % 2)) ::ᵥ beVec 32 (K.x p)
  toSec1Uncompressed p := ⟨0x04 :: (be 32 (K.x p) ++ be 32 (K.y p)), by simp⟩
  xBytes p := beVec 32 (K.x p)
  yBytes p := beVec 32 (K.y p)
  toProjective := Subtype.val
  mulGenerator s := s • K.generator
  add p q := p + q
  toAffine p := if h : p = 0 then none else some ⟨p, h⟩
  scalarFromBytesBe b := if beVal b.toList < order then some (beVal b.toList : ZMod order) else none
  hmacSha256 := hmac
  isZero s := decide (s = 0)
  scalarFromBytesBeReduce b := (beVal b.toList : ZMod order)
  toBytesBe s := beVec 32 s.val
  scalarAdd s t := s + t
  scalarMul s t := s * t
  negate s := -s
  invert s := s⁻¹
  ctEq s t := decide (s = t)
  mul p s := s • p
  isIdentity p := decide (p = 0)

variable {K}

theorem x_lt_pow (p : K.Point) : K.x p < 256 ^ 32 := (K.x_lt p).trans (by decide)

theorem val_lt_pow (s : ZMod order) : s.val < 256 ^ 32 := (ZMod.val_lt s).trans (by decide)

/-- A multiple of the generator by a scalar other than zero is a point. -/
theorem smul_generator_ne_zero {s : ZMod order} (hs : s ≠ 0) : s • K.generator ≠ 0 :=
  smul_ne_zero hs K.generator_ne_zero

/-- The last bit of an ordinate. -/
theorem yBytes_parity (p : K.Point) :
    (beVec 32 (K.y p)).get 31 &&& 1 = UInt8.ofNat (K.y p % 2) := by
  have hlast : ∀ v, (beVec 32 v).get 31 = UInt8.ofNat v := fun v => rfl
  rw [hlast, ← UInt8.toNat_inj, UInt8.toNat_and]
  simp
  omega

/-- Negation flips the parity of an ordinate. -/
theorem y_neg_parity {p : K.Point} (hp : p ≠ 0) : K.y (-p) % 2 = 1 - K.y p % 2 := by
  have h := K.y_neg p hp
  rw [fieldPrime] at h
  omega

/-! ## Curves from tables -/

section Table

/-- Abscissas are those of the least multiples, renamed. -/
structure Table where
  abscissa : Equiv.Perm ℕ
  ordinate : ℕ → ℕ
  abscissa_lt : ∀ k ≤ halfOrder, abscissa k < fieldPrime
  ordinate_pos : ∀ k, 0 < ordinate k
  ordinate_lt : ∀ k, ordinate k < fieldPrime

variable (T : Table)

/-- The least multiple of the generator that is the point or its negation. -/
def least (k : ZMod order) : ℕ := min k.val (order - k.val)

namespace Table

def x (k : ZMod order) : ℕ := T.abscissa (least k)

def y (k : ZMod order) : ℕ :=
  if k.val ≤ halfOrder then T.ordinate (least k) else fieldPrime - T.ordinate (least k)

/-- The point with an abscissa and a parity. -/
def decompress (v parity : ℕ) : Option {k : ZMod order // k ≠ 0} :=
  let k : ZMod order := (T.abscissa.symm v : ZMod order)
  if h : k ≠ 0 then
    if T.abscissa.symm v ≤ halfOrder then
      if T.y k % 2 = parity then some ⟨k, h⟩ else some ⟨-k, neg_ne_zero.mpr h⟩
    else none
  else none

end Table

theorem least_le (k : ZMod order) : least k ≤ halfOrder := by
  have horder := order_eq
  have hlt := ZMod.val_lt k
  rw [least]
  omega

theorem val_neg_of_ne_zero {k : ZMod order} (hk : k ≠ 0) : (-k).val = order - k.val := by
  rw [ZMod.neg_val, if_neg hk]

theorem least_neg (k : ZMod order) : least (-k) = least k := by
  by_cases hk : k = 0
  · rw [hk, neg_zero]
  · have hlt := ZMod.val_lt k
    rw [least, least, val_neg_of_ne_zero hk]
    omega

theorem least_natCast {v : ℕ} (h : v ≤ halfOrder) : least (v : ZMod order) = v := by
  have horder := order_eq
  rw [least, ZMod.val_natCast_of_lt (by omega)]
  omega

/-- A point is its least multiple or the negation of it. -/
theorem natCast_least (k : ZMod order) :
    (least k : ZMod order) = if k.val ≤ halfOrder then k else -k := by
  have horder := order_eq
  have hlt := ZMod.val_lt k
  split_ifs with h
  · rw [least, min_eq_left (by omega), ZMod.natCast_zmod_val]
  · rw [least, min_eq_right (by omega), Nat.cast_sub hlt.le, ZMod.natCast_self, zero_sub,
      ZMod.natCast_zmod_val]

theorem Table.x_lt (k : ZMod order) : T.x k < fieldPrime := T.abscissa_lt _ (least_le k)

theorem Table.y_lt (k : ZMod order) : T.y k < fieldPrime := by
  have hlt := T.ordinate_lt (least k)
  have hpos := T.ordinate_pos (least k)
  rw [Table.y]
  split_ifs <;> omega

theorem Table.x_neg (k : ZMod order) : T.x (-k) = T.x k := by
  rw [Table.x, Table.x, least_neg]

theorem Table.y_neg {k : ZMod order} (hk : k ≠ 0) : T.y (-k) + T.y k = fieldPrime := by
  have horder := order_eq
  have hlt := ZMod.val_lt k
  have hpos := Nat.pos_of_ne_zero ((ZMod.val_ne_zero k).mpr hk)
  have hy := T.ordinate_lt (least k)
  rw [Table.y, Table.y, least_neg, val_neg_of_ne_zero hk]
  split_ifs <;> omega

theorem Table.decompress_eq_some {v parity : ℕ} (hparity : parity ≤ 1)
    {k : {k : ZMod order // k ≠ 0}} :
    T.decompress v parity = some k ↔ v = T.x k ∧ T.y k % 2 = parity := by
  have hodd : fieldPrime % 2 = 1 := by decide
  constructor
  · intro h
    rw [Table.decompress] at h
    split_ifs at h with hne hle hy
    · cases h
      exact ⟨by rw [Table.x, least_natCast hle, Equiv.apply_symm_apply], hy⟩
    · cases h
      have hneg := T.y_neg hne
      refine ⟨by rw [Table.x, least_neg, least_natCast hle, Equiv.apply_symm_apply], ?_⟩
      dsimp only
      omega
  · rintro ⟨rfl, rfl⟩
    have hleast : T.abscissa.symm (T.x k) = least k := T.abscissa.symm_apply_apply _
    have hne : (least (k : ZMod order) : ZMod order) ≠ 0 := by
      rw [natCast_least]
      split_ifs
      · exact k.2
      · exact neg_ne_zero.mpr k.2
    unfold Table.decompress
    simp only [hleast]
    rw [dif_pos hne, if_pos (least_le _)]
    by_cases hlow : (k : ZMod order).val ≤ halfOrder
    · have hk : (least (k : ZMod order) : ZMod order) = k := by rw [natCast_least, if_pos hlow]
      rw [if_pos (by rw [hk])]
      exact congrArg some (Subtype.ext hk)
    · have hk : (least (k : ZMod order) : ZMod order) = -k := by rw [natCast_least, if_neg hlow]
      have hneg := T.y_neg k.2
      rw [if_neg (by rw [hk]; omega)]
      exact congrArg some (Subtype.ext ((congrArg Neg.neg hk).trans (neg_neg _)))

theorem Table.decompress_compressed {head : UInt8} (hhead : head = 0x02 ∨ head = 0x03)
    (xBytes : ByteVec 32) (k : {k : ZMod order // k ≠ 0}) :
    (if head = 0x02 ∨ head = 0x03 then T.decompress (beVal xBytes.toList) (head.toNat % 2)
      else none) = some k ↔
      beVal xBytes.toList = T.x k ∧ T.y k % 2 = head.toNat % 2 := by
  rw [if_pos hhead, T.decompress_eq_some (by omega)]

theorem order_nsmul_eq_zero (k : ZMod order) : order • k = 0 := by
  rw [nsmul_eq_mul, ZMod.natCast_self, zero_mul]

/-- The integers modulo the order with the coordinates of a table. -/
def ofTable : Curve where
  Point := ZMod order
  generator := 1
  order_nsmul := order_nsmul_eq_zero
  generator_ne_zero := one_ne_zero
  x := T.x
  y := T.y
  x_lt := T.x_lt
  y_lt := T.y_lt
  x_neg := T.x_neg
  y_neg _ hk := T.y_neg hk
  fromSec1 bytes :=
    match bytes with
    | [] => none
    | head :: rest => if head = 0x02 ∨ head = 0x03 then T.decompress (beVal rest) (head.toNat % 2)
      else none
  fromSec1_compressed _ hhead xBytes k := T.decompress_compressed hhead xBytes k

theorem smul_ofTable (k : ZMod order) : k • (ofTable T).generator = k := by
  have h := Nat.cast_smul_eq_nsmul (ZMod order) k.val (ofTable T).generator
  rw [ZMod.natCast_zmod_val] at h
  rw [h]
  change k.val • (1 : ZMod order) = k
  rw [nsmul_eq_mul, mul_one, ZMod.natCast_zmod_val]

end Table
end Curve

end Secp256k1

end Outscript
