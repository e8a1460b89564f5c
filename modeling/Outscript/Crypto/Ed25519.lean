import Outscript.Library.ByteString
import Outscript.Library.LinearSignature
import Mathlib.Data.ZMod.Basic

/-!
# Ed25519

The scalar and point operations of the cryptography package, first as bare
operations, then as what they are documented to compute: the integers modulo
the order of the base point, and a group with a compressed form of its points.
-/
namespace Outscript

open ByteString

/-- The operations that extended keys need. -/
structure Edwards25519 where
  Scalar : Type
  EdwardsPoint : Type
  fromBytesModOrder : ByteVec 64 → Scalar
  toBytes : Scalar → ByteVec 32
  scalarMul : Scalar → Scalar → Scalar
  scalarAdd : Scalar → Scalar → Scalar
  mulBase : Scalar → EdwardsPoint
  pointAdd : EdwardsPoint → EdwardsPoint → EdwardsPoint
  compress : EdwardsPoint → ByteVec 32
  decompress : ByteVec 32 → Option EdwardsPoint
  sha512 : Bytes → ByteVec 64
  hmacSha512 : Bytes → Bytes → ByteVec 64
  /-- Password, salt and iterations. -/
  pbkdf2Sha512 : Bytes → Bytes → ℕ → ByteVec 96

namespace Ed25519

/-- A 32-byte value with zeros behind it. -/
def extend64 (bytes : ByteVec 32) : ByteVec 64 :=
  ⟨bytes.toList ++ List.replicate 32 0, by simp⟩

section Model

variable (E : Edwards25519)

def scalarFromLe (bytes : ByteVec 32) : E.Scalar := E.fromBytesModOrder (extend64 bytes)

def scalarReduceWide (wide : ByteVec 64) : ByteVec 32 := E.toBytes (E.fromBytesModOrder wide)

def scalarMulBase (scalar : ByteVec 32) : ByteVec 32 :=
  E.compress (E.mulBase (scalarFromLe E scalar))

def scalarMulAdd (a b c : ByteVec 32) : ByteVec 32 :=
  E.toBytes (E.scalarAdd (E.scalarMul (scalarFromLe E a) (scalarFromLe E b)) (scalarFromLe E c))

def pointAddBase (pubkey scalar : ByteVec 32) : Option (ByteVec 32) := do
  let a ← E.decompress pubkey
  let tweak := E.mulBase (scalarFromLe E scalar)
  some (E.compress (E.pointAdd a tweak))

end Model

/-! ## The group -/

/-- The order of the base point. -/
def order : ℕ := 2 ^ 252 + 27742317777372353535851937790883648493

instance : NeZero order := ⟨by decide⟩

/-- A group with a base point of the order, whose points have a compressed form. -/
structure Group where
  Point : Type
  [group : AddCommGroup Point]
  base : Point
  order_nsmul : order • base = 0
  compress : Point → ByteVec 32
  decompress : ByteVec 32 → Option Point
  decompress_compress : ∀ p, decompress (compress p) = some p

namespace Group

variable (G : Group)

instance : AddCommGroup G.Point := G.group

/-- What the package computes with the points of a group. -/
def edwards (sha512 : Bytes → ByteVec 64) (hmacSha512 : Bytes → Bytes → ByteVec 64)
    (pbkdf2Sha512 : Bytes → Bytes → ℕ → ByteVec 96) : Edwards25519 where
  Scalar := ZMod order
  EdwardsPoint := G.Point
  fromBytesModOrder wide := (leVal wide.toList : ZMod order)
  toBytes s := ⟨le 32 s.val, by simp⟩
  scalarMul s t := s * t
  scalarAdd s t := s + t
  mulBase s := s.val • G.base
  pointAdd p q := p + q
  compress := G.compress
  decompress := G.decompress
  sha512 := sha512
  hmacSha512 := hmacSha512
  pbkdf2Sha512 := pbkdf2Sha512

variable {G} {sha512 : Bytes → ByteVec 64} {hmac : Bytes → Bytes → ByteVec 64}
  {pbkdf2 : Bytes → Bytes → ℕ → ByteVec 96}

theorem leVal_extend64 (bytes : ByteVec 32) :
    leVal (extend64 bytes).toList = leVal bytes.toList := by
  change leVal (bytes.toList ++ List.replicate 32 0) = _
  rw [leVal_append, leVal_replicate, Nat.mul_zero, Nat.add_zero]

/-- A scalar is written in full. -/
theorem leVal_le_mod (n : ℕ) : leVal (le 32 (n % order)) = n % order :=
  leVal_le_of_lt ((Nat.mod_lt n (Nat.pos_of_neZero order)).trans (by decide))

/-- The multiple of the base point, by any scalar. -/
theorem scalarMulBase_eq (scalar : ByteVec 32) :
    scalarMulBase (G.edwards sha512 hmac pbkdf2) scalar =
      G.compress (leVal scalar.toList • G.base) := by
  change G.compress ((leVal (extend64 scalar).toList : ZMod order).val • G.base) = _
  rw [ZMod.val_natCast, LinearSignature.mod_nsmul G.order_nsmul, leVal_extend64]

theorem pointAddBase_eq (n : ℕ) (scalar : ByteVec 32) :
    pointAddBase (G.edwards sha512 hmac pbkdf2) (G.compress (n • G.base)) scalar =
      some (G.compress ((n + leVal scalar.toList) • G.base)) := by
  change (G.decompress (G.compress (n • G.base)) >>= fun a => some (G.compress
    (a + (leVal (extend64 scalar).toList : ZMod order).val • G.base))) = _
  rw [G.decompress_compress, ZMod.val_natCast, LinearSignature.mod_nsmul G.order_nsmul,
    leVal_extend64, add_smul]
  rfl

theorem leVal_scalarReduceWide (wide : ByteVec 64) :
    leVal (scalarReduceWide (G.edwards sha512 hmac pbkdf2) wide).toList =
      leVal wide.toList % order := by
  change leVal (le 32 (leVal wide.toList : ZMod order).val) = _
  rw [ZMod.val_natCast, leVal_le_mod]

theorem leVal_scalarMulAdd (a b c : ByteVec 32) :
    leVal (scalarMulAdd (G.edwards sha512 hmac pbkdf2) a b c).toList =
      (leVal a.toList * leVal b.toList + leVal c.toList) % order := by
  change leVal (le 32 ((leVal (extend64 a).toList : ZMod order) *
    (leVal (extend64 b).toList : ZMod order) + (leVal (extend64 c).toList : ZMod order)).val) = _
  rw [← Nat.cast_mul, ← Nat.cast_add, ZMod.val_natCast, leVal_le_mod, leVal_extend64,
    leVal_extend64, leVal_extend64]

/-! ## Groups from permutations -/

/-- The integers modulo the order, with compressed forms that are renamed integers. -/
def ofPerm (perm : Equiv.Perm ℕ) (h : ∀ k < order, perm k < 256 ^ 32) : Group where
  Point := ZMod order
  base := 1
  order_nsmul := by rw [nsmul_eq_mul, ZMod.natCast_self, zero_mul]
  compress k := ⟨le 32 (perm k.val), by simp⟩
  decompress bytes := some (perm.symm (leVal bytes.toList) : ZMod order)
  decompress_compress k := by
    change some ((perm.symm (leVal (le 32 (perm k.val))) : ℕ) : ZMod order) = some k
    rw [leVal_le_of_lt (h k.val (ZMod.val_lt k)), Equiv.symm_apply_apply, ZMod.natCast_zmod_val]

theorem scalarMulBase_ofPerm {perm : Equiv.Perm ℕ} {h : ∀ k < order, perm k < 256 ^ 32}
    (scalar : ByteVec 32) :
    scalarMulBase ((ofPerm perm h).edwards sha512 hmac pbkdf2) scalar =
      ⟨le 32 (perm (leVal scalar.toList % order)), by simp⟩ := by
  rw [scalarMulBase_eq]
  apply Subtype.ext
  change le 32 (perm (leVal scalar.toList • (1 : ZMod order)).val) = _
  rw [nsmul_eq_mul, mul_one, ZMod.val_natCast]

end Group

end Ed25519

end Outscript
