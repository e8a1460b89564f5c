import Outscript.Crypto.Hash
import Outscript.Error

/-!
# The curve and the taproot tweak

The group operations of secp256k1 come from the cryptography package and are
parameters. What the crate computes with them follows its source.
-/
namespace Outscript

open ByteString

/-- Hashes and curve operations that the cryptography package provides. -/
structure Purecrypto extends Hashes where
  AffinePoint : Type
  ProjectivePoint : Type
  Scalar : Type
  fromSec1 : Bytes → Option AffinePoint
  toSec1Compressed : AffinePoint → ByteVec 33
  toSec1Uncompressed : AffinePoint → ByteVec 65
  xBytes : AffinePoint → ByteVec 32
  yBytes : AffinePoint → ByteVec 32
  toProjective : AffinePoint → ProjectivePoint
  mulGenerator : Scalar → ProjectivePoint
  add : ProjectivePoint → ProjectivePoint → ProjectivePoint
  toAffine : ProjectivePoint → Option AffinePoint
  scalarFromBytesBe : ByteVec 32 → Option Scalar

namespace Secp256k1

variable (C : Purecrypto)

/-- A public key is a point. -/
abbrev SecpPublicKey := C.AffinePoint

def publicKeyFromSec1 (bytes : Bytes) : Except Error (SecpPublicKey C) :=
  match C.fromSec1 bytes with
  | some p => .ok p
  | none => .error .malformed

/-- The tweaked x-only key, its parity and the tweak. -/
def taprootTweakFull (internalXonly : ByteVec 32) (merkleRoot : Option (ByteVec 32)) :
    Except Error (ByteVec 32 × UInt8 × ByteVec 32) :=
  match C.fromSec1 (0x02 :: internalXonly.toList) with
  | none => .error .malformed
  | some p =>
    let tBytes := match merkleRoot with
      | some root => C.taggedHash "TapTweak" [internalXonly.toList, root.toList]
      | none => C.taggedHash "TapTweak" [internalXonly.toList]
    match C.scalarFromBytesBe tBytes with
    | none => .error .invalidKey
    | some t =>
      match C.toAffine (C.add (C.toProjective p) (C.mulGenerator t)) with
      | none => .error .malformed
      | some q => .ok (C.xBytes q, (C.yBytes q).get 31 &&& 1, tBytes)

def taprootTweakWithRoot (internalXonly : ByteVec 32) (merkleRoot : Option (ByteVec 32)) :
    Except Error (ByteVec 32 × UInt8) :=
  match taprootTweakFull C internalXonly merkleRoot with
  | .ok (xonly, parity, _) => .ok (xonly, parity)
  | .error e => .error e

end Secp256k1

/-- Points are coordinate pairs, and nothing is known about any input. -/
def Purecrypto.blank : Purecrypto where
  sha256 _ := List.Vector.replicate 32 0
  ripemd160 _ := List.Vector.replicate 20 0
  AffinePoint := ByteVec 32 × ByteVec 32
  ProjectivePoint := Option (ByteVec 32 × ByteVec 32)
  Scalar := ByteVec 32
  fromSec1 _ := none
  toSec1Compressed p := List.Vector.cons (0x02 + (p.2.get 31 &&& 1)) p.1
  toSec1Uncompressed p := ⟨0x04 :: (p.1.toList ++ p.2.toList), by simp⟩
  xBytes p := p.1
  yBytes p := p.2
  toProjective := some
  mulGenerator _ := none
  add _ _ := none
  toAffine := id
  scalarFromBytesBe _ := none

end Outscript
