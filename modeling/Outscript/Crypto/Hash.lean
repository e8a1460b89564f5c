import Mathlib.Data.Set.Function
import Outscript.Library.ByteString

/-!
# Hash functions

The hash functions of the cryptography package are parameters; the hashes
built from them here follow the crate.
-/
namespace Outscript

open ByteString

/-- The hash functions that the cryptography package provides. -/
structure Hashes where
  sha256 : Bytes → ByteVec 32
  ripemd160 : Bytes → ByteVec 20

namespace Hashes

variable (H : Hashes)

def dsha256 (data : Bytes) : ByteVec 32 := H.sha256 (H.sha256 data).toList

def hash160 (data : Bytes) : ByteVec 20 := H.ripemd160 (H.sha256 data).toList

/-- The tag as ASCII bytes. -/
def tagBytes (tag : String) : Bytes := tag.toList.map (fun c => UInt8.ofNat c.toNat)

def taggedHash (tag : String) (parts : List Bytes) : ByteVec 32 :=
  let th := (H.sha256 (tagBytes tag)).toList
  H.sha256 (th ++ (th ++ parts.flatten))

/-- No two of the strings have one hash. -/
def CollisionFree (strings : Set Bytes) : Prop := Set.InjOn H.sha256 strings

end Hashes

end Outscript
