import Outscript.Error
import Outscript.Library.ByteString
import Outscript.Library.Fallible

/-!
# DER signatures

An ECDSA signature as two DER integers. A parsed encoding need not be
canonical; encoding and parsing give the same two numbers.
-/
namespace Outscript.Secp256k1

open ByteString Fallible

/-- A big-endian number in 32 bytes, without the zeros before it. -/
def normalize32 (e : Error) (b : Bytes) : Except Error (ByteVec 32) :=
  let trimmed := b.dropWhile (· = 0x00)
  if h : trimmed.length ≤ 32 then
    .ok ⟨List.replicate (32 - trimmed.length) 0x00 ++ trimmed, by
      rw [List.length_append, List.length_replicate]
      exact Nat.sub_add_cancel h⟩
  else .error e

/-- What stands behind the first integer. -/
def derSecond (rLen : Nat) (rest : Bytes) : Option (UInt8 × Bytes) :=
  match rest.drop rLen with
  | 0x02 :: sLen :: tail => some (sLen, tail)
  | _ => none

/-- Parses a DER-encoded ECDSA signature into 32-byte big-endian `(r, s)`. -/
def parseDerSignature (sig : Bytes) : Except Error (ByteVec 32 × ByteVec 32) :=
  if sig.length < 8 ∨ 72 < sig.length then .error .malformed
  else
    match sig with
    | 0x30 :: total :: 0x02 :: rLen :: rest =>
      if total.toNat ≠ sig.length - 2 then .error .malformed
      else
        match derSecond rLen.toNat rest with
        | none => .error .malformed
        | some (sLen, tail) =>
          if tail.length ≠ sLen.toNat then .error .malformed
          else do
            let r ← normalize32 .malformed (rest.take rLen.toNat)
            let s ← normalize32 .malformed tail
            .ok (r, s)
    | _ => .error .malformed

/-- A DER-encoded ECDSA signature (at most 72 bytes). -/
structure DerSignature where
  bytes : Bytes
  r : ByteVec 32
  s : ByteVec 32
  parses : parseDerSignature bytes = .ok (r, s)

/-- Strips zeros that the sign of an integer does not need. -/
def stripSign : Bytes → Bytes
  | 0x00 :: b :: rest => if b &&& 0x80 = 0 then stripSign (b :: rest) else 0x00 :: b :: rest
  | bs => bs

def canonInt (value : ByteVec 32) : Bytes := stripSign (0x00 :: value.toList)

def derBytes (r s : Bytes) : Bytes :=
  0x30 :: UInt8.ofNat (6 + r.length + s.length - 2) :: 0x02 :: UInt8.ofNat r.length ::
    (r ++ (0x02 :: UInt8.ofNat s.length :: s))

theorem DerSignature.length_bytes (sig : DerSignature) :
    8 ≤ sig.bytes.length ∧ sig.bytes.length ≤ 72 := by
  have h := sig.parses
  by_cases hlen : sig.bytes.length < 8 ∨ 72 < sig.bytes.length
  · rw [parseDerSignature.eq_def, if_pos hlen] at h
    cases h
  · omega

/-! ## Encoding -/

theorem dropWhile_stripSign (bs : Bytes) :
    (stripSign bs).dropWhile (· = 0x00) = bs.dropWhile (· = 0x00) := by
  fun_induction stripSign bs with
  | case1 b rest hb ih => rw [ih, List.dropWhile_cons_of_pos (a := 0x00) (by simp)]
  | case2 => rfl
  | case3 => rfl

theorem length_stripSign {bs : Bytes} (h : bs ≠ []) :
    1 ≤ (stripSign bs).length ∧ (stripSign bs).length ≤ bs.length := by
  fun_induction stripSign bs with
  | case1 b rest hb ih =>
    have hrest := ih (List.cons_ne_nil _ _)
    exact ⟨hrest.1, hrest.2.trans (Nat.le_succ _)⟩
  | case2 => exact ⟨Nat.succ_le_succ (Nat.zero_le _), le_rfl⟩
  | case3 bs _ => exact ⟨List.length_pos_of_ne_nil h, le_rfl⟩

theorem length_canonInt (v : ByteVec 32) :
    1 ≤ (canonInt v).length ∧ (canonInt v).length ≤ 33 := by
  have hlen : (0x00 :: v.toList).length = 33 := congrArg Nat.succ v.toList_length
  have h := length_stripSign (List.cons_ne_nil 0x00 v.toList)
  rwa [hlen] at h

theorem normalize32_canonInt (e : Error) (v : ByteVec 32) : normalize32 e (canonInt v) = .ok v := by
  have hdrop : (canonInt v).dropWhile (· = 0x00) = v.toList.dropWhile (· = 0x00) := by
    rw [canonInt, dropWhile_stripSign, List.dropWhile_cons_of_pos (by simp)]
  have hzeros : v.toList.takeWhile (· = 0x00) =
      List.replicate (v.toList.takeWhile (· = 0x00)).length 0x00 :=
    List.eq_replicate_of_mem fun b hb =>
      of_decide_eq_true (List.all_eq_true.mp List.all_takeWhile b hb)
  have hsplit := List.takeWhile_append_dropWhile (p := fun b : UInt8 => decide (b = 0x00))
    (l := v.toList)
  have hlen := congrArg List.length hsplit
  rw [List.length_append, v.toList_length] at hlen
  rw [normalize32]
  simp only [hdrop]
  rw [dif_pos (by omega)]
  refine congrArg Except.ok (Subtype.ext ?_)
  change List.replicate (32 - _) 0x00 ++ _ = v.toList
  have hpad : 32 - (v.toList.dropWhile (· = 0x00)).length =
      (v.toList.takeWhile (· = 0x00)).length := by omega
  rw [hpad, ← hzeros]
  exact hsplit

theorem derSecond_append (r s : Bytes) (sLen : UInt8) :
    derSecond r.length (r ++ (0x02 :: sLen :: s)) = some (sLen, s) := by
  rw [derSecond, List.drop_left]
  rfl

/-- Parsing gives back what was encoded. -/
theorem parse_derBytes (r s : ByteVec 32) :
    parseDerSignature (derBytes (canonInt r) (canonInt s)) = .ok (r, s) := by
  have hr := length_canonInt r
  have hs := length_canonInt s
  have hlen : (derBytes (canonInt r) (canonInt s)).length =
      6 + (canonInt r).length + (canonInt s).length := by
    simp only [derBytes, List.length_cons, List.length_append]
    omega
  have hbyte {n : Nat} (hn : n < 256) : (UInt8.ofNat n).toNat = n := UInt8.toNat_ofNat_of_lt' hn
  rw [derBytes] at hlen ⊢
  rw [parseDerSignature, hlen, if_neg (by omega)]
  rw [hbyte (by omega), if_neg (by omega), hbyte (by omega), derSecond_append]
  dsimp only
  rw [hbyte (by omega), if_neg (by omega), List.take_left, normalize32_canonInt,
    normalize32_canonInt]
  rfl

def derEncode (r s : ByteVec 32) : DerSignature :=
  ⟨derBytes (canonInt r) (canonInt s), r, s, parse_derBytes r s⟩

end Outscript.Secp256k1
