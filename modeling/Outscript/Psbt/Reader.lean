import Outscript.Btc.VarInt
import Outscript.Error
import Outscript.Library.Cursor

/-!
# Reading length-delimited fields

Every integer is read in its shortest form only, so that each reader decodes
exactly the encodings of its values.
-/
namespace Outscript.Psbt

open ByteString Cursor

abbrev Reader := Read UInt8 Error

namespace Reader

def take (n : Nat) : Reader Bytes := Cursor.take .unexpectedEof n

def u8 : Reader UInt8 := item .unexpectedEof

def u32 : Reader Nat := do
  let s ← take 4
  return leVal s

def u64 : Reader Nat := do
  let s ← take 8
  return leVal s

def varint : Reader Nat := fun c =>
  match BtcVarInt.decode c.rest with
  | none => .error .unexpectedEof
  | some (v, n) =>
    if BtcVarInt.len v ≠ n then .error .nonCanonical
    else .ok (v, ⟨c.rest.drop n, c.pos + n⟩)

/-- A length-prefixed byte string. -/
def varBytes : Reader Bytes := do
  let n ← varint
  take n

end Reader

def putVarint (v : Nat) : Bytes := BtcVarInt.toArray v

/-- A byte string behind its length. -/
def varBytesOf (s : Bytes) : Bytes := putVarint s.length ++ s

theorem putVarint_zero : putVarint 0 = [0] := rfl

theorem varBytesOf_nil : varBytesOf [] = [0] := rfl

theorem varBytesOf_ne_nil (s : Bytes) : varBytesOf s ≠ [] := by
  intro h
  exact BtcVarInt.toArray_ne_nil _ (List.append_eq_nil_iff.mp h).1

theorem decodes_readTake (n : Nat) : Decodes (Reader.take n) (fun s => s.length = n) id :=
  decodes_take _ n

theorem decodes_u8 : Decodes Reader.u8 (fun _ => True) (fun b => [b]) := decodes_item _

theorem decodes_readLe (n : Nat) :
    Decodes (Reader.take n >>= fun s => pure (leVal s)) (fun v => v < 256 ^ n) (le n) := by
  apply Decodes.intro
  · intro v r pos hv
    refine ((decodes_readTake n).run_bind (length_le n v) r pos).trans ?_
    rw [leVal_le_of_lt hv]
    rfl
  · intro c v c' h
    obtain ⟨s, r, hs, hrest, h⟩ := (decodes_readTake n).of_run_bind h
    cases h
    have hlt := leVal_lt s
    have hle := le_leVal s
    rw [hs] at hlt hle
    exact ⟨hlt, r, by rw [hrest, hle]; rfl⟩

theorem decodes_u32 : Decodes Reader.u32 (fun v => v < 256 ^ 4) (le 4) := decodes_readLe 4

theorem decodes_u64 : Decodes Reader.u64 (fun v => v < 256 ^ 8) (le 8) := decodes_readLe 8

theorem decodes_varint : Decodes Reader.varint (fun v => v < 2 ^ 64) putVarint := by
  apply Decodes.intro
  · intro v r pos hv
    simp only [Reader.varint, StateT.run, putVarint, BtcVarInt.decode_toArray hv, ne_eq,
      not_true_eq_false, if_false, ← BtcVarInt.length_toArray, List.drop_left]
  · rintro ⟨rest, pos⟩ v c' h
    simp only [Reader.varint, StateT.run] at h
    cases hd : BtcVarInt.decode rest with
    | none => rw [hd] at h; cases h
    | some p =>
      obtain ⟨w, n⟩ := p
      rw [hd] at h
      dsimp only at h
      split_ifs at h with hn
      cases h
      exact BtcVarInt.eq_toArray_of_decode hd (not_not.mp hn)

theorem decodes_varBytes : Decodes Reader.varBytes (fun s => s.length < 2 ^ 64) varBytesOf := by
  apply Decodes.intro
  · intro s r pos hs
    rw [Reader.varBytes, varBytesOf, List.append_assoc, decodes_varint.run_bind hs]
    refine ((decodes_readTake s.length).run_append rfl r _).trans ?_
    simp [Nat.add_assoc]
  · intro c s c' h
    obtain ⟨n, r, hn, hrest, h⟩ := decodes_varint.of_run_bind h
    obtain ⟨rfl, hrest', -⟩ := (decodes_readTake n _ _ _).mp h
    dsimp only [id] at hrest'
    exact ⟨hn, c'.rest, by rw [hrest, hrest', varBytesOf, List.append_assoc]⟩

end Outscript.Psbt
