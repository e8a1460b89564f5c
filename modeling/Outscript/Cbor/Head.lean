import Outscript.Error
import Outscript.Library.Cursor

/-!
# CBOR heads

An item starts with its major type and an argument, in the shortest of five
widths. A head of any width is read back.
-/
namespace Outscript.Cbor

open ByteString Cursor

def writeHead (major : UInt8) (value : Nat) : Bytes :=
  let mt := major <<< 5
  if value < 24 then [mt ||| UInt8.ofNat value]
  else if value ≤ 0xff then [mt ||| 24, UInt8.ofNat value]
  else if value ≤ 0xffff then (mt ||| 25) :: be 2 value
  else if value ≤ 0xffffffff then (mt ||| 26) :: be 4 value
  else (mt ||| 27) :: be 8 value

def readUint (n : Nat) : Read UInt8 Error Nat := do
  let bytes ← take .unexpectedEof n
  pure (beVal bytes)

/-- The major type, the argument and whether the length is indefinite. -/
def readHead : Read UInt8 Error (UInt8 × Nat × Bool) := do
  let ib ← item .unexpectedEof
  let major := ib >>> 5
  let info := ib &&& 0x1f
  if info ≤ 23 then pure (major, info.toNat, false)
  else if info = 24 then do let arg ← readUint 1; pure (major, arg, false)
  else if info = 25 then do let arg ← readUint 2; pure (major, arg, false)
  else if info = 26 then do let arg ← readUint 4; pure (major, arg, false)
  else if info = 27 then do let arg ← readUint 8; pure (major, arg, false)
  else if info = 31 then pure (major, 0, true)
  else lift (.error (.reservedAdditionalInfo info))

/-- The two fields of an initial byte. -/
theorem initialByte_fields {major info : Nat} (hm : major < 8) (hi : info < 32) :
    let ib := (UInt8.ofNat major <<< 5) ||| UInt8.ofNat info
    ib >>> 5 = UInt8.ofNat major ∧ ib &&& 0x1f = UInt8.ofNat info := by
  have hall : ∀ m < 8, ∀ i < 32,
      ((UInt8.ofNat m <<< 5) ||| UInt8.ofNat i) >>> 5 = UInt8.ofNat m ∧
      ((UInt8.ofNat m <<< 5) ||| UInt8.ofNat i) &&& 0x1f = UInt8.ofNat i := by decide
  exact hall major hm info hi

theorem run_readUint {n v : Nat} (h : v < 256 ^ n) (rest : Bytes) (pos : Nat) :
    (readUint n).run ⟨be n v ++ rest, pos⟩ = .ok (v, ⟨rest, pos + n⟩) := by
  have htake : (take Error.unexpectedEof n).run ⟨be n v ++ rest, pos⟩ =
      .ok (be n v, ⟨rest, pos + n⟩) := by
    change take Error.unexpectedEof n ⟨be n v ++ rest, pos⟩ = _
    rw [take, if_pos (by simp)]
    simp [List.take_left', List.drop_left']
  rw [readUint, run_bind_ok]
  refine ⟨_, _, htake, ?_⟩
  rw [beVal_be_of_lt h]
  rfl

theorem run_item (b : UInt8) (rest : Bytes) (pos : Nat) :
    (item Error.unexpectedEof).run ⟨b :: rest, pos⟩ = .ok (b, ⟨rest, pos + 1⟩) := rfl

/-- A head is read back, whatever follows it. -/
theorem readHead_writeHead {major value : Nat} (hm : major < 8) (hv : value < 2 ^ 64)
    (rest : Bytes) (pos : Nat) :
    readHead.run ⟨writeHead (UInt8.ofNat major) value ++ rest, pos⟩ =
      .ok ((UInt8.ofNat major, value, false),
        ⟨rest, pos + (writeHead (UInt8.ofNat major) value).length⟩) := by
  have hwide : ∀ (info width : Nat), 24 ≤ info → info ≤ 27 → width = 2 ^ (info - 24) →
      value < 256 ^ width →
      readHead.run ⟨((UInt8.ofNat major <<< 5) ||| UInt8.ofNat info) :: be width value ++ rest, pos⟩ =
        .ok ((UInt8.ofNat major, value, false), ⟨rest, pos + (1 + width)⟩) := by
    intro info width hlow hhigh hwidth hlt
    obtain ⟨hmajor, hinfo⟩ := initialByte_fields hm (show info < 32 by omega)
    rw [readHead, run_bind_ok]
    refine ⟨_, _, run_item _ _ _, ?_⟩
    have hread := run_readUint hlt rest (pos + 1)
    rw [hmajor, hinfo]
    have hcases : info = 24 ∨ info = 25 ∨ info = 26 ∨ info = 27 := by omega
    rcases hcases with rfl | rfl | rfl | rfl <;>
    · subst hwidth
      refine run_bind_ok.mpr ⟨_, _, hread, ?_⟩
      rw [Nat.add_assoc]
      rfl
  rw [writeHead]
  split_ifs with h24 h8 h16 h32
  · obtain ⟨hmajor, hinfo⟩ := initialByte_fields hm (show value < 32 by omega)
    rw [readHead, run_bind_ok]
    refine ⟨_, _, run_item _ _ _, ?_⟩
    have hle : UInt8.ofNat value ≤ 23 := by
      rw [UInt8.le_iff_toNat_le, UInt8.toNat_ofNat']
      have : (23 : UInt8).toNat = 23 := rfl
      omega
    have hval : (UInt8.ofNat value).toNat = value := by
      rw [UInt8.toNat_ofNat']
      omega
    rw [hmajor, hinfo, if_pos hle, hval]
    rfl
  · have h := hwide 24 1 (by omega) (by omega) rfl (by omega)
    have hbyte : be 1 value = [UInt8.ofNat value] := rfl
    rwa [hbyte] at h
  · have h := hwide 25 2 (by omega) (by omega) rfl (by omega)
    rw [List.length_cons, length_be]
    exact h
  · have h := hwide 26 4 (by omega) (by omega) rfl (by omega)
    rw [List.length_cons, length_be]
    exact h
  · have h := hwide 27 8 (by omega) (by omega) rfl (by omega)
    rw [List.length_cons, length_be]
    exact h

end Outscript.Cbor
