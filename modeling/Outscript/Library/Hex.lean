import Outscript.Library.ByteString

/-!
# Hexadecimal text

Two digits a byte. Bytes are written with lower-case digits and read with
digits of either case; text in lower case is what its bytes are written as.
-/
namespace Hex

open ByteString

def digit (n : Nat) : UInt8 := if n < 10 then UInt8.ofNat (48 + n) else UInt8.ofNat (87 + n)

def digitValue (c : UInt8) : Option Nat :=
  if 48 ≤ c ∧ c ≤ 57 then some (c.toNat - 48)
  else if 65 ≤ c ∧ c ≤ 70 then some (c.toNat - 55)
  else if 97 ≤ c ∧ c ≤ 102 then some (c.toNat - 87)
  else none

/-- A digit as bytes are written. -/
def IsDigit (c : UInt8) : Prop := 48 ≤ c ∧ c ≤ 57 ∨ 97 ≤ c ∧ c ≤ 102

instance (c : UInt8) : Decidable (IsDigit c) := inferInstanceAs (Decidable (_ ∨ _))

def encode : Bytes → Bytes
  | [] => []
  | b :: bs => digit (b.toNat / 16) :: digit (b.toNat % 16) :: encode bs

def decode : Bytes → Option Bytes
  | [] => some []
  | [_] => none
  | a :: b :: text =>
    match digitValue a, digitValue b with
    | some high, some low => (decode text).map (UInt8.ofNat (16 * high + low) :: ·)
    | _, _ => none

theorem digitValue_digit {n : Nat} (h : n < 16) : digitValue (digit n) = some n := by
  have hall : ∀ n < 16, digitValue (digit n) = some n := by decide
  exact hall n h

theorem IsDigit.value {c : UInt8} (h : IsDigit c) :
    ∃ n < 16, digitValue c = some n ∧ digit n = c :=
  forall_byte (p := fun c => IsDigit c → ∃ n < 16, digitValue c = some n ∧ digit n = c)
    (by decide +kernel) c h

@[simp] theorem length_encode (bs : Bytes) : (encode bs).length = 2 * bs.length := by
  induction bs with
  | nil => rfl
  | cons b bs ih =>
    rw [encode, List.length_cons, List.length_cons, List.length_cons, ih]
    omega

/-- What is written is read back. -/
theorem decode_encode (bs : Bytes) : decode (encode bs) = some bs := by
  induction bs with
  | nil => rfl
  | cons b bs ih =>
    have hb := b.toNat_lt
    have hsplit : 16 * (b.toNat / 16) + b.toNat % 16 = b.toNat := by omega
    rw [encode, decode, digitValue_digit (by omega), digitValue_digit (by omega), ih]
    dsimp only
    rw [Option.map_some, hsplit, UInt8.ofNat_toNat]

theorem length_of_decode {text bs : Bytes} (h : decode text = some bs) :
    text.length = 2 * bs.length := by
  induction text using decode.induct generalizing bs with
  | case1 =>
    cases h
    rfl
  | case2 => cases h
  | case3 a b text high low hhigh hlow ih =>
    rw [decode, hhigh, hlow] at h
    obtain ⟨rest, hrest, rfl⟩ := Option.map_eq_some_iff.mp h
    have hlen := ih hrest
    simp only [List.length_cons]
    omega
  | case4 a b text hnone =>
    rw [decode] at h
    split at h
    · rename_i high low hhigh hlow
      exact absurd hlow (hnone high low hhigh)
    · cases h

/-- Lower-case text of even length is written from some bytes. -/
theorem exists_encode_eq {n : Nat} {text : Bytes} (hlen : text.length = 2 * n)
    (hdigits : ∀ c ∈ text, IsDigit c) : ∃ bs : Bytes, bs.length = n ∧ encode bs = text := by
  induction n generalizing text with
  | zero => exact ⟨[], rfl, (List.length_eq_zero_iff.mp hlen).symm⟩
  | succ n ih =>
    match text, hlen, hdigits with
    | a :: b :: text, hlen, hdigits =>
      rw [List.forall_mem_cons, List.forall_mem_cons] at hdigits
      obtain ⟨ha, hb, htext⟩ := hdigits
      obtain ⟨high, hhigh, -, rfl⟩ := ha.value
      obtain ⟨low, hlow, -, rfl⟩ := hb.value
      have hrest : text.length = 2 * n := by
        simp only [List.length_cons] at hlen
        omega
      obtain ⟨bs, rfl, rfl⟩ := ih hrest htext
      have hbyte : (UInt8.ofNat (16 * high + low)).toNat = 16 * high + low := by
        rw [UInt8.toNat_ofNat']
        omega
      have hquot : (16 * high + low) / 16 = high := by omega
      have hrem : (16 * high + low) % 16 = low := by omega
      refine ⟨UInt8.ofNat (16 * high + low) :: bs, rfl, ?_⟩
      rw [encode, hbyte, hquot, hrem]

end Hex
