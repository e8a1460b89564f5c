import Outscript.Error
import Outscript.Library.Cursor

/-!
# The compact-u16 encoding

One to three bytes of seven bits each, least significant first, the high bit
set on all but the last. The decoder refuses longer forms than necessary, so
that it decodes exactly the encodings of the 16-bit values.
-/
namespace Outscript.Solana

open ByteString Cursor

/-- The used part of the three-byte buffer. -/
def encodeCompactU16ToArray (v : Nat) : Bytes :=
  if v < 0x80 then [UInt8.ofNat v]
  else if v < 0x4000 then [UInt8.ofNat (v &&& 0x7f) ||| 0x80, UInt8.ofNat (v >>> 7)]
  else [UInt8.ofNat (v &&& 0x7f) ||| 0x80, UInt8.ofNat ((v >>> 7) &&& 0x7f) ||| 0x80,
    UInt8.ofNat (v >>> 14)]

/-- Panics if `v` exceeds `0xffff`. -/
def encodeCompactU16 (v : Nat) : Except Trap Bytes :=
  if v ≤ 0xffff then .ok (encodeCompactU16ToArray v) else .error .panic

def decodeCompactU16 : Read UInt8 CompactU16Error Nat := fun c =>
  let byte (i : Nat) : Except CompactU16Error UInt8 :=
    match c.rest[i]? with
    | some b => .ok b
    | none => .error .unexpectedEof
  let advance (n : Nat) : State UInt8 := ⟨c.rest.drop n, c.pos + n⟩
  do
    let b0 ← byte 0
    if b0 < 0x80 then
      return (b0.toNat, advance 1)
    let b1 ← byte 1
    if b1 < 0x80 then
      if b1 = 0 then throw .nonCanonical
      return ((b0 &&& 0x7f).toNat ||| b1.toNat <<< 7, advance 2)
    let b2 ← byte 2
    if b2 > 3 then throw .overflow
    if b2 = 0 then throw .nonCanonical
    return ((b0 &&& 0x7f).toNat ||| (b1 &&& 0x7f).toNat <<< 7 ||| b2.toNat <<< 14, advance 3)

/-- Decodes a length; the decoder's error is wrapped. -/
def readLen : Read UInt8 Error Nat := fun c =>
  match decodeCompactU16.run c with
  | .ok r => .ok r
  | .error e => .error (.compactU16 e)

section Septets

theorem low_septet (v : Nat) : v &&& 0x7f = v % 128 :=
  Nat.and_two_pow_sub_one_eq_mod v 7

theorem toNat_low_septet (b : UInt8) : (b &&& 0x7f).toNat = b.toNat % 128 := by
  rw [UInt8.toNat_and]
  exact low_septet b.toNat

theorem or_shift_seven (a b : Nat) (h : a < 128) : a ||| b <<< 7 = a + 128 * b := by
  rw [Nat.or_comm, ← Nat.shiftLeft_add_eq_or_of_lt h, Nat.shiftLeft_eq]
  omega

theorem or_shift_fourteen (a b : Nat) (h : a < 16384) : a ||| b <<< 14 = a + 16384 * b := by
  rw [Nat.or_comm, ← Nat.shiftLeft_add_eq_or_of_lt h, Nat.shiftLeft_eq]
  omega

theorem toNat_with_flag (v : Nat) : (UInt8.ofNat (v &&& 0x7f) ||| 0x80).toNat = v % 128 + 128 := by
  have hlt : v % 128 < 128 := Nat.mod_lt _ (by decide)
  have hor := or_shift_seven (v % 128) 1 hlt
  rw [UInt8.toNat_or, UInt8.toNat_ofNat', low_septet, Nat.mod_eq_of_lt (by omega)]
  simpa using hor

theorem shift_seven (v : Nat) : v >>> 7 = v / 128 := Nat.shiftRight_eq_div_pow v 7

theorem shift_fourteen (v : Nat) : v >>> 14 = v / 16384 := Nat.shiftRight_eq_div_pow v 14

end Septets

theorem toNat_pos_of_ne_zero {b : UInt8} (h : b ≠ 0) : 0 < b.toNat := by
  by_contra hn
  exact h (UInt8.toNat_inj.mp (by simpa using hn))

section Shapes

variable (b0 b1 b2 : UInt8) (r : Bytes) (pos : Nat)

theorem run_one (h0 : b0.toNat < 128) :
    decodeCompactU16.run ⟨b0 :: r, pos⟩ = .ok (b0.toNat, ⟨r, pos + 1⟩) := by
  have hlt : b0 < 0x80 := by rw [UInt8.lt_iff_toNat_lt]; simpa using h0
  simp [decodeCompactU16, StateT.run, bind, Except.bind, pure, Except.pure, hlt]

theorem run_two (h0 : 128 ≤ b0.toNat) (h1 : 0 < b1.toNat) (h1' : b1.toNat < 128) :
    decodeCompactU16.run ⟨b0 :: b1 :: r, pos⟩ =
      .ok (b0.toNat % 128 + 128 * b1.toNat, ⟨r, pos + 2⟩) := by
  have hlt0 : ¬ b0 < 0x80 := by rw [UInt8.lt_iff_toNat_lt]; simpa using h0
  have hlt1 : b1 < 0x80 := by rw [UInt8.lt_iff_toNat_lt]; simpa using h1'
  have hz : b1 ≠ 0 := by rintro rfl; simp at h1
  have hval := or_shift_seven (b0.toNat % 128) b1.toNat (Nat.mod_lt _ (by decide))
  simp only [decodeCompactU16, StateT.run, bind, Except.bind, pure, Except.pure,
    List.getElem?_cons_zero, List.getElem?_cons_succ, hlt0, hlt1, hz, if_true, if_false,
    toNat_low_septet, hval, List.drop_succ_cons, List.drop_zero]

theorem run_three (h0 : 128 ≤ b0.toNat) (h1 : 128 ≤ b1.toNat) (h2 : 0 < b2.toNat)
    (h2' : b2.toNat ≤ 3) :
    decodeCompactU16.run ⟨b0 :: b1 :: b2 :: r, pos⟩ =
      .ok (b0.toNat % 128 + 128 * (b1.toNat % 128) + 16384 * b2.toNat, ⟨r, pos + 3⟩) := by
  have hlt0 : ¬ b0 < 0x80 := by rw [UInt8.lt_iff_toNat_lt]; simpa using h0
  have hlt1 : ¬ b1 < 0x80 := by rw [UInt8.lt_iff_toNat_lt]; simpa using h1
  have hgt2 : ¬ b2 > 3 := by rw [gt_iff_lt, UInt8.lt_iff_toNat_lt]; simpa using h2'
  have hz : b2 ≠ 0 := by rintro rfl; simp at h2
  have hlow := or_shift_seven (b0.toNat % 128) (b1.toNat % 128) (Nat.mod_lt _ (by decide))
  have hval := or_shift_fourteen (b0.toNat % 128 + 128 * (b1.toNat % 128)) b2.toNat (by omega)
  simp only [decodeCompactU16, StateT.run, bind, Except.bind, pure, Except.pure,
    List.getElem?_cons_zero, List.getElem?_cons_succ, hlt0, hlt1, hgt2, hz, if_false,
    toNat_low_septet, hlow, hval, List.drop_succ_cons, List.drop_zero]

end Shapes

/-- The three accepted shapes, one for each length. -/
theorem decodeCompactU16_shape {c c' : State UInt8} {v : Nat}
    (h : decodeCompactU16.run c = .ok (v, c')) :
    (∃ b0 : UInt8, b0.toNat < 128 ∧ c.rest = b0 :: c'.rest) ∨
    (∃ b0 b1 : UInt8, 128 ≤ b0.toNat ∧ 0 < b1.toNat ∧ b1.toNat < 128 ∧
      c.rest = b0 :: b1 :: c'.rest) ∨
    (∃ b0 b1 b2 : UInt8, 128 ≤ b0.toNat ∧ 128 ≤ b1.toNat ∧ 0 < b2.toNat ∧ b2.toNat ≤ 3 ∧
      c.rest = b0 :: b1 :: b2 :: c'.rest) := by
  have hlt (b : UInt8) : b < 0x80 ↔ b.toNat < 128 := by rw [UInt8.lt_iff_toNat_lt]; simp
  obtain ⟨rest, pos⟩ := c
  match rest with
  | [] => simp [decodeCompactU16, StateT.run, bind, Except.bind] at h
  | b0 :: r0 =>
    by_cases h0 : b0.toNat < 128
    · rw [run_one b0 r0 pos h0] at h
      cases h
      exact Or.inl ⟨b0, h0, rfl⟩
    match r0 with
    | [] => simp [decodeCompactU16, StateT.run, bind, Except.bind, hlt, h0] at h
    | b1 :: r1 =>
      by_cases h1 : b1.toNat < 128
      · by_cases hz : b1 = 0
        · simp [decodeCompactU16, StateT.run, bind, Except.bind, hlt, h0, hz, throw, throwThe,
            MonadExceptOf.throw] at h
        · have hpos := toNat_pos_of_ne_zero hz
          rw [run_two b0 b1 r1 pos (by omega) hpos h1] at h
          cases h
          exact Or.inr (Or.inl ⟨b0, b1, by omega, hpos, h1, rfl⟩)
      match r1 with
      | [] => simp [decodeCompactU16, StateT.run, bind, Except.bind, hlt, h0, h1] at h
      | b2 :: r2 =>
        by_cases h2 : b2 > 3
        · simp [decodeCompactU16, StateT.run, bind, Except.bind, hlt, h0, h1, h2, throw, throwThe,
            MonadExceptOf.throw] at h
        have h2' : b2.toNat ≤ 3 := by
          rw [gt_iff_lt, UInt8.lt_iff_toNat_lt] at h2; simpa using h2
        by_cases hz : b2 = 0
        · simp [decodeCompactU16, StateT.run, bind, Except.bind, hlt, h0, h1, hz, throw, throwThe,
            MonadExceptOf.throw] at h
        · have hpos := toNat_pos_of_ne_zero hz
          rw [run_three b0 b1 b2 r2 pos (by omega) (by omega) hpos h2'] at h
          cases h
          exact Or.inr (Or.inr ⟨b0, b1, b2, by omega, by omega, hpos, h2', rfl⟩)

theorem encode_one {b0 : UInt8} (h0 : b0.toNat < 128) :
    encodeCompactU16ToArray b0.toNat = [b0] := by
  simp [encodeCompactU16ToArray, h0]

theorem flag_eq {v : Nat} {b : UInt8} (hb : 128 ≤ b.toNat) (hv : v % 128 = b.toNat % 128) :
    UInt8.ofNat (v &&& 0x7f) ||| 0x80 = b := by
  apply UInt8.toNat_inj.mp
  have hlt := b.toNat_lt
  rw [toNat_with_flag]
  omega

theorem ofNat_eq {v : Nat} {b : UInt8} (hv : v = b.toNat) : UInt8.ofNat v = b := by
  subst hv
  simp

theorem encode_two {b0 b1 : UInt8} (h0 : 128 ≤ b0.toNat) (h1 : 0 < b1.toNat)
    (h1' : b1.toNat < 128) :
    encodeCompactU16ToArray (b0.toNat % 128 + 128 * b1.toNat) = [b0, b1] := by
  have hdiv : (b0.toNat % 128 + 128 * b1.toNat) >>> 7 = b1.toNat := by rw [shift_seven]; omega
  rw [encodeCompactU16ToArray, if_neg (by omega), if_pos (by omega), flag_eq h0 (by omega),
    ofNat_eq hdiv]

theorem encode_three {b0 b1 b2 : UInt8} (h0 : 128 ≤ b0.toNat) (h1 : 128 ≤ b1.toNat)
    (h2 : 0 < b2.toNat) (h2' : b2.toNat ≤ 3) :
    encodeCompactU16ToArray (b0.toNat % 128 + 128 * (b1.toNat % 128) + 16384 * b2.toNat) =
      [b0, b1, b2] := by
  have hmid : ((b0.toNat % 128 + 128 * (b1.toNat % 128) + 16384 * b2.toNat) >>> 7) % 128 =
      b1.toNat % 128 := by rw [shift_seven]; omega
  have htop : (b0.toNat % 128 + 128 * (b1.toNat % 128) + 16384 * b2.toNat) >>> 14 = b2.toNat := by
    rw [shift_fourteen]; omega
  rw [encodeCompactU16ToArray, if_neg (by omega), if_neg (by omega), flag_eq h0 (by omega),
    flag_eq h1 hmid, ofNat_eq htop]

/-- Every 16-bit value has one of the three shapes. -/
theorem encode_shape {v : Nat} (hv : v < 65536) :
    (∃ b0 : UInt8, b0.toNat < 128 ∧ v = b0.toNat) ∨
    (∃ b0 b1 : UInt8, 128 ≤ b0.toNat ∧ 0 < b1.toNat ∧ b1.toNat < 128 ∧
      v = b0.toNat % 128 + 128 * b1.toNat) ∨
    (∃ b0 b1 b2 : UInt8, 128 ≤ b0.toNat ∧ 128 ≤ b1.toNat ∧ 0 < b2.toNat ∧ b2.toNat ≤ 3 ∧
      v = b0.toNat % 128 + 128 * (b1.toNat % 128) + 16384 * b2.toNat) := by
  have hbyte {n : Nat} (h : n < 256) : (UInt8.ofNat n).toNat = n := by
    rw [UInt8.toNat_ofNat', Nat.mod_eq_of_lt h]
  by_cases h₁ : v < 128
  · exact Or.inl ⟨UInt8.ofNat v, by rw [hbyte (by omega)]; exact ⟨h₁, rfl⟩⟩
  by_cases h₂ : v < 16384
  · refine Or.inr (Or.inl ⟨UInt8.ofNat (v % 128 + 128), UInt8.ofNat (v / 128), ?_⟩)
    rw [hbyte (by omega), hbyte (by omega)]
    omega
  · refine Or.inr (Or.inr ⟨UInt8.ofNat (v % 128 + 128), UInt8.ofNat (v / 128 % 128 + 128),
      UInt8.ofNat (v / 16384), ?_⟩)
    rw [hbyte (by omega), hbyte (by omega), hbyte (by omega)]
    omega

theorem decodes_decodeCompactU16 :
    Decodes decodeCompactU16 (fun v => v < 65536) encodeCompactU16ToArray := by
  apply Decodes.intro
  · intro v r pos hv
    rcases encode_shape hv with ⟨b0, h0, rfl⟩ | ⟨b0, b1, h0, h1, h1', rfl⟩ |
      ⟨b0, b1, b2, h0, h1, h2, h2', rfl⟩
    · rw [encode_one h0]
      exact run_one _ _ _ h0
    · rw [encode_two h0 h1 h1']
      exact run_two _ _ _ _ h0 h1 h1'
    · rw [encode_three h0 h1 h2 h2']
      exact run_three _ _ _ _ _ h0 h1 h2 h2'
  · rintro ⟨rest, pos⟩ v ⟨rest', pos'⟩ h
    rcases decodeCompactU16_shape h with ⟨b0, h0, rfl⟩ | ⟨b0, b1, h0, h1, h1', rfl⟩ |
      ⟨b0, b1, b2, h0, h1, h2, h2', rfl⟩
    · rw [run_one _ _ _ h0] at h
      cases h
      rw [encode_one h0]
      exact ⟨by omega, _, rfl⟩
    · rw [run_two _ _ _ _ h0 h1 h1'] at h
      cases h
      rw [encode_two h0 h1 h1']
      exact ⟨by omega, _, rfl⟩
    · rw [run_three _ _ _ _ _ h0 h1 h2 h2'] at h
      cases h
      rw [encode_three h0 h1 h2 h2']
      exact ⟨by omega, _, rfl⟩

theorem decodes_readLen :
    Decodes readLen (fun v => v < 65536) encodeCompactU16ToArray := by
  intro c v c'
  rw [← decodes_decodeCompactU16 c v c']
  simp only [readLen, StateT.run]
  cases decodeCompactU16 c with
  | ok r => simp
  | error e => simp

end Outscript.Solana
