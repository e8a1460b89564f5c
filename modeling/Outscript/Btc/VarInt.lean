import Outscript.Library.ByteString

/-!
# Bitcoin variable-length integers

One byte up to `0xfc`; above that a prefix byte and two, four or eight bytes,
least significant first. Every 64-bit value has one shortest form, and the
decoder returns it with its length, so that a longer form can be told apart.
-/
namespace Outscript.BtcVarInt

open ByteString

/-- The used part of the nine-byte buffer. -/
def toArray (v : Nat) : Bytes :=
  if v ≤ 0xfc then [UInt8.ofNat v]
  else if v ≤ 0xffff then 0xfd :: le 2 v
  else if v ≤ 0xffffffff then 0xfe :: le 4 v
  else 0xff :: le 8 v

def len (v : Nat) : Nat := (toArray v).length

/-- A form of `n` bytes behind the prefix. -/
def decodeWide (rest : Bytes) (n : Nat) : Option (Nat × Nat) :=
  if n ≤ rest.length then some (leVal (rest.take n), n + 1) else none

/-- The value and the number of bytes consumed. -/
def decode (buf : Bytes) : Option (Nat × Nat) :=
  match buf with
  | [] => none
  | t :: rest =>
    if t = 0xfd then decodeWide rest 2
    else if t = 0xfe then decodeWide rest 4
    else if t = 0xff then decodeWide rest 8
    else some (t.toNat, 1)

theorem decodeWide_append (s r : Bytes) :
    decodeWide (s ++ r) s.length = some (leVal s, s.length + 1) := by
  rw [decodeWide, if_pos (by simp), List.take_left]

theorem decodeWide_eq_some {rest : Bytes} {k v n : Nat} (h : decodeWide rest k = some (v, n)) :
    ∃ s r, s.length = k ∧ rest = s ++ r ∧ v = leVal s ∧ n = k + 1 := by
  rw [decodeWide] at h
  split_ifs at h with hk
  cases h
  exact ⟨rest.take k, rest.drop k, List.length_take_of_le hk,
    (List.take_append_drop k rest).symm, rfl, rfl⟩

theorem len_eq (v : Nat) : len v =
    if v ≤ 0xfc then 1 else if v ≤ 0xffff then 3 else if v ≤ 0xffffffff then 5 else 9 := by
  unfold len toArray
  split_ifs <;> simp

theorem len_pos (v : Nat) : 0 < len v := by
  rw [len_eq]
  split_ifs <;> decide

theorem toArray_ne_nil (v : Nat) : toArray v ≠ [] := List.ne_nil_of_length_pos (len_pos v)

@[simp] theorem length_toArray (v : Nat) : (toArray v).length = len v := rfl

section Shapes

variable (t : UInt8) (r : Bytes)

theorem decode_byte (h : t.toNat ≤ 0xfc) : decode (t :: r) = some (t.toNat, 1) := by
  have hne (c : UInt8) (hc : 0xfc < c.toNat) : t ≠ c := by
    rintro rfl
    omega
  rw [decode, if_neg (hne _ (by decide)), if_neg (hne _ (by decide)), if_neg (hne _ (by decide))]

theorem decode_two (s : Bytes) (h : s.length = 2) :
    decode (0xfd :: (s ++ r)) = some (leVal s, 3) := by
  rw [decode, if_pos rfl, ← h, decodeWide_append, h]

theorem decode_four (s : Bytes) (h : s.length = 4) :
    decode (0xfe :: (s ++ r)) = some (leVal s, 5) := by
  rw [decode, if_neg (by decide), if_pos rfl, ← h, decodeWide_append, h]

theorem decode_eight (s : Bytes) (h : s.length = 8) :
    decode (0xff :: (s ++ r)) = some (leVal s, 9) := by
  rw [decode, if_neg (by decide), if_neg (by decide), if_pos rfl, ← h, decodeWide_append, h]

/-- The four forms, shortest or not. -/
theorem decode_shape {buf : Bytes} {v n : Nat} (h : decode buf = some (v, n)) :
    (∃ (t : UInt8) (r : Bytes), t.toNat ≤ 0xfc ∧ buf = t :: r ∧ v = t.toNat ∧ n = 1) ∨
    (∃ s r : Bytes, s.length = 2 ∧ buf = 0xfd :: (s ++ r) ∧ v = leVal s ∧ n = 3) ∨
    (∃ s r : Bytes, s.length = 4 ∧ buf = 0xfe :: (s ++ r) ∧ v = leVal s ∧ n = 5) ∨
    (∃ s r : Bytes, s.length = 8 ∧ buf = 0xff :: (s ++ r) ∧ v = leVal s ∧ n = 9) := by
  cases buf with
  | nil => cases h
  | cons t rest =>
    rw [decode] at h
    split_ifs at h with h₁ h₂ h₃
    · obtain ⟨s, r, hs, rfl, hv, hn⟩ := decodeWide_eq_some h
      exact Or.inr (Or.inl ⟨s, r, hs, by rw [h₁], hv, hn⟩)
    · obtain ⟨s, r, hs, rfl, hv, hn⟩ := decodeWide_eq_some h
      exact Or.inr (Or.inr (Or.inl ⟨s, r, hs, by rw [h₂], hv, hn⟩))
    · obtain ⟨s, r, hs, rfl, hv, hn⟩ := decodeWide_eq_some h
      exact Or.inr (Or.inr (Or.inr ⟨s, r, hs, by rw [h₃], hv, hn⟩))
    · cases h
      refine Or.inl ⟨t, rest, ?_, rfl, rfl, rfl⟩
      have hlt := t.toNat_lt
      have hne (c : UInt8) (hc : t ≠ c) : t.toNat ≠ c.toNat := fun h => hc (UInt8.toNat_inj.mp h)
      have h₁' : t.toNat ≠ 253 := hne 0xfd h₁
      have h₂' : t.toNat ≠ 254 := hne 0xfe h₂
      have h₃' : t.toNat ≠ 255 := hne 0xff h₃
      omega

end Shapes

/-- A written value is read back, whatever follows. -/
theorem decode_toArray {v : Nat} (hv : v < 2 ^ 64) (r : Bytes) :
    decode (toArray v ++ r) = some (v, len v) := by
  rw [len_eq, toArray]
  split_ifs with h₁ h₂ h₃
  · have hb : (UInt8.ofNat v).toNat = v := by
      rw [UInt8.toNat_ofNat', Nat.mod_eq_of_lt (by omega)]
    have h := decode_byte (UInt8.ofNat v) r (by rw [hb]; exact h₁)
    rwa [hb] at h
  · rw [List.cons_append, decode_two r _ (length_le 2 v), leVal_le_of_lt (by omega)]
  · rw [List.cons_append, decode_four r _ (length_le 4 v), leVal_le_of_lt (by omega)]
  · rw [List.cons_append, decode_eight r _ (length_le 8 v), leVal_le_of_lt (by omega)]

/-- A value whose length is the shortest was written that way. -/
theorem eq_toArray_of_decode {buf : Bytes} {v n : Nat} (h : decode buf = some (v, n))
    (hn : len v = n) : v < 2 ^ 64 ∧ ∃ r, buf = toArray v ++ r := by
  rw [len_eq] at hn
  rcases decode_shape h with ⟨t, r, ht, rfl, rfl, rfl⟩ | ⟨s, r, hs, rfl, rfl, rfl⟩ |
    ⟨s, r, hs, rfl, rfl, rfl⟩ | ⟨s, r, hs, rfl, rfl, rfl⟩
  · refine ⟨by omega, r, ?_⟩
    rw [toArray, if_pos ht, UInt8.ofNat_toNat]
    rfl
  · have hlt := leVal_lt s
    have hle := le_leVal s
    rw [hs] at hlt hle
    have hb : ¬ leVal s ≤ 0xfc ∧ leVal s ≤ 0xffff := by split_ifs at hn <;> omega
    refine ⟨by omega, r, ?_⟩
    rw [toArray, if_neg hb.1, if_pos hb.2, hle]
    rfl
  · have hlt := leVal_lt s
    have hle := le_leVal s
    rw [hs] at hlt hle
    have hb : ¬ leVal s ≤ 0xfc ∧ ¬ leVal s ≤ 0xffff ∧ leVal s ≤ 0xffffffff := by
      split_ifs at hn <;> omega
    refine ⟨by omega, r, ?_⟩
    rw [toArray, if_neg hb.1, if_neg hb.2.1, if_pos hb.2.2, hle]
    rfl
  · have hlt := leVal_lt s
    have hle := le_leVal s
    rw [hs] at hlt hle
    have hb : ¬ leVal s ≤ 0xfc ∧ ¬ leVal s ≤ 0xffff ∧ ¬ leVal s ≤ 0xffffffff := by
      split_ifs at hn <;> omega
    refine ⟨by omega, r, ?_⟩
    rw [toArray, if_neg hb.1, if_neg hb.2.1, if_neg hb.2.2, hle]
    rfl

/-- What is decoded takes the front of the input, and does not look past it. -/
theorem decode_eq_some {buf : Bytes} {v n : Nat} :
    decode buf = some (v, n) ↔ ∃ w r, buf = w ++ r ∧ decode w = some (v, w.length) ∧ n = w.length := by
  constructor
  · intro h
    rcases decode_shape h with ⟨t, r, ht, rfl, rfl, rfl⟩ | ⟨s, r, hs, rfl, rfl, rfl⟩ |
      ⟨s, r, hs, rfl, rfl, rfl⟩ | ⟨s, r, hs, rfl, rfl, rfl⟩
    · exact ⟨[t], r, rfl, decode_byte t [] ht, rfl⟩
    · have hw := decode_two [] s hs
      rw [List.append_nil] at hw
      exact ⟨0xfd :: s, r, rfl, by rw [hw, List.length_cons, hs], by rw [List.length_cons, hs]⟩
    · have hw := decode_four [] s hs
      rw [List.append_nil] at hw
      exact ⟨0xfe :: s, r, rfl, by rw [hw, List.length_cons, hs], by rw [List.length_cons, hs]⟩
    · have hw := decode_eight [] s hs
      rw [List.append_nil] at hw
      exact ⟨0xff :: s, r, rfl, by rw [hw, List.length_cons, hs], by rw [List.length_cons, hs]⟩
  · rintro ⟨w, r, rfl, h, rfl⟩
    rcases decode_shape h with ⟨t, r', ht, rfl, rfl, hlen⟩ | ⟨s, r', hs, rfl, rfl, hlen⟩ |
      ⟨s, r', hs, rfl, rfl, hlen⟩ | ⟨s, r', hs, rfl, rfl, hlen⟩
    · rw [hlen]
      exact decode_byte t _ ht
    · rw [hlen, List.cons_append, List.append_assoc]
      exact decode_two _ s hs
    · rw [hlen, List.cons_append, List.append_assoc]
      exact decode_four _ s hs
    · rw [hlen, List.cons_append, List.append_assoc]
      exact decode_eight _ s hs

/-- No form is shorter than the written one. -/
theorem len_le_of_decode {buf : Bytes} {v n : Nat} (h : decode buf = some (v, n)) :
    v < 2 ^ 64 ∧ len v ≤ n ∧ n ≤ 9 := by
  rw [len_eq]
  rcases decode_shape h with ⟨t, r, ht, rfl, rfl, rfl⟩ | ⟨s, r, hs, rfl, rfl, rfl⟩ |
    ⟨s, r, hs, rfl, rfl, rfl⟩ | ⟨s, r, hs, rfl, rfl, rfl⟩
  · have hlt := t.toNat_lt
    rw [if_pos ht]
    omega
  · have hlt := leVal_lt s
    rw [hs] at hlt
    split_ifs <;> omega
  · have hlt := leVal_lt s
    rw [hs] at hlt
    split_ifs <;> omega
  · have hlt := leVal_lt s
    rw [hs] at hlt
    split_ifs <;> omega

end Outscript.BtcVarInt
