import Outscript.Library.ByteString

/-!
# Script pushes

A push is an opcode that tells the length, and the data. The shortest opcode is
written; every opcode is read.
-/
namespace Outscript

open ByteString

/-- The opcode header of a push of `n` bytes. -/
def pushHeader (n : Nat) : Bytes :=
  if n ≤ 75 then [UInt8.ofNat n]
  else if n ≤ 0xff then [0x4c, UInt8.ofNat n]
  else if n ≤ 0xffff then 0x4d :: le 2 n
  else 0x4e :: le 4 n

def pushBytesLen (n : Nat) : Nat := (pushHeader n).length + n

def pushBytes (v : Bytes) : Bytes := pushHeader v.length ++ v

/-- The `n` bytes behind a header of `header` bytes. -/
def pushedAt (rest : Bytes) (n header : Nat) : Option (Bytes × Nat) :=
  if n ≤ rest.length then some (rest.take n, n + header) else none

/-- The data pushed at the start of `v`, and the number of bytes consumed. -/
def parsePushBytes (v : Bytes) : Option (Bytes × Nat) :=
  match v with
  | [] => none
  | p :: rest =>
    if p ≤ 75 then pushedAt rest p.toNat 1
    else if p = 0x4c then
      match rest with
      | [] => none
      | n :: rest => pushedAt rest n.toNat 2
    else if p = 0x4d then
      if rest.length < 2 then none else pushedAt (rest.drop 2) (leVal (rest.take 2)) 3
    else if p = 0x4e then
      if rest.length < 4 then none else pushedAt (rest.drop 4) (leVal (rest.take 4)) 5
    else none

theorem length_pushHeader (n : Nat) : (pushHeader n).length =
    if n ≤ 75 then 1 else if n ≤ 0xff then 2 else if n ≤ 0xffff then 3 else 5 := by
  rw [pushHeader]
  split_ifs <;> simp

theorem length_pushBytes (v : Bytes) : (pushBytes v).length = pushBytesLen v.length :=
  List.length_append

theorem pushedAt_append (v rest : Bytes) (header : Nat) :
    pushedAt (v ++ rest) v.length header = some (v, v.length + header) := by
  rw [pushedAt, if_pos (by simp), List.take_left]

/-- What was pushed is read back, whatever follows. -/
theorem parsePushBytes_pushBytes {v : Bytes} (h : v.length < 2 ^ 32) (rest : Bytes) :
    parsePushBytes (pushBytes v ++ rest) = some (v, (pushBytes v).length) := by
  have hle (k : Nat) (hk : v.length < 256 ^ k) :
      leVal ((le k v.length ++ (v ++ rest)).take k) = v.length := by
    rw [List.take_left' (length_le k _), leVal_le_of_lt hk]
  have hdrop (k : Nat) : (le k v.length ++ (v ++ rest)).drop k = v ++ rest :=
    List.drop_left' (length_le k _)
  rw [length_pushBytes, pushBytesLen, length_pushHeader, pushBytes, List.append_assoc, pushHeader]
  split_ifs with h₁ h₂ h₃
  · have hb : (UInt8.ofNat v.length).toNat = v.length := by
      rw [UInt8.toNat_ofNat', Nat.mod_eq_of_lt (by omega)]
    have hsmall : UInt8.ofNat v.length ≤ 75 := by
      rw [UInt8.le_iff_toNat_le, hb]
      exact h₁
    rw [List.singleton_append, parsePushBytes.eq_def]
    dsimp only
    rw [if_pos hsmall, hb, pushedAt_append, Nat.add_comm]
  · have hb : (UInt8.ofNat v.length).toNat = v.length := by
      rw [UInt8.toNat_ofNat', Nat.mod_eq_of_lt (by omega)]
    simp only [List.cons_append, List.nil_append, parsePushBytes]
    rw [if_neg (by decide), if_pos trivial, hb, pushedAt_append, Nat.add_comm]
  · simp only [List.cons_append, parsePushBytes]
    rw [if_neg (by decide), if_neg (by decide), if_pos trivial, if_neg (by simp; omega), hdrop,
      hle 2 (by omega), pushedAt_append, Nat.add_comm]
  · simp only [List.cons_append, parsePushBytes]
    rw [if_neg (by decide), if_neg (by decide), if_neg (by decide), if_pos trivial, if_neg (by simp),
      hdrop, hle 4 (by omega), pushedAt_append, Nat.add_comm]

theorem pushedAt_eq_some {rest data : Bytes} {n header used : Nat} :
    pushedAt rest n header = some (data, used) ↔
      n ≤ rest.length ∧ data = rest.take n ∧ used = n + header := by
  rw [pushedAt]
  split_ifs with h
  · simp only [Option.some.injEq, Prod.mk.injEq, h, true_and]
    exact and_congr eq_comm eq_comm
  · simp [h]

/-- A push has a header, and does not reach behind the script. -/
theorem parsePushBytes_used {v data : Bytes} {used : Nat}
    (h : parsePushBytes v = some (data, used)) :
    data.length < used ∧ used ≤ v.length := by
  cases v with
  | nil => cases h
  | cons p rest =>
    have hat {r : Bytes} {n header : Nat} (hp : pushedAt r n header = some (data, used))
        (hpos : 0 < header) (hlen : r.length + header ≤ rest.length + 1) :
        data.length < used ∧ used ≤ (p :: rest).length := by
      obtain ⟨hn, rfl, rfl⟩ := pushedAt_eq_some.mp hp
      rw [List.length_take_of_le hn, List.length_cons]
      omega
    rw [parsePushBytes.eq_def] at h
    dsimp only at h
    split_ifs at h with h₁ h₂ h₃ h₄ h₅ h₆
    · exact hat h Nat.one_pos le_rfl
    · cases rest with
      | nil => cases h
      | cons n rest => exact hat h Nat.two_pos (by simp)
    · exact hat h (by omega) (by rw [List.length_drop]; omega)
    · exact hat h (by omega) (by rw [List.length_drop]; omega)

end Outscript
