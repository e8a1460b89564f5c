import Outscript.Base58
import Outscript.Library.Buffer

/-!
# Base58 in its buffer

The encoder works out the digits in place, behind the zeros, and looks their
characters up in the alphabet. No position is outside of the buffer, no sum
leaves its 32 bits and no digit is outside of the alphabet.
-/
namespace Outscript.Base58

open ByteString Ascii Fallible Positional Buffer

/-- The crate's error. -/
def Error.intoError : Error → Outscript.Error
  | .bufferTooSmall => .bufferTooSmall
  | e => .base58 e

/-- A fallible call inside one that may also panic. -/
def trapped {α : Type} (x : Except Error α) : Except Trap α :=
  x.mapError fun e => .error e.intoError

/-- The digits multiplied by 256 and a carry added, in 32 bits. -/
def sweepChecked : Bytes → ℕ → Except Trap (Bytes × ℕ)
  | [], carry => .ok ([], carry)
  | d :: ds, carry =>
    let carry := carry + d.toNat <<< 8
    if 2 ^ 32 ≤ carry then .error .panic
    else do
      let (ds, out) ← sweepChecked ds (carry / 58)
      return (UInt8.ofNat (carry % 58) :: ds, out)

/-- Appends the digits of what was carried out, of which `len` are in use before. -/
def pushCarryAt (digits : Bytes) (len carry : ℕ) : Except Trap (Bytes × ℕ) :=
  if carry = 0 then .ok (digits, len)
  else if len < digits.length then
    pushCarryAt (digits.set len (UInt8.ofNat (carry % 58))) (len + 1) (carry / 58)
  else .error (.error .bufferTooSmall)
termination_by carry
decreasing_by exact Nat.div_lt_self (Nat.pos_of_ne_zero ‹_›) (by decide)

def takeUpAt (state : Bytes × ℕ) (byte : UInt8) : Except Trap (Bytes × ℕ) := do
  let (digits, len) := state
  let used ← slice .panic digits 0 len
  let (used, carry) ← sweepChecked used byte.toNat
  let digits ← copy .panic digits 0 len used
  pushCarryAt digits len carry

/-- `encode_iter_to_slice`: the buffer after the call and the number of bytes written. -/
def encodeAt (input out : Bytes) : Except Trap (Bytes × ℕ) := do
  let zeros := (input.takeWhile (· = 0)).length
  if out.length < zeros then .error (.error .bufferTooSmall)
  else
    let digits ← slice .panic out zeros out.length
    let (digits, len) ← (input.drop zeros).foldlM takeUpAt (digits, 0)
    let used ← slice .panic digits 0 len
    let chars ← used.reverse.mapM fun d => item .panic alphabet d.toNat
    let digits ← copy .panic digits 0 len chars
    let out ← copy .panic out zeros out.length digits
    let out ← copy .panic out 0 zeros (List.replicate zeros '1'.toUInt8)
    return (out, zeros + len)

/-! ## The accumulator -/

/-- The accumulator in a buffer, of which the rest is as it was. -/
def inBuffer (digits ds : Bytes) : Bytes × ℕ := (ds ++ digits.drop ds.length, ds.length)

section

variable {digits ds : Bytes}

theorem slice_inBuffer : slice Trap.panic (inBuffer digits ds).1 0 ds.length = .ok ds :=
  slice_append (List.length_nil (α := UInt8)) (Nat.zero_add _)

theorem copy_inBuffer {src : Bytes} (h : src.length = ds.length) :
    copy Trap.panic (inBuffer digits ds).1 0 ds.length src = .ok (inBuffer digits src).1 := by
  rw [inBuffer, inBuffer, h]
  exact copy_append (List.length_nil (α := UInt8)) (Nat.zero_add _) h

end

theorem sweepChecked_eq (ds : Bytes) {carry : ℕ} (h : carry < 2 ^ 24) :
    sweepChecked ds carry = .ok (sweep 58 256 ds carry) := by
  induction ds generalizing carry with
  | nil => rfl
  | cons d ds ih =>
    have hd := d.toNat_lt
    have hshift : d.toNat <<< 8 = d.toNat * 256 := Nat.shiftLeft_eq _ _
    have hsmall : carry + d.toNat * 256 < 2 ^ 32 := by omega
    rw [sweepChecked, hshift, if_neg (not_le.mpr hsmall), ih (by omega)]
    rfl

theorem length_sweep (ds : Bytes) (carry : ℕ) : (sweep 58 256 ds carry).1.length = ds.length :=
  (sweep_eq ds carry).1

theorem pushCarryAt_eq {digits ds : Bytes} (hds : ds.length ≤ digits.length) (carry : ℕ) :
    pushCarryAt (inBuffer digits ds).1 ds.length carry =
      trapped (pushCarry 58 digits.length ds carry) >>= fun ds => .ok (inBuffer digits ds) := by
  induction carry using Nat.strongRecOn generalizing ds with
  | ind carry ih =>
    have hlen : (inBuffer digits ds).1.length = digits.length := by
      rw [inBuffer, List.length_append, List.length_drop]
      omega
    rw [pushCarryAt, pushCarry, hlen]
    split_ifs with hzero hroom
    · rfl
    · have hset : (inBuffer digits ds).1.set ds.length (UInt8.ofNat (carry % 58)) =
          (inBuffer digits (ds ++ [UInt8.ofNat (carry % 58)])).1 := by
        rw [inBuffer, inBuffer, List.set_append_right _ _ le_rfl, Nat.sub_self,
          List.drop_eq_getElem_cons hroom, List.set_cons_zero, List.length_append, List.append_assoc]
        rfl
      have hfits : (ds ++ [UInt8.ofNat (carry % 58)]).length ≤ digits.length := by
        rwa [List.length_append]
      have hrest := ih (carry / 58) (Nat.div_lt_self (Nat.pos_of_ne_zero hzero) (by decide)) hfits
      rw [List.length_append] at hrest
      rw [hset]
      exact hrest
    · rfl

theorem takeUpAt_eq {digits ds : Bytes} (hds : ds.length ≤ digits.length) (byte : UInt8) :
    takeUpAt (inBuffer digits ds) byte =
      trapped (takeUp 58 256 digits.length ds byte.toNat) >>= fun ds => .ok (inBuffer digits ds) := by
  have hbyte := byte.toNat_lt
  have hlen := length_sweep ds byte.toNat
  have hpush := pushCarryAt_eq (hlen.trans_le hds) (sweep 58 256 ds byte.toNat).2
  rw [hlen] at hpush
  rw [takeUpAt]
  change (slice Trap.panic (inBuffer digits ds).1 0 ds.length >>= _) = _
  rw [slice_inBuffer, ok_bind, sweepChecked_eq ds (by omega), ok_bind]
  change (copy Trap.panic (inBuffer digits ds).1 0 ds.length (sweep 58 256 ds byte.toNat).1 >>=
    fun digits => pushCarryAt digits ds.length (sweep 58 256 ds byte.toNat).2) = _
  rw [copy_inBuffer hlen, ok_bind, hpush]
  rfl

/-- A digit is taken up where there is room. -/
theorem length_of_takeUp {room : ℕ} {ds ds' : Bytes} {value : ℕ} (hds : ds.length ≤ room)
    (h : takeUp 58 256 room ds value = .ok ds') : ds'.length ≤ room := by
  have hlen := length_sweep ds value
  change pushCarry 58 room (sweep 58 256 ds value).1 (sweep 58 256 ds value).2 = .ok ds' at h
  rw [pushCarry_eq (hlen.trans_le hds)] at h
  split_ifs at h with hroom
  cases h
  exact hroom

theorem foldlM_takeUpAt {digits ds : Bytes} (hds : ds.length ≤ digits.length) (bs : Bytes) :
    bs.foldlM takeUpAt (inBuffer digits ds) =
      trapped (bs.foldlM (fun ds b => takeUp 58 256 digits.length ds b.toNat) ds) >>=
        fun ds => .ok (inBuffer digits ds) := by
  induction bs generalizing ds with
  | nil => rfl
  | cons b bs ih =>
    rw [List.foldlM_cons, List.foldlM_cons, takeUpAt_eq hds]
    cases htake : takeUp 58 256 digits.length ds b.toNat with
    | error e => rfl
    | ok ds' => exact ih (length_of_takeUp hds htake)

/-! ## The encoder -/

/-- The digits of a number are in the alphabet. -/
theorem mapM_alphabet {ds : Bytes} (h : ∀ d ∈ ds, d.toNat < 58) :
    ds.mapM (fun d => item Trap.panic alphabet d.toNat) =
      .ok (ds.map fun d => alphabet.getD d.toNat 0) := by
  have hlen : alphabet.length = 58 := by decide
  refine mapM_ok fun d hd => ?_
  have hlt := h d hd
  rw [List.getD_eq_getElem?_getD, List.getElem?_eq_getElem (by omega)]
  exact item_of_lt (by omega)

theorem digits_lt {room : ℕ} {bs ds : Bytes}
    (h : bs.foldlM (fun ds b => takeUp 58 256 room ds b.toNat) [] = .ok ds) :
    ds.length ≤ room ∧ ∀ d ∈ ds, d.toNat < 58 := by
  have hrun : bs.foldlM (fun ds b => takeUp 58 256 room ds b.toNat) [] =
      (bs.map UInt8.toNat).foldlM (takeUp 58 256 room) [] := List.foldlM_map.symm
  rw [hrun, foldlM_takeUp (by decide) (by decide)] at h
  split_ifs at h with hroom
  cases h
  refine ⟨by rwa [List.length_map, List.length_reverse], List.forall_mem_map.mpr fun d hd => ?_⟩
  have hlt := (canonical_recode (by decide) _).lt d (List.mem_reverse.mp hd)
  rwa [UInt8.toNat_ofNat_of_lt' (hlt.trans (by decide))]

/-- The encoder writes the text of its input where there is room, and never panics. -/
theorem encodeAt_eq (input out : Bytes) :
    encodeAt input out = if (textOf input).length ≤ out.length then
      .ok (textOf input ++ out.drop (textOf input).length, (textOf input).length)
    else .error (.error .bufferTooSmall) := by
  have hpure : encodeAt input out =
      trapped (encodeToSlice input out) >>= fun r => .ok (r.2, r.1) := by
    rw [encodeAt, encodeToSlice]
    generalize hn : (input.takeWhile (· = 0)).length = n
    by_cases hz : out.length < n
    · rw [if_pos hz, if_pos hz]
      rfl
    have hz := not_lt.mp hz
    have hroom : (out.drop n).length = out.length - n := List.length_drop
    have hloop : (input.drop n).foldlM takeUpAt (inBuffer (out.drop n) []) =
        trapped ((input.drop n).foldlM (fun ds b => takeUp 58 256 (out.length - n) ds b.toNat) []) >>=
          fun ds => .ok (inBuffer (out.drop n) ds) := by
      rw [← hroom]
      exact foldlM_takeUpAt (Nat.zero_le _) (input.drop n)
    rw [if_neg (not_lt.mpr hz), if_neg (not_lt.mpr hz), slice_to_end hz, ok_bind]
    change ((input.drop n).foldlM takeUpAt (inBuffer (out.drop n) []) >>= _) = _
    rw [hloop]
    change _ = trapped ((input.drop n).foldlM
      (fun ds b => takeUp 58 256 (out.length - n) ds b.toNat) [] >>= _) >>= _
    cases hdigits : (input.drop n).foldlM
        (fun ds b => takeUp 58 256 (out.length - n) ds b.toNat) [] with
    | error e => rfl
    | ok ds =>
      obtain ⟨hlen, hlt⟩ := digits_lt hdigits
      have hchars := mapM_alphabet fun d hd => hlt d (List.mem_reverse.mp hd)
      generalize htext : ds.reverse.map (fun d => alphabet.getD d.toNat 0) = chars at hchars
      have hcount : chars.length = ds.length := by
        rw [← htext, List.length_map, List.length_reverse]
      have hin : (inBuffer (out.drop n) chars).1.length = out.length - n := by
        rw [inBuffer, List.length_append, List.length_drop, hroom]
        omega
      have hback : copy Trap.panic out n out.length (inBuffer (out.drop n) chars).1 =
          .ok (out.take n ++ (inBuffer (out.drop n) chars).1) := by
        rw [copy, if_pos ⟨hz, le_rfl, hin⟩, List.drop_length, List.append_nil]
      have hfill : copy Trap.panic (out.take n ++ (inBuffer (out.drop n) chars).1) 0 n
          (List.replicate n '1'.toUInt8) =
            .ok (List.replicate n '1'.toUInt8 ++ (inBuffer (out.drop n) chars).1) := by
        have htake : (out.take n).length = n := List.length_take_of_le hz
        refine copy_append (List.length_nil (α := UInt8)) ?_ ?_
        · rw [htake]
          exact Nat.zero_add n
        · rw [List.length_replicate, htake]
      change (slice Trap.panic (inBuffer (out.drop n) ds).1 0 ds.length >>= _) = _
      rw [slice_inBuffer, ok_bind, hchars, ok_bind]
      change (copy Trap.panic (inBuffer (out.drop n) ds).1 0 ds.length chars >>= _) = _
      rw [copy_inBuffer hcount, ok_bind, hback, ok_bind, hfill, ok_bind, inBuffer, List.drop_drop,
        hcount, ← htext, ← List.append_assoc]
      rfl
  rw [hpure, encodeToSlice_eq]
  split_ifs <;> rfl

theorem encodeAt_ascii {input out buf : Bytes} {n : ℕ} (h : encodeAt input out = .ok (buf, n)) :
    ∀ c ∈ buf.take n, c < 0x80 := by
  rw [encodeAt_eq] at h
  split_ifs at h
  cases h
  rw [List.take_left]
  exact fun c hc => (mem_alphabet_of_textOf input c hc).2

end Outscript.Base58
