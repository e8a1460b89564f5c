import Outscript.Error
import Outscript.Library.Ascii
import Outscript.Library.Buffer
import Outscript.Library.Hex

/-!
# Hexadecimal addresses

The digits of an address get their case from a hash of them, which has a nibble
for each of 64. There is no look at the length: with more digits the function
panics.
-/
namespace Outscript.Address

open ByteString Ascii Fallible Buffer

def hexDigits : Bytes := ofString "0123456789abcdef"

/-- The two digits of each byte, from the place of byte `i` on. -/
def writeHex (buf : Bytes) (i : ℕ) : Bytes → Except Trap Bytes
  | [] => .ok buf
  | b :: bs => do
    let high ← item .panic hexDigits (b >>> 4).toNat
    let buf ← set .panic buf (2 + 2 * i) high
    let low ← item .panic hexDigits (b &&& 0xf).toNat
    let buf ← set .panic buf (3 + 2 * i) low
    writeHex buf (i + 1) bs

/-- The digits from number `i` on, in the case that the hash has for them. -/
def checksumCase (hash : ByteVec 32) (i : ℕ) : Bytes → Except Trap Bytes
  | [] => .ok []
  | c :: cs => do
    let hashByte ← item .panic hash.toList (i / 2)
    let nibble := if i % 2 = 0 then hashByte >>> 4 else hashByte &&& 0xf
    let c := if 0x39 < c ∧ 7 < nibble then c - 32 else c
    let cs ← checksumCase hash (i + 1) cs
    return c :: cs

section

variable (keccak256 : Bytes → ByteVec 32)

/-- `eip55_to_slice`; nothing where the buffer is too small. -/
def eip55ToSlice (addr out : Bytes) : Except Trap (Option (Bytes × ℕ)) := do
  let len := 2 + addr.length * 2
  if out.length < len then return none
  let buf := out.take len
  let buf ← set .panic buf 0 0x30
  let buf ← set .panic buf 1 0x78
  let buf ← writeHex buf 0 addr
  let digits ← slice .panic buf 2 len
  let digits ← checksumCase (keccak256 digits) 0 digits
  let buf ← copy .panic buf 2 len digits
  return some (buf ++ out.drop len, len)

end

theorem hexDigits_item {n : ℕ} (h : n < 16) : item Trap.panic hexDigits n = .ok (Hex.digit n) := by
  have hall : ∀ n < 16, hexDigits[n]? = some (Hex.digit n) := by decide
  exact item_eq_ok.mpr (hall n h)

/-- The digits stand behind what is written before. -/
theorem writeHex_eq {pre rest bs : Bytes} {i : ℕ} (hpre : pre.length = 2 + 2 * i)
    (hrest : 2 * bs.length ≤ rest.length) :
    writeHex (pre ++ rest) i bs = .ok (pre ++ (Hex.encode bs ++ rest.drop (2 * bs.length))) := by
  induction bs generalizing pre rest i with
  | nil => rfl
  | cons b bs ih =>
    have hb := b.toNat_lt
    have hhigh : (b >>> 4).toNat = b.toNat / 16 := by
      rw [UInt8.toNat_shiftRight]
      exact Nat.shiftRight_eq_div_pow _ 4
    have hlow : (b &&& 0xf).toNat = b.toNat % 16 := by
      rw [UInt8.toNat_and]
      exact Nat.and_two_pow_sub_one_eq_mod _ 4
    match rest, hrest with
    | c :: d :: rest, hrest =>
      have hpair : (pre ++ [Hex.digit (b.toNat / 16), Hex.digit (b.toNat % 16)]).length =
          2 + 2 * (i + 1) := by
        simp only [List.length_append, List.length_cons, List.length_nil]
        omega
      have hroom : 2 * bs.length ≤ rest.length := by
        simp only [List.length_cons] at hrest
        omega
      have hsecond : (pre ++ [Hex.digit (b.toNat / 16)]).length = 3 + 2 * i := by
        simp only [List.length_append, List.length_singleton]
        omega
      have hskip : (c :: d :: rest).drop (2 * (b :: bs).length) = rest.drop (2 * bs.length) := by
        rw [List.length_cons, Nat.mul_succ]
        rfl
      rw [writeHex, hhigh, hlow, hexDigits_item (by omega), ok_bind, set_append hpre, ok_bind,
        hexDigits_item (by omega), ok_bind, List.append_cons, set_append hsecond, ok_bind,
        List.append_cons, List.append_assoc pre, List.singleton_append, ih hpair hroom, hskip,
        Hex.encode, List.append_assoc]
      rfl
    | [], hrest => simp at hrest
    | [_], hrest =>
      simp only [List.length_cons, List.length_nil] at hrest
      omega

/-- A hash has a nibble for 64 digits. -/
theorem checksumCase_ok (hash : ByteVec 32) {cs : Bytes} {i : ℕ} (h : i + cs.length ≤ 64)
    (hascii : ∀ c ∈ cs, c < 0x80) :
    ∃ cs', checksumCase hash i cs = .ok cs' ∧ cs'.length = cs.length ∧ ∀ c ∈ cs', c < 0x80 := by
  induction cs generalizing i with
  | nil => exact ⟨[], rfl, rfl, hascii⟩
  | cons c cs ih =>
    rw [List.length_cons] at h
    obtain ⟨hc, hcs⟩ := List.forall_mem_cons.mp hascii
    obtain ⟨cs', hrun, hlen, hcs'⟩ := @ih (i + 1) (by omega) hcs
    have hbyte : i / 2 < hash.toList.length := by
      rw [List.Vector.toList_length]
      omega
    have hcase (nibble : UInt8) : (if 0x39 < c ∧ 7 < nibble then c - 32 else c) < 0x80 := by
      split_ifs with hupper
      · have hle : (32 : UInt8) ≤ c :=
          UInt8.le_iff_toNat_le.mpr ((by decide : 32 ≤ 0x39).trans (UInt8.lt_iff_toNat_lt.mp hupper.1).le)
        rw [UInt8.lt_iff_toNat_lt, UInt8.toNat_sub_of_le _ _ hle]
        exact (Nat.sub_le _ _).trans_lt (UInt8.lt_iff_toNat_lt.mp hc)
      · exact hc
    rw [checksumCase, item_of_lt hbyte, ok_bind, hrun]
    exact ⟨_, rfl, congrArg Nat.succ hlen, List.forall_mem_cons.mpr ⟨hcase _, hcs'⟩⟩

theorem checksumCase_panics (hash : ByteVec 32) {cs : Bytes} {i : ℕ} (hi : i ≤ 64)
    (h : 64 < i + cs.length) : checksumCase hash i cs = .error .panic := by
  induction cs generalizing i with
  | nil => exact absurd h (not_lt.mpr hi)
  | cons c cs ih =>
    rw [List.length_cons] at h
    rw [checksumCase]
    by_cases hbyte : i / 2 < hash.toList.length
    · have hlt : i < 64 := by
        rw [List.Vector.toList_length] at hbyte
        omega
      rw [item_of_lt hbyte, ok_bind, ih hlt (by omega)]
      rfl
    · rw [item_oob (not_lt.mp hbyte)]
      rfl

section

variable {keccak256 : Bytes → ByteVec 32} {addr out : Bytes}

theorem length_hexAddress (addr : Bytes) :
    ([0x30, 0x78] ++ Hex.encode addr).length = 2 + addr.length * 2 := by
  rw [List.length_append, Hex.length_encode, Nat.mul_comm]
  rfl

/-- Where there is room, the digits are written behind a zero and an x, and get their case. -/
theorem eip55ToSlice_eq (h : 2 + addr.length * 2 ≤ out.length) :
    eip55ToSlice keccak256 addr out =
      checksumCase (keccak256 (Hex.encode addr)) 0 (Hex.encode addr) >>= fun digits =>
        copy .panic ([0x30, 0x78] ++ Hex.encode addr) 2 (2 + addr.length * 2) digits >>= fun buf =>
          .ok (some (buf ++ out.drop (2 + addr.length * 2), 2 + addr.length * 2)) := by
  obtain ⟨a, b, rest, hout, hlen⟩ : ∃ a b rest,
      out.take (2 + addr.length * 2) = a :: b :: rest ∧ rest.length = 2 * addr.length := by
    have hlen := List.length_take_of_le h
    match out.take (2 + addr.length * 2), hlen with
    | a :: b :: rest, hlen =>
      refine ⟨a, b, rest, rfl, ?_⟩
      simp only [List.length_cons] at hlen
      omega
    | [], hlen =>
      simp only [List.length_nil] at hlen
      omega
    | [_], hlen =>
      simp only [List.length_cons, List.length_nil] at hlen
      omega
  have hzero : set Trap.panic (a :: b :: rest) 0 0x30 = .ok (0x30 :: b :: rest) := rfl
  have hx : set Trap.panic (0x30 :: b :: rest) 1 0x78 = .ok ([0x30, 0x78] ++ rest) := rfl
  have hpre : ([0x30, 0x78] : Bytes).length = 2 + 2 * 0 := rfl
  have hslice : slice Trap.panic ([0x30, 0x78] ++ Hex.encode addr) 2 (2 + addr.length * 2) =
      .ok (Hex.encode addr) := by
    rw [← length_hexAddress addr]
    exact slice_to_end (Nat.le_add_left 2 _)
  rw [eip55ToSlice, if_neg (not_lt.mpr h), hout]
  change (set Trap.panic (a :: b :: rest) 0 0x30 >>= _) = _
  rw [hzero, ok_bind, hx, ok_bind, writeHex_eq hpre hlen.ge, ok_bind, List.drop_of_length_le hlen.le,
    List.append_nil, hslice, ok_bind]
  rfl

theorem eip55ToSlice_panics (h : 2 + addr.length * 2 ≤ out.length) (hlong : 32 < addr.length) :
    eip55ToSlice keccak256 addr out = .error .panic := by
  rw [eip55ToSlice_eq h, checksumCase_panics _ (Nat.zero_le _) (by rw [Hex.length_encode]; omega)]
  rfl

theorem hexEncode_ascii (bs : Bytes) : ∀ c ∈ Hex.encode bs, c < 0x80 := by
  have hdigit : ∀ n < 16, Hex.digit n < 0x80 := by decide
  induction bs with
  | nil => exact fun c hc => nomatch hc
  | cons b bs ih =>
    have hb := b.toNat_lt
    exact List.forall_mem_cons.mpr ⟨hdigit _ (by omega),
      List.forall_mem_cons.mpr ⟨hdigit _ (by omega), ih⟩⟩

theorem eip55ToSlice_writes (h : 2 + addr.length * 2 ≤ out.length) (hshort : addr.length ≤ 32) :
    ∃ buf n, eip55ToSlice keccak256 addr out = .ok (some (buf, n)) ∧ ∀ c ∈ buf.take n, c < 0x80 := by
  have hdigits := Hex.length_encode addr
  obtain ⟨cs, hrun, hlen, hascii⟩ := @checksumCase_ok (keccak256 (Hex.encode addr)) (Hex.encode addr) 0
    (by omega) (hexEncode_ascii addr)
  have hcopy : copy Trap.panic ([0x30, 0x78] ++ Hex.encode addr) 2 (2 + addr.length * 2) cs =
      .ok ([0x30, 0x78] ++ cs) := by
    rw [← length_hexAddress addr, copy, if_pos ⟨Nat.le_add_left 2 _, le_rfl, hlen⟩, List.drop_length,
      List.append_nil]
    rfl
  refine ⟨_, _, by rw [eip55ToSlice_eq h, hrun, ok_bind, hcopy, ok_bind], ?_⟩
  have hcount : ([0x30, 0x78] ++ cs).length = 2 + addr.length * 2 := by
    rw [List.length_append, hlen, ← List.length_append, length_hexAddress]
  rw [List.take_left' hcount]
  exact List.forall_mem_cons.mpr ⟨by decide, List.forall_mem_cons.mpr ⟨by decide, hascii⟩⟩

end

end Outscript.Address
