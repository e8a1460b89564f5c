import Outscript.Library.Ascii
import Outscript.Library.Chunks
import Outscript.Library.Fallible
import Outscript.Library.GroupDigits
import Outscript.Library.Radix

/-!
# BBQr parts

A part is a header of eight characters and a piece of the file in hex or base32,
written in capitals and read in any letter case. What was written is read back.
-/
namespace Outscript.Bbqr

open ByteString Ascii Chunks Fallible GroupDigits Radix

def headerLen : ℕ := 8

/-- `ZZ` in base 36. -/
def maxParts : ℕ := 36 * 36 - 1

def base32Alphabet : Bytes := ofString "ABCDEFGHIJKLMNOPQRSTUVWXYZ234567"

def hexAlphabet : Bytes := ofString "0123456789ABCDEF"

inductive Error where
  | invalidHeader
  | unsupportedEncoding (c : UInt8)
  | invalidIndex
  | invalidEncoding
  | bufferTooSmall
  | invalidCompression
  | inconsistentPart
  | incomplete
  | tooLarge
  | tooManyParts
  | partTooSmall
  deriving DecidableEq, Repr

/-- How the data of each part is encoded. -/
inductive Encoding where
  | hex
  | base32
  /-- The file is compressed as a whole, then cut and encoded as base32. -/
  | zlib
  deriving DecidableEq, Repr

namespace Encoding

def asChar : Encoding → UInt8
  | .hex => 'H'.toUInt8
  | .base32 => '2'.toUInt8
  | .zlib => 'Z'.toUInt8

def fromChar (c : UInt8) : Option Encoding :=
  if c = 'H'.toUInt8 ∨ c = 'h'.toUInt8 then some .hex
  else if c = '2'.toUInt8 then some .base32
  else if c = 'Z'.toUInt8 ∨ c = 'z'.toUInt8 then some .zlib
  else none

/-- The smallest numbers of bytes and characters that stand for each other. -/
def group : Encoding → ℕ × ℕ
  | .hex => (1, 2)
  | .base32 | .zlib => (5, 8)

end Encoding

def isAlphanumeric (c : UInt8) : Bool := isUpper c || isLower c || isDigit c

theorem upper_alphanumeric {c : UInt8} (h : isAlphanumeric c = true) :
    (isUpper (upper c) || isDigit (upper c)) = true := by
  have hall := forall_byte (p := fun c => isAlphanumeric c = true →
    (isUpper (upper c) || isDigit (upper c)) = true) (by decide +kernel)
  exact hall c h

/-- What a file is, as one character: a capital or a digit. -/
structure FileType where
  byte : UInt8
  valid : (isUpper byte || isDigit byte) = true
  deriving DecidableEq

def FileType.psbt : FileType := ⟨'P'.toUInt8, by decide⟩

def FileType.fromChar (c : UInt8) : Option FileType :=
  if h : isAlphanumeric c = true then some ⟨upper c, upper_alphanumeric h⟩ else none

structure Header where
  encoding : Encoding
  fileType : FileType
  numParts : ℕ
  index : ℕ
  deriving DecidableEq

/-- Whether a text, taken as its bytes, can be cut at an offset. -/
def isCharBoundary (mid : ℕ) (text : Bytes) : Bool :=
  match text[mid]? with
  | some c => decide (c < 0x80 ∨ 0xc0 ≤ c)
  | none => mid == text.length

def splitAtChecked (mid : ℕ) (text : Bytes) : Option (Bytes × Bytes) :=
  if mid ≤ text.length ∧ isCharBoundary mid text = true then some (text.splitAt mid) else none

namespace Header

/-- Two digits in base 36. -/
def number (high low : UInt8) : Option ℕ := do
  let high ← toDigit 36 high
  let low ← toDigit 36 low
  return high * 36 + low

def digit (value : ℕ) : UInt8 :=
  (ofString "0123456789ABCDEFGHIJKLMNOPQRSTUVWXYZ").getD (value % 36) 0

/-- Splits a part into its header and the encoded data that follows. -/
def parse (part : Bytes) : Except Error (Header × Bytes) := do
  let (header, body) ← okOr (splitAtChecked headerLen part) .invalidHeader
  match header with
  | [b, dollar, encoding, fileType, n1, n0, i1, i0] =>
    if ¬ ((b = 'B'.toUInt8 ∨ b = 'b'.toUInt8) ∧ dollar = '$'.toUInt8) then throw .invalidHeader
    let fileType ← okOr (FileType.fromChar fileType) .invalidHeader
    let numParts ← okOr (number n1 n0) .invalidHeader
    let index ← okOr (number i1 i0) .invalidHeader
    if isAlphanumeric encoding = false then throw .invalidHeader
    let encoding ← okOr (Encoding.fromChar encoding) (.unsupportedEncoding encoding)
    if numParts = 0 ∨ numParts ≤ index then throw .invalidIndex
    return ({ encoding, fileType, numParts, index }, body)
  | _ => throw .invalidHeader

/-- The eight characters of a header. -/
def toBytes (h : Header) : Except Error Bytes :=
  if h.numParts = 0 ∨ maxParts < h.numParts ∨ h.numParts ≤ h.index then .error .invalidIndex
  else
    .ok ['B'.toUInt8, '$'.toUInt8, h.encoding.asChar, h.fileType.byte, digit (h.numParts / 36),
      digit h.numParts, digit (h.index / 36), digit h.index]

end Header

/-- The number of characters `n` bytes are encoded as. -/
def encodedLen (encoding : Encoding) (n : ℕ) : ℕ :=
  match encoding with
  | .hex => n * 2
  | .base32 | .zlib => n * 8 ⌈/⌉ 5

/-- An upper bound on the number of bytes `n` characters are decoded to. -/
def decodedLenBound (encoding : Encoding) (n : ℕ) : ℕ :=
  match encoding with
  | .hex => n / 2
  | .base32 | .zlib => n * 5 / 8

/-! ## Writing -/

def hexChars (byte : UInt8) : Bytes :=
  [hexAlphabet.getD (byte >>> 4).toNat 0, hexAlphabet.getD (byte &&& 15).toNat 0]

/-- The 64-bit number that a group of up to five bytes makes, filled up with zeros. -/
def groupBits (bytes : Bytes) : ℕ :=
  beVal (List.replicate 3 0 ++ bytes ++ List.replicate (5 - bytes.length) 0)

def base32Chars (count : ℕ) (bytes : Bytes) : Bytes :=
  (List.range count).map fun i =>
    base32Alphabet.getD ((groupBits bytes >>> (35 - 5 * i)) &&& 31) 0

def encodeBody (encoding : Encoding) (data body : Bytes) : Bytes :=
  match encoding with
  | .hex =>
    Id.run (overwrite (fun _ byte => pure (hexChars byte)) (asChunks 2 body) data) ++
      body.drop (body.length / 2 * 2)
  | .base32 | .zlib =>
    Id.run (overwrite (fun chars bytes => pure (base32Chars chars.length bytes)) (chunks 8 body)
      (chunks 5 data))

/-- Writes a part into `out`: the number of characters written and the buffer. -/
def encodePartToSlice (header : Header) (data out : Bytes) : Except Error (ℕ × Bytes) := do
  let len := headerLen + encodedLen header.encoding data.length
  if out.length < len then throw .bufferTooSmall
  let head ← header.toBytes
  let body := (out.take len).drop headerLen
  return (len, head ++ encodeBody header.encoding data body ++ out.drop len)

/-! ## Reading -/

def hexByte (pair : Bytes) : Except Error Bytes := do
  let high ← okOr (toDigit 16 (pair.getD 0 0)) .invalidEncoding
  let low ← okOr (toDigit 16 (pair.getD 1 0)) .invalidEncoding
  return [UInt8.ofNat ((high <<< 4) ||| low)]

def base32Value (c : UInt8) : Option ℕ :=
  let c := upper c
  if 65 ≤ c ∧ c ≤ 90 then some (c - 65).toNat
  else if 50 ≤ c ∧ c ≤ 55 then some (c - 50 + 26).toNat
  else none

def base32Bytes (count : ℕ) (chars : Bytes) : Except Error Bytes := do
  let bits ← chars.foldlM (fun bits c => do
    let value ← okOr (base32Value c) .invalidEncoding
    return (bits <<< 5) ||| value) 0
  let group := (be 8 (bits <<< (5 * (8 - chars.length)))).drop 3
  -- The bits that do not make a byte must be zeros.
  if (group.drop count).any (fun b => b != 0) = true then throw .invalidEncoding
  return group.take count

def decodeBody (encoding : Encoding) (body out : Bytes) : Except Error (ℕ × Bytes) :=
  match encoding with
  | .hex => do
    if body.length % 2 ≠ 0 then throw .invalidEncoding
    let len := body.length / 2
    if out.length < len then throw .bufferTooSmall
    let written ← overwrite (fun _ pair => hexByte pair) ((out.take len).map fun b => [b])
      (asChunks 2 body)
    return (len, written ++ out.drop len)
  | .base32 | .zlib => do
    -- 2, 4, 5 and 7 characters stand for 1 to 4 bytes, and 1, 3 or 6 for nothing.
    if body.length % 8 = 1 ∨ body.length % 8 = 3 ∨ body.length % 8 = 6 then throw .invalidEncoding
    let len := body.length * 5 / 8
    if out.length < len then throw .bufferTooSmall
    let written ← overwrite (fun bytes chars => base32Bytes bytes.length chars)
      (chunks 5 (out.take len)) (chunks 8 body)
    return (len, written ++ out.drop len)

/-- Decodes a part into `out`: its header, the number of bytes written and the buffer. -/
def decodePartToSlice (part out : Bytes) : Except Error (Header × ℕ × Bytes) := do
  let (header, body) ← Header.parse part
  let (len, out) ← decodeBody header.encoding body out
  return (header, len, out)

/-! ## Letter case -/

/-- What a character stands for does not depend on its letter case. -/
theorem reads_lower (c : UInt8) :
    Encoding.fromChar (lower c) = Encoding.fromChar c ∧
      (isAlphanumeric (lower c) = isAlphanumeric c ∧ upper (lower c) = upper c) ∧
      (toDigit 36 (lower c) = toDigit 36 c ∧ toDigit 16 (lower c) = toDigit 16 c ∧
        base32Value (lower c) = base32Value c) ∧ (lower c < 0x80 ↔ c < 0x80) := by
  revert c
  exact forall_byte (by decide +kernel)

theorem lower_cases (c : UInt8) : (lower c = lower 'B'.toUInt8 → c = 'B'.toUInt8 ∨ c = 'b'.toUInt8) ∧
    (lower c = lower '$'.toUInt8 → c = '$'.toUInt8) := by
  revert c
  exact forall_byte (by decide +kernel)

theorem Encoding.fromChar_eq {c : UInt8} {encoding : Encoding} (h : lower c = lower encoding.asChar) :
    fromChar c = some encoding ∧ isAlphanumeric c = true := by
  have hchar : fromChar encoding.asChar = some encoding ∧ isAlphanumeric encoding.asChar = true := by
    cases encoding <;> exact ⟨rfl, rfl⟩
  rw [← (reads_lower c).1, ← (reads_lower c).2.1.1, h, (reads_lower _).1, (reads_lower _).2.1.1]
  exact hchar

theorem FileType.fromChar_eq {c : UInt8} {fileType : FileType} (h : lower c = lower fileType.byte) :
    fromChar c = some fileType := by
  have hcapital := forall_byte (p := fun c => (isUpper c || isDigit c) = true →
    isAlphanumeric c = true ∧ upper c = c) (by decide +kernel) fileType.byte fileType.valid
  have halnum : isAlphanumeric c = true := by
    rw [← (reads_lower c).2.1.1, h, (reads_lower _).2.1.1, hcapital.1]
  have hbyte : upper c = fileType.byte := by
    rw [← (reads_lower c).2.1.2, h, (reads_lower _).2.1.2, hcapital.2]
  rw [fromChar, dif_pos halnum]
  simp only [hbyte]

theorem toDigit_eq {c c' : UInt8} (h : lower c = lower c') :
    toDigit 36 c = toDigit 36 c' ∧ toDigit 16 c = toDigit 16 c' := by
  obtain ⟨-, -, ⟨h36, h16, -⟩, -⟩ := reads_lower c
  obtain ⟨-, -, ⟨h36', h16', -⟩, -⟩ := reads_lower c'
  exact ⟨by rw [← h36, h, h36'], by rw [← h16, h, h16']⟩

theorem base32Value_eq {c c' : UInt8} (h : lower c = lower c') : base32Value c = base32Value c' := by
  rw [← (reads_lower c).2.2.1.2.2, h, (reads_lower c').2.2.1.2.2]

/-- A text in letters of any case is cut where the other one is. -/
theorem exists_append_of_toLower {t a b : Bytes} (h : toLower t = toLower (a ++ b)) :
    ∃ a' b', t = a' ++ b' ∧ toLower a' = toLower a ∧ toLower b' = toLower b := by
  rw [toLower_append] at h
  exact List.map_eq_append_iff.mp h

theorem exists_append_of_length {l : Bytes} {m n : ℕ} (h : l.length = m + n) :
    ∃ a b, l = a ++ b ∧ a.length = m ∧ b.length = n := by
  refine ⟨l.take m, l.drop m, (List.take_append_drop m l).symm, ?_, ?_⟩
  · rw [List.length_take]
    omega
  · rw [List.length_drop]
    omega

theorem ascii_of_toLower {t s : Bytes} (h : toLower t = toLower s) (hs : ∀ c ∈ s, c < 0x80) :
    ∀ c ∈ t, c < 0x80 := by
  have hall : ∀ c ∈ toLower s, c < 0x80 :=
    List.forall_mem_map.mpr fun c hc => (reads_lower c).2.2.2.mpr (hs c hc)
  rw [← h] at hall
  exact fun c hc => (reads_lower c).2.2.2.mp (hall _ (List.mem_map_of_mem hc))

/-! ## Headers -/

theorem splitAtChecked_append {a b : Bytes} (h : ∀ c ∈ b, c < 0x80) :
    splitAtChecked a.length (a ++ b) = some (a, b) := by
  have hboundary : isCharBoundary a.length (a ++ b) = true := by
    rw [isCharBoundary, List.getElem?_append_right le_rfl, Nat.sub_self]
    cases b with
    | nil => simp
    | cons c b => simpa using Or.inl (h c List.mem_cons_self)
  have hle : a.length ≤ (a ++ b).length := by simp
  rw [splitAtChecked, if_pos ⟨hle, hboundary⟩, List.splitAt_eq, List.take_left, List.drop_left]

namespace Header

theorem toDigit_digit (value : ℕ) : toDigit 36 (digit value) = some (value % 36) := by
  have hall : ∀ d < 36, toDigit 36 (digit d) = some d := by decide
  have hmod : digit (value % 36) = digit value := by rw [digit, digit, Nat.mod_mod]
  rw [← hmod]
  exact hall _ (Nat.mod_lt _ (by decide))

theorem number_eq {high low : UInt8} {value : ℕ} (hvalue : value ≤ maxParts)
    (hhigh : lower high = lower (digit (value / 36))) (hlow : lower low = lower (digit value)) :
    number high low = some value := by
  have hmax : value ≤ 1295 := hvalue
  have hsplit : value / 36 % 36 * 36 + value % 36 = value := by omega
  rw [number, (toDigit_eq hhigh).1, (toDigit_eq hlow).1, toDigit_digit, toDigit_digit]
  exact congrArg some hsplit

theorem toBytes_eq_ok {h : Header} {head : Bytes} : h.toBytes = .ok head ↔
    (0 < h.numParts ∧ h.numParts ≤ maxParts ∧ h.index < h.numParts) ∧
      head = ['B'.toUInt8, '$'.toUInt8, h.encoding.asChar, h.fileType.byte, digit (h.numParts / 36),
        digit h.numParts, digit (h.index / 36), digit h.index] := by
  rw [toBytes]
  split_ifs with hbad
  · refine iff_of_false (fun h => nomatch h) ?_
    rintro ⟨hgood, -⟩
    omega
  · rw [Except.ok.injEq, eq_comm]
    exact iff_and_self.mpr (fun _ => by omega)

theorem length_toBytes {h : Header} {head : Bytes} (hhead : h.toBytes = .ok head) :
    head.length = headerLen := by
  rw [(toBytes_eq_ok.mp hhead).2]
  rfl

/-- A header is read back in any letter case. -/
theorem parse_toBytes {h : Header} {head : Bytes} (hhead : h.toBytes = .ok head) {t body : Bytes}
    (ht : toLower t = toLower (head ++ body)) (hbody : ∀ c ∈ body, c < 0x80) :
    ∃ body', parse t = .ok (h, body') ∧ toLower body' = toLower body := by
  obtain ⟨⟨hpos, hmax, hindex⟩, rfl⟩ := toBytes_eq_ok.mp hhead
  obtain ⟨front, body', rfl, hfront, hlower⟩ := exists_append_of_toLower ht
  refine ⟨body', ?_, hlower⟩
  simp only [toLower, List.map_cons, List.map_nil, List.map_eq_cons_iff, List.map_eq_nil_iff] at hfront
  obtain ⟨b, _, rfl, hb, dollar, _, rfl, hdollar, encoding, _, rfl, hencoding, fileType, _, rfl,
    hfileType, n1, _, rfl, hn1, n0, _, rfl, hn0, i1, _, rfl, hi1, i0, _, rfl, hi0, rfl⟩ := hfront
  have hsplit : splitAtChecked headerLen
      ([b, dollar, encoding, fileType, n1, n0, i1, i0] ++ body') =
        some ([b, dollar, encoding, fileType, n1, n0, i1, i0], body') :=
    @splitAtChecked_append [b, dollar, encoding, fileType, n1, n0, i1, i0] body'
      (ascii_of_toLower hlower hbody)
  have hmark : ¬ ¬ ((b = 'B'.toUInt8 ∨ b = 'b'.toUInt8) ∧ dollar = '$'.toUInt8) :=
    not_not.mpr ⟨(lower_cases b).1 hb, (lower_cases dollar).2 hdollar⟩
  have hrange : ¬ (h.numParts = 0 ∨ h.numParts ≤ h.index) := by omega
  rw [parse, hsplit, okOr_some, ok_bind]
  simp only [if_neg hmark, FileType.fromChar_eq hfileType, number_eq hmax hn1 hn0,
    number_eq (hindex.le.trans hmax) hi1 hi0, Encoding.fromChar_eq hencoding, okOr_some, ok_bind,
    if_neg hrange, Bool.true_eq_false, if_false]
  rfl

end Header

/-! ## Groups -/

/-- The characters of a body, however the buffer was before. -/
def spelling (encoding : Encoding) (data : Bytes) : Bytes :=
  match encoding with
  | .hex => data.flatMap hexChars
  | .base32 | .zlib => (chunks 5 data).flatMap fun bytes => base32Chars (bytes.length * 8 ⌈/⌉ 5) bytes

theorem hexByte_hexChars {byte : UInt8} {pair : Bytes} (h : toLower pair = toLower (hexChars byte)) :
    hexByte pair = .ok [byte] := by
  have hall := forall_byte (p := fun byte => hexByte (hexChars byte) = .ok [byte]) (by decide +kernel)
  simp only [toLower, hexChars, List.map_cons, List.map_nil, List.map_eq_cons_iff,
    List.map_eq_nil_iff] at h
  obtain ⟨high, _, rfl, hhigh, low, _, rfl, hlow, rfl⟩ := h
  rw [← hall byte, hexByte, hexByte]
  simp only [hexChars, List.getD_cons_zero, List.getD_cons_succ, (toDigit_eq hhigh).2,
    (toDigit_eq hlow).2]

def base32At (v : ℕ) : UInt8 := base32Alphabet.getD v 0

theorem base32Value_base32At (v : ℕ) (h : v < 2 ^ 5) : base32Value (base32At v) = some v := by
  have hall : ∀ v < 2 ^ 5, base32Value (base32At v) = some v := by decide
  exact hall v h

theorem groupBits_eq (bytes : Bytes) : groupBits bytes = filled 5 bytes := by
  rw [groupBits, List.append_assoc, beVal_replicate, filled]

theorem base32Chars_eq {bytes : Bytes} {k : ℕ} (hk : k ≤ 8) :
    base32Chars k bytes = letters base32At 5 8 5 k bytes := by
  refine List.map_congr_left fun i hi => ?_
  have hshift : 35 - 5 * i = 5 * (8 - 1 - i) := by
    have hi := List.mem_range.mp hi
    omega
  rw [hshift, groupBits_eq]
  rfl

/-- A group is read back in any letter case. -/
theorem base32Bytes_base32Chars {bytes chars : Bytes} (h : bytes.length ≤ 5)
    (hchars : toLower chars = toLower (base32Chars (bytes.length * 8 ⌈/⌉ 5) bytes)) :
    base32Bytes bytes.length chars = .ok bytes := by
  set k := bytes.length * 8 ⌈/⌉ 5 with hk
  rw [Nat.ceilDiv_eq_add_pred_div] at hk
  have hk8 : k ≤ 8 := by omega
  have hlen : chars.length = k := by
    have hlen := congrArg List.length hchars
    rwa [length_toLower, length_toLower, base32Chars, List.length_map, List.length_range] at hlen
  have hvalues : chars.map base32Value = (letters base32At 5 8 5 k bytes).map base32Value := by
    have hlower (l : Bytes) : (toLower l).map base32Value = l.map base32Value := by
      rw [toLower, List.map_map]
      exact List.map_congr_left fun c _ => base32Value_eq (lower_lower c)
    rw [← hlower chars, hchars, hlower, base32Chars_eq hk8]
  obtain ⟨bits, hbits, hfilled⟩ := @read_letters 5 8 5 Error base32At base32Value .invalidEncoding chars
    base32Value_base32At rfl bytes h k hk8 (by omega) hvalues
  have hgroup : (be 8 (filled 5 bytes)).drop 3 = bytes ++ List.replicate (5 - bytes.length) 0 :=
    (drop_be 3 5 _).trans (be_filled h)
  have hzeros : ((List.replicate (5 - bytes.length) (0 : UInt8)).any fun b => b != 0) = false := by
    rw [List.any_replicate]
    simp
  rw [base32Bytes, hbits, ok_bind, hlen]
  simp only [hfilled, hgroup, List.drop_left, hzeros, Bool.false_eq_true, if_false, List.take_left]
  rfl

/-! ## Bodies -/

/-- The number of characters that the bytes of a group take. -/
theorem groupLen_spec {c rest : Bytes} (hc : c ≠ []) (hle : c.length ≤ 5)
    (hrest : rest = [] ∨ c.length = 5) :
    0 < c.length * 8 ⌈/⌉ 5 ∧ c.length * 8 ⌈/⌉ 5 ≤ 8 ∧ (rest = [] ∨ c.length * 8 ⌈/⌉ 5 = 8) ∧
      (c ++ rest).length * 8 ⌈/⌉ 5 = c.length * 8 ⌈/⌉ 5 + rest.length * 8 ⌈/⌉ 5 := by
  have hpos : 0 < c.length := List.length_pos_iff.mpr hc
  simp only [Nat.ceilDiv_eq_add_pred_div, List.length_append]
  rcases hrest with rfl | hfull
  · rw [List.length_nil]
    exact ⟨by omega, by omega, Or.inl rfl, by omega⟩
  · exact ⟨by omega, by omega, Or.inr (by omega), by omega⟩

theorem spelling_append {c rest : Bytes} (hc : c ≠ []) (hle : c.length ≤ 5)
    (hrest : rest = [] ∨ c.length = 5) :
    spelling .base32 (c ++ rest) =
      base32Chars (c.length * 8 ⌈/⌉ 5) c ++ spelling .base32 rest := by
  simp only [spelling]
  rw [chunks_append hc hle hrest, List.flatMap_cons]

theorem length_base32Chars (count : ℕ) (bytes : Bytes) : (base32Chars count bytes).length = count := by
  rw [base32Chars, List.length_map, List.length_range]

theorem length_spelling (encoding : Encoding) (data : Bytes) :
    (spelling encoding data).length = encodedLen encoding data.length := by
  have hbase32 : (spelling .base32 data).length = data.length * 8 ⌈/⌉ 5 := by
    refine @chunk_induction UInt8 5 (by decide)
      (fun data => (spelling .base32 data).length = data.length * 8 ⌈/⌉ 5) rfl ?_ data
    intro c rest hc hle hrest ih
    rw [spelling_append hc hle hrest, List.length_append, length_base32Chars, ih,
      (groupLen_spec hc hle hrest).2.2.2]
  cases encoding with
  | hex =>
    have hpair : (fun byte => (hexChars byte).length) = fun _ => 2 := rfl
    rw [spelling, List.length_flatMap, hpair, List.map_const', List.sum_replicate]
    rfl
  | base32 => exact hbase32
  | zlib => exact hbase32

theorem ascii_spelling (encoding : Encoding) (data : Bytes) : ∀ c ∈ spelling encoding data, c < 0x80 := by
  have hhex (byte : UInt8) : ∀ c ∈ hexChars byte, c < 0x80 := by
    have hall := forall_byte (p := fun byte => (hexChars byte).all (· < 0x80) = true)
      (by decide +kernel) byte
    simpa using hall
  have hdigit : ∀ v < 32, base32Alphabet.getD v 0 < 0x80 := by decide
  have hchars (count : ℕ) (bytes : Bytes) : ∀ c ∈ base32Chars count bytes, c < 0x80 :=
    List.forall_mem_map.mpr fun i _ => hdigit _ (Nat.and_lt_two_pow _ (by decide : 31 < 2 ^ 5))
  intro c hc
  cases encoding with
  | hex =>
    obtain ⟨byte, -, hc⟩ := List.mem_flatMap.mp hc
    exact hhex byte c hc
  | base32 | zlib =>
    obtain ⟨bytes, -, hc⟩ := List.mem_flatMap.mp hc
    exact hchars _ bytes c hc

/-- A loop over the pairs of a buffer overwrites all of it. -/
theorem encodeHex_eq {data body : Bytes} (h : body.length = data.length * 2) :
    Id.run (overwrite (fun _ byte => pure (hexChars byte)) (asChunks 2 body) data) =
      data.flatMap hexChars := by
  induction data generalizing body with
  | nil =>
    rw [List.length_nil, Nat.zero_mul, List.length_eq_zero_iff] at h
    rw [h]
    rfl
  | cons b data ih =>
    have hfront : (body.take 2).length = 2 := by
      rw [List.length_take, h, List.length_cons]
      omega
    have hrest : (body.drop 2).length = data.length * 2 := by
      rw [List.length_drop, h, List.length_cons]
      omega
    rw [← List.take_append_drop 2 body, asChunks_cons (by decide) hfront, List.flatMap_cons, ← ih hrest]
    rfl

theorem encodeBase32_eq {data body : Bytes} (h : body.length = data.length * 8 ⌈/⌉ 5) :
    Id.run (overwrite (fun chars bytes => pure (base32Chars chars.length bytes)) (chunks 8 body)
      (chunks 5 data)) = spelling .base32 data := by
  refine @overwrite_chunks UInt8 UInt8 5 data 8 (by decide) (fun l => l * 8 ⌈/⌉ 5)
    (fun chars bytes => base32Chars chars.length bytes) _ rfl ?_ ?_ ?_ body h
  · intro l hpos hle
    simp only [Nat.ceilDiv_eq_add_pred_div]
    omega
  · intro l
    simp only [Nat.ceilDiv_eq_add_pred_div]
    omega
  · intro c d _ _ hd
    rw [hd]

/-- A buffer holds what was written, whatever it held before. -/
theorem encodeBody_eq {encoding : Encoding} {data body : Bytes}
    (h : body.length = encodedLen encoding data.length) :
    encodeBody encoding data body = spelling encoding data := by
  cases encoding with
  | hex =>
    have hrest : body.drop (body.length / 2 * 2) = [] := by
      rw [List.drop_eq_nil_iff, h, encodedLen]
      omega
    rw [encodeBody, encodeHex_eq h, hrest, List.append_nil, spelling]
  | base32 | zlib => exact encodeBase32_eq h

theorem decodeHex_eq {data t out : Bytes} (ht : toLower t = toLower (data.flatMap hexChars))
    (hout : out.length = data.length) :
    overwrite (fun _ pair => hexByte pair) (out.map fun b => [b]) (asChunks 2 t) = .ok data := by
  induction data generalizing t out with
  | nil =>
    rw [List.length_nil, List.length_eq_zero_iff] at hout
    rw [List.flatMap_nil, toLower_nil, toLower, List.map_eq_nil_iff] at ht
    rw [ht, hout]
    rfl
  | cons b data ih =>
    obtain ⟨pair, t, rfl, hpair, ht⟩ := exists_append_of_toLower ht
    have hlen : pair.length = 2 := by
      rw [← length_toLower, hpair]
      rfl
    cases out with
    | nil => cases hout
    | cons o out =>
      rw [asChunks_cons (by decide) hlen, List.map_cons, overwrite, hexByte_hexChars hpair,
        ih ht (Nat.succ.inj hout)]
      rfl

theorem decodeBase32_eq {data t out : Bytes} (ht : toLower t = toLower (spelling .base32 data))
    (hout : out.length = data.length) :
    overwrite (fun bytes chars => base32Bytes bytes.length chars) (chunks 5 out) (chunks 8 t) =
      .ok data := by
  revert t out
  refine @chunk_induction UInt8 5 (by decide) (fun data => ∀ {t out : Bytes},
    toLower t = toLower (spelling .base32 data) → out.length = data.length →
      overwrite (fun bytes chars => base32Bytes bytes.length chars) (chunks 5 out) (chunks 8 t) =
        .ok data) ?_ ?_ data
  · intro t out ht hout
    have hnil : spelling .base32 [] = [] := rfl
    rw [List.length_nil, List.length_eq_zero_iff] at hout
    rw [hnil, toLower_nil, toLower, List.map_eq_nil_iff] at ht
    rw [ht, hout, chunks_nil, chunks_nil]
    rfl
  · intro c rest hc hle hrest ih t out ht hout
    obtain ⟨hpos, hmax, hlast, -⟩ := groupLen_spec hc hle hrest
    rw [List.length_append] at hout
    rw [spelling_append hc hle hrest] at ht
    obtain ⟨chars, t, rfl, hchars, ht⟩ := exists_append_of_toLower ht
    obtain ⟨bytes, out, rfl, hbytes, hout⟩ := exists_append_of_length hout
    have hlen : chars.length = c.length * 8 ⌈/⌉ 5 := by
      rw [← length_toLower, hchars, length_toLower, length_base32Chars]
    have hchars_ne : chars ≠ [] := by
      rw [← List.length_pos_iff, hlen]
      exact hpos
    have hbytes_ne : bytes ≠ [] := by
      rw [← List.length_pos_iff, hbytes]
      exact List.length_pos_iff.mpr hc
    have hcut : t = [] ∨ chars.length = 8 := by
      rw [hlen]
      refine hlast.imp_left fun hnil => ?_
      have hspell : spelling .base32 [] = [] := rfl
      rw [hnil, hspell, toLower_nil, toLower, List.map_eq_nil_iff] at ht
      exact ht
    have hcut' : out = [] ∨ bytes.length = 5 := by
      rw [hbytes]
      refine hrest.imp_left fun hnil => ?_
      rw [hnil, List.length_nil] at hout
      exact List.length_eq_zero_iff.mp hout
    rw [chunks_append hbytes_ne (by omega) hcut', chunks_append hchars_ne (by omega) hcut, overwrite,
      hbytes, base32Bytes_base32Chars hle hchars, ih ht hout]
    rfl

/-- What was written is read back in any letter case. -/
theorem decodeBody_eq {encoding : Encoding} {data t out : Bytes}
    (ht : toLower t = toLower (spelling encoding data)) (hout : data.length ≤ out.length) :
    decodeBody encoding t out = .ok (data.length, data ++ out.drop data.length) := by
  have hlen : t.length = encodedLen encoding data.length := by
    rw [← length_toLower, ht, length_toLower, length_spelling]
  have htake : (out.take data.length).length = data.length := List.length_take_of_le hout
  have hroom : ¬ out.length < data.length := Nat.not_lt.mpr hout
  cases encoding with
  | hex =>
    rw [encodedLen] at hlen
    have heven : ¬ t.length % 2 ≠ 0 := by omega
    have hhalf : t.length / 2 = data.length := by omega
    simp only [decodeBody, if_neg heven, hhalf, if_neg hroom]
    rw [decodeHex_eq ht htake]
    rfl
  | base32 | zlib =>
    rw [encodedLen, Nat.ceilDiv_eq_add_pred_div] at hlen
    have hwhole : ¬ (t.length % 8 = 1 ∨ t.length % 8 = 3 ∨ t.length % 8 = 6) := by omega
    have hcount : t.length * 5 / 8 = data.length := by omega
    simp only [decodeBody, if_neg hwhole, hcount, if_neg hroom]
    rw [decodeBase32_eq ht htake]
    rfl

/-! ## Parts -/

/-- The text of a part. -/
theorem encodePartToSlice_eq {header : Header} {head : Bytes} (hhead : header.toBytes = .ok head)
    {data out : Bytes} (hout : headerLen + encodedLen header.encoding data.length ≤ out.length) :
    encodePartToSlice header data out =
      .ok (headerLen + encodedLen header.encoding data.length,
        head ++ spelling header.encoding data ++
          out.drop (headerLen + encodedLen header.encoding data.length)) := by
  have hbody : ((out.take (headerLen + encodedLen header.encoding data.length)).drop
      headerLen).length = encodedLen header.encoding data.length := by
    rw [List.length_drop, List.length_take_of_le hout, Nat.add_sub_cancel_left]
  simp only [encodePartToSlice, if_neg (Nat.not_lt.mpr hout), hhead, encodeBody_eq hbody]
  rfl

/-- A part is read back in any letter case. -/
theorem decodePartToSlice_eq {header : Header} {head : Bytes} (hhead : header.toBytes = .ok head)
    {data t out : Bytes} (ht : toLower t = toLower (head ++ spelling header.encoding data))
    (hout : data.length ≤ out.length) :
    decodePartToSlice t out = .ok (header, data.length, data ++ out.drop data.length) := by
  obtain ⟨body, hparse, hbody⟩ := Header.parse_toBytes hhead ht (ascii_spelling _ data)
  rw [decodePartToSlice, hparse, ok_bind]
  simp only [decodeBody_eq hbody hout, ok_bind]
  rfl

end Outscript.Bbqr
