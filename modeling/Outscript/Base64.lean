import Outscript.Library.Ascii
import Outscript.Library.Chunks
import Outscript.Library.GroupDigits

/-!
# Base64

Three bytes are four characters, and one or two bytes at the end two or three
with padding behind them. What is accepted is what would be written: there is no
padding in front of the last group, and the bits that make no byte are zeros.
-/
namespace Outscript.Base64

open ByteString Ascii Chunks Fallible GroupDigits

def alphabet : Bytes := ofString "ABCDEFGHIJKLMNOPQRSTUVWXYZabcdefghijklmnopqrstuvwxyz0123456789+/"

/-- Errors from base64 operations. -/
inductive Error where
  | invalidEncoding
  | bufferTooSmall
  deriving DecidableEq, Repr

/-- The encoded length of `n` bytes. -/
def encodedLen (n : ℕ) : ℕ := n ⌈/⌉ 3 * 4

/-- An upper bound on the decoded length of `n` characters. -/
def decodedLenBound (n : ℕ) : ℕ := n / 4 * 3

def padding : UInt8 := '='.toUInt8

/-- Writes a group of up to three bytes into `count` characters. -/
def encodeChunk (count : ℕ) (chunk : Bytes) : Bytes :=
  let v := (chunk.getD 0 0).toNat <<< 16 ||| (chunk.getD 1 0).toNat <<< 8 ||| (chunk.getD 2 0).toNat
  (List.range count).map fun i =>
    if i ≤ chunk.length then alphabet.getD ((v >>> (18 - 6 * i)) &&& 63) 0 else padding

/-- Encodes `data` into `out`: the number of characters written and the buffer. -/
def encodeToSlice (data out : Bytes) : Except Error (ℕ × Bytes) :=
  let len := encodedLen data.length
  if out.length < len then .error .bufferTooSmall
  else
    .ok (len, Id.run (overwrite (fun dst chunk => pure (encodeChunk dst.length chunk))
      (chunks 4 (out.take len)) (chunks 3 data)) ++ out.drop len)

def value (c : UInt8) : Option ℕ :=
  if 'A'.toUInt8 ≤ c ∧ c ≤ 'Z'.toUInt8 then some (c - 'A'.toUInt8).toNat
  else if 'a'.toUInt8 ≤ c ∧ c ≤ 'z'.toUInt8 then some (c - 'a'.toUInt8 + 26).toNat
  else if '0'.toUInt8 ≤ c ∧ c ≤ '9'.toUInt8 then some (c - '0'.toUInt8 + 52).toNat
  else if c = '+'.toUInt8 then some 62
  else if c = '/'.toUInt8 then some 63
  else none

/-- Decodes the group with number `g` of so many into `out` at `pos`. -/
def decodeChunk (groups : ℕ) : ℕ × Bytes → Bytes × ℕ → Except Error (ℕ × Bytes)
  | (pos, out), (chunk, g) => do
    let pad := (chunk.reverse.takeWhile (· = padding)).length
    if 2 < pad ∨ (0 < pad ∧ g + 1 ≠ groups) then throw .invalidEncoding
    let v ← (chunk.take (4 - pad)).foldlM (fun v c => do
      let value ← okOr (value c) .invalidEncoding
      return (v <<< 6) ||| value) 0
    let v := v <<< (6 * pad)
    -- the bits dropped by padding must be zero
    if 0 < pad ∧ v &&& ((1 <<< (8 * pad)) - 1) ≠ 0 then throw .invalidEncoding
    let n := 3 - pad
    if out.length < pos + n then throw .bufferTooSmall
    return (pos + n, splice out pos (((be 4 v).drop 1).take n))

/-- Decodes `text` into `out`: the number of bytes written and the buffer. -/
def decodeToSlice (text out : Bytes) : Except Error (ℕ × Bytes) :=
  if text.length % 4 ≠ 0 then .error .invalidEncoding
  else (chunks 4 text).zipIdx.foldlM (decodeChunk (text.length / 4)) (0, out)

/-- The text of `data`; nothing where the function panics. -/
def encode (data : Bytes) : Option Bytes :=
  match encodeToSlice data (List.replicate (encodedLen data.length) 0) with
  | .ok (_, buf) => fromUtf8 buf
  | .error _ => none

def decode (text : Bytes) : Except Error Bytes := do
  let (n, buf) ← decodeToSlice text (List.replicate (decodedLenBound text.length) 0)
  return buf.take n

/-! ## Groups -/

def charAt (v : ℕ) : UInt8 := alphabet.getD v 0

theorem alphabet_checked :
    (∀ v < 64, value (charAt v) = some v ∧ charAt v ≠ padding ∧ charAt v < 0x80) ∧
      ∀ n < 256, (value (UInt8.ofNat n)).all
        (fun v => v < 64 && charAt v == UInt8.ofNat n && UInt8.ofNat n != padding) = true := by
  decide +kernel

theorem charAt_of_value (c : UInt8) (v : ℕ) (h : value c = some v) : v < 2 ^ 6 ∧ charAt v = id c := by
  have hall := forall_byte (p := fun c => (value c).all
    (fun v => v < 64 && charAt v == c && c != padding) = true) alphabet_checked.2 c
  rw [h] at hall
  simp only [Option.all_some, Bool.and_eq_true, decide_eq_true_eq, beq_iff_eq] at hall
  exact hall.1

/-- The text of a group. -/
def groupText (bytes : Bytes) : Bytes :=
  letters charAt 6 4 3 (bytes.length + 1) bytes ++ List.replicate (3 - bytes.length) padding

theorem length_groupText {bytes : Bytes} (h : bytes.length ≤ 3) : (groupText bytes).length = 4 := by
  rw [groupText, List.length_append, length_letters, List.length_replicate]
  omega

/-- Three bytes, some of which may be missing, as one number. -/
theorem filled_three {bytes : Bytes} (h : bytes.length ≤ 3) :
    (bytes.getD 0 0).toNat <<< 16 ||| (bytes.getD 1 0).toNat <<< 8 ||| (bytes.getD 2 0).toNat =
      filled 3 bytes := by
  have hthree (a b c : UInt8) :
      a.toNat <<< 16 ||| b.toNat <<< 8 ||| c.toNat = beVal [a, b, c] := by
    have hb : b.toNat <<< 8 < 2 ^ 16 := by
      have := b.toNat_lt
      rw [Nat.shiftLeft_eq]
      omega
    have hc : c.toNat < 2 ^ 8 := c.toNat_lt
    have hsum : a.toNat <<< 16 + b.toNat <<< 8 = (a.toNat * 256 + b.toNat) <<< 8 := by
      rw [Nat.shiftLeft_eq, Nat.shiftLeft_eq, Nat.shiftLeft_eq]
      omega
    rw [← Nat.shiftLeft_add_eq_or_of_lt hb, hsum, ← Nat.shiftLeft_add_eq_or_of_lt hc, Nat.shiftLeft_eq]
    simp only [beVal, leVal, List.reverse_cons, List.reverse_nil, List.nil_append, List.cons_append]
    omega
  rcases bytes with _ | ⟨a, _ | ⟨b, _ | ⟨c, _ | ⟨d, rest⟩⟩⟩⟩
  · rfl
  · exact hthree a 0 0
  · exact hthree a b 0
  · exact hthree a b c
  · simp only [List.length_cons] at h
    omega

theorem encodeChunk_eq {bytes : Bytes} (h : bytes.length ≤ 3) : encodeChunk 4 bytes = groupText bytes := by
  have hcount : List.range 4 = List.range (bytes.length + 1) ++
      (List.range (3 - bytes.length)).map (bytes.length + 1 + ·) := by
    rw [← List.range_add]
    congr 1
    omega
  rw [encodeChunk, filled_three h, hcount, List.map_append, groupText]
  refine congrArg₂ _ (List.map_congr_left fun i hi => ?_) ?_
  · have hi := List.mem_range.mp hi
    have hshift : 18 - 6 * i = 6 * (4 - 1 - i) := by omega
    rw [if_pos (by omega), hshift]
    rfl
  · rw [List.map_map, List.eq_replicate_iff]
    refine ⟨by rw [List.length_map, List.length_range], List.forall_mem_map.mpr fun i _ => ?_⟩
    exact if_neg (Nat.not_le.mpr (by change bytes.length < bytes.length + 1 + i; omega))

theorem takeWhile_padding {front : Bytes} (h : ∀ c ∈ front, c ≠ padding) (n : ℕ) :
    ((front ++ List.replicate n padding).reverse.takeWhile (· = padding)).length = n := by
  have hpad : ∀ c ∈ List.replicate n padding, decide (c = padding) = true := fun c hc =>
    decide_eq_true (List.eq_of_mem_replicate hc)
  have hnone : front.reverse.takeWhile (· = padding) = [] := by
    cases hrev : front.reverse with
    | nil => rfl
    | cons c rest =>
      have hc : c ∈ front := List.mem_reverse.mp (hrev ▸ List.mem_cons_self)
      rw [List.takeWhile_cons, decide_eq_false (h c hc), if_neg (Bool.false_ne_true)]
  rw [List.reverse_append, List.reverse_replicate, List.takeWhile_append_of_pos hpad, hnone,
    List.append_nil, List.length_replicate]

/-- The padding of a chunk stands behind the rest of it. -/
theorem exists_padding (chunk : Bytes) :
    ∃ front, chunk = front ++ List.replicate (chunk.reverse.takeWhile (· = padding)).length padding := by
  refine ⟨(chunk.reverse.dropWhile (· = padding)).reverse, ?_⟩
  have hall : (chunk.reverse.takeWhile (· = padding)).reverse =
      List.replicate (chunk.reverse.takeWhile (· = padding)).length padding := by
    refine List.eq_replicate_iff.mpr ⟨List.length_reverse, fun c hc => ?_⟩
    exact of_decide_eq_true (List.all_eq_true.mp List.all_takeWhile c (List.mem_reverse.mp hc))
  rw [← hall, ← List.reverse_append, List.takeWhile_append_dropWhile, List.reverse_reverse]

/-- The bits that are dropped are zeros if the bytes are. -/
theorem any_drop_be {v n : ℕ} (hn : n ≤ 3) :
    ((be 3 v).drop n).any (fun b => b != 0) = false ↔ v &&& (2 ^ (8 * (3 - n)) - 1) = 0 := by
  have hdrop : (be 3 v).drop n = be (3 - n) v := by
    have hsplit : n + (3 - n) = 3 := Nat.add_sub_cancel' hn
    have hdrop := drop_be n (3 - n) v
    rwa [hsplit] at hdrop
  have hvalue : beVal (be (3 - n) v) = v % 2 ^ (8 * (3 - n)) := by
    rw [beVal, be, List.reverse_reverse, leVal_le, Nat.pow_mul]
  rw [hdrop, Nat.and_two_pow_sub_one_eq_mod, ← hvalue]
  constructor
  · intro h
    have hzeros : be (3 - n) v = List.replicate (3 - n) 0 := by
      refine List.eq_replicate_iff.mpr ⟨length_be _ _, fun b hb => ?_⟩
      simpa using List.any_eq_false.mp h b hb
    rw [hzeros, beVal, List.reverse_replicate, leVal_replicate]
  · intro h
    have hbe := be_beVal (be (3 - n) v)
    have hzero : beVal (List.replicate (3 - n) 0) = 0 := by
      rw [beVal, List.reverse_replicate, leVal_replicate]
    have hzeros := be_beVal (List.replicate (3 - n) 0)
    rw [h, length_be] at hbe
    rw [hzero, List.length_replicate, hbe] at hzeros
    rw [hzeros, List.any_replicate]
    simp

/-- What a group can be decoded to: it is the text of one to three bytes, of
three if others follow, and there is room for them. -/
theorem decodeChunk_eq_ok {groups pos g : ℕ} {out chunk : Bytes} (hchunk : chunk.length = 4)
    {r : ℕ × Bytes} :
    decodeChunk groups (pos, out) (chunk, g) = .ok r ↔
      ∃ bytes : Bytes, chunk = groupText bytes ∧ 0 < bytes.length ∧ bytes.length ≤ 3 ∧
        (bytes.length = 3 ∨ g + 1 = groups) ∧ pos + bytes.length ≤ out.length ∧
          r = (pos + bytes.length, splice out pos bytes) := by
  constructor
  · intro h
    obtain ⟨front, hfront⟩ := exists_padding chunk
    rw [decodeChunk] at h
    set pad := (chunk.reverse.takeWhile (· = padding)).length with hpad
    have hlen : front.length = 4 - pad := by
      have hlen := congrArg List.length hfront
      rw [List.length_append, List.length_replicate, hchunk] at hlen
      omega
    have htake : chunk.take (4 - pad) = front := by rw [hfront, List.take_left' hlen]
    by_cases hplace : 2 < pad ∨ (0 < pad ∧ g + 1 ≠ groups)
    · rw [if_pos hplace] at h
      cases h
    rw [if_neg hplace, htake] at h
    obtain ⟨-, -, h⟩ := bind_eq_ok.mp h
    obtain ⟨bits, hbits, h⟩ := bind_eq_ok.mp h
    by_cases hbad : 0 < pad ∧ bits <<< (6 * pad) &&& ((1 <<< (8 * pad)) - 1) ≠ 0
    · rw [if_pos hbad] at h
      cases h
    by_cases hroom : out.length < pos + (3 - pad)
    · rw [if_neg hbad, if_pos hroom] at h
      cases h
    rw [if_neg hbad, if_neg hroom] at h
    cases h
    have hpads : 4 - front.length = pad := by omega
    have hzeros : ((be 3 (bits <<< (6 * (4 - front.length)))).drop (3 - pad)).any (fun b => b != 0) =
        false := by
      rw [any_drop_be (Nat.sub_le 3 pad), hpads, Nat.sub_sub_self (by omega)]
      rcases Nat.eq_zero_or_pos pad with hzero | hpos
      · rw [hzero, Nat.mul_zero, Nat.pow_zero, Nat.sub_self, Nat.and_zero]
      · rw [Nat.shiftLeft_eq _ (8 * pad), Nat.one_mul] at hbad
        exact not_not.mp fun hne => hbad ⟨hpos, hne⟩
    have hletters := letters_of_read charAt_of_value rfl (hlen.trans_le (Nat.sub_le 4 pad)) hbits hzeros
    have hdrop := drop_be 1 3 (bits <<< (6 * pad))
    rw [List.map_id, hpads] at hletters
    set bytes := (be 3 (bits <<< (6 * pad))).take (3 - pad) with hbytes
    have hcount : bytes.length = 3 - pad := by
      rw [hbytes, List.length_take, length_be, Nat.min_eq_left (Nat.sub_le 3 pad)]
    have hwhole : front.length = bytes.length + 1 := by omega
    refine ⟨bytes, ?_, by omega, by omega, by omega, by omega, ?_⟩
    · rw [hfront, groupText, hcount, Nat.sub_sub_self (by omega), hletters, hwhole, hcount]
    · rw [hcount, hbytes]
      exact congrArg (fun t : Bytes => (pos + (3 - pad), splice out pos (t.take (3 - pad)))) hdrop
  · rintro ⟨bytes, rfl, hpos, hle, hlast, hroom, rfl⟩
    have hletters : ∀ c ∈ letters charAt 6 4 3 (bytes.length + 1) bytes, c ≠ padding :=
      List.forall_mem_map.mpr fun i _ => (alphabet_checked.1 _ (digit_lt _ i)).2.1
    have hpad : ((groupText bytes).reverse.takeWhile (· = padding)).length = 3 - bytes.length :=
      takeWhile_padding hletters _
    have htake : (groupText bytes).take (4 - (3 - bytes.length)) =
        letters charAt 6 4 3 (bytes.length + 1) bytes := by
      rw [groupText, List.take_left']
      rw [length_letters]
      omega
    obtain ⟨bits, hbits, hfilled⟩ := @read_letters 6 4 3 Error charAt value .invalidEncoding
      (letters charAt 6 4 3 (bytes.length + 1) bytes) (fun v hv => (alphabet_checked.1 v hv).1) rfl
      bytes hle (bytes.length + 1) (by omega) (by omega) rfl
    have hshift : 6 * (3 - bytes.length) = 6 * (4 - (bytes.length + 1)) := by omega
    have hvalue : filled 3 bytes &&& ((1 <<< (8 * (3 - bytes.length))) - 1) = 0 := by
      rw [Nat.shiftLeft_eq, Nat.one_mul, Nat.and_two_pow_sub_one_eq_mod, filled_eq, Nat.mul_mod_left]
    have hbytes : ((be 4 (filled 3 bytes)).drop 1).take bytes.length = bytes := by
      rw [drop_be 1 3, be_filled hle, List.take_left]
    have hplace : ¬ (2 < 3 - bytes.length ∨ (0 < 3 - bytes.length ∧ g + 1 ≠ groups)) := by omega
    have hroom' : ¬ out.length < pos + bytes.length := by omega
    have hcount : 3 - (3 - bytes.length) = bytes.length := by omega
    simp only [decodeChunk, hpad, htake, if_neg hplace, hbits, ok_bind, hshift, hfilled, hvalue,
      if_neg hroom', ne_eq, not_true_eq_false, and_false, if_false, hcount, hbytes]
    rfl

/-! ## Texts -/

/-- The text of a byte string. -/
def textOf (data : Bytes) : Bytes := (chunks 3 data).flatMap groupText

theorem textOf_append {c rest : Bytes} (hc : c ≠ []) (hle : c.length ≤ 3)
    (hrest : rest = [] ∨ c.length = 3) : textOf (c ++ rest) = groupText c ++ textOf rest := by
  rw [textOf, chunks_append hc hle hrest, List.flatMap_cons, textOf]

theorem length_textOf (data : Bytes) : (textOf data).length = encodedLen data.length := by
  induction data using chunk_induction (by decide : 0 < 3) with
  | nil => rfl
  | append c rest hc hle hrest ih =>
    have hpos := List.length_pos_iff.mpr hc
    rw [textOf_append hc hle hrest, List.length_append, length_groupText hle, ih, List.length_append]
    simp only [encodedLen, Nat.ceilDiv_eq_add_pred_div]
    rcases hrest with rfl | hfull
    · rw [List.length_nil]
      omega
    · omega

theorem ascii_textOf (data : Bytes) : ∀ c ∈ textOf data, c < 0x80 := by
  intro c hc
  obtain ⟨bytes, -, hc⟩ := List.mem_flatMap.mp hc
  rcases List.mem_append.mp hc with hc | hc
  · obtain ⟨i, -, rfl⟩ := List.mem_map.mp hc
    exact (alphabet_checked.1 _ (digit_lt _ i)).2.2
  · rw [List.eq_of_mem_replicate hc]
    decide

/-- The encoder writes the text of its input. -/
theorem encodeToSlice_eq {data out : Bytes} (hout : encodedLen data.length ≤ out.length) :
    encodeToSlice data out =
      .ok (encodedLen data.length, textOf data ++ out.drop (encodedLen data.length)) := by
  have hwritten := @overwrite_chunks UInt8 UInt8 3 data 4 (by decide) encodedLen
    (fun dst chunk => encodeChunk dst.length chunk) groupText (by decide) ?_ ?_ ?_
    (out.take (encodedLen data.length)) (List.length_take_of_le hout)
  · simp only [encodeToSlice, if_neg (Nat.not_lt.mpr hout)]
    rw [hwritten, textOf]
  · intro l hpos hle
    simp only [encodedLen, Nat.ceilDiv_eq_add_pred_div]
    omega
  · intro l
    simp only [encodedLen, Nat.ceilDiv_eq_add_pred_div]
    omega
  · intro c d hne hle hd
    have hpos := List.length_pos_iff.mpr hne
    have hfour : d.length = 4 := by
      rw [hd, encodedLen, Nat.ceilDiv_eq_add_pred_div]
      omega
    rw [hfour]
    exact encodeChunk_eq hle

theorem encode_eq (data : Bytes) : encode data = some (textOf data) := by
  have hroom : encodedLen data.length ≤ (List.replicate (encodedLen data.length) (0 : UInt8)).length := by
    rw [List.length_replicate]
  rw [encode, encodeToSlice_eq hroom, List.drop_of_length_le List.length_replicate.le, List.append_nil]
  exact fromUtf8_of_ascii (ascii_textOf data)

theorem textOf_eq_nil {data : Bytes} (h : textOf data = []) : data = [] := by
  have hlen := length_textOf data
  rw [h, List.length_nil, encodedLen, Nat.ceilDiv_eq_add_pred_div] at hlen
  exact List.eq_nil_of_length_eq_zero (by omega)

/-- A run over the groups from a position is the text of what it writes there. -/
theorem decodeChunks_eq_ok {groups : ℕ} {cs : List Bytes} (hcs : ∀ c ∈ cs, c.length = 4) {g pos : ℕ}
    (hgroups : g + cs.length = groups) {out : Bytes} (hpos : pos ≤ out.length) {r : ℕ × Bytes} :
    (cs.zipIdx g).foldlM (decodeChunk groups) (pos, out) = .ok r ↔
      ∃ data : Bytes, cs.flatten = textOf data ∧ pos + data.length ≤ out.length ∧
        r = (pos + data.length, splice out pos data) := by
  induction cs generalizing g pos out with
  | nil =>
    constructor
    · intro h
      cases h
      refine ⟨[], rfl, hpos, ?_⟩
      rw [splice, List.length_nil, Nat.add_zero, List.nil_append, List.take_append_drop]
    · rintro ⟨data, hdata, -, rfl⟩
      rw [textOf_eq_nil hdata.symm, splice, List.length_nil, Nat.add_zero, List.nil_append,
        List.take_append_drop]
      rfl
  | cons c cs ih =>
    obtain ⟨hc, htail⟩ := List.forall_mem_cons.mp hcs
    rw [List.length_cons] at hgroups
    rw [List.zipIdx_cons, List.foldlM_cons, bind_eq_ok]
    constructor
    · rintro ⟨s, hs, h⟩
      obtain ⟨bytes, rfl, hne, hle, hlast, hroom, rfl⟩ := (decodeChunk_eq_ok hc).mp hs
      have hlen := length_splice hroom
      obtain ⟨data, hdata, hroom', rfl⟩ := (ih htail (by omega) (hroom.trans hlen.ge)).mp h
      have hcut : data = [] ∨ bytes.length = 3 := by
        refine hlast.symm.imp_left fun hend => textOf_eq_nil ?_
        rw [← hdata, List.eq_nil_of_length_eq_zero (by omega : cs.length = 0), List.flatten_nil]
      refine ⟨bytes ++ data, ?_, ?_, ?_⟩
      · rw [List.flatten_cons, hdata, textOf_append (List.length_pos_iff.mp hne) hle hcut]
      · rw [List.length_append]
        omega
      · rw [splice_splice hroom, List.length_append, Nat.add_assoc]
    · rintro ⟨data, hdata, hroom, rfl⟩
      obtain ⟨bytes, rest, hne, hle, hcut, rfl⟩ : ∃ bytes rest : Bytes, bytes ≠ [] ∧ bytes.length ≤ 3 ∧
          (rest = [] ∨ bytes.length = 3) ∧ data = bytes ++ rest := by
        cases data using chunk_induction (by decide : 0 < 3) with
        | nil =>
          have hlen := congrArg List.length hdata
          rw [List.flatten_cons, List.length_append, hc] at hlen
          change 4 + _ = 0 at hlen
          omega
        | append bytes rest hne hle hcut => exact ⟨bytes, rest, hne, hle, hcut, rfl⟩
      rw [List.flatten_cons, textOf_append hne hle hcut] at hdata
      obtain ⟨hgroup, hrest⟩ := List.append_inj hdata (hc.trans (length_groupText hle).symm)
      rw [List.length_append] at hroom
      have hroom' : pos + bytes.length ≤ out.length := by omega
      have hlen := length_splice hroom'
      have hlast : bytes.length = 3 ∨ g + 1 = groups := by
        refine hcut.symm.imp_right fun hnil => ?_
        cases cs with
        | nil => rwa [List.length_nil] at hgroups
        | cons c' cs =>
          have hlen := congrArg List.length hrest
          rw [List.flatten_cons, List.length_append, htail c' List.mem_cons_self, hnil] at hlen
          change 4 + _ = 0 at hlen
          omega
      refine ⟨_, (decodeChunk_eq_ok hc).mpr ⟨bytes, hgroup, List.length_pos_iff.mpr hne, hle, hlast,
        hroom', rfl⟩, (ih htail (by omega) (hroom'.trans hlen.ge)).mpr ⟨rest, hrest, by omega, ?_⟩⟩
      rw [splice_splice hroom', List.length_append, Nat.add_assoc]

theorem chunks_four {text : Bytes} (h : text.length % 4 = 0) :
    (∀ c ∈ chunks 4 text, c.length = 4) ∧ (chunks 4 text).length = text.length / 4 := by
  have hcount : text.length ⌈/⌉ 4 = text.length / 4 := by
    rw [Nat.ceilDiv_eq_add_pred_div]
    omega
  rw [length_chunks, chunks, hcount]
  exact ⟨length_of_mem_chunksFrom (Nat.div_mul_le_self _ _), rfl⟩

/-- What is accepted is the text of what is written. -/
theorem decodeToSlice_eq_ok {text out : Bytes} {r : ℕ × Bytes} :
    decodeToSlice text out = .ok r ↔ ∃ data : Bytes, text = textOf data ∧ data.length ≤ out.length ∧
      r = (data.length, data ++ out.drop data.length) := by
  have hsplice (data : Bytes) : splice out 0 data = data ++ out.drop data.length := by
    rw [splice, Nat.zero_add, List.take_zero, List.nil_append]
  rw [decodeToSlice]
  split_ifs with hlen
  · refine iff_of_false (by rintro ⟨⟩) ?_
    rintro ⟨data, rfl, -⟩
    rw [length_textOf, encodedLen] at hlen
    omega
  · rw [ne_eq, not_not] at hlen
    obtain ⟨hchunks, hcount⟩ := chunks_four hlen
    rw [decodeChunks_eq_ok hchunks (by rw [Nat.zero_add, hcount]) (Nat.zero_le _),
      flatten_chunks (by decide)]
    simp only [Nat.zero_add, hsplice]

/-! ## Room -/

/-- A group lacks no room where three bytes fit. -/
theorem room_of_decodeChunk {groups pos g : ℕ} {out chunk : Bytes}
    (h : decodeChunk groups (pos, out) (chunk, g) = .error .bufferTooSmall) : out.length < pos + 3 := by
  rw [decodeChunk] at h
  set pad := (chunk.reverse.takeWhile (· = padding)).length
  split_ifs at h with hplace
  · cases h
  rcases bind_eq_error.mp h with h | ⟨bits, -, h⟩
  · obtain ⟨-, c, -, v, -, -, hc⟩ := foldlM_eq_error.mp h
    cases hvalue : value c with
    | none =>
      rw [hvalue] at hc
      cases hc
    | some v' =>
      rw [hvalue] at hc
      cases hc
  · by_cases hbad : 0 < pad ∧ bits <<< (6 * pad) &&& ((1 <<< (8 * pad)) - 1) ≠ 0
    · rw [if_pos hbad] at h
      cases h
    by_cases hroom : out.length < pos + (3 - pad)
    · omega
    · rw [if_neg hbad, if_neg hroom] at h
      cases h

/-- No run lacks room in a buffer of the bound. -/
theorem decodeChunks_ne_bufferTooSmall {groups : ℕ} {cs : List Bytes} (hcs : ∀ c ∈ cs, c.length = 4)
    {g pos : ℕ} {out : Bytes} (hroom : pos + 3 * cs.length ≤ out.length) :
    (cs.zipIdx g).foldlM (decodeChunk groups) (pos, out) ≠ .error .bufferTooSmall := by
  induction cs generalizing g pos out with
  | nil => exact fun h => nomatch h
  | cons c cs ih =>
    obtain ⟨hc, htail⟩ := List.forall_mem_cons.mp hcs
    rw [List.length_cons] at hroom
    rw [List.zipIdx_cons, List.foldlM_cons]
    intro h
    rcases bind_eq_error.mp h with h | ⟨s, hs, h⟩
    · have hlack := room_of_decodeChunk h
      omega
    · obtain ⟨bytes, -, -, hle, -, hfit, rfl⟩ := (decodeChunk_eq_ok hc).mp hs
      have hlen := length_splice hfit
      exact ih htail (by omega) h

theorem decodeToSlice_ne_bufferTooSmall {text out : Bytes}
    (hout : decodedLenBound text.length ≤ out.length) :
    decodeToSlice text out ≠ .error .bufferTooSmall := by
  rw [decodeToSlice]
  split_ifs with hlen
  · exact fun h => nomatch h
  · rw [ne_eq, not_not] at hlen
    obtain ⟨hchunks, hcount⟩ := chunks_four hlen
    rw [decodedLenBound] at hout
    exact decodeChunks_ne_bufferTooSmall hchunks (by omega)

/-! ## Canonical texts -/

/-- What is written is decoded again, in so many characters, and what is decoded
is written again; a buffer of the bound always suffices. -/
theorem canonical :
    (∀ data out : Bytes, encodedLen data.length ≤ out.length → ∃ buf,
      encodeToSlice data out = .ok (encodedLen data.length, buf) ∧
      ∀ back : Bytes, data.length ≤ back.length →
        decodeToSlice (buf.take (encodedLen data.length)) back =
          .ok (data.length, data ++ back.drop data.length)) ∧
    (∀ data : Bytes, ∃ text, encode data = some text ∧ text.length = encodedLen data.length ∧
      decode text = .ok data) ∧
    (∀ text out : Bytes, ∀ n buf, decodeToSlice text out = .ok (n, buf) →
      encode (buf.take n) = some text ∧ ∀ back : Bytes, text.length ≤ back.length →
        encodeToSlice (buf.take n) back = .ok (text.length, text ++ back.drop text.length)) ∧
    ∀ text out : Bytes, decodedLenBound text.length ≤ out.length →
      decodeToSlice text out ≠ .error .bufferTooSmall := by
  refine ⟨fun data out hout => ?_, fun data => ?_, fun text out n buf h => ?_,
    fun text out => decodeToSlice_ne_bufferTooSmall⟩
  · refine ⟨_, encodeToSlice_eq hout, fun back hback => ?_⟩
    rw [List.take_left' (length_textOf data)]
    exact decodeToSlice_eq_ok.mpr ⟨data, rfl, hback, rfl⟩
  · have hbound : data.length ≤ (List.replicate (decodedLenBound (textOf data).length) (0 : UInt8)).length := by
      rw [List.length_replicate, length_textOf, decodedLenBound, encodedLen, Nat.ceilDiv_eq_add_pred_div]
      omega
    refine ⟨textOf data, encode_eq data, length_textOf data, ?_⟩
    rw [decode, decodeToSlice_eq_ok.mpr ⟨data, rfl, hbound, rfl⟩, ok_bind]
    exact congrArg Except.ok List.take_left
  · obtain ⟨data, rfl, -, hr⟩ := decodeToSlice_eq_ok.mp h
    cases hr
    rw [List.take_left]
    refine ⟨encode_eq data, fun back hback => ?_⟩
    rw [length_textOf] at hback ⊢
    exact encodeToSlice_eq hback

theorem canonical_sample :
    (∃ text, encode [1] = some text ∧ text.length = 4 ∧ decode text = .ok [1]) ∧
      decodeToSlice (ofString "AQ==") [0, 0, 0] ≠ .error .bufferTooSmall :=
  ⟨canonical.2.1 [1], canonical.2.2.2 (ofString "AQ==") [0, 0, 0] (by decide)⟩

end Outscript.Base64
