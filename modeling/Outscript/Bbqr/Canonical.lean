import Outscript.Bbqr.Part

/-!
# One spelling for each part

A part that is accepted is the one that its header and its data are written as,
but for letter case.
-/
namespace Outscript.Bbqr

open ByteString Ascii Chunks Fallible GroupDigits Radix

/-- What is read from a character is written as its capital. -/
theorem writes_upper (c : UInt8) :
    (Encoding.fromChar c).all (fun e => upper c == e.asChar) = true ∧
      (toDigit 36 c).all (fun d => d < 36 && upper c == Header.digit d) = true ∧
      (toDigit 16 c).all (fun d => d < 16 && upper c == hexAlphabet.getD d 0) = true ∧
      (base32Value c).all (fun v => v < 32 && upper c == base32At v) = true := by
  revert c
  exact forall_byte (by decide +kernel)

theorem Encoding.upper_of_fromChar {c : UInt8} {encoding : Encoding} (h : fromChar c = some encoding) :
    upper c = encoding.asChar := by
  have hall := (writes_upper c).1
  rw [h] at hall
  exact beq_iff_eq.mp hall

theorem FileType.upper_of_fromChar {c : UInt8} {fileType : FileType} (h : fromChar c = some fileType) :
    upper c = fileType.byte := by
  rw [fromChar] at h
  split_ifs at h
  cases h
  rfl

theorem base32At_of_value (c : UInt8) (v : ℕ) (h : base32Value c = some v) :
    v < 2 ^ 5 ∧ base32At v = upper c := by
  have hall := (writes_upper c).2.2.2
  rw [h] at hall
  simp only [Option.all_some, Bool.and_eq_true, decide_eq_true_eq, beq_iff_eq] at hall
  exact ⟨hall.1, hall.2.symm⟩

namespace Header

theorem upper_of_number {high low : UInt8} {value : ℕ} (h : number high low = some value) :
    value ≤ maxParts ∧ upper high = digit (value / 36) ∧ upper low = digit value := by
  have hdigit {c : UInt8} {d : ℕ} (hc : toDigit 36 c = some d) : d < 36 ∧ upper c = digit d := by
    have hall := (writes_upper c).2.1
    rw [hc] at hall
    simpa only [Option.all_some, Bool.and_eq_true, decide_eq_true_eq, beq_iff_eq] using hall
  obtain ⟨d, hd, h⟩ := Option.bind_eq_some_iff.mp h
  obtain ⟨d', hd', h⟩ := Option.bind_eq_some_iff.mp h
  cases h
  obtain ⟨hlt, hupper⟩ := hdigit hd
  obtain ⟨hlt', hupper'⟩ := hdigit hd'
  have hdiv : (d * 36 + d') / 36 = d := by omega
  have hmod : digit (d * 36 + d') = digit d' := by rw [digit, digit, Nat.mul_add_mod_self_right]
  have hmax : maxParts = 1295 := rfl
  rw [hdiv, hmod, hupper, hupper']
  exact ⟨by omega, rfl, rfl⟩

theorem splitAtChecked_eq_some {mid : ℕ} {text front back : Bytes}
    (h : splitAtChecked mid text = some (front, back)) : text = front ++ back := by
  rw [splitAtChecked] at h
  split_ifs at h
  rw [Option.some.injEq, List.splitAt_eq, Prod.mk.injEq] at h
  rw [← h.1, ← h.2, List.take_append_drop]

/-- A header that is accepted is written as its capitals. -/
theorem toBytes_of_parse {part body : Bytes} {header : Header} (h : parse part = .ok (header, body)) :
    ∃ head, header.toBytes = .ok head ∧ toUpper part = head ++ toUpper body := by
  rw [parse] at h
  obtain ⟨⟨front, rest⟩, hsplit, hrest⟩ := bind_eq_ok.mp h
  rw [splitAtChecked_eq_some (okOr_eq_ok.mp hsplit)]
  clear h hsplit
  rename' hrest => h
  dsimp only at h
  split at h
  case h_2 => cases h
  rename_i b dollar encoding fileType n1 n0 i1 i0
  by_cases hmark : (b = 'B'.toUInt8 ∨ b = 'b'.toUInt8) ∧ dollar = '$'.toUInt8
  case neg =>
    rw [if_pos hmark] at h
    cases h
  rw [if_neg (not_not.mpr hmark)] at h
  obtain ⟨-, -, h⟩ := bind_eq_ok.mp h
  obtain ⟨type, htype, h⟩ := bind_eq_ok.mp h
  obtain ⟨numParts, hnum, h⟩ := bind_eq_ok.mp h
  obtain ⟨index, hindex, h⟩ := bind_eq_ok.mp h
  by_cases halnum : isAlphanumeric encoding = false
  · rw [if_pos halnum] at h
    cases h
  rw [if_neg halnum] at h
  obtain ⟨enc, henc, h⟩ := bind_eq_ok.mp h
  by_cases hrange : numParts = 0 ∨ numParts ≤ index
  · rw [if_pos hrange] at h
    cases h
  rw [if_neg hrange] at h
  cases h
  obtain ⟨hmax, hn1, hn0⟩ := upper_of_number (okOr_eq_ok.mp hnum)
  obtain ⟨-, hi1, hi0⟩ := upper_of_number (okOr_eq_ok.mp hindex)
  have hb : upper b = 'B'.toUInt8 := by
    rcases hmark.1 with rfl | rfl <;> rfl
  have hdollar : upper dollar = '$'.toUInt8 := by
    rw [hmark.2]
    rfl
  refine ⟨_, toBytes_eq_ok.mpr ⟨by dsimp only; omega, rfl⟩, ?_⟩
  simp only [toUpper, List.map_append, List.map_cons, List.map_nil, hb, hdollar, hn1, hn0, hi1, hi0,
    Encoding.upper_of_fromChar (okOr_eq_ok.mp henc), FileType.upper_of_fromChar (okOr_eq_ok.mp htype)]

end Header

/-! ## Bodies -/

theorem hexChars_of_hexByte {pair bytes : Bytes} (hpair : pair.length = 2) (h : hexByte pair = .ok bytes) :
    bytes.length = 1 ∧ toUpper pair = bytes.flatMap hexChars := by
  have hread {c : UInt8} {d : ℕ} (hc : toDigit 16 c = some d) :
      d < 16 ∧ upper c = hexAlphabet.getD d 0 := by
    have hall := (writes_upper c).2.2.1
    rw [hc] at hall
    simpa only [Option.all_some, Bool.and_eq_true, decide_eq_true_eq, beq_iff_eq] using hall
  have hchars : ∀ high < 16, ∀ low < 16, hexChars (UInt8.ofNat ((high <<< 4) ||| low)) =
      [hexAlphabet.getD high 0, hexAlphabet.getD low 0] := by decide
  obtain ⟨a, b, rfl⟩ := List.length_eq_two.mp hpair
  obtain ⟨high, hhigh, h⟩ := bind_eq_ok.mp h
  obtain ⟨low, hlow, h⟩ := bind_eq_ok.mp h
  cases h
  obtain ⟨hlt, hupper⟩ := hread (okOr_eq_ok.mp hhigh)
  obtain ⟨hlt', hupper'⟩ := hread (okOr_eq_ok.mp hlow)
  refine ⟨rfl, ?_⟩
  rw [List.flatMap_singleton, hchars high hlt low hlt', ← hupper, ← hupper']
  rfl

theorem spelling_of_decodeHex {body out data : Bytes} (hbody : body.length = 2 * out.length)
    (h : overwrite (fun _ pair => hexByte pair) (out.map fun b => [b]) (asChunks 2 body) = .ok data) :
    data.length = out.length ∧ toUpper body = data.flatMap hexChars := by
  induction out generalizing body data with
  | nil =>
    rw [List.eq_nil_of_length_eq_zero hbody]
    cases h
    exact ⟨rfl, rfl⟩
  | cons o out ih =>
    rw [List.length_cons] at hbody
    obtain ⟨pair, body, rfl, hpair, hrest⟩ := @exists_append_of_length body 2 (2 * out.length) (by omega)
    rw [asChunks_cons (by decide) hpair, List.map_cons, overwrite] at h
    obtain ⟨bytes, hbytes, h⟩ := bind_eq_ok.mp h
    obtain ⟨rest, hdata, h⟩ := bind_eq_ok.mp h
    cases h
    obtain ⟨hlen, hspell⟩ := hexChars_of_hexByte hpair hbytes
    obtain ⟨hlen', hspell'⟩ := ih hrest hdata
    rw [toUpper] at hspell hspell'
    rw [toUpper, List.map_append, hspell, hspell', List.flatMap_append, List.length_append, hlen, hlen',
      List.length_cons, Nat.add_comm]
    exact ⟨rfl, rfl⟩

theorem base32Chars_of_base32Bytes {count : ℕ} {chars bytes : Bytes} (hle : chars.length ≤ 8)
    (hcount : chars.length = count * 8 ⌈/⌉ 5) (h : base32Bytes count chars = .ok bytes) :
    bytes.length = count ∧ toUpper chars = base32Chars (count * 8 ⌈/⌉ 5) bytes := by
  obtain ⟨bits, hbits, h⟩ := bind_eq_ok.mp h
  have hgroup := drop_be 3 5 (bits <<< (5 * (8 - chars.length)))
  rw [hgroup] at h
  by_cases hstray : ((be 5 (bits <<< (5 * (8 - chars.length)))).drop count).any (fun b => b != 0) = true
  · rw [if_pos hstray] at h
    cases h
  rw [if_neg hstray] at h
  cases h
  have hfive : count ≤ 5 := by
    rw [Nat.ceilDiv_eq_add_pred_div] at hcount
    omega
  have hletters := letters_of_read base32At_of_value rfl hle hbits (Bool.not_eq_true _ ▸ hstray)
  rw [← hcount, base32Chars_eq hle, List.length_take, length_be, Nat.min_eq_left hfive]
  exact ⟨rfl, hletters⟩

/-- Numbers of characters that stand for whole bytes. -/
theorem decodedLen_append {c rest : Bytes} (hc : c ≠ []) (hle : c.length ≤ 8)
    (hrest : rest = [] ∨ c.length = 8)
    (hwhole : ¬ ((c ++ rest).length % 8 = 1 ∨ (c ++ rest).length % 8 = 3 ∨ (c ++ rest).length % 8 = 6)) :
    (c ++ rest).length * 5 / 8 = c.length * 5 / 8 + rest.length * 5 / 8 ∧ 0 < c.length * 5 / 8 ∧
      c.length * 5 / 8 ≤ 5 ∧ (rest = [] ∨ c.length * 5 / 8 = 5) ∧
      c.length = (c.length * 5 / 8) * 8 ⌈/⌉ 5 ∧
      ¬ (rest.length % 8 = 1 ∨ rest.length % 8 = 3 ∨ rest.length % 8 = 6) := by
  have hpos := List.length_pos_iff.mpr hc
  rw [List.length_append] at hwhole ⊢
  rw [Nat.ceilDiv_eq_add_pred_div]
  have hsmall : ∀ k ≤ 8, 0 < k → ¬ (k % 8 = 1 ∨ k % 8 = 3 ∨ k % 8 = 6) →
      0 < k * 5 / 8 ∧ k = (k * 5 / 8 * 8 + 5 - 1) / 5 := by decide
  rcases hrest with rfl | hfull
  · rw [List.length_nil, Nat.add_zero] at hwhole
    obtain ⟨hbytes, hcount⟩ := hsmall _ hle hpos hwhole
    rw [List.length_nil]
    exact ⟨by omega, hbytes, by omega, Or.inl rfl, hcount, by omega⟩
  · exact ⟨by omega, by omega, by omega, Or.inr (by omega), by omega, by omega⟩

theorem spelling_of_decodeBase32 {body out data : Bytes}
    (hwhole : ¬ (body.length % 8 = 1 ∨ body.length % 8 = 3 ∨ body.length % 8 = 6))
    (hout : out.length = body.length * 5 / 8)
    (h : overwrite (fun bytes chars => base32Bytes bytes.length chars) (chunks 5 out) (chunks 8 body) =
      .ok data) :
    data.length = out.length ∧ toUpper body = spelling .base32 data := by
  induction body using chunk_induction (by decide : 0 < 8) generalizing out data with
  | nil =>
    rw [List.eq_nil_of_length_eq_zero hout] at h ⊢
    cases h
    exact ⟨rfl, rfl⟩
  | append chars rest hne hle hrest ih =>
    obtain ⟨hsum, hpos, hfive, hlast, hcount, hwhole'⟩ := decodedLen_append hne hle hrest hwhole
    rw [hsum] at hout
    obtain ⟨front, back, rfl, hfront, hback⟩ := exists_append_of_length hout
    have hcut : back = [] ∨ front.length = 5 := by
      rw [hfront]
      refine hlast.imp_left fun hnil => ?_
      rw [hnil] at hback
      exact List.eq_nil_of_length_eq_zero hback
    have hne' : front ≠ [] := by
      rw [← List.length_pos_iff, hfront]
      exact hpos
    rw [chunks_append hne' (hfront.trans_le hfive) hcut, chunks_append hne hle hrest, overwrite,
      hfront] at h
    obtain ⟨bytes, hbytes, h⟩ := bind_eq_ok.mp h
    obtain ⟨data, hdata, h⟩ := bind_eq_ok.mp h
    cases h
    obtain ⟨hlen, hspell⟩ := base32Chars_of_base32Bytes hle hcount hbytes
    obtain ⟨hlen', hspell'⟩ := ih hwhole' hback hdata
    have hbytes_ne : bytes ≠ [] := by
      rw [← List.length_pos_iff, hlen]
      exact hpos
    have hcut' : data = [] ∨ bytes.length = 5 := by
      rw [hlen]
      refine hlast.imp_left fun hnil => ?_
      rw [hnil] at hback
      exact List.eq_nil_of_length_eq_zero (hlen'.trans hback)
    rw [spelling_append hbytes_ne (hlen.trans_le hfive) hcut', List.length_append, List.length_append, hlen,
      hlen', hfront, toUpper, List.map_append]
    rw [toUpper] at hspell hspell'
    rw [hspell, hspell']
    exact ⟨rfl, rfl⟩

/-- A body that is accepted is the spelling of what it is decoded to. -/
theorem spelling_of_decodeBody {encoding : Encoding} {body out buf : Bytes} {n : ℕ}
    (h : decodeBody encoding body out = .ok (n, buf)) :
    ∃ data rest : Bytes, buf = data ++ rest ∧ data.length = n ∧ toUpper body = spelling encoding data := by
  have hbase32 {r : ℕ × Bytes} (h : decodeBody .base32 body out = .ok r) :
      ∃ data rest : Bytes, r.2 = data ++ rest ∧ data.length = r.1 ∧
        toUpper body = spelling .base32 data := by
    rw [decodeBody] at h
    by_cases hwhole : body.length % 8 = 1 ∨ body.length % 8 = 3 ∨ body.length % 8 = 6
    · rw [if_pos hwhole] at h
      cases h
    by_cases hroom : out.length < body.length * 5 / 8
    · rw [if_neg hwhole, if_pos hroom] at h
      cases h
    rw [if_neg hwhole, if_neg hroom] at h
    obtain ⟨data, hdata, h⟩ := bind_eq_ok.mp h
    cases h
    have htake := List.length_take_of_le (Nat.le_of_not_lt hroom)
    obtain ⟨hlen, hspell⟩ := spelling_of_decodeBase32 hwhole htake hdata
    exact ⟨data, _, rfl, hlen.trans htake, hspell⟩
  cases encoding with
  | hex =>
    rw [decodeBody] at h
    by_cases heven : body.length % 2 ≠ 0
    · rw [if_pos heven] at h
      cases h
    by_cases hroom : out.length < body.length / 2
    · rw [if_neg heven, if_pos hroom] at h
      cases h
    rw [if_neg heven, if_neg hroom] at h
    obtain ⟨data, hdata, h⟩ := bind_eq_ok.mp h
    cases h
    have htake := List.length_take_of_le (Nat.le_of_not_lt hroom)
    obtain ⟨hlen, hspell⟩ := spelling_of_decodeHex (by omega) hdata
    exact ⟨data, _, rfl, hlen.trans htake, hspell⟩
  | base32 => exact hbase32 h
  | zlib => exact hbase32 h

/-! ## Parts -/

/-- A part that is written is decoded to its header and its data, and one that is
decoded is, in capitals, what its header and its data are written as. -/
theorem one_spelling :
    (∀ (header : Header) (data out : Bytes),
      0 < header.numParts ∧ header.numParts ≤ maxParts ∧ header.index < header.numParts →
      headerLen + encodedLen header.encoding data.length ≤ out.length →
      ∃ n buf, encodePartToSlice header data out = .ok (n, buf) ∧
        ∀ back : Bytes, data.length ≤ back.length → decodePartToSlice (buf.take n) back =
          .ok (header, data.length, data ++ back.drop data.length)) ∧
    ∀ (part out : Bytes) (header : Header) (n : ℕ) (buf : Bytes),
      decodePartToSlice part out = .ok (header, n, buf) →
      ∀ back : Bytes, part.length ≤ back.length → encodePartToSlice header (buf.take n) back =
        .ok (part.length, toUpper part ++ back.drop part.length) := by
  constructor
  · intro header data out hvalid hout
    have hhead := Header.toBytes_eq_ok.mpr ⟨hvalid, rfl⟩
    refine ⟨_, _, encodePartToSlice_eq hhead hout, fun back hback => ?_⟩
    have hlen : ∀ head : Bytes, head.length = headerLen →
        (head ++ spelling header.encoding data).length =
          headerLen + encodedLen header.encoding data.length := by
      intro head hhead
      rw [List.length_append, length_spelling, hhead]
    rw [List.take_left' (hlen _ rfl)]
    exact decodePartToSlice_eq hhead rfl hback
  · intro part out header n buf h back hback
    obtain ⟨⟨header, body⟩, hparse, h⟩ := bind_eq_ok.mp h
    obtain ⟨⟨n, buf⟩, hbody, h⟩ := bind_eq_ok.mp h
    cases h
    obtain ⟨head, hhead, hpart⟩ := Header.toBytes_of_parse hparse
    obtain ⟨data, rest, rfl, rfl, hspell⟩ := spelling_of_decodeBody hbody
    have hlen : headerLen + encodedLen header.encoding data.length = part.length := by
      have hlen := congrArg List.length hpart
      rw [hspell, toUpper, List.length_map, List.length_append, Header.length_toBytes hhead,
        length_spelling] at hlen
      exact hlen.symm
    rw [List.take_left, encodePartToSlice_eq hhead (hlen.trans_le hback), hlen, hpart, hspell]

theorem one_spelling_sample :
    let header : Header := ⟨.hex, .psbt, 1, 0⟩
    (∃ n buf, encodePartToSlice header [0xab] (List.replicate 10 0) = .ok (n, buf) ∧
      ∀ back : Bytes, 1 ≤ back.length → decodePartToSlice (buf.take n) back =
        .ok (header, 1, [0xab] ++ back.drop 1)) ∧
    encodePartToSlice header [0xab] (List.replicate 10 0) = .ok (10, ofString "B$HP0100AB") :=
  ⟨one_spelling.1 _ [0xab] (List.replicate 10 0) (by decide) (by decide),
    one_spelling.2 (ofString "b$hp0100aB") [0] _ 1 [0xab] (by decide) (List.replicate 10 0)
      (by decide)⟩

end Outscript.Bbqr
