import Outscript.Bech32.Codec

/-!
# Segwit addresses

A segwit address is a Bech32 text of a witness version and a program. The
decoder accepts what the encoder writes, in either case, and nothing else.
-/
namespace Outscript.Bech32

open ByteString Ascii BitGroups Fallible

def checkProgram (version : UInt8) (len : ℕ) : Except Error Unit :=
  if version > 16 then .error .invalidWitnessVersion
  else if ¬ (2 ≤ len ∧ len ≤ 40) ∨ (version = 0 ∧ len ≠ 20 ∧ len ≠ 32) then
    .error .invalidProgramLength
  else .ok ()

def segwitVariant (version : UInt8) : Variant := if version = 0 then .bech32 else .bech32m

def segwitAddrEncodeToSlice (hrp : Bytes) (version : UInt8) (program out : Bytes) :
    Except Error (Bytes × ℕ) := do
  checkProgram version program.length
  encodeRaw hrp (some version) program (segwitVariant version) out

/-- Stops at the maximum program length instead of overrunning `out`. -/
def pushProgram (w : SliceWriter) (b : UInt8) : Except Error SliceWriter :=
  if w.pos = 40 then .error .invalidProgramLength else w.push b

/-- The witness version, the buffer after the call and the program length. -/
def segwitAddrDecodeToSlice (hrp addr out : Bytes) : Except Error (UInt8 × Bytes × ℕ) := do
  let (gotHrp, chars, variant) ← parse addr
  if prefixMatches gotHrp hrp = false then throw .prefixMismatch
  match chars with
  | [] => throw .emptyPayload
  | first :: rest =>
    let version := (charsetRev first).getD 0
    if version > 16 then throw .invalidWitnessVersion
    let w ← convertBits 5 8 pushProgram false (values rest) (SliceWriter.new out)
    checkProgram version w.pos
    if variant ≠ segwitVariant version then throw .wrongVariant
    return (version, w.out, w.pos)

def segwitAddrEncode (hrp : Bytes) (version : UInt8) (program : Bytes) : Except Error Bytes := do
  let out := List.replicate (hrp.length + 1 + 1 + (program.length * 8 + 4) / 5 + 6) 0
  let (buf, n) ← segwitAddrEncodeToSlice hrp version program out
  return buf.take n

def segwitAddrDecode (hrp addr : Bytes) : Except Error (UInt8 × Bytes) := do
  let (version, buf, n) ← segwitAddrDecodeToSlice hrp addr (List.replicate 40 0)
  return (version, buf.take n)

/-- The witness programs of a version. -/
def ValidProgram (version : UInt8) (len : ℕ) : Prop :=
  version ≤ 16 ∧ (2 ≤ len ∧ len ≤ 40) ∧ (version = 0 → len = 20 ∨ len = 32)

theorem checkProgram_eq_ok {version : UInt8} {len : ℕ} :
    checkProgram version len = .ok () ↔ ValidProgram version len := by
  rw [checkProgram, ValidProgram]
  split_ifs with hversion hlen
  · exact iff_of_false (fun h => nomatch h) (fun h => UInt8.not_lt.mpr h.1 hversion)
  · refine iff_of_false (fun h => nomatch h) ?_
    rintro ⟨-, hrange, hzero⟩
    rcases hlen with hlen | ⟨hversion, h20, h32⟩
    · exact hlen hrange
    · exact (hzero hversion).elim h20 h32
  · obtain ⟨hrange, hzero⟩ := not_or.mp hlen
    refine iff_of_true rfl ⟨UInt8.not_lt.mp hversion, not_not.mp hrange, fun hversion => ?_⟩
    by_contra hne
    exact hzero ⟨hversion, not_or.mp hne⟩

theorem prefixMatches_iff {got want : Bytes} : prefixMatches got want = true ↔ toLower got = want := by
  induction got generalizing want with
  | nil => cases want <;> simp [prefixMatches]
  | cons c got ih =>
    cases want with
    | nil => simp [prefixMatches, toLower]
    | cons d want =>
      have hcons : prefixMatches (c :: got) (d :: want) = true ↔
          lower c = d ∧ prefixMatches got want = true := by
        simp only [prefixMatches, List.length_cons, List.zip_cons_cons, List.all_cons,
          Bool.and_eq_true, beq_iff_eq, Nat.succ.injEq]
        tauto
      rw [hcons, ih]
      exact List.cons_eq_cons.symm

/-! ## Encoding -/

theorem fits_cons_version {version : UInt8} {groups : Bytes} (hversion : version ≤ 16)
    (hgroups : Fits 5 groups) : Fits 5 (version :: groups) := by
  have hle : version.toNat ≤ 16 := UInt8.le_iff_toNat_le.mp hversion
  exact List.forall_mem_cons.mpr ⟨by omega, hgroups⟩

theorem segwitAddrEncode_eq_ok {hrp program groups s : Bytes} {version : UInt8}
    (hgroups : Fits 5 groups) (hrepacks : RepacksBytes 8 5 program groups) :
    segwitAddrEncode hrp version program = .ok s ↔ ValidProgram version program.length ∧
      s = textOf hrp (version :: groups) (segwitVariant version) := by
  have hcount : groups.length = (program.length * 8 + 4) / 5 := by
    have h := hrepacks.length_right
    rwa [List.length_map, List.length_map, Nat.mul_comm] at h
  have hroom : (textOf hrp (version :: groups) (segwitVariant version)).length ≤
      (List.replicate (hrp.length + 1 + 1 + (program.length * 8 + 4) / 5 + 6) (0 : UInt8)).length := by
    rw [length_textOf, List.length_replicate, List.length_cons, hcount]
    omega
  obtain ⟨w, hw, hout, hpos⟩ := SliceWriter.exists_pushSlice_new hroom
  rw [segwitAddrEncode]
  constructor
  · intro h
    obtain ⟨⟨buf, n⟩, hslice, h⟩ := bind_eq_ok.mp h
    obtain ⟨⟨⟩, hcheck, hraw⟩ := bind_eq_ok.mp hslice
    rw [encodeRaw_eq hgroups hrepacks, Option.toList_some, List.singleton_append, hw, ok_bind, hout,
      hpos] at hraw
    cases hraw
    cases h
    rw [List.take_left]
    exact ⟨checkProgram_eq_ok.mp hcheck, rfl⟩
  · rintro ⟨hvalid, rfl⟩
    rw [segwitAddrEncodeToSlice, checkProgram_eq_ok.mpr hvalid, ok_bind, encodeRaw_eq hgroups hrepacks,
      Option.toList_some, List.singleton_append, hw, ok_bind, hout, hpos, ok_bind]
    exact congrArg Except.ok List.take_left

/-! ## Decoding -/

/-- Writes a byte unless there are so many already. -/
def pushUpTo (limit : ℕ) (e : Error) (w : SliceWriter) (b : UInt8) : Except Error SliceWriter :=
  if w.pos = limit then .error e else w.push b

/-- The limited writer takes up to so many bytes. -/
theorem foldlM_pushUpTo {limit : ℕ} {e : Error} {program : Bytes} {w w' : SliceWriter}
    (hw : w.pos ≤ limit) :
    program.foldlM (pushUpTo limit e) w = .ok w' ↔
      w.pos + program.length ≤ limit ∧ w.pushSlice program = .ok w' := by
  induction program generalizing w with
  | nil =>
    rw [SliceWriter.pushSlice_nil]
    exact ⟨fun h => ⟨hw, h⟩, fun h => h.2⟩
  | cons b program ih =>
    have happend := w.pushSlice_append [b] program
    rw [List.singleton_append] at happend
    rw [List.foldlM_cons, ← happend, ← SliceWriter.push_eq_pushSlice, pushUpTo]
    split_ifs with hfull
    · rw [List.length_cons]
      exact iff_of_false (fun h => nomatch h) (fun h => by omega)
    · have hpos {w₁ : SliceWriter} (hpush : w.push b = .ok w₁) : w₁.pos = w.pos + 1 := by
        rw [SliceWriter.push_eq_pushSlice] at hpush
        exact (SliceWriter.pushSlice_eq_ok.mp hpush).2.2
      rw [bind_eq_ok, bind_eq_ok, List.length_cons]
      constructor
      · rintro ⟨w₁, hpush, hrest⟩
        have hnext := hpos hpush
        obtain ⟨hle, hrest⟩ := (ih (by omega)).mp hrest
        exact ⟨by omega, w₁, hpush, hrest⟩
      · rintro ⟨hle, w₁, hpush, hrest⟩
        have hnext := hpos hpush
        exact ⟨w₁, hpush, (ih (by omega)).mpr ⟨by omega, hrest⟩⟩

theorem foldlM_pushProgram {program : Bytes} {w w' : SliceWriter} (hw : w.pos ≤ 40) :
    program.foldlM pushProgram w = .ok w' ↔
      w.pos + program.length ≤ 40 ∧ w.pushSlice program = .ok w' :=
  foldlM_pushUpTo hw

theorem segwitAddrDecode_eq_ok {hrp addr program : Bytes} {version : UInt8} :
    segwitAddrDecode hrp addr = .ok (version, program) ↔ ∃ gotHrp first rest,
      parse addr = .ok (gotHrp, first :: rest, segwitVariant version) ∧ toLower gotHrp = hrp ∧
      (charsetRev first).getD 0 = version ∧ RepacksBytes 8 5 program (values rest) ∧
      ValidProgram version program.length := by
  have hfits {gotHrp first : _} {rest : Bytes} {variant : Variant}
      (hparse : parse addr = .ok (gotHrp, first :: rest, variant)) : Fits 5 (values rest) := by
    obtain ⟨-, -, hall, -⟩ := toLower_of_parse hparse
    exact (List.forall_mem_cons.mp hall).2
  rw [segwitAddrDecode]
  constructor
  · intro h
    obtain ⟨⟨version', buf, n⟩, hslice, h⟩ := bind_eq_ok.mp h
    cases h
    obtain ⟨⟨gotHrp, chars, variant⟩, hparse, hslice⟩ := bind_eq_ok.mp hslice
    dsimp only at hslice
    split_ifs at hslice with hfront
    · cases hslice
    cases chars with
    | nil => cases hslice
    | cons first rest =>
      dsimp only at hslice
      by_cases hversion : (charsetRev first).getD 0 > 16
      · rw [if_pos hversion] at hslice
        cases hslice
      rw [if_neg hversion] at hslice
      obtain ⟨w, hconvert, hslice⟩ := bind_eq_ok.mp hslice
      obtain ⟨⟨⟩, hcheck, hslice⟩ := bind_eq_ok.mp hslice
      split_ifs at hslice with hvariant
      · cases hslice
      cases hslice
      obtain ⟨payload, hrepacks, hrun⟩ := (convertBits_exact_eq_ok (hfits hparse)).mp hconvert
      obtain ⟨-, hpush⟩ := (foldlM_pushProgram (Nat.zero_le 40)).mp hrun
      obtain ⟨-, hout, hpos⟩ := SliceWriter.pushSlice_new.mp hpush
      rw [not_not] at hvariant
      subst hvariant
      rw [hpos] at hcheck
      rw [hout, hpos, List.take_left]
      exact ⟨gotHrp, first, rest, hparse, prefixMatches_iff.mp (by simpa using hfront), rfl, hrepacks,
        checkProgram_eq_ok.mp hcheck⟩
  · rintro ⟨gotHrp, first, rest, hparse, hfront, rfl, hrepacks, hvalid⟩
    have hroom : program.length ≤ (List.replicate 40 (0 : UInt8)).length := by
      rw [List.length_replicate]
      exact hvalid.2.1.2
    obtain ⟨w, hw, hout, hpos⟩ := SliceWriter.exists_pushSlice_new hroom
    have hrun : program.foldlM pushProgram (SliceWriter.new (List.replicate 40 0)) = .ok w :=
      (foldlM_pushProgram (Nat.zero_le 40)).mpr ⟨by simpa [SliceWriter.new] using hroom, hw⟩
    have hversion : ¬ (charsetRev first).getD 0 > 16 := UInt8.not_lt.mpr hvalid.1
    refine bind_eq_ok.mpr ⟨((charsetRev first).getD 0, w.out, w.pos), ?_, ?_⟩
    · rw [segwitAddrDecodeToSlice]
      refine bind_eq_ok.mpr ⟨_, hparse, ?_⟩
      dsimp only
      rw [if_neg (by simp [prefixMatches_iff.mpr hfront]), if_neg hversion]
      refine bind_eq_ok.mpr ⟨w, (convertBits_exact_eq_ok (hfits hparse)).mpr ⟨_, hrepacks, hrun⟩, ?_⟩
      refine bind_eq_ok.mpr ⟨(), checkProgram_eq_ok.mpr (by rwa [hpos]), ?_⟩
      rw [if_neg (not_not.mpr rfl)]
      rfl
    · rw [hout, hpos]
      exact congrArg (fun p => Except.ok ((charsetRev first).getD 0, p)) List.take_left

/-- The decoder accepts what the encoder writes, in either case, and nothing else. -/
theorem segwitAddrDecode_iff {hrp : Bytes} (hhrp : hrp ≠ []) (hlower : Lowercase hrp)
    {addr program : Bytes} {version : UInt8} :
    segwitAddrDecode hrp addr = .ok (version, program) ↔
      ∃ s, segwitAddrEncode hrp version program = .ok s ∧ (addr = s ∨ addr = toUpper s) := by
  rw [segwitAddrDecode_eq_ok]
  constructor
  · rintro ⟨gotHrp, first, rest, hparse, rfl, hversion, hrepacks, hvalid⟩
    obtain ⟨hcase, -, hfits, htext⟩ := toLower_of_parse hparse
    have hvalues : values (first :: rest) = version :: values rest := by rw [← hversion]; rfl
    rw [hvalues] at hfits htext
    refine ⟨_, (segwitAddrEncode_eq_ok (List.forall_mem_cons.mp hfits).2 hrepacks).mpr ⟨hvalid, rfl⟩, ?_⟩
    rw [← htext]
    exact singleCase_iff_eq.mp hcase
  · rintro ⟨s, hencode, haddr⟩
    obtain ⟨groups, hgroups, hrepacks⟩ := exists_groups program
    obtain ⟨hvalid, rfl⟩ := (segwitAddrEncode_eq_ok hgroups hrepacks).mp hencode
    have hfits := fits_cons_version hvalid.1 hgroups
    have hsame := toLower_eq_self (lowercase_textOf hlower hfits (segwitVariant version))
    have htext : toLower addr = textOf hrp (version :: groups) (segwitVariant version) := by
      rcases haddr with rfl | rfl
      · exact hsame
      · rw [toLower_toUpper, hsame]
    have hcase : SingleCase addr := by
      rw [singleCase_iff_eq, htext]
      exact haddr
    obtain ⟨gotHrp, chars, hparse, -, hgot, hvalues⟩ := exists_parse hcase hhrp hfits htext
    obtain ⟨first, rest, rfl, hfirst, hrest⟩ := List.map_eq_cons_iff.mp hvalues
    have hrest' : values rest = groups := hrest
    rw [← hrest'] at hrepacks
    exact ⟨gotHrp, first, rest, hparse, hgot, hfirst, hrepacks, hvalid⟩

/-- Every program of a version has its address. -/
theorem exists_segwitAddrEncode_iff {hrp program : Bytes} {version : UInt8} :
    (∃ s, segwitAddrEncode hrp version program = .ok s) ↔ ValidProgram version program.length := by
  obtain ⟨groups, hgroups, hrepacks⟩ := exists_groups program
  constructor
  · rintro ⟨s, h⟩
    exact ((segwitAddrEncode_eq_ok hgroups hrepacks).mp h).1
  · exact fun hvalid => ⟨_, (segwitAddrEncode_eq_ok hgroups hrepacks).mpr ⟨hvalid, rfl⟩⟩

/-- A payload is decoded as it was encoded, an accepted text is the encoding of
what it is decoded to, up to its case, and so is a segwit address. -/
theorem addresses_exact :
    (∀ hrp data variant out, hrp ≠ [] → Lowercase hrp →
      hrp.length + 1 + (data.length * 8 + 4) / 5 + 6 ≤ out.length →
      ∃ buf n, encodeToSlice hrp data variant out = .ok (buf, n) ∧
        ∀ out', data.length ≤ out'.length → ∃ buf',
          decodeToSlice (buf.take n) out' = .ok (hrp, buf', data.length, variant) ∧
            buf'.take data.length = data) ∧
    (∀ s out hrp buf n variant, decodeToSlice s out = .ok (hrp, buf, n, variant) →
      ∀ out', s.length ≤ out'.length → ∃ buf',
        encodeToSlice (toLower hrp) (buf.take n) variant out' = .ok (buf', s.length) ∧
          buf'.take s.length = toLower s) ∧
    (∀ hrp, hrp ≠ [] → Lowercase hrp → ∀ addr version program,
      segwitAddrDecode hrp addr = .ok (version, program) ↔
        ValidProgram version program.length ∧ ∃ s, segwitAddrEncode hrp version program = .ok s ∧
          (addr = s ∨ addr = toUpper s)) := by
  refine ⟨?_, ?_, ?_⟩
  · intro hrp data variant out hhrp hlower hroom
    obtain ⟨groups, hgroups, hrepacks⟩ := exists_groups data
    have hlen : (textOf hrp groups variant).length ≤ out.length := by
      have hcount := hrepacks.length_right
      rw [List.length_map, List.length_map] at hcount
      rw [length_textOf, hcount]
      omega
    have hencode := (encodeToSlice_eq_ok hgroups hrepacks).mpr ⟨hlen, rfl, rfl⟩
    refine ⟨_, _, hencode, fun out' hroom' => ?_⟩
    exact ⟨_, decode_encode hhrp hlower hencode hroom', List.take_left⟩
  · intro s out hrp buf n variant hdecode out' hroom
    refine ⟨_, encode_decode hdecode hroom, ?_⟩
    rw [← length_toLower s, List.take_left]
  · intro hrp hhrp hlower addr version program
    rw [segwitAddrDecode_iff hhrp hlower]
    constructor
    · rintro ⟨s, hencode, haddr⟩
      exact ⟨exists_segwitAddrEncode_iff.mp ⟨s, hencode⟩, s, hencode, haddr⟩
    · exact fun h => h.2

/-- An address in capitals. -/
theorem addresses_exact_sample :
    segwitAddrDecode (ofString "bc") (ofString "BC1QW508D6QEJXTDG4Y5R3ZARVARY0C5XW7KV8F3T4") =
        .ok (0, [0x75, 0x1e, 0x76, 0xe8, 0x19, 0x91, 0x96, 0xd4, 0x54, 0x94, 0x1c, 0x45, 0xd1, 0xb3,
          0xa3, 0x23, 0xf1, 0x43, 0x3b, 0xd6]) ∧
      (∃ s, segwitAddrEncode (ofString "bc") 0 [0x75, 0x1e, 0x76, 0xe8, 0x19, 0x91, 0x96, 0xd4, 0x54,
          0x94, 0x1c, 0x45, 0xd1, 0xb3, 0xa3, 0x23, 0xf1, 0x43, 0x3b, 0xd6] = .ok s ∧
        (ofString "BC1QW508D6QEJXTDG4Y5R3ZARVARY0C5XW7KV8F3T4" = s ∨
          ofString "BC1QW508D6QEJXTDG4Y5R3ZARVARY0C5XW7KV8F3T4" = toUpper s)) ∧
      (∃ buf n, encodeToSlice (ofString "stake") [1, 2, 3] .bech32 (List.replicate 17 0) = .ok (buf, n) ∧
        ∃ buf', decodeToSlice (buf.take n) [0, 0, 0] = .ok (ofString "stake", buf', 3, .bech32) ∧
          buf'.take 3 = [1, 2, 3]) := by
  have hdecode : segwitAddrDecode (ofString "bc") (ofString "BC1QW508D6QEJXTDG4Y5R3ZARVARY0C5XW7KV8F3T4") =
      .ok (0, [0x75, 0x1e, 0x76, 0xe8, 0x19, 0x91, 0x96, 0xd4, 0x54, 0x94, 0x1c, 0x45, 0xd1, 0xb3, 0xa3,
        0x23, 0xf1, 0x43, 0x3b, 0xd6]) := by decide +kernel
  refine ⟨hdecode, ?_, ?_⟩
  · exact ((addresses_exact.2.2 (ofString "bc") (by decide +kernel) (by decide +kernel) _ _ _).mp hdecode).2
  · obtain ⟨buf, n, hencode, hround⟩ := addresses_exact.1 (ofString "stake") [1, 2, 3] .bech32
      (List.replicate 17 0) (by decide +kernel) (by decide +kernel) (by decide +kernel)
    exact ⟨buf, n, hencode, hround [0, 0, 0] (by decide)⟩

end Outscript.Bech32
