import Outscript.Bech32.CashChecksum
import Outscript.Bech32.Segwit

/-!
# CashAddr addresses

A version byte, which holds a type and the size of the hash, and the hash behind
it are regrouped and checked together with the prefix. The decoder reads the
address with its prefix and without, and each character in either case.
-/
namespace Outscript.Bech32

open ByteString Ascii BitGroups Fallible

def cashaddrPrefix (front : Bytes) : Bytes :=
  if front.getLast? = some 0x3a then front.dropLast else front

def sizeBits (len : ℕ) : Option UInt8 :=
  match len with
  | 20 => some 0
  | 24 => some 1
  | 28 => some 2
  | 32 => some 3
  | 40 => some 4
  | 48 => some 5
  | 56 => some 6
  | 64 => some 7
  | _ => none

def sizeFromBits (bits : UInt8) : ℕ :=
  match bits with
  | 0 => 20
  | 1 => 24
  | 2 => 28
  | 3 => 32
  | 4 => 40
  | 5 => 48
  | 6 => 56
  | _ => 64

/-- The version byte, from which the shift drops the high bits of the type. -/
def versionByte (versionType size : UInt8) : UInt8 := (versionType <<< 3) ||| size

/-- Pushes a value's character and takes the value up into the register. -/
def emitCashaddr (state : UInt64 × SliceWriter) (v : UInt8) : Except Error (UInt64 × SliceWriter) := do
  let w ← state.2.push (charsetAt v)
  return (cashaddrPolymodStep state.1 v, w)

/-- Encodes an address, with its prefix, into `out`: the buffer after the call
and the number of bytes written. -/
def cashaddrEncodeToSlice (front : Bytes) (versionType : UInt8) (hash out : Bytes) :
    Except Error (Bytes × ℕ) := do
  let p := cashaddrPrefix front
  let size ← okOr (sizeBits hash.length) .invalidHashLength
  let w ← (SliceWriter.new out).pushSlice p
  let w ← w.push 0x3a
  let (chk, w) ← convertBits 8 5 emitCashaddr true (versionByte versionType size :: hash)
    (cashaddrPrefixPolymod p, w)
  let chk := cashaddrFinalPolymod chk ^^^ 1
  let w ← (cashaddrCheckValues chk).foldlM (fun w v => w.push (charsetAt v)) w
  return (w.out, w.pos)

/-- The address without its prefix, which has to be the expected one if there is one. -/
def cashaddrBody (p addr : Bytes) : Except Error Bytes :=
  match splitOnce 0x3a addr with
  | some (got, rest) => if prefixMatches got p = false then .error .prefixMismatch else .ok rest
  | none => .ok addr

/-- Takes the first byte as the version byte, and writes the others. -/
def pushHash (state : Option UInt8 × SliceWriter) (b : UInt8) :
    Except Error (Option UInt8 × SliceWriter) :=
  match state with
  | (none, w) => .ok (some b, w)
  | (some version, w) =>
    if w.pos = 64 then .error .invalidHashLength
    else do
      let w ← w.push b
      return (some version, w)

/-- The type, the buffer after the call and the hash length. -/
def cashaddrDecodeToSlice (front addr out : Bytes) : Except Error (UInt8 × Bytes × ℕ) := do
  let p := cashaddrPrefix front
  let body ← cashaddrBody p addr
  let chk ← body.foldlM (fun chk c => do
    let v ← okOr (charsetRev c) .invalidChar
    return cashaddrPolymodStep chk v) (cashaddrPrefixPolymod p)
  if chk ^^^ 1 ≠ 0 then throw .invalidChecksum
  let payload5 := body.take (body.length - 8)
  if payload5 = [] then throw .emptyPayload
  let (version, w) ← convertBits 5 8 pushHash false (values payload5) (none, SliceWriter.new out)
  let version ← okOr version .emptyPayload
  if version &&& 0x80 ≠ 0 then throw .invalidVersionByte
  if w.pos ≠ sizeFromBits (version &&& 0x07) then throw .invalidHashLength
  return ((version >>> 3) &&& 0x0f, w.out, w.pos)

def cashaddrEncode (front : Bytes) (versionType : UInt8) (hash : Bytes) : Except Error Bytes := do
  let out := List.replicate (front.length + 1 + ((hash.length + 1) * 8 + 4) / 5 + 8) 0
  let (buf, n) ← cashaddrEncodeToSlice front versionType hash out
  return buf.take n

def cashaddrDecode (front addr : Bytes) : Except Error (UInt8 × Bytes) := do
  let (versionType, buf, n) ← cashaddrDecodeToSlice front addr (List.replicate 64 0)
  return (versionType, buf.take n)

/-! ## Version bytes -/

/-- What a version byte without its reserved bit says. -/
theorem versionByte_checked : (∀ n < 256, UInt8.ofNat n &&& 0x80 = 0 →
      (UInt8.ofNat n >>> 3) &&& 0x0f < 16 ∧
      sizeBits (sizeFromBits (UInt8.ofNat n &&& 0x07)) = some (UInt8.ofNat n &&& 0x07) ∧
      versionByte ((UInt8.ofNat n >>> 3) &&& 0x0f) (UInt8.ofNat n &&& 0x07) = UInt8.ofNat n ∧
      sizeFromBits (UInt8.ofNat n &&& 0x07) ≤ 64) ∧
    ∀ t < 16, ∀ size < 8, versionByte (UInt8.ofNat t) (UInt8.ofNat size) &&& 0x80 = 0 ∧
      (versionByte (UInt8.ofNat t) (UInt8.ofNat size) >>> 3) &&& 0x0f = UInt8.ofNat t ∧
      versionByte (UInt8.ofNat t) (UInt8.ofNat size) &&& 0x07 = UInt8.ofNat size := by
  decide +kernel

theorem sizeBits_eq_some {len : ℕ} {size : UInt8} (h : sizeBits len = some size) :
    size < 8 ∧ sizeFromBits size = len := by
  unfold sizeBits at h
  split at h <;> cases h <;> decide

/-- A version byte without its reserved bit is that of its type and its size. -/
theorem versionByte_iff {version t : UInt8} {len : ℕ} :
    (version &&& 0x80 = 0 ∧ len = sizeFromBits (version &&& 0x07) ∧ (version >>> 3) &&& 0x0f = t) ↔
      t < 16 ∧ ∃ size, sizeBits len = some size ∧ version = versionByte t size := by
  constructor
  · rintro ⟨hreserved, rfl, rfl⟩
    have hall := versionByte_checked.1 version.toNat version.toNat_lt
    rw [UInt8.ofNat_toNat] at hall
    obtain ⟨hlt, hsize, hversion, -⟩ := hall hreserved
    exact ⟨hlt, _, hsize, hversion.symm⟩
  · rintro ⟨ht, size, hsize, rfl⟩
    obtain ⟨hsize8, hlen⟩ := sizeBits_eq_some hsize
    have hall := versionByte_checked.2 t.toNat (UInt8.lt_iff_toNat_lt.mp ht) size.toNat
      (UInt8.lt_iff_toNat_lt.mp hsize8)
    rw [UInt8.ofNat_toNat, UInt8.ofNat_toNat] at hall
    obtain ⟨hreserved, htype, hbits⟩ := hall
    exact ⟨hreserved, by rw [hbits, hlen], htype⟩

/-! ## Encoding -/

/-- The characters of values and of their checksum. -/
def cashaddrTail (p vs : Bytes) : Bytes :=
  (vs ++ cashaddrCheckValues (cashaddrFinalPolymod
    (vs.foldl cashaddrPolymodStep (cashaddrPrefixPolymod p)) ^^^ 1)).map charsetAt

/-- The address with the given values. -/
def cashaddrText (p vs : Bytes) : Bytes := p ++ 0x3a :: cashaddrTail p vs

theorem length_cashaddrText (p vs : Bytes) :
    (cashaddrText p vs).length = p.length + 1 + vs.length + 8 := by
  simp only [cashaddrText, cashaddrTail, List.length_append, List.length_cons, List.length_map,
    length_cashaddrCheckValues]
  omega

theorem length_cashaddrPrefix_le (front : Bytes) : (cashaddrPrefix front).length ≤ front.length := by
  rw [cashaddrPrefix]
  split_ifs
  · rw [List.length_dropLast]
    exact Nat.sub_le _ _
  · exact le_rfl

/-- The encoder writes the address whose values repack the version byte and the hash. -/
theorem cashaddrEncodeToSlice_eq {front hash groups : Bytes} {t size : UInt8}
    (hsize : sizeBits hash.length = some size) (hgroups : Fits 5 groups)
    (hrepacks : RepacksBytes 8 5 (versionByte t size :: hash) groups) (out : Bytes) :
    cashaddrEncodeToSlice front t hash out =
      (SliceWriter.new out).pushSlice (cashaddrText (cashaddrPrefix front) groups) >>=
        fun w => .ok (w.out, w.pos) := by
  set p := cashaddrPrefix front with hp
  have hvalues (w : SliceWriter) :
      convertBits 8 5 emitCashaddr true (versionByte t size :: hash) (cashaddrPrefixPolymod p, w) =
        w.pushSlice (groups.map charsetAt) >>= fun w =>
          .ok (groups.foldl cashaddrPolymodStep (cashaddrPrefixPolymod p), w) := by
    rw [convertBits_pad_eq hgroups hrepacks]
    exact foldlM_emit cashaddrPolymodStep groups _ w
  have hcheck (chk : UInt64) (w : SliceWriter) :
      (cashaddrCheckValues chk).foldlM (fun w v => w.push (charsetAt v)) w =
        w.pushSlice ((cashaddrCheckValues chk).map charsetAt) := by
    rw [← SliceWriter.foldlM_push, List.foldlM_map]
  have htext : (SliceWriter.new out).pushSlice (cashaddrText p groups) =
      (SliceWriter.new out).pushSlice p >>= fun w => w.push 0x3a >>= fun w =>
        w.pushSlice (groups.map charsetAt) >>= fun w =>
          w.pushSlice ((cashaddrCheckValues (cashaddrFinalPolymod
            (groups.foldl cashaddrPolymodStep (cashaddrPrefixPolymod p)) ^^^ 1)).map charsetAt) := by
    rw [cashaddrText, cashaddrTail, List.map_append, ← SliceWriter.pushSlice_append]
    refine bind_congr fun w => ?_
    rw [← List.singleton_append, ← SliceWriter.pushSlice_append, ← SliceWriter.push_eq_pushSlice]
    exact bind_congr fun w => (SliceWriter.pushSlice_append w _ _).symm
  rw [htext, cashaddrEncodeToSlice, hsize, okOr_some, ok_bind, bind_assoc]
  refine bind_congr fun w => ?_
  rw [bind_assoc]
  refine bind_congr fun w => ?_
  rw [hvalues, bind_assoc, bind_assoc]
  refine bind_congr fun w => ?_
  rw [ok_bind, ← hcheck]
  rfl

theorem cashaddrEncode_eq_ok {front hash text : Bytes} {t : UInt8} :
    cashaddrEncode front t hash = .ok text ↔ ∃ size groups, sizeBits hash.length = some size ∧
      Fits 5 groups ∧ RepacksBytes 8 5 (versionByte t size :: hash) groups ∧
        text = cashaddrText (cashaddrPrefix front) groups := by
  have hwritten {size : UInt8} {groups : Bytes} (hsize : sizeBits hash.length = some size)
      (hgroups : Fits 5 groups) (hrepacks : RepacksBytes 8 5 (versionByte t size :: hash) groups) :
      cashaddrEncode front t hash = .ok (cashaddrText (cashaddrPrefix front) groups) := by
    have hcount : groups.length = ((hash.length + 1) * 8 + 4) / 5 := by
      have h := hrepacks.length_right
      rwa [List.length_map, List.length_map, Nat.mul_comm] at h
    have hfront := length_cashaddrPrefix_le front
    have hroom : (cashaddrText (cashaddrPrefix front) groups).length ≤
        (List.replicate (front.length + 1 + ((hash.length + 1) * 8 + 4) / 5 + 8) (0 : UInt8)).length := by
      rw [length_cashaddrText, List.length_replicate, hcount]
      omega
    obtain ⟨w, hw, hout, hpos⟩ := SliceWriter.exists_pushSlice_new hroom
    rw [cashaddrEncode, cashaddrEncodeToSlice_eq hsize hgroups hrepacks, hw, ok_bind, hout, hpos, ok_bind]
    exact congrArg Except.ok List.take_left
  constructor
  · intro h
    cases hsize : sizeBits hash.length with
    | none =>
      rw [cashaddrEncode, cashaddrEncodeToSlice, hsize] at h
      cases h
    | some size =>
      obtain ⟨groups, hgroups, hrepacks⟩ := exists_groups (versionByte t size :: hash)
      rw [hwritten hsize hgroups hrepacks] at h
      cases h
      exact ⟨size, groups, rfl, hgroups, hrepacks, rfl⟩
  · rintro ⟨size, groups, hsize, hgroups, hrepacks, rfl⟩
    exact hwritten hsize hgroups hrepacks

/-! ## Decoding -/

theorem not_mem_map_charsetAt {vs : Bytes} (hvs : Fits 5 vs) : (0x3a : UInt8) ∉ vs.map charsetAt := by
  intro hmem
  obtain ⟨v, hv, hcolon⟩ := List.mem_map.mp hmem
  have hnone : charsetRev 0x3a = none := by decide
  have hvalue := charsetRev_charsetAt (hvs v hv)
  rw [hcolon, hnone] at hvalue
  cases hvalue

/-- Behind its prefix or without one, a text is what is left of it. -/
theorem cashaddrBody_iff {p addr tail : Bytes} (htail : (0x3a : UInt8) ∉ tail) :
    (∃ body, cashaddrBody p addr = .ok body ∧ toLower body = tail) ↔
      ((0x3a : UInt8) ∉ p ∧ toLower addr = p ++ 0x3a :: tail) ∨ toLower addr = tail := by
  have hcolon {t : Bytes} : (0x3a : UInt8) ∈ toLower t ↔ (0x3a : UInt8) ∈ t := by
    rw [toLower, List.mem_map]
    constructor
    · rintro ⟨c, hc, hlower⟩
      rwa [← (lower_eq_iff (by decide) c).mp hlower]
    · exact fun h => ⟨0x3a, h, by decide⟩
  rw [cashaddrBody]
  constructor
  · rintro ⟨body, hbody, rfl⟩
    cases hsplit : splitOnce 0x3a addr with
    | none =>
      rw [hsplit] at hbody
      cases hbody
      exact Or.inr rfl
    | some parts =>
      obtain ⟨got, rest⟩ := parts
      rw [hsplit] at hbody
      dsimp only at hbody
      split_ifs at hbody with hmatch
      cases hbody
      have hgot : toLower got = p := prefixMatches_iff.mp (by simpa using hmatch)
      obtain ⟨rfl, hnot⟩ := splitOnce_eq_some hsplit
      refine Or.inl ⟨?_, ?_⟩
      · rwa [← hgot, hcolon]
      · rw [toLower_append, hgot]
        rfl
  · rintro (⟨hp, haddr⟩ | haddr)
    · have hsplit := splitOnce_toLower (by decide : CaseFree 0x3a) addr
      rw [haddr, splitOnce_append hp] at hsplit
      obtain ⟨⟨got, rest⟩, hgot, heq⟩ := Option.map_eq_some_iff.mp hsplit.symm
      cases heq
      refine ⟨rest, ?_, rfl⟩
      rw [hgot]
      exact if_neg (by simp [prefixMatches_iff.mpr])
    · have hnot : (0x3a : UInt8) ∉ addr := by rwa [← hcolon, haddr]
      refine ⟨addr, ?_, haddr⟩
      rw [splitOnce_eq_none hnot]

theorem foldlM_pushHash {version : UInt8} {hash : Bytes} {w : SliceWriter} (hw : w.pos ≤ 64)
    {r : Option UInt8 × SliceWriter} :
    hash.foldlM pushHash (some version, w) = .ok r ↔
      w.pos + hash.length ≤ 64 ∧ ∃ w', w.pushSlice hash = .ok w' ∧ r = (some version, w') := by
  have hrun : hash.foldlM pushHash (some version, w) =
      hash.foldlM (pushUpTo 64 .invalidHashLength) w >>= fun w => .ok (some version, w) := by
    clear hw
    induction hash generalizing w with
    | nil => rfl
    | cons b hash ih =>
      rw [List.foldlM_cons, List.foldlM_cons, pushHash, pushUpTo]
      split_ifs
      · rfl
      · rw [bind_assoc, bind_assoc]
        exact bind_congr fun w => ih
  rw [hrun, bind_eq_ok]
  constructor
  · rintro ⟨w', hpush, h⟩
    cases h
    obtain ⟨hle, hw'⟩ := (foldlM_pushUpTo hw).mp hpush
    exact ⟨hle, w', hw', rfl⟩
  · rintro ⟨hle, w', hw', rfl⟩
    exact ⟨w', (foldlM_pushUpTo hw).mpr ⟨hle, hw'⟩, rfl⟩

/-- A body with eight characters or more, with whose values the register ends with
one, is the text of the others and of their checksum. -/
theorem cashaddrTail_iff {p body vs : Bytes} :
    (8 ≤ body.length ∧ ∃ ws, Spells body ws ∧
        ws.foldl cashaddrPolymodStep (cashaddrPrefixPolymod p) = 1 ∧ vs = ws.take (body.length - 8)) ↔
      Fits 5 vs ∧ toLower body = cashaddrTail p vs := by
  constructor
  · rintro ⟨hlong, ws, hspells, hend, rfl⟩
    have hlen := hspells.length
    obtain ⟨hfits, hlower⟩ := spells_iff.mp hspells
    have hcount : (ws.drop (body.length - 8)).length = 8 := by
      rw [List.length_drop]
      omega
    have hcheck : Fits 5 (ws.drop (body.length - 8)) := fun v hv => hfits v (List.mem_of_mem_drop hv)
    rw [← List.take_append_drop (body.length - 8) ws, List.foldl_append,
      foldl_cashaddrPolymodStep_eq_iff hcount hcheck (by decide)] at hend
    refine ⟨fun v hv => hfits v (List.mem_of_mem_take hv), ?_⟩
    rw [cashaddrTail, ← hend, List.take_append_drop, hlower]
  · rintro ⟨hfits, hlower⟩
    have hlen := congrArg List.length hlower
    rw [length_toLower, cashaddrTail, List.length_map, List.length_append, length_cashaddrCheckValues] at hlen
    have hcheck : Fits 5 (cashaddrCheckValues (cashaddrFinalPolymod
        (vs.foldl cashaddrPolymodStep (cashaddrPrefixPolymod p)) ^^^ 1)) := fun v hv =>
      mem_cashaddrCheckValues_lt hv
    refine ⟨by omega, _, spells_iff.mpr ⟨List.forall_mem_append.mpr ⟨hfits, hcheck⟩, hlower⟩, ?_, ?_⟩
    · rw [List.foldl_append, foldl_cashaddrPolymodStep_eq_iff rfl hcheck (by decide)]
    · rw [hlen, Nat.add_sub_cancel, List.take_left]

/-- What is read from a body: it is the characters of the values that repack a
version byte and a hash, and of their checksum. -/
theorem cashaddrDecode_eq_ok {front addr hash : Bytes} {t : UInt8} :
    cashaddrDecode front addr = .ok (t, hash) ↔ ∃ body vs version,
      cashaddrBody (cashaddrPrefix front) addr = .ok body ∧ Fits 5 vs ∧
      toLower body = cashaddrTail (cashaddrPrefix front) vs ∧
      RepacksBytes 8 5 (version :: hash) vs ∧
      (version &&& 0x80 = 0 ∧ hash.length = sizeFromBits (version &&& 0x07) ∧
        (version >>> 3) &&& 0x0f = t) := by
  set p := cashaddrPrefix front with hp
  have hone (chk : UInt64) : chk ^^^ 1 ≠ 0 ↔ ¬ chk = 1 := by rw [ne_eq, UInt64.xor_eq_zero_iff]
  rw [cashaddrDecode]
  constructor
  · intro h
    obtain ⟨⟨t', buf, n⟩, hslice, h⟩ := bind_eq_ok.mp h
    cases h
    obtain ⟨body, hbody, hslice⟩ := bind_eq_ok.mp hslice
    obtain ⟨chk, hchk, hslice⟩ := bind_eq_ok.mp hslice
    by_cases hsum : chk ^^^ 1 ≠ 0
    · rw [if_pos hsum] at hslice
      cases hslice
    rw [if_neg hsum] at hslice
    rw [hone, not_not] at hsum
    dsimp only at hslice
    by_cases hempty : body.take (body.length - 8) = []
    · rw [if_pos hempty] at hslice
      cases hslice
    rw [if_neg hempty] at hslice
    obtain ⟨⟨version, w⟩, hconvert, hslice⟩ := bind_eq_ok.mp hslice
    obtain ⟨ws, hspells, rfl⟩ := foldlM_charsetRev.mp hchk
    have hlong : 8 ≤ body.length := by
      by_contra hshort
      rw [Nat.sub_eq_zero_of_le (by omega), List.take_zero] at hempty
      exact hempty rfl
    obtain ⟨hfits, hlower⟩ := cashaddrTail_iff.mp ⟨hlong, ws, hspells, hsum, rfl⟩
    rw [(hspells.take _).values_eq, convertBits_exact_eq_ok hfits] at hconvert
    obtain ⟨payload, hrepacks, hrun⟩ := hconvert
    cases payload with
    | nil =>
      cases hrun
      cases hslice
    | cons version hash =>
      obtain ⟨-, w', hw', hr⟩ := (foldlM_pushHash (Nat.zero_le 64)).mp hrun
      cases hr
      obtain ⟨-, hout, hpos⟩ := SliceWriter.pushSlice_new.mp hw'
      rw [okOr_some, ok_bind] at hslice
      by_cases hreserved : version &&& 0x80 ≠ 0
      · rw [if_pos hreserved] at hslice
        cases hslice
      by_cases hsize : w.pos ≠ sizeFromBits (version &&& 0x07)
      · rw [if_neg hreserved, if_pos hsize] at hslice
        cases hslice
      rw [if_neg hreserved, if_neg hsize] at hslice
      cases hslice
      rw [hout, hpos, List.take_left]
      exact ⟨body, _, version, hbody, hfits, hlower, hrepacks, not_not.mp hreserved,
        hpos ▸ not_not.mp hsize, rfl⟩
  · rintro ⟨body, vs, version, hbody, hfits, hlower, hrepacks, hreserved, hsize, rfl⟩
    obtain ⟨hlong, ws, hspells, hend, rfl⟩ := cashaddrTail_iff.mpr ⟨hfits, hlower⟩
    have hmax : hash.length ≤ 64 := by
      have hall := versionByte_checked.1 version.toNat version.toNat_lt
      rw [UInt8.ofNat_toNat] at hall
      rw [hsize]
      exact (hall hreserved).2.2.2
    have hroom : hash.length ≤ (List.replicate 64 (0 : UInt8)).length := by
      rwa [List.length_replicate]
    obtain ⟨w, hw, hout, hpos⟩ := SliceWriter.exists_pushSlice_new hroom
    have hempty : ¬ body.take (body.length - 8) = [] := by
      intro hnil
      have hcount := hrepacks.length_right
      have hlen := congrArg List.length hnil
      rw [List.length_map, List.length_take, ← hspells.length, List.length_map, List.length_cons] at hcount
      rw [List.length_take, List.length_nil] at hlen
      omega
    have hconvert : convertBits 5 8 pushHash false (values (body.take (body.length - 8)))
        (none, SliceWriter.new (List.replicate 64 0)) = .ok (some version, w) := by
      rw [(hspells.take _).values_eq, convertBits_exact_eq_ok hfits]
      exact ⟨_, hrepacks, (foldlM_pushHash (Nat.zero_le 64)).mpr ⟨by simpa [SliceWriter.new] using hmax,
        w, hw, rfl⟩⟩
    refine bind_eq_ok.mpr ⟨((version >>> 3) &&& 0x0f, w.out, w.pos), ?_, ?_⟩
    · rw [cashaddrDecodeToSlice]
      refine bind_eq_ok.mpr ⟨body, hbody, bind_eq_ok.mpr ⟨1, foldlM_charsetRev.mpr ⟨ws, hspells, hend⟩, ?_⟩⟩
      rw [if_neg (by decide)]
      dsimp only
      rw [if_neg hempty]
      refine bind_eq_ok.mpr ⟨_, hconvert, ?_⟩
      dsimp only
      rw [okOr_some, ok_bind, if_neg (not_not.mpr hreserved), if_neg (not_not.mpr (hpos.trans hsize))]
      rfl
    · rw [hout, hpos]
      exact congrArg (fun h => Except.ok ((version >>> 3) &&& 0x0f, h)) List.take_left

/-- An address of a text: in lower case the text itself, or what is left of it
without its prefix. -/
def AddressOf (p text addr : Bytes) : Prop :=
  ((0x3a : UInt8) ∉ p ∧ toLower addr = text) ∨ toLower addr = text.drop (p.length + 1)

/-- The decoder accepts what the encoder writes for the first sixteen types, each
character in either case. -/
theorem cashaddrDecode_iff {front addr hash : Bytes} {t : UInt8} :
    cashaddrDecode front addr = .ok (t, hash) ↔ t < 16 ∧
      ∃ text, cashaddrEncode front t hash = .ok text ∧ AddressOf (cashaddrPrefix front) text addr := by
  have htail (vs : Bytes) : (cashaddrText (cashaddrPrefix front) vs).drop
      ((cashaddrPrefix front).length + 1) = cashaddrTail (cashaddrPrefix front) vs := by
    rw [cashaddrText, ← List.drop_drop, List.drop_left]
    rfl
  have hcolon {vs : Bytes} (hvs : Fits 5 vs) : (0x3a : UInt8) ∉ cashaddrTail (cashaddrPrefix front) vs :=
    not_mem_map_charsetAt (List.forall_mem_append.mpr ⟨hvs, fun v hv => mem_cashaddrCheckValues_lt hv⟩)
  rw [cashaddrDecode_eq_ok]
  constructor
  · rintro ⟨body, vs, version, hbody, hvs, hlower, hrepacks, hversion⟩
    obtain ⟨ht, size, hsize, rfl⟩ := versionByte_iff.mp hversion
    refine ⟨ht, _, cashaddrEncode_eq_ok.mpr ⟨size, vs, hsize, hvs, hrepacks, rfl⟩, ?_⟩
    rw [AddressOf, htail]
    exact (cashaddrBody_iff (hcolon hvs)).mp ⟨body, hbody, hlower⟩
  · rintro ⟨ht, text, hencode, haddr⟩
    obtain ⟨size, vs, hsize, hvs, hrepacks, rfl⟩ := cashaddrEncode_eq_ok.mp hencode
    rw [AddressOf, htail] at haddr
    obtain ⟨body, hbody, hlower⟩ := (cashaddrBody_iff (hcolon hvs)).mpr haddr
    exact ⟨body, vs, _, hbody, hvs, hlower, hrepacks, versionByte_iff.mpr ⟨ht, size, hsize, rfl⟩⟩

theorem lowercase_of_cashaddrEncode {front hash text : Bytes} {t : UInt8}
    (hfront : Lowercase (cashaddrPrefix front)) (h : cashaddrEncode front t hash = .ok text) :
    Lowercase text := by
  obtain ⟨size, vs, -, hvs, -, rfl⟩ := cashaddrEncode_eq_ok.mp h
  refine List.forall_mem_append.mpr ⟨hfront, List.forall_mem_cons.mpr ⟨by decide, ?_⟩⟩
  refine List.forall_mem_map.mpr fun v hv => not_upper_charsetAt ?_
  rcases List.mem_append.mp hv with hv | hv
  · exact hvs v hv
  · exact mem_cashaddrCheckValues_lt hv

theorem cashaddrPrefix_eq {p : Bytes} (hp : (0x3a : UInt8) ∉ p) : cashaddrPrefix p = p :=
  if_neg fun h => hp (List.mem_of_getLast? h)

/-- What is encoded is decoded to the same type and hash exactly if the type is
below sixteen: of the others the version byte loses bits, or sets its reserved one. -/
theorem cashaddrDecode_encode_iff {p hash text : Bytes} {t : UInt8} (hlower : Lowercase p)
    (hp : (0x3a : UInt8) ∉ p) (h : cashaddrEncode p t hash = .ok text) :
    cashaddrDecode p text = .ok (t, hash) ↔ t < 16 := by
  rw [cashaddrDecode_iff, cashaddrPrefix_eq hp]
  refine ⟨fun h => h.1, fun ht => ⟨ht, text, h, Or.inl ⟨hp, ?_⟩⟩⟩
  exact toLower_eq_self (lowercase_of_cashaddrEncode ((cashaddrPrefix_eq hp).symm ▸ hlower) h)

theorem cashaddrDecode_encode_sample :
    cashaddrEncode (ofString "bitcoincash") 1 (List.replicate 20 7) =
        .ok (ofString "bitcoincash:pqrswpc8qurswpc8qurswpc8qurswpc8quugk76d9n") ∧
      (cashaddrDecode (ofString "bitcoincash")
          (ofString "bitcoincash:pqrswpc8qurswpc8qurswpc8qurswpc8quugk76d9n") =
        .ok (1, List.replicate 20 7) ↔ (1 : UInt8) < 16) := by
  have hencode : cashaddrEncode (ofString "bitcoincash") 1 (List.replicate 20 7) =
      .ok (ofString "bitcoincash:pqrswpc8qurswpc8qurswpc8qurswpc8quugk76d9n") := by
    decide +kernel
  exact ⟨hencode, cashaddrDecode_encode_iff (by decide +kernel) (by decide +kernel) hencode⟩

/-- The shift drops the one bit of type 32, whose address is that of type 0. -/
theorem type_of_cashaddrEncode_lost :
    cashaddrEncode (ofString "bitcoincash") 32 (List.replicate 20 7) =
        .ok (ofString "bitcoincash:qqrswpc8qurswpc8qurswpc8qurswpc8qutdt3aw7w") ∧
      cashaddrDecode (ofString "bitcoincash")
          (ofString "bitcoincash:qqrswpc8qurswpc8qurswpc8qurswpc8qutdt3aw7w") =
        .ok (0, List.replicate 20 7) := by
  decide +kernel

/-- What is decoded is an address in a single letter case exactly if the text is
in a single case, or is an address in no case. -/
theorem cashaddrDecode_singleCase_iff (front addr : Bytes) :
    (∀ t hash, cashaddrDecode front addr = .ok (t, hash) → SingleCase addr ∧
      ∃ text, cashaddrEncode front t hash = .ok text ∧
        AddressOf (cashaddrPrefix front) text addr) ↔
    SingleCase addr ∨ ∀ t hash text, t < 16 → cashaddrEncode front t hash = .ok text →
      ¬ AddressOf (cashaddrPrefix front) text addr := by
  constructor
  · intro h
    by_contra hnot
    obtain ⟨hcase, hsome⟩ := not_or.mp hnot
    refine hsome fun t hash text ht hencode haddr => hcase ?_
    exact (h t hash (cashaddrDecode_iff.mpr ⟨ht, text, hencode, haddr⟩)).1
  · rintro (hcase | hnone) t hash hdecode
    · exact ⟨hcase, (cashaddrDecode_iff.mp hdecode).2⟩
    · obtain ⟨ht, text, hencode, haddr⟩ := cashaddrDecode_iff.mp hdecode
      exact absurd haddr (hnone t hash text ht hencode)

/-- An address whose last letter alone is a capital. -/
theorem cashaddrDecode_mixed_case :
    cashaddrDecode (ofString "bitcoincash:")
        (ofString "bitcoincash:qpusjxtjrpkyf843mmfzk78yp5qfhhcq3yv38ma5lM") =
      .ok (0, [121, 9, 25, 114, 24, 108, 68, 158, 177, 222, 210, 43, 120, 228, 13, 0, 155, 223,
        0, 137]) ∧
      ¬ SingleCase (ofString "bitcoincash:qpusjxtjrpkyf843mmfzk78yp5qfhhcq3yv38ma5lM") := by
  refine ⟨by decide +kernel, ?_⟩
  rintro (h | h)
  · exact absurd (h 0x4d (by decide)) (by decide)
  · exact absurd (h 0x62 (by decide)) (by decide)

end Outscript.Bech32
