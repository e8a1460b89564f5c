import Outscript.Crypto.Hash
import Outscript.Library.Blake2
import Outscript.Library.Chunks
import Outscript.Sink

/-!
# Personalized BLAKE2b

The crate's own BLAKE2b, which takes a message in pieces. A buffer of one block
holds what is not compressed yet, behind it may lie what an earlier block left,
and a full buffer is only compressed once more data follows.
-/
namespace Outscript

open Blake2 ByteString Chunks

def blake2bIv : Vector UInt64 8 :=
  #v[0x6a09e667f3bcc908, 0xbb67ae8584caa73b, 0x3c6ef372fe94f82b, 0xa54ff53a5f1d36f1,
    0x510e527fade682d1, 0x9b05688c2b3e6c1f, 0x1f83d9abfb41bd6b, 0x5be0cd19137e2179]

def blake2bSigma : Vector (Vector (Fin 16) 16) 10 :=
  #v[#v[0, 1, 2, 3, 4, 5, 6, 7, 8, 9, 10, 11, 12, 13, 14, 15],
    #v[14, 10, 4, 8, 9, 15, 13, 6, 1, 12, 0, 2, 11, 7, 5, 3],
    #v[11, 8, 12, 0, 5, 2, 15, 13, 10, 14, 3, 6, 7, 1, 9, 4],
    #v[7, 9, 3, 1, 13, 12, 11, 14, 2, 6, 5, 10, 4, 0, 15, 8],
    #v[9, 0, 5, 7, 2, 4, 10, 15, 14, 1, 11, 12, 6, 8, 3, 13],
    #v[2, 12, 6, 10, 0, 11, 8, 3, 4, 13, 7, 5, 15, 14, 1, 9],
    #v[12, 5, 1, 15, 14, 13, 4, 10, 0, 7, 6, 3, 9, 2, 8, 11],
    #v[13, 11, 7, 14, 12, 1, 3, 9, 5, 0, 15, 4, 8, 6, 2, 10],
    #v[6, 15, 14, 9, 11, 3, 0, 8, 12, 2, 13, 7, 1, 4, 10, 5],
    #v[10, 2, 8, 4, 7, 6, 1, 5, 15, 11, 9, 14, 3, 12, 13, 0]]

def rotateRight (x : UInt64) (n : ℕ) : UInt64 := .ofBitVec (x.toBitVec.rotateRight n)

def fromLeBytes (b : Bytes) : UInt64 := .ofNat (leVal b)

def toLeBytes (word : UInt64) : Bytes := le 8 word.toNat

theorem length_toLeBytes (word : UInt64) : (toLeBytes word).length = 8 := length_le 8 word.toNat

structure Blake2bPersonal where
  h : Vector UInt64 8
  /-- Bytes hashed so far, not counting what `buf` holds. -/
  counter : BitVec 128
  buf : ByteVec 128
  bufLen : ℕ
  outLen : ℕ
  bufLen_le : bufLen ≤ 128

namespace Blake2bPersonal

/-- The parameter block: digest length, no key, fanout 1, depth 1, and the
personalization in its last two words. -/
def parameters (outLen : ℕ) (person : Bytes) : Vector UInt64 8 :=
  let p := splice (List.replicate 16 0) 0 person
  let h := blake2bIv
  let h := h.set 0 (h[0] ^^^ (.ofNat outLen ||| (1 : UInt64) <<< 16 ||| (1 : UInt64) <<< 24))
  let h := h.set 6 (h[6] ^^^ fromLeBytes (p.take 8))
  h.set 7 (h[7] ^^^ fromLeBytes (p.drop 8))

/-- The assertions of the source panic. -/
def new (outLen : ℕ) (person : Bytes) : Except Trap Blake2bPersonal :=
  if ¬ (1 ≤ outLen ∧ outLen ≤ 64) then .error .panic
  else if ¬ person.length ≤ 16 then .error .panic
  else
    .ok
      { h := parameters outLen person
        counter := 0
        buf := .replicate 128 0
        bufLen := 0
        outLen
        bufLen_le := Nat.zero_le _ }

/-- The mixing of four words of the working vector. -/
def g (v : Vector UInt64 16) (a b c d : Fin 16) (x y : UInt64) : Vector UInt64 16 :=
  let v := v.set a (v[a] + v[b] + x)
  let v := v.set d (rotateRight (v[d] ^^^ v[a]) 32)
  let v := v.set c (v[c] + v[d])
  let v := v.set b (rotateRight (v[b] ^^^ v[c]) 24)
  let v := v.set a (v[a] + v[b] + y)
  let v := v.set d (rotateRight (v[d] ^^^ v[a]) 16)
  let v := v.set c (v[c] + v[d])
  v.set b (rotateRight (v[b] ^^^ v[c]) 63)

def round (m v : Vector UInt64 16) (r : ℕ) : Vector UInt64 16 :=
  let s := blake2bSigma[r % 10]
  let v := g v 0 4 8 12 m[s[0]] m[s[1]]
  let v := g v 1 5 9 13 m[s[2]] m[s[3]]
  let v := g v 2 6 10 14 m[s[4]] m[s[5]]
  let v := g v 3 7 11 15 m[s[6]] m[s[7]]
  let v := g v 0 5 10 15 m[s[8]] m[s[9]]
  let v := g v 1 6 11 12 m[s[10]] m[s[11]]
  let v := g v 2 7 8 13 m[s[12]] m[s[13]]
  g v 3 4 9 14 m[s[14]] m[s[15]]

/-- The words of the buffer. -/
def blockWords (buf : ByteVec 128) : Vector UInt64 16 :=
  ⟨((asChunks 8 buf.toList).map fromLeBytes).toArray, by
    rw [List.size_toArray, List.length_map, asChunks, length_chunksFrom, buf.toList_length]⟩

/-- The working vector before the rounds. -/
def working (s : Blake2bPersonal) (last : Bool) : Vector UInt64 16 :=
  let v : Vector UInt64 16 := s.h ++ blake2bIv
  let v := v.set 12 (v[12] ^^^ .ofBitVec (s.counter.setWidth 64))
  let v := v.set 13 (v[13] ^^^ .ofBitVec ((s.counter >>> 64).setWidth 64))
  if last then v.set 14 (~~~v[14]) else v

def compress (s : Blake2bPersonal) (last : Bool) : Blake2bPersonal :=
  let v := (List.range 12).foldl (round (blockWords s.buf)) (s.working last)
  { s with h := .ofFn fun i => s.h[i] ^^^ (v[i.val] ^^^ v[i.val + 8]) }

/-- A full buffer is compressed. -/
def flush (s : Blake2bPersonal) : Blake2bPersonal :=
  if s.bufLen = 128 then
    { ({ s with counter := s.counter + 128 }).compress false with
      bufLen := 0
      bufLen_le := Nat.zero_le _ }
  else s

theorem bufLen_flush (s : Blake2bPersonal) : s.flush.bufLen < 128 := by
  have hle := s.bufLen_le
  rw [flush]
  split_ifs
  · exact (by decide : 0 < 128)
  · omega

/-- Copies data behind what the buffer holds. -/
def fill (s : Blake2bPersonal) (data : Bytes) (h : s.bufLen + data.length ≤ 128) : Blake2bPersonal :=
  { s with
    buf := ⟨splice s.buf.toList s.bufLen data, by
      rw [length_splice (by rwa [s.buf.toList_length]), s.buf.toList_length]⟩
    bufLen := s.bufLen + data.length
    bufLen_le := h }

def update (s : Blake2bPersonal) (data : Bytes) : Blake2bPersonal :=
  if data = [] then s
  else
    let n := min data.length (128 - s.flush.bufLen)
    (s.flush.fill (data.take n) (by have := bufLen_flush s; grind)).update (data.drop n)
termination_by data.length
decreasing_by
  have := bufLen_flush s
  have := List.length_pos_iff.mpr ‹data ≠ []›
  rw [List.length_drop]
  omega

/-- The buffer with zeros behind what it holds. -/
def zeroFill (s : Blake2bPersonal) : ByteVec 128 :=
  ⟨s.buf.toList.take s.bufLen ++ List.replicate (128 - s.bufLen) 0, by
    have := s.bufLen_le
    rw [List.length_append, List.length_replicate, List.length_take, s.buf.toList_length]
    omega⟩

/-- The last block is compressed. -/
def finish (s : Blake2bPersonal) : Blake2bPersonal :=
  ({ s with counter := s.counter + BitVec.ofNat 128 s.bufLen, buf := s.zeroFill }).compress true

/-- The buffer of the caller afterwards. -/
def finalizeInto (s : Blake2bPersonal) (out : Bytes) : Except Trap Bytes :=
  if out.length ≠ s.outLen then .error .panic
  else
    .ok (Id.run (overwrite (fun dst word => pure ((toLeBytes word).take dst.length))
      (chunks 8 out) s.finish.h.toList))

def finalize32 (s : Blake2bPersonal) : Except Trap Bytes := s.finalizeInto (List.replicate 32 0)

end Blake2bPersonal

def blake2b256Personal (person data : Bytes) : Except Trap Bytes := do
  let h ← Blake2bPersonal.new 32 person
  (h.update data).finalize32

/-! ## The words of the standard -/

theorem iv_eq : blake2bIv.map UInt64.toBitVec = blake2b.iv := by decide +kernel

theorem sigma_row : ∀ r : Fin 10, ∀ i : Fin 16, Variant.sigma r i = blake2bSigma[r][i] := by
  decide +kernel

theorem sigma_eq (r : ℕ) {i : ℕ} (hi : i < 16) : Variant.sigma r i = blake2bSigma[r % 10][i] := by
  have hrow : Variant.sigma r i = Variant.sigma (r % 10) i := by
    rw [Variant.sigma, Variant.sigma, Nat.mod_mod]
  exact hrow.trans (sigma_row ⟨r % 10, Nat.mod_lt r (by decide)⟩ ⟨i, hi⟩)

namespace Blake2bPersonal

def toBits {n : ℕ} (v : Vector UInt64 n) : Vector (BitVec 64) n := v.map UInt64.toBitVec

theorem get_eq {α : Type} {n : ℕ} (v : Vector α n) (i : Fin n) : v.get i = v[i.val] := rfl

theorem toBitVec_get {n i : ℕ} (v : Vector UInt64 n) (hi : i < n) :
    v[i].toBitVec = (toBits v)[i] := (Vector.getElem_map ..).symm

theorem toBits_set {n i : ℕ} (v : Vector UInt64 n) (hi : i < n) (x : UInt64) :
    toBits (v.set i x) = (toBits v).set i x.toBitVec := Vector.map_set

theorem g_eq (v : Vector UInt64 16) (a b c d : Fin 16) (x y : UInt64) :
    toBits (g v a b c d x y) = blake2b.mix (toBits v) a b c d x.toBitVec y.toBitVec := by
  simp only [g, Variant.mix, Variant.put, rotateRight, Fin.getElem_fin, get_eq, toBits_set,
    UInt64.toBitVec_add, UInt64.toBitVec_xor, toBitVec_get]

theorem round_eq (m v : Vector UInt64 16) (r : ℕ) :
    toBits (round m v r) = blake2b.round (toBits m) (toBits v) r := by
  simp only [round, Variant.round, Variant.lanes, List.zipIdx_cons, List.zipIdx_nil, List.foldl_cons,
    List.foldl_nil, Nat.reduceMul, Nat.reduceAdd, g_eq, Fin.getElem_fin, get_eq,
    toBitVec_get]
  simp (disch := decide) only [sigma_eq]

theorem rounds_eq (m v : Vector UInt64 16) (rs : List ℕ) :
    toBits (rs.foldl (round m) v) = rs.foldl (blake2b.round (toBits m)) (toBits v) := by
  induction rs generalizing v with
  | nil => rfl
  | cons r rs ih => rw [List.foldl_cons, List.foldl_cons, ih, round_eq]

theorem blockWords_eq (buf : ByteVec 128) :
    toBits (blockWords buf) = .ofFn fun i => blake2b.wordAt buf.toList i := by
  ext i hi
  simp only [toBits, blockWords, Vector.getElem_map, Vector.getElem_ofFn, Vector.getElem_mk,
    List.getElem_toArray, List.getElem_map, asChunks, getElem_chunksFrom]
  rfl

theorem working_eq (s : Blake2bPersonal) (last : Bool) {t : ℕ}
    (ht : s.counter = BitVec.ofNat 128 t) :
    toBits (s.working last) = blake2b.initial (toBits s.h) t last := by
  have hlow : s.counter.setWidth 64 = BitVec.ofNat 64 t := by
    rw [ht]
    apply BitVec.eq_of_toNat_eq
    simp
  have hhigh : (s.counter >>> 64).setWidth 64 = BitVec.ofNat 64 (t / 2 ^ 64) := by
    rw [ht]
    apply BitVec.eq_of_toNat_eq
    simp
    omega
  have hstart : toBits (s.h ++ blake2bIv) = toBits s.h ++ blake2b.iv := by
    rw [toBits, Vector.map_append, iv_eq, toBits]
  simp only [working, Variant.initial, Variant.put, hlow, hhigh, apply_ite toBits, toBits_set,
    UInt64.toBitVec_xor, UInt64.toBitVec_not, toBitVec_get, get_eq, hstart, BitVec.xor_allOnes]
  rfl

theorem compress_eq (s : Blake2bPersonal) (last : Bool) {t : ℕ}
    (ht : s.counter = BitVec.ofNat 128 t) :
    toBits (s.compress last).h = blake2b.compress (toBits s.h) s.buf.toList t last := by
  have hv := rounds_eq (blockWords s.buf) (s.working last) (List.range 12)
  rw [working_eq s last ht, blockWords_eq] at hv
  rw [Variant.compress]
  refine Vector.ext fun i hi => ?_
  rw [← hv]
  simp only [compress, ← toBitVec_get, Fin.getElem_fin, get_eq, Fin.val_castAdd, Fin.val_addNat,
    Vector.getElem_ofFn, UInt64.toBitVec_xor, BitVec.xor_assoc]
  rw [toBitVec_get, toBitVec_get, toBitVec_get]

theorem parameters_eq {outLen : ℕ} {person : Bytes} (hout : outLen ≤ 64)
    (hperson : person.length ≤ 16) :
    toBits (parameters outLen person) = blake2b.start outLen person := by
  let q := BlockHash.pad 16 0 person
  have hlen : q.length = 16 := BlockHash.length_pad hperson
  have hp : splice (List.replicate 16 0) 0 person = q := by
    rw [splice, List.take_zero, List.nil_append, Nat.zero_add, List.drop_replicate]
    rfl
  let parts : List Bytes := [.ofNat outLen, 0, 1, 1, 0, 0, 0, 0] ::
    (List.replicate 5 (List.replicate 8 0) ++ [q.take 8, q.drop 8])
  have hblock : blake2b.parameterBlock outLen person = parts.flatten := by
    have hq : parts.flatten =
        [.ofNat outLen, 0, 1, 1, 0, 0, 0, 0] ++ (List.replicate 40 0 ++ (q.take 8 ++ q.drop 8)) := by
      simp [parts, List.replicate]
    rw [hq, List.take_append_drop]
    rfl
  have hparts : ∀ p ∈ parts, p.length = 8 := by simp [parts, hlen]
  have hword (i : ℕ) (hi : i < 8) :
      blake2b.wordAt (blake2b.parameterBlock outLen person) i = BitVec.ofNat 64 (leVal parts[i]) := by
    rw [hblock]
    exact blake2b.wordAt_flatten hparts hi
  have hlengths : ∀ n ≤ 64,
      (.ofNat n ||| (1 : UInt64) <<< 16 ||| (1 : UInt64) <<< 24 : UInt64).toBitVec =
        BitVec.ofNat 64 (leVal [.ofNat n, 0, 1, 1, 0, 0, 0, 0]) := by decide
  have hiv (i : ℕ) (hi : i < 8) : blake2b.iv[i] = blake2bIv[i].toBitVec := by
    rw [← iv_eq, Vector.getElem_map]
  refine Vector.ext fun i hi => ?_
  simp only [← toBitVec_get, Variant.start, Vector.getElem_ofFn, get_eq, hword i hi, hiv,
    parameters, hp]
  interval_cases i
  case «0» => exact congrArg (blake2bIv[0].toBitVec ^^^ ·) (hlengths outLen hout)
  case «6» => rfl
  case «7» => rfl
  all_goals simp [parts, leVal]

/-! ## Messages in pieces -/

/-- What the state holds of a message that came in pieces. -/
structure Fed (outLen : ℕ) (person msg : Bytes) (s : Blake2bPersonal) : Prop where
  outLen_eq : s.outLen = outLen
  holds : ∃ count, s.counter = BitVec.ofNat 128 count ∧
    BlockHash.Holds 128 0 blake2b.compress (blake2b.start outLen person) msg (toBits s.h) count
      (s.buf.toList.take s.bufLen)

variable {outLen : ℕ} {person msg piece out : Bytes} {s : Blake2bPersonal}

theorem length_waiting (s : Blake2bPersonal) : (s.buf.toList.take s.bufLen).length = s.bufLen := by
  have hle := s.bufLen_le
  rw [List.length_take, s.buf.toList_length]
  omega

theorem fed_fill (hs : s.Fed outLen person msg) (h : s.bufLen + piece.length ≤ 128) :
    (s.fill piece h).Fed outLen person (msg ++ piece) := by
  obtain ⟨count, hcount, hholds⟩ := hs.holds
  have htake : (s.fill piece h).buf.toList.take (s.fill piece h).bufLen =
      s.buf.toList.take s.bufLen ++ piece := take_splice (by rwa [s.buf.toList_length])
  refine ⟨hs.outLen_eq, count, hcount, ?_⟩
  rw [htake]
  exact hholds.fill (by rwa [length_waiting])

/-- A step of the loop: a full buffer makes room before data is copied. -/
theorem fed_step (hs : s.Fed outLen person msg) (hne : piece ≠ [])
    (h : s.flush.bufLen + piece.length ≤ 128) :
    (s.flush.fill piece h).Fed outLen person (msg ++ piece) := by
  by_cases hfull : s.bufLen = 128
  · obtain ⟨count, hcount, hholds⟩ := hs.holds
    have hflush : s.flush = _ := if_pos hfull
    have hbuf : s.buf.toList.take s.bufLen = s.buf.toList :=
      List.take_of_length_le (by rw [s.buf.toList_length, hfull])
    have hroom : piece.length ≤ 128 := by omega
    have htake : (s.flush.fill piece h).buf.toList.take (s.flush.fill piece h).bufLen = piece := by
      have hfront := @take_splice s.flush.buf.toList piece s.flush.bufLen
        (by rwa [s.flush.buf.toList_length])
      have hempty : s.flush.bufLen = 0 := by rw [hflush]
      rw [hempty, List.take_zero, List.nil_append] at hfront
      rw [← hempty] at hfront
      exact hfront
    have hword : toBits (s.flush.fill piece h).h =
        blake2b.compress (toBits s.h) s.buf.toList (count + 128) false := by
      have hcounter : s.counter + 128 = BitVec.ofNat 128 (count + 128) := by
        rw [hcount, BitVec.ofNat_add]
        rfl
      rw [← compress_eq { s with counter := s.counter + 128 } false hcounter]
      change toBits s.flush.h = _
      rw [hflush]
    refine ⟨?_, count + 128, ?_, ?_⟩
    · change s.flush.outLen = outLen
      rw [hflush]
      exact hs.outLen_eq
    · change s.flush.counter = _
      rw [hflush, BitVec.ofNat_add, ← hcount]
      rfl
    · rw [htake, hword, ← hbuf]
      exact hholds.flush (by rw [length_waiting, hfull]) hne hroom
  · have hkept : s.flush = s := if_neg hfull
    revert h
    rw [hkept]
    exact fun h => fed_fill hs h

theorem fed_update (hs : s.Fed outLen person msg) (data : Bytes) :
    (s.update data).Fed outLen person (msg ++ data) := by
  induction s, data using update.induct generalizing msg with
  | case1 s =>
    rw [update, if_pos rfl, List.append_nil]
    exact hs
  | case2 s data hdata n =>
    rename_i ih
    have hroom := bufLen_flush s
    have hpos := List.length_pos_iff.mpr hdata
    have hpiece : data.take n ≠ [] := by
      rw [← List.length_pos_iff, List.length_take]
      omega
    have hstep := ih (fed_step hs hpiece _)
    rw [List.append_assoc, List.take_append_drop] at hstep
    rw [update, if_neg hdata]
    exact hstep

theorem fed_pieces (hs : s.Fed outLen person msg) (pieces : List Bytes) :
    (pieces.foldl update s).Fed outLen person (msg ++ pieces.flatten) := by
  induction pieces generalizing s msg with
  | nil =>
    rw [List.flatten_nil, List.append_nil]
    exact hs
  | cons piece pieces ih =>
    rw [List.flatten_cons, ← List.append_assoc]
    exact ih (fed_update hs piece)

theorem exists_new (hout : 1 ≤ outLen ∧ outLen ≤ 64) (hperson : person.length ≤ 16) :
    ∃ s, new outLen person = .ok s ∧ s.Fed outLen person [] := by
  rw [new, if_neg (not_not.mpr hout), if_neg (not_not.mpr hperson)]
  refine ⟨_, rfl, rfl, 0, rfl, ?_⟩
  rw [parameters_eq hout.2 hperson]
  exact .start

theorem finish_eq (hs : s.Fed outLen person msg) :
    toBits s.finish.h =
      BlockHash.digest 128 0 blake2b.compress (blake2b.start outLen person) msg := by
  obtain ⟨count, hcount, hholds⟩ := hs.holds
  have hcounter : s.counter + BitVec.ofNat 128 s.bufLen = BitVec.ofNat 128 (count + s.bufLen) := by
    rw [hcount, BitVec.ofNat_add]
  have hfilled : s.zeroFill.toList = BlockHash.pad 128 0 (s.buf.toList.take s.bufLen) := by
    rw [BlockHash.pad, length_waiting]
    rfl
  rw [← hholds.finish (by decide), length_waiting, ← hfilled]
  exact compress_eq _ true hcounter

theorem finalizeInto_eq (hs : s.Fed outLen person msg) (hmax : outLen ≤ 64)
    (hlen : out.length = outLen) :
    s.finalizeInto out = .ok (blake2b.digest outLen person msg) := by
  have hfits : out.length ≤ s.finish.h.toList.length * 8 := by
    rw [Vector.length_toList]
    omega
  have hbytes : s.finish.h.toList.flatMap toLeBytes =
      (toBits s.finish.h).toList.flatMap fun word => le 8 word.toNat := by
    rw [toBits, Vector.toList_map, List.flatMap_map]
    rfl
  rw [finalizeInto, if_neg (not_not.mpr (hlen.trans hs.outLen_eq.symm)),
    overwrite_take (by decide) length_toLeBytes hfits, hbytes,
    finish_eq hs, hlen]
  rfl

/-- However a message is cut, its digest is the one of the standard. -/
theorem digest_of_pieces (hout : 1 ≤ outLen ∧ outLen ≤ 64) (hperson : person.length ≤ 16)
    (hlen : out.length = outLen) (pieces : List Bytes) :
    (do
      let h ← new outLen person
      (pieces.foldl update h).finalizeInto out) =
      .ok (blake2b.digest outLen person pieces.flatten) := by
  obtain ⟨s, hnew, hs⟩ := exists_new hout hperson
  rw [hnew]
  exact finalizeInto_eq (fed_pieces hs pieces) hout.2 hlen

/-- A message in three pieces, one of them empty. -/
theorem digest_of_pieces_sample :
    (do
      let h ← new 32 (Hashes.tagBytes "ZTxIdHeadersHash")
      ([[0x61], [], [0x62, 0x63]].foldl update h).finalizeInto (List.replicate 32 0)) =
      .ok (blake2b.digest 32 (Hashes.tagBytes "ZTxIdHeadersHash")
        (List.flatten [[0x61], [], [0x62, 0x63]])) :=
  digest_of_pieces ⟨by decide, by decide⟩ (by decide) List.length_replicate _

/-- The hash as a sink. -/
instance : LawfulSink Blake2bPersonal where
  put := update
  After s b s' := ∀ {outLen person msg}, s.Fed outLen person msg → s'.Fed outLen person (msg ++ b)
  after_nil s := fun hs => by rwa [List.append_nil]
  after_put := by
    intro s s' b h c outLen person msg hs
    rw [← List.append_assoc]
    exact fed_update (h hs) c

/-- Whatever is written into the hash is hashed. -/
theorem digest_of_writes {f : Blake2bPersonal → Blake2bPersonal} {b : Bytes} (hf : Writes f b)
    (hout : 1 ≤ outLen ∧ outLen ≤ 64) (hperson : person.length ≤ 16) (hlen : out.length = outLen) :
    (do
      let h ← new outLen person
      (f h).finalizeInto out) = .ok (blake2b.digest outLen person b) := by
  obtain ⟨s, hnew, hs⟩ := exists_new hout hperson
  rw [hnew]
  exact finalizeInto_eq (hf.after s hs) hout.2 hlen

end Blake2bPersonal

theorem blake2b256Personal_eq {person : Bytes} (hperson : person.length ≤ 16) (data : Bytes) :
    blake2b256Personal person data = .ok (blake2b.digest 32 person data) :=
  Blake2bPersonal.digest_of_writes (Writes.put data) (by decide) hperson List.length_replicate

end Outscript
