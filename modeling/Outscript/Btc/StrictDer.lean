import Outscript.Btc.TxParse
import Outscript.Crypto.Ecdsa
import Outscript.Library.Buffer

/-!
# DER signatures in their buffer

A signature is kept inline in a buffer of 72 bytes. Reading and writing it by
positions never reaches outside, and computes what the list functions compute.
What is encoded is strict: integers are positive and have no byte too many.
-/
namespace Outscript.Secp256k1

open ByteString Fallible Buffer

/-! ## Reading -/

/-- The position behind the zeros; `fuel` bounds their number. -/
def zerosEnd (b : Bytes) : ℕ → ℕ → Except Trap ℕ
  | 0, start => .ok start
  | fuel + 1, start =>
    if start < b.length then do
      let c ← item .panic b start
      if c = 0x00 then zerosEnd b fuel (start + 1) else .ok start
    else .ok start

def normalize32Buf (e : Error) (b : Bytes) : Except Trap (ByteVec 32) := do
  let start ← zerosEnd b b.length 0
  let trimmed ← slice .panic b start b.length
  if 32 < trimmed.length then .error (.error e)
  else do
    let out ← copy .panic (List.replicate 32 0x00) (32 - trimmed.length) 32 trimmed
    okOr (tryInto 32 out) .panic

/-- `parse_der_signature`, with every access to the bytes. -/
def parseDerBuf (sig : Bytes) : Except Trap (ByteVec 32 × ByteVec 32) := do
  if sig.length < 8 ∨ 72 < sig.length then .error (.error .malformed)
  else
    let tag ← item .panic sig 0
    if tag ≠ 0x30 then .error (.error .malformed)
    else
      let total ← item .panic sig 1
      if total.toNat ≠ sig.length - 2 then .error (.error .malformed)
      else
        let rTag ← item .panic sig 2
        if rTag ≠ 0x02 then .error (.error .malformed)
        else
          let rLen ← item .panic sig 3
          let sTypeOff := 4 + rLen.toNat
          if sTypeOff + 1 ≥ sig.length then .error (.error .malformed)
          else
            let sTag ← item .panic sig sTypeOff
            if sTag ≠ 0x02 then .error (.error .malformed)
            else
              let sLen ← item .panic sig (sTypeOff + 1)
              let sOff := sTypeOff + 2
              if sOff + sLen.toNat ≠ sig.length then .error (.error .malformed)
              else
                let rBytes ← slice .panic sig 4 (4 + rLen.toNat)
                let r ← normalize32Buf .malformed rBytes
                let sBytes ← slice .panic sig sOff (sOff + sLen.toNat)
                let s ← normalize32Buf .malformed sBytes
                .ok (r, s)

/-! ## Writing -/

/-- The buffer of 72 bytes, and how many of them are the encoding. -/
structure DerBuffer where
  buf : Bytes
  len : UInt8
  deriving DecidableEq

def DerBuffer.asBytes (d : DerBuffer) : Except Trap Bytes := slice .panic d.buf 0 d.len.toNat

/-- `expect` on the encoding. -/
def DerBuffer.toRs (d : DerBuffer) : Except Trap (ByteVec 32 × ByteVec 32) := do
  let sig ← d.asBytes
  match parseDerBuf sig with
  | .ok rs => .ok rs
  | .error _ => .error .panic

/-- The loop, with the rounds left of its thirty-two. -/
def canonStart (buf : Bytes) : ℕ → ℕ → Except Trap ℕ
  | 0, start => .ok start
  | rounds + 1, start => do
    let b ← item .panic buf start
    if b = 0x00 then do
      let next ← item .panic buf (start + 1)
      if next &&& 0x80 = 0 then canonStart buf rounds (start + 1) else .ok start
    else .ok start

def canonIntBuf (value : ByteVec 32) : Except Trap (Bytes × ℕ) := do
  let buf ← copy .panic (List.replicate 33 0x00) 1 33 value.toList
  let start ← canonStart buf 32 0
  .ok (buf, start)

def derEncodeBuf (r s : ByteVec 32) : Except Trap DerBuffer := do
  let (rBuf, rStart) ← canonIntBuf r
  let (sBuf, sStart) ← canonIntBuf s
  let r ← slice .panic rBuf rStart rBuf.length
  let s ← slice .panic sBuf sStart sBuf.length
  let total := 6 + r.length + s.length
  let buf := List.replicate 72 0x00
  let buf ← set .panic buf 0 0x30
  let buf ← set .panic buf 1 (UInt8.ofNat (total - 2))
  let buf ← set .panic buf 2 0x02
  let buf ← set .panic buf 3 (UInt8.ofNat r.length)
  let buf ← copy .panic buf 4 (4 + r.length) r
  let sOff := 4 + r.length
  let buf ← set .panic buf sOff 0x02
  let buf ← set .panic buf (sOff + 1) (UInt8.ofNat s.length)
  let buf ← copy .panic buf (sOff + 2) total s
  .ok ⟨buf, UInt8.ofNat total⟩

/-- Not zero, and below the order. -/
def isValidScalarBe (v : ByteVec 32) : Bool :=
  v.toList.any (· ≠ 0) && decide (v < beVec 32 order)

def DerBuffer.fromRs (r s : ByteVec 32) : Except Trap DerBuffer :=
  if !isValidScalarBe r || !isValidScalarBe s then .error (.error .malformed)
  else derEncodeBuf r s

def DerBuffer.fromRsLowS (C : Hazmat) (r s : ByteVec 32) : Except Trap DerBuffer :=
  if !isValidScalarBe r || !isValidScalarBe s then .error (.error .malformed)
  else if !isOverHalfOrder s then derEncodeBuf r s
  else do
    let d ← okOr (C.scalarFromBytesBe s) (.error .malformed)
    derEncodeBuf r (C.toBytesBe (C.negate d))

/-- Keeps an encoding as it is. -/
def DerBuffer.fromDer (sig : Bytes) : Except Trap DerBuffer := do
  let _ ← parseDerBuf sig
  let buf ← copy .panic (List.replicate 72 0x00) 0 sig.length sig
  .ok ⟨buf, UInt8.ofNat sig.length⟩

/-! ## Positions and lists -/

theorem zerosEnd_eq {b : Bytes} {fuel start : ℕ} (hstart : start ≤ b.length)
    (hfuel : b.length ≤ start + fuel) :
    ∃ n, zerosEnd b fuel start = .ok n ∧ n ≤ b.length ∧
      b.drop n = (b.drop start).dropWhile (· = 0x00) := by
  induction fuel generalizing start with
  | zero =>
    obtain rfl : start = b.length := by omega
    exact ⟨_, rfl, le_rfl, by rw [List.drop_length]; rfl⟩
  | succ fuel ih =>
    rw [zerosEnd]
    split_ifs with hlt
    · rw [item_of_lt hlt, ok_bind, List.drop_eq_getElem_cons hlt]
      by_cases hzero : b.get ⟨start, hlt⟩ = 0x00
      · obtain ⟨n, hn, hle, hdrop⟩ := ih hlt (by omega)
        refine ⟨n, (if_pos hzero).trans hn, hle, hdrop.trans ?_⟩
        exact (List.dropWhile_cons_of_pos (p := fun c => decide (c = 0x00)) (decide_eq_true hzero)).symm
      · refine ⟨start, if_neg hzero, hstart, (List.drop_eq_getElem_cons hlt).trans ?_⟩
        exact (List.dropWhile_cons_of_neg (p := fun c => decide (c = 0x00)) (by simpa using hzero)).symm
    · obtain rfl : start = b.length := by omega
      exact ⟨_, rfl, le_rfl, by rw [List.drop_length]; rfl⟩

/-- A number at the right end of an array of zeros. -/
theorem copy_right {b : Bytes} (h : b.length ≤ 32) :
    copy Trap.panic (List.replicate 32 0x00) (32 - b.length) 32 b =
      .ok (List.replicate (32 - b.length) 0x00 ++ b) := by
  have hzeros : List.replicate 32 (0x00 : UInt8) = List.replicate (32 - b.length) 0x00 ++
      (List.replicate b.length 0x00 ++ []) := by
    rw [List.append_nil, List.replicate_append_replicate, Nat.sub_add_cancel h]
  rw [hzeros, copy_append (List.length_replicate ..) (by simp; omega) (by simp), List.append_nil]

theorem normalize32Buf_eq (e : Error) (b : Bytes) :
    normalize32Buf e b = orTrap (normalize32 e b) := by
  obtain ⟨n, hn, hle, hdrop⟩ := zerosEnd_eq (Nat.zero_le b.length) (Nat.zero_add b.length).ge
  rw [List.drop_zero] at hdrop
  rw [normalize32Buf, hn, ok_bind, slice_to_end hle, ok_bind, hdrop]
  by_cases hfits : (b.dropWhile (· = 0x00)).length ≤ 32
  · obtain ⟨v, hv, hnormal⟩ : ∃ v : ByteVec 32,
        List.replicate (32 - (b.dropWhile (· = 0x00)).length) 0x00 ++ b.dropWhile (· = 0x00) =
          v.toList ∧ normalize32 e b = .ok v :=
      ⟨⟨_, by simp; omega⟩, rfl, dif_pos hfits⟩
    rw [hnormal, if_neg (not_lt.mpr hfits), copy_right hfits, ok_bind, tryInto_eq_some.mpr hv]
    rfl
  · have hnormal : normalize32 e b = .error e := dif_neg hfits
    rw [hnormal, if_pos (not_le.mp hfits)]
    rfl

/-- Behind the first integer there are a tag and a length, where the positions are in the
bytes. -/
theorem derSecond_eq (rLen : ℕ) (rest : Bytes) :
    derSecond rLen rest = if 1 + rLen < rest.length ∧ rest[rLen]? = some 0x02 then
      some (rest.getD (rLen + 1) 0, rest.drop (rLen + 2)) else none := by
  rw [derSecond]
  by_cases hlt : 1 + rLen < rest.length
  · have hdrop : rest.drop rLen = rest[rLen] :: rest[rLen + 1] :: rest.drop (rLen + 2) := by
      rw [List.drop_eq_getElem_cons (by omega), List.drop_eq_getElem_cons (by omega)]
    rw [hdrop, List.getElem?_eq_getElem (by omega), List.getD_eq_getElem?_getD,
      List.getElem?_eq_getElem (show rLen + 1 < rest.length by omega)]
    split
    · rename_i sLen tail heq
      obtain ⟨htag, hrest⟩ := List.cons.inj heq
      obtain ⟨hlen, htail⟩ := List.cons.inj hrest
      rw [if_pos ⟨hlt, congrArg some htag⟩, hlen, htail]
      rfl
    · rename_i hne
      rw [if_neg]
      rintro ⟨-, htag⟩
      exact hne _ _ (by rw [Option.some.inj htag])
  · rw [if_neg fun h => hlt h.1]
    have hshort : (rest.drop rLen).length ≤ 1 := by
      rw [List.length_drop]
      omega
    split
    · rename_i sLen tail heq
      rw [heq] at hshort
      simp at hshort
    · rfl

/-- Behind the header of a sequence stand the two integers. -/
theorem parseDerBuf_header {total rLen : UInt8} {rest : Bytes}
    (hlen : 8 ≤ 4 + rest.length ∧ 4 + rest.length ≤ 72) (htotal : total.toNat = 4 + rest.length - 2) :
    parseDerBuf (0x30 :: total :: 0x02 :: rLen :: rest) = orTrap
      (match derSecond rLen.toNat rest with
        | none => .error .malformed
        | some (sLen, tail) =>
          if tail.length ≠ sLen.toNat then .error .malformed
          else do
            let r ← normalize32 .malformed (rest.take rLen.toNat)
            let s ← normalize32 .malformed tail
            .ok (r, s)) := by
  have hcount : (0x30 :: total :: 0x02 :: rLen :: rest).length = 4 + rest.length :=
    Nat.add_comm rest.length 4
  have hitem (i : ℕ) : item Trap.panic (0x30 :: total :: 0x02 :: rLen :: rest) (4 + i) =
      item .panic rest i := item_append_right [0x30, total, 0x02, rLen] rest i
  have hslice (i j : ℕ) : slice Trap.panic (0x30 :: total :: 0x02 :: rLen :: rest) (4 + i) (4 + j) =
      slice .panic rest i j := slice_append_right [0x30, total, 0x02, rLen] rest i j
  have h0 : item Trap.panic (0x30 :: total :: 0x02 :: rLen :: rest) 0 = .ok 0x30 := rfl
  have h1 : item Trap.panic (0x30 :: total :: 0x02 :: rLen :: rest) 1 = .ok total := rfl
  have h2 : item Trap.panic (0x30 :: total :: 0x02 :: rLen :: rest) 2 = .ok 0x02 := rfl
  have h3 : item Trap.panic (0x30 :: total :: 0x02 :: rLen :: rest) 3 = .ok rLen := rfl
  rw [parseDerBuf, hcount, if_neg (by omega), h0, ok_bind, if_neg (not_not.mpr rfl), h1, ok_bind,
    if_neg (not_not.mpr htotal), h2, ok_bind, if_neg (not_not.mpr rfl), h3, ok_bind, derSecond_eq]
  dsimp only
  by_cases hfar : 1 + rLen.toNat < rest.length
  swap
  · rw [if_pos (by omega), if_neg fun h => hfar h.1]
    rfl
  have hsTag := List.getElem?_eq_getElem (show rLen.toNat < rest.length by omega)
  have hsLen := List.getElem?_eq_getElem (show rLen.toNat + 1 < rest.length by omega)
  rw [if_neg (by omega), hitem, item_eq_ok.mpr hsTag, ok_bind, hsTag]
  by_cases htag : rest[rLen.toNat] = 0x02
  swap
  · rw [if_pos htag, if_neg fun h => htag (Option.some.inj h.2)]
    rfl
  rw [if_neg (not_not.mpr htag), if_pos ⟨hfar, congrArg some htag⟩, Nat.add_assoc, hitem,
    item_eq_ok.mpr hsLen, ok_bind, List.getD_eq_getElem?_getD, hsLen, Option.getD_some]
  dsimp only
  rw [List.length_drop]
  generalize rest[rLen.toNat + 1] = sLen
  by_cases hend : rest.length - (rLen.toNat + 2) = sLen.toNat
  swap
  · rw [if_pos (by omega), if_pos hend]
    rfl
  have hr : slice Trap.panic (0x30 :: total :: 0x02 :: rLen :: rest) 4 (4 + rLen.toNat) =
      .ok (rest.take rLen.toNat) :=
    (hslice 0 rLen.toNat).trans (slice_of_le (Nat.zero_le _) (by omega))
  have hs : slice Trap.panic (0x30 :: total :: 0x02 :: rLen :: rest) (4 + rLen.toNat + 2)
      (4 + rLen.toNat + 2 + sLen.toNat) = .ok (rest.drop (rLen.toNat + 2)) := by
    rw [Nat.add_assoc 4, Nat.add_assoc 4, hslice, slice_of_le (by omega) (by omega),
      List.take_of_length_le (by omega)]
  rw [if_neg (by omega), if_neg (not_not.mpr hend), hr, ok_bind, normalize32Buf_eq]
  cases normalize32 .malformed (rest.take rLen.toNat) with
  | error e => rfl
  | ok r =>
    rw [orTrap_ok, ok_bind, hs, ok_bind, normalize32Buf_eq]
    cases normalize32 .malformed (rest.drop (rLen.toNat + 2)) <;> rfl

/-- Reading by positions never panics, and reads what the list function reads. -/
theorem parseDerBuf_eq (sig : Bytes) : parseDerBuf sig = orTrap (parseDerSignature sig) := by
  by_cases hlen : sig.length < 8 ∨ 72 < sig.length
  · rw [parseDerBuf, parseDerSignature.eq_def, if_pos hlen, if_pos hlen]
    rfl
  obtain ⟨hshort, hlong⟩ := not_or.mp hlen
  rcases sig with _ | ⟨tag, _ | ⟨total, _ | ⟨rTag, _ | ⟨rLen, rest⟩⟩⟩⟩
  · simp at hshort
  · simp at hshort
  · simp at hshort
  · simp at hshort
  · have hcount : (tag :: total :: rTag :: rLen :: rest).length = 4 + rest.length :=
      Nat.add_comm rest.length 4
    have h0 : item Trap.panic (tag :: total :: rTag :: rLen :: rest) 0 = .ok tag := rfl
    have h1 : item Trap.panic (tag :: total :: rTag :: rLen :: rest) 1 = .ok total := rfl
    have h2 : item Trap.panic (tag :: total :: rTag :: rLen :: rest) 2 = .ok rTag := rfl
    by_cases htags : tag = 0x30 ∧ rTag = 0x02
    · obtain ⟨rfl, rfl⟩ := htags
      by_cases htotal : total.toNat = 4 + rest.length - 2
      · rw [parseDerBuf_header (by omega) htotal, parseDerSignature, if_neg hlen, hcount]
        exact congrArg orTrap (if_neg (not_not.mpr htotal)).symm
      · rw [parseDerBuf, if_neg hlen, h0, ok_bind, if_neg (not_not.mpr rfl), h1, ok_bind, hcount,
          if_pos htotal, parseDerSignature, if_neg hlen, hcount, if_pos htotal]
        rfl
    · have hlist : parseDerSignature (tag :: total :: rTag :: rLen :: rest) = .error .malformed := by
        rw [parseDerSignature.eq_def, if_neg hlen]
        split
        · rename_i heq
          obtain ⟨htag, htail⟩ := List.cons.inj heq
          exact absurd ⟨htag, (List.cons.inj (List.cons.inj htail).2).1⟩ htags
        · rfl
      rw [hlist, parseDerBuf, if_neg hlen, h0, ok_bind]
      by_cases htag : tag = 0x30
      · rw [if_neg (not_not.mpr htag), h1, ok_bind, h2, ok_bind,
          if_pos fun hrTag => htags ⟨htag, hrTag⟩, ite_self]
        rfl
      · rw [if_pos htag]
        rfl

theorem canonStart_eq {buf : Bytes} (hlen : buf.length = 33) {rounds start : ℕ}
    (hrounds : start + rounds = 32) : ∃ n, canonStart buf rounds start = .ok n ∧ n ≤ 32 ∧
      buf.drop n = stripSign (buf.drop start) := by
  induction rounds generalizing start with
  | zero =>
    obtain rfl : start = 32 := hrounds
    have hlast : buf.drop 33 = [] := List.drop_of_length_le hlen.le
    refine ⟨32, rfl, le_rfl, ?_⟩
    rw [List.drop_eq_getElem_cons (by omega), hlast]
    simp [stripSign]
  | succ rounds ih =>
    have hitem : item Trap.panic buf start = .ok (buf.get ⟨start, by omega⟩) :=
      item_of_lt (by omega)
    have hnext : item Trap.panic buf (start + 1) = .ok (buf.get ⟨start + 1, by omega⟩) :=
      item_of_lt (by omega)
    have hdrop : buf.drop start = buf.get ⟨start, by omega⟩ :: buf.drop (start + 1) :=
      List.drop_eq_getElem_cons (by omega)
    have hdrop1 : buf.drop (start + 1) = buf.get ⟨start + 1, by omega⟩ :: buf.drop (start + 2) :=
      List.drop_eq_getElem_cons (by omega)
    rw [canonStart, hitem, ok_bind]
    by_cases hzero : buf.get ⟨start, by omega⟩ = 0x00
    · rw [if_pos hzero, hnext, ok_bind]
      by_cases hsign : buf.get ⟨start + 1, by omega⟩ &&& 0x80 = 0
      · obtain ⟨n, hn, hle, hrest⟩ := ih (show start + 1 + rounds = 32 by omega)
        refine ⟨n, (if_pos hsign).trans hn, hle, ?_⟩
        rw [hrest, hdrop, hzero, hdrop1, stripSign, if_pos hsign]
      · refine ⟨start, if_neg hsign, by omega, ?_⟩
        rw [hdrop, hzero, hdrop1, stripSign, if_neg hsign]
    · refine ⟨start, if_neg hzero, by omega, ?_⟩
      rw [hdrop, stripSign.eq_def]
      split
      · rename_i heq
        exact absurd (List.cons.inj heq).1 hzero
      · rfl

/-- The buffer holds the integer from the start that is found. -/
theorem canonIntBuf_eq (v : ByteVec 32) : ∃ buf start, canonIntBuf v = .ok (buf, start) ∧
    start ≤ buf.length ∧ buf.drop start = canonInt v := by
  have hcopy : copy Trap.panic (List.replicate 33 0x00) 1 33 v.toList = .ok (0x00 :: v.toList) := by
    have hzeros : List.replicate 33 (0x00 : UInt8) = [0x00] ++ List.replicate 32 0x00 := rfl
    have hpre : ([0x00] : Bytes).length = 1 := rfl
    rw [hzeros, copy_next hpre (by simp) (by simp), List.Vector.toList_length, Nat.sub_self,
      List.replicate_zero, List.append_nil]
    rfl
  have hlen : (0x00 :: v.toList).length = 33 := congrArg Nat.succ v.toList_length
  obtain ⟨n, hn, hle, hdrop⟩ := canonStart_eq hlen (Nat.zero_add 32)
  refine ⟨_, n, ?_, by omega, hdrop⟩
  rw [canonIntBuf, hcopy, ok_bind, hn]
  rfl

/-- The encoding lies at the front of the buffer. -/
theorem derEncodeBuf_eq (r s : ByteVec 32) : ∃ rest,
    derEncodeBuf r s = .ok ⟨derBytes (canonInt r) (canonInt s) ++ rest,
      UInt8.ofNat (6 + (canonInt r).length + (canonInt s).length)⟩ := by
  obtain ⟨rBuf, rStart, hrBuf, hrStart, hr⟩ := canonIntBuf_eq r
  obtain ⟨sBuf, sStart, hsBuf, hsStart, hs⟩ := canonIntBuf_eq s
  have hrLen := length_canonInt r
  have hsLen := length_canonInt s
  rw [derEncodeBuf, hrBuf, ok_bind]
  dsimp only
  rw [hsBuf, ok_bind]
  dsimp only
  rw [slice_to_end hrStart, ok_bind, slice_to_end hsStart, ok_bind, hr, hs]
  generalize canonInt r = ri at hrLen ⊢
  generalize canonInt s = si at hsLen ⊢
  refine ⟨List.replicate (66 - ri.length - si.length) 0x00, ?_⟩
  rw [← List.nil_append (List.replicate 72 0x00), set_next (by simp) (by decide), ok_bind,
    set_next (by simp) (by decide), ok_bind, set_next (by simp) (by decide), ok_bind,
    set_next (by simp) (by decide), ok_bind, copy_next (by simp) (by simp) (by omega), ok_bind]
  rw [set_next (by simp; omega) (by omega), ok_bind, set_next (by simp; omega) (by omega), ok_bind,
    copy_next (by simp; omega) (by omega) (by omega), ok_bind]
  have hleft : 72 - 1 - 1 - 1 - 1 - ri.length - 1 - 1 - si.length = 66 - ri.length - si.length := by
    omega
  rw [hleft]
  simp [derBytes]

/-! ## Strict encodings -/

/-- An integer that is positive and has no byte too many. -/
structure StrictInteger (b : Bytes) (v : ℕ) : Prop where
  nonempty : b ≠ []
  positive : ∀ c rest, b = c :: rest → c &&& 0x80 = 0
  minimal : ∀ c rest, b = 0x00 :: c :: rest → c &&& 0x80 ≠ 0
  value : beVal b = v

/-- Two integers behind their tags and lengths, in a sequence that has nothing else. -/
def StrictDer (sig : Bytes) (r s : ℕ) : Prop :=
  ∃ (total rLen sLen : UInt8) (ri si : Bytes),
    sig = 0x30 :: total :: 0x02 :: rLen :: (ri ++ (0x02 :: sLen :: si)) ∧
    total.toNat = sig.length - 2 ∧ rLen.toNat = ri.length ∧ sLen.toNat = si.length ∧
    StrictInteger ri r ∧ StrictInteger si s

theorem strict_stripSign {bs : Bytes} (hne : bs ≠ [])
    (hpos : ∀ c rest, bs = c :: rest → c &&& 0x80 = 0) : StrictInteger (stripSign bs) (beVal bs) := by
  fun_induction stripSign bs with
  | case1 b rest hb ih =>
    have hrest := ih (List.cons_ne_nil _ _) fun c rest heq => (List.cons.inj heq).1 ▸ hb
    rwa [beVal_cons, UInt8.toNat_zero, Nat.zero_mul, Nat.zero_add]
  | case2 b rest hb =>
    refine ⟨List.cons_ne_nil _ _, hpos, fun c rest heq => ?_, rfl⟩
    rw [← (List.cons.inj (List.cons.inj heq).2).1]
    exact hb
  | case3 bs hshape =>
    exact ⟨hne, hpos, fun c rest heq => absurd heq (hshape c rest), rfl⟩

theorem strict_canonInt (v : ByteVec 32) : StrictInteger (canonInt v) (beVal v.toList) := by
  have hvalue : beVal (0x00 :: v.toList) = beVal v.toList := by
    rw [beVal_cons, UInt8.toNat_zero, Nat.zero_mul, Nat.zero_add]
  rw [← hvalue]
  refine strict_stripSign (List.cons_ne_nil _ _) fun c rest heq => ?_
  rw [← (List.cons.inj heq).1]
  decide

theorem length_derBytes (r s : Bytes) : (derBytes r s).length = 6 + r.length + s.length := by
  simp only [derBytes, List.length_cons, List.length_append]
  omega

theorem strict_derBytes (r s : ByteVec 32) :
    StrictDer (derBytes (canonInt r) (canonInt s)) (beVal r.toList) (beVal s.toList) := by
  have hr := length_canonInt r
  have hs := length_canonInt s
  refine ⟨_, _, _, canonInt r, canonInt s, rfl, ?_, ?_, ?_, strict_canonInt r, strict_canonInt s⟩
  · rw [length_derBytes]
    exact UInt8.toNat_ofNat_of_lt' (by change _ < 256; omega)
  · exact UInt8.toNat_ofNat_of_lt' (by change _ < 256; omega)
  · exact UInt8.toNat_ofNat_of_lt' (by change _ < 256; omega)

/-- Below half of the range the sign needs no byte. -/
theorem length_canonInt_low {v : ByteVec 32} (h : beVal v.toList < 2 ^ 255) :
    (canonInt v).length ≤ 32 := by
  have hlen := v.toList_length
  rw [canonInt]
  generalize v.toList = bs at h hlen ⊢
  cases bs with
  | nil => cases hlen
  | cons b rest =>
    have hrest : rest.length = 31 := Nat.succ.inj hlen
    have hhigh : b &&& 0x80 = 0 := by
      rw [and_high_bit_eq_zero]
      rw [beVal_cons, hrest] at h
      by_contra hge
      have hmul := Nat.mul_le_mul_right (256 ^ 31) (not_lt.mp hge)
      have hpow : (128 : ℕ) * 256 ^ 31 = 2 ^ 255 := by decide
      omega
    rw [stripSign, if_pos hhigh]
    exact (length_stripSign (List.cons_ne_nil _ _)).2.trans hlen.le

/-! ## What a buffer holds -/

/-- A strict encoding of at most so many bytes, from which all readers take the two integers. -/
def DerBuffer.Encodes (d : DerBuffer) (r s : ByteVec 32) (bound : ℕ) : Prop :=
  ∃ sig, d.asBytes = .ok sig ∧ StrictDer sig (beVal r.toList) (beVal s.toList) ∧
    sig.length ≤ bound ∧ d.toRs = .ok (r, s) ∧ parseDerBuf sig = .ok (r, s) ∧
    ∀ (flag : UInt8) (pubkey : Bytes) (scheme : SigScheme),
      ∃ out, parseEcdsaSig (sig ++ [flag]) pubkey scheme = .ok out ∧
        out.r = r.toList ∧ out.s = s.toList ∧ out.sighashFlag = flag.toUInt32

theorem asBytes_front {sig rest : Bytes} (h : sig.length < 256) :
    (⟨sig ++ rest, UInt8.ofNat sig.length⟩ : DerBuffer).asBytes = .ok sig := by
  rw [DerBuffer.asBytes]
  dsimp only
  rw [UInt8.toNat_ofNat_of_lt' h, ← List.nil_append (sig ++ rest)]
  exact slice_append rfl (Nat.zero_add _)

theorem toRs_of_parse {d : DerBuffer} {sig : Bytes} {rs : ByteVec 32 × ByteVec 32}
    (hsig : d.asBytes = .ok sig) (h : parseDerBuf sig = .ok rs) : d.toRs = .ok rs := by
  rw [DerBuffer.toRs, hsig, ok_bind, h]

/-- What is encoded is strict and is read back; a low number takes a byte less. -/
theorem derEncodeBuf_encodes (r s : ByteVec 32) : ∃ d, derEncodeBuf r s = .ok d ∧
    d.Encodes r s 72 ∧ (beVal s.toList < 2 ^ 255 → d.Encodes r s 71) := by
  have hr := length_canonInt r
  have hs := length_canonInt s
  have hlen := length_derBytes (canonInt r) (canonInt s)
  obtain ⟨rest, hbuf⟩ := derEncodeBuf_eq r s
  refine ⟨_, hbuf, ?_⟩
  rw [← hlen]
  have hbytes : DerBuffer.asBytes ⟨derBytes (canonInt r) (canonInt s) ++ rest,
      UInt8.ofNat (derBytes (canonInt r) (canonInt s)).length⟩ =
        .ok (derBytes (canonInt r) (canonInt s)) := asBytes_front (by omega)
  have hparse : parseDerBuf (derBytes (canonInt r) (canonInt s)) = .ok (r, s) := by
    rw [parseDerBuf_eq, parse_derBytes, orTrap_ok]
  have hencodes {bound : ℕ} (hbound : (derBytes (canonInt r) (canonInt s)).length ≤ bound) :
      DerBuffer.Encodes ⟨derBytes (canonInt r) (canonInt s) ++ rest,
        UInt8.ofNat (derBytes (canonInt r) (canonInt s)).length⟩ r s bound :=
    ⟨_, hbytes, strict_derBytes r s, hbound, toRs_of_parse hbytes hparse, hparse,
      fun flag pubkey scheme =>
        ⟨_, parseEcdsaSig_der (derEncode r s) flag pubkey scheme, rfl, rfl, rfl⟩⟩
  refine ⟨hencodes (by omega), fun hlow => hencodes ?_⟩
  have hsLow := length_canonInt_low hlow
  omega

/-! ## Ranges -/

/-- A scalar other than zero. -/
def InRange (v : ByteVec 32) : Prop := 0 < beVal v.toList ∧ beVal v.toList < order

theorem beVal_pos_iff (bs : Bytes) : 0 < beVal bs ↔ ∃ b ∈ bs, b ≠ 0 := by
  induction bs with
  | nil => exact iff_of_false (lt_irrefl 0) fun ⟨_, h, _⟩ => nomatch h
  | cons b bs ih =>
    have hpow : 0 < 256 ^ bs.length := Nat.pow_pos (by decide)
    have hbyte : 0 < b.toNat ↔ b ≠ 0 := by
      rw [Nat.pos_iff_ne_zero, ne_eq, ne_eq, ← UInt8.toNat_inj, UInt8.toNat_zero]
    rw [beVal_cons, Nat.add_pos_iff_pos_or_pos, Nat.mul_pos_iff_of_pos_right hpow, hbyte, ih]
    simp

theorem isValidScalarBe_iff (v : ByteVec 32) : isValidScalarBe v = true ↔ InRange v := by
  rw [isValidScalarBe, Bool.and_eq_true, decide_eq_true_iff, lt_iff_beVal_lt,
    beVal_beVec (by decide), InRange, beVal_pos_iff]
  simp

theorem isOverHalfOrder_eq_true (s : ByteVec 32) :
    isOverHalfOrder s = true ↔ halfOrder < beVal s.toList := by
  rw [isOverHalfOrder, decide_eq_true_iff, lt_iff_beVal_lt, beVal_beVec (by decide)]

section Constructors

variable {r s : ByteVec 32}

theorem checked_iff : (!isValidScalarBe r || !isValidScalarBe s) = true ↔
    ¬ (InRange r ∧ InRange s) := by
  rw [← isValidScalarBe_iff, ← isValidScalarBe_iff]
  simp [Classical.or_iff_not_imp_left]

theorem fromRs_of_inRange (hr : InRange r) (hs : InRange s) :
    DerBuffer.fromRs r s = derEncodeBuf r s := by
  rw [DerBuffer.fromRs, if_neg fun h => checked_iff.mp h ⟨hr, hs⟩]

theorem fromRs_error (h : ¬ (InRange r ∧ InRange s)) :
    DerBuffer.fromRs r s = .error (.error .malformed) := by
  rw [DerBuffer.fromRs, if_pos (checked_iff.mpr h)]

theorem fromRsLowS_error (C : Hazmat) (h : ¬ (InRange r ∧ InRange s)) :
    DerBuffer.fromRsLowS C r s = .error (.error .malformed) := by
  rw [DerBuffer.fromRsLowS, if_pos (checked_iff.mpr h)]

/-- The second integer is replaced by its negative where that is less. -/
theorem fromRsLowS_of_inRange (K : Curve) (H : Hashes) (mac : Bytes → Bytes → ByteVec 32)
    (hr : InRange r) (hs : InRange s) : ∃ low : ByteVec 32,
      beVal low.toList = min (beVal s.toList) (order - beVal s.toList) ∧
        DerBuffer.fromRsLowS (K.hazmat H mac) r s = derEncodeBuf r low := by
  have horder := order_eq
  rw [DerBuffer.fromRsLowS, if_neg fun h => checked_iff.mp h ⟨hr, hs⟩]
  by_cases hover : halfOrder < beVal s.toList
  · have hlt := hs.2
    have hval : (beVal s.toList : ZMod order).val = beVal s.toList := ZMod.val_natCast_of_lt hlt
    have hne : (beVal s.toList : ZMod order) ≠ 0 := by
      rw [ne_eq, ← ZMod.val_eq_zero, hval]
      exact hs.1.ne'
    have hneg : (-(beVal s.toList : ZMod order)).val = order - beVal s.toList := by
      rw [ZMod.neg_val, if_neg hne, hval]
    have hfrom : (K.hazmat H mac).scalarFromBytesBe s = some (beVal s.toList : ZMod order) :=
      if_pos hlt
    have hbytes : (K.hazmat H mac).toBytesBe ((K.hazmat H mac).negate (beVal s.toList : ZMod order)) =
        beVec 32 (-(beVal s.toList : ZMod order)).val := rfl
    refine ⟨beVec 32 (-(beVal s.toList : ZMod order)).val, ?_, ?_⟩
    · rw [beVal_beVec (Curve.val_lt_pow _), hneg]
      omega
    · rw [(isOverHalfOrder_eq_true s).mpr hover, hfrom]
      rfl
  · have hlow : isOverHalfOrder s = false :=
      Bool.eq_false_iff.mpr fun h => hover ((isOverHalfOrder_eq_true s).mp h)
    refine ⟨s, by omega, ?_⟩
    rw [hlow]
    rfl

/-- An encoding is refused, or kept so that its integers are there. -/
theorem fromDer_ends (sig : Bytes) :
    (∃ d rs, DerBuffer.fromDer sig = .ok d ∧ d.asBytes = .ok sig ∧ d.toRs = .ok rs) ∨
      ∃ e, DerBuffer.fromDer sig = .error (.error e) := by
  rw [DerBuffer.fromDer, parseDerBuf_eq]
  cases hparse : parseDerSignature sig with
  | error e => exact Or.inr ⟨e, rfl⟩
  | ok rs =>
    have hlen : sig.length ≤ 72 := (DerSignature.mk sig rs.1 rs.2 hparse).length_bytes.2
    have hcopy : copy Trap.panic (List.replicate 72 0x00) 0 sig.length sig =
        .ok (sig ++ List.replicate (72 - sig.length) 0x00) := by
      exact copy_next (z := (0x00 : UInt8)) (List.length_nil (α := UInt8)) (Nat.zero_add _) hlen
    have hbytes : DerBuffer.asBytes ⟨sig ++ List.replicate (72 - sig.length) 0x00,
        UInt8.ofNat sig.length⟩ = .ok sig := asBytes_front (by omega)
    refine Or.inl ⟨_, rs, ?_, hbytes, toRs_of_parse hbytes ?_⟩
    · rw [orTrap_ok, ok_bind, hcopy]
      rfl
    · rw [parseDerBuf_eq, hparse, orTrap_ok]

end Constructors

/-- Signatures of scalars are encoded strictly, in 72 bytes or with a low second integer in 71,
and read back by all readers; other numbers are refused, and so are all other encodings but
those from which the integers are there to be taken. -/
theorem der_strict (K : Curve) (H : Hashes) (mac : Bytes → Bytes → ByteVec 32) :
    (∀ r s, InRange r → InRange s →
      (∃ d, DerBuffer.fromRs r s = .ok d ∧ d.Encodes r s 72) ∧
      ∃ d low, DerBuffer.fromRsLowS (K.hazmat H mac) r s = .ok d ∧ d.Encodes r low 71 ∧
        beVal low.toList = min (beVal s.toList) (order - beVal s.toList)) ∧
    (∀ r s, ¬ (InRange r ∧ InRange s) →
      DerBuffer.fromRs r s = .error (.error .malformed) ∧
        DerBuffer.fromRsLowS (K.hazmat H mac) r s = .error (.error .malformed)) ∧
    ∀ sig, (∃ d rs, DerBuffer.fromDer sig = .ok d ∧ d.asBytes = .ok sig ∧ d.toRs = .ok rs) ∨
      ∃ e, DerBuffer.fromDer sig = .error (.error e) := by
  refine ⟨fun r s hr hs => ⟨?_, ?_⟩, fun r s h => ⟨fromRs_error h, fromRsLowS_error _ h⟩,
    fromDer_ends⟩
  · obtain ⟨d, hd, hencodes, -⟩ := derEncodeBuf_encodes r s
    exact ⟨d, (fromRs_of_inRange hr hs).trans hd, hencodes⟩
  · obtain ⟨low, hlow, hfrom⟩ := fromRsLowS_of_inRange K H mac hr hs
    obtain ⟨d, hd, -, hencodes⟩ := derEncodeBuf_encodes r low
    refine ⟨d, low, hfrom.trans hd, hencodes ?_, hlow⟩
    have hhalf : halfOrder < 2 ^ 255 := by decide
    have horder := order_eq
    omega

end Outscript.Secp256k1
