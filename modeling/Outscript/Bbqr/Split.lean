import Outscript.Bbqr.Canonical
import Outscript.Library.EvenCut

/-!
# Cutting a file into BBQr parts

The parts are as few as their length allows, and then as short. Compression is a
parameter; `none` stands for a panic.
-/
namespace Outscript.Bbqr

open ByteString Ascii Chunks EvenCut Fallible GroupDigits

/-- The number of bytes in each part but the last. -/
def partLen (encoding : Encoding) (len maxPartLen : ℕ) : Except Error ℕ :=
  if maxPartLen < headerLen then .error .partTooSmall
  else
    let capacity := maxPartLen - headerLen
    if encodedLen encoding len ≤ capacity then .ok len
    else
      -- as few parts as fit, then as few groups in each as it takes
      let (groupBytes, groupChars) := encoding.group
      let maxGroups := capacity / groupChars
      if maxGroups = 0 then .error .partTooSmall
      else
        let groups := len ⌈/⌉ groupBytes
        let numParts := groups ⌈/⌉ maxGroups
        .ok (groups ⌈/⌉ numParts * groupBytes)

/-- The text of a part. -/
def writePart (header : Header) (chunk : Bytes) : ExceptT Error Option Bytes := do
  let out := List.replicate (headerLen + encodedLen header.encoding chunk.length) 0
  let (_, part) ← ExceptT.mk (some (encodePartToSlice header chunk out))
  ExceptT.lift (fromUtf8 part)

/-- Cuts `data`, compressed already if it has to be. -/
def splitRaw (data : Bytes) (fileType : FileType) (encoding : Encoding) (maxPartLen : ℕ) :
    ExceptT Error Option (List Bytes) := do
  let len ← ExceptT.mk (some (partLen encoding data.length maxPartLen))
  let numParts := max (data.length ⌈/⌉ max len 1) 1
  if maxParts < numParts then throw .tooManyParts
  -- An empty file still makes a part.
  let pieces := (chunks (max len 1) data ++ [[]]).take numParts
  pieces.zipIdx.mapM fun (chunk, index) =>
    writePart { encoding, fileType, numParts, index } chunk

section

variable (deflate : Bytes → Option Bytes)

/-- What is cut into parts. -/
def contents (encoding : Encoding) (data : Bytes) : Option Bytes :=
  match encoding with
  | .zlib => deflate data
  | _ => some data

/-- Cuts a file into parts, compressed when that makes it shorter. -/
def split (data : Bytes) (fileType : FileType) (maxPartLen : ℕ) :
    ExceptT Error Option (List Bytes) := do
  let compressed ← ExceptT.lift (deflate data)
  if compressed.length < data.length then splitRaw compressed fileType .zlib maxPartLen
  else splitRaw data fileType .base32 maxPartLen

/-- Cuts a file into parts in the given encoding. -/
def splitWith (data : Bytes) (fileType : FileType) (encoding : Encoding) (maxPartLen : ℕ) :
    ExceptT Error Option (List Bytes) := do
  splitRaw (← ExceptT.lift (contents deflate encoding data)) fileType encoding maxPartLen

end

/-- Whether a part of so many bytes is not too long. -/
def Fits (encoding : Encoding) (maxPartLen n : ℕ) : Prop :=
  headerLen + encodedLen encoding n ≤ maxPartLen

/-! ## Lengths -/

theorem encodedLen_mono {encoding : Encoding} {m n : ℕ} (h : m ≤ n) :
    encodedLen encoding m ≤ encodedLen encoding n := by
  cases encoding <;> simp only [encodedLen, Nat.ceilDiv_eq_add_pred_div] <;> omega

theorem encodedLen_groups (encoding : Encoding) (k : ℕ) :
    encodedLen encoding (k * encoding.group.1) = k * encoding.group.2 := by
  cases encoding <;> simp only [encodedLen, Encoding.group, Nat.ceilDiv_eq_add_pred_div] <;> omega

theorem group_pos (encoding : Encoding) : 0 < encoding.group.1 ∧ 0 < encoding.group.2 := by
  cases encoding <;> decide

theorem Fits.mono {encoding : Encoding} {maxPartLen m n : ℕ} (h : m ≤ n) (hn : Fits encoding maxPartLen n) :
    Fits encoding maxPartLen m :=
  (Nat.add_le_add_left (encodedLen_mono h) _).trans hn

theorem fits_iff {encoding : Encoding} {maxPartLen : ℕ} (hmax : headerLen ≤ maxPartLen) (n : ℕ) :
    Fits encoding maxPartLen n ↔ encodedLen encoding n ≤ maxPartLen - headerLen := by
  rw [Fits]
  omega

theorem fits_groups {encoding : Encoding} {maxPartLen : ℕ} (hmax : headerLen ≤ maxPartLen) (k : ℕ) :
    Fits encoding maxPartLen (k * encoding.group.1) ↔
      k ≤ (maxPartLen - headerLen) / encoding.group.2 := by
  rw [fits_iff hmax, encodedLen_groups, Nat.le_div_iff_mul_le (group_pos encoding).2]

/-- A cut into one piece, also of an empty file. -/
theorem take_chunks_self (data : Bytes) :
    (chunks (max data.length 1) data ++ [[]]).take (max (data.length ⌈/⌉ max data.length 1) 1) =
      [data] := by
  by_cases hdata : data = []
  · rw [hdata]
    rfl
  · have hpos := List.length_pos_iff.mpr hdata
    have hmax : max data.length 1 = data.length := Nat.max_eq_left hpos
    have hone : chunks data.length data = [data] := by
      have hchunks := chunks_append hdata le_rfl (Or.inl rfl)
      rwa [List.append_nil, chunks_nil] at hchunks
    have hcount : data.length ⌈/⌉ data.length = 1 := by
      rw [← length_chunks, hone, List.length_singleton]
    rw [hmax, hcount, hone]
    rfl

/-- Pieces of this length are the best cut, or there is none. -/
theorem partLen_spec (encoding : Encoding) (data : Bytes) (maxPartLen : ℕ) :
    (∀ len, partLen encoding data.length maxPartLen = .ok len →
      Best encoding.group.1 (Fits encoding maxPartLen) data
        ((chunks (max len 1) data ++ [[]]).take (max (data.length ⌈/⌉ max len 1) 1))) ∧
    ∀ e, partLen encoding data.length maxPartLen = .error e →
      ∀ pieces, ¬ Cut encoding.group.1 (Fits encoding maxPartLen) data pieces := by
  by_cases hmax : maxPartLen < headerLen
  · rw [partLen, if_pos hmax]
    refine ⟨fun _ h => (nomatch h), fun _ _ pieces h => ?_⟩
    obtain ⟨p, hp⟩ := List.exists_mem_of_ne_nil _ h.nonempty
    have hfit := h.each p hp
    rw [Fits] at hfit
    omega
  have hle := Nat.le_of_not_lt hmax
  obtain ⟨hgroup, -⟩ := group_pos encoding
  by_cases hwhole : encodedLen encoding data.length ≤ maxPartLen - headerLen
  · simp only [partLen, if_neg hmax, if_pos hwhole]
    refine ⟨fun len h => ?_, fun _ h => nomatch h⟩
    cases h
    rw [take_chunks_self]
    exact best_singleton ((fits_iff hle _).mpr hwhole)
  have hwhole' : ¬ Fits encoding maxPartLen data.length := fun h => hwhole ((fits_iff hle _).mp h)
  have hgroups (k : ℕ) := @fits_groups encoding maxPartLen hle k
  by_cases hzero : (maxPartLen - headerLen) / encoding.group.2 = 0
  · simp only [partLen, if_neg hmax, if_neg hwhole, if_pos hzero]
    rw [hzero] at hgroups
    exact ⟨fun _ h => (nomatch h), fun _ _ _ => not_cut hgroup hgroups hwhole'⟩
  · simp only [partLen, if_neg hmax, if_neg hwhole, if_neg hzero]
    refine ⟨fun len h => ?_, fun _ h => nomatch h⟩
    cases h
    obtain ⟨hlen, hbest⟩ :=
      best_chunks hgroup Fits.mono hgroups (Nat.pos_of_ne_zero hzero) hwhole'
    have hcount := length_chunks (data.length ⌈/⌉ encoding.group.1 ⌈/⌉ (data.length ⌈/⌉ encoding.group.1 ⌈/⌉
      ((maxPartLen - headerLen) / encoding.group.2)) * encoding.group.1) data
    have hpos := List.length_pos_iff.mpr hbest.nonempty
    rw [Nat.max_eq_left hlen, ← hcount, Nat.max_eq_left hpos, List.take_left]
    exact hbest

/-! ## Parts -/

theorem ascii_toBytes {header : Header} {head : Bytes} (hhead : header.toBytes = .ok head) :
    ∀ c ∈ head, c < 0x80 := by
  have hdigit (value : ℕ) : Header.digit value < 0x80 := by
    have hall : ∀ d < 36, Header.digit d < 0x80 := by decide
    have hmod : Header.digit (value % 36) = Header.digit value := by
      rw [Header.digit, Header.digit, Nat.mod_mod]
    rw [← hmod]
    exact hall _ (Nat.mod_lt _ (by decide))
  have htype : header.fileType.byte < 0x80 := forall_byte (p := fun c =>
    (isUpper c || isDigit c) = true → c < 0x80) (by decide +kernel) _ header.fileType.valid
  have hencoding : header.encoding.asChar < 0x80 := by
    cases header.encoding <;> decide
  rw [(Header.toBytes_eq_ok.mp hhead).2]
  simp only [List.forall_mem_cons, hencoding, htype, hdigit, true_and]
  exact ⟨by decide, by decide, List.forall_mem_nil _⟩

theorem writePart_eq {header : Header} {head : Bytes} (hhead : header.toBytes = .ok head) (chunk : Bytes) :
    writePart header chunk = pure (head ++ spelling header.encoding chunk) := by
  have hlen : (List.replicate (headerLen + encodedLen header.encoding chunk.length) (0 : UInt8)).length =
      headerLen + encodedLen header.encoding chunk.length := List.length_replicate
  have hascii : ∀ c ∈ head ++ spelling header.encoding chunk, c < 0x80 :=
    List.forall_mem_append.mpr ⟨ascii_toBytes hhead, ascii_spelling _ chunk⟩
  have hwritten := encodePartToSlice_eq hhead hlen.ge
  rw [List.drop_of_length_le hlen.le, List.append_nil] at hwritten
  simp only [writePart, hwritten]
  change ExceptT.lift (fromUtf8 (head ++ spelling header.encoding chunk)) = _
  rw [fromUtf8_of_ascii hascii]
  rfl

/-- The text of a piece, as one of so many parts. -/
def partText (encoding : Encoding) (fileType : FileType) (numParts : ℕ) (piece : Bytes × ℕ) : Bytes :=
  ['B'.toUInt8, '$'.toUInt8, encoding.asChar, fileType.byte, Header.digit (numParts / 36),
    Header.digit numParts, Header.digit (piece.2 / 36), Header.digit piece.2] ++ spelling encoding piece.1

theorem length_partText (encoding : Encoding) (fileType : FileType) (numParts : ℕ) (piece : Bytes × ℕ) :
    (partText encoding fileType numParts piece).length =
      headerLen + encodedLen encoding piece.1.length := by
  rw [partText, List.length_append, length_spelling]
  rfl

theorem mapM_writePart {encoding : Encoding} {fileType : FileType} {numParts : ℕ}
    (hmax : numParts ≤ maxParts) {pieces : List (Bytes × ℕ)} (h : ∀ piece ∈ pieces, piece.2 < numParts) :
    pieces.mapM (fun (chunk, index) => writePart { encoding, fileType, numParts, index } chunk) =
      pure (pieces.map (partText encoding fileType numParts)) := by
  induction pieces with
  | nil => rfl
  | cons piece pieces ih =>
    obtain ⟨hpiece, hpieces⟩ := List.forall_mem_cons.mp h
    have hhead : Header.toBytes { encoding, fileType, numParts, index := piece.2 } = _ :=
      Header.toBytes_eq_ok.mpr ⟨⟨Nat.zero_lt_of_lt hpiece, hmax, hpiece⟩, rfl⟩
    rw [List.mapM_cons, ih hpieces]
    change (writePart _ piece.1 >>= _) = _
    rw [writePart_eq hhead]
    rfl

/-- A file is cut the best way, or there is none with so few parts. -/
theorem splitRaw_eq (data : Bytes) (fileType : FileType) (encoding : Encoding) (maxPartLen : ℕ) :
    (∃ pieces, Best encoding.group.1 (Fits encoding maxPartLen) data pieces ∧ pieces.length ≤ maxParts ∧
      (splitRaw data fileType encoding maxPartLen).run =
        some (.ok (pieces.zipIdx.map (partText encoding fileType pieces.length)))) ∨
    ∃ e, (splitRaw data fileType encoding maxPartLen).run = some (.error e) ∧
      ∀ pieces, Cut encoding.group.1 (Fits encoding maxPartLen) data pieces → maxParts < pieces.length := by
  obtain ⟨hok, herror⟩ := partLen_spec encoding data maxPartLen
  cases hlen : partLen encoding data.length maxPartLen with
  | error e =>
    refine Or.inr ⟨e, ?_, fun pieces h => absurd h (herror e hlen pieces)⟩
    rw [splitRaw, hlen]
    rfl
  | ok len =>
    have hbest := hok len hlen
    set numParts := max (data.length ⌈/⌉ max len 1) 1 with hnum
    set pieces := (chunks (max len 1) data ++ [[]]).take numParts with hpieces
    have hcount : pieces.length = numParts := by
      rw [hpieces, List.length_take, List.length_append, length_chunks, List.length_singleton]
      omega
    by_cases hmany : maxParts < numParts
    · refine Or.inr ⟨.tooManyParts, ?_, fun others h => ?_⟩
      · rw [splitRaw, hlen]
        change (if maxParts < numParts then _ else _ : ExceptT Error Option (List Bytes)).run = _
        rw [if_pos hmany]
        rfl
      · exact (hcount ▸ hmany).trans_le (hbest.fewest others h)
    · refine Or.inl ⟨pieces, hbest, hcount.trans_le (Nat.le_of_not_lt hmany), ?_⟩
      have hindex : ∀ piece ∈ pieces.zipIdx, piece.2 < numParts := fun piece h => by
        have hlt := (List.mem_zipIdx h).2.1
        omega
      rw [splitRaw, hlen, hcount]
      change (if maxParts < numParts then _ else _ : ExceptT Error Option (List Bytes)).run = _
      rw [if_neg hmany]
      exact congrArg ExceptT.run (mapM_writePart (Nat.le_of_not_lt hmany) hindex)

end Outscript.Bbqr
