import Outscript.Bbqr.Joiner
import Outscript.Bbqr.Split

/-!
# From a file to its parts and back

A joiner that is fed parts of one file, in any order, as often as they come and
in any letter case, refuses none of them, is complete when it has them all, and
then puts the file together.
-/
namespace Outscript.Bbqr

open ByteString Ascii Fallible

/-- Spelled in any letter case, a part is decoded to its piece. -/
theorem decodePart_partText {encoding : Encoding} {fileType : FileType} {numParts index : ℕ}
    {piece t : Bytes} (hmax : numParts ≤ maxParts) (hindex : index < numParts)
    (ht : toLower t = toLower (partText encoding fileType numParts (piece, index))) :
    decodePart t = .ok ({ encoding, fileType, numParts, index }, piece) := by
  have hhead : Header.toBytes { encoding, fileType, numParts, index } = _ :=
    Header.toBytes_eq_ok.mpr ⟨⟨Nat.zero_lt_of_lt hindex, hmax, hindex⟩, rfl⟩
  have hlen : t.length = headerLen + encodedLen encoding piece.length := by
    rw [← length_toLower, ht, length_toLower, length_partText]
  have hroom : piece.length ≤ (List.replicate (decodedLenBound .base32 (t.length - headerLen))
      (0 : UInt8)).length := by
    rw [List.length_replicate, hlen, Nat.add_sub_cancel_left]
    cases encoding with
    | hex =>
      simp only [decodedLenBound, encodedLen]
      omega
    | base32 | zlib =>
      simp only [decodedLenBound, encodedLen, Nat.ceilDiv_eq_add_pred_div]
      omega
  rw [decodePart, decodePartToSlice_eq hhead ht hroom, ok_bind]
  dsimp only
  rw [List.take_left]
  rfl

namespace Joiner

/-- The slots hold the pieces whose parts were given so far. -/
structure Gathered (encoding : Encoding) (fileType : FileType) (pieces : List Bytes) (maxLen : ℕ)
    (given : List Bytes) (j : Joiner) : Prop where
  books : j.Books
  maxLen : j.maxLen = maxLen
  header : ∀ h ∈ j.header, h = ⟨encoding, fileType, pieces.length, 0⟩
  slots : ∀ i piece, j.parts[i]? = some (some piece) ↔ pieces[i]? = some piece ∧
    ∃ t ∈ given, toLower t = toLower (partText encoding fileType pieces.length (piece, i))

/-- Pieces in their slots are not longer together than all pieces. -/
theorem sum_slots_le {slots : List (Option Bytes)} {pieces : List Bytes}
    (h : ∀ (i : ℕ) (piece : Bytes), slots[i]? = some (some piece) → pieces[i]? = some piece) :
    (slots.reduceOption.map List.length).sum ≤ (pieces.map List.length).sum := by
  induction slots generalizing pieces with
  | nil => exact Nat.zero_le _
  | cons slot slots ih =>
    cases pieces with
    | nil =>
      have hnone : slot :: slots = List.replicate (slots.length + 1) none := by
        refine List.eq_replicate_iff.mpr ⟨rfl, fun b hb => ?_⟩
        obtain ⟨i, hi⟩ := List.mem_iff_getElem?.mp hb
        cases b with
        | none => rfl
        | some piece => cases h i piece hi
      simp [hnone, List.reduceOption_replicate_none]
    | cons piece pieces =>
      have hrest := ih fun i piece hi => h (i + 1) piece hi
      cases slot with
      | none =>
        rw [List.reduceOption_cons_of_none, List.map_cons, List.sum_cons]
        exact hrest.trans (Nat.le_add_left _ _)
      | some held =>
        obtain rfl : piece = held := Option.some.inj (h 0 held rfl)
        rw [List.reduceOption_cons_of_some, List.map_cons, List.map_cons, List.sum_cons, List.sum_cons]
        exact Nat.add_le_add_left hrest _

namespace Gathered

variable {encoding : Encoding} {fileType : FileType} {pieces given : List Bytes} {maxLen : ℕ}
  {j : Joiner}

theorem start (maxLen : ℕ) : Gathered encoding fileType pieces maxLen [] (withMaxLen maxLen) where
  books := books_withMaxLen maxLen
  maxLen := rfl
  header := by rintro _ ⟨⟩
  slots := by
    intro i piece
    refine iff_of_false (by rintro ⟨⟩) ?_
    rintro ⟨-, t, ⟨⟩, -⟩

/-- A slot is only filled under the header of the parts. -/
theorem header_of_slot (hj : Gathered encoding fileType pieces maxLen given j) {i : ℕ} {piece : Bytes}
    (hslot : j.parts[i]? = some (some piece)) :
    j.header = some ⟨encoding, fileType, pieces.length, 0⟩ := by
  cases hheader : j.header with
  | none =>
    rw [hj.books.empty hheader] at hslot
    cases hslot
  | some h => rw [hj.header h hheader]

theorem room (hj : Gathered encoding fileType pieces maxLen given j)
    (hfits : (pieces.map List.length).sum ≤ maxLen) {i : ℕ} {piece : Bytes}
    (hpiece : pieces[i]? = some piece) (hfree : ∀ known, j.parts[i]? ≠ some (some known)) :
    j.len + piece.length ≤ maxLen := by
  refine le_trans ?_ hfits
  cases hheader : j.header with
  | none =>
    have hempty := hj.books.empty hheader
    have hnothing : j.len = 0 := by
      rw [hj.books.len, hempty]
      rfl
    rw [hnothing, Nat.zero_add]
    exact List.single_le_sum (fun _ _ => Nat.zero_le _) _
      (List.mem_map_of_mem (List.mem_of_getElem? hpiece))
  | some h =>
    have hlen : j.parts.length = pieces.length := by
      rw [hj.books.slots h hheader, hj.header h hheader]
    have hi : i < j.parts.length := hlen ▸ (List.getElem?_eq_some_iff.mp hpiece).1
    have hnone : j.parts[i]? = some none := by
      rw [List.getElem?_eq_getElem hi]
      cases hget : j.parts[i] with
      | none => rfl
      | some known => exact absurd (by rw [List.getElem?_eq_getElem hi, hget]) (hfree known)
    rw [hj.books.len, ← (fill_slot hnone piece).2]
    refine sum_slots_le fun k held hheld => ?_
    by_cases hk : i = k
    · rw [← hk, List.getElem?_set_self hi] at hheld
      cases hheld
      exact hk ▸ hpiece
    · rw [List.getElem?_set_ne hk] at hheld
      exact ((hj.slots k held).mp hheld).1

/-- A part of the file is not refused. -/
theorem receive (hj : Gathered encoding fileType pieces maxLen given j)
    (hmax : pieces.length ≤ maxParts) (hfits : (pieces.map List.length).sum ≤ maxLen) {i : ℕ}
    {piece t : Bytes} (hpiece : pieces[i]? = some piece)
    (ht : toLower t = toLower (partText encoding fileType pieces.length (piece, i))) :
    ∃ j', j.receive t = some (.ok j'.isComplete, j') ∧
      Gathered encoding fileType pieces maxLen (given ++ [t]) j' := by
  have hlt {k : ℕ} {p : Bytes} (hp : pieces[k]? = some p) : k < pieces.length :=
    (List.getElem?_eq_some_iff.mp hp).1
  have hpart := decodePart_partText hmax (hlt hpiece) ht
  -- the text is that of no other part
  have hunique {k : ℕ} {p : Bytes} (hp : pieces[k]? = some p)
      (htp : toLower t = toLower (partText encoding fileType pieces.length (p, k))) :
      k = i ∧ p = piece := by
    have hr := hpart.symm.trans (decodePart_partText hmax (hlt hp) htp)
    cases hr
    exact ⟨rfl, rfl⟩
  by_cases hslot : ∃ known, j.parts[i]? = some (some known)
  · obtain ⟨known, hslot⟩ := hslot
    obtain rfl : piece = known :=
      Option.some.inj (hpiece.symm.trans ((hj.slots i known).mp hslot).1)
    refine ⟨j, receive_of_holds hpart ⟨hj.header_of_slot hslot, hslot⟩, hj.books, hj.maxLen,
      hj.header, ?_⟩
    intro k p
    rw [hj.slots]
    refine and_congr_right fun hp => ?_
    constructor
    · rintro ⟨t', ht', h⟩
      exact ⟨t', List.mem_append_left _ ht', h⟩
    · rintro ⟨t', ht', h⟩
      rcases List.mem_append.mp ht' with hold | hnew
      · exact ⟨t', hold, h⟩
      · obtain rfl := List.mem_singleton.mp hnew
        obtain ⟨rfl, rfl⟩ := hunique hp h
        exact ((hj.slots k p).mp hslot).2
  · have hfree := not_exists.mp hslot
    have hroom := hj.room hfits hpiece hfree
    rw [← hj.maxLen] at hroom
    obtain ⟨j', hplace, hplaced⟩ := place_spec (h := ⟨encoding, fileType, pieces.length, i⟩)
      hj.books (hlt hpiece) hj.header hfree hroom
    have hany : ¬ j.header.any (· ≠ Header.common ⟨encoding, fileType, pieces.length, i⟩) = true := by
      cases hheader : j.header with
      | none => simp
      | some h =>
        rw [hj.header h hheader]
        simp [Header.common]
    refine ⟨j', ?_, hplaced.books, hplaced.maxLen.trans hj.maxLen, ?_, ?_⟩
    · rw [Joiner.receive, hpart]
      dsimp only
      rw [if_neg hany]
      split
      · exact absurd ‹_› (hfree _)
      · rw [if_neg (Nat.not_lt.mpr hj.books.le_max), if_neg (by omega), hplace, Option.map_some]
    · rw [hplaced.holds.header]
      rintro h ⟨⟩
      rfl
    · intro k p
      constructor
      · intro h
        rcases hplaced.fills k p h with hold | ⟨rfl, rfl⟩
        · obtain ⟨hp, t', ht', h'⟩ := (hj.slots k p).mp hold
          exact ⟨hp, t', List.mem_append_left _ ht', h'⟩
        · exact ⟨hpiece, t, List.mem_append_right _ (List.mem_singleton_self t), ht⟩
      · rintro ⟨hp, t', ht', h⟩
        rcases List.mem_append.mp ht' with hold | hnew
        · have hheld := (hj.slots k p).mpr ⟨hp, t', hold, h⟩
          exact (hplaced.keeps ⟨encoding, fileType, pieces.length, k⟩ p
            ⟨hj.header_of_slot hheld, hheld⟩).slot
        · obtain rfl := List.mem_singleton.mp hnew
          obtain ⟨rfl, rfl⟩ := hunique hp h
          exact hplaced.holds.slot

/-- All parts are there when the joiner is complete. -/
theorem complete_iff (hj : Gathered encoding fileType pieces maxLen given j) (hne : pieces ≠ []) :
    j.isComplete = true ↔ ∀ (i : ℕ) (piece : Bytes), pieces[i]? = some piece →
      ∃ t ∈ given, toLower t = toLower (partText encoding fileType pieces.length (piece, i)) := by
  have hlen {h : Header} (hheader : j.header = some h) : j.parts.length = pieces.length := by
    rw [hj.books.slots h hheader, hj.header h hheader]
  rw [isComplete, Bool.and_eq_true, beq_iff_eq, hj.books.received, List.countP_eq_length]
  constructor
  · rintro ⟨hsome, hfull⟩ i piece hpiece
    obtain ⟨h, hheader⟩ := Option.isSome_iff_exists.mp hsome
    have hi : i < j.parts.length := (hlen hheader).symm ▸ (List.getElem?_eq_some_iff.mp hpiece).1
    obtain ⟨held, hheld⟩ := Option.isSome_iff_exists.mp (hfull _ (List.getElem_mem hi))
    obtain ⟨hp, t, ht, htext⟩ := (hj.slots i held).mp (by rw [List.getElem?_eq_getElem hi, hheld])
    obtain rfl : piece = held := Option.some.inj (hpiece.symm.trans hp)
    exact ⟨t, ht, htext⟩
  · intro hall
    have hslot {i : ℕ} {piece : Bytes} (hpiece : pieces[i]? = some piece) :
        j.parts[i]? = some (some piece) := (hj.slots i piece).mpr ⟨hpiece, hall i piece hpiece⟩
    have hpos : 0 < pieces.length := List.length_pos_iff.mpr hne
    have hheader := hj.header_of_slot (hslot (List.getElem?_eq_getElem hpos))
    refine ⟨by rw [hheader]; rfl, fun slot hmem => ?_⟩
    obtain ⟨i, hi⟩ := List.mem_iff_getElem?.mp hmem
    have hlt : i < pieces.length := hlen hheader ▸ (List.getElem?_eq_some_iff.mp hi).1
    obtain rfl := Option.some.inj (hi.symm.trans (hslot (List.getElem?_eq_getElem hlt)))
    rfl

/-- A complete joiner holds the pieces. -/
theorem parts_eq (hj : Gathered encoding fileType pieces maxLen given j)
    (hcomplete : j.isComplete = true) : j.parts = pieces.map some := by
  rw [isComplete, Bool.and_eq_true, beq_iff_eq, hj.books.received, List.countP_eq_length] at hcomplete
  obtain ⟨hsome, hfull⟩ := hcomplete
  obtain ⟨h, hheader⟩ := Option.isSome_iff_exists.mp hsome
  have hlen : j.parts.length = pieces.length := by
    rw [hj.books.slots h hheader, hj.header h hheader]
  refine List.ext_getElem (by rw [hlen, List.length_map]) fun i h₁ h₂ => ?_
  obtain ⟨held, hheld⟩ := Option.isSome_iff_exists.mp (hfull _ (List.getElem_mem h₁))
  obtain ⟨hp, -⟩ := (hj.slots i held).mp (by rw [List.getElem?_eq_getElem h₁, hheld])
  rw [hheld, List.getElem_map, (List.getElem?_eq_some_iff.mp hp).2]

/-- The pieces are put together, and what they make up is decompressed if it has to be. -/
theorem finish (hj : Gathered encoding fileType pieces maxLen given j)
    (hcomplete : j.isComplete = true) {inflate : Bytes → ℕ → Except Error Bytes} {data : Bytes}
    (hinflate : encoding = .zlib → inflate pieces.flatten maxLen = .ok data)
    (hplain : encoding ≠ .zlib → pieces.flatten = data) :
    j.finish inflate = .ok (fileType, data) := by
  obtain ⟨h, hheader⟩ : ∃ h, j.header = some h := by
    rw [isComplete, Bool.and_eq_true] at hcomplete
    exact Option.isSome_iff_exists.mp hcomplete.1
  have hfile : j.parts.reduceOption.flatten = pieces.flatten := by
    rw [hj.parts_eq hcomplete, List.reduceOption, List.filterMap_map]
    exact congrArg List.flatten List.filterMap_some
  rw [Joiner.finish, hheader, hj.header h hheader]
  dsimp only
  rw [hcomplete, if_neg (by decide), hfile, hj.maxLen]
  cases encoding with
  | zlib =>
    dsimp only
    rw [hinflate rfl]
    rfl
  | hex | base32 =>
    rw [hplain (by decide)]
    rfl

end Gathered

/-- Texts that are parts of one file are taken in one after the other. -/
theorem exists_gathered {encoding : Encoding} {fileType : FileType} {pieces : List Bytes} {maxLen : ℕ}
    (hmax : pieces.length ≤ maxParts) (hfits : (pieces.map List.length).sum ≤ maxLen)
    {texts : List Bytes} (htexts : ∀ t ∈ texts, ∃ (i : ℕ) (piece : Bytes), pieces[i]? = some piece ∧
      toLower t = toLower (partText encoding fileType pieces.length (piece, i))) :
    ∃ j, receiveAll (withMaxLen maxLen) texts = some j ∧
      Gathered encoding fileType pieces maxLen texts j := by
  induction texts using List.reverseRecOn with
  | nil => exact ⟨_, rfl, Gathered.start maxLen⟩
  | append_singleton texts t ih =>
    obtain ⟨hold, hnew⟩ := List.forall_mem_append.mp htexts
    obtain ⟨j, hrun, hj⟩ := ih hold
    obtain ⟨i, piece, hpiece, ht⟩ := hnew t (List.mem_singleton_self t)
    obtain ⟨j', hr, hj'⟩ := hj.receive hmax hfits hpiece ht
    refine ⟨j', ?_, hj'⟩
    rw [receiveAll_append, hrun, Option.bind_some, receiveAll_singleton, hr, Option.map_some]

end Joiner

/-- The parts of a file are those of a cut of what is sent for it. -/
theorem exists_pieces {file : Bytes} {fileType : FileType} {encoding : Encoding} {maxPartLen : ℕ}
    {parts : List Bytes} (h : (splitRaw file fileType encoding maxPartLen).run = some (.ok parts)) :
    ∃ pieces : List Bytes, pieces ≠ [] ∧ pieces.length ≤ maxParts ∧ pieces.flatten = file ∧
      ∀ p, p ∈ parts ↔ ∃ (i : ℕ) (piece : Bytes), pieces[i]? = some piece ∧
        p = partText encoding fileType pieces.length (piece, i) := by
  rcases splitRaw_eq file fileType encoding maxPartLen with ⟨pieces, hbest, hmax, hrun⟩ | ⟨e, hrun, -⟩
  · rw [hrun] at h
    cases h
    refine ⟨pieces, hbest.nonempty, hmax, hbest.joined, fun p => ?_⟩
    rw [List.mem_map]
    constructor
    · rintro ⟨⟨piece, i⟩, hmem, rfl⟩
      exact ⟨i, piece, List.mem_zipIdx_iff_getElem?.mp hmem, rfl⟩
    · rintro ⟨i, piece, hpiece, rfl⟩
      exact ⟨(piece, i), List.mem_zipIdx_iff_getElem?.mpr hpiece, rfl⟩
  · rw [hrun] at h
    cases h

section

variable {deflate : Bytes → Option Bytes} {inflate : Bytes → ℕ → Except Error Bytes}
  {data : Bytes} {fileType : FileType} {maxPartLen maxLen : ℕ} {parts texts : List Bytes}

/-- What is sent for a file, in either way to split it. -/
theorem exists_splitRaw (h : (split deflate data fileType maxPartLen).run = some (.ok parts) ∨
      ∃ encoding, (splitWith deflate data fileType encoding maxPartLen).run = some (.ok parts)) :
    ∃ encoding file, contents deflate encoding data = some file ∧
      (splitRaw file fileType encoding maxPartLen).run = some (.ok parts) := by
  rcases h with h | ⟨encoding, h⟩
  · rw [split] at h
    cases hdeflate : deflate data with
    | none =>
      rw [hdeflate] at h
      cases h
    | some compressed =>
      rw [hdeflate] at h
      change (if compressed.length < data.length then _ else _ :
        ExceptT Error Option (List Bytes)).run = _ at h
      split_ifs at h
      · exact ⟨.zlib, compressed, hdeflate, h⟩
      · exact ⟨.base32, data, rfl, h⟩
  · rw [splitWith] at h
    cases hfile : contents deflate encoding data with
    | none =>
      rw [hfile] at h
      cases h
    | some file =>
      rw [hfile] at h
      exact ⟨encoding, file, hfile, h⟩

/-- Parts of a file, in any order and letter case and as often as they come, are all
taken in; the joiner is complete when it was given all of them, and then gives the
file back. -/
theorem transport_any_order
    (hinflate : ∀ data bytes n, deflate data = some bytes → data.length ≤ n →
      inflate bytes n = .ok data)
    (hsplit : (split deflate data fileType maxPartLen).run = some (.ok parts) ∨
      ∃ encoding, (splitWith deflate data fileType encoding maxPartLen).run = some (.ok parts))
    (hdata : data.length ≤ maxLen)
    (hcompressed : ∀ bytes, deflate data = some bytes → bytes.length ≤ maxLen)
    (htexts : ∀ t ∈ texts, ∃ p ∈ parts, toLower t = toLower p)
    (hcover : ∀ p ∈ parts, ∃ t ∈ texts, toLower t = toLower p) :
    (∀ front rest, texts = front ++ rest →
      ∃ j, Joiner.receiveAll (.withMaxLen maxLen) front = some j ∧
        (j.isComplete = true ↔ ∀ p ∈ parts, ∃ t ∈ front, toLower t = toLower p) ∧
        ∀ t rest', rest = t :: rest' → ∃ j', j.receive t = some (.ok j'.isComplete, j')) ∧
    ∃ j, Joiner.receiveAll (.withMaxLen maxLen) texts = some j ∧
      j.finish inflate = .ok (fileType, data) := by
  obtain ⟨encoding, file, hfile, hraw⟩ := exists_splitRaw hsplit
  obtain ⟨pieces, hne, hmax, hjoined, hparts⟩ := exists_pieces hraw
  have hfits : (pieces.map List.length).sum ≤ maxLen := by
    rw [← List.length_flatten, hjoined]
    cases encoding with
    | zlib => exact hcompressed file hfile
    | hex | base32 =>
      cases hfile
      exact hdata
  have hgiven (t : Bytes) (ht : t ∈ texts) : ∃ (i : ℕ) (piece : Bytes), pieces[i]? = some piece ∧
      toLower t = toLower (partText encoding fileType pieces.length (piece, i)) := by
    obtain ⟨p, hp, htp⟩ := htexts t ht
    obtain ⟨i, piece, hpiece, rfl⟩ := (hparts p).mp hp
    exact ⟨i, piece, hpiece, htp⟩
  have hall (given : List Bytes) : (∀ (i : ℕ) (piece : Bytes), pieces[i]? = some piece →
      ∃ t ∈ given, toLower t = toLower (partText encoding fileType pieces.length (piece, i))) ↔
      ∀ p ∈ parts, ∃ t ∈ given, toLower t = toLower p := by
    constructor
    · intro h p hp
      obtain ⟨i, piece, hpiece, rfl⟩ := (hparts p).mp hp
      exact h i piece hpiece
    · exact fun h i piece hpiece => h _ ((hparts _).mpr ⟨i, piece, hpiece, rfl⟩)
  constructor
  · rintro front rest rfl
    obtain ⟨hfront, hrest⟩ := List.forall_mem_append.mp hgiven
    obtain ⟨j, hrun, hj⟩ := Joiner.exists_gathered hmax hfits hfront
    refine ⟨j, hrun, (hj.complete_iff hne).trans (hall front), ?_⟩
    rintro t rest' rfl
    obtain ⟨i, piece, hpiece, ht⟩ := hrest t List.mem_cons_self
    obtain ⟨j', hr, -⟩ := hj.receive hmax hfits hpiece ht
    exact ⟨j', hr⟩
  · obtain ⟨j, hrun, hj⟩ := Joiner.exists_gathered hmax hfits hgiven
    refine ⟨j, hrun, hj.finish ((hj.complete_iff hne).mpr ((hall texts).mpr hcover)) ?_ ?_⟩
    · rintro rfl
      rw [hjoined]
      exact hinflate data file maxLen hfile hdata
    · intro hplain
      rw [hjoined]
      cases encoding with
      | zlib => exact absurd rfl hplain
      | hex | base32 => exact (Option.some.inj hfile).symm

end

def helloBytes : Bytes := ofString "hello"

/-- "hello" in one block with the fixed codes. -/
def helloDeflated : Bytes := [0xcb, 0x48, 0xcd, 0xc9, 0xc9, 0x07, 0x00]

def deflateHello (data : Bytes) : Option Bytes :=
  if data = helloBytes then some helloDeflated else none

def inflateHello (bytes : Bytes) (maxLen : ℕ) : Except Error Bytes :=
  if bytes ≠ helloDeflated then .error .invalidCompression
  else if maxLen < helloBytes.length then .error .tooLarge
  else .ok helloBytes

/-- The second part in small letters, then both. -/
theorem transport_any_order_sample :
    ∃ j, Joiner.receiveAll (.withMaxLen 100)
        [ofString "b$zp0201a4aa", ofString "B$ZP0200ZNEM3SOJ", ofString "B$ZP0201A4AA"] = some j ∧
      j.finish inflateHello = .ok (.psbt, helloBytes) := by
  have hinflate (data bytes : Bytes) (n : ℕ) (h : deflateHello data = some bytes)
      (hle : data.length ≤ n) : inflateHello bytes n = .ok data := by
    rw [deflateHello] at h
    split_ifs at h with hdata
    cases h
    rw [hdata] at hle ⊢
    rw [inflateHello, if_neg (not_not.mpr rfl), if_neg (Nat.not_lt.mpr hle)]
  have hsplit : (splitWith deflateHello helloBytes .psbt .zlib 16).run =
      some (.ok [ofString "B$ZP0200ZNEM3SOJ", ofString "B$ZP0201A4AA"]) := by decide +kernel
  refine (transport_any_order hinflate (.inr ⟨.zlib, hsplit⟩) (by decide) ?_ (by decide +kernel)
    (by decide +kernel)).2
  intro bytes h
  cases h
  decide

end Outscript.Bbqr
