import Outscript.Bcur.Bytewords

/-!
# Bytewords and what they spell

A text is cut into words, and each word stands for one byte in any letter case.
So a text is decoded exactly if it spells some bytes and their checksum.
-/
namespace Outscript.Bcur.Bytewords

open ByteString Ascii Fallible

/-! ## Words -/

/-- The word that stands for a byte. -/
def Style.wordOf (style : Style) (byte : UInt8) : Bytes :=
  match style with
  | .minimal => minimalWord byte
  | .standard | .uri => word byte

def Style.wordLen : Style → Nat
  | .minimal => 2
  | .standard | .uri => 4

theorem length_word (byte : UInt8) : (word byte).length = 4 := by
  have hbyte := byte.toNat_lt
  rw [word, List.length_take, List.length_drop, length_words]
  omega

theorem length_wordOf (style : Style) (byte : UInt8) :
    (style.wordOf byte).length = style.wordLen := by
  cases style with
  | minimal => rfl
  | standard | uri => exact length_word byte

theorem slice_words {i k : Nat} (h : i + k ≤ 1024) :
    (words.drop i).take k = (List.range k).map fun j => words.getD (i + j) 0 := by
  have hlen := length_words
  refine List.ext_getElem ?_ fun j h₁ h₂ => ?_
  · rw [List.length_take, List.length_drop, List.length_map, List.length_range]
    omega
  · rw [List.length_map, List.length_range] at h₂
    rw [List.getElem_take, List.getElem_drop, List.getElem_map, List.getElem_range,
      List.getD_eq_getElem?_getD, List.getElem?_eq_getElem (by omega), Option.getD_some]

theorem word_eq (byte : UInt8) :
    word byte = [words.getD (4 * byte.toNat) 0, words.getD (4 * byte.toNat + 1) 0,
      words.getD (4 * byte.toNat + 2) 0, words.getD (4 * byte.toNat + 3) 0] := by
  have hbyte := byte.toNat_lt
  rw [word, slice_words (by omega)]
  rfl

theorem middle_eq (byte : UInt8) :
    (words.drop (4 * byte.toNat + 1)).take 2 =
      [words.getD (4 * byte.toNat + 1) 0, words.getD (4 * byte.toNat + 2) 0] := by
  have hbyte := byte.toNat_lt
  rw [slice_words (by omega)]
  rfl

theorem minimalWord_eq (byte : UInt8) :
    minimalWord byte = [words.getD (4 * byte.toNat) 0, words.getD (4 * byte.toNat + 3) 0] := by
  rw [minimalWord, word_getD (by omega), word_getD (by omega), Nat.add_zero]

/-- What the table has is the word with these letters. -/
theorem letterIndex_of_lookup {k n : Nat} (h : lookup.getD k (-1) = n) :
    n < 256 ∧ letterIndex n = k := by
  have hfold : ∀ m ≤ 256, ∀ j, ∀ n : Nat,
      ((List.range m).foldl (fun table i => table.set (letterIndex i) (i : Int))
        (List.replicate (26 * 26) (-1))).getD j (-1) = n → n < m ∧ letterIndex n = j := by
    intro m hm
    induction m with
    | zero =>
      intro j n hn
      rw [List.range_zero, List.foldl_nil, List.getD_eq_getElem?_getD, List.getElem?_replicate] at hn
      split_ifs at hn <;> cases hn
    | succ m ih =>
      intro j n hn
      rw [List.range_succ, List.foldl_append, List.foldl_cons, List.foldl_nil,
        List.getD_eq_getElem?_getD, List.getElem?_set] at hn
      split_ifs at hn with hj hlt
      · rw [Option.getD_some] at hn
        have hnm : m = n := by exact_mod_cast hn
        exact ⟨by omega, hnm ▸ hj⟩
      · cases hn
      · rw [← List.getD_eq_getElem?_getD] at hn
        obtain ⟨hlt, hindex⟩ := ih (by omega) j n hn
        exact ⟨by omega, hindex⟩
  exact hfold 256 le_rfl k n h

theorem letter_eq_some {c : UInt8} {i : Nat} (h : letter c = some i) :
    isLower (lower c) = true ∧ i = (lower c).toNat - 97 := by
  rw [letter] at h
  split_ifs at h with hlower
  exact ⟨hlower, (Option.some.inj h).symm⟩

theorem not_upper_of_isLower {c : UInt8} (h : isLower c = true) : isUpper c = false := by
  rw [isLower_iff] at h
  rw [isUpper, decide_eq_false_iff_not, UInt8.le_iff_toNat_le, UInt8.le_iff_toNat_le]
  change ¬ (65 ≤ c.toNat ∧ c.toNat ≤ 90)
  omega

theorem lower_words {k : Nat} (h : k < 1024) : lower (words.getD k 0) = words.getD k 0 :=
  lower_eq_self_of_not_upper (not_upper_of_isLower (isLower_words h))

theorem checkWord_eq_some {w : Bytes} {value : Int} {byte : UInt8}
    (h : checkWord w value = some byte) :
    value = byte.toNat ∧ (w.length = 4 →
      toLower w.tail.dropLast = toLower ((words.drop (4 * byte.toNat + 1)).take 2)) := by
  rw [checkWord] at h
  split_ifs at h with hrange hmiddle
  obtain ⟨n, rfl⟩ := Int.eq_ofNat_of_zero_le (not_lt.mp fun hneg => hrange (Or.inl hneg))
  have hn : n < 256 := by omega
  have hbyte : byte.toNat = n := by
    rw [← Option.some.inj h, Int.toNat_natCast, UInt8.toNat_ofNat', Nat.mod_eq_of_lt hn]
  refine ⟨congrArg Nat.cast hbyte.symm, fun hlen => ?_⟩
  rw [not_and, Bool.not_eq_false, Int.toNat_natCast, ← hbyte, eqIgnoreCase, beq_iff_eq] at hmiddle
  exact hmiddle hlen

/-- The first and the last letter of a word that is read. -/
theorem letters_of_wordValue {w : Bytes} {byte first last : UInt8} (h : wordValue w = some byte)
    (hfirst : w.head? = some first) (hlast : w.getLast? = some last) :
    (w.length = 4 → toLower w.tail.dropLast = toLower ((words.drop (4 * byte.toNat + 1)).take 2)) ∧
      lower first = words.getD (4 * byte.toNat) 0 ∧
        lower last = words.getD (4 * byte.toNat + 3) 0 := by
  rw [wordValue_eq, hfirst, hlast, Option.bind_some, Option.bind_some, Option.bind_eq_some_iff] at h
  obtain ⟨i, hi, h⟩ := h
  obtain ⟨j, hj, h⟩ := Option.bind_eq_some_iff.mp h
  obtain ⟨hlowi, rfl⟩ := letter_eq_some hi
  obtain ⟨hlowj, rfl⟩ := letter_eq_some hj
  obtain ⟨hvalue, hmiddle⟩ := checkWord_eq_some h
  obtain ⟨hbyte, hindex⟩ := letterIndex_of_lookup hvalue
  have hwi := isLower_iff.mp (isLower_words (show 4 * byte.toNat < 1024 by omega))
  have hwj := isLower_iff.mp (isLower_words (show 4 * byte.toNat + 3 < 1024 by omega))
  have hi' := isLower_iff.mp hlowi
  have hj' := isLower_iff.mp hlowj
  simp only [letterIndex] at hindex
  refine ⟨hmiddle, UInt8.toNat_inj.mp ?_, UInt8.toNat_inj.mp ?_⟩ <;> omega

/-- A word is read as the byte that it stands for, in any letter case. -/
theorem wordValue_eq_some_iff {style : Style} {w : Bytes} (hlen : w.length = style.wordLen)
    {byte : UInt8} : wordValue w = some byte ↔ toLower w = style.wordOf byte := by
  have hbyte := byte.toNat_lt
  have hread : wordValue (style.wordOf byte) = some byte := by
    cases style with
    | minimal => exact wordValue_minimalWord byte
    | standard | uri =>
      have hfirst := letter_of_isLower (isLower_words (show 4 * byte.toNat < 1024 by omega))
      have hlast := letter_of_isLower (isLower_words (show 4 * byte.toNat + 3 < 1024 by omega))
      have hlookup := lookup_letterIndex hbyte
      simp only [letterIndex] at hlookup
      rw [Style.wordOf, wordValue_eq, word_eq, List.head?_cons, List.getLast?_cons_cons,
        List.getLast?_cons_cons, List.getLast?_cons_cons, List.getLast?_singleton, Option.bind_some,
        Option.bind_some, hfirst, hlast, Option.bind_some, Option.bind_some, hlookup, checkWord,
        if_neg (by omega), Int.toNat_natCast, middle_eq, if_neg, UInt8.ofNat_toNat]
      rintro ⟨-, hmiddle⟩
      have hself := eqIgnoreCase_self
        [words.getD (4 * byte.toNat + 1) 0, words.getD (4 * byte.toNat + 2) 0]
      exact Bool.noConfusion (hmiddle.symm.trans hself)
  constructor
  · intro h
    cases style with
    | minimal =>
      obtain ⟨a, b, rfl⟩ := List.length_eq_two.mp hlen
      obtain ⟨-, hfirst, hlast⟩ := letters_of_wordValue h rfl rfl
      rw [Style.wordOf, minimalWord_eq, ← hfirst, ← hlast]
      rfl
    | standard | uri =>
      obtain ⟨a, b, c, d, rfl⟩ := List.length_eq_four.mp hlen
      obtain ⟨hmiddle, hfirst, hlast⟩ := letters_of_wordValue h rfl rfl
      have hbc : [lower b, lower c] = _ := hmiddle rfl
      rw [middle_eq, toLower, List.map_cons, List.map_cons, List.map_nil, lower_words (by omega),
        lower_words (by omega)] at hbc
      obtain ⟨hb, hbc⟩ := List.cons_eq_cons.mp hbc
      obtain ⟨hc, -⟩ := List.cons_eq_cons.mp hbc
      rw [Style.wordOf, word_eq, ← hfirst, ← hb, ← hc, ← hlast]
      rfl
  · intro h
    rw [← wordValue_toLower, h, hread]

/-! ## Texts -/

/-- The bytes as words, behind one another. -/
def spell (bytes : Bytes) (style : Style) : Bytes := (bytes.mapIdx (encodeWord style)).flatten

theorem encode_eq_spell (data : Bytes) (style : Style) :
    encode data style = spell (data ++ checksum data) style := rfl

/-- The words that a text is cut into. -/
def cut (style : Style) (text : Bytes) : List Bytes :=
  match style.separator with
  | none => pairs text
  | some sep => text.splitOn sep

/-- Reads one of the words. -/
def Delay.readWord (style : Style) (s : Delay) (w : Bytes) : Except Error Delay :=
  if w.length ≠ style.wordLen then .error .invalidWord else s.pushWord w

theorem mapIdx_const {f : UInt8 → Bytes} (l : Bytes) : l.mapIdx (fun _ b => f b) = l.map f := by
  rw [List.mapIdx_eq_zipIdx_map]
  have hfst := congrArg (List.map f) (List.zipIdx_map_fst 0 l)
  rwa [List.map_map] at hfst

theorem spell_minimal (bytes : Bytes) : spell bytes .minimal = bytes.flatMap minimalWord := by
  rw [spell, List.flatMap, ← mapIdx_const]
  rfl

theorem length_flatMap_minimalWord (l : Bytes) : (l.flatMap minimalWord).length = 2 * l.length := by
  induction l with
  | nil => rfl
  | cons byte l ih =>
    rw [List.flatMap_cons, List.length_append, ih, List.length_cons]
    simp only [minimalWord, List.length_cons, List.length_nil]
    omega

section

variable {style : Style} {sep : UInt8} (h : style.separator = some sep)

include h

theorem wordOf_separated : style.wordOf = word := by
  cases style with
  | minimal => cases h
  | standard | uri => rfl

theorem separator_caseFree : CaseFree sep := by
  cases style with
  | minimal => cases h
  | standard | uri =>
    cases h
    decide

/-- Separated words have a separator in front, but for the first one. -/
theorem spell_cons (byte : UInt8) (bytes : Bytes) :
    spell (byte :: bytes) style = word byte ++ bytes.flatMap fun b => sep :: word b := by
  have hfirst : encodeWord style 0 byte = word byte := by
    rw [encodeWord, h]
    rfl
  have hnext : (fun i => encodeWord style (i + 1)) = fun _ b => sep :: word b := by
    funext i b
    rw [encodeWord, h]
    rfl
  rw [spell, List.mapIdx_cons, List.flatten_cons, hfirst, hnext, mapIdx_const]
  rfl

/-- Separated words are written with a separator between two of them. -/
theorem spell_separated (bytes : Bytes) :
    spell bytes style = [sep].intercalate (bytes.map style.wordOf) := by
  have hjoin (byte : UInt8) (bytes : Bytes) : [sep].intercalate ((byte :: bytes).map word) =
      word byte ++ bytes.flatMap fun b => sep :: word b := by
    induction bytes generalizing byte with
    | nil => rw [List.map_singleton, List.intercalate_singleton, List.flatMap_nil, List.append_nil]
    | cons b bytes ih =>
      rw [List.map_cons, List.map_cons, List.intercalate_cons_cons, ← List.map_cons, ih]
      simp
  cases bytes with
  | nil => rfl
  | cons byte bytes => rw [spell_cons h, wordOf_separated h, hjoin]

theorem length_spell_separated {bytes : Bytes} (hne : bytes ≠ []) :
    (spell bytes style).length = bytes.length * 5 - 1 := by
  have hrest (bytes : Bytes) : (bytes.flatMap fun b => sep :: word b).length = bytes.length * 5 := by
    induction bytes with
    | nil => rfl
    | cons b bytes ih =>
      rw [List.flatMap_cons, List.length_append, ih, List.length_cons, length_word, List.length_cons]
      omega
  cases bytes with
  | nil => exact absurd rfl hne
  | cons byte bytes =>
    rw [spell_cons h, List.length_append, length_word, hrest, List.length_cons]
    omega

end

theorem isLower_of_mem_wordOf {style : Style} {byte c : UInt8} (h : c ∈ style.wordOf byte) :
    isLower c = true := by
  have hbyte := byte.toNat_lt
  cases style with
  | minimal =>
    rw [Style.wordOf, minimalWord_eq, List.mem_pair] at h
    rcases h with rfl | rfl <;> exact isLower_words (by omega)
  | standard | uri => exact isLower_of_mem_words c (List.mem_of_mem_drop (List.mem_of_mem_take h))

theorem pairs_flatMap (l : Bytes) : pairs (l.flatMap minimalWord) = l.map minimalWord := by
  induction l with
  | nil => rfl
  | cons byte l ih => rw [List.flatMap_cons, List.map_cons, ← ih]; rfl

theorem flatten_pairs (t : Bytes) : (pairs t).flatten = t := by
  induction t using pairs.induct with
  | case1 => rfl
  | case2 a => rfl
  | case3 a b t ih => rw [pairs, List.flatten_cons, ih]; rfl

/-- A text spells bytes exactly if its words do, each in any letter case. -/
theorem cut_eq_iff {style : Style} {text bytes : Bytes} (h : bytes ≠ []) :
    (cut style text).map toLower = bytes.map style.wordOf ↔ toLower text = spell bytes style := by
  cases hsep : style.separator with
  | none =>
    have hstyle : style = .minimal := by
      cases style with
      | minimal => rfl
      | standard | uri => cases hsep
    subst hstyle
    rw [cut, hsep, ← pairs_toLower, spell_minimal]
    constructor
    · intro hcut
      rw [← flatten_pairs (toLower text), hcut, List.flatMap]
      rfl
    · intro htext
      rw [htext, pairs_flatMap]
      rfl
  | some sep =>
    have hfree := separator_caseFree hsep
    have hmem : ∀ w ∈ bytes.map style.wordOf, sep ∉ w := by
      refine List.forall_mem_map.mpr fun b _ hb => ?_
      exact Bool.noConfusion (hfree.2.symm.trans (isLower_of_mem_wordOf hb))
    have hcut : (text.splitOn sep).map toLower = (toLower text).splitOn sep :=
      (splitOn_map (lower_eq_iff hfree) text).symm
    rw [cut, hsep, spell_separated hsep]
    dsimp only
    rw [hcut]
    constructor
    · intro hwords
      rw [← hwords, List.intercalate_splitOn]
    · intro htext
      rw [htext, List.splitOn_intercalate sep hmem (by simpa using h)]

/-! ## Reading a text -/

/-- One more word is read where it stands for a byte that there is room for. -/
theorem Delay.readWord_eq_ok {style : Style} {s s' : Delay} {w : Bytes} :
    s.readWord style w = .ok s' ↔ ∃ byte, toLower w = style.wordOf byte ∧ s.push byte = .ok s' := by
  rw [readWord]
  split_ifs with hlen
  · refine iff_of_false (fun h => nomatch h) ?_
    rintro ⟨byte, hw, -⟩
    exact hlen (by rw [← length_toLower, hw, length_wordOf])
  · rw [not_not] at hlen
    rw [pushWord]
    constructor
    · intro h
      cases hw : wordValue w with
      | none => rw [hw] at h; cases h
      | some byte =>
        rw [hw] at h
        exact ⟨byte, (wordValue_eq_some_iff hlen).mp hw, h⟩
    · rintro ⟨byte, hw, h⟩
      rw [(wordValue_eq_some_iff hlen).mpr hw]
      exact h

/-- A decoder that takes in a byte had room for the one it puts out. -/
theorem Delay.Holds.room {s s' : Delay} {bytes out : Bytes} (h : s.Holds bytes out) {byte : UInt8}
    (hpush : s.push byte = .ok s') : bytes.length + 1 ≤ out.length + 4 := by
  by_cases h4 : 4 ≤ bytes.length
  · rw [Delay.push, if_pos (by rw [h.count]; exact h4)] at hpush
    dsimp only at hpush
    split_ifs at hpush with hout
    rw [h.count, h.out, List.length_append, List.length_take, List.length_drop] at hout
    omega
  · omega

/-- At any moment of a run the last four bytes read are held back. -/
theorem Delay.Holds.of_run {style : Style} {ws : List Bytes} {s s' : Delay} {bytes out : Bytes}
    (h : s.Holds bytes out) (hrun : ws.foldlM (Delay.readWord style) s = .ok s') :
    ∃ more, ws.map toLower = more.map style.wordOf ∧ s'.Holds (bytes ++ more) out := by
  induction ws generalizing s bytes with
  | nil =>
    cases hrun
    exact ⟨[], rfl, by rwa [List.append_nil]⟩
  | cons w ws ih =>
    obtain ⟨s₁, hread, hrun⟩ := bind_eq_ok.mp hrun
    obtain ⟨byte, hw, hpush⟩ := Delay.readWord_eq_ok.mp hread
    obtain ⟨s₂, hpush', h₁⟩ := h.push byte (h.room hpush)
    cases hpush.symm.trans hpush'
    obtain ⟨more, hws, h'⟩ := ih h₁ hrun
    refine ⟨byte :: more, by rw [List.map_cons, List.map_cons, hw, hws], ?_⟩
    rwa [List.append_assoc] at h'

theorem Delay.Holds.exists_run {style : Style} {ws : List Bytes} {s : Delay}
    {bytes more out : Bytes} (h : s.Holds bytes out) (hws : ws.map toLower = more.map style.wordOf)
    (hroom : bytes.length + more.length ≤ out.length + 4) :
    ∃ s', ws.foldlM (Delay.readWord style) s = .ok s' ∧ s'.Holds (bytes ++ more) out := by
  induction ws generalizing s bytes more with
  | nil =>
    rw [List.map_nil, eq_comm, List.map_eq_nil_iff] at hws
    exact ⟨s, rfl, by rwa [hws, List.append_nil]⟩
  | cons w ws ih =>
    cases more with
    | nil => cases hws
    | cons byte more =>
      obtain ⟨hw, hws⟩ := List.cons_eq_cons.mp hws
      rw [List.length_cons] at hroom
      obtain ⟨s₁, hpush, h₁⟩ := h.push byte (by omega)
      obtain ⟨s', hrun, h'⟩ := ih h₁ hws (by rw [List.length_append, List.length_singleton]; omega)
      refine ⟨s', ?_, by rwa [List.append_assoc] at h'⟩
      rw [List.foldlM_cons, Delay.readWord_eq_ok.mpr ⟨byte, hw, hpush⟩, ok_bind, hrun]

/-- Words of two letters make an even text. -/
theorem length_of_mem_pairs {t : Bytes} : (∀ w ∈ pairs t, w.length = 2) ↔ t.length % 2 = 0 := by
  induction t using pairs.induct with
  | case1 => exact iff_of_true (List.forall_mem_nil _) rfl
  | case2 a =>
    refine iff_of_false (fun h => ?_) Nat.one_ne_zero
    cases h [a] (List.mem_singleton_self _)
  | case3 a b t ih =>
    have htwo : (a :: b :: t).length % 2 = t.length % 2 := Nat.add_mod_right t.length 2
    rw [pairs, List.forall_mem_cons, ih, htwo]
    exact and_iff_right rfl

/-- The words of a text are read one after the other. -/
theorem decodeWords_eq_ok {style : Style} {text : Bytes} {s s' : Delay} :
    decodeWords text style s = .ok s' ↔ (cut style text).foldlM (Delay.readWord style) s = .ok s' := by
  have hpush (ws : List Bytes) (hws : ∀ w ∈ ws, w.length = 2) (s : Delay) :
      ws.foldlM (Delay.readWord .minimal) s = ws.foldlM Delay.pushWord s := by
    induction ws generalizing s with
    | nil => rfl
    | cons w ws ih =>
      obtain ⟨hw, hws⟩ := List.forall_mem_cons.mp hws
      have hread : s.readWord .minimal w = s.pushWord w := if_neg (not_not.mpr hw)
      rw [List.foldlM_cons, List.foldlM_cons, hread]
      exact bind_congr fun s => ih hws s
  have hlen (ws : List Bytes) (s : Delay) (hrun : ws.foldlM (Delay.readWord .minimal) s = .ok s') :
      ∀ w ∈ ws, w.length = 2 := by
    induction ws generalizing s with
    | nil => exact List.forall_mem_nil _
    | cons w ws ih =>
      obtain ⟨s₁, hread, hrun⟩ := bind_eq_ok.mp hrun
      obtain ⟨byte, hw, -⟩ := Delay.readWord_eq_ok.mp hread
      exact List.forall_mem_cons.mpr ⟨by rw [← length_toLower, hw, length_wordOf]; rfl, ih s₁ hrun⟩
  cases style with
  | minimal =>
    simp only [decodeWords, cut, Style.separator]
    split_ifs with hodd
    · refine iff_of_false (by rintro ⟨⟩) fun hrun => hodd ?_
      exact length_of_mem_pairs.mp (hlen _ _ hrun)
    · rw [hpush _ (length_of_mem_pairs.mpr (not_not.mp hodd))]
  | standard | uri => exact Iff.rfl

/-- The four bytes that are held back, the oldest one first. -/
theorem Delay.Holds.held {s : Delay} {bytes out : Bytes} (h : s.Holds bytes out)
    (h4 : 4 ≤ bytes.length) :
    (List.range 4).map (fun i => s.delay.getD ((s.count + i) % 4) 0) =
      bytes.drop (bytes.length - 4) := by
  refine List.ext_getElem ?_ fun i h₁ h₂ => ?_
  · rw [List.length_map, List.length_range, List.length_drop]
    omega
  · rw [List.length_map, List.length_range] at h₁
    have hdelay := h.delay (bytes.length - 4 + i) (by omega) (by omega)
    have hmod : (s.count + i) % 4 = (bytes.length - 4 + i) % 4 := by
      rw [h.count]
      omega
    rw [List.getElem_map, List.getElem_range, List.getElem_drop, hmod, List.getD_eq_getElem?_getD,
      hdelay, List.getElem?_eq_getElem (by omega), Option.getD_some]

/-- What becomes of a text that was read to its end. -/
theorem decodeToSlice_of_holds {style : Style} {text out bytes : Bytes} {s : Delay}
    (hwords : decodeWords text style (.start out) = .ok s) (h : s.Holds bytes out) :
    decodeToSlice text style out =
      if bytes.length < 4 then .error .invalidLength
      else if checksum (bytes.take (bytes.length - 4)) ≠ bytes.drop (bytes.length - 4) then
        .error .badChecksum
      else .ok (bytes.length - 4,
        bytes.take (bytes.length - 4) ++ out.drop (bytes.length - 4)) := by
  rw [decodeToSlice, hwords, ok_bind, h.count, h.crc, h.out]
  by_cases h4 : bytes.length < 4
  · rw [if_pos h4, if_pos h4]
  · have hheld := h.held (Nat.not_lt.mp h4)
    rw [h.count] at hheld
    rw [if_neg h4, if_neg h4, hheld]
    rfl

/-- Reading what spells some bytes, into a buffer with room for them. -/
theorem decodeToSlice_of_spell {style : Style} {text out bytes : Bytes} (h4 : 4 ≤ bytes.length)
    (htext : toLower text = spell bytes style) (hroom : bytes.length ≤ out.length + 4) :
    decodeToSlice text style out =
      if checksum (bytes.take (bytes.length - 4)) ≠ bytes.drop (bytes.length - 4) then
        .error .badChecksum
      else .ok (bytes.length - 4,
        bytes.take (bytes.length - 4) ++ out.drop (bytes.length - 4)) := by
  have hne : bytes ≠ [] := List.ne_nil_of_length_pos (by omega)
  obtain ⟨s, hrun, hs⟩ := (Delay.start_holds out).exists_run ((cut_eq_iff hne).mpr htext)
    (by rwa [List.length_nil, Nat.zero_add])
  rw [decodeToSlice_of_holds (decodeWords_eq_ok.mpr hrun) hs, List.nil_append,
    if_neg (Nat.not_lt.mpr h4)]

theorem decodedLenBound_spell {style : Style} {bytes : Bytes} (hne : bytes ≠ []) :
    decodedLenBound (spell bytes style).length style = bytes.length - 4 := by
  have hpos := List.length_pos_of_ne_nil hne
  cases style with
  | minimal =>
    rw [spell_minimal, length_flatMap_minimalWord, decodedLenBound]
    omega
  | standard | uri =>
    rw [length_spell_separated rfl hne, decodedLenBound]
    omega

@[simp] theorem length_checksum (data : Bytes) : (checksum data).length = 4 := by simp [checksum]

theorem encoded_ne_nil (data : Bytes) : data ++ checksum data ≠ [] := by
  refine List.ne_nil_of_length_pos ?_
  rw [List.length_append, length_checksum]
  omega

theorem length_encode (data : Bytes) (style : Style) :
    (encode data style).length = encodedLen data.length style := by
  rw [encode_eq_spell]
  cases style with
  | minimal =>
    rw [spell_minimal, length_flatMap_minimalWord, List.length_append, length_checksum, encodedLen]
    omega
  | standard | uri =>
    rw [length_spell_separated rfl (encoded_ne_nil data), List.length_append, length_checksum,
      encodedLen]

theorem decodedLenBound_encode (data : Bytes) (style : Style) :
    decodedLenBound (encode data style).length style = data.length := by
  rw [encode_eq_spell, decodedLenBound_spell (encoded_ne_nil data), List.length_append,
    length_checksum, Nat.add_sub_cancel]

/-- What was encoded is decoded, in any letter case. -/
theorem decodeToSlice_encode {style : Style} {text out data : Bytes}
    (htext : toLower text = encode data style) (hroom : data.length ≤ out.length) :
    decodeToSlice text style out = .ok (data.length, data ++ out.drop data.length) := by
  have hlen : (data ++ checksum data).length = data.length + 4 := by
    rw [List.length_append, length_checksum]
  rw [encode_eq_spell] at htext
  rw [decodeToSlice_of_spell (by omega) htext (by omega), hlen, Nat.add_sub_cancel, List.take_left,
    List.drop_left, if_neg (not_not.mpr rfl)]

theorem isLower_of_mem_encode {data : Bytes} {c : UInt8} (h : c ∈ encode data .minimal) :
    isLower c = true := by
  rw [encode_eq_spell, spell_minimal, List.mem_flatMap] at h
  obtain ⟨byte, -, hc⟩ := h
  exact @isLower_of_mem_wordOf .minimal byte c hc

theorem not_upper_of_mem_spell {style : Style} {bytes : Bytes} :
    ∀ c ∈ spell bytes style, isUpper c = false := by
  have hword (byte : UInt8) : ∀ c ∈ style.wordOf byte, isUpper c = false :=
    fun c hc => not_upper_of_isLower (isLower_of_mem_wordOf hc)
  cases hsep : style.separator with
  | none =>
    have hstyle : style = .minimal := by
      cases style with
      | minimal => rfl
      | standard | uri => cases hsep
    subst hstyle
    rw [spell_minimal]
    exact List.forall_mem_flatMap.mpr fun byte _ => hword byte
  | some sep =>
    rw [wordOf_separated hsep] at hword
    cases bytes with
    | nil => exact fun c hc => nomatch hc
    | cons byte bytes =>
      rw [spell_cons hsep]
      refine List.forall_mem_append.mpr ⟨hword byte, List.forall_mem_flatMap.mpr fun b _ => ?_⟩
      exact List.forall_mem_cons.mpr ⟨(separator_caseFree hsep).1, hword b⟩

/-- What is encoded is decoded back. -/
theorem decode_encode (data : Bytes) (style : Style) :
    decode (encode data style) style = .ok data := by
  have hlower : toLower (encode data style) = encode data style :=
    toLower_eq_self not_upper_of_mem_spell
  rw [decode, decodedLenBound_encode, decodeToSlice_encode hlower (List.length_replicate ..).ge,
    ok_bind]
  dsimp only
  rw [List.take_left]

/-- Bytewords decode exactly what they encode, in any letter case, and keep back
the last four bytes of whatever they are reading. -/
theorem decodes_encoded (style : Style) {text out : Bytes}
    (hroom : decodedLenBound text.length style ≤ out.length) :
    (∀ n buf, decodeToSlice text style out = .ok (n, buf) ↔
      ∃ data, toLower text = encode data style ∧ n = data.length ∧
        buf = data ++ out.drop data.length) ∧
    (∀ front back s, cut style text = front ++ back →
      front.foldlM (Delay.readWord style) (.start out) = .ok s →
        ∃ bytes : Bytes, front.map toLower = bytes.map style.wordOf ∧
          s.out = bytes.take (bytes.length - 4) ++ out.drop (bytes.length - 4)) ∧
    ∀ data, decode (encode data style) style = .ok data ∧
      (encode data style).length = encodedLen data.length style ∧
      decodedLenBound (encodedLen data.length style) style = data.length := by
  refine ⟨fun n buf => ⟨fun h => ?_, ?_⟩, fun front back s _ hrun => ?_, fun data => ⟨?_, ?_, ?_⟩⟩
  · obtain ⟨s, hwords, -⟩ := bind_eq_ok.mp h
    obtain ⟨bytes, hcut, hs⟩ := (Delay.start_holds out).of_run (decodeWords_eq_ok.mp hwords)
    rw [List.nil_append] at hs
    rw [decodeToSlice_of_holds hwords hs] at h
    split_ifs at h with h4 hsum
    cases h
    have hsplit := List.take_append_drop (bytes.length - 4) bytes
    refine ⟨bytes.take (bytes.length - 4), ?_, ?_, ?_⟩
    · have hne : bytes ≠ [] := List.ne_nil_of_length_pos (by omega)
      rw [(cut_eq_iff hne).mp hcut, encode_eq_spell, not_not.mp hsum, hsplit]
    · rw [List.length_take]
      omega
    · rw [List.length_take, Nat.min_eq_left (Nat.sub_le _ _)]
  · rintro ⟨data, htext, rfl, rfl⟩
    have hbound := decodedLenBound_encode data style
    rw [← htext, length_toLower] at hbound
    exact decodeToSlice_encode htext (by omega)
  · obtain ⟨bytes, hfront, hs⟩ := (Delay.start_holds out).of_run hrun
    exact ⟨bytes, hfront, hs.out⟩
  · exact decode_encode data style
  · exact length_encode data style
  · rw [← length_encode, decodedLenBound_encode]

theorem decodes_encoded_sample :
    decodeToSlice (encode [7] .uri) .uri [0] = .ok (1, [7]) :=
  ((decodes_encoded .uri (by rw [decodedLenBound_encode]; rfl)).1 1 [7]).mpr
    ⟨[7], toLower_eq_self not_upper_of_mem_spell, rfl, rfl⟩

theorem checksum_injective {data data' : Bytes} (h : checksum data = checksum data') :
    crc32 data = crc32 data' := by
  have hnat := congrArg beVal h
  rw [checksum, checksum, beVal_be_of_lt (crc32 data).toNat_lt,
    beVal_be_of_lt (crc32 data').toNat_lt] at hnat
  exact UInt32.toNat_inj.mp hnat

/-- Other bytes in the place of up to four consecutive ones change the checksum,
so the words of the one with the checksum of the other are not accepted. -/
theorem burst_detected {vs ws : Bytes} (hlen : vs.length = ws.length) (hle : vs.length ≤ 4)
    (hne : vs ≠ ws) (front back : Bytes) :
    crc32 (front ++ ws ++ back) ≠ crc32 (front ++ vs ++ back) ∧
      ∀ style text,
        toLower text = spell (front ++ ws ++ back ++ checksum (front ++ vs ++ back)) style →
          (∀ out, decodedLenBound text.length style ≤ out.length →
            decodeToSlice text style out = .error .badChecksum) ∧
          decode text style = .error .badChecksum := by
  have hcrc := Crc32.burst hlen hle hne front back
  refine ⟨hcrc.symm, fun style text htext => ?_⟩
  have hread (out : Bytes) (hroom : decodedLenBound text.length style ≤ out.length) :
      decodeToSlice text style out = .error .badChecksum := by
    have htotal : (front ++ ws ++ back ++ checksum (front ++ vs ++ back)).length =
        (front ++ ws ++ back).length + 4 := by rw [List.length_append, length_checksum]
    have hbound : decodedLenBound text.length style = (front ++ ws ++ back).length := by
      rw [← length_toLower, htext, decodedLenBound_spell (List.ne_nil_of_length_pos (by omega)),
        htotal, Nat.add_sub_cancel]
    rw [decodeToSlice_of_spell (by omega) htext (by omega), htotal, Nat.add_sub_cancel,
      List.take_left, List.drop_left, if_pos fun h => hcrc (checksum_injective h).symm]
  refine ⟨hread, ?_⟩
  rw [decode, hread _ (List.length_replicate ..).ge]
  rfl

theorem burst_detected_sample :
    decode (spell ([1, 9, 3] ++ checksum [1, 2, 3]) .uri) .uri = .error .badChecksum :=
  ((@burst_detected [2] [9] rfl (by decide) (by decide) [1] [3]).2 .uri _
    (toLower_eq_self not_upper_of_mem_spell)).2

end Outscript.Bcur.Bytewords
