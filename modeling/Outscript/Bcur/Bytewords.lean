import Outscript.Bcur.Crc32
import Outscript.Library.Ascii
import Outscript.Library.Fallible

/-!
# Bytewords

Every byte is a four-letter word, and the CRC-32 of the payload follows as
four more. The decoder holds bytes back in a delay line of four, so that the
checksum never reaches the output.
-/
namespace Outscript.Bcur

open ByteString Ascii Fallible

/-- Errors from UR and bytewords operations. -/
inductive Error where
  | invalidScheme
  | invalidType
  | invalidSequence
  | invalidWord
  | invalidLength
  | badChecksum
  | bufferTooSmall
  | invalidPart
  | multiPart
  | emptyMessage
  | invalidFragmentLen
  | tooLarge
  | inconsistentPart
  | typeMismatch
  | invalidCbor
  deriving DecidableEq, Repr

namespace Bytewords

/-- The 256 words, four letters each, in byte order. -/
def words : Bytes :=
  ["ableacidalsoapexaquaarchatomauntawayaxisbackbaldbarnbeltbetabias",
   "bluebodybragbrewbulbbuzzcalmcashcatschefcityclawcodecolacookcost",
   "cruxcurlcuspcyandarkdatadaysdelidicedietdoordowndrawdropdrumdull",
   "dutyeacheasyechoedgeepicevenexamexiteyesfactfairfernfigsfilmfish",
   "fizzflapflewfluxfoxyfreefrogfuelfundgalagamegeargemsgiftgirlglow",
   "goodgraygrimgurugushgyrohalfhanghardhawkheathelphighhillholyhope",
   "hornhutsicedideaidleinchinkyintoirisironitemjadejazzjoinjoltjowl",
   "judojugsjumpjunkjurykeepkenokeptkeyskickkilnkingkitekiwiknoblamb",
   "lavalazyleaflegsliarlimplionlistlogoloudloveluaulucklungmainmany",
   "mathmazememomenumeowmildmintmissmonknailnavyneednewsnextnoonnote",
   "numbobeyoboeomitonyxopenovalowlspaidpartpeckplaypluspoempoolpose",
   "puffpumapurrquadquizraceramprealredorichroadrockroofrubyruinruns",
   "rustsafesagascarsetssilkskewslotsoapsolosongstubsurfswantacotask",
   "taxitenttiedtimetinytoiltombtoystriptunatwinuglyundouniturgeuser",
   "vastveryvetovialvibeviewvisavoidvowswallwandwarmwaspwavewaxywebs",
   "whatwhenwhizwolfworkyankyawnyellyogayurtzapszerozestzinczonezoom"].flatMap ofString

/-- The word of a byte. -/
def word (byte : UInt8) : Bytes := (words.drop (4 * byte.toNat)).take 4

/-- Where the table of minimal words has the word of byte `i`. -/
def letterIndex (i : Nat) : Nat :=
  let first := (words.getD (4 * i) 0).toNat - 97
  let last := (words.getD (4 * i + 3) 0).toNat - 97
  first * 26 + last

/-- Byte value by first and last letter, or `-1` when no word has them. -/
def lookup : List Int :=
  (List.range 256).foldl (fun table i => table.set (letterIndex i) (i : Int))
    (List.replicate (26 * 26) (-1))

/-- How the words are written out. -/
inductive Style where
  | standard
  | uri
  | minimal
  deriving DecidableEq, Repr

def Style.separator : Style → Option UInt8
  | standard => some 32
  | uri => some 45
  | minimal => none

def encodedLen (n : Nat) : Style → Nat
  | .minimal => (n + 4) * 2
  | .standard | .uri => (n + 4) * 5 - 1

/-- An upper bound on the decoded length of `n` characters. -/
def decodedLenBound (n : Nat) : Style → Nat
  | .minimal => n / 2 - 4
  | .standard | .uri => (n + 4) / 5 - 4

/-- What the encoder writes for byte `i`. -/
def encodeWord (style : Style) (i : Nat) (byte : UInt8) : Bytes :=
  match style.separator with
  | none => [(word byte).getD 0 0, (word byte).getD 3 0]
  | some sep => (if 0 < i then [sep] else []) ++ word byte

def checksum (data : Bytes) : Bytes := be 4 (crc32 data).toNat

def encode (data : Bytes) (style : Style) : Bytes :=
  ((data ++ checksum data).mapIdx (encodeWord style)).flatten

def encodeToSlice (data : Bytes) (style : Style) (out : Bytes) : Except Error (Nat × Bytes) :=
  let len := encodedLen data.length style
  if out.length < len then .error .bufferTooSmall
  else .ok (len, encode data style ++ out.drop len)

def letter (c : UInt8) : Option Nat :=
  if isLower (lower c) then some ((lower c).toNat - 97) else none

/-- The byte with this table entry, where the middle letters of a whole word are right. -/
def checkWord (w : Bytes) (value : Int) : Option UInt8 :=
  if value < 0 ∨ 256 ≤ value then none
  else if w.length = 4 ∧
      eqIgnoreCase w.tail.dropLast ((words.drop (4 * value.toNat + 1)).take 2) = false then none
  else some (UInt8.ofNat value.toNat)

/-- The byte a word of four letters, or a minimal word of two, stands for. -/
def wordValue (w : Bytes) : Option UInt8 := do
  let first ← letter (← w.head?)
  let last ← letter (← w.getLast?)
  checkWord w (lookup.getD (first * 26 + last) (-1))

/-- The decoder: its delay line, the bytes seen, the checksum so far and the
output buffer. -/
structure Delay where
  delay : Bytes
  count : Nat
  crc : UInt32
  out : Bytes

def Delay.start (out : Bytes) : Delay := ⟨List.replicate 4 0, 0, Crc32.new, out⟩

def Delay.push (s : Delay) (byte : UInt8) : Except Error Delay :=
  if 4 ≤ s.count then
    let oldest := s.delay.getD (s.count % 4) 0
    if s.count - 4 < s.out.length then
      .ok { delay := s.delay.set (s.count % 4) byte
            count := s.count + 1
            crc := Crc32.update s.crc [oldest]
            out := s.out.set (s.count - 4) oldest }
    else .error .bufferTooSmall
  else
    .ok { s with delay := s.delay.set (s.count % 4) byte, count := s.count + 1 }

def Delay.pushWord (s : Delay) (w : Bytes) : Except Error Delay :=
  match wordValue w with
  | none => .error .invalidWord
  | some byte => s.push byte

/-- Chunks of two, the last one shorter when the length is odd. -/
def pairs : Bytes → List Bytes
  | [] => []
  | [a] => [[a]]
  | a :: b :: t => [a, b] :: pairs t

def decodeWords (text : Bytes) (style : Style) (s : Delay) : Except Error Delay :=
  match style.separator with
  | none =>
    if text.length % 2 ≠ 0 then .error .invalidLength else (pairs text).foldlM Delay.pushWord s
  | some sep =>
    (text.splitOn sep).foldlM
      (fun s w => if w.length ≠ 4 then .error .invalidWord else s.pushWord w) s

/-- Decodes into `out`, verifying and dropping the checksum; the number of bytes
written and the buffer. -/
def decodeToSlice (text : Bytes) (style : Style) (out : Bytes) : Except Error (Nat × Bytes) := do
  let s ← decodeWords text style (.start out)
  if s.count < 4 then .error .invalidLength
  -- The oldest of the four bytes held back comes first.
  else if be 4 (Crc32.finish s.crc).toNat ≠
      (List.range 4).map (fun i => s.delay.getD ((s.count + i) % 4) 0) then .error .badChecksum
  else .ok (s.count - 4, s.out)

def decode (text : Bytes) (style : Style) : Except Error Bytes := do
  let (n, buf) ← decodeToSlice text style (List.replicate (decodedLenBound text.length style) 0)
  .ok (buf.take n)

/-! ## The word list -/

/-- First and last letter of each word of a list, as indexes into the table. -/
def letterPairs : Bytes → List Nat
  | first :: _ :: _ :: last :: t => ((first.toNat - 97) * 26 + (last.toNat - 97)) :: letterPairs t
  | _ => []

/-- No number of the list is in the set `seen`, kept as bits, or comes twice. -/
def distinct : List Nat → Nat → Bool
  | [], _ => true
  | k :: l, seen => !seen.testBit k && distinct l (seen ||| 1 <<< k)

theorem nodup_of_distinct {l : List Nat} {seen : Nat} (h : distinct l seen = true) :
    l.Nodup ∧ ∀ k ∈ l, seen.testBit k = false := by
  induction l generalizing seen with
  | nil => simp
  | cons k l ih =>
    simp only [distinct, Bool.and_eq_true, Bool.not_eq_true'] at h
    obtain ⟨hnodup, hfree⟩ := ih h.2
    have hbit : ∀ j ∈ l, seen.testBit j = false ∧ k ≠ j := by
      intro j hj
      have hj' := hfree j hj
      rw [Nat.testBit_or, Bool.or_eq_false_iff] at hj'
      refine ⟨hj'.1, ?_⟩
      rintro rfl
      simp [Nat.one_shiftLeft, Nat.testBit_two_pow_self] at hj'
    refine ⟨List.nodup_cons.mpr ⟨fun hk => (hbit k hk).2 rfl, hnodup⟩, ?_⟩
    rw [List.forall_mem_cons]
    exact ⟨h.1, fun j hj => (hbit j hj).1⟩

/-- The words are in lowercase, and their first and last letters tell them apart. -/
theorem words_checked :
    words.length = 1024 ∧ words.all isLower = true ∧ distinct (letterPairs words) 0 = true := by
  decide +kernel

theorem length_words : words.length = 1024 := words_checked.1

theorem isLower_of_mem_words : ∀ c ∈ words, isLower c = true :=
  List.all_eq_true.mp words_checked.2.1

theorem nodup_letterPairs : (letterPairs words).Nodup := (nodup_of_distinct words_checked.2.2).1

theorem letterPairs_getElem? (l : Bytes) (i : Nat) (h : 4 * i + 3 < l.length) :
    (letterPairs l)[i]? =
      some (((l.getD (4 * i) 0).toNat - 97) * 26 + ((l.getD (4 * i + 3) 0).toNat - 97)) := by
  induction l using letterPairs.induct generalizing i with
  | case1 first b c last t ih =>
    cases i with
    | zero => simp [letterPairs]
    | succ i =>
      simp only [List.length_cons] at h
      have hrec := ih i (by omega)
      simpa [letterPairs, Nat.mul_add] using hrec
  | case2 l hl =>
    match l, hl, h with
    | a :: b :: c :: d :: t, hl, _ => exact absurd rfl (hl a b c d t)

theorem letterIndex_inj {i j : Nat} (hi : i < 256) (hj : j < 256)
    (h : letterIndex i = letterIndex j) : i = j := by
  have hlen := length_words
  have hi' : (letterPairs words)[i]? = some (letterIndex i) :=
    letterPairs_getElem? words i (by omega)
  have hj' : (letterPairs words)[j]? = some (letterIndex j) :=
    letterPairs_getElem? words j (by omega)
  obtain ⟨hbound, -⟩ := List.getElem?_eq_some_iff.mp hi'
  exact (List.getElem?_inj hbound nodup_letterPairs).mp (by rw [hi', hj', h])

theorem isLower_words {k : Nat} (h : k < 1024) : isLower (words.getD k 0) = true := by
  have hk : k < words.length := by rw [length_words]; exact h
  rw [List.getD_eq_getElem?_getD, List.getElem?_eq_getElem hk]
  exact isLower_of_mem_words _ (List.getElem_mem hk)

theorem isLower_iff {c : UInt8} : isLower c = true ↔ 97 ≤ c.toNat ∧ c.toNat ≤ 122 := by
  simp [isLower, UInt8.le_iff_toNat_le]

theorem letterIndex_lt {i : Nat} (h : i < 256) : letterIndex i < 26 * 26 := by
  have hfirst := isLower_iff.mp (isLower_words (show 4 * i < 1024 by omega))
  have hlast := isLower_iff.mp (isLower_words (show 4 * i + 3 < 1024 by omega))
  simp only [letterIndex]
  omega

/-- Every word is found in the table under its letters. -/
theorem lookup_letterIndex {i : Nat} (h : i < 256) : lookup.getD (letterIndex i) (-1) = i := by
  have hfold : ∀ n ≤ 256, ∃ table : List Int,
      (List.range n).foldl (fun table i => table.set (letterIndex i) (i : Int))
        (List.replicate (26 * 26) (-1)) = table ∧
      table.length = 26 * 26 ∧ ∀ i < n, table.getD (letterIndex i) (-1) = i := by
    intro n hn
    induction n with
    | zero => exact ⟨_, rfl, List.length_replicate, fun i hi => absurd hi (by omega)⟩
    | succ n ih =>
      obtain ⟨table, heq, hlen, hget⟩ := ih (by omega)
      refine ⟨table.set (letterIndex n) n, ?_, by simpa using hlen, ?_⟩
      · rw [List.range_succ, List.foldl_append, heq, List.foldl_cons, List.foldl_nil]
      · intro i hi
        by_cases hin : i = n
        · have hlt := letterIndex_lt (show n < 256 by omega)
          rw [hin, List.getD_eq_getElem?_getD, List.getElem?_set_self (by omega)]
          rfl
        · have hne : letterIndex n ≠ letterIndex i :=
            fun e => hin (letterIndex_inj (by omega) (by omega) e).symm
          rw [List.getD_eq_getElem?_getD, List.getElem?_set_ne hne, ← List.getD_eq_getElem?_getD]
          exact hget i (by omega)
  obtain ⟨table, heq, -, hget⟩ := hfold 256 (by omega)
  rw [lookup, heq]
  exact hget i h

/-- The minimal word of a byte. -/
def minimalWord (byte : UInt8) : Bytes := [(word byte).getD 0 0, (word byte).getD 3 0]

theorem word_getD {byte : UInt8} {k : Nat} (h : k < 4) :
    (word byte).getD k 0 = words.getD (4 * byte.toNat + k) 0 := by
  simp [word, List.getElem?_take_of_lt h]

theorem letter_of_isLower {c : UInt8} (h : isLower c = true) : letter c = some (c.toNat - 97) := by
  have hall := forall_byte (p := fun c => isLower c = true → letter c = some (c.toNat - 97))
    (by decide +kernel)
  exact hall c h

theorem letter_lower (c : UInt8) : letter (lower c) = letter c := by simp [letter]

theorem wordValue_eq (w : Bytes) :
    wordValue w =
      ((w.head?.bind letter).bind fun first => (w.getLast?.bind letter).bind fun last =>
        checkWord w (lookup.getD (first * 26 + last) (-1))) := by
  rw [wordValue]
  cases w.head? with
  | none => rfl
  | some first =>
    cases w.getLast? with
    | none => rfl
    | some last => rfl

theorem checkWord_pair (a b : UInt8) {n : Nat} (h : n < 256) :
    checkWord [a, b] n = some (UInt8.ofNat n) := by
  rw [checkWord, if_neg (by omega), if_neg (fun h => absurd h.1 (by decide : ¬ 2 = 4))]
  rfl

theorem wordValue_pair {a b : UInt8} {i j n : Nat} (ha : letter a = some i)
    (hb : letter b = some j) (hn : lookup.getD (i * 26 + j) (-1) = n) (h : n < 256) :
    wordValue [a, b] = some (UInt8.ofNat n) := by
  have hfirst : [a, b].head?.bind letter = some i := ha
  have hlast : [a, b].getLast?.bind letter = some j := hb
  rw [wordValue_eq, hfirst, hlast, Option.bind_some, Option.bind_some, hn, checkWord_pair a b h]

theorem wordValue_minimalWord (byte : UInt8) : wordValue (minimalWord byte) = some byte := by
  have hbyte := byte.toNat_lt
  have hfirst := letter_of_isLower (isLower_words (show 4 * byte.toNat < 1024 by omega))
  have hlast := letter_of_isLower (isLower_words (show 4 * byte.toNat + 3 < 1024 by omega))
  have hpair := wordValue_pair hfirst hlast (lookup_letterIndex hbyte) hbyte
  rw [minimalWord, word_getD (by omega), word_getD (by omega), Nat.add_zero, hpair,
    UInt8.ofNat_toNat]

/-- Words are read whatever their case. -/
theorem wordValue_toLower (w : Bytes) : wordValue (toLower w) = wordValue w := by
  have hmiddle : (toLower w).tail.dropLast = toLower w.tail.dropLast := by
    simp [toLower, List.map_dropLast]
  have hcheck : ∀ value, checkWord (toLower w) value = checkWord w value := by
    intro value
    simp only [checkWord, hmiddle, length_toLower, eqIgnoreCase_toLower_left]
  have hhead : (toLower w).head?.bind letter = w.head?.bind letter := by
    cases w <;> simp [toLower, letter_lower]
  have hlast : (toLower w).getLast?.bind letter = w.getLast?.bind letter := by
    simp only [toLower, List.getLast?_map]
    cases w.getLast? <;> simp [letter_lower]
  rw [wordValue_eq, wordValue_eq, hhead, hlast]
  simp only [hcheck]

theorem pairs_toLower (t : Bytes) : pairs (toLower t) = (pairs t).map toLower := by
  induction t using pairs.induct with
  | case1 => rfl
  | case2 a => rfl
  | case3 a b t ih =>
    have hcons : toLower (a :: b :: t) = lower a :: lower b :: toLower t := rfl
    rw [hcons, pairs, ih, pairs]
    rfl

/-- Minimal bytewords are decoded whatever their case. -/
theorem decode_toLower (t : Bytes) : decode (toLower t) .minimal = decode t .minimal := by
  have hpush : ∀ (l : List Bytes) (s : Delay),
      (l.map toLower).foldlM Delay.pushWord s = l.foldlM Delay.pushWord s := by
    intro l
    induction l with
    | nil => intro s; rfl
    | cons w l ih =>
      intro s
      simp only [List.map_cons, List.foldlM_cons, Delay.pushWord, wordValue_toLower, ih]
  have hwords : ∀ s, decodeWords (toLower t) .minimal s = decodeWords t .minimal s := by
    intro s
    simp only [decodeWords, Style.separator, length_toLower, pairs_toLower, hpush]
  simp only [decode, decodeToSlice, hwords, length_toLower]

/-! ## The delay line -/

/-- A decoder that has seen `bytes` holds the last four back. -/
structure Delay.Holds (s : Delay) (bytes out : Bytes) : Prop where
  count : s.count = bytes.length
  crc : s.crc = Crc32.update Crc32.new (bytes.take (bytes.length - 4))
  out : s.out = bytes.take (bytes.length - 4) ++ out.drop (bytes.length - 4)
  length_delay : s.delay.length = 4
  delay : ∀ i < bytes.length, bytes.length ≤ i + 4 → s.delay[i % 4]? = bytes[i]?

theorem Delay.start_holds (out : Bytes) : (Delay.start out).Holds [] out where
  count := rfl
  crc := rfl
  out := rfl
  length_delay := rfl
  delay := by simp

theorem Delay.Holds.push {s : Delay} {bytes out : Bytes} (h : s.Holds bytes out) (byte : UInt8)
    (hroom : bytes.length + 1 ≤ out.length + 4) :
    ∃ s', s.push byte = .ok s' ∧ s'.Holds (bytes ++ [byte]) out := by
  have hlen := h.length_delay
  have hdelay : ∀ i < bytes.length + 1, bytes.length + 1 ≤ i + 4 →
      (s.delay.set (bytes.length % 4) byte)[i % 4]? = (bytes ++ [byte])[i]? := by
    intro i hi hle
    by_cases hin : i = bytes.length
    · rw [hin, List.getElem?_set_self (by omega)]
      simp
    · rw [List.getElem?_set_ne (by omega), List.getElem?_append_left (by omega)]
      exact h.delay i (by omega) (by omega)
  by_cases h4 : 4 ≤ bytes.length
  · have hget : s.delay[(bytes.length - 4) % 4]? = bytes[bytes.length - 4]? :=
      h.delay (bytes.length - 4) (by omega) (by omega)
    have hmod : (bytes.length - 4) % 4 = bytes.length % 4 := by omega
    have hold : s.delay.getD (bytes.length % 4) 0 = bytes[bytes.length - 4] := by
      rw [List.getD_eq_getElem?_getD, ← hmod, hget, List.getElem?_eq_getElem (by omega)]
      rfl
    have htake : bytes.take (bytes.length + 1 - 4) =
        bytes.take (bytes.length - 4) ++ [bytes[bytes.length - 4]] := by
      rw [show bytes.length + 1 - 4 = bytes.length - 4 + 1 by omega, List.take_succ_eq_append_getElem]
    have hout : s.count - 4 < s.out.length := by
      rw [h.count, h.out, List.length_append, List.length_take, List.length_drop]
      omega
    have hpush : s.push byte = .ok
        { delay := s.delay.set (s.count % 4) byte
          count := s.count + 1
          crc := Crc32.update s.crc [s.delay.getD (s.count % 4) 0]
          out := s.out.set (s.count - 4) (s.delay.getD (s.count % 4) 0) } := by
      rw [Delay.push, if_pos (by rw [h.count]; exact h4)]
      exact if_pos hout
    refine ⟨_, hpush, ?_⟩
    · constructor
      · simp [h.count]
      · rw [List.length_append, List.length_singleton, List.take_append_of_le_length (by omega),
          htake, Crc32.update_append, ← h.crc, h.count, hold]
      · rw [List.length_append, List.length_singleton, List.take_append_of_le_length (by omega),
          htake, h.count, hold, h.out]
        have hset : (bytes.take (bytes.length - 4)).length = bytes.length - 4 := by simp
        rw [List.set_append_right _ _ (by omega), hset, Nat.sub_self]
        have hdrop : out.drop (bytes.length - 4) =
            out[bytes.length - 4] :: out.drop (bytes.length + 1 - 4) := by
          rw [List.drop_eq_getElem_cons (by omega)]
          congr 2
          omega
        rw [hdrop, List.set_cons_zero, List.append_assoc]
        rfl
      · simpa using hlen
      · simpa [h.count] using hdelay
  · refine ⟨_, if_neg (by rw [h.count]; exact h4), ?_⟩
    · have hzero : bytes.length - 4 = 0 := by omega
      have hzero' : bytes.length + 1 - 4 = 0 := by omega
      have hcrc := h.crc
      have hout := h.out
      rw [hzero] at hcrc hout
      constructor
      · simp [h.count]
      · simpa [hzero'] using hcrc
      · simpa [hzero'] using hout
      · simpa using hlen
      · simpa [h.count] using hdelay

end Bytewords

end Outscript.Bcur
