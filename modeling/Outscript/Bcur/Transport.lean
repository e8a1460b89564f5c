import Outscript.Bcur.Reduce

/-!
# Transport of a message

A decoder fed with parts of one encoder, whichever arrive and however often,
never fails, only knows fragments of the message, and ends with the message.
-/
namespace Outscript.Bcur

open ByteString Ascii Fallible XorSum Worklist

/-- What the decoder relies on: a draw is a non-empty ascending list of fragments. -/
def PseudoRandom.Draws (random : PseudoRandom) : Prop :=
  ∀ seqNum seqLen checksum, 0 < seqLen → seqLen < seqNum →
    random seqNum seqLen checksum ≠ [] ∧
      (random seqNum seqLen checksum).Pairwise (· < ·) ∧
      ∀ i ∈ random seqNum seqLen checksum, i < seqLen

theorem chooseFragments_draws {random : PseudoRandom} (h : random.Draws) {seqNum seqLen : Nat}
    (checksum : Nat) (hnum : 0 < seqNum) (hlen : 0 < seqLen) :
    (chooseFragments random seqNum seqLen checksum).Pairwise (· < ·) ∧
      ∀ i ∈ chooseFragments random seqNum seqLen checksum, i < seqLen := by
  rw [chooseFragments]
  split_ifs with hle
  · refine ⟨List.pairwise_singleton _ _, fun i hi => ?_⟩
    rw [List.mem_singleton.mp hi]
    omega
  · exact (h seqNum seqLen checksum hlen (by omega)).2

/-! ## The parts of an encoder -/

theorem divCeil_mul_ge {a b : Nat} (hb : 0 < b) : a ≤ divCeil a b * b := by
  have hdiv := Nat.div_add_mod (a + (b - 1)) b
  have hmod := Nat.mod_lt (a + (b - 1)) hb
  have hcomm : divCeil a b * b = b * ((a + (b - 1)) / b) := Nat.mul_comm _ _
  omega

theorem divCeil_pos {a b : Nat} (ha : 0 < a) (hb : 0 < b) : 0 < divCeil a b :=
  Nat.div_pos (by omega) hb

theorem divCeil_le {a b : Nat} (hb : 0 < b) : divCeil a b ≤ a := by
  rw [divCeil, Nat.div_le_iff_le_mul_add_pred hb]
  have := Nat.le_mul_of_pos_left a hb
  omega

namespace Encoder

/-- An encoder of a message of a type. -/
structure Encodes (e : Encoder) (urType cbor : Bytes) : Prop where
  valid : validateType urType false = .ok ()
  type : e.urType = urType
  nonempty : 0 < cbor.length
  bounded : cbor.length < 2 ^ 32
  messageLen : e.messageLen = cbor.length
  checksum : e.checksum = (crc32 cbor).toNat
  fragmentLen : 0 < e.fragmentLen
  fragmentLen_le : e.fragmentLen ≤ cbor.length
  seqLen : divCeil cbor.length e.fragmentLen = e.seqLen
  message : e.message = cbor ++ List.replicate (e.seqLen * e.fragmentLen - cbor.length) 0
  seqNum : e.seqNum < 2 ^ 32

theorem new_encodes {urType cbor : Bytes} {maxFragmentLen : Nat}
    (hvalid : validateType urType false = .ok ()) (hne : cbor ≠ []) (hlt : cbor.length < 2 ^ 32)
    (hmax : 0 < maxFragmentLen) :
    ∃ e, Encoder.new urType cbor maxFragmentLen = .ok e ∧ e.Encodes urType cbor ∧ e.seqNum = 0 := by
  have hpos : 0 < cbor.length := List.length_pos_iff.mpr hne
  have hempty : ¬ cbor.isEmpty = true := by simpa using hne
  have hnew : Encoder.new urType cbor maxFragmentLen = .ok
      (let fragmentLen := divCeil cbor.length (divCeil cbor.length maxFragmentLen)
       let seqLen := divCeil cbor.length fragmentLen
       ⟨urType, cbor ++ List.replicate (seqLen * fragmentLen - cbor.length) 0, cbor.length,
        fragmentLen, seqLen, 0, (crc32 cbor).toNat⟩) := by
    rw [Encoder.new, hvalid, ok_bind, if_neg hempty, if_neg (by omega), if_neg (by omega)]
  have hcount : 0 < divCeil cbor.length maxFragmentLen := divCeil_pos hpos hmax
  refine ⟨_, hnew, ?_, rfl⟩
  exact
    { valid := hvalid
      type := rfl
      nonempty := hpos
      bounded := hlt
      messageLen := rfl
      checksum := rfl
      fragmentLen := divCeil_pos hpos hcount
      fragmentLen_le := divCeil_le hcount
      seqLen := rfl
      message := rfl
      seqNum := by show 0 < 2 ^ 32; omega }

namespace Encodes

variable {e : Encoder} {urType cbor : Bytes} (h : e.Encodes urType cbor)

include h

theorem seqLen_pos : 0 < e.seqLen := by
  rw [← h.seqLen]
  exact divCeil_pos h.nonempty h.fragmentLen

theorem seqLen_lt : e.seqLen < 2 ^ 32 := by
  have hle := divCeil_le (a := cbor.length) h.fragmentLen
  have hlt := h.bounded
  rw [h.seqLen] at hle
  omega

theorem length_le : cbor.length ≤ e.seqLen * e.fragmentLen := by
  rw [← h.seqLen]
  exact divCeil_mul_ge h.fragmentLen

theorem length_message : e.message.length = e.seqLen * e.fragmentLen := by
  have hle := h.length_le
  rw [h.message, List.length_append, List.length_replicate]
  omega

theorem length_fragment {k : Nat} (hk : k < e.seqLen) : (e.fragment k).length = e.fragmentLen := by
  have hle := Nat.mul_le_mul_right e.fragmentLen hk
  rw [Nat.succ_mul] at hle
  have hlen := h.length_message
  rw [fragment, List.length_take, List.length_drop]
  omega

theorem mixInto_eq {indexes : List Nat} (hbound : ∀ i ∈ indexes, i < e.seqLen) (data : Bytes) :
    e.mixInto data indexes = .ok (mix e.fragment data indexes) := by
  induction indexes generalizing data with
  | nil => rfl
  | cons i indexes ih =>
    rw [List.forall_mem_cons] at hbound
    have hle := Nat.mul_le_mul_right e.fragmentLen hbound.1
    rw [Nat.succ_mul] at hle
    have hslice : slice e.message (i * e.fragmentLen) e.fragmentLen = .ok (e.fragment i) :=
      if_pos (by rw [h.length_message]; exact hle)
    rw [mixInto, hslice, ok_bind, ih hbound.2, mix_cons]

end Encodes

/-- The data of part `n`. -/
def partData (random : PseudoRandom) (e : Encoder) (n : Nat) : Bytes :=
  mix e.fragment (List.replicate e.fragmentLen 0) (chooseFragments random n e.seqLen e.checksum)

/-- The string of part `n`. -/
def partText (random : PseudoRandom) (e : Encoder) (n : Nat) : Bytes :=
  if e.isSinglePart then
    ofString "ur:" ++ e.urType ++ ofString "/" ++
      Bytewords.encode (e.message.take e.messageLen) .minimal
  else
    ofString "ur:" ++ e.urType ++ ofString "/" ++ decimal n ++ ofString "-" ++ decimal e.seqLen ++
      ofString "/" ++ Bytewords.encode
        (partCbor n e.seqLen e.messageLen e.checksum (e.partData random n)) .minimal

/-- The number of the part after the last one. -/
def nextNum (e : Encoder) : Nat := if e.seqNum + 1 < 2 ^ 32 then e.seqNum + 1 else 1

theorem nextPart_ok {random : PseudoRandom} (hrandom : random.Draws) {e : Encoder}
    {urType cbor : Bytes} (h : e.Encodes urType cbor) :
    ∃ e', e.nextPart random = .ok (e.partText random e.nextNum, e') ∧ e'.Encodes urType cbor ∧
      e'.seqNum = e.nextNum ∧ e' = { e with seqNum := e.nextNum } := by
  have hpos : 0 < e.nextNum := by
    rw [nextNum]
    split_ifs <;> omega
  have hlt : e.nextNum < 2 ^ 32 := by
    rw [nextNum]
    split_ifs <;> omega
  set e' : Encoder := { e with seqNum := e.nextNum } with he'
  have h' : e'.Encodes urType cbor := { h with seqNum := hlt }
  refine ⟨e', ?_, h', rfl, rfl⟩
  by_cases hsingle : e'.isSinglePart = true
  · have hnext : e.nextPart random = .ok (ofString "ur:" ++ e'.urType ++ ofString "/" ++
        Bytewords.encode (e'.message.take e'.messageLen) .minimal, e') := if_pos hsingle
    have htext : e.partText random e.nextNum = ofString "ur:" ++ e'.urType ++ ofString "/" ++
        Bytewords.encode (e'.message.take e'.messageLen) .minimal := if_pos hsingle
    rw [hnext, htext]
  · have hdata := h'.mixInto_eq
      (chooseFragments_draws hrandom e'.checksum hpos h.seqLen_pos).2 (List.replicate e'.fragmentLen 0)
    have hnext : e.nextPart random = (e'.mixInto (List.replicate e'.fragmentLen 0)
        (chooseFragments random e.nextNum e'.seqLen e'.checksum) >>= fun data =>
          .ok (ofString "ur:" ++ e'.urType ++ ofString "/" ++ decimal e.nextNum ++ ofString "-" ++
            decimal e'.seqLen ++ ofString "/" ++ Bytewords.encode
              (partCbor e.nextNum e'.seqLen e'.messageLen e'.checksum data) .minimal, e')) :=
      if_neg hsingle
    have htext : e.partText random e.nextNum = ofString "ur:" ++ e'.urType ++ ofString "/" ++
        decimal e.nextNum ++ ofString "-" ++ decimal e'.seqLen ++ ofString "/" ++ Bytewords.encode
          (partCbor e.nextNum e'.seqLen e'.messageLen e'.checksum
            (e'.partData random e.nextNum)) .minimal := if_neg hsingle
    rw [hnext, htext, hdata, ok_bind]
    rfl

/-- The next parts, numbered on from the last one. -/
theorem take_ok {random : PseudoRandom} (hrandom : random.Draws) {urType cbor : Bytes} (n : Nat)
    {e : Encoder} (h : e.Encodes urType cbor) :
    ∃ parts, e.take random n = .ok parts ∧ parts.length = n ∧
      (∀ p ∈ parts, ∃ k, 0 < k ∧ k < 2 ^ 32 ∧ p = e.partText random k) ∧
      ∀ i < n, e.seqNum + i + 1 < 2 ^ 32 → parts[i]? = some (e.partText random (e.seqNum + i + 1)) := by
  induction n generalizing e with
  | zero => exact ⟨[], rfl, rfl, by simp, by simp⟩
  | succ n ih =>
    obtain ⟨e', hnext, h', hnum, he'⟩ := nextPart_ok hrandom h
    obtain ⟨parts, htake, hlen, hparts, hget⟩ := ih h'
    have htext : ∀ k, e'.partText random k = e.partText random k := by
      intro k
      rw [he']
      rfl
    refine ⟨e.partText random e.nextNum :: parts, ?_, by simp [hlen], ?_, ?_⟩
    · rw [take, hnext, ok_bind]
      simp only [htake, ok_bind]
    · rw [List.forall_mem_cons]
      refine ⟨⟨e.nextNum, ?_, ?_, rfl⟩, ?_⟩
      · rw [nextNum]
        split_ifs <;> omega
      · rw [← hnum]
        exact h'.seqNum
      · intro p hp
        obtain ⟨k, hk, hk', rfl⟩ := hparts p hp
        exact ⟨k, hk, hk', htext k⟩
    · intro i hi hlt
      have hnextNum : e.nextNum = e.seqNum + 1 := if_pos (by omega)
      cases i with
      | zero => rw [List.getElem?_cons_zero, hnextNum]
      | succ i =>
        have hrec := hget i (by omega) (by omega)
        rw [htext, hnum, hnextNum] at hrec
        rw [List.getElem?_cons_succ, hrec]
        congr 2
        omega

end Encoder

/-! ## The decoder at the other end -/

/-- What the parts of an encoder agree on. -/
def Encoder.shape (e : Encoder) : Shape := ⟨e.seqLen, e.messageLen, e.checksum, e.fragmentLen⟩

namespace Decoder

/-- A decoder that has taken parts in. -/
structure Collecting (d : Decoder) (e : Encoder) : Prop where
  complete : d.complete = false
  shape : d.shape = some e.shape
  urType : d.urType = some e.urType
  count : d.known.length = e.seqLen
  ready : d.Ready
  sound : d.Sound e.fragment []

/-- A decoder that has the message. -/
structure Done (d : Decoder) (e : Encoder) (cbor : Bytes) : Prop where
  complete : d.complete = true
  message : d.message = cbor
  known : ∀ k < e.seqLen, d.isKnown k = true

/-- The states that parts of an encoder lead to. -/
structure Tracks (d : Decoder) (e : Encoder) (cbor : Bytes) : Prop where
  maxMessageLen : cbor.length ≤ d.maxMessageLen
  maxFragments : e.seqLen ≤ d.maxFragments
  state : d = d.reset ∨
    (e.isSinglePart = false ∧ d.Collecting e ∧ d.knownCount < d.known.length) ∨ d.Done e cbor

theorem Collecting.fragmentLen {d : Decoder} {e : Encoder} (h : d.Collecting e) :
    d.fragmentLen = e.fragmentLen := by
  rw [Decoder.fragmentLen, h.shape]
  rfl

theorem isKnown_of_count {d : Decoder} (h : d.Ready) :
    d.knownCount = d.known.length ↔ ∀ k < d.known.length, d.isKnown k = true := by
  rw [h.count, List.count_eq_length]
  constructor
  · intro hall k hk
    have := hall d.known[k] (List.getElem_mem hk)
    simp [isKnown, List.getElem?_eq_getElem hk, ← this]
  · intro hall b hb
    obtain ⟨k, hk, rfl⟩ := List.getElem_of_mem hb
    have := isKnown_eq hk
    rw [hall k hk, List.getElem?_eq_getElem hk] at this
    exact (Option.some.inj this).symm

theorem knownCount_le {d : Decoder} (h : d.Ready) : d.knownCount ≤ d.known.length := by
  rw [h.count]
  exact List.count_le_length

/-- Byte strings of the same blocks are the same. -/
theorem eq_of_blocks {a b : Bytes} {count len : Nat} (ha : a.length = count * len)
    (hb : b.length = count * len)
    (h : ∀ k < count, (a.drop (k * len)).take len = (b.drop (k * len)).take len) : a = b := by
  refine List.ext_getElem? fun j => ?_
  by_cases hj : j < count * len
  · have hlen : 0 < len := Nat.pos_of_ne_zero (by rintro rfl; simp at hj)
    have hmod := Nat.mod_lt j hlen
    have hdiv : j / len < count := (Nat.div_lt_iff_lt_mul hlen).mpr hj
    have hsplit : j / len * len + j % len = j := by rw [Nat.mul_comm]; exact Nat.div_add_mod j len
    have hblock := congrArg (fun l : Bytes => l[j % len]?) (h (j / len) hdiv)
    simpa only [List.getElem?_take_of_lt hmod, List.getElem?_drop, hsplit] using hblock
  · rw [List.getElem?_eq_none (by omega), List.getElem?_eq_none (by omega)]

/-- When every fragment is known the message is the one that was sent. -/
theorem Collecting.finish {d : Decoder} {e : Encoder} {urType cbor : Bytes} (h : d.Collecting e)
    (he : e.Encodes urType cbor) (hall : d.knownCount = d.known.length) :
    d.finish = .ok (.ok (), { d with message := cbor, mixed := [], complete := true }) := by
  have hknown := (isKnown_of_count h.ready).mp hall
  have hmessage : d.message = e.message := by
    have hd : d.message.length = e.seqLen * e.fragmentLen := by
      rw [h.ready.message, h.count, h.fragmentLen]
    refine eq_of_blocks hd he.length_message fun k hk => ?_
    have hfrag := h.sound.known k (hknown k (by rw [h.count]; exact hk))
    rw [Decoder.fragment, h.fragmentLen] at hfrag
    exact hfrag
  have hlen := he.length_le
  have htake : d.message.take e.messageLen = cbor := by
    rw [hmessage, he.message, he.messageLen, List.take_left]
  have hzero : (d.message.drop e.messageLen).all (fun b => b == 0) = true := by
    rw [hmessage, he.message, he.messageLen, List.drop_left, List.all_replicate]
    simp
  have hroom : ¬ d.message.length < e.messageLen := by
    rw [hmessage, he.length_message, he.messageLen]
    omega
  have hcheck : ¬ ((d.message.drop e.messageLen).all (fun b => b == 0) = false ∨
      (crc32 (d.message.take e.messageLen)).toNat ≠ e.checksum) := by
    rw [hzero, htake, he.checksum]
    simp
  rw [Decoder.finish, h.shape]
  change (if d.message.length < e.messageLen then _ else _) = _
  rw [if_neg hroom]
  refine (if_neg hcheck).trans ?_
  have hlength : e.shape.messageLen = e.messageLen := rfl
  rw [hlength, htake]

/-- The first part of a message makes room for it. -/
theorem start_collecting {d : Decoder} {e : Encoder} {urType cbor : Bytes}
    (he : e.Encodes urType cbor) (hfresh : d = d.reset) (hlen : cbor.length ≤ d.maxMessageLen)
    (hcount : e.seqLen ≤ d.maxFragments) :
    ∃ d₁, d.start e.shape = .ok d₁ ∧ d₁.maxMessageLen = d.maxMessageLen ∧
      d₁.maxFragments = d.maxFragments ∧
      Collecting { d₁ with urType := d₁.urType.or (some (toLower e.urType)) } e := by
  have hpos := he.nonempty
  have hfl := he.fragmentLen
  have hzero : ¬ (e.shape.messageLen = 0 ∨ e.shape.fragmentLen = 0) := by
    have := he.messageLen
    simp only [Encoder.shape]
    omega
  have hceil : ¬ divCeil e.shape.messageLen e.shape.fragmentLen ≠ e.shape.seqLen := by
    simp only [Encoder.shape, he.messageLen, he.seqLen, ne_eq, not_true, not_false_iff]
  have hlimit : ¬ (d.maxMessageLen < e.shape.messageLen ∨ d.maxFragments < e.shape.seqLen) := by
    simp only [Encoder.shape, he.messageLen]
    omega
  refine ⟨_, (if_neg hzero).trans ((if_neg hceil).trans (if_neg hlimit)), rfl, rfl, ?_⟩
  have hnone : ∀ k, (List.replicate e.seqLen false).getD k false = false := by
    intro k
    by_cases hk : k < e.seqLen
    · simp [hk]
    · simp [hk]
  rw [hfresh]
  constructor
  · rfl
  · rfl
  · have htype := (of_validateType he.valid).2
    rw [← he.type] at htype
    change some (toLower e.urType) = some e.urType
    rw [htype]
  · exact List.length_replicate
  · refine ⟨?_, ?_, ?_, ?_⟩
    · change (List.replicate (e.seqLen * e.fragmentLen) (0 : UInt8)).length =
        (List.replicate e.seqLen false).length * e.fragmentLen
      simp
    · change 0 = (List.replicate e.seqLen false).count true
      simp [List.count_replicate]
    · exact fun m hm => absurd hm (by simp [reset, withLimits])
    · exact Nat.zero_le _
  · refine ⟨?_, ?_, ?_, ?_⟩
    · intro k hk
      have hlt : k < (List.replicate e.seqLen false).length := hk
      rw [List.length_replicate] at hlt
      exact he.length_fragment hlt
    · intro k hk
      have : (List.replicate e.seqLen false).getD k false = true := hk
      rw [hnone] at this
      cases this
    · exact fun m hm => absurd hm (by simp [reset, withLimits])
    · exact fun m hm => absurd hm (by simp)

theorem partText_single {random : PseudoRandom} {e : Encoder} {urType cbor : Bytes}
    (he : e.Encodes urType cbor) (hsingle : e.isSinglePart = true) (n : Nat) :
    e.partText random n =
      ofString "ur:" ++ e.urType ++ ofString "/" ++ Bytewords.encode cbor .minimal := by
  have htake : e.message.take e.messageLen = cbor := by
    rw [he.message, he.messageLen, List.take_left]
  rw [Encoder.partText, if_pos hsingle, htake]

/-- The text of a decoder's own type is split and decoded. -/
theorem decodeText_ok {d : Decoder} {text body : Bytes} {ur : Ur} (hparse : Ur.parse text = .ok ur)
    (hbody : ur.decode = .ok body) (htype : d.urType = none ∨ d.urType = some ur.urType) :
    d.decodeText text = .ok (ur, body) := by
  rw [decodeText, hparse, ok_bind]
  rcases htype with htype | htype <;> rw [htype]
  · simp only [hbody, ok_bind]
  · simp only [eqIgnoreCase_self, hbody, ok_bind, Bool.true_eq_false, if_false]

/-- A part that was admitted, reduced and maybe completes the message. -/
theorem receive_admitted {random : PseudoRandom} {d d₁ : Decoder} {text body : Bytes} {ur : Ur}
    {sequence : Nat × Nat} {part : Mixed} (hopen : d.complete = false)
    (hdecode : d.decodeText text = .ok (ur, body)) (hseq : ur.sequence = some sequence)
    (hadmitted : d.admitPart random ur sequence body = .ok (d₁, part)) :
    d.receive random text = (d₁.reduce part >>= fun d =>
      if d.knownCount = d.known.length then
        d.finish >>= fun r => .ok (r.1.map (fun _ => r.2.complete), r.2)
      else .ok (.ok d.complete, d)) := by
  rw [receive, hopen, hdecode]
  simp only [hseq, hadmitted]
  rfl

/-- A part of the message that a decoder with the message's shape takes in. -/
theorem Collecting.receive {random : PseudoRandom} (hrandom : random.Draws) {d d₁ : Decoder}
    {e : Encoder} {urType cbor text body : Bytes} {ur : Ur} (he : e.Encodes urType cbor)
    (h : d₁.Collecting e) (hsingle : e.isSinglePart = false) (hlimit : cbor.length ≤ d₁.maxMessageLen)
    (hlimit' : e.seqLen ≤ d₁.maxFragments) {n : Nat} (hn : 0 < n) (hopen : d.complete = false)
    (hdecode : d.decodeText text = .ok (ur, body)) (hseq : ur.sequence = some (n, e.seqLen))
    (hadmitted : d.admitPart random ur (n, e.seqLen) body =
      .ok (d₁, ⟨chooseFragments random n e.seqLen e.checksum, e.partData random n⟩)) :
    ∃ d', d.receive random text = .ok (.ok d'.complete, d') ∧ d'.Tracks e cbor ∧
      (∀ k, d₁.isKnown k = true → d'.isKnown k = true) ∧
      (n ≤ e.seqLen → d'.isKnown (n - 1) = true) := by
  have hdraws := chooseFragments_draws hrandom e.checksum hn he.seqLen_pos
  set part : Mixed := ⟨chooseFragments random n e.seqLen e.checksum, e.partData random n⟩ with hpart
  have hfits : part.Fits d₁.known.length d₁.fragmentLen := by
    refine ⟨hdraws.1, ?_, ?_⟩
    · rw [h.count]
      exact hdraws.2
    · rw [h.fragmentLen, hpart, Encoder.partData, length_mix, List.length_replicate]
  obtain ⟨d₂, hreduce, hready, hcont, hsound, hknown⟩ := reduce_ok h.ready hfits
  have hsound₂ : d₂.Sound e.fragment [] := by
    refine hsound _ ⟨h.sound.length, h.sound.known, h.sound.held, fun m hm => ?_⟩
    rw [List.mem_singleton.mp hm, Mixed.Explained, h.fragmentLen]
    rfl
  have hcollect : d₂.Collecting e :=
    ⟨hcont.complete.trans h.complete, hcont.shape.trans h.shape, hcont.urType.trans h.urType,
      hcont.count.trans h.count, hready, hsound₂⟩
  have hlen : cbor.length ≤ d₂.maxMessageLen := by rwa [hcont.maxMessageLen]
  have hcount : e.seqLen ≤ d₂.maxFragments := by rwa [hcont.maxFragments]
  have hsimple : n ≤ e.seqLen → d₂.isKnown (n - 1) = true :=
    fun hle => hknown (n - 1) (if_pos hle)
  rw [receive_admitted hopen hdecode hseq hadmitted, hreduce, ok_bind]
  by_cases hall : d₂.knownCount = d₂.known.length
  · have hfinish := hcollect.finish he hall
    have hknown₂ := (isKnown_of_count hready).mp hall
    rw [hcollect.count] at hknown₂
    refine ⟨{ d₂ with message := cbor, mixed := [], complete := true }, ?_, ?_, ?_, ?_⟩
    · rw [if_pos hall, hfinish]
      rfl
    · exact ⟨hlen, hcount, .inr (.inr ⟨rfl, rfl, hknown₂⟩)⟩
    · exact fun k hk => hcont.known k hk
    · exact hsimple
  · have hle := knownCount_le hready
    refine ⟨d₂, ?_, ⟨hlen, hcount, .inr (.inl ⟨hsingle, hcollect, by omega⟩)⟩, ?_, hsimple⟩
    · rw [if_neg hall]
    · exact hcont.known

/-- A decoder that has the message ignores what it receives. -/
theorem Done.receive {d : Decoder} {e : Encoder} {cbor : Bytes} (h : d.Done e cbor)
    (random : PseudoRandom) (text : Bytes) : d.receive random text = .ok (.ok d.complete, d) := by
  rw [Decoder.receive, if_pos h.complete, h.complete]

/-- The text of a part of several is parsed, decoded and read back. -/
theorem parse_partText (random : PseudoRandom) {e : Encoder} {urType cbor : Bytes}
    (he : e.Encodes urType cbor) (hsingle : e.isSinglePart = false) {n : Nat} (hn : 0 < n)
    (hn' : n < 2 ^ 32) :
    ∃ ur body, Ur.parse (e.partText random n) = .ok ur ∧ ur.decode = .ok body ∧
      ur.urType = e.urType ∧ ur.sequence = some (n, e.seqLen) ∧
      Part.parse body = .ok ⟨n, e.seqLen, e.messageLen, e.checksum, e.partData random n⟩ := by
  have hvalid : validateType e.urType false = .ok () := by rw [he.type]; exact he.valid
  have hdata : (e.partData random n).length = e.fragmentLen := by
    rw [Encoder.partData, length_mix, List.length_replicate]
  have htext : e.partText random n = ofString "ur:" ++ e.urType ++ ofString "/" ++ decimal n ++
      ofString "-" ++ decimal e.seqLen ++ ofString "/" ++ Bytewords.encode
        (Encoder.partCbor n e.seqLen e.messageLen e.checksum (e.partData random n)) .minimal :=
    if_neg (by rw [hsingle]; simp)
  have hparse := Ur.parse_multi hvalid hn hn' he.seqLen_pos he.seqLen_lt
    (Encoder.partCbor n e.seqLen e.messageLen e.checksum (e.partData random n))
  rw [← htext] at hparse
  refine ⟨_, _, hparse, Bytewords.decode_encode _ _, rfl, rfl, ?_⟩
  refine Part.parse_partCbor hn' he.seqLen_lt ?_ ?_ ?_
  · rw [he.messageLen]
    exact he.bounded
  · rw [he.checksum]
    exact (crc32 cbor).toNat_lt
  · have hle := he.fragmentLen_le
    have hlt := he.bounded
    omega

/-- What a decoder reads a part of several as: a part of the encoder's shape,
with the fragments drawn for its number. -/
theorem read_part (random : PseudoRandom) {e : Encoder} {urType cbor : Bytes}
    (he : e.Encodes urType cbor) (hsingle : e.isSinglePart = false) {n : Nat} (hn : 0 < n)
    (hn' : n < 2 ^ 32) :
    ∃ ur body, ur.sequence = some (n, e.seqLen) ∧
      (∀ d : Decoder, d.urType = none ∨ d.urType = some e.urType →
        d.decodeText (e.partText random n) = .ok (ur, body)) ∧
      ∀ d : Decoder, d.admitPart random ur (n, e.seqLen) body = (d.checkShape e.shape >>= fun d =>
        .ok ({ d with urType := d.urType.or (some (toLower e.urType)) },
          ⟨chooseFragments random n e.seqLen e.checksum, e.partData random n⟩)) := by
  have hdata : (e.partData random n).length = e.fragmentLen := by
    rw [Encoder.partData, length_mix, List.length_replicate]
  obtain ⟨ur, body, hparse, hbody, htype, hseq, hpart⟩ := parse_partText random he hsingle hn hn'
  refine ⟨ur, body, hseq, fun d hd => decodeText_ok hparse hbody (by rwa [htype]), fun d => ?_⟩
  rw [admitPart, hpart, ok_bind, if_neg (by simp)]
  simp only [hdata, htype]
  rw [← Encoder.shape]

/-- A part of the message leaves the shape of a decoder that collects it alone. -/
theorem Collecting.checkShape {d : Decoder} {e : Encoder} (h : d.Collecting e) :
    d.checkShape e.shape = .ok d ∧
      { d with urType := d.urType.or (some (toLower e.urType)) } = d := by
  constructor
  · rw [Decoder.checkShape, h.shape]
    exact if_neg (by simp)
  · rw [h.urType]
    change { d with urType := some e.urType } = d
    rw [← h.urType]

/-- Any part of the message is taken in. -/
theorem receive_part {random : PseudoRandom} (hrandom : random.Draws) {d : Decoder} {e : Encoder}
    {urType cbor : Bytes} (he : e.Encodes urType cbor) (h : d.Tracks e cbor) {n : Nat} (hn : 0 < n)
    (hn' : n < 2 ^ 32) :
    ∃ d', d.receive random (e.partText random n) = .ok (.ok d'.complete, d') ∧ d'.Tracks e cbor ∧
      (∀ k, d.isKnown k = true → d'.isKnown k = true) ∧
      (n ≤ e.seqLen → d'.isKnown (n - 1) = true) := by
  have hvalid : validateType e.urType false = .ok () := by rw [he.type]; exact he.valid
  cases hsingle : e.isSinglePart with
  | true =>
    rcases h.state with hfresh | ⟨hmulti, -, -⟩ | hd
    · have hopen : d.complete = false := by rw [hfresh]; rfl
      have htype : d.urType = none := by rw [hfresh]; rfl
      have hshape : ¬ d.shape.isSome = true := by rw [hfresh]; simp [reset, withLimits]
      have hparse := Ur.parse_single hvalid cbor
      rw [← @partText_single random _ _ _ he hsingle n] at hparse
      have hdecode := decodeText_ok hparse (Bytewords.decode_encode cbor .minimal) (.inl htype)
      have hlimit : ¬ d.maxMessageLen < cbor.length := by
        have := h.maxMessageLen
        omega
      have hone : e.seqLen = 1 := by simpa [Encoder.isSinglePart] using hsingle
      have hknown : ∀ k < 1, ([true] : List Bool).getD k false = true := by decide
      refine ⟨{ d with
        urType := some (toLower e.urType), known := [true], knownCount := 1, message := cbor,
        complete := true }, ?_, ?_, ?_, ?_⟩
      · rw [receive, hopen, hdecode]
        simp only [receiveSingle, if_neg hshape, if_neg hlimit, Bool.false_eq_true, if_false]
      · exact ⟨h.maxMessageLen, h.maxFragments, .inr (.inr ⟨rfl, rfl, by rw [hone]; exact hknown⟩)⟩
      · intro k hk
        rw [hfresh] at hk
        simp [isKnown, reset, withLimits] at hk
      · intro hle
        exact hknown (n - 1) (by omega)
    · rw [hsingle] at hmulti
      cases hmulti
    · exact ⟨d, hd.receive random _, h, fun _ hk => hk, fun hle => hd.known (n - 1) (by omega)⟩
  | false =>
    obtain ⟨ur, body, hseq, hdecode, haccept⟩ := read_part random he hsingle hn hn'
    rcases h.state with hfresh | ⟨-, hcollect, -⟩ | hd
    · have hopen : d.complete = false := by rw [hfresh]; rfl
      have htype : d.urType = none := by rw [hfresh]; rfl
      have hshape : d.shape = none := by rw [hfresh]; rfl
      obtain ⟨d₁, hstart, hmax, hmax', hcollect⟩ :=
        start_collecting he hfresh h.maxMessageLen h.maxFragments
      have hlimit : cbor.length ≤ d₁.maxMessageLen := by rw [hmax]; exact h.maxMessageLen
      have hlimit' : e.seqLen ≤ d₁.maxFragments := by rw [hmax']; exact h.maxFragments
      have hcheck : d.checkShape e.shape = .ok d₁ := by rw [checkShape, hshape, hstart]
      obtain ⟨d', hreceive, htracks, -, hknown⟩ := hcollect.receive hrandom he hsingle hlimit hlimit'
        hn hopen (hdecode d (.inl htype)) hseq (by rw [haccept, hcheck, ok_bind])
      refine ⟨d', hreceive, htracks, fun k hk => ?_, hknown⟩
      rw [hfresh] at hk
      simp [isKnown, reset, withLimits] at hk
    · obtain ⟨hcheck, hsame⟩ := hcollect.checkShape
      exact hcollect.receive hrandom he hsingle h.maxMessageLen h.maxFragments hn
        hcollect.complete (hdecode d (.inr hcollect.urType)) hseq (by
          rw [haccept, hcheck, ok_bind, hsame])
    · exact ⟨d, hd.receive random _, h, fun _ hk => hk, fun hle => hd.known (n - 1) (by omega)⟩

/-- The parts of a message, one after the other. -/
theorem receiveAll_parts {random : PseudoRandom} (hrandom : random.Draws) {e : Encoder}
    {urType cbor : Bytes} (he : e.Encodes urType cbor) {texts : List Bytes}
    (htexts : ∀ t ∈ texts, ∃ n, 0 < n ∧ n < 2 ^ 32 ∧ toLower t = toLower (e.partText random n))
    {d : Decoder} (h : d.Tracks e cbor) :
    ∃ results d', d.receiveAll random texts = .ok (results, d') ∧ d'.Tracks e cbor ∧
      (∀ r ∈ results, ∃ b, r = .ok b) ∧ (∀ k, d.isKnown k = true → d'.isKnown k = true) ∧
      ∀ t ∈ texts, ∀ n, 0 < n → n ≤ e.seqLen → toLower t = toLower (e.partText random n) →
        d'.isKnown (n - 1) = true := by
  induction texts generalizing d with
  | nil => exact ⟨[], d, rfl, h, by simp, fun _ hk => hk, by simp⟩
  | cons t texts ih =>
    rw [List.forall_mem_cons] at htexts
    have hreceive : ∀ n, toLower t = toLower (e.partText random n) →
        d.receive random t = d.receive random (e.partText random n) := by
      intro n heq
      rw [← receive_toLower, heq, receive_toLower]
    obtain ⟨n, hn, hn', hn''⟩ := htexts.1
    obtain ⟨d₁, hok, htracks, hmono, -⟩ := receive_part hrandom he h hn hn'
    rw [← hreceive n hn''] at hok
    obtain ⟨results, d', hrest, htracks', hresults, hmono', hknown⟩ := ih htexts.2 htracks
    refine ⟨.ok d₁.complete :: results, d', receiveAll_cons hok hrest, htracks', ?_,
      fun k hk => hmono' k (hmono k hk), ?_⟩
    · rw [List.forall_mem_cons]
      exact ⟨⟨_, rfl⟩, hresults⟩
    · rw [List.forall_mem_cons]
      refine ⟨fun m hm hle heq => ?_, hknown⟩
      have hlt := he.seqLen_lt
      obtain ⟨d₂, hok₂, -, -, hsimple⟩ := receive_part hrandom he h hm (by omega)
      rw [← hreceive m heq, hok] at hok₂
      have hsame : d₁ = d₂ := (Prod.ext_iff.mp (Except.ok.inj hok₂)).2
      rw [← hsame] at hsimple
      exact hmono' _ (hsimple hle)

end Decoder

/-- However the parts of a message arrive, in any order, number and letter case,
every call succeeds, each fragment known is the sender's, the message is exactly
the one sent once complete, and the parts before the mixed ones complete it. -/
theorem transport_correct {random : PseudoRandom} (hrandom : random.Draws) {urType cbor : Bytes}
    {maxFragmentLen : Nat} (htype : validateType urType false = .ok ()) (hne : cbor ≠ [])
    (hlen : cbor.length < 2 ^ 32) (hmax : 0 < maxFragmentLen) :
    ∃ e, Encoder.new urType cbor maxFragmentLen = .ok e ∧
      ∀ count, ∃ parts, e.take random count = .ok parts ∧ parts.length = count ∧
        ∀ maxMessageLen maxFragments, cbor.length ≤ maxMessageLen → e.seqLen ≤ maxFragments →
        ∀ texts : List Bytes, (∀ t ∈ texts, ∃ p ∈ parts, eqIgnoreCase t p = true) →
          ∃ results d, (Decoder.withLimits maxMessageLen maxFragments).receiveAll random texts =
              .ok (results, d) ∧
            (∀ r ∈ results, ∃ b, r = .ok b) ∧
            (∀ k, d.known[k]? = some true →
              (d.complete = false →
                (d.message.drop (k * e.fragmentLen)).take e.fragmentLen = e.fragment k) ∧
              ((d.message ++ List.replicate (e.message.length - d.message.length) 0).drop
                (k * e.fragmentLen)).take e.fragmentLen = e.fragment k) ∧
            (d.complete = true → d.message? = some cbor) ∧
            ((∀ n < e.seqLen, ∃ t ∈ texts, ∃ p, parts[n]? = some p ∧ eqIgnoreCase t p = true) →
              d.complete = true) := by
  obtain ⟨e, hnew, he, hzero⟩ := Encoder.new_encodes htype hne hlen hmax
  refine ⟨e, hnew, fun count => ?_⟩
  obtain ⟨parts, htake, hcount, hparts, hget⟩ := Encoder.take_ok hrandom count he
  refine ⟨parts, htake, hcount, fun maxMessageLen maxFragments hml hmf texts htexts => ?_⟩
  have hcase : ∀ {s t : Bytes}, eqIgnoreCase s t = true → toLower s = toLower t := by
    intro s t h
    simpa [eqIgnoreCase] using h
  have hnumbers : ∀ t ∈ texts, ∃ n, 0 < n ∧ n < 2 ^ 32 ∧
      toLower t = toLower (e.partText random n) := by
    intro t ht
    obtain ⟨p, hp, heq⟩ := htexts t ht
    obtain ⟨n, hn, hn', rfl⟩ := hparts p hp
    exact ⟨n, hn, hn', hcase heq⟩
  have hstart : (Decoder.withLimits maxMessageLen maxFragments).Tracks e cbor :=
    ⟨hml, hmf, .inl rfl⟩
  obtain ⟨results, d, hreceive, htracks, hresults, -, hknown⟩ :=
    Decoder.receiveAll_parts hrandom he hnumbers hstart
  have hpos := he.seqLen_pos
  refine ⟨results, d, hreceive, hresults, fun k hk => ?_, fun hcomplete => ?_, fun hall => ?_⟩
  · rcases htracks.state with hfresh | ⟨-, hcollect, -⟩ | hdone
    · rw [hfresh] at hk
      simp [Decoder.reset, Decoder.withLimits] at hk
    · have hsame : d.message.length = e.message.length := by
        rw [hcollect.ready.message, hcollect.count, hcollect.fragmentLen, he.length_message]
      have hfrag := hcollect.sound.known k (by simp [Decoder.isKnown, hk])
      rw [Decoder.fragment, hcollect.fragmentLen] at hfrag
      refine ⟨fun _ => hfrag, ?_⟩
      rw [hsame, Nat.sub_self, List.replicate_zero, List.append_nil, hfrag]
    · refine ⟨fun hopen => ?_, ?_⟩
      · rw [hdone.complete] at hopen
        cases hopen
      · rw [hdone.message, he.length_message, ← he.message, Encoder.fragment]
  · rcases htracks.state with hfresh | ⟨-, hcollect, -⟩ | hdone
    · rw [hfresh] at hcomplete
      cases hcomplete
    · rw [hcollect.complete] at hcomplete
      cases hcomplete
    · rw [Decoder.message?, hdone.complete, hdone.message]
      rfl
  · have hlt := he.seqLen_lt
    have hall' : ∀ k < e.seqLen, d.isKnown k = true := by
      intro k hk
      obtain ⟨t, ht, p, hp, heq⟩ := hall k hk
      have hkc : k < count := by
        obtain ⟨hlt, -⟩ := List.getElem?_eq_some_iff.mp hp
        omega
      have hpart := hget k hkc (by omega)
      rw [hzero, Nat.zero_add, hp] at hpart
      cases hpart
      exact hknown t ht (k + 1) (by omega) (by omega) (hcase heq)
    rcases htracks.state with hfresh | ⟨-, hcollect, hmissing⟩ | hdone
    · have := hall' 0 hpos
      rw [hfresh] at this
      simp [Decoder.isKnown, Decoder.reset, Decoder.withLimits] at this
    · have := (Decoder.isKnown_of_count hcollect.ready).mpr (by rw [hcollect.count]; exact hall')
      omega
    · exact hdone.complete

/-- The fragments drawn for the first mixed parts of the message 1, 2, 3, 4, 5
in three fragments. -/
def sampleRandom : PseudoRandom := fun seqNum seqLen checksum =>
  if (seqNum, seqLen, checksum) = (5, 3, 1191942644) then [0, 2]
  else if (seqNum, seqLen, checksum) = (6, 3, 1191942644) then [1]
  else if (seqNum, seqLen, checksum) = (7, 3, 1191942644) then [1, 2]
  else [0]

theorem sampleRandom_draws : sampleRandom.Draws := by
  intro seqNum seqLen checksum hpos hlt
  rw [sampleRandom]
  split_ifs with h5 h6 h7
  · cases h5
    decide
  · cases h6
    decide
  · cases h7
    decide
  · simp [hpos]

/-- Seven parts that arrive in the opposite order. -/
theorem transport_sample :
    ∃ e parts results d, Encoder.new (ofString "bytes") [1, 2, 3, 4, 5] 2 = .ok e ∧
      e.take sampleRandom 7 = .ok parts ∧
      (Decoder.withLimits 5 3).receiveAll sampleRandom parts.reverse = .ok (results, d) ∧
      d.message? = some [1, 2, 3, 4, 5] := by
  have htype : validateType (ofString "bytes") false = .ok () := by decide
  have hne : ([1, 2, 3, 4, 5] : Bytes) ≠ [] := by decide
  obtain ⟨e, hnew, htransport⟩ := transport_correct sampleRandom_draws htype hne (by decide)
    (show 0 < 2 by decide)
  obtain ⟨parts, htake, hcount, hall⟩ := htransport 7
  have hseqLen : e.seqLen = 3 := by
    have hvalue : (Encoder.new (ofString "bytes") [1, 2, 3, 4, 5] 2).map Encoder.seqLen = .ok 3 := by
      decide
    rw [hnew] at hvalue
    exact Except.ok.inj hvalue
  obtain ⟨results, d, hreceive, -, -, hmessage, hcomplete⟩ := hall 5 3 (by decide) (by omega)
    parts.reverse (fun t ht => ⟨t, List.mem_reverse.mp ht, eqIgnoreCase_self t⟩)
  refine ⟨e, parts, results, d, hnew, htake, hreceive, hmessage (hcomplete fun n hn => ?_)⟩
  have hlt : n < parts.length := by omega
  exact ⟨parts[n], List.mem_reverse.mpr (List.getElem_mem hlt), parts[n],
    List.getElem?_eq_getElem hlt, eqIgnoreCase_self _⟩

end Outscript.Bcur
