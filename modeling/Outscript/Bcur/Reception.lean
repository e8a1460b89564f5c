import Outscript.Bcur.Choose
import Outscript.Bcur.Holding

/-!
# Whatever is received

Strings that were never sent by an encoder, forged parts included, lead a
decoder to a well-formed state or to an error, and never make it index outside
its buffers.
-/
namespace Outscript.Bcur

open ByteString Ascii Fallible XorSum Worklist

namespace Decoder

/-- What holds of a decoder between two calls. -/
structure WellFormed (d : Decoder) : Prop where
  /-- Nothing is known or on hold before the first part. -/
  fresh : d.shape = none → d.complete = false → d = d.reset
  count : d.knownCount = d.known.count true
  message : d.complete = false → d.message.length = d.known.length * d.fragmentLen
  /-- The shape is one that the first part was checked for. -/
  shape : ∀ s, d.shape = some s → s.seqLen = d.known.length ∧ 0 < s.seqLen ∧
    s.messageLen ≤ s.seqLen * s.fragmentLen
  held : ∀ m ∈ d.mixed, m.Fits d.known.length d.fragmentLen ∧ 2 ≤ m.indexes.length
  tidy : d.Tidy
  room : d.mixed.length ≤ 2 * d.known.length + 16

theorem WellFormed.ready {d : Decoder} (h : d.WellFormed) (hopen : d.complete = false) : d.Ready :=
  ⟨h.message hopen, h.count, h.held, h.room⟩

theorem wellFormed_withLimits (maxMessageLen maxFragments : Nat) :
    (withLimits maxMessageLen maxFragments).WellFormed where
  fresh := fun _ _ => rfl
  count := rfl
  message := fun _ => rfl
  shape := fun _ hs => nomatch hs
  held := fun _ hm => nomatch hm
  tidy := ⟨fun _ hm => (nomatch hm), List.Pairwise.nil, fun _ => List.Pairwise.nil⟩
  room := Nat.zero_le _

/-- A decoder of a message of this shape, before the last part. -/
structure Accepting (d : Decoder) (shape : Shape) : Prop where
  complete : d.complete = false
  ready : d.Ready
  tidy : d.Tidy
  shape_eq : d.shape = some shape
  seqLen : shape.seqLen = d.known.length
  seqLen_pos : 0 < shape.seqLen
  messageLen : shape.messageLen ≤ shape.seqLen * shape.fragmentLen

namespace Accepting

variable {d : Decoder} {shape : Shape} (h : d.Accepting shape)

include h

theorem fragmentLen : d.fragmentLen = shape.fragmentLen := by
  rw [Decoder.fragmentLen, h.shape_eq]

theorem wellFormed : d.WellFormed where
  fresh := by
    intro hnone
    rw [h.shape_eq] at hnone
    cases hnone
  count := h.ready.count
  message := fun _ => h.ready.message
  shape := by
    intro s hs
    rw [h.shape_eq] at hs
    cases hs
    exact ⟨h.seqLen, h.seqLen_pos, h.messageLen⟩
  held := h.ready.held
  tidy := h.tidy
  room := h.ready.room

theorem withType (urType : Option Bytes) : Accepting { d with urType } shape :=
  ⟨h.complete, ⟨h.ready.message, h.ready.count, h.ready.held, h.ready.room⟩,
    ⟨h.tidy.unknown, h.tidy.distinct, h.tidy.apart⟩, h.shape_eq, h.seqLen, h.seqLen_pos, h.messageLen⟩

theorem reduce {part : Mixed} (hp : part.Fits d.known.length d.fragmentLen) :
    ∃ d', d.reduce part = .ok d' ∧ d'.Accepting shape ∧ d'.mixed.length ≤ d.mixed.length + 1 := by
  obtain ⟨d', hreduce, hready, hcont, -, -⟩ := reduce_ok h.ready hp
  obtain ⟨htidy, hsize⟩ := h.tidy.reduce h.ready hp hreduce
  refine ⟨d', hreduce, ?_, hsize⟩
  exact ⟨hcont.complete.trans h.complete, hready, htidy, hcont.shape.trans h.shape_eq,
    h.seqLen.trans hcont.count.symm, h.seqLen_pos, h.messageLen⟩

/-- The message is cut to its length inside the buffer. -/
theorem finish : ∃ r d', d.finish = .ok (r, d') ∧ d'.WellFormed ∧ d'.mixed = [] := by
  have hroom : ¬ d.message.length < shape.messageLen := by
    have hle := h.messageLen
    have hlen := h.ready.message
    rw [h.fragmentLen, ← h.seqLen] at hlen
    omega
  rw [Decoder.finish, h.shape_eq]
  dsimp only
  rw [if_neg hroom]
  split_ifs
  · exact ⟨_, _, rfl, wellFormed_withLimits _ _, rfl⟩
  · refine ⟨_, _, rfl, ?_, rfl⟩
    constructor
    · exact by rintro _ ⟨⟩
    · exact h.ready.count
    · exact by rintro ⟨⟩
    · intro s hs
      cases hs
      exact ⟨h.seqLen, h.seqLen_pos, h.messageLen⟩
    · exact by rintro _ ⟨⟩
    · exact ⟨List.forall_mem_nil _, List.Pairwise.nil, fun _ => List.Pairwise.nil⟩
    · exact Nat.zero_le _

end Accepting

theorem WellFormed.accepting {d : Decoder} (h : d.WellFormed) (hopen : d.complete = false)
    {shape : Shape} (hshape : d.shape = some shape) : d.Accepting shape :=
  ⟨hopen, h.ready hopen, h.tidy, hshape, (h.shape shape hshape).1, (h.shape shape hshape).2.1,
    (h.shape shape hshape).2.2⟩

/-- The first part of a message makes room for it. -/
theorem start_accepting {d d' : Decoder} {shape : Shape} (hopen : d.complete = false)
    (hfresh : d = d.reset) (h : d.start shape = .ok d') :
    d'.Accepting shape ∧ d'.mixed = d.mixed := by
  rw [start] at h
  split_ifs at h with hzero hceil hlimit
  have hmixed : d.mixed = [] := by rw [hfresh]; rfl
  have hcount : d.knownCount = 0 := by rw [hfresh]; rfl
  cases h
  rw [not_not] at hceil
  have hpos : 0 < shape.messageLen ∧ 0 < shape.fragmentLen := by omega
  refine ⟨⟨hopen, ?_, ?_, rfl, ?_, ?_, ?_⟩, rfl⟩
  · constructor
    · change (List.replicate (shape.seqLen * shape.fragmentLen) (0 : UInt8)).length =
        (List.replicate shape.seqLen false).length * shape.fragmentLen
      simp
    · change d.knownCount = (List.replicate shape.seqLen false).count true
      rw [hcount]
      simp [List.count_replicate]
    · exact fun m hm => absurd hm (by simp [hmixed])
    · simp [hmixed]
  · refine ⟨fun m hm => absurd hm (by simp [hmixed]), ?_, fun _ => ?_⟩
    · simp [hmixed]
    · simp [hmixed]
  · simp
  · rw [← hceil]
    exact divCeil_pos hpos.1 hpos.2
  · rw [← hceil]
    exact divCeil_mul_ge hpos.2

/-- The first part sets the shape, and later ones have it. -/
theorem checkShape_eq_ok {d d' : Decoder} {shape : Shape} :
    d.checkShape shape = .ok d' ↔
      d.shape = none ∧ d.start shape = .ok d' ∨ d.shape = some shape ∧ d' = d := by
  rw [checkShape]
  cases hshape : d.shape with
  | none => simp
  | some expected =>
    dsimp only
    split_ifs with hsame
    · simp [hsame]
    · rw [not_not] at hsame
      simp [hsame, eq_comm]

theorem admitPart_eq_ok {random : PseudoRandom} {d d' : Decoder} {ur : Ur} {sequence : Nat × Nat}
    {body : Bytes} {part : Mixed} :
    d.admitPart random ur sequence body = .ok (d', part) ↔
      ∃ raw d₁, Part.parse body = .ok raw ∧ (raw.seqNum, raw.seqLen) = sequence ∧
        d.checkShape ⟨sequence.2, raw.messageLen, raw.checksum, raw.data.length⟩ = .ok d₁ ∧
        d' = { d₁ with urType := d₁.urType.or (some (toLower ur.urType)) } ∧
        part = ⟨chooseFragments random sequence.1 sequence.2 raw.checksum, raw.data⟩ := by
  rw [admitPart]
  constructor
  · intro h
    obtain ⟨raw, hraw, h⟩ := bind_eq_ok.mp h
    split_ifs at h with hseq
    obtain ⟨d₁, hcheck, h⟩ := bind_eq_ok.mp h
    cases h
    exact ⟨raw, d₁, hraw, not_not.mp hseq, hcheck, rfl, rfl⟩
  · rintro ⟨raw, d₁, hraw, hseq, hcheck, rfl, rfl⟩
    rw [hraw, ok_bind, if_neg (not_not.mpr hseq), hcheck, ok_bind]

theorem checkShape_accepting {d d' : Decoder} {shape : Shape} (h : d.WellFormed)
    (hopen : d.complete = false) (hcheck : d.checkShape shape = .ok d') :
    d'.Accepting shape ∧ d'.mixed = d.mixed := by
  rcases checkShape_eq_ok.mp hcheck with ⟨hshape, hstart⟩ | ⟨hshape, rfl⟩
  · exact start_accepting hopen (h.fresh hshape hopen) hstart
  · exact ⟨h.accepting hopen hshape, rfl⟩

theorem sequence_pos {text : Bytes} {ur : Ur} {sequence : Nat × Nat} (h : Ur.parse text = .ok ur)
    (hseq : ur.sequence = some sequence) : 0 < sequence.1 := by
  have hindex : ∀ {t : Bytes} {n : Nat}, parseIndex t = some n → 0 < n := by
    intro t n ht
    rw [parseIndex] at ht
    split_ifs at ht
    obtain ⟨value, -, hvalue⟩ := Option.bind_eq_some_iff.mp ht
    split_ifs at hvalue with hpos
    cases hvalue
    exact hpos
  rw [Ur.parse] at h
  split_ifs at h
  cases hsplit : splitOnce 47 (text.drop 3) with
  | none =>
    rw [hsplit] at h
    cases h
  | some r =>
    rw [hsplit] at h
    obtain ⟨_, -, h⟩ := bind_eq_ok.mp h
    cases hrest : rsplitOnce 47 r.2 with
    | none =>
      rw [hrest] at h
      cases h
      cases hseq
    | some q =>
      rw [hrest] at h
      obtain ⟨seq, hparse, h⟩ := bind_eq_ok.mp h
      cases h
      cases hseq
      rw [parseSequence] at hparse
      cases hnums : splitOnce 45 q.1 with
      | none =>
        rw [hnums] at hparse
        cases hparse
      | some nums =>
        rw [hnums] at hparse
        dsimp only at hparse
        split at hparse
        · rename_i n l hn hl
          cases hparse
          exact hindex hn
        · cases hparse

/-- A string is of the decoder's type, if it has one. -/
theorem decodeText_eq_ok {d : Decoder} {text body : Bytes} {ur : Ur} :
    d.decodeText text = .ok (ur, body) ↔ Ur.parse text = .ok ur ∧ ur.decode = .ok body ∧
      ∀ urType, d.urType = some urType → eqIgnoreCase urType ur.urType = true := by
  rw [decodeText, bind_eq_ok]
  constructor
  · rintro ⟨ur', hparse, h⟩
    cases htype : d.urType with
    | none =>
      rw [htype] at h
      obtain ⟨body', hbody, heq⟩ := bind_eq_ok.mp h
      cases heq
      exact ⟨hparse, hbody, by rintro _ ⟨⟩⟩
    | some urType =>
      rw [htype] at h
      dsimp only at h
      split_ifs at h with hsame
      obtain ⟨body', hbody, heq⟩ := bind_eq_ok.mp h
      cases heq
      refine ⟨hparse, hbody, fun _ hsome => ?_⟩
      cases hsome
      simpa using hsame
  · rintro ⟨hparse, hbody, hsame⟩
    refine ⟨ur, hparse, ?_⟩
    cases htype : d.urType with
    | none => simp only [hbody, ok_bind]
    | some urType => simp only [hsame urType htype, hbody, ok_bind, Bool.true_eq_false, if_false]

theorem parse_of_decodeText {d : Decoder} {text body : Bytes} {ur : Ur}
    (h : d.decodeText text = .ok (ur, body)) : Ur.parse text = .ok ur :=
  (decodeText_eq_ok.mp h).1

/-- A part that is admitted fits the message. -/
theorem admitPart_accepting {random : PseudoRandom} (hrandom : random.Draws) {d d' : Decoder}
    {ur : Ur} {sequence : Nat × Nat} {body : Bytes} {part : Mixed} (h : d.WellFormed)
    (hopen : d.complete = false) (hpos : 0 < sequence.1)
    (haccept : d.admitPart random ur sequence body = .ok (d', part)) :
    ∃ shape, d'.Accepting shape ∧ part.Fits d'.known.length d'.fragmentLen ∧ d'.mixed = d.mixed := by
  obtain ⟨raw, d₁, -, -, hcheck, rfl, rfl⟩ := admitPart_eq_ok.mp haccept
  obtain ⟨hacc₁, hmixed⟩ := checkShape_accepting h hopen hcheck
  have hacc := hacc₁.withType (d₁.urType.or (some (toLower ur.urType)))
  have hdraws := chooseFragments_draws hrandom raw.checksum hpos hacc.seqLen_pos
  refine ⟨_, hacc, ⟨hdraws.1, ?_, ?_⟩, hmixed⟩
  · rw [← hacc.seqLen]
    exact hdraws.2
  · rw [hacc.fragmentLen]

/-- Whatever string is received, the call returns, the decoder stays well formed
and one part more is on hold at most. -/
theorem WellFormed.receive {random : PseudoRandom} (hrandom : random.Draws) {d : Decoder}
    (h : d.WellFormed) (text : Bytes) :
    ∃ r d', d.receive random text = .ok (r, d') ∧ d'.WellFormed ∧
      d'.mixed.length ≤ d.mixed.length + 1 := by
  rw [Decoder.receive]
  split_ifs with hcomplete
  · exact ⟨_, d, rfl, h, Nat.le_succ _⟩
  have hopen : d.complete = false := by simpa using hcomplete
  cases hdecode : d.decodeText text with
  | error e => exact ⟨_, d, rfl, h, Nat.le_succ _⟩
  | ok r =>
    obtain ⟨ur, body⟩ := r
    cases hseq : ur.sequence with
    | none =>
      dsimp only
      rw [hseq]
      cases hsingle : d.receiveSingle ur body with
      | error e => exact ⟨_, d, rfl, h, Nat.le_succ _⟩
      | ok d' =>
        refine ⟨_, d', rfl, ?_⟩
        rw [receiveSingle] at hsingle
        split_ifs at hsingle with hshape
        have hnone : d.shape = none := by simpa using hshape
        have hmixed : d.mixed = [] := by rw [h.fresh hnone hopen]; rfl
        cases hsingle
        refine ⟨?_, Nat.le_succ _⟩
        constructor
        · exact by rintro _ ⟨⟩
        · rfl
        · exact by rintro ⟨⟩
        · intro s hs
          rw [hnone] at hs
          cases hs
        · simp [hmixed]
        · exact ⟨by simp [hmixed], by simp [hmixed], fun _ => by simp [hmixed]⟩
        · simp [hmixed]
    | some sequence =>
      dsimp only
      rw [hseq]
      dsimp only
      cases haccept : d.admitPart random ur sequence body with
      | error e => exact ⟨_, d, rfl, h, Nat.le_succ _⟩
      | ok r =>
        obtain ⟨d₁, part⟩ := r
        have hpos := sequence_pos (parse_of_decodeText hdecode) hseq
        obtain ⟨shape, hacc, hfits, hmixed⟩ := admitPart_accepting hrandom h hopen hpos haccept
        obtain ⟨d₂, hreduce, hacc₂, hsize⟩ := hacc.reduce hfits
        rw [hmixed] at hsize
        dsimp only
        rw [hreduce, ok_bind]
        split_ifs
        · obtain ⟨r, d₃, hfinish, hwf, hnil⟩ := hacc₂.finish
          rw [hfinish]
          exact ⟨_, d₃, rfl, hwf, by rw [hnil]; exact Nat.zero_le _⟩
        · exact ⟨_, d₂, rfl, hacc₂.wellFormed, hsize⟩

theorem WellFormed.receiveAll {random : PseudoRandom} (hrandom : random.Draws) {d : Decoder}
    (h : d.WellFormed) (texts : List Bytes) :
    ∃ results d', d.receiveAll random texts = .ok (results, d') ∧ d'.WellFormed := by
  induction texts generalizing d with
  | nil => exact ⟨[], d, rfl, h⟩
  | cons text texts ih =>
    obtain ⟨r, d₁, hreceive, h₁, -⟩ := h.receive hrandom text
    obtain ⟨results, d₂, hrest, h₂⟩ := ih h₁
    exact ⟨r :: results, d₂, receiveAll_cons hreceive hrest, h₂⟩

/-- The states that calls lead to. -/
inductive Reached (random : PseudoRandom) : Decoder → Prop
  | withLimits (maxMessageLen maxFragments : Nat) :
    Reached random (withLimits maxMessageLen maxFragments)
  | receive {d d' : Decoder} {text : Bytes} {r : Except Error Bool} (h : Reached random d)
    (hreceive : d.receive random text = .ok (r, d')) : Reached random d'
  | reset {d : Decoder} (h : Reached random d) : Reached random d.reset

theorem Reached.wellFormed {random : PseudoRandom} (hrandom : random.Draws) {d : Decoder}
    (h : d.Reached random) : d.WellFormed := by
  induction h with
  | withLimits maxMessageLen maxFragments => exact wellFormed_withLimits _ _
  | receive _ hreceive ih =>
    obtain ⟨r, d', hok, hwf, -⟩ := ih.receive hrandom _
    rw [hreceive] at hok
    cases hok
    exact hwf
  | reset _ _ => exact wellFormed_withLimits _ _

/-- The string carries a part that is passed on to the work queue, in this state. -/
def PassesOn (random : PseudoRandom) (d : Decoder) (text : Bytes) (d₁ : Decoder) (part : Mixed) : Prop :=
  d.complete = false ∧ ∃ ur body sequence, d.decodeText text = .ok (ur, body) ∧
    ur.sequence = some sequence ∧ d.admitPart random ur sequence body = .ok (d₁, part)

theorem PassesOn.accepting {random : PseudoRandom} (hrandom : random.Draws) {d d₁ : Decoder}
    {text : Bytes} {part : Mixed} (hd : d.WellFormed) (h : d.PassesOn random text d₁ part) :
    ∃ shape, d₁.Accepting shape ∧ part.Fits d₁.known.length d₁.fragmentLen := by
  obtain ⟨hopen, ur, body, sequence, hdecode, hseq, hadmits⟩ := h
  have hpos := sequence_pos (parse_of_decodeText hdecode) hseq
  obtain ⟨shape, hacc, hfits, -⟩ := admitPart_accepting hrandom hd hopen hpos hadmits
  exact ⟨shape, hacc, hfits⟩

/-- Every turn but the first finds a part that it makes shorter. -/
theorem turn_shortens {d s : Decoder} (h : d.Ready) {part m : Mixed} {stack : List Mixed}
    (hp : part.Fits d.known.length d.fragmentLen)
    (hturns : Relation.TransGen (Turn step) (d, [part]) (s, m :: stack)) :
    ∃ p, s.simplify m = .ok p ∧ p.indexes.length < m.indexes.length := by
  obtain ⟨d₁, pushed, p, hstep, -, -, hwait⟩ := first_turn h hp
  obtain ⟨_, ⟨hfirst⟩, hrest⟩ := Relation.TransGen.head'_iff.mp hturns
  rw [hstep] at hfirst
  cases hfirst
  have hkeep : ∀ s a stack s' pushed, Waiting s (a :: stack) → s.step a = .ok (s', pushed) →
      Waiting s' (pushed ++ stack) := by
    intro s a stack s' pushed hs hok
    obtain ⟨s₁, pushed₁, -, hstep₁, -, -, -, -, hs₁⟩ := hs.turn
    rw [hok] at hstep₁
    cases hstep₁
    exact hs₁
  have hs : s.Waiting (m :: stack) := turns_keep hkeep hrest hwait
  obtain ⟨-, -, p, -, hsimp, -, -, hshort, -⟩ := hs.turn
  exact ⟨p, hsimp, hshort⟩

end Decoder

/-- Whatever the limits and the strings received, every call returns, without an
index or a copy out of bounds, and leaves the decoder's counts, buffer and parts
on hold consistent. -/
theorem receive_keeps_well_formed {fl : Doubles} (hfl : fl.Scales) (H : Hashes)
    (maxMessageLen maxFragments : Nat) (texts : List Bytes) :
    ∃ results d, (Decoder.withLimits maxMessageLen maxFragments).receiveAll (pseudoRandom fl H) texts =
        .ok (results, d) ∧
      d.knownCount = d.known.count true ∧
      (d.complete = false → ∀ shape, d.shape = some shape →
        shape.seqLen = d.known.length ∧ d.message.length = shape.seqLen * shape.fragmentLen) ∧
      (d.complete = false → d.shape = none → d.known = [] ∧ d.message = []) ∧
      (∀ m ∈ d.mixed, m.data.length = d.fragmentLen ∧ 2 ≤ m.indexes.length ∧
        m.indexes.Pairwise (· < ·) ∧ ∀ i ∈ m.indexes, d.known[i]? = some false) ∧
      d.mixed.Pairwise (fun m m' => ¬ ∀ i, i ∈ m.indexes ↔ i ∈ m'.indexes) ∧
      (d.known.length ≤ maxFragmentsForSubsets → d.mixed.Pairwise fun m m' =>
        ¬ (∀ i ∈ m.indexes, i ∈ m'.indexes) ∧ ¬ (∀ i ∈ m'.indexes, i ∈ m.indexes)) ∧
      d.mixed.length ≤ 2 * d.known.length + 16 := by
  obtain ⟨results, d, hreceive, h⟩ := (Decoder.wellFormed_withLimits maxMessageLen maxFragments).receiveAll
    (pseudoRandom_draws hfl H) texts
  refine ⟨results, d, hreceive, h.count, fun hopen shape hshape => ?_, fun hopen hnone => ?_,
    fun m hm => ?_, ?_, fun hsmall => ?_, h.room⟩
  · have hlen := h.message hopen
    rw [(h.accepting hopen hshape).fragmentLen, ← (h.shape shape hshape).1] at hlen
    exact ⟨(h.shape shape hshape).1, hlen⟩
  · rw [h.fresh hnone hopen]
    exact ⟨rfl, rfl⟩
  · obtain ⟨hfits, hlen⟩ := h.held m hm
    refine ⟨hfits.length, hlen, hfits.sorted, fun i hi => ?_⟩
    rw [Decoder.isKnown_eq (hfits.bound i hi), h.tidy.unknown m hm i hi]
  · refine (h.tidy.distinct.imp_of_mem fun {m m'} hm hm' hne hsame => ?_)
    have hfits := (h.held m hm).1
    have hfits' := (h.held m' hm').1
    rcases Nat.le_total m'.indexes.length m.indexes.length with hle | hle
    · exact hne (hfits.eq_of_covered hfits' (fun i hi => (hsame i).mp hi) hle)
    · exact hne (hfits'.eq_of_covered hfits (fun i hi => (hsame i).mpr hi) hle).symm
  · exact h.tidy.apart (by simpa [Decoder.withSubsets] using hsmall)

/-- Hashes that the sample runs do not draw from. -/
def sampleHashes : Hashes := ⟨fun _ => List.Vector.replicate 32 0, fun _ => List.Vector.replicate 20 0⟩

theorem receive_keeps_well_formed_sample :
    ∃ results d, (Decoder.withLimits 5 3).receiveAll (pseudoRandom exactDoubles sampleHashes)
        [ofString "ur:bytes/1-3/forged", ofString "garbage"] = .ok (results, d) ∧
      d.knownCount = d.known.count true := by
  obtain ⟨results, d, hreceive, hcount, -⟩ := receive_keeps_well_formed exactDoubles_scales sampleHashes 5 3
    [ofString "ur:bytes/1-3/forged", ofString "garbage"]
  exact ⟨results, d, hreceive, hcount⟩

/-- The work queue that a part starts runs empty: there is no run without an end,
and each part looked at after the first one is left with fewer indexes than it was
put back with. -/
theorem reduce_ends {fl : Doubles} (hfl : fl.Scales) (H : Hashes) {d d₁ : Decoder} {text : Bytes}
    {part : Mixed} (hd : d.Reached (pseudoRandom fl H))
    (hpart : d.PassesOn (pseudoRandom fl H) text d₁ part) :
    (∃ d', d₁.reduce part = .ok d' ∧
      Relation.ReflTransGen (Turn Decoder.step) (d₁, [part]) (d', [])) ∧
    Acc (fun after before => Turn Decoder.step before after) (d₁, [part]) ∧
    ∀ s m stack, Relation.TransGen (Turn Decoder.step) (d₁, [part]) (s, m :: stack) →
      ∃ p, s.simplify m = .ok p ∧ p.indexes.length < m.indexes.length := by
  have hrandom := pseudoRandom_draws hfl H
  obtain ⟨shape, hacc, hfits⟩ := hpart.accepting hrandom (hd.wellFormed hrandom)
  obtain ⟨d', hreduce, -⟩ := Decoder.reduce_ok hacc.ready hfits
  obtain ⟨hruns, hends⟩ := turns_of_drain hreduce
  exact ⟨⟨d', hreduce, hruns⟩, hends, fun s m stack => Decoder.turn_shortens hacc.ready hfits⟩

/-- The first part of the message 1, 2, 3, 4, 5 in three fragments. -/
theorem reduce_ends_sample :
    ∃ e text d₁ part d', Encoder.new (ofString "bytes") [1, 2, 3, 4, 5] 2 = .ok e ∧
      (Decoder.withLimits 5 3).PassesOn (pseudoRandom exactDoubles sampleHashes) text d₁ part ∧
      d₁.reduce part = .ok d' ∧
      Relation.ReflTransGen (Turn Decoder.step) (d₁, [part]) (d', []) := by
  obtain ⟨e, hnew, he, -⟩ := @Encoder.new_encodes (ofString "bytes") [1, 2, 3, 4, 5] 2
    (by decide) (by decide) (by decide) (by decide)
  have hseqLen : e.seqLen = 3 := by
    have hvalue : (Encoder.new (ofString "bytes") [1, 2, 3, 4, 5] 2).map Encoder.seqLen = .ok 3 := by
      decide
    rw [hnew] at hvalue
    exact Except.ok.inj hvalue
  have hmany : e.isSinglePart = false := by rw [Encoder.isSinglePart, hseqLen]; rfl
  obtain ⟨ur, body, hseq, hdecode, hadmits⟩ := Decoder.read_part
    (pseudoRandom exactDoubles sampleHashes) he hmany (show 0 < 1 by decide) (by decide)
  obtain ⟨d₁, hstart, -⟩ := Decoder.start_collecting he (d := Decoder.withLimits 5 3) rfl
    (show 5 ≤ 5 by decide) hseqLen.le
  have hcheck : (Decoder.withLimits 5 3).checkShape e.shape = .ok d₁ := hstart
  have haccepted := hadmits (Decoder.withLimits 5 3)
  rw [hcheck, Fallible.ok_bind] at haccepted
  have hpart : (Decoder.withLimits 5 3).PassesOn (pseudoRandom exactDoubles sampleHashes)
      (e.partText (pseudoRandom exactDoubles sampleHashes) 1) _ _ :=
    ⟨rfl, ur, body, _, hdecode _ (.inl rfl), hseq, haccepted⟩
  obtain ⟨⟨d', hreduce, hruns⟩, -⟩ :=
    reduce_ends exactDoubles_scales sampleHashes (.withLimits 5 3) hpart
  exact ⟨e, _, _, _, d', hnew, hpart, hreduce, hruns⟩

end Outscript.Bcur
