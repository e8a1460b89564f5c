import Outscript.Tron.Tx

/-!
# Tron transactions

A `Transaction` message wraps raw data and signatures. It is written from a
transaction, whose raw data is written twice, or from raw data as bytes, and it
is read with whatever other fields a node attached.
-/
namespace Outscript.Tron

open ByteString Cursor Fallible Protobuf

abbrev TronSignature := ByteVec 65

section Write

variable {S : Type} [Sink S]

def putSignatures (s : S) (sigs : List TronSignature) : S :=
  sigs.foldl (fun s sig => putBytes s 2 sig.toList) s

/-- The message around what `write` writes. -/
def putTransaction (s : S) (write : ∀ {T : Type} [Sink T], T → T) (sigs : List TronSignature) : S :=
  putSignatures (putDelimited s 1 false write) sigs

end Write

def varintLen (v : Nat) : Nat := (putVarint ({} : Counter) v).count

/-- The length of the message around `rawDataLen` bytes of raw data. -/
def transactionLen (rawDataLen signatures : Nat) : Nat :=
  1 + varintLen rawDataLen + rawDataLen + signatures * (2 + 65)

/-- The number of bytes written, and the buffer they were written to. -/
def transactionToSlice (rawData : Bytes) (sigs : List TronSignature) (out : Bytes) :
    Except Error (Nat × Bytes) := do
  let s := putTransaction (SliceSink.new out) (fun s => Sink.put s rawData) sigs
  let n ← okOr s.finish .bufferTooSmall
  .ok (n, s.out)

def transaction (rawData : Bytes) (sigs : List TronSignature) : Except Trap Bytes :=
  match transactionToSlice rawData sigs
      (List.replicate (transactionLen rawData.length sigs.length) 0) with
  | .ok (_, out) => .ok out
  | .error _ => .error .panic

namespace TronTx

variable (tx : TronTx)

def signedLen (signatures : Nat) : Nat := transactionLen tx.rawDataLen signatures

def encodeSignedToSlice (sigs : List TronSignature) (out : Bytes) : Except Error (Nat × Bytes) := do
  let s := putTransaction (SliceSink.new out) tx.writeRaw sigs
  let n ← okOr s.finish .bufferTooSmall
  .ok (n, s.out)

def encodeSigned (sigs : List TronSignature) : Except Trap Bytes :=
  match tx.encodeSignedToSlice sigs (List.replicate (tx.signedLen sigs.length) 0) with
  | .ok (_, out) => .ok out
  | .error _ => .error .panic

end TronTx

/-! ## Parsing -/

/-- Skips a field's value. -/
def skip (wire : Nat) : Read UInt8 Error Unit :=
  match wire with
  | 0 => do
    let _ ← readVarint .unexpectedEof .tooLarge
    return ()
  | 1 => do
    let _ ← take .unexpectedEof 8
    return ()
  | 2 => do
    let _ ← readBytes wire
    return ()
  | 5 => do
    let _ ← take .unexpectedEof 4
    return ()
  | _ => throw .invalidData

/-- What is known of the message while it is parsed: the raw data and the caller's buffer, of
which `count` signatures are filled. -/
structure TransactionState where
  rawData : Option Bytes := none
  sigs : List TronSignature
  count : Nat := 0

def TransactionState.field (s : TransactionState) (number wire : Nat) :
    Read UInt8 Error TransactionState :=
  match number with
  | 1 => do
    require (s.rawData = none) .invalidData
    let rawData ← readBytes wire
    return { s with rawData := some rawData }
  | 2 => do
    let sig ← readBytes wire
    require (s.count < s.sigs.length) .tooLarge
    let sig ← lift (okOr (tryInto 65 sig) .invalidSignature)
    return { s with sigs := s.sigs.set s.count sig, count := s.count + 1 }
  | _ => do
    skip wire
    return s

/-- The raw data, the number of signatures and the buffer they were copied into. -/
def parseTransaction (data : Bytes) (sigs : List TronSignature) :
    Except Error (Bytes × Nat × List TronSignature) := do
  let s ← readMessage TransactionState.field { sigs } data
  let rawData ← okOr s.rawData .invalidData
  .ok (rawData, s.count, s.sigs)

/-! ## What is written -/

/-- The message around raw data. -/
def transactionBytes (rawData : Bytes) (sigs : List TronSignature) : Bytes :=
  messageField 1 rawData ++ sigs.flatMap fun sig => messageField 2 sig.toList

section Writes

variable {write : ∀ {T : Type} [Sink T], T → T} {rawData : Bytes} {sigs : List TronSignature}

theorem signature_ne_nil (sig : TronSignature) : sig.toList ≠ [] := fun h => by
  simpa [h] using sig.toList_length

theorem writes_transaction (h : ∀ {T : Type} [LawfulSink T], Writes (fun s : T => write s) rawData)
    (sigs : List TronSignature) {S : Type} [LawfulSink S] :
    Writes (fun s : S => putTransaction s write sigs) (transactionBytes rawData sigs) := by
  have hfield (sig : TronSignature) : bytesField 2 sig.toList = messageField 2 sig.toList :=
    if_pos (signature_ne_nil sig)
  have hsigs : Writes (fun s : S => putSignatures s sigs)
      (sigs.flatMap fun sig => messageField 2 sig.toList) :=
    Writes.foldl (fun sig => hfield sig ▸ writes_bytes 2 sig.toList) sigs
  exact (writes_message h 1).comp hsigs

theorem varintLen_eq (v : Nat) : varintLen v = (varint v).length :=
  Nat.zero_add (varint v).length

/-- The length formula, whatever the width of the length. -/
theorem length_transactionBytes (rawData : Bytes) (sigs : List TronSignature) :
    (transactionBytes rawData sigs).length = transactionLen rawData.length sigs.length := by
  have hraw : (varint (tagValue 1 wireBytes)).length = 1 := rfl
  have htag : (varint (tagValue 2 wireBytes)).length = 1 := rfl
  have hsig (sig : TronSignature) : (messageField 2 sig.toList).length = 2 + 65 := by
    rw [messageField, List.length_append, List.length_append, htag, sig.toList_length]
    rfl
  have hsigs : (sigs.flatMap fun sig => messageField 2 sig.toList).length =
      sigs.length * (2 + 65) := by
    rw [List.length_flatMap, List.map_congr_left fun sig _ => hsig sig, List.map_const',
      List.sum_replicate, smul_eq_mul]
  rw [transactionBytes, List.length_append, hsigs, messageField, List.length_append,
    List.length_append, hraw, transactionLen, varintLen_eq]
  omega

/-- A message goes into every buffer that it fits. -/
theorem finish_transaction
    (h : ∀ {T : Type} [LawfulSink T], Writes (fun s : T => write s) rawData) (out : Bytes) :
    (do
      let s := putTransaction (SliceSink.new out) write sigs
      let n ← okOr s.finish Error.bufferTooSmall
      .ok (n, s.out)) =
    if transactionLen rawData.length sigs.length ≤ out.length then
      .ok (transactionLen rawData.length sigs.length,
        transactionBytes rawData sigs ++ out.drop (transactionLen rawData.length sigs.length))
    else .error Error.bufferTooSmall := by
  rw [← length_transactionBytes rawData sigs]
  exact SliceSink.slice_of_after ((writes_transaction h sigs).after (SliceSink.new out))

end Writes

theorem transactionToSlice_eq (rawData : Bytes) (sigs : List TronSignature) (out : Bytes) :
    transactionToSlice rawData sigs out =
      if transactionLen rawData.length sigs.length ≤ out.length then
        .ok (transactionLen rawData.length sigs.length,
          transactionBytes rawData sigs ++ out.drop (transactionLen rawData.length sigs.length))
      else .error .bufferTooSmall :=
  finish_transaction (Writes.put rawData) out

/-- The two writers are one. -/
theorem TronTx.encodeSignedToSlice_eq (tx : TronTx) (sigs : List TronSignature) (out : Bytes) :
    tx.encodeSignedToSlice sigs out = transactionToSlice tx.encoding sigs out := by
  rw [transactionToSlice_eq]
  exact finish_transaction tx.writes_raw out

/-! ## What is read -/

/-- A field's value is skipped whatever it is. -/
theorem reads_skip {v : Value} {w : Bytes} (h : v.Spelling w) : Reads (skip v.wire) w () := by
  cases h with
  | varint h => exact (reads_spelled _ _ h).bind_pure fun _ => ()
  | fixed64 b =>
    have hread := (Reads.take Error.unexpectedEof b.toList).bind_pure fun _ => ()
    rwa [b.toList_length] at hread
  | delimited h => exact (reads_delimited h).bind_pure fun _ => ()
  | fixed32 b =>
    have hread := (Reads.take Error.unexpectedEof b.toList).bind_pure fun _ => ()
    rwa [b.toList_length] at hread

/-- A field whose value is read as bytes. -/
theorem reads_value {σ : Type} {b w : Bytes} (h : (Value.delimited b).Spelling w) (set : Bytes → σ) :
    Reads (do
      let b ← readBytes wireBytes
      return set b) w (set b) := by
  cases h with
  | delimited h => exact (reads_delimited h).bind_pure set

namespace TransactionState

variable {s : TransactionState}

theorem reads_rawData {b w : Bytes} (h : (Value.delimited b).Spelling w) (hnone : s.rawData = none) :
    Reads (s.field 1 wireBytes) w { s with rawData := some b } :=
  Reads.require hnone _ (reads_value h fun b => ({ s with rawData := some b } : TransactionState))

theorem reads_signature {sig : TronSignature} {w : Bytes} (h : (Value.delimited sig.toList).Spelling w)
    (hroom : s.count < s.sigs.length) :
    Reads (s.field 2 wireBytes) w { s with sigs := s.sigs.set s.count sig, count := s.count + 1 } := by
  cases h with
  | @delimited _ w h =>
    have hinto : okOr (tryInto 65 sig.toList) Error.invalidSignature = .ok sig :=
      okOr_eq_ok.mpr (tryInto_eq_some.mpr rfl)
    intro r pos
    refine (run_bind_of (reads_delimited h r pos)).trans ?_
    rw [run_require_bind hroom, run_lift_bind hinto]
    rfl

theorem reads_other {f : Field} {w : Bytes} (h : f.value.Spelling w) (hone : f.number ≠ 1)
    (htwo : f.number ≠ 2) : Reads (s.field f.number f.value.wire) w s := by
  have hfield : s.field f.number f.value.wire = (do
      skip f.value.wire
      return s) := by
    unfold field
    split
    · exact absurd ‹f.number = 1› hone
    · exact absurd ‹f.number = 2› htwo
    · rfl
  rw [hfield]
  exact (reads_skip h).bind_pure fun _ => s

end TransactionState

/-- Fields that hold raw data once, signatures in order, and anything else. -/
structure Carries (fields : List Field) (rawData : Option Bytes) (sigs : List TronSignature) : Prop where
  numbers : ∀ f ∈ fields, 0 < f.number ∧ f.number < 2 ^ 32
  rawData : fields.filter (·.number = 1) = rawData.toList.map fun b => ⟨1, .delimited b⟩
  sigs : fields.filter (·.number = 2) = sigs.map fun sig => ⟨2, .delimited sig.toList⟩

/-- The state after fields that carry raw data and signatures. -/
def TransactionState.after (s : TransactionState) (rawData : Option Bytes)
    (sigs : List TronSignature) : TransactionState where
  rawData := s.rawData.or rawData
  sigs := s.sigs.take s.count ++ (sigs ++ s.sigs.drop (s.count + sigs.length))
  count := s.count + sigs.length

theorem feeds_field {s s' : TransactionState} {f : Field} {b : Bytes} (h : f.Spelling b)
    (hnumber : 0 < f.number ∧ f.number < 2 ^ 32)
    (hstep : ∀ w, f.value.Spelling w → Reads (s.field f.number f.value.wire) w s') :
    Feeds readTag TransactionState.field b s s' := by
  obtain ⟨t, w, ht, hw, rfl⟩ := h
  exact feeds_spelled hnumber f.value.wire_lt ht (hstep w hw)

/-- The fields of a message, from any state that has room for what they carry. -/
theorem feeds_fields {fields : List Field} {data : Bytes} (h : MessageSpelling fields data)
    {rawData : Option Bytes} {sigs : List TronSignature} (hcarries : Carries fields rawData sigs)
    {s : TransactionState} (hnone : rawData ≠ none → s.rawData = none)
    (hroom : s.count + sigs.length ≤ s.sigs.length) :
    Feeds readTag TransactionState.field data s (s.after rawData sigs) := by
  induction h generalizing s rawData sigs with
  | nil =>
    obtain ⟨-, hraw, hsigs⟩ := hcarries
    obtain rfl : rawData = none := by
      cases rawData with
      | none => rfl
      | some b => cases hraw
    obtain rfl : sigs = [] := (List.map_eq_nil_iff.mp hsigs.symm)
    have hafter : s.after none [] = s := by
      simp [TransactionState.after, Option.or_none]
    rw [hafter]
    exact Feeds.nil s
  | @cons f fs b c hf hfs ih =>
    obtain ⟨hnumbers, hraw, hsigs⟩ := hcarries
    obtain ⟨hnumber, hlater⟩ := List.forall_mem_cons.mp hnumbers
    by_cases hone : f.number = 1
    · -- the raw data
      rw [List.filter_cons_of_pos (by simpa using hone)] at hraw
      rw [List.filter_cons_of_neg (by simp [hone])] at hsigs
      cases rawData with
      | none => cases hraw
      | some raw =>
        obtain ⟨rfl, hrest⟩ := List.cons.inj hraw
        have hs : s.rawData = none := hnone (by simp)
        have hhead := feeds_field hf hnumber fun w hw => TransactionState.reads_rawData hw hs
        have hothers : Carries fs none sigs := ⟨hlater, hrest, hsigs⟩
        have htail := ih hothers (fun h => absurd rfl h)
          (s := { s with rawData := some raw }) hroom
        have hafter : TransactionState.after { s with rawData := some raw } none sigs =
            s.after (some raw) sigs := by
          simp [TransactionState.after, hs]
        rw [hafter] at htail
        exact hhead.append htail
    · rw [List.filter_cons_of_neg (by simpa using hone)] at hraw
      by_cases htwo : f.number = 2
      · -- the next signature
        rw [List.filter_cons_of_pos (by simpa using htwo)] at hsigs
        cases sigs with
        | nil => cases hsigs
        | cons sig sigs =>
          obtain ⟨rfl, hrest⟩ := List.cons.inj hsigs
          rw [List.length_cons] at hroom
          have hslot : s.count < s.sigs.length := by omega
          have hhead := feeds_field hf hnumber fun w hw => TransactionState.reads_signature hw hslot
          have htail := ih ⟨hlater, hraw, hrest⟩
            (s := { s with sigs := s.sigs.set s.count sig, count := s.count + 1 }) hnone
            (by rw [List.length_set]; dsimp only; omega)
          have hafter : TransactionState.after
              { s with sigs := s.sigs.set s.count sig, count := s.count + 1 } rawData sigs =
              s.after rawData (sig :: sigs) := by
            have hcount : s.count + 1 + sigs.length = s.count + (sigs.length + 1) := by omega
            have htake : (s.sigs.set s.count sig).take (s.count + 1) = s.sigs.take s.count ++ [sig] := by
              rw [List.take_succ_eq_append_getElem (by rwa [List.length_set]), List.getElem_set_self,
                List.take_set_of_le le_rfl]
            simp only [TransactionState.after, List.length_cons, hcount, htake, List.append_assoc,
              List.cons_append, List.nil_append]
            rw [List.drop_set_of_lt (by omega)]
          rw [hafter] at htail
          exact hhead.append htail
      · -- a field to skip
        rw [List.filter_cons_of_neg (by simpa using htwo)] at hsigs
        have hhead : Feeds readTag TransactionState.field b s s :=
          feeds_field hf hnumber fun w hw => TransactionState.reads_other hw hone htwo
        exact hhead.append (ih ⟨hlater, hraw, hsigs⟩ hnone hroom)

theorem spelling_messageField {number : Nat} {b : Bytes} (hnumber : number < 2 ^ 32)
    (hlen : b.length < 2 ^ 64) : Field.Spelling ⟨number, .delimited b⟩ (messageField number b) := by
  have htag := spelled_varint (tagValue_lt hnumber (by decide : wireBytes < 8))
  exact ⟨_, _, htag, .delimited (spelled_varint hlen), rfl⟩

theorem spelling_signatures (sigs : List TronSignature) :
    MessageSpelling (sigs.map fun sig => ⟨2, .delimited sig.toList⟩)
      (sigs.flatMap fun sig => messageField 2 sig.toList) := by
  induction sigs with
  | nil => exact .nil
  | cons sig sigs ih =>
    have hlen : sig.toList.length < 2 ^ 64 := by
      rw [sig.toList_length]
      decide
    exact .cons (spelling_messageField (by decide) hlen) ih

/-- What is written is a message that carries the raw data and the signatures. -/
theorem carries_transactionBytes {rawData : Bytes} (hlen : rawData.length < 2 ^ 64)
    (sigs : List TronSignature) :
    ∃ fields, MessageSpelling fields (transactionBytes rawData sigs) ∧
      Carries fields (some rawData) sigs := by
  refine ⟨_, .cons (spelling_messageField (by decide) hlen) (spelling_signatures sigs), ?_, ?_, ?_⟩
  · intro f hf
    rcases List.mem_cons.mp hf with rfl | hf
    · exact ⟨Nat.one_pos, (by decide : 1 < 2 ^ 32)⟩
    · obtain ⟨sig, -, rfl⟩ := List.mem_map.mp hf
      exact ⟨Nat.two_pos, (by decide : 2 < 2 ^ 32)⟩
  · simp [List.filter_map, Function.comp_def]
  · simp [List.filter_map, Function.comp_def]

/-- A message gives back the raw data and the signatures that its fields carry. -/
theorem parseTransaction_of_carries {fields : List Field} {data rawData : Bytes}
    {sigs slots : List TronSignature} (h : MessageSpelling fields data)
    (hcarries : Carries fields (some rawData) sigs) (hroom : sigs.length ≤ slots.length) :
    parseTransaction data slots = .ok (rawData, sigs.length, sigs ++ slots.drop sigs.length) := by
  have hfeeds := feeds_fields h hcarries (s := { sigs := slots }) (fun _ => rfl)
    (by rwa [Nat.zero_add])
  rw [parseTransaction, readMessage_of_feeds hfeeds, ok_bind]
  simp [TransactionState.after]

/-- What is written is read back. -/
theorem parseTransaction_transactionBytes {rawData : Bytes} (hlen : rawData.length < 2 ^ 64)
    {sigs slots : List TronSignature} (hroom : sigs.length ≤ slots.length) :
    parseTransaction (transactionBytes rawData sigs) slots =
      .ok (rawData, sigs.length, sigs ++ slots.drop sigs.length) := by
  obtain ⟨fields, h, hcarries⟩ := carries_transactionBytes hlen sigs
  exact parseTransaction_of_carries h hcarries hroom

/-- The two writers write one message, of the length computed beforehand, around the raw data; and
a message with any other fields in any order gives back the raw data and the signatures in it. -/
theorem wrapping_faithful :
    (∀ (tx : TronTx) (sigs : List TronSignature) (out : Bytes), ∃ raw, tx.rawData = .ok raw ∧
      raw.length = tx.rawDataLen ∧
      tx.encodeSignedToSlice sigs out = transactionToSlice raw sigs out ∧
      (transactionBytes raw sigs).length = transactionLen tx.rawDataLen sigs.length ∧
      transactionToSlice raw sigs out =
        if transactionLen tx.rawDataLen sigs.length ≤ out.length then
          .ok (transactionLen tx.rawDataLen sigs.length,
            transactionBytes raw sigs ++ out.drop (transactionLen tx.rawDataLen sigs.length))
        else .error .bufferTooSmall) ∧
    ∀ {fields : List Field} {data raw : Bytes} {sigs slots : List TronSignature},
      MessageSpelling fields data → Carries fields (some raw) sigs → sigs.length ≤ slots.length →
        parseTransaction data slots = .ok (raw, sigs.length, sigs ++ slots.drop sigs.length) := by
  constructor
  · intro tx sigs out
    rw [tx.rawDataLen_eq]
    exact ⟨tx.encoding, tx.rawData_eq, rfl, tx.encodeSignedToSlice_eq sigs out,
      length_transactionBytes _ _, transactionToSlice_eq _ _ _⟩
  · intro fields data raw sigs slots h hcarries hroom
    exact parseTransaction_of_carries h hcarries hroom

def sampleSignature : TronSignature := ⟨List.replicate 65 7, rfl⟩

/-- A flag that a node attached, with a byte more than it needs. -/
def sampleFlag : Bytes := [0x18, 0x81, 0x00]

theorem spelling_sampleFlag : Field.Spelling ⟨3, .varint 1⟩ sampleFlag := by
  have htag : Spelled (tagValue 3 wireVarint) [0x18] := ⟨.last (by decide), by decide, by decide⟩
  have hvalue : Spelled 1 [0x81, 0x00] :=
    ⟨@Protobuf.Spells.more 1 0 _ (by decide) (.last (by decide)), by decide, by decide⟩
  exact ⟨_, _, htag, .varint hvalue, rfl⟩

theorem wrapping_faithful_sample :
    parseTransaction (messageField 2 sampleSignature.toList ++ (sampleFlag ++ (messageField 1 [0xff] ++ [])))
      [sampleSignature] = .ok ([0xff], 1, [sampleSignature]) := by
  have hsig : Field.Spelling ⟨2, .delimited sampleSignature.toList⟩
      (messageField 2 sampleSignature.toList) := spelling_messageField (by decide) (by decide)
  have hraw : Field.Spelling ⟨1, .delimited [0xff]⟩ (messageField 1 [0xff]) :=
    spelling_messageField (by decide) (by decide)
  have hcarries : Carries [⟨2, .delimited sampleSignature.toList⟩, ⟨3, .varint 1⟩,
      ⟨1, .delimited [0xff]⟩] (some [0xff]) [sampleSignature] :=
    ⟨by simp, by simp, by simp⟩
  exact wrapping_faithful.2 (.cons hsig (.cons spelling_sampleFlag (.cons hraw .nil))) hcarries le_rfl

end Outscript.Tron
