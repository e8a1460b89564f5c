import Outscript.Btc.Sighash
import Outscript.Psbt.Utxo

/-!
# Creating a PSBT

The creator wraps a transaction without scripts and witnesses. The view of the
PSBT it writes shows that transaction, so every signature hash computed from
the view is the one of the transaction.
-/
namespace Outscript.Psbt

open ByteString Cursor Fallible

def UnsignedTx.source (tx : UnsignedTx) : TxSource :=
  ⟨tx.version, tx.locktime, tx.layout.inputCount, tx.inputs, tx.outputs⟩

def create {S : Type} [Sink S] (tx : RawTx) (s : S) : Except Error S :=
  if tx.inputs.any fun i => i.scriptSig ≠ [] || i.witness ≠ [] then .error .invalidUnsignedTx
  else
    let s := Outscript.putVarint (Sink.put s magic) 1
    let s := Outscript.putVarint (Sink.put s [UInt8.ofNat Global.unsignedTx]) tx.serializedLen
    let s := Sink.put (tx.writeUnsigned s) [0x00]
    .ok ((List.range (tx.inputs.length + tx.outputs.length)).foldl (fun s _ => Sink.put s [0x00]) s)

/-- Writes a new PSBT into `out` and checks it: the number of bytes written, and
the buffer. -/
def createToSlice (C : Purecrypto) (tx : RawTx) (out : Bytes) : Except Error (Nat × Bytes) := do
  let sink ← create tx (SliceSink.new out)
  let n ← okOr sink.finish .bufferTooSmall
  let _ ← parse C (sink.out.take n)
  .ok (n, sink.out)

/-- The size of the PSBT that is written. -/
def createLen (tx : RawTx) : Except Error Nat := do
  let c ← create tx ({} : Counter)
  .ok c.count

/-! ## The transaction as a value -/

def wireIn (i : RawTxIn) : WireIn :=
  ⟨⟨i.outpoint, by simp [RawTxIn.outpoint, le32]⟩, i.scriptSig, i.sequence.toNat⟩

def wireOut (o : RawTxOut) : WireOut := ⟨o.amount.toNat, o.script⟩

def wireTx (tx : RawTx) : WireTx where
  version := tx.version.toNat
  segwit := false
  inputs := tx.inputs.map wireIn
  outputs := tx.outputs.map wireOut
  witnesses := []
  locktime := tx.locktime.toNat

theorem raw_wireOut (o : RawTxOut) : (wireOut o).raw = o := by
  rw [wireOut, WireOut.raw, UInt64.ofNat_toNat]

theorem raw_wireIn (i : RawTxIn) : (wireIn i).raw i.witness = i := by
  have htxid : (wireIn i).txid = i.txid.reverse := by
    apply Subtype.ext
    exact List.take_left' i.txid.reverse.2
  have hvout : UInt32.ofNat (leVal ((wireIn i).outpoint.toList.drop 32)) = i.vout := by
    have hdrop : (wireIn i).outpoint.toList.drop 32 = le32 i.vout :=
      List.drop_left' i.txid.reverse.2
    have hval : leVal (le32 i.vout) = i.vout.toNat := leVal_le_of_lt i.vout.toNat_lt
    rw [hdrop, hval, UInt32.ofNat_toNat]
  have hseq : UInt32.ofNat (wireIn i).sequence = i.sequence := UInt32.ofNat_toNat
  rw [WireIn.raw, htxid, hvout, hseq, List.Vector.reverse_reverse]
  rfl

theorem encode_wireTx (tx : RawTx) : (wireTx tx).encode = tx.encoding false := by
  rw [WireTx.encode, WireTx.inputBytes, WireTx.outputBytes, RawTx.encoding]
  simp only [wireTx, List.length_map, List.flatMap_map]
  rfl

theorem length_le_flatMap {α : Type} {enc : α → Bytes} (h : ∀ a, enc a ≠ []) (l : List α) :
    l.length ≤ (l.flatMap enc).length := by
  induction l with
  | nil => exact le_rfl
  | cons a l ih =>
    have hpos := List.length_pos_iff.mpr (h a)
    rw [List.flatMap_cons, List.length_append, List.length_cons]
    omega

theorem length_le_flatMap_of_mem {α : Type} (enc : α → Bytes) {l : List α} {a : α} (h : a ∈ l) :
    (enc a).length ≤ (l.flatMap enc).length := by
  obtain ⟨s, t, rfl⟩ := List.append_of_mem h
  simp only [List.flatMap_append, List.flatMap_cons, List.length_append]
  omega

/-- The length of the whole bounds every length in it. -/
theorem canonical_wireTx {tx : RawTx} (h : (tx.encoding false).length < 2 ^ 64) :
    (wireTx tx).Canonical false := by
  rw [← encode_wireTx] at h
  have hin (i : WireIn) : WireIn.encode i ≠ [] := by
    intro hnil
    have hlen := congrArg List.length hnil
    simp [WireIn.encode] at hlen
  have hout (o : WireOut) : WireOut.encode o ≠ [] := by
    intro hnil
    have hlen := congrArg List.length hnil
    simp [WireOut.encode] at hlen
  have hinputs := length_le_flatMap hin (wireTx tx).inputs
  have houtputs := length_le_flatMap hout (wireTx tx).outputs
  have hsum : (wireTx tx).encode.length = 4 + ((wireTx tx).inputBytes.length +
      ((wireTx tx).outputBytes.length + 4)) := by
    simp only [WireTx.encode, List.length_append, length_le]
    simp [WireTx.marker, WireTx.witnessBytes, wireTx]
  simp only [WireTx.inputBytes, WireTx.outputBytes, List.length_append] at hsum
  constructor
  · constructor
    · exact tx.version.toNat_lt
    · exact tx.locktime.toNat_lt
    · omega
    · omega
    · intro i hi
      have hle := length_le_flatMap_of_mem WireIn.encode hi
      obtain ⟨j, -, rfl⟩ := List.mem_map.mp hi
      refine ⟨?_, j.sequence.toNat_lt⟩
      have hscript : (wireIn j).scriptSig.length ≤ (wireIn j).encode.length := by
        simp only [WireIn.encode, varBytesOf, List.length_append]
        omega
      omega
    · intro o ho
      have hle := length_le_flatMap_of_mem WireOut.encode ho
      obtain ⟨j, -, rfl⟩ := List.mem_map.mp ho
      refine ⟨j.amount.toNat_lt, ?_⟩
      have hscript : (wireOut j).script.length ≤ (wireOut j).encode.length := by
        simp only [WireOut.encode, varBytesOf, List.length_append]
        omega
      omega
    · intro w hw
      cases hw
  · intro hseg
    cases hseg
  · intro _
    exact ⟨rfl, by rintro ⟨⟩⟩

/-! ## The PSBT of a transaction -/

def createdDoc (tx : RawTx) : Doc where
  globals := [⟨[0], tx.encoding false⟩]
  inputs := tx.inputs.map fun _ => []
  outputs := tx.outputs.map fun _ => []

def createdTx (tx : RawTx) : UnsignedTx := ⟨tx.encoding false, (wireTx tx).layout false⟩

/-- No scriptSig and no witness. -/
def Unsigned (tx : RawTx) : Prop := ∀ i ∈ tx.inputs, i.scriptSig = [] ∧ i.witness = []

theorem validRecords_nil (C : Purecrypto) (kind : MapKind) : ValidRecords C kind [] :=
  ⟨by simp, by simp, by simp⟩

theorem createdDoc_valid (C : Purecrypto) {tx : RawTx} (h : Unsigned tx)
    (hlen : (tx.encoding false).length < 2 ^ 64) : (createdDoc tx).Valid C (createdTx tx) := by
  constructor
  · refine ⟨?_, List.nodup_singleton _, ?_⟩
    · intro r hr
      obtain rfl := List.mem_singleton.mp hr
      exact ⟨(by decide : 1 < 2 ^ 64), hlen, 0, [], by decide, rfl⟩
    · intro r hr
      obtain rfl := List.mem_singleton.mp hr
      rfl
  · intro recs hrecs
    obtain ⟨i, -, rfl⟩ := List.mem_map.mp hrecs
    exact validRecords_nil C .input
  · intro recs hrecs
    obtain ⟨o, -, rfl⟩ := List.mem_map.mp hrecs
    exact validRecords_nil C .output
  · rfl
  · have hparse : TxLayout.parse (tx.encoding false) false = .ok ((wireTx tx).layout false) :=
      TxLayout.parse_eq_ok.mpr ⟨wireTx tx, canonical_wireTx hlen, (encode_wireTx tx).symm, rfl⟩
    have hunsigned : ((wireTx tx).layout false).unsigned = true := by
      change (tx.inputs.map wireIn).all _ = true
      rw [List.all_map]
      exact List.all_eq_true.mpr fun i hi => decide_eq_true (h i hi).1
    change unsignedLayout (tx.encoding false) = _
    rw [unsignedLayout, hparse]
    exact if_pos hunsigned
  · simp [createdDoc, createdTx, WireTx.layout, wireTx]
  · simp [createdDoc, createdTx, WireTx.layout, wireTx]

theorem hasWitness_of_unsigned {tx : RawTx} (h : Unsigned tx) : tx.hasWitness = false := by
  rw [RawTx.hasWitness, List.any_eq_false]
  intro i hi
  simp [(h i hi).2]

theorem create_of_unsigned {tx : RawTx} (h : Unsigned tx) {S : Type} [LawfulSink S] (s : S) :
    ∃ s', create tx s = .ok s' ∧ LawfulSink.After s (createdDoc tx).encode s' := by
  have hnone : ¬ (tx.inputs.any fun i => i.scriptSig ≠ [] || i.witness ≠ []) = true := by
    rw [List.any_eq_true]
    rintro ⟨i, hi, hne⟩
    simp [h i hi] at hne
  have hlen : tx.serializedLen = (tx.encoding false).length := by
    rw [RawTx.serializedLen_eq, hasWitness_of_unsigned h]
  have hzeros : Writes (fun s : S =>
      (List.range (tx.inputs.length + tx.outputs.length)).foldl (fun s _ => Sink.put s [0x00]) s)
      ((List.range (tx.inputs.length + tx.outputs.length)).flatMap fun _ => [0x00]) :=
    Writes.foldl (fun _ => Writes.put [0x00]) _
  have hwrites := (Writes.put (S := S) magic).comp ((Writes.put (BtcVarInt.toArray 1)).comp
    ((Writes.put [UInt8.ofNat Global.unsignedTx]).comp
      ((Writes.put (BtcVarInt.toArray tx.serializedLen)).comp ((tx.writes_write false).comp
        ((Writes.put [0x00]).comp hzeros)))))
  have hbytes : (createdDoc tx).encode = magic ++ (BtcVarInt.toArray 1 ++
      ([UInt8.ofNat Global.unsignedTx] ++ (BtcVarInt.toArray tx.serializedLen ++
        (tx.encoding false ++ ([0x00] ++ (List.range (tx.inputs.length + tx.outputs.length)).flatMap
          fun _ => [0x00]))))) := by
    have hmaps : (createdDoc tx).mapBytes =
        (List.range (tx.inputs.length + tx.outputs.length)).flatMap fun _ => [0x00] := by
      have hreplicate : ∀ n, (List.range n).flatMap (fun _ => ([0x00] : Bytes)) =
          List.replicate n 0x00 := by
        intro n
        rw [List.flatMap_def, List.map_const', List.length_range]
        simp
      rw [hreplicate, List.replicate_add]
      simp [Doc.mapBytes, createdDoc, encodeMap, List.flatMap_def, List.map_const']
    rw [Doc.encode, hmaps, hlen, createdDoc, encodeMap]
    simp [encodeRecords, Record.encode, varBytesOf, putVarint, Global.unsignedTx]
  refine ⟨_, if_neg hnone, ?_⟩
  rw [hbytes]
  exact hwrites.after s

/-- A parsed PSBT shows as many inputs as its transaction counts. -/
theorem lawful_source_of_parse {C : Purecrypto} {bytes : Bytes} {p : View}
    (h : parse C bytes = .ok p) : p.tx.source.Lawful := by
  obtain ⟨doc, hv, -⟩ := parse_eq_ok.mp h
  obtain ⟨u, hu, hbytes, hlayout⟩ := hv.exists_unsigned
  change p.tx.layout.inputCount = (txInputs p.tx.bytes p.tx.layout).length
  rw [hbytes, hlayout, WireTx.txInputs_encode hu.toFits, List.length_map]
  rfl

/-- The view of a created PSBT shows the transaction it was created from. -/
theorem source_createdTx {tx : RawTx} (h : Unsigned tx) (hlen : (tx.encoding false).length < 2 ^ 64) :
    (createdTx tx).source = tx.source := by
  have hc := canonical_wireTx hlen
  have hversion : (createdTx tx).version = tx.version := by
    have hval : leVal (le 4 tx.version.toNat) = tx.version.toNat :=
      leVal_le_of_lt tx.version.toNat_lt
    rw [UnsignedTx.version, createdTx, ← encode_wireTx, WireTx.take_encode]
    exact (congrArg UInt32.ofNat hval).trans UInt32.ofNat_toNat
  have hlock : (createdTx tx).locktime = tx.locktime := by
    have hval : leVal (le 4 tx.locktime.toNat) = tx.locktime.toNat :=
      leVal_le_of_lt tx.locktime.toNat_lt
    rw [UnsignedTx.locktime, createdTx, ← encode_wireTx, WireTx.drop_encode]
    exact (congrArg UInt32.ofNat hval).trans UInt32.ofNat_toNat
  have hinputs : (createdTx tx).inputs = tx.inputs := by
    have hraw : ∀ i ∈ tx.inputs, (wireIn i).raw [] = i := by
      intro i hi
      have hi' := raw_wireIn i
      rwa [(h i hi).2] at hi'
    rw [UnsignedTx.inputs, createdTx, ← encode_wireTx, WireTx.txInputs_encode hc.toFits]
    change (tx.inputs.map wireIn).map _ = _
    rw [List.map_map]
    exact (List.map_congr_left hraw).trans (List.map_id' _)
  have houtputs : (createdTx tx).outputs = tx.outputs := by
    rw [UnsignedTx.outputs, createdTx, ← encode_wireTx, WireTx.txOutputs_encode hc]
    change (tx.outputs.map wireOut).map _ = _
    rw [List.map_map]
    exact List.map_id'' raw_wireOut _
  rw [UnsignedTx.source, hversion, hlock, hinputs, houtputs, RawTx.source]
  simp [createdTx, WireTx.layout, wireTx]

theorem txid_createdTx (H : Hashes) (tx : RawTx) : (createdTx tx).txid H = tx.txid H := by
  rw [UnsignedTx.txid, createdTx, ← encode_wireTx, WireTx.txTxid_encode, RawTx.txid_eq,
    ← encode_wireTx, WireTx.encode]
  rfl

/-- A PSBT that is created in a buffer of its size shows the transaction it was
created from, so every digest computed from the view is that of the transaction. -/
theorem create_presents_transaction (C : Purecrypto) (H : Hashes) {tx : RawTx} (h : Unsigned tx) :
    ∃ n, createLen tx = .ok n ∧ ∀ out : Bytes, out.length = n → n < 2 ^ 64 →
      ∃ psbt p, createToSlice C tx out = .ok (n, psbt) ∧ parse C psbt = .ok p ∧
        p.tx.version = tx.version ∧ p.tx.locktime = tx.locktime ∧
        p.tx.inputs = tx.inputs ∧ p.tx.outputs = tx.outputs ∧ p.tx.txid H = tx.txid H ∧
        (∀ index code hashType, legacySighashOf H p.tx.source index code hashType =
          legacySighashOf H tx.source index code hashType) ∧
        segwitV0MidstateOf H p.tx.source = segwitV0MidstateOf H tx.source ∧
        (∀ prevouts, taprootMidstateOf H p.tx.source prevouts =
          taprootMidstateOf H tx.source prevouts) ∧
        (∀ mid index prevout opts, taprootSighashOf H p.tx.source mid index prevout opts =
          taprootSighashOf H tx.source mid index prevout opts) ∧
        ∀ mid index prevout hashType spend,
          unifiedSighashOf H p.tx.source mid index prevout hashType spend =
            unifiedSighashOf H tx.source mid index prevout hashType spend := by
  refine ⟨(createdDoc tx).encode.length, ?_, ?_⟩
  · obtain ⟨c, hc, hafter⟩ := create_of_unsigned h ({} : Counter)
    have hcount : c.count = 0 + (createdDoc tx).encode.length := hafter
    rw [createLen, hc, ok_bind, hcount, Nat.zero_add]
  · intro out hout hlt
    obtain ⟨sink, hsink, hafter⟩ := create_of_unsigned h (SliceSink.new out)
    have hfinish := SliceSink.finish_new hafter
    rw [if_pos hout.ge, List.drop_eq_nil_of_le hout.le, List.append_nil] at hfinish
    have hlen : (tx.encoding false).length < 2 ^ 64 := by
      have hglobal : (tx.encoding false).length ≤ (createdDoc tx).encode.length := by
        simp only [Doc.encode, createdDoc, encodeMap, encodeRecords, Record.encode, varBytesOf,
          List.flatMap_cons, List.flatMap_nil, List.length_append]
        omega
      omega
    have hparse := (createdDoc_valid C h hlen).parse_encode
    have hsource := source_createdTx h hlen
    refine ⟨(createdDoc tx).encode, (createdDoc tx).view (createdTx tx), ?_, hparse, ?_⟩
    · rw [createToSlice, hsink, ok_bind, hfinish.1, okOr_some, ok_bind, hfinish.2, List.take_length,
        hparse]
      rfl
    · have hview : ((createdDoc tx).view (createdTx tx)).tx = createdTx tx := rfl
      rw [hview, hsource]
      exact ⟨congrArg TxSource.version hsource, congrArg TxSource.locktime hsource,
        congrArg TxSource.inputs hsource, congrArg TxSource.outputs hsource, txid_createdTx H tx,
        fun _ _ _ => rfl, rfl, fun _ => rfl, fun _ _ _ _ => rfl, fun _ _ _ _ _ => rfl⟩

/-- No inputs, and an output. -/
theorem create_presents_transaction_sample :
    ∃ n, createLen ⟨2, [], [⟨5000, [0x51]⟩], 0⟩ = .ok n ∧
      ∀ out : Bytes, out.length = n → n < 2 ^ 64 →
        ∃ psbt p, createToSlice Purecrypto.blank ⟨2, [], [⟨5000, [0x51]⟩], 0⟩ out = .ok (n, psbt) ∧
          parse Purecrypto.blank psbt = .ok p ∧ p.tx.outputs = [⟨5000, [0x51]⟩] := by
  have hunsigned : Unsigned ⟨2, [], [⟨5000, [0x51]⟩], 0⟩ := fun i hi => nomatch hi
  obtain ⟨n, hn, hall⟩ := create_presents_transaction Purecrypto.blank Purecrypto.blank.toHashes hunsigned
  refine ⟨n, hn, fun out hout hlt => ?_⟩
  obtain ⟨psbt, p, hwrite, hparse, -, -, -, houtputs, -⟩ := hall out hout hlt
  exact ⟨psbt, p, hwrite, hparse, houtputs⟩

end Outscript.Psbt
