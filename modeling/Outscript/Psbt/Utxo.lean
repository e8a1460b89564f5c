import Outscript.Btc.Tx
import Outscript.Psbt.Extract

/-!
# Reading a scanned transaction

The scanner keeps offsets, and the inputs, outputs and id of a transaction are
read again from its bytes at those offsets. The transaction reader builds the
same transaction from every encoding that the scanner accepts, within its own
limits.
-/
namespace Outscript.Psbt

open ByteString Cursor Fallible

def readTxIn : Reader RawTxIn := do
  let txid ← takeVec .unexpectedEof 32
  let vout ← Reader.u32
  let scriptSig ← Reader.varBytes
  let sequence ← Reader.u32
  return { txid := txid.reverse, vout := UInt32.ofNat vout, scriptSig
           sequence := UInt32.ofNat sequence, witness := [] }

def readTxOut : Reader RawTxOut := do
  let amount ← Reader.u64
  let script ← Reader.varBytes
  return { amount := UInt64.ofNat amount, script }

/-- The inputs of a validated transaction. -/
def txInputs (bytes : Bytes) (layout : TxLayout) : List RawTxIn :=
  match Reader.varint.run (seek bytes layout.inputsAt) with
  | .ok (count, c) => readWhile readTxIn count c
  | .error _ => []

/-- The outputs of a validated transaction; their count stands before the first. -/
def txOutputs (bytes : Bytes) (layout : TxLayout) : List RawTxOut :=
  match Reader.varint.run (seek bytes layout.outputsAt) with
  | .ok (_, c) => readWhile readTxOut layout.outputCount c
  | .error _ => []

/-- The txid of a validated transaction (witness data excluded). -/
def txTxid (H : Hashes) (bytes : Bytes) (layout : TxLayout) : ByteVec 32 :=
  (H.dsha256 (bytes.take 4 ++ ((bytes.take layout.outputsEnd).drop layout.inputsAt ++
    bytes.drop (bytes.length - 4)))).reverse

namespace UnsignedTx

variable (tx : UnsignedTx)

def version : UInt32 := UInt32.ofNat (leVal (tx.bytes.take 4))

def locktime : UInt32 := UInt32.ofNat (leVal (tx.bytes.drop (tx.bytes.length - 4)))

def inputs : List RawTxIn := txInputs tx.bytes tx.layout

def outputs : List RawTxOut := txOutputs tx.bytes tx.layout

def txid (H : Hashes) : ByteVec 32 := txTxid H tx.bytes tx.layout

end UnsignedTx

/-- The output spent by input `index`, from its non-witness UTXO (checked against
the outpoint's txid) or witness UTXO. -/
def View.utxo (H : Hashes) (p : View) (index : Nat) : Except Error RawTxOut := do
  let inp ← okOr (p.input index) .inputIndex
  let outpoint ← okOr p.tx.inputs[index]? .inputIndex
  match PsbtInput.nonWitnessUtxo inp with
  | some prev => do
    let layout ← TxLayout.parse prev true
    if txTxid H prev layout ≠ outpoint.txid then .error .utxoTxidMismatch
    else okOr (txOutputs prev layout)[outpoint.vout.toNat]? .invalidRecordValue
  | none =>
    okOr ((PsbtInput.witnessUtxo inp).map fun o => ⟨UInt64.ofNat o.amount, o.script⟩) .missingUtxo

/-! ## What is read from an encoding -/

/-- The txid of an outpoint, in the order of the wire. -/
def WireIn.txid (i : WireIn) : ByteVec 32 := ⟨i.outpoint.toList.take 32, by simp⟩

def WireIn.raw (i : WireIn) (witness : List Bytes) : RawTxIn where
  txid := i.txid.reverse
  vout := UInt32.ofNat (leVal (i.outpoint.toList.drop 32))
  scriptSig := i.scriptSig
  sequence := UInt32.ofNat i.sequence
  witness := witness

def WireOut.raw (o : WireOut) : RawTxOut := ⟨UInt64.ofNat o.amount, o.script⟩

theorem le32_ofNat {v : Nat} (h : v < 256 ^ 4) : le32 (UInt32.ofNat v) = le 4 v := by
  rw [le32, UInt32.toNat_ofNat_of_lt' (by simpa using h)]

theorem le64_ofNat {v : Nat} (h : v < 256 ^ 8) : le64 (UInt64.ofNat v) = le 8 v := by
  rw [le64, UInt64.toNat_ofNat_of_lt' (by simpa using h)]

theorem WireIn.outpoint_raw (i : WireIn) (w : List Bytes) : (i.raw w).outpoint = i.outpoint.toList := by
  have hdrop : (i.outpoint.toList.drop 32).length = 4 := by simp
  have hle := le_leVal (i.outpoint.toList.drop 32)
  have hlt := leVal_lt (i.outpoint.toList.drop 32)
  rw [hdrop] at hle hlt
  change i.txid.reverse.reverse.toList ++ le32 (UInt32.ofNat _) = _
  rw [List.Vector.reverse_reverse, le32_ofNat hlt, hle]
  exact List.take_append_drop 32 _

theorem WireIn.encode_raw {i : WireIn} (hi : i.Fits) (w : List Bytes) : (i.raw w).encode = i.encode := by
  rw [RawTxIn.encode, WireIn.outpoint_raw, WireIn.encode]
  change _ ++ (varSlice i.scriptSig ++ le32 (UInt32.ofNat i.sequence)) = _
  rw [le32_ofNat hi.2]
  rfl

theorem WireOut.encode_raw {o : WireOut} (ho : o.Fits) : o.raw.encode = o.encode := by
  change le64 (UInt64.ofNat o.amount) ++ varSlice o.script = _
  rw [le64_ofNat ho.1]
  rfl

theorem reads_txIn {i : WireIn} (hi : i.Fits) : Reads readTxIn i.encode (i.raw []) := by
  have hdrop : (i.outpoint.toList.drop 32).length = 4 := by simp
  have hle := le_leVal (i.outpoint.toList.drop 32)
  have hlt := leVal_lt (i.outpoint.toList.drop 32)
  rw [hdrop] at hle hlt
  have hvout := decodes_u32.reads hlt
  rw [hle] at hvout
  have hsplit : i.encode = i.txid.toList ++ (i.outpoint.toList.drop 32 ++
      (varBytesOf i.scriptSig ++ le 4 i.sequence)) := by
    rw [← List.append_assoc]
    change _ = (i.outpoint.toList.take 32 ++ _) ++ _
    rw [List.take_append_drop, WireIn.encode]
  rw [hsplit]
  exact (Reads.takeVec _ i.txid).bind (hvout.bind
    ((decodes_varBytes.reads hi.1).bind ((decodes_u32.reads hi.2).bind_pure _)))

theorem reads_txOut {o : WireOut} (ho : o.Fits) : Reads readTxOut o.encode o.raw :=
  (decodes_u64.reads ho.1).bind ((decodes_varBytes.reads ho.2).bind_pure _)

namespace WireTx

variable {tx : WireTx} {allow : Bool}

/-- The parts that the offsets of a layout point to. -/
theorem drop_inputsAt (tx : WireTx) (allow : Bool) :
    tx.encode.drop (tx.layout allow).inputsAt =
      tx.inputBytes ++ (tx.outputBytes ++ (tx.witnessBytes ++ le 4 tx.locktime)) := by
  have hsplit : tx.encode = (le 4 tx.version ++ tx.marker) ++
      (tx.inputBytes ++ (tx.outputBytes ++ (tx.witnessBytes ++ le 4 tx.locktime))) := by
    simp only [encode, List.append_assoc]
  rw [hsplit, List.drop_left']
  rw [List.length_append, length_le]
  rfl

theorem txInputs_encode (h : tx.Fits) :
    txInputs tx.encode (tx.layout allow) = tx.inputs.map fun i => i.raw [] := by
  have hcount := decodes_varint.reads h.inputCount
  have hinputs := Reads.many fun i hi => reads_txIn (h.inputs i hi)
  rw [txInputs, seek, drop_inputsAt, inputBytes, List.append_assoc, hcount]
  exact readWhile_of_many (hinputs _ _)

/-- The offset of the outputs is off only where there are none. -/
theorem txOutputs_encode (h : tx.Canonical allow) :
    txOutputs tx.encode (tx.layout allow) = tx.outputs.map WireOut.raw := by
  by_cases hcond : allow = true ∧ tx.segwit = false ∧ tx.inputs = []
  · have hnil := (h.plain hcond.2.1).2 hcond.1 hcond.2.2
    have hzero : (tx.layout allow).outputCount = 0 := by
      change tx.outputs.length = 0
      rw [hnil]
      rfl
    rw [txOutputs, hzero, hnil]
    split <;> rfl
  · have hat : (tx.layout allow).outputsAt = (tx.layout allow).inputsAt + tx.inputBytes.length :=
      if_neg hcond
    have hcount := decodes_varint.reads h.outputCount
    have houtputs := Reads.many fun o ho => reads_txOut (h.outputs o ho)
    rw [txOutputs, seek, hat, ← List.drop_drop, drop_inputsAt, List.drop_left, outputBytes,
      List.append_assoc, hcount]
    exact readWhile_of_many (houtputs _ _)

theorem take_encode (tx : WireTx) : tx.encode.take 4 = le 4 tx.version := by
  rw [encode, List.take_left' (length_le 4 _)]

theorem drop_encode (tx : WireTx) : tx.encode.drop (tx.encode.length - 4) = le 4 tx.locktime := by
  have hsplit : tx.encode = (le 4 tx.version ++ (tx.marker ++ (tx.inputBytes ++
      (tx.outputBytes ++ tx.witnessBytes)))) ++ le 4 tx.locktime := by
    simp only [encode, List.append_assoc]
  rw [hsplit, List.drop_left']
  simp only [List.length_append, length_le]
  omega

theorem txTxid_encode (H : Hashes) (tx : WireTx) (allow : Bool) :
    txTxid H tx.encode (tx.layout allow) =
      (H.dsha256 (le 4 tx.version ++ (tx.inputBytes ++ (tx.outputBytes ++ le 4 tx.locktime)))).reverse := by
  have hend : (tx.layout allow).outputsEnd =
      (tx.layout allow).inputsAt + (tx.inputBytes.length + tx.outputBytes.length) := by
    rw [← Nat.add_assoc]
    rfl
  have hparts : (tx.encode.take (tx.layout allow).outputsEnd).drop (tx.layout allow).inputsAt =
      tx.inputBytes ++ tx.outputBytes := by
    rw [List.drop_take, drop_inputsAt, hend, Nat.add_sub_cancel_left, ← List.append_assoc,
      List.take_left' List.length_append]
  rw [txTxid, take_encode, hparts, drop_encode, List.append_assoc]

end WireTx

/-! ## The transaction the reader builds -/

namespace WireTx

variable {tx : WireTx}

def toBtcInput (i : WireIn) (w : List Bytes) : BtcTxInput :=
  ⟨i.txid.reverse, UInt32.ofNat (leVal (i.outpoint.toList.drop 32)), i.scriptSig,
    UInt32.ofNat i.sequence, w⟩

def toBtc (tx : WireTx) : BtcTx where
  version := UInt32.ofNat tx.version
  inputs := List.zipWith toBtcInput tx.inputs tx.stacksOf
  outputs := tx.outputs.mapIdx fun n o => ⟨UInt64.ofNat o.amount, n, o.script⟩
  locktime := UInt32.ofNat tx.locktime

theorem length_stacksOf (h : tx.Shaped) : tx.stacksOf.length = tx.inputs.length := by
  rw [stacksOf]
  split_ifs with hseg
  · exact h.marked hseg
  · exact List.length_map ..

theorem numbered_toBtc (tx : WireTx) : tx.toBtc.numbered = tx.toBtc := by
  simp only [BtcTx.numbered, toBtc, List.mapIdx_mapIdx]
  rfl

theorem bytes_toBtcInput {i : WireIn} (hi : i.Fits) (w : List Bytes) :
    (toBtcInput i w).bytes = i.encode := by
  rw [← WireIn.encode_raw hi w, RawTxIn.encode, RawTxIn.outpoint, List.append_assoc]
  rfl

theorem map_zipWith_left {α β γ δ : Type} {f : α → β → γ} {g : γ → δ} {k : α → δ} {as : List α}
    {bs : List β} (hlen : bs.length = as.length) (h : ∀ a ∈ as, ∀ b, g (f a b) = k a) :
    (List.zipWith f as bs).map g = as.map k := by
  induction as generalizing bs with
  | nil => rfl
  | cons a as ih =>
    cases bs with
    | nil => cases hlen
    | cons b bs =>
      have htail := ih (Nat.succ.inj hlen) fun a' h' => h a' (List.mem_cons_of_mem a h')
      rw [List.zipWith_cons_cons, List.map_cons, List.map_cons, htail, h a List.mem_cons_self]

theorem map_zipWith_right {α β γ δ : Type} {f : α → β → γ} {g : γ → δ} {k : β → δ} {as : List α}
    {bs : List β} (hlen : bs.length = as.length) (h : ∀ a b, g (f a b) = k b) :
    (List.zipWith f as bs).map g = bs.map k := by
  rw [List.zipWith_comm]
  exact map_zipWith_left hlen.symm fun b _ a => h a b

theorem exportBytes_toBtc (h : tx.Shaped) (wit : Bool) :
    tx.toBtc.exportBytes wit = le 4 tx.version ++ ((if wit then [0, 1] else []) ++
      (tx.inputBytes ++ (tx.outputBytes ++
        ((if wit then tx.stacksOf.flatMap encodeStack else []) ++ le 4 tx.locktime)))) := by
  have hlen := length_stacksOf h
  have hinputs : tx.toBtc.inputs.flatMap BtcTxInput.bytes = tx.inputs.flatMap WireIn.encode := by
    rw [List.flatMap_def, List.flatMap_def, toBtc,
      map_zipWith_left hlen fun i hi w => bytes_toBtcInput (h.inputs i hi) w]
  have hwitness : tx.toBtc.inputs.flatMap BtcTxInput.witnessBytes =
      tx.stacksOf.flatMap encodeStack := by
    have hmap := map_zipWith_right (f := toBtcInput) (g := BtcTxInput.witnessBytes)
      (k := encodeStack) hlen fun i w => rfl
    rw [List.flatMap_def, List.flatMap_def, toBtc, hmap]
  have houtputs : tx.toBtc.outputs.flatMap BtcTxOutput.bytes =
      tx.outputs.flatMap WireOut.encode := by
    have hmap : tx.toBtc.outputs.map BtcTxOutput.bytes = tx.outputs.map WireOut.encode := by
      apply List.ext_getElem
      · simp [toBtc]
      · intro n h₁ h₂
        simp only [toBtc, List.getElem_map, List.getElem_mapIdx]
        exact WireOut.encode_raw (h.outputs _ (List.getElem_mem _))
    rw [List.flatMap_def, List.flatMap_def, hmap]
  have hin : tx.toBtc.inputs.length = tx.inputs.length := by simp [toBtc, hlen]
  have hout : tx.toBtc.outputs.length = tx.outputs.length := by simp [toBtc]
  have hversion : le32 tx.toBtc.version = le 4 tx.version := le32_ofNat h.version
  have hlock : le32 tx.toBtc.locktime = le 4 tx.locktime := le32_ofNat h.locktime
  rw [BtcTx.exportBytes, hinputs, hwitness, houtputs, hin, hout, hversion, hlock]
  simp only [inputBytes, outputBytes, List.append_assoc]
  rfl

/-- A canonical encoding is marked exactly when some input has a witness. -/
theorem hasWitness_toBtc (h : tx.Canonical true) : tx.toBtc.hasWitness = tx.segwit := by
  have hany : tx.toBtc.hasWitness = tx.stacksOf.any fun w => w ≠ [] := by
    have hmap := map_zipWith_right (f := toBtcInput) (g := BtcTxInput.witnesses) (k := id)
      (length_stacksOf h.shaped) fun i w => rfl
    rw [List.map_id] at hmap
    rw [← hmap, List.any_map]
    rfl
  rw [hany]
  cases hseg : tx.segwit with
  | false => simp [stacksOf, hseg]
  | true =>
    obtain ⟨w, hw, hne⟩ := (h.marked hseg).2.2
    rw [stacksOf, if_pos hseg]
    exact List.any_eq_true.mpr ⟨w, hw, decide_eq_true hne⟩

theorem bytes_toBtc (h : tx.Canonical true) : tx.toBtc.bytes = tx.encode := by
  rw [BtcTx.bytes, exportBytes_toBtc h.shaped, hasWitness_toBtc h, encode, marker, witnessBytes]
  cases hseg : tx.segwit with
  | false =>
    rw [(h.plain hseg).1]
    rfl
  | true => simp only [stacksOf, hseg, if_true]

/-- The limits of the reader. -/
structure WithinLimits (tx : WireTx) : Prop where
  inputs_le : tx.inputs.length ≤ 10000
  outputs_le : tx.outputs.length ≤ 65536
  inputScripts : ∀ i ∈ tx.inputs, i.scriptSig.length ≤ 100000
  outputScripts : ∀ o ∈ tx.outputs, o.script.length ≤ 100000
  items : ∀ stack ∈ tx.witnesses, ∀ w ∈ stack, w.length ≤ 100000

theorem mem_stacksOf {stack : List Bytes} (h : stack ∈ tx.stacksOf) :
    stack ∈ tx.witnesses ∨ stack = [] := by
  rw [stacksOf] at h
  split_ifs at h with hseg
  · exact Or.inl h
  · obtain ⟨i, -, rfl⟩ := List.mem_map.mp h
    exact Or.inr rfl

theorem WithinLimits.toBtc (h : tx.Canonical true) (hpos : 1 ≤ tx.inputs.length)
    (hlim : tx.WithinLimits) : tx.toBtc.WithinLimits := by
  have hlen : tx.toBtc.inputs.length = tx.inputs.length := by
    simp [WireTx.toBtc, length_stacksOf h.shaped]
  have hmem {i : BtcTxInput} (hi : i ∈ tx.toBtc.inputs) :
      (∃ j ∈ tx.inputs, i.script = j.scriptSig) ∧ (i.witnesses ∈ tx.witnesses ∨ i.witnesses = []) := by
    obtain ⟨n, hn, rfl⟩ := List.getElem_of_mem hi
    simp only [WireTx.toBtc, List.getElem_zipWith]
    exact ⟨⟨_, List.getElem_mem _, rfl⟩, mem_stacksOf (List.getElem_mem _)⟩
  constructor
  · rwa [hlen]
  · rw [hlen]
    exact hlim.inputs_le
  · simpa [WireTx.toBtc] using hlim.outputs_le
  · intro i hi
    obtain ⟨⟨j, hj, heq⟩, -⟩ := hmem hi
    rw [heq]
    exact hlim.inputScripts j hj
  · intro o ho
    obtain ⟨n, hn, rfl⟩ := List.mem_mapIdx.mp ho
    exact hlim.outputScripts _ (List.getElem_mem _)
  · intro i hi w hw
    rcases (hmem hi).2 with hstack | hnil
    · exact hlim.items _ hstack w hw
    · rw [hnil] at hw
      cases hw
  · intro i hi
    rcases (hmem hi).2 with hstack | hnil
    · exact (h.witnesses _ hstack).1
    · rw [hnil]
      decide

end WireTx

/-- Bytes of a transaction within the limits of the reader. -/
def WithinLimits (bytes : Bytes) : Prop :=
  ∃ tx : WireTx, tx.Canonical true ∧ bytes = tx.encode ∧ tx.WithinLimits

def outputOf (o : BtcTxOutput) : RawTxOut := ⟨o.amount, o.script⟩

/-- The reader builds the transaction that the scanner saw, and shows the output
that is taken from it for an outpoint. -/
theorem scanner_agrees_with_reader (H : Hashes) {bytes : Bytes} {l : TxLayout}
    (h : TxLayout.parse bytes true = .ok l) (hpos : 1 ≤ l.inputCount) (hlim : WithinLimits bytes) :
    ∃ tx : BtcTx, BtcTx.fromBytes bytes = .ok tx ∧
      tx.outputs.map outputOf = txOutputs bytes l ∧
      tx.hash H = txTxid H bytes l ∧ tx.bytes = bytes ∧
      ∀ (p : View) index inp outpoint, p.input index = some inp →
        p.tx.inputs[index]? = some outpoint → PsbtInput.nonWitnessUtxo inp = some bytes →
        ∀ o, p.utxo H index = .ok o ↔
          tx.hash H = outpoint.txid ∧ tx.outputs[outpoint.vout.toNat]?.map outputOf = some o := by
  obtain ⟨tx, hc, rfl, hlim⟩ := hlim
  have hlayout : l = tx.layout true := by
    have hparse := TxLayout.parse_eq_ok.mpr ⟨tx, hc, rfl, rfl⟩
    rw [h] at hparse
    exact Except.ok.inj hparse
  subst hlayout
  have hread := (hlim.toBtc hc hpos).fromBytes_bytes
  rw [WireTx.bytes_toBtc hc, WireTx.numbered_toBtc] at hread
  have houtputs : tx.toBtc.outputs.map outputOf = txOutputs tx.encode (tx.layout true) := by
    rw [WireTx.txOutputs_encode hc]
    apply List.ext_getElem
    · simp [WireTx.toBtc]
    · intro n h₁ h₂
      simp only [WireTx.toBtc, List.getElem_map, List.getElem_mapIdx]
      rfl
  have hhash : tx.toBtc.hash H = txTxid H tx.encode (tx.layout true) := by
    rw [WireTx.txTxid_encode, BtcTx.hash, WireTx.exportBytes_toBtc hc.shaped]
    rfl
  refine ⟨tx.toBtc, hread, houtputs, hhash, WireTx.bytes_toBtc hc, ?_⟩
  intro p index inp outpoint hinp hout hutxo o
  rw [hhash, ← List.getElem?_map, houtputs, View.utxo, hinp, hout, okOr_some, ok_bind, okOr_some,
    ok_bind, hutxo]
  dsimp only
  rw [h, ok_bind]
  split_ifs with hne
  · exact iff_of_false (by rintro ⟨⟩) fun h => hne h.1
  · rw [okOr_eq_ok]
    exact ⟨fun h => ⟨not_not.mp hne, h⟩, And.right⟩

/-- A segwit transaction of one input. -/
def sampleWire : WireTx where
  version := 2
  segwit := true
  inputs := [⟨List.Vector.replicate 36 1, [], 0xfffffffd⟩]
  outputs := [⟨5000, [0x51]⟩]
  witnesses := [[[], [0xab]]]
  locktime := 0

theorem sampleWire_canonical : sampleWire.Canonical true := by
  constructor
  · constructor
    · decide
    · decide
    · decide
    · decide
    · show ∀ i ∈ sampleWire.inputs, i.scriptSig.length < 2 ^ 64 ∧ i.sequence < 256 ^ 4
      decide
    · show ∀ o ∈ sampleWire.outputs, o.amount < 256 ^ 8 ∧ o.script.length < 2 ^ 64
      decide
    · show ∀ w ∈ sampleWire.witnesses, w.length < 2 ^ 64 ∧ ∀ s ∈ w, s.length < 2 ^ 64
      decide
  · intro _
    exact ⟨rfl, rfl, _, List.mem_cons_self, by decide⟩
  · intro h
    cases h

theorem scanner_agrees_with_reader_sample :
    ∃ tx : BtcTx, BtcTx.fromBytes sampleWire.encode = .ok tx ∧
      tx.outputs.map outputOf = txOutputs sampleWire.encode (sampleWire.layout true) ∧
      tx.bytes = sampleWire.encode := by
  have hparse := TxLayout.parse_eq_ok.mpr ⟨sampleWire, sampleWire_canonical, rfl, rfl⟩
  have hlim : sampleWire.WithinLimits := by constructor <;> decide
  obtain ⟨tx, hread, houtputs, -, hbytes, -⟩ := scanner_agrees_with_reader
    ⟨fun _ => List.Vector.replicate 32 0, fun _ => List.Vector.replicate 20 0⟩ hparse (le_refl 1)
    ⟨sampleWire, sampleWire_canonical, rfl, hlim⟩
  exact ⟨tx, hread, houtputs, hbytes⟩

end Outscript.Psbt
