import Outscript.Btc.Raw
import Outscript.Library.Cursor

/-!
# Bitcoin transactions

The transaction reader takes lengths in any form, and any byte for the flag
behind a segwit marker. What the writer wrote it reads back, with the outputs
numbered in order, and the writer and the serializer of borrowed transactions
write the same bytes.
-/
namespace Outscript

open ByteString Cursor

structure BtcTxInput where
  /-- In display order, the reverse of the order on the wire. -/
  txid : ByteVec 32
  vout : UInt32
  script : Bytes
  sequence : UInt32
  witnesses : List Bytes
  deriving DecidableEq

structure BtcTxOutput where
  amount : UInt64
  /-- The index, which is not serialized. -/
  n : Nat
  script : Bytes
  deriving DecidableEq

structure BtcTx where
  version : UInt32
  inputs : List BtcTxInput
  outputs : List BtcTxOutput
  locktime : UInt32
  deriving DecidableEq

namespace BtcTx

/-! ## Reading -/

/-- Errors of a slice; only a stream fails otherwise. -/
inductive ReadError where
  | eof
  | tooLarge
  deriving DecidableEq

def ReadError.intoError : ReadError → Error
  | .eof => .unexpectedEof
  | .tooLarge => .tooLarge

abbrev ByteSource := Read UInt8 ReadError

def readU8 : ByteSource UInt8 := item .eof

def readU32le : ByteSource UInt32 := do
  let b ← take .eof 4
  return UInt32.ofNat (leVal b)

def readU64le : ByteSource UInt64 := do
  let b ← take .eof 8
  return UInt64.ofNat (leVal b)

/-- How many bytes follow the first one. -/
def varintExtra (t : UInt8) : Nat :=
  if t = 0xfd then 2 else if t = 0xfe then 4 else if t = 0xff then 8 else 0

/-- The nine-byte buffer with the bytes that were read at its start. -/
def varintBuf (t : UInt8) (wide : Bytes) : Bytes :=
  t :: (wide ++ List.replicate (8 - wide.length) 0)

def readVarint : ByteSource Nat := do
  let t ← item .eof
  let wide ← take .eof (varintExtra t)
  -- the buffer holds a full varint
  return ((BtcVarInt.decode (varintBuf t wide)).map Prod.fst).getD 0

def readVarBuf : ByteSource Bytes := do
  let ln ← readVarint
  if ln = 0 then return []
  else if 100000 < ln then throw .tooLarge
  else take .eof ln

def readTxInput : ByteSource BtcTxInput := do
  let txid ← takeVec .eof 32
  let vout ← readU32le
  let script ← readVarBuf
  let sequence ← readU32le
  return { txid := txid.reverse, vout, script, sequence, witnesses := [] }

def readTxOutput (idx : Nat) : ByteSource BtcTxOutput := do
  let amount ← readU64le
  let script ← readVarBuf
  return { amount, n := idx, script }

def readTxOutputs (idx : Nat) : Nat → ByteSource (List BtcTxOutput)
  | 0 => pure []
  | cnt + 1 => do
    let o ← readTxOutput idx
    let os ← readTxOutputs (idx + 1) cnt
    return o :: os

def readWitness (inp : BtcTxInput) : ByteSource BtcTxInput := do
  let wc ← readVarint
  let ws ← many readVarBuf wc
  return { inp with witnesses := ws }

/-- The witnesses of all inputs, where a marker announced them. -/
def readWitnesses (segwit : Bool) (inputs : List BtcTxInput) : ByteSource (List BtcTxInput) :=
  if segwit then inputs.mapM readWitness else pure inputs

/-- The number of inputs, and whether a segwit marker stood before it. -/
def readInCount : ByteSource (Nat × Bool) := do
  let inCnt ← readVarint
  if inCnt = 0 then do
    let _ ← readU8
    let inCnt ← readVarint
    return (inCnt, true)
  else return (inCnt, false)

def readSource : ByteSource BtcTx := do
  let version ← readU32le
  let (inCnt, segwit) ← readInCount
  require (inCnt ≤ 10000) .tooLarge
  let inputs ← many readTxInput inCnt
  let outCnt ← readVarint
  require (outCnt ≤ 65536) .tooLarge
  let outputs ← readTxOutputs 0 outCnt
  let inputs ← readWitnesses segwit inputs
  let locktime ← readU32le
  return { version, inputs, outputs, locktime }

/-- Parses a transaction; bytes behind it are ignored. -/
def fromBytes (buf : Bytes) : Except Error BtcTx :=
  match readSource.run (start buf) with
  | .ok (tx, _) => .ok tx
  | .error e => .error e.intoError

end BtcTx

/-! ## Writing -/

/-- The input without its witness. -/
def BtcTxInput.bytes (i : BtcTxInput) : Bytes :=
  i.txid.reverse.toList ++ (le32 i.vout ++ (varSlice i.script ++ le32 i.sequence))

def BtcTxInput.witnessBytes (i : BtcTxInput) : Bytes :=
  BtcVarInt.toArray i.witnesses.length ++ i.witnesses.flatMap varSlice

def BtcTxOutput.bytes (o : BtcTxOutput) : Bytes := le64 o.amount ++ varSlice o.script

namespace BtcTx

variable (tx : BtcTx)

def hasWitness : Bool := tx.inputs.any fun i => i.witnesses ≠ []

def exportBytes (wit : Bool) : Bytes :=
  le32 tx.version ++ ((if wit then [0, 1] else []) ++
    (BtcVarInt.toArray tx.inputs.length ++ (tx.inputs.flatMap BtcTxInput.bytes ++
      (BtcVarInt.toArray tx.outputs.length ++ (tx.outputs.flatMap BtcTxOutput.bytes ++
        ((if wit then tx.inputs.flatMap BtcTxInput.witnessBytes else []) ++
          le32 tx.locktime))))))

/-- Witness data is included if there is any. -/
def bytes : Bytes := tx.exportBytes tx.hasWitness

/-- The transaction id, in display order. -/
def hash (H : Hashes) : ByteVec 32 := (H.dsha256 (tx.exportBytes false)).reverse

/-- The borrowed transaction with the same fields. -/
def toRaw : RawTx where
  version := tx.version
  inputs := tx.inputs.map fun i => ⟨i.txid, i.vout, i.script, i.sequence, i.witnesses⟩
  outputs := tx.outputs.map fun o => ⟨o.amount, o.script⟩
  locktime := tx.locktime

theorem hasWitness_toRaw : tx.toRaw.hasWitness = tx.hasWitness := by
  rw [RawTx.hasWitness, toRaw, List.any_map]
  rfl

theorem encoding_toRaw (wit : Bool) : tx.toRaw.encoding wit = tx.exportBytes wit := by
  have hinputs : tx.toRaw.inputs.flatMap RawTxIn.encode = tx.inputs.flatMap BtcTxInput.bytes := by
    rw [toRaw, List.flatMap_map]
    refine List.flatMap_congr fun i _ => ?_
    rw [RawTxIn.encode, RawTxIn.outpoint, List.append_assoc]
    rfl
  have houtputs : tx.toRaw.outputs.flatMap RawTxOut.encode = tx.outputs.flatMap BtcTxOutput.bytes := by
    rw [toRaw, List.flatMap_map]
    rfl
  have hwitness : tx.toRaw.inputs.flatMap RawTxIn.encodeWitness =
      tx.inputs.flatMap BtcTxInput.witnessBytes := by
    rw [toRaw, List.flatMap_map]
    rfl
  rw [RawTx.encoding, hinputs, houtputs, hwitness, exportBytes]
  simp only [toRaw, List.length_map, List.append_assoc]

end BtcTx

/-! ## Reading back -/

namespace BtcTx

theorem reads_u32le (v : UInt32) : Reads readU32le (le32 v) v := by
  have h := (Reads.take ReadError.eof (le32 v)).bind_pure fun b => UInt32.ofNat (leVal b)
  have hv : leVal (le32 v) = v.toNat := leVal_le_of_lt v.toNat_lt
  rw [le32, length_le] at h
  rwa [← le32, hv, UInt32.ofNat_toNat] at h

theorem reads_u64le (v : UInt64) : Reads readU64le (le64 v) v := by
  have h := (Reads.take ReadError.eof (le64 v)).bind_pure fun b => UInt64.ofNat (leVal b)
  have hv : leVal (le64 v) = v.toNat := leVal_le_of_lt v.toNat_lt
  rw [le64, length_le] at h
  rwa [← le64, hv, UInt64.ofNat_toNat] at h

/-- The first byte of a shortest form tells how many follow. -/
theorem toArray_shape (v : Nat) :
    ∃ t wide, BtcVarInt.toArray v = t :: wide ∧ wide.length = varintExtra t := by
  rw [BtcVarInt.toArray]
  split_ifs with h₁
  · refine ⟨UInt8.ofNat v, [], rfl, ?_⟩
    have hne (c : UInt8) (hc : 0xfc < c.toNat) : UInt8.ofNat v ≠ c := by
      rintro rfl
      rw [UInt8.toNat_ofNat'] at hc
      omega
    rw [varintExtra, if_neg (hne _ (by decide)), if_neg (hne _ (by decide)),
      if_neg (hne _ (by decide))]
    rfl
  · exact ⟨0xfd, le 2 v, rfl, length_le 2 v⟩
  · exact ⟨0xfe, le 4 v, rfl, length_le 4 v⟩
  · exact ⟨0xff, le 8 v, rfl, length_le 8 v⟩

theorem reads_varint {v : Nat} (hv : v < 2 ^ 64) : Reads readVarint (BtcVarInt.toArray v) v := by
  obtain ⟨t, wide, hshape, hlen⟩ := toArray_shape v
  have hdecode : (BtcVarInt.decode (varintBuf t wide)).map Prod.fst = some v := by
    have h := BtcVarInt.decode_toArray hv (List.replicate (8 - wide.length) 0)
    rw [hshape, List.cons_append] at h
    rw [varintBuf, h]
    rfl
  have hwide := (Reads.take ReadError.eof wide).bind_pure
    fun w => ((BtcVarInt.decode (varintBuf t w)).map Prod.fst).getD 0
  rw [hlen, hdecode] at hwide
  rw [hshape]
  exact (Reads.item ReadError.eof t).bind hwide

theorem reads_varBuf {s : Bytes} (hs : s.length ≤ 100000) : Reads readVarBuf (varSlice s) s := by
  refine (reads_varint (by omega)).bind ?_
  split_ifs with hzero hlarge
  · obtain rfl := List.length_eq_zero_iff.mp hzero
    exact Reads.pure []
  · omega
  · exact Reads.take _ s

theorem reads_input {i : BtcTxInput} (hi : i.script.length ≤ 100000) :
    Reads readTxInput i.bytes { i with witnesses := [] } := by
  have hlast := (reads_u32le i.sequence).bind_pure fun sequence =>
    ({ txid := i.txid.reverse.reverse, vout := i.vout, script := i.script, sequence
       witnesses := [] } : BtcTxInput)
  have h : Reads readTxInput i.bytes _ :=
    (Reads.takeVec _ i.txid.reverse).bind ((reads_u32le i.vout).bind ((reads_varBuf hi).bind hlast))
  rwa [List.Vector.reverse_reverse] at h

theorem reads_output {o : BtcTxOutput} (ho : o.script.length ≤ 100000) (idx : Nat) :
    Reads (readTxOutput idx) o.bytes { o with n := idx } :=
  (reads_u64le o.amount).bind ((reads_varBuf ho).bind_pure fun script =>
    ({ amount := o.amount, n := idx, script } : BtcTxOutput))

theorem reads_outputs {os : List BtcTxOutput} (ho : ∀ o ∈ os, o.script.length ≤ 100000) (idx : Nat) :
    Reads (readTxOutputs idx os.length) (os.flatMap BtcTxOutput.bytes)
      (os.mapIdx fun i o => { o with n := idx + i }) := by
  induction os generalizing idx with
  | nil => exact Reads.pure []
  | cons o os ih =>
    have htail := ih (fun o' h => ho o' (List.mem_cons_of_mem o h)) (idx + 1)
    rw [List.flatMap_cons, List.mapIdx_cons]
    refine (reads_output (ho o List.mem_cons_self) idx).bind ?_
    have h := htail.bind_pure fun os => { o with n := idx } :: os
    simp only [Nat.add_assoc, Nat.add_comm 1] at h
    exact h

theorem reads_witness {i : BtcTxInput} (hcount : i.witnesses.length < 2 ^ 64)
    (hitems : ∀ w ∈ i.witnesses, w.length ≤ 100000) :
    Reads (readWitness { i with witnesses := [] }) i.witnessBytes i := by
  have hmany := Reads.many (f := id) fun w hw => reads_varBuf (hitems w hw)
  rw [List.map_id] at hmany
  exact (reads_varint hcount).bind (hmany.bind_pure fun ws => { i with witnesses := ws })

theorem reads_inCount {n : Nat} (hpos : 0 < n) (hn : n < 2 ^ 64) (wit : Bool) :
    Reads readInCount ((if wit then [0, 1] else []) ++ BtcVarInt.toArray n) (n, wit) := by
  cases wit with
  | false =>
    have h : Reads readInCount (BtcVarInt.toArray n ++ []) (n, false) := by
      refine (reads_varint hn).bind ?_
      rw [if_neg hpos.ne']
      exact Reads.pure _
    rwa [List.append_nil] at h
  | true =>
    have hzero : Reads readVarint (BtcVarInt.toArray 0) 0 := reads_varint (by decide)
    refine hzero.bind ?_
    rw [if_pos rfl]
    exact (Reads.item ReadError.eof 1).bind ((reads_varint hn).bind_pure fun n => (n, true))

end BtcTx

/-! ## Transactions within the limits of the reader -/

/-- The limits of the reader; counts of witness items are lengths of vectors. -/
structure BtcTx.WithinLimits (tx : BtcTx) : Prop where
  inputs_pos : 1 ≤ tx.inputs.length
  inputs_le : tx.inputs.length ≤ 10000
  outputs_le : tx.outputs.length ≤ 65536
  inputScripts : ∀ i ∈ tx.inputs, i.script.length ≤ 100000
  outputScripts : ∀ o ∈ tx.outputs, o.script.length ≤ 100000
  items : ∀ i ∈ tx.inputs, ∀ w ∈ i.witnesses, w.length ≤ 100000
  counts : ∀ i ∈ tx.inputs, i.witnesses.length < 2 ^ 64

namespace BtcTx

variable {tx : BtcTx}

/-- The transaction with its outputs numbered in order. -/
def numbered (tx : BtcTx) : BtcTx :=
  { tx with outputs := tx.outputs.mapIdx fun i o => { o with n := i } }

theorem WithinLimits.reads_witnesses (h : tx.WithinLimits) :
    Reads (readWitnesses tx.hasWitness (tx.inputs.map fun i => { i with witnesses := [] }))
      (if tx.hasWitness then tx.inputs.flatMap BtcTxInput.witnessBytes else []) tx.inputs := by
  rw [readWitnesses]
  split_ifs with hwit
  · have hall : Reads (tx.inputs.mapM fun i => readWitness { i with witnesses := [] })
        (tx.inputs.flatMap BtcTxInput.witnessBytes) (tx.inputs.map id) :=
      Reads.mapM fun i hi => reads_witness (h.counts i hi) (h.items i hi)
    rw [List.map_id] at hall
    rw [List.mapM_map]
    exact hall
  · have hnil : ∀ i ∈ tx.inputs, ({ i with witnesses := [] } : BtcTxInput) = i := by
      intro i hi
      have hi : i.witnesses = [] := by
        by_contra hne
        exact hwit (List.any_eq_true.mpr ⟨i, hi, decide_eq_true hne⟩)
      rw [← hi]
    rw [List.map_congr_left hnil, List.map_id']
    exact Reads.pure _

/-- The reader reads what the writer wrote. -/
theorem WithinLimits.reads_source (h : tx.WithinLimits) :
    Reads readSource tx.bytes tx.numbered := by
  have hin := h.inputs_le
  have hout := h.outputs_le
  have hlast := (reads_u32le tx.locktime).bind_pure fun locktime =>
    ({ tx.numbered with locktime } : BtcTx)
  have hinputs := Reads.many fun i hi => reads_input (h.inputScripts i hi)
  have houtputs := reads_outputs h.outputScripts 0
  simp only [Nat.zero_add] at houtputs
  have hbytes : tx.bytes = le32 tx.version ++ (((if tx.hasWitness then [0, 1] else []) ++
      BtcVarInt.toArray tx.inputs.length) ++ (tx.inputs.flatMap BtcTxInput.bytes ++
        (BtcVarInt.toArray tx.outputs.length ++ (tx.outputs.flatMap BtcTxOutput.bytes ++
          ((if tx.hasWitness then tx.inputs.flatMap BtcTxInput.witnessBytes else []) ++
            le32 tx.locktime))))) := by
    simp only [bytes, exportBytes, List.append_assoc]
  rw [hbytes]
  exact (reads_u32le _).bind ((reads_inCount h.inputs_pos (by omega) _).bind
    (Reads.require hin _ (hinputs.bind ((reads_varint (by omega)).bind
      (Reads.require hout _ (houtputs.bind (h.reads_witnesses.bind hlast)))))))

theorem WithinLimits.fromBytes_bytes (h : tx.WithinLimits) :
    fromBytes tx.bytes = .ok tx.numbered := by
  have hrun := h.reads_source [] 0
  rw [List.append_nil] at hrun
  rw [fromBytes, start, hrun]

/-- The two serializers write the same bytes and ids, and the reader returns what
was written. -/
theorem serializers_agree (H : Hashes) {tx : BtcTx} (h : tx.WithinLimits) :
    (∀ out, tx.toRaw.serializeToSlice out =
      if tx.toRaw.serializedLen ≤ out.length then
        .ok (tx.toRaw.serializedLen, tx.bytes ++ out.drop tx.toRaw.serializedLen)
      else .error .bufferTooSmall) ∧
    tx.toRaw.serializedLen = tx.bytes.length ∧ tx.hash H = tx.toRaw.txid H ∧
    fromBytes tx.bytes = .ok tx.numbered := by
  have hbytes : tx.toRaw.encoding tx.toRaw.hasWitness = tx.bytes := by
    rw [encoding_toRaw, hasWitness_toRaw, bytes]
  refine ⟨fun out => ?_, ?_, ?_, h.fromBytes_bytes⟩
  · rw [RawTx.serializeToSlice_eq, hbytes]
  · rw [RawTx.serializedLen_eq, hbytes]
  · rw [RawTx.txid_eq, encoding_toRaw, hash]

/-- An input with a witness before one without. -/
def sampleTx : BtcTx where
  version := 2
  inputs := [⟨List.Vector.replicate 32 1, 0, [], 0xfffffffd, [[], [0xab, 0xcd]]⟩,
    ⟨List.Vector.replicate 32 2, 7, [0x51], 0xffffffff, []⟩]
  outputs := [⟨5000000000, 0, [0x51, 0x52]⟩, ⟨0, 1, []⟩]
  locktime := 500000

theorem sampleTx_withinLimits : sampleTx.WithinLimits := by
  constructor <;> decide

theorem serializers_agree_sample :
    sampleTx.toRaw.serializedLen = sampleTx.bytes.length ∧
      fromBytes sampleTx.bytes = .ok sampleTx := by
  have h := serializers_agree ⟨fun _ => List.Vector.replicate 32 0, fun _ => List.Vector.replicate 20 0⟩
    sampleTx_withinLimits
  exact ⟨h.2.1, h.2.2.2⟩

end BtcTx

end Outscript
