import Outscript.Btc.Raw
import Outscript.Zcash.Bundle

/-!
# Zcash v5 transactions

A transaction borrows its shielded bundles as bytes. No bytes stand for the
empty bundle, which is written as its counts and read back as no bytes.
-/
namespace Outscript.Zcash

open ByteString Cursor Fallible

def versionV5 : UInt32 := 0x80000005
def versionGroupIdV5 : UInt32 := 0x26a7270a

/-- A transparent input. -/
structure ZcashTxIn where
  /-- In display order. -/
  txid : ByteVec 32
  vout : UInt32
  scriptSig : Bytes
  sequence : UInt32
  deriving DecidableEq

/-- A transparent output, and the output an input spends. -/
structure ZcashTxOut where
  amount : UInt64
  script : Bytes
  deriving DecidableEq

structure ZcashTx where
  consensusBranchId : UInt32
  lockTime : UInt32
  expiryHeight : UInt32
  inputs : List ZcashTxIn
  outputs : List ZcashTxOut
  sapling : Bytes
  orchard : Bytes
  deriving DecidableEq

/-- The empty bundles, as serialized. -/
def noSapling : Bytes := [0, 0]
def noOrchard : Bytes := [0]

section Write

variable {S : Type} [Sink S]

def putOutpoint (s : S) (input : ZcashTxIn) : S :=
  Sink.put (Sink.put s input.txid.reverse.toList) (le32 input.vout)

def putOutput (s : S) (output : ZcashTxOut) : S :=
  putSlice (Sink.put s (le64 output.amount)) output.script

def writeInput (input : ZcashTxIn) (scriptSig : Bytes) (s : S) : S :=
  Sink.put (putSlice (putOutpoint s input) scriptSig) (le32 input.sequence)

end Write

namespace ZcashTx

variable (tx : ZcashTx)

def saplingBytes : Bytes := if tx.sapling = [] then noSapling else tx.sapling

def orchardBytes : Bytes := if tx.orchard = [] then noOrchard else tx.orchard

section Write

variable {S : Type} [Sink S]

def writeHeader (s : S) : S :=
  let s := Sink.put s (le32 versionV5)
  let s := Sink.put s (le32 versionGroupIdV5)
  let s := Sink.put s (le32 tx.consensusBranchId)
  let s := Sink.put s (le32 tx.lockTime)
  Sink.put s (le32 tx.expiryHeight)

def writeOutputsAndBundles (s : S) : S :=
  let s := tx.outputs.foldl putOutput (putVarint s tx.outputs.length)
  let s := Sink.put s tx.saplingBytes
  Sink.put s tx.orchardBytes

/-- Writes the whole transaction. -/
def write (s : S) : S :=
  let s := tx.writeHeader s
  let s := tx.inputs.foldl (fun s input => writeInput input input.scriptSig s)
    (putVarint s tx.inputs.length)
  tx.writeOutputsAndBundles s

end Write

def serializedLen : Nat := (tx.write ({} : Counter)).count

/-- The number of bytes written, and the buffer they were written to. -/
def serializeToSlice (out : Bytes) : Except Error (Nat × Bytes) := do
  let s := tx.write (SliceSink.new out)
  let n ← okOr s.finish .bufferTooSmall
  .ok (n, s.out)

def serialize : Except Trap Bytes :=
  match tx.serializeToSlice (List.replicate tx.serializedLen 0) with
  | .ok (_, out) => .ok out
  | .error _ => .error .panic

end ZcashTx

/-! ## Parsing -/

def word : Read UInt8 Trap UInt32 := do
  let bytes ← takeBytes 4
  return UInt32.ofNat (leVal bytes)

def readInput : Read UInt8 Trap ZcashTxIn := do
  let txid ← takeVec (.error .unexpectedEof) 32
  let vout ← word
  let (_, scriptSig) ← takeItems 1
  let sequence ← word
  return { txid := txid.reverse, vout, scriptSig, sequence }

def readAmount : Read UInt8 Trap UInt64 := do
  let bytes ← takeBytes 8
  return UInt64.ofNat (leVal bytes)

def readOutput : Read UInt8 Trap ZcashTxOut := do
  let amount ← readAmount
  let (_, script) ← takeItems 1
  return { amount, script }

/-- The consensus branch id, the lock time and the expiry height. -/
def readHeader : Read UInt8 Trap (UInt32 × UInt32 × UInt32) := do
  let version ← word
  require (version = versionV5) (.error .unsupportedTxType)
  let group ← word
  require (group = versionGroupIdV5) (.error .unsupportedTxType)
  let consensusBranchId ← word
  let lockTime ← word
  let expiryHeight ← word
  return (consensusBranchId, lockTime, expiryHeight)

/-- Counted inputs or outputs, into a buffer for `cap` of them. -/
def readCounted {α : Type} (p : Read UInt8 Trap α) (cap : Nat) : Read UInt8 Trap (List α) := do
  let (n, _) ← takeItems 0
  require (n ≤ cap) (.error .tooLarge)
  many p n

/-- A transaction, with buffers for its inputs and outputs. The bundles are
walked over to find their ends, and kept as bytes. -/
def readTx (inputsCap outputsCap : Nat) : Read UInt8 Trap ZcashTx := do
  let (consensusBranchId, lockTime, expiryHeight) ← readHeader
  let inputs ← readCounted readInput inputsCap
  let outputs ← readCounted readOutput outputsCap
  let sapling ← span skipSapling
  let orchard ← span skipOrchard
  return {
    consensusBranchId, lockTime, expiryHeight, inputs, outputs
    sapling := if sapling = noSapling then [] else sapling
    orchard := if orchard = noOrchard then [] else orchard }

namespace ZcashTx

/-- Parses a serialized transaction, its inputs and outputs into buffers of the
given lengths. -/
def parseInto (data : Bytes) (inputsCap outputsCap : Nat) : Except Trap ZcashTx :=
  whole (readTx inputsCap outputsCap) data

end ZcashTx

/-! ## What is written -/

def ZcashTxIn.outpoint (i : ZcashTxIn) : Bytes := i.txid.reverse.toList ++ le32 i.vout

def ZcashTxIn.encode (i : ZcashTxIn) : Bytes := i.outpoint ++ (varSlice i.scriptSig ++ le32 i.sequence)

def ZcashTxOut.encode (o : ZcashTxOut) : Bytes := le64 o.amount ++ varSlice o.script

namespace ZcashTx

variable (tx : ZcashTx)

def header : Bytes :=
  le32 versionV5 ++ (le32 versionGroupIdV5 ++ (le32 tx.consensusBranchId ++
    (le32 tx.lockTime ++ le32 tx.expiryHeight)))

def encoding : Bytes :=
  tx.header ++ ((BtcVarInt.toArray tx.inputs.length ++ tx.inputs.flatMap ZcashTxIn.encode) ++
    ((BtcVarInt.toArray tx.outputs.length ++ tx.outputs.flatMap ZcashTxOut.encode) ++
      (tx.saplingBytes ++ tx.orchardBytes)))

end ZcashTx

section Writes

variable {S : Type} [LawfulSink S]

theorem writes_outpoint (i : ZcashTxIn) : Writes (fun s : S => putOutpoint s i) i.outpoint :=
  (Writes.put _).comp (Writes.put _)

theorem writes_output (o : ZcashTxOut) : Writes (fun s : S => putOutput s o) o.encode :=
  (Writes.put _).comp (RawTx.writes_slice _)

theorem writes_input (i : ZcashTxIn) : Writes (fun s : S => writeInput i i.scriptSig s) i.encode := by
  have h := ((writes_outpoint (S := S) i).comp (RawTx.writes_slice i.scriptSig)).comp
    (Writes.put (le32 i.sequence))
  rw [List.append_assoc] at h
  exact h

namespace ZcashTx

variable (tx : ZcashTx)

theorem writes_header : Writes (fun s : S => tx.writeHeader s) tx.header :=
  (Writes.put _).comp ((Writes.put _).comp ((Writes.put _).comp ((Writes.put _).comp (Writes.put _))))

theorem writes_write : Writes (fun s : S => tx.write s) tx.encoding := by
  have hinputs : Writes (fun s : S => tx.inputs.foldl (fun s i => writeInput i i.scriptSig s)
      (putVarint s tx.inputs.length))
      (BtcVarInt.toArray tx.inputs.length ++ tx.inputs.flatMap ZcashTxIn.encode) :=
    (Writes.put _).comp (Writes.foldl writes_input _)
  have houtputs : Writes (fun s : S => tx.outputs.foldl putOutput (putVarint s tx.outputs.length))
      (BtcVarInt.toArray tx.outputs.length ++ tx.outputs.flatMap ZcashTxOut.encode) :=
    (Writes.put _).comp (Writes.foldl writes_output _)
  exact tx.writes_header.comp (hinputs.comp (houtputs.comp ((Writes.put _).comp (Writes.put _))))

end ZcashTx

end Writes

namespace ZcashTx

variable (tx : ZcashTx)

theorem serializedLen_eq : tx.serializedLen = tx.encoding.length := Counter.count_of_writes tx.writes_write

/-- A buffer sized beforehand is filled, without a panic. -/
theorem serialize_eq : tx.serialize = .ok tx.encoding := by
  have hslice : tx.serializeToSlice (List.replicate tx.encoding.length 0) =
      .ok (tx.encoding.length, tx.encoding) :=
    SliceSink.slice_of_sized (tx.writes_write.after (SliceSink.new (List.replicate tx.encoding.length 0)))
  rw [serialize, serializedLen_eq, hslice]

end ZcashTx

end Outscript.Zcash
