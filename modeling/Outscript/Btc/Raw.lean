import Outscript.Btc.VarInt
import Outscript.Crypto.Hash
import Outscript.Error
import Outscript.Library.Fallible
import Outscript.Sink

/-!
# Borrowed transactions

One serializer counts, hashes or stores a transaction. The signature hashes
read a transaction through a view of its outpoints, sequences and outputs, so
two sources with the same view have the same digests.
-/
namespace Outscript

open ByteString Fallible

/-- A transaction input. -/
structure RawTxIn where
  /-- In display order. -/
  txid : ByteVec 32
  vout : UInt32
  scriptSig : Bytes
  sequence : UInt32
  witness : List Bytes
  deriving DecidableEq

structure RawTxOut where
  amount : UInt64
  script : Bytes
  deriving DecidableEq

/-- The output an input spends. -/
abbrev PrevOut := RawTxOut

structure RawTx where
  version : UInt32
  inputs : List RawTxIn
  outputs : List RawTxOut
  locktime : UInt32
  deriving DecidableEq

/-! ## Serialized forms -/

def le32 (v : UInt32) : Bytes := le 4 v.toNat

def le64 (v : UInt64) : Bytes := le 8 v.toNat

theorem le32_leVal {b : Bytes} (h : b.length = 4) : le32 (UInt32.ofNat (leVal b)) = b := by
  have hlt : leVal b < 2 ^ 32 := (leVal_lt b).trans_eq (by rw [h]; rfl)
  have hle := le_leVal b
  rw [h] at hle
  rw [le32, UInt32.toNat_ofNat', Nat.mod_eq_of_lt hlt, hle]

theorem le64_leVal {b : Bytes} (h : b.length = 8) : le64 (UInt64.ofNat (leVal b)) = b := by
  have hlt : leVal b < 2 ^ 64 := (leVal_lt b).trans_eq (by rw [h]; rfl)
  have hle := le_leVal b
  rw [h] at hle
  rw [le64, UInt64.toNat_ofNat', Nat.mod_eq_of_lt hlt, hle]

/-- A length and the bytes it counts. -/
def varSlice (s : Bytes) : Bytes := BtcVarInt.toArray s.length ++ s

def RawTxIn.outpoint (i : RawTxIn) : Bytes := i.txid.reverse.toList ++ le32 i.vout

/-- The input without its witness. -/
def RawTxIn.encode (i : RawTxIn) : Bytes := i.outpoint ++ (varSlice i.scriptSig ++ le32 i.sequence)

def RawTxIn.encodeWitness (i : RawTxIn) : Bytes :=
  BtcVarInt.toArray i.witness.length ++ i.witness.flatMap varSlice

def RawTxOut.encode (o : RawTxOut) : Bytes := le64 o.amount ++ varSlice o.script

section Write

variable {S : Type} [Sink S]

def putVarint (s : S) (v : Nat) : S := Sink.put s (BtcVarInt.toArray v)

def putSlice (s : S) (item : Bytes) : S := Sink.put (putVarint s item.length) item

def putOutpoint (s : S) (input : RawTxIn) : S :=
  Sink.put (Sink.put s input.txid.reverse.toList) (le32 input.vout)

def putOutput (s : S) (output : RawTxOut) : S :=
  putSlice (Sink.put s (le64 output.amount)) output.script

def putInput (s : S) (input : RawTxIn) : S :=
  Sink.put (putSlice (putOutpoint s input) input.scriptSig) (le32 input.sequence)

def putWitness (s : S) (input : RawTxIn) : S :=
  input.witness.foldl putSlice (putVarint s input.witness.length)

end Write

namespace RawTx

variable (tx : RawTx)

def hasWitness : Bool := tx.inputs.any fun i => i.witness ≠ []

/-- Serializes the transaction, with witness data if `witness`. -/
def write {S : Type} [Sink S] (s : S) (witness : Bool) : S :=
  let s := Sink.put s (le32 tx.version)
  let s := if witness then Sink.put s [0x00, 0x01] else s
  let s := tx.inputs.foldl putInput (putVarint s tx.inputs.length)
  let s := tx.outputs.foldl putOutput (putVarint s tx.outputs.length)
  let s := if witness then tx.inputs.foldl putWitness s else s
  Sink.put s (le32 tx.locktime)

/-- Without witness data. -/
def writeUnsigned {S : Type} [Sink S] (s : S) : S := tx.write s false

def serializedLen : Nat := (tx.write ({} : Counter) tx.hasWitness).count

/-- The number of bytes written, and the buffer they were written to. -/
def serializeToSlice (out : Bytes) : Except Error (Nat × Bytes) := do
  let s := tx.write (SliceSink.new out) tx.hasWitness
  let n ← okOr s.finish .bufferTooSmall
  .ok (n, s.out)

def txid (H : Hashes) : ByteVec 32 := (H.dsha256 (tx.write ({} : HashSink) false).fed).reverse

/-- What `write` puts into a sink. -/
def encoding (witness : Bool) : Bytes :=
  le32 tx.version ++ ((if witness then [0x00, 0x01] else []) ++
    ((BtcVarInt.toArray tx.inputs.length ++ tx.inputs.flatMap RawTxIn.encode) ++
      ((BtcVarInt.toArray tx.outputs.length ++ tx.outputs.flatMap RawTxOut.encode) ++
        ((if witness then tx.inputs.flatMap RawTxIn.encodeWitness else []) ++ le32 tx.locktime))))

section Writes

variable {S : Type} [LawfulSink S]

theorem writes_slice (item : Bytes) : Writes (fun s : S => putSlice s item) (varSlice item) :=
  (Writes.put _).comp (Writes.put _)

theorem writes_outpoint (i : RawTxIn) : Writes (fun s : S => putOutpoint s i) i.outpoint :=
  (Writes.put _).comp (Writes.put _)

theorem writes_output (o : RawTxOut) : Writes (fun s : S => putOutput s o) o.encode :=
  (Writes.put _).comp (writes_slice _)

theorem writes_input (i : RawTxIn) : Writes (fun s : S => putInput s i) i.encode := by
  have h := ((writes_outpoint (S := S) i).comp (writes_slice i.scriptSig)).comp
    (Writes.put (le32 i.sequence))
  rw [List.append_assoc] at h
  exact h

theorem writes_witness (i : RawTxIn) : Writes (fun s : S => putWitness s i) i.encodeWitness :=
  (Writes.put _).comp (Writes.foldl writes_slice _)

theorem writes_write (witness : Bool) :
    Writes (fun s : S => tx.write s witness) (tx.encoding witness) := by
  have hmarker : Writes (fun s : S => if witness then Sink.put s [0x00, 0x01] else s)
      (if witness then [0x00, 0x01] else []) := (Writes.put _).ite Writes.skip
  have hinputs := (Writes.put (S := S) (BtcVarInt.toArray tx.inputs.length)).comp
    (Writes.foldl writes_input tx.inputs)
  have houtputs := (Writes.put (S := S) (BtcVarInt.toArray tx.outputs.length)).comp
    (Writes.foldl writes_output tx.outputs)
  have hwitness : Writes (fun s : S => if witness then tx.inputs.foldl putWitness s else s)
      (if witness then tx.inputs.flatMap RawTxIn.encodeWitness else []) :=
    (Writes.foldl writes_witness tx.inputs).ite Writes.skip
  exact (Writes.put _).comp (hmarker.comp (hinputs.comp (houtputs.comp
    (hwitness.comp (Writes.put _)))))

end Writes

theorem serializedLen_eq : tx.serializedLen = (tx.encoding tx.hasWitness).length :=
  Counter.count_of_writes (tx.writes_write _)

theorem txid_eq (H : Hashes) : tx.txid H = (H.dsha256 (tx.encoding false)).reverse := by
  rw [txid, HashSink.fed_of_writes (tx.writes_write false)]

/-- The whole encoding stands at the front of a buffer that is large enough. -/
theorem serializeToSlice_eq (out : Bytes) :
    tx.serializeToSlice out =
      if tx.serializedLen ≤ out.length then
        .ok (tx.serializedLen,
          tx.encoding tx.hasWitness ++ out.drop tx.serializedLen)
      else .error .bufferTooSmall := by
  rw [serializedLen_eq]
  exact SliceSink.slice_of_after ((tx.writes_write tx.hasWitness).after (SliceSink.new out))

end RawTx

end Outscript
