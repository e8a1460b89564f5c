import Outscript.Btc.Raw

/-!
# Signature hashes

The legacy, segwit v0, taproot and unified digests of a transaction source. A
source shows the fields that the digests read; two sources that show the same
have the same digests.
-/
namespace Outscript

open ByteString Fallible

/-- A transaction as seen by the sighash algorithms: only outpoints, sequences,
outputs, version and locktime matter. -/
structure TxSource where
  version : UInt32
  locktime : UInt32
  inputCount : Nat
  inputs : List RawTxIn
  outputs : List RawTxOut
  deriving DecidableEq

/-- The number of inputs is that of the inputs shown. -/
def TxSource.Lawful (tx : TxSource) : Prop := tx.inputCount = tx.inputs.length

def RawTx.source (tx : RawTx) : TxSource :=
  ⟨tx.version, tx.locktime, tx.inputs.length, tx.inputs, tx.outputs⟩

theorem RawTx.lawful_source (tx : RawTx) : tx.source.Lawful := rfl

section Digests

variable (H : Hashes) (tx : TxSource)

/-! ## Legacy and segwit v0 -/

/-- An input with every scriptSig emptied except `scriptCode` at `index`. -/
def legacyInput (index : Nat) (scriptCode : Bytes) (i : Nat) (input : RawTxIn) : Bytes :=
  input.outpoint ++ (varSlice (if i = index then scriptCode else []) ++ le32 input.sequence)

def legacySighashOf (index : Nat) (scriptCode : Bytes) (sighashType : UInt32) :
    Except Error (ByteVec 32) :=
  if tx.inputCount ≤ index then .error .inputIndex
  else .ok (H.dsha256 (le32 tx.version ++ (BtcVarInt.toArray tx.inputCount ++
    ((tx.inputs.mapIdx (legacyInput index scriptCode)).flatten ++
      (BtcVarInt.toArray tx.outputs.length ++ (tx.outputs.flatMap RawTxOut.encode ++
        (le32 tx.locktime ++ le32 sighashType)))))))

/-- BIP-143 hashes shared by every input of a transaction. -/
structure SegwitV0Midstate where
  version : UInt32
  locktime : UInt32
  hashPrevouts : ByteVec 32
  hashSequence : ByteVec 32
  hashOutputs : ByteVec 32
  deriving DecidableEq

def outpointBytes (inputs : List RawTxIn) : Bytes := inputs.flatMap RawTxIn.outpoint

def sequenceBytes (inputs : List RawTxIn) : Bytes := inputs.flatMap fun i => le32 i.sequence

def outputBytes (outputs : List RawTxOut) : Bytes := outputs.flatMap RawTxOut.encode

def segwitV0MidstateOf : SegwitV0Midstate where
  version := tx.version
  locktime := tx.locktime
  hashPrevouts := H.dsha256 (outpointBytes tx.inputs)
  hashSequence := H.dsha256 (sequenceBytes tx.inputs)
  hashOutputs := H.dsha256 (outputBytes tx.outputs)

def SegwitV0Midstate.sighash (m : SegwitV0Midstate) (input : RawTxIn) (scriptCode : Bytes)
    (amount : UInt64) (sighashType : UInt32) : ByteVec 32 :=
  H.dsha256 (le32 m.version ++ (m.hashPrevouts.toList ++ (m.hashSequence.toList ++
    (input.outpoint ++ (varSlice scriptCode ++ (le64 amount ++ (le32 input.sequence ++
      (m.hashOutputs.toList ++ (le32 m.locktime ++ le32 sighashType)))))))))

/-- The scriptCode of a P2WPKH input. -/
def p2pkhScriptCode (pkHash : ByteVec 20) : Bytes :=
  [0x76, 0xa9, 0x14] ++ (pkHash.toList ++ [0x88, 0xac])

/-! ## Taproot -/

/-- BIP-341 hashes shared by every input of a transaction. -/
structure TaprootMidstate where
  version : UInt32
  locktime : UInt32
  inputCount : Nat
  shaPrevouts : ByteVec 32
  shaAmounts : ByteVec 32
  shaScriptpubkeys : ByteVec 32
  shaSequences : ByteVec 32
  shaOutputs : ByteVec 32
  deriving DecidableEq

def amountBytes (prevouts : List PrevOut) : Bytes := prevouts.flatMap fun p => le64 p.amount

def scriptBytes (prevouts : List PrevOut) : Bytes := prevouts.flatMap fun p => varSlice p.script

/-- The midstate of `tx` given the outputs its inputs spend, in order. -/
def taprootMidstateOf (prevouts : List PrevOut) : Except Error TaprootMidstate :=
  if prevouts.length ≠ tx.inputCount then .error .prevOutCount
  else .ok {
    version := tx.version
    locktime := tx.locktime
    inputCount := prevouts.length
    shaPrevouts := H.sha256 (outpointBytes tx.inputs)
    shaAmounts := H.sha256 (amountBytes prevouts)
    shaScriptpubkeys := H.sha256 (scriptBytes prevouts)
    shaSequences := H.sha256 (sequenceBytes tx.inputs)
    shaOutputs := H.sha256 (outputBytes tx.outputs) }

/-- The index as the digest carries it. -/
def TaprootMidstate.check (mid : TaprootMidstate) (index : Nat) : Except Error UInt32 :=
  if mid.inputCount ≤ index then .error .inputIndex else .ok (UInt32.ofNat index)

/-- Which leaf a script-path spend executes. -/
structure TapScriptPath where
  leafHash : ByteVec 32
  codesepPos : UInt32
  deriving DecidableEq

structure TapSighash where
  hashType : UInt8
  annex : Option Bytes
  scriptPath : Option TapScriptPath
  deriving DecidableEq

/-- An annex starts with 0x50. -/
def checkAnnex : Option Bytes → Except Error Unit
  | some annex => if annex.head? ≠ some 0x50 then .error .invalidData else .ok ()
  | none => .ok ()

/-- SINGLE commits to the output at the input's own index. -/
def singleOutput (single : Bool) (index : Nat) : Except Error (Option (ByteVec 32)) :=
  if single then
    match tx.outputs[index]? with
    | some o => .ok (some (H.sha256 o.encode))
    | none => .error .outputIndex
  else .ok none

/-- The hashes of all inputs, unless only the own one is signed. -/
def aggregates (mid : TaprootMidstate) (anyoneCanPay : Bool) : Bytes :=
  if anyoneCanPay then []
  else mid.shaPrevouts.toList ++ (mid.shaAmounts.toList ++ (mid.shaScriptpubkeys.toList ++
    mid.shaSequences.toList))

def allOutputs (mid : TaprootMidstate) (none single : Bool) : Bytes :=
  if !none && !single then mid.shaOutputs.toList else []

/-- The signed input, or its index. -/
def ownInput (index : Nat) (index32 : UInt32) (prevout : PrevOut) (anyoneCanPay : Bool) : Bytes :=
  if anyoneCanPay then
    match tx.inputs[index]? with
    -- amount, then scriptPubKey
    | some input => input.outpoint ++ (prevout.encode ++ le32 input.sequence)
    | none => []
  else le32 index32

def annexHash (annex : Bytes) : Bytes := (H.sha256 (varSlice annex)).toList

def leafBytes : Option TapScriptPath → Bytes
  | some leaf => leaf.leafHash.toList ++ ([0x00] ++ le32 leaf.codesepPos)
  | none => []

/-- What is hashed behind the tag. -/
def taprootParts (mid : TaprootMidstate) (index : Nat) (index32 : UInt32) (prevout : PrevOut)
    (opts : TapSighash) (shaSingleOutput : Option (ByteVec 32)) : List Bytes :=
  let hashType := opts.hashType
  let anyoneCanPay := hashType &&& 0x80 ≠ 0
  let none := hashType &&& 3 = 2
  let single := hashType &&& 3 = 3
  let spendType := 2 * opts.scriptPath.isSome.toNat + opts.annex.isSome.toNat
  [[0x00, hashType], le32 mid.version, le32 mid.locktime,
    aggregates mid anyoneCanPay, allOutputs mid none single,
    [UInt8.ofNat spendType],
    ownInput tx index index32 prevout anyoneCanPay,
    (opts.annex.map (annexHash H)).getD [],
    (shaSingleOutput.map List.Vector.toList).getD [],
    leafBytes opts.scriptPath]

/-- The BIP-341 signature hash of input `index` of `tx`, which spends `prevout`. -/
def taprootSighashOf (mid : TaprootMidstate) (index : Nat) (prevout : PrevOut) (opts : TapSighash) :
    Except Error (ByteVec 32) := do
  if opts.hashType ∉ [0x00, 0x01, 0x02, 0x03, 0x81, 0x82, 0x83] then .error .unsupportedSighash
  else do
    let index32 ← mid.check index
    checkAnnex opts.annex
    let shaSingleOutput ← singleOutput H tx (opts.hashType &&& 3 = 3) index
    .ok (H.taggedHash "TapSighash" (taprootParts H tx mid index index32 prevout opts shaSingleOutput))

/-! ## Unified -/

/-- What a unified sighash commits to about the script being executed. -/
inductive UnifiedSpend where
  | legacy (code : Bytes)
  | segwitV0 (code : Bytes)
  | taproot (annex : Option Bytes) (scriptPath : Option TapScriptPath)
  deriving DecidableEq

namespace UnifiedSpend

def scriptType : UnifiedSpend → UInt8
  | legacy _ => 0
  | segwitV0 _ => 1
  | taproot _ scriptPath => 2 + UInt8.ofNat scriptPath.isSome.toNat

def annex : UnifiedSpend → Option Bytes
  | taproot annex _ => annex
  | _ => none

def scriptPath : UnifiedSpend → Option TapScriptPath
  | taproot _ scriptPath => scriptPath
  | _ => none

/-- The script code, or the annex behind a byte that tells whether there is one. -/
def body : UnifiedSpend → Bytes
  | legacy code => varSlice code
  | segwitV0 code => varSlice code
  | taproot (some annex) _ => [0x01] ++ annexHash H annex
  | taproot none _ => [0x00]

end UnifiedSpend

/-- Whether `hashType` opts `spend` into the unified sighash. -/
def isUnifiedHashType (hashType : UInt8) (spend : UnifiedSpend) : Bool :=
  decide (hashType &&& 0x20 ≠ 0) &&
    match spend with
    | .legacy _ | .segwitV0 _ => true
    | .taproot _ _ => decide (hashType &&& 0x7f ∈ [0x21, 0x22, 0x23])

/-- What is hashed behind the tag. -/
def unifiedParts (mid : TaprootMidstate) (index : Nat) (index32 : UInt32) (prevout : PrevOut)
    (hashType : UInt8) (spend : UnifiedSpend) (shaSingleOutput : Option (ByteVec 32)) : List Bytes :=
  let anyoneCanPay := hashType &&& 0x80 ≠ 0
  -- anything but NONE and SINGLE signs all outputs
  let none := hashType &&& 0x1f = 2
  let single := hashType &&& 0x1f = 3
  [[0x00, hashType], le32 mid.version,
    -- locktime is five bytes here
    le32 mid.locktime ++ [0x00],
    aggregates mid anyoneCanPay, allOutputs mid none single,
    [spend.scriptType],
    ownInput tx index index32 prevout anyoneCanPay,
    spend.body H,
    (shaSingleOutput.map List.Vector.toList).getD [],
    leafBytes spend.scriptPath]

def unifiedSighashOf (mid : TaprootMidstate) (index : Nat) (prevout : PrevOut) (hashType : UInt8)
    (spend : UnifiedSpend) : Except Error (ByteVec 32) := do
  if isUnifiedHashType hashType spend = false then .error .unsupportedSighash
  else do
    let index32 ← mid.check index
    checkAnnex spend.annex
    let shaSingleOutput ← singleOutput H tx (hashType &&& 0x1f = 3) index
    .ok (H.taggedHash "UnifiedSighash"
      (unifiedParts H tx mid index index32 prevout hashType spend shaSingleOutput))

end Digests

end Outscript
