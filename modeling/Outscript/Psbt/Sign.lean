import Outscript.Btc.Midstate
import Outscript.ControlBlock
import Outscript.Crypto.Der
import Outscript.Library.StateLoop
import Outscript.Psbt.Create
import Outscript.Psbt.Resolve

/-!
# The signer

A signer is asked for signatures and keeps a state of its own. An input gets at
most nine records from one call: an ECDSA signature, or a key-path signature and
signatures for up to eight leaves, kept in buffers of fixed sizes; overrunning
one is a panic.
-/
namespace Outscript.Psbt

open ByteString Cursor Fallible Taproot Secp256k1

/-- Up to `n` bytes stored inline. -/
structure InlineBytes (n : Nat) where
  bytes : Bytes
  fits : bytes.length ≤ n
  deriving DecidableEq

namespace InlineBytes

variable {n : Nat}

def empty : InlineBytes n := ⟨[], Nat.zero_le _⟩

def extendFromSlice (v : InlineBytes n) (data : Bytes) : Option (InlineBytes n) :=
  if h : (v.bytes ++ data).length ≤ n then some ⟨v.bytes ++ data, h⟩ else none

/-- Appends, or panics if it does not fit. -/
def expectExtend (v : InlineBytes n) (data : Bytes) : Except Trap (InlineBytes n) :=
  okOr (v.extendFromSlice data) .panic

end InlineBytes

/-- A key that can sign inputs, over a state `σ` that the calls may change. -/
structure PsbtSigner (C : Purecrypto) (σ : Type) where
  publicKey : σ → SecpPublicKey C
  signEcdsa : ByteVec 32 → σ → Option DerSignature × σ
  signTaprootWithRoot : ByteVec 32 → Option (ByteVec 32) → σ → Option (ByteVec 64) × σ
  signSchnorr : ByteVec 32 → σ → Option (ByteVec 64) × σ

/-! ## Signature records -/

/-- A signature record to add to an input map. -/
structure Signed where
  key : InlineBytes 66
  value : InlineBytes 73
  deriving DecidableEq

def Signed.record (signed : Signed) : NewRecord := ⟨signed.key.bytes, [], signed.value.bytes⟩

/-- The most taproot leaves one signing call signs per input. Leaves that
already carry this key's signature are skipped, so signing again covers the
rest. -/
def maxLeafSigs : Nat := 8

/-- The signature records one signer adds to one input. -/
structure SignedSet where
  items : List Signed
  fits : items.length ≤ 1 + maxLeafSigs

namespace SignedSet

def empty : SignedSet := ⟨[], Nat.zero_le _⟩

def push (set : SignedSet) (signed : Signed) : Except Trap SignedSet :=
  if h : set.items.length < 1 + maxLeafSigs then
    .ok ⟨set.items ++ [signed], by rw [List.length_append]; exact Nat.succ_le_of_lt h⟩
  else .error .panic

def isFull (set : SignedSet) : Bool := decide (set.items.length = 1 + maxLeafSigs)

def records (set : SignedSet) : List NewRecord := set.items.map Signed.record

end SignedSet

/-- A taproot signature record: the 64-byte signature, followed by the sighash
type unless it is `SIGHASH_DEFAULT`. -/
def schnorrRecord (key : List Bytes) (sig : ByteVec 64) (hashType : UInt8) : Except Trap Signed := do
  let key ← key.foldlM InlineBytes.expectExtend .empty
  let value ← InlineBytes.empty.expectExtend sig.toList
  let value ← if hashType ≠ 0 then value.expectExtend [hashType] else .ok value
  .ok ⟨key, value⟩

def SignedSet.pushSchnorr (set : SignedSet) (key : List Bytes) (sig : ByteVec 64)
    (hashType : UInt8) : Except Trap SignedSet := do
  let signed ← schnorrRecord key sig hashType
  set.push signed

/-- A sighash type that opts in to the unified sighash. -/
def sighashUnified : UInt8 := 0x20

def isUnified (hashType : UInt8) : Bool := decide (hashType &&& sighashUnified ≠ 0)

/-- The hash types for taproot; `SIGHASH_DEFAULT` if there is none. -/
def taprootHashType (sighashType : Option Nat) : Except Error UInt8 :=
  match sighashType with
  | none => .ok 0
  | some t =>
    if t ≤ 0x03 ∨ (0x81 ≤ t ∧ t ≤ 0x83) ∨ (0x21 ≤ t ∧ t ≤ 0x23) ∨ (0xa1 ≤ t ∧ t ≤ 0xa3) then
      .ok (UInt8.ofNat t)
    else .error .unsupportedSighash

/-- The hash types for ECDSA; `SIGHASH_ALL` if there is none. -/
def ecdsaHashType (sighashType : Option Nat) : Except Error UInt8 :=
  let t := sighashType.getD 1
  if t = 1 then .ok 1
  else if t ≤ 0xff ∧ isUnified (UInt8.ofNat t) then .ok (UInt8.ofNat t)
  else .error .unsupportedSighash

section Model

variable (C : Purecrypto) {σ : Type} (p : View)

/-! ## Digests -/

/-- The midstate that commits to the UTXOs of all inputs. -/
def taprootMidstate : Except Error TaprootMidstate :=
  match (List.range p.tx.layout.inputCount).mapM (p.utxo C.toHashes) with
  | .error _ => .error .missingUtxo
  | .ok prevouts =>
    (taprootMidstateOf C.toHashes p.tx.source prevouts).mapError fun _ => .missingUtxo

/-- The digest a taproot signature on input `index` commits to: the unified
sighash if `hashType` opts in. -/
def taprootDigest (index : Nat) (res : Resolved) (hashType : UInt8)
    (scriptPath : Option TapScriptPath) : Except Error (ByteVec 32) := do
  let mid ← taprootMidstate C p
  if isUnified hashType then
    unifiedSighashOf C.toHashes p.tx.source mid index res.utxo hashType (.taproot none scriptPath)
  else
    taprootSighashOf C.toHashes p.tx.source mid index res.utxo
      { TapSighash.new hashType with scriptPath }

/-- The digest an ECDSA signature commits to. -/
def ecdsaDigest (index : Nat) (res : Resolved) (hashType : UInt8) (scriptCode : Bytes)
    (segwit : Bool) : Except Error (ByteVec 32) :=
  if isUnified hashType then do
    let mid ← taprootMidstate C p
    unifiedSighashOf C.toHashes p.tx.source mid index res.utxo hashType
      (if segwit then .segwitV0 scriptCode else .legacy scriptCode)
  else if segwit then
    .ok ((segwitV0MidstateOf C.toHashes p.tx.source).sighash C.toHashes res.outpoint scriptCode
      res.utxo.amount 1)
  else
    (legacySighashOf C.toHashes p.tx.source index scriptCode 1).mapError fun _ => .inputIndex

/-! ## Signing an input -/

/-- Whether the key, tweaked with the merkle root, gives the output key. -/
def isInternalKey (inp : Map) (xOnly outputKey : ByteVec 32) : Bool :=
  (PsbtInput.tapInternalKey inp).all (fun k => decide (k = xOnly)) &&
    match taprootTweakWithRoot C xOnly (PsbtInput.tapMerkleRoot inp) with
    | .ok (key, _) => decide (key = outputKey)
    | .error _ => false

/-- The hash of a proven tapscript leaf that pushes the key. -/
def involvedLeaf (xOnly outputKey : ByteVec 32) (leaf : TapLeafScript) : Option (ByteVec 32) :=
  if leaf.leafVersion ≠ tapscriptLeafVersion then none
  else if xOnly.toList ∉ forEachPush leaf.script then none
  else
    match ControlBlock.parse leaf.controlBlock with
    | .error _ => none
    | .ok cb =>
      if cb.leafVersion ≠ leaf.leafVersion ∨ cb.verify C leaf.script outputKey = false then none
      else some (cb.leafHash C leaf.script)

/-- The hash of a leaf that is to be signed: one that is not signed yet. -/
def leafToSign (inp : Map) (xOnly outputKey : ByteVec 32) (leaf : TapLeafScript) :
    Option (ByteVec 32) :=
  match involvedLeaf C xOnly outputKey leaf with
  | none => none
  | some leafHash =>
    if (PsbtInput.tapScriptSig inp xOnly leafHash).isSome then none else some leafHash

variable {C}

/-- Signs the key path if the signer holds its key; whether the signer failed. -/
def signKeyPath (index : Nat) (inp : Map) (res : Resolved) (hashType : UInt8)
    (signer : PsbtSigner C σ) (xOnly outputKey : ByteVec 32) : Call σ Trap (SignedSet × Bool) :=
  if isInternalKey C inp xOnly outputKey then do
    let sighash ← Call.lift (orTrap (taprootDigest C p index res hashType none))
    match ← Call.act (signer.signTaprootWithRoot sighash (PsbtInput.tapMerkleRoot inp)) with
    | some sig => do
      let set ← Call.lift
        (SignedSet.empty.pushSchnorr [[UInt8.ofNat Input.tapKeySig]] sig hashType)
      return (set, false)
    | none => return (.empty, true)
  else return (.empty, false)

/-- Signs the leaves until the set is full; whether the signer failed. -/
def signLeaves (index : Nat) (inp : Map) (res : Resolved) (hashType : UInt8)
    (signer : PsbtSigner C σ) (xOnly outputKey : ByteVec 32) :
    List TapLeafScript → SignedSet × Bool → Call σ Trap (SignedSet × Bool)
  | [], acc => return acc
  | leaf :: leaves, acc =>
    if acc.1.isFull then return acc
    else
      match leafToSign C inp xOnly outputKey leaf with
      | none => signLeaves index inp res hashType signer xOnly outputKey leaves acc
      | some leafHash => do
        let sighash ← Call.lift
          (orTrap (taprootDigest C p index res hashType (some (TapScriptPath.new leafHash))))
        match ← Call.act (signer.signSchnorr sighash) with
        | some sig => do
          let set ← Call.lift (acc.1.pushSchnorr
            [[UInt8.ofNat Input.tapScriptSig], xOnly.toList, leafHash.toList] sig hashType)
          signLeaves index inp res hashType signer xOnly outputKey leaves (set, acc.2)
        | none => signLeaves index inp res hashType signer xOnly outputKey leaves (acc.1, true)

/-- A compressed key without its parity. -/
def xOnlyOf (comp : ByteVec 33) : ByteVec 32 := comp.tail

def signTaproot (index : Nat) (inp : Map) (res : Resolved) (signer : PsbtSigner C σ)
    (comp : ByteVec 33) (outputKey : ByteVec 32) : Call σ Trap SignedSet := do
  let xOnly := xOnlyOf comp
  let hashType ← Call.lift (orTrap (taprootHashType (PsbtInput.sighashType inp)))
  let acc ← signKeyPath p index inp res hashType signer xOnly outputKey
  let acc ← signLeaves p index inp res hashType signer xOnly outputKey
    (PsbtInput.tapLeafScripts inp) acc
  -- a signer that cannot do one of the two still signs what it can
  if acc.1.items.length = 0 ∧ acc.2 then Call.lift (.error (.error .signer)) else return acc.1

/-- A partial signature record: the signature, followed by the sighash type. -/
def partialSigRecord (key : Bytes) (der : DerSignature) (hashType : UInt8) : Except Trap Signed := do
  let value ← orTrap (okOr (InlineBytes.empty.extendFromSlice der.bytes) .signer)
  let value ← value.expectExtend [hashType]
  let k ← InlineBytes.empty.expectExtend [UInt8.ofNat Input.partialSig]
  let k ← k.expectExtend key
  .ok ⟨k, value⟩

def signEcdsa (index : Nat) (inp : Map) (res : Resolved) (signer : PsbtSigner C σ)
    (scriptCode : Bytes) (segwit : Bool) (key : Bytes) : Call σ Trap (Option Signed) := do
  let hashType ← Call.lift (orTrap (ecdsaHashType (PsbtInput.sighashType inp)))
  let digest ← Call.lift (orTrap (ecdsaDigest C p index res hashType scriptCode segwit))
  let der ← Call.act (signer.signEcdsa digest)
  match der with
  | none => Call.lift (.error (.error .signer))
  | some der => do
    let signed ← Call.lift (partialSigRecord key der hashType)
    return some signed

/-- Taproot signatures go into the set; an ECDSA signature is returned. -/
def signInputEcdsaOrTaproot (index : Nat) (signer : PsbtSigner C σ) :
    Call σ Trap (SignedSet × Option Signed) := do
  let inp ← Call.lift (orTrap (okOr (p.input index) .inputIndex))
  if PsbtInput.isFinalized inp then return (.empty, none)
  else do
    let res ← Call.lift (orTrap (resolve C p index))
    let pubkey ← Call.act fun s => (signer.publicKey s, s)
    let comp := C.toSec1Compressed pubkey
    let uncomp := C.toSec1Uncompressed pubkey
    match res.kind with
    | .p2tr outputKey => do
      let set ← signTaproot p index inp res signer comp outputKey
      return (set, none)
    | .p2wpkh hash =>
      if C.hash160 comp.toList ≠ hash then return (.empty, none)
      else do
        let signed ← signEcdsa p index inp res signer (p2pkhScriptCode hash) true comp.toList
        return (.empty, signed)
    | .p2wsh ws =>
      match keyInScript C.toHashes ws comp uncomp with
      | none => return (.empty, none)
      | some key => do
        let signed ← signEcdsa p index inp res signer ws true key
        return (.empty, signed)
    | .legacy script =>
      match keyInScript C.toHashes script comp uncomp with
      | none => return (.empty, none)
      | some key => do
        let signed ← signEcdsa p index inp res signer script false key
        return (.empty, signed)

/-- Signs input `index` wherever the signer's key is involved (an empty set if
it is not). -/
def signInput (index : Nat) (signer : PsbtSigner C σ) : Call σ Trap SignedSet := do
  let (set, signed) ← signInputEcdsaOrTaproot p index signer
  match signed with
  | some signed => Call.lift (set.push signed)
  | none => return set

/-! ## Signing a PSBT -/

/-- An upper bound on the size of a PSBT produced by signing this one. -/
def View.signLenBound : Nat :=
  -- per input: key length + 66-byte key + value length + 73-byte value, plus a
  -- 65-byte key and 65-byte signature per taproot leaf signed
  let leafSigs := (p.inputs.map fun inp =>
    min (PsbtInput.tapLeafScripts inp).length maxLeafSigs).sum
  p.len + p.tx.layout.inputCount * 141 + leafSigs * 132

/-- Writes one map with its signatures, and counts it if there are any. -/
def signMap (signer : PsbtSigner C σ) (loc : MapLoc) (map : Map) :
    StateT (σ × Nat) (Except Trap) Bytes := fun (s, count) =>
  match loc with
  | .input i =>
    match signInput p i signer s with
    | (.ok set, s) =>
      if 0 < set.items.length then .ok (writeMap map (.add set.records), (s, count + 1))
      else .ok (writeMap map .none, (s, count))
    | (.error (.error e), s) =>
      if skippable e then .ok (writeMap map .none, (s, count)) else .error (.error e)
    | (.error .panic, _) => .error .panic
  | _ => .ok (writeMap map .none, (s, count))

/-- The bytes written, the number of inputs signed, and the signer's state. -/
def signToSlice (signer : PsbtSigner C σ) (cap : Nat) (s : σ) :
    Except Trap (Bytes × Nat × σ) := do
  let (bytes, s, count) ← (p.write (signMap p signer)).run (s, 0)
  let out ← orTrap (emit C cap (.ok bytes))
  .ok (out, count, s)

/-- Signs input `index` alone. -/
def signInputToSlice (index : Nat) (signer : PsbtSigner C σ) (cap : Nat) (s : σ) :
    Except Trap Bytes :=
  match signInput p index signer s with
  | (.error e, _) => .error e
  | (.ok set, _) =>
    if set.items.length = 0 then .error (.error .keyNotInvolved)
    else orTrap (editMap C p cap (.input index) (.add set.records))

end Model

end Outscript.Psbt
