import Outscript.Btc.Midstate
import Outscript.Btc.Tx
import Outscript.ControlBlock
import Outscript.Crypto.Der
import Outscript.Library.StateLoop
import Outscript.PushBytes

/-!
# Signing a transaction

Every input has an entry that names a signer and a scheme. The inputs are signed
in place, one after the other. The midstates that their digests share are
computed on first use and kept until the call returns.
-/
namespace Outscript

open ByteString Fallible Taproot Secp256k1

/-- A signer for one input. An entry asks it for at most one signature, so that
what it answers is a function of the request. -/
structure Signer (C : Purecrypto) where
  ecdsaPublicKey : Option (SecpPublicKey C)
  signEcdsaDer : ByteVec 32 → Option DerSignature
  signTaprootWithRoot : ByteVec 32 → Option (ByteVec 32) → Option (ByteVec 64)
  signSchnorr : ByteVec 32 → Option (ByteVec 64)

/-! ## Schemes -/

/-- Scripts for one key. -/
inductive KeyScript where
  | p2pkh
  | p2pk
  | p2pukh
  | p2puk
  deriving DecidableEq

/-- The formats that signing generates for a key. -/
inductive Format where
  | comp
  | uncomp
  | script (name : KeyScript)
  deriving DecidableEq

inductive Scheme where
  | p2pk
  | p2pkh
  | p2pukh
  | p2wpkh
  | p2shP2wpkh
  /-- The inner scheme is to be detected. -/
  | p2wsh
  | p2wshOf (inner : KeyScript)
  | p2tr
  deriving DecidableEq

def Scheme.parse : String → Option Scheme
  | "p2pk" => some .p2pk
  | "p2pkh" => some .p2pkh
  | "p2pukh" => some .p2pukh
  | "p2wpkh" => some .p2wpkh
  | "p2sh:p2wpkh" => some .p2shP2wpkh
  | "p2wsh" => some .p2wsh
  | "p2wsh:p2pk" => some (.p2wshOf .p2pk)
  | "p2wsh:p2puk" => some (.p2wshOf .p2puk)
  | "p2wsh:p2pkh" => some (.p2wshOf .p2pkh)
  | "p2wsh:p2pukh" => some (.p2wshOf .p2pukh)
  | "p2tr" => some .p2tr
  | _ => none

/-- Signing parameters for a single transaction input. -/
structure BtcTxSign (C : Purecrypto) where
  key : Option (Signer C)
  scheme : String
  amount : UInt64
  /-- 0 is `SIGHASH_ALL`, except for taproot where it is `SIGHASH_DEFAULT`. -/
  sighash : UInt32
  prevScript : Bytes
  tapMerkleRoot : Option (ByteVec 32)
  /-- A leaf script and its control block. -/
  tapLeaf : Option (Bytes × Bytes)

/-- The output the entry's input spends. -/
def BtcTxSign.prevout {C : Purecrypto} (k : BtcTxSign C) : PrevOut := ⟨k.amount, k.prevScript⟩

/-- The flag of an ECDSA signature. -/
def BtcTxSign.flag {C : Purecrypto} (k : BtcTxSign C) : UInt32 :=
  if k.scheme ≠ "p2tr" ∧ k.sighash = 0 then 1 else k.sighash

/-! ## The transaction that is signed -/

/-- The outpoint and sequence. -/
def BtcTxInput.raw (i : BtcTxInput) : RawTxIn := ⟨i.txid, i.vout, [], i.sequence, []⟩

namespace BtcTx

variable (tx : BtcTx)

/-- The view that digests are computed from; it has no scriptSigs and no witnesses. -/
def withRaw : RawTx where
  version := tx.version
  inputs := tx.inputs.map BtcTxInput.raw
  outputs := tx.outputs.map fun o => ⟨o.amount, o.script⟩
  locktime := tx.locktime

def source : TxSource := tx.withRaw.source

/-- `self.inputs[n]`; signing stays in range. -/
def input (n : Nat) : BtcTxInput :=
  tx.inputs.getD n ⟨List.Vector.replicate 32 0, 0, [], 0, []⟩

def edit (n : Nat) (f : BtcTxInput → BtcTxInput) : BtcTx :=
  { tx with inputs := tx.inputs.modify n f }

end BtcTx

/-- The prevouts, each of which must have a script. -/
def collectPrevouts (prevouts : List PrevOut) : Except Error (List PrevOut) :=
  prevouts.zipIdx.mapM fun (p, i) =>
    if p.script = [] then .error (.missingPrevScript i) else .ok p

/-- Midstates shared by the inputs of one call. -/
structure SighashCache where
  segwit : Option SegwitV0Midstate
  taproot : Option TaprootMidstate

/-- What a signing call works on. -/
structure Signing where
  tx : BtcTx
  cache : SighashCache

abbrev SignCall := Call Signing Error

section Model

variable (C : Purecrypto) (keys : List (BtcTxSign C))

def generateScript (pk : SecpPublicKey C) : Format → Bytes
  | .comp => (C.toSec1Compressed pk).toList
  | .uncomp => (C.toSec1Uncompressed pk).toList
  | .script .p2pkh =>
    [0x76, 0xa9, 0x14] ++ ((C.hash160 (C.toSec1Compressed pk).toList).toList ++ [0x88, 0xac])
  | .script .p2pukh =>
    [0x76, 0xa9, 0x14] ++ ((C.hash160 (C.toSec1Uncompressed pk).toList).toList ++ [0x88, 0xac])
  | .script .p2pk => [0x21] ++ ((C.toSec1Compressed pk).toList ++ [0xac])
  | .script .p2puk => [0x41] ++ ((C.toSec1Uncompressed pk).toList ++ [0xac])

variable {C} in
def signerPubkeyScript (key : Signer C) (name : Format) : Except Error Bytes := do
  let pk ← okOr key.ecdsaPublicKey .noPublicKey
  return generateScript C pk name

variable {C} in
def BtcTx.taprootSighashPartsFromKeys (tx : BtcTx) : Except Error TaprootMidstate :=
  if keys.length ≠ tx.inputs.length then .error .keyCount
  else do
    let prevouts ← collectPrevouts (keys.map BtcTxSign.prevout)
    taprootMidstateOf C.toHashes tx.source prevouts

/-! ## Digests -/

/-- `self`, as it is now. -/
def self : SignCall BtcTx := Call.act fun s => (s.tx, s)

/-- The BIP-143 hashes shared by every input. -/
def cachedSegwit : SignCall SegwitV0Midstate :=
  Call.act fun s =>
    match s.cache.segwit with
    | some mid => (mid, s)
    | none =>
      let mid := segwitV0MidstateOf C.toHashes s.tx.source
      (mid, { s with cache := { s.cache with segwit := some mid } })

/-- The BIP-341 aggregates, shared with the unified sighash. -/
def cachedTaproot : SignCall TaprootMidstate := fun s =>
  match s.cache.taproot with
  | some parts => (.ok parts, s)
  | none =>
    match s.tx.taprootSighashPartsFromKeys keys with
    | .error e => (.error e, s)
    | .ok parts => (.ok parts, { s with cache := { s.cache with taproot := some parts } })

/-- The unified sighash of input `n`, through the cached midstate. -/
def unifiedDigest (n : Nat) (k : BtcTxSign C) (hashType : UInt8) (spend : UnifiedSpend) :
    SignCall (ByteVec 32) := do
  let mid ← cachedTaproot C keys
  let tx ← self
  Call.lift (unifiedSighashOf C.toHashes tx.source mid n k.prevout hashType spend)

/-- A flag that opts in to the unified sighash. -/
def optsUnified (sighash : UInt32) : Bool := decide (sighash &&& 0x20 ≠ 0)

/-- The digest an ECDSA signature on input `n` commits to. -/
def ecdsaDigest (n : Nat) (k : BtcTxSign C) (scriptCode : Bytes) (segwit : Bool)
    (sighash : UInt32) : SignCall (ByteVec 32) :=
  if optsUnified sighash then
    -- 0x40 is the Bitcoin Cash fork id, whose digests differ
    if sighash ≤ 0xff ∧ sighash &&& 0x40 = 0 then
      unifiedDigest C keys n k sighash.toUInt8
        (if segwit then .segwitV0 scriptCode else .legacy scriptCode)
    else Call.lift (.error .unsupportedSighash)
  else if segwit then do
    let mid ← cachedSegwit C
    let tx ← self
    return mid.sighash C.toHashes (tx.input n).raw scriptCode k.amount sighash
  else do
    let tx ← self
    Call.lift (legacySighashOf C.toHashes tx.source n scriptCode sighash)

/-! ## Schemes with an ECDSA signature -/

/-- Overwrites parts of `self.inputs[n]`. -/
def editInput (n : Nat) (f : BtcTxInput → BtcTxInput) : SignCall Unit :=
  Call.act fun s => ((), { s with tx := s.tx.edit n f })

variable {C} in
/-- The signature, with the flag's low byte behind it. -/
def ecdsaSignature (key : Signer C) (digest : ByteVec 32) (sighash : UInt32) :
    Except Error Bytes := do
  let sig ← okOr (key.signEcdsaDer digest) .signer
  return sig.bytes ++ [sighash.toUInt8]

def p2pkSign (n : Nat) (k : BtcTxSign C) (key : Signer C) (sighash : UInt32) : SignCall Unit := do
  let scriptCode ← Call.lift (signerPubkeyScript key (.script .p2pk))
  let digest ← ecdsaDigest C keys n k scriptCode false sighash
  let sig ← Call.lift (ecdsaSignature key digest sighash)
  editInput n fun i => { i with script := pushBytes sig }

/-- The schemes with a witness for a key hash, and Bitcoin Cash's p2pkh and p2pukh. -/
def p2wpkhSign (n : Nat) (k : BtcTxSign C) (key : Signer C) (scheme : Scheme) (sighash : UInt32) :
    SignCall Unit := do
  let pubkey ← Call.lift (signerPubkeyScript key (if scheme = .p2pukh then .uncomp else .comp))
  let pkHash := C.hash160 pubkey
  let digest ← ecdsaDigest C keys n k (p2pkhScriptCode pkHash) true sighash
  let sig ← Call.lift (ecdsaSignature key digest sighash)
  match scheme with
  | .p2pkh | .p2pukh => editInput n fun i => { i with script := pushBytes sig ++ pushBytes pubkey }
  | .p2wpkh => editInput n fun i => { i with witnesses := [sig, pubkey], script := [] }
  | .p2shP2wpkh => editInput n fun i =>
      { i with witnesses := [sig, pubkey], script := pushBytes (0x00 :: pushBytes pkHash.toList) }
  | _ => pure ()

/-- The schemes `p2pkh` and `p2pukh`, where the key is written in format `pubkey`. -/
def p2pkhSign (n : Nat) (k : BtcTxSign C) (key : Signer C) (scheme : Scheme) (script : KeyScript)
    (pubkey : Format) (sighash : UInt32) : SignCall Unit :=
  if sighash &&& 0x40 = 0x40 then
    -- Bitcoin Cash fork id: same preimage as segwit
    p2wpkhSign C keys n k key scheme sighash
  else do
    let scriptCode ← Call.lift (signerPubkeyScript key (.script script))
    let digest ← ecdsaDigest C keys n k scriptCode false sighash
    let sig ← Call.lift (ecdsaSignature key digest sighash)
    let pubkey ← Call.lift (signerPubkeyScript key pubkey)
    editInput n fun i => { i with script := pushBytes sig ++ pushBytes pubkey }

/-- The candidate whose script has the hash in the scriptSig; the first one if
there is none in it. -/
def detectP2wshInner (script : Bytes) (key : Signer C) : Except Error (KeyScript × Bytes) := do
  let pk ← okOr key.ecdsaPublicKey .noPublicKey
  let targetHash := between [0x00, 0x20] [] 32 script
  let candidates := [KeyScript.p2pkh, .p2pk, .p2pukh, .p2puk].map fun inner =>
    (inner, generateScript C pk (.script inner))
  okOr (candidates.find? fun (_, ws) => targetHash.all fun t => decide (C.sha256 ws = t))
    .noMatchingWitnessScript

/-- The given inner scheme, or the detected one. -/
def p2wshInner (script : Bytes) (key : Signer C) : Option KeyScript →
    Except Error (KeyScript × Bytes)
  | none => detectP2wshInner C script key
  | some inner => do
    let witnessScript ← signerPubkeyScript key (.script inner)
    return (inner, witnessScript)

def p2wshSign (n : Nat) (k : BtcTxSign C) (key : Signer C) (inner : Option KeyScript)
    (sighash : UInt32) : SignCall Unit := do
  let tx ← self
  let (inner, witnessScript) ← Call.lift (p2wshInner C (tx.input n).script key inner)
  let digest ← ecdsaDigest C keys n k witnessScript true sighash
  let sig ← Call.lift (ecdsaSignature key digest sighash)
  let witnesses ← match inner with
    | .p2pk | .p2puk => pure [sig, witnessScript]
    | .p2pkh => do
      let pubkey ← Call.lift (signerPubkeyScript key .comp)
      pure [sig, pubkey, witnessScript]
    | .p2pukh => do
      let pubkey ← Call.lift (signerPubkeyScript key .uncomp)
      pure [sig, pubkey, witnessScript]
  editInput n fun i => { i with witnesses, script := [] }

/-! ## Taproot -/

/-- The hash types of BIP-341, and those of the unified sighash. -/
def p2trHashType (t : UInt32) : Except Error UInt8 :=
  if t ≤ 0x03 ∨ (0x81 ≤ t ∧ t ≤ 0x83) ∨ (0x21 ≤ t ∧ t ≤ 0x23) ∨ (0xa1 ≤ t ∧ t ≤ 0xa3) then
    .ok t.toUInt8
  else .error .unsupportedSighash

/-- The leaf that the input is spent through, checked against the spent output. -/
def p2trLeaf (key : Signer C) (k : BtcTxSign C) : Except Error (Option TapScriptPath) :=
  match k.tapLeaf with
  | none => .ok none
  | some (script, controlBlock) => do
    -- only a `<32-byte key> OP_CHECKSIG` leaf has the witness built here
    let leafKey ← okOr (between [0x20] [0xac] 32 script) .unsupportedScript
    if key.ecdsaPublicKey.any fun pk => decide ((C.toSec1Compressed pk).tail ≠ leafKey) then
      .error .keyNotInvolved
    else do
      let outputKey ← okOr (between [0x51, 0x20] [] 32 k.prevScript) .invalidScript
      let cb ← ControlBlock.parse controlBlock
      if cb.verify C script outputKey = false then .error .invalidScript
      else .ok (some (TapScriptPath.new (cb.leafHash C script)))

variable {C} in
/-- The signature, with the hash type behind it unless it is `SIGHASH_DEFAULT`. -/
def p2trSignature (key : Signer C) (k : BtcTxSign C) (sighash : ByteVec 32) (hashType : UInt8) :
    Except Error Bytes := do
  let sig ← okOr (match k.tapLeaf with
    | some _ => key.signSchnorr sighash
    | none => key.signTaprootWithRoot sighash k.tapMerkleRoot) .signer
  return sig.toList ++ if hashType ≠ 0 then [hashType] else []

/-- The digest a taproot signature on input `n` commits to. -/
def p2trDigest (n : Nat) (k : BtcTxSign C) (hashType : UInt8) (scriptPath : Option TapScriptPath) :
    SignCall (ByteVec 32) :=
  if hashType &&& 0x20 ≠ 0 then unifiedDigest C keys n k hashType (.taproot none scriptPath)
  else do
    let parts ← cachedTaproot C keys
    let tx ← self
    Call.lift (taprootSighashOf C.toHashes tx.source parts n k.prevout ⟨hashType, none, scriptPath⟩)

def p2trSign (n : Nat) (k : BtcTxSign C) (key : Signer C) : SignCall Unit := do
  let hashType ← Call.lift (p2trHashType k.sighash)
  let scriptPath ← Call.lift (p2trLeaf C key k)
  let sighash ← p2trDigest C keys n k hashType scriptPath
  let sig ← Call.lift (p2trSignature key k sighash hashType)
  editInput n fun i =>
    { i with
      witnesses := match k.tapLeaf with
        | some (script, controlBlock) => [sig, script, controlBlock]
        | none => [sig]
      script := [] }

/-! ## All inputs -/

/-- Signs input `n`, whose entry is `k`. -/
def signInput (n : Nat) (k : BtcTxSign C) : SignCall Unit := do
  let key ← Call.lift (okOr k.key .missingKey)
  match Scheme.parse k.scheme with
  | some .p2pk => p2pkSign C keys n k key k.flag
  | some .p2pkh => p2pkhSign C keys n k key .p2pkh .p2pkh .comp k.flag
  | some .p2pukh => p2pkhSign C keys n k key .p2pukh .p2pukh .uncomp k.flag
  | some .p2wpkh => p2wpkhSign C keys n k key .p2wpkh k.flag
  | some .p2shP2wpkh => p2wpkhSign C keys n k key .p2shP2wpkh k.flag
  | some .p2wsh => p2wshSign C keys n k key none k.flag
  | some (.p2wshOf inner) => p2wshSign C keys n k key (some inner) k.flag
  | some .p2tr => p2trSign C keys n k key
  | none => Call.lift (.error .unsupportedScheme)

/-- The loop over the entries from the `n`-th on. -/
def signInputs (n : Nat) : List (BtcTxSign C) → SignCall Unit
  | [] => pure ()
  | k :: ks => do
    signInput C keys n k
    signInputs (n + 1) ks

/-- Signs the transaction with one entry per input; what was signed before an
error stays. -/
def BtcTx.sign : Call BtcTx Error Unit := fun tx =>
  if tx.inputs = [] ∨ tx.inputs.length ≠ keys.length then (.error .keyCount, tx)
  else
    let (r, s) := signInputs C keys 0 keys ⟨tx, ⟨none, none⟩⟩
    (r, s.tx)

end Model

end Outscript
