import Outscript.Crypto.Secp256k1
import Outscript.Library.Fallible
import Outscript.Psbt.Map
import Outscript.Psbt.TxLayout

/-!
# Record validation

Each record is checked by itself, for the kind of map it stands in. Key types
that no rule names are accepted as they are.
-/
namespace Outscript.Psbt

open ByteString Cursor Fallible

namespace Global
def unsignedTx : Nat := 0x00
def xpub : Nat := 0x01
def version : Nat := 0xfb
end Global

namespace Input
def nonWitnessUtxo : Nat := 0x00
def witnessUtxo : Nat := 0x01
def partialSig : Nat := 0x02
def sighashType : Nat := 0x03
def redeemScript : Nat := 0x04
def witnessScript : Nat := 0x05
def bip32Derivation : Nat := 0x06
def finalScriptsig : Nat := 0x07
def finalScriptwitness : Nat := 0x08
def ripemd160 : Nat := 0x0a
def sha256 : Nat := 0x0b
def hash160 : Nat := 0x0c
def hash256 : Nat := 0x0d
def tapKeySig : Nat := 0x13
def tapScriptSig : Nat := 0x14
def tapLeafScript : Nat := 0x15
def tapBip32Derivation : Nat := 0x16
def tapInternalKey : Nat := 0x17
def tapMerkleRoot : Nat := 0x18
end Input

namespace Output
def redeemScript : Nat := 0x00
def witnessScript : Nat := 0x01
def bip32Derivation : Nat := 0x02
def tapInternalKey : Nat := 0x05
def tapTree : Nat := 0x06
def tapBip32Derivation : Nat := 0x07
end Output

inductive MapKind where
  | global
  | input
  | output
  deriving DecidableEq

section Checks

variable (C : Purecrypto)

def isPubkey (data : Bytes) : Bool :=
  (data.length = 33 || data.length = 65) &&
    match Secp256k1.publicKeyFromSec1 C data with
    | .ok _ => true
    | .error _ => false

def isDerivationPath (value : Bytes) : Bool := 4 ≤ value.length && value.length % 4 = 0

def noKeyData (data : Bytes) : Except Error Unit :=
  if data = [] then .ok () else .error .invalidRecordKey

def check (ok : Bool) : Except Error Unit :=
  if ok then .ok () else .error .invalidRecordValue

def checkKey (ok : Bool) : Except Error Unit :=
  if ok then .ok () else .error .invalidRecordKey

/-- Reads the whole value. -/
def readWhole {α : Type} (p : Reader α) (value : Bytes) : Except Error Unit :=
  match p.run (start value) with
  | .ok (_, c) => check (c.rest = [])
  | .error e => .error e

/-- A public key's derivation, in an input or an output map. -/
def validateBip32Derivation (data value : Bytes) : Except Error Unit := do
  checkKey (isPubkey C data)
  check (isDerivationPath value)

def validateTapBip32Derivation (data value : Bytes) : Except Error Unit := do
  checkKey (data.length = 32)
  let leafHashes : Reader Bytes := do
    let hashes ← Reader.varint
    Reader.take (hashes * 32)
  match leafHashes.run (start value) with
  | .ok (_, c) => check (isDerivationPath c.rest)
  | .error e => .error e

/-- Proprietary keys start with a length-prefixed identifier. -/
def validateProprietary (data : Bytes) : Except Error Unit :=
  match Reader.varBytes.run (start data) with
  | .ok _ => .ok ()
  | .error _ => .error .invalidRecordKey

def validateOther (keyType : Nat) (data : Bytes) : Except Error Unit :=
  if keyType = 0xfc then validateProprietary data else .ok ()

def validateGlobalRecord (rec : Record) : Except Error Unit :=
  let data := rec.keyData
  let t := rec.keyType
  if t = Global.unsignedTx then noKeyData data
  else if t = Global.xpub then do
    checkKey (data.length = 78)
    check (isDerivationPath rec.value)
  else if t = Global.version then do
    noKeyData data
    if rec.value = [0, 0, 0, 0] then .ok ()
    else if rec.value.length = 4 then .error .unsupportedPsbtVersion
    else .error .invalidRecordValue
  -- PSBTv2-only global fields
  else if 0x02 ≤ t ∧ t ≤ 0x06 then .error .invalidRecordKey
  else validateOther t data

def validateInputRecord (rec : Record) : Except Error Unit :=
  let data := rec.keyData
  let t := rec.keyType
  if t = Input.nonWitnessUtxo then do
    noKeyData data
    let _ ← TxLayout.parse rec.value true
  else if t = Input.witnessUtxo then do
    noKeyData data
    readWhole TxLayout.readOutput rec.value
  else if t = Input.partialSig then do
    checkKey (isPubkey C data)
    check (rec.value ≠ [])
  else if t = Input.sighashType then do
    noKeyData data
    check (rec.value.length = 4)
  else if t = Input.redeemScript ∨ t = Input.witnessScript ∨ t = Input.finalScriptsig then
    noKeyData data
  else if t = Input.bip32Derivation then validateBip32Derivation C data rec.value
  else if t = Input.finalScriptwitness then do
    noKeyData data
    readWhole TxLayout.readStack rec.value
  else if t = Input.ripemd160 ∨ t = Input.hash160 then checkKey (data.length = 20)
  else if t = Input.sha256 ∨ t = Input.hash256 then checkKey (data.length = 32)
  -- PSBTv2-only input fields
  else if 0x0e ≤ t ∧ t ≤ 0x12 then .error .invalidRecordKey
  else if t = Input.tapKeySig then do
    noKeyData data
    check (rec.value.length = 64 || rec.value.length = 65)
  else if t = Input.tapScriptSig then do
    checkKey (data.length = 64)
    check (rec.value.length = 64 || rec.value.length = 65)
  else if t = Input.tapLeafScript then do
    checkKey (33 ≤ data.length && (data.length - 33) % 32 = 0)
    check (rec.value ≠ [])
  else if t = Input.tapBip32Derivation then validateTapBip32Derivation data rec.value
  else if t = Input.tapInternalKey ∨ t = Input.tapMerkleRoot then do
    noKeyData data
    check (rec.value.length = 32)
  else validateOther t data

def validateOutputRecord (rec : Record) : Except Error Unit :=
  let data := rec.keyData
  let t := rec.keyType
  if t = Output.bip32Derivation then validateBip32Derivation C data rec.value
  else if t = Output.tapBip32Derivation then validateTapBip32Derivation data rec.value
  else if t = Output.tapInternalKey then do
    noKeyData data
    check (rec.value.length = 32)
  else if t = Output.redeemScript ∨ t = Output.witnessScript ∨ t = Output.tapTree then
    noKeyData data
  -- PSBTv2-only output fields
  else if t = 0x03 ∨ t = 0x04 then .error .invalidRecordKey
  else validateOther t data

/-- Checks a record's key data and value for its map. -/
def validateRecord : MapKind → Record → Except Error Unit
  | .global, rec => validateGlobalRecord rec
  | .input, rec => validateInputRecord C rec
  | .output, rec => validateOutputRecord C rec

def validateMap (kind : MapKind) (map : Map) : Except Error Unit := do
  map.checkDuplicates
  map.records.forM (validateRecord C kind)

end Checks

/-! ## Valid record lists -/

section Valid

variable {C : Purecrypto}

/-- What a validated map consists of. -/
structure ValidRecords (C : Purecrypto) (kind : MapKind) (recs : List Record) : Prop where
  framed : ∀ r ∈ recs, Framed r
  nodup : (recs.map (·.key)).Nodup
  valid : ∀ r ∈ recs, validateRecord C kind r = .ok ()

theorem validateMap_ofRecords {kind : MapKind} {recs : List Record}
    (h : ∀ r ∈ recs, Framed r) :
    validateMap C kind (Map.ofRecords recs) = .ok () ↔ ValidRecords C kind recs := by
  rw [validateMap, Map.checkDuplicates, Map.records_ofRecords h]
  constructor
  · intro hv
    split_ifs at hv with hn
    · exact ⟨h, hn, forM_eq_ok.mp hv⟩
    · cases hv
  · rintro ⟨-, hn, hv⟩
    rw [if_pos hn]
    exact forM_eq_ok.mpr hv

end Valid

end Outscript.Psbt
