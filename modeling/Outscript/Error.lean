import Mathlib.Tactic

/-!
# Errors

The crate's error type, with those codecs' own errors that convert into it. A
function that may also panic returns a `Trap`; one that cannot returns an
`Error`.
-/
namespace Outscript

/-- Errors of the compact-u16 decoder. -/
inductive CompactU16Error where
  | unexpectedEof
  | nonCanonical
  | overflow
  deriving DecidableEq, Repr

namespace Rlp

/-- Errors of the RLP codec. -/
inductive Error where
  | unexpectedEof
  | nonCanonicalSize
  | nonCanonicalValue
  | negativeValue
  | stringPrefix
  | invalidHex
  | integerTooLong
  deriving DecidableEq, Repr

end Rlp

namespace Cbor

/-- Errors of the CBOR codec. -/
inductive Error where
  | unexpectedEof
  | reservedAdditionalInfo (info : UInt8)
  | unsupportedIndefiniteLength
  | unsupportedSimpleValue (value : Nat)
  | unsupportedMajorType (major : UInt8)
  | unexpectedBreak
  | invalidChunk
  | expectedArray
  | nestingTooDeep
  deriving DecidableEq, Repr

end Cbor

namespace Base58

/-- Errors from base58 operations. -/
inductive Error where
  | invalidChar (c : UInt8)
  | bufferTooSmall
  deriving DecidableEq, Repr

end Base58

namespace Bech32

/-- Errors from bech32 and CashAddr operations. -/
inductive Error where
  | mixedCase
  | invalidSeparator
  | invalidChar
  | invalidChecksum
  | invalidPadding
  | prefixMismatch
  | invalidWitnessVersion
  | invalidProgramLength
  | wrongVariant
  | invalidHashLength
  | invalidVersionByte
  | emptyPayload
  | bufferTooSmall
  deriving DecidableEq, Repr

end Bech32

inductive Error where
  | unexpectedEof
  | trailingData
  | invalidData
  | invalidLength
  | nonCanonical
  | tooLarge
  | overflow
  | bufferTooSmall
  | unsupportedKeyType
  | invalidKey
  | malformed
  | invalidSignature
  | signatureVerification (index : Nat)
  | missingSignatures
  | noSignature
  | signer
  | missingKey
  | noPublicKey
  | keyNotInvolved
  | notRequiredSigner
  | recovery
  | noChainCode
  | hardenedFromPublic
  | invalidPoint
  | emptyEntropy
  | unknownFormat
  | unsupportedFormat
  | unsupportedNetwork
  | networkMismatch
  | invalidAddress
  | badChecksum
  | unsupportedAddressVersion (version : UInt8)
  | invalidScript
  | unsupportedScript
  | unsupportedField
  | missingScript
  | missingRedeemScript
  | redeemScriptMismatch
  | missingWitnessScript
  | witnessScriptMismatch
  | noMatchingWitnessScript
  | inputIndex
  | outputIndex
  | indexOutOfRange
  | keyCount
  | prevOutCount
  | missingPrevScript (index : Nat)
  | missingUtxo
  | utxoTxidMismatch
  | witnessUtxoForNonWitness
  | unsupportedSighash
  | unsupportedScheme
  | unsupportedTxType
  | notSigned
  | invalidV
  | invalidFieldCount
  | noInputs
  | noOutputs
  | emptyAddress
  | invalidHeader
  | notVersioned
  | unsupportedVersion (version : UInt8)
  | invalidTxConfig
  | invalidMagic
  | duplicateKey
  | invalidRecordKey
  | invalidRecordValue
  | missingUnsignedTx
  | invalidUnsignedTx
  | unsupportedPsbtVersion
  | notFinalized
  | txMismatch
  | invalidAbiSignature
  | abiArgumentCount
  | unsupportedAbiType
  | abiValueMismatch
  | invalidAmount
  | tooManyDecimals
  | base58 (e : Base58.Error)
  | bech32 (e : Bech32.Error)
  | compactU16 (e : CompactU16Error)
  | cbor (e : Cbor.Error)
  | rlp (e : Rlp.Error)
  deriving DecidableEq, Repr

/-- How a call that may panic ends without a value. -/
inductive Trap where
  | error (e : Error)
  | panic
  deriving DecidableEq, Repr

/-- A fallible call inside one that may also panic. -/
def orTrap {α : Type} : Except Error α → Except Trap α
  | .ok a => .ok a
  | .error e => .error (.error e)

@[simp] theorem orTrap_ok {α : Type} (a : α) : orTrap (.ok a) = .ok a := rfl

@[simp] theorem orTrap_error {α : Type} (e : Error) :
    orTrap (.error e : Except Error α) = .error (.error e) := rfl

theorem orTrap_eq_ok {α : Type} {r : Except Error α} {a : α} :
    orTrap r = .ok a ↔ r = .ok a := by
  cases r <;> simp

theorem orTrap_eq_error {α : Type} {r : Except Error α} {e : Trap} :
    orTrap r = .error e ↔ ∃ e', e = .error e' ∧ r = .error e' := by
  cases r with
  | error e' => simp [eq_comm]
  | ok a => simp

theorem orTrap_ne_panic {α : Type} (x : Except Error α) : orTrap x ≠ .error .panic := by
  cases x with
  | error e => exact fun h => nomatch h
  | ok a => exact fun h => nomatch h

end Outscript
