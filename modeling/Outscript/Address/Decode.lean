import Outscript.Address.Uppercase

/-!
# Decoders of all chains

Each chain has a decoder of its own. What one accepts is the address that is
rendered for its result, up to the case of letters where that is free.
-/
namespace Outscript.Address

open ByteString Ascii Fallible Buffer

/-! ## The decoders -/

def hexNibble (c : UInt8) : Option UInt8 :=
  if 0x30 ≤ c ∧ c ≤ 0x39 then some (c - 0x30)
  else if 0x61 ≤ c ∧ c ≤ 0x66 then some (c - 0x61 + 10)
  else if 0x41 ≤ c ∧ c ≤ 0x46 then some (c - 0x41 + 10)
  else none

/-- The bytes of pairs of digits; a digit that is left over is not looked at. -/
def hexPairs : Bytes → Option Bytes
  | high :: low :: rest => do
    let hi ← hexNibble high
    let lo ← hexNibble low
    let bytes ← hexPairs rest
    return ((hi <<< 4) ||| lo) :: bytes
  | _ => some []

/-- What is behind the prefix, if it has 40 characters. -/
def evmDigits (address : Bytes) : Option Bytes :=
  if ofString "0x" <+: address ∧ (address.drop 2).length = 40 then some (address.drop 2) else none

def decodeEvmAddress (keccak256 : Bytes → ByteVec 32) (address : Bytes) :
    Except Trap DecodedAddress := do
  let digits ← okOr (evmDigits address) (.error .invalidAddress)
  let addr ← okOr (hexPairs digits) (.error .invalidAddress)
  if address.any isUpper then
    let written ← eip55ToSlice keccak256 addr (List.replicate 42 0)
    let checksummed := (written.map Prod.fst).getD (List.replicate 42 0)
    if checksummed ≠ address then throw (.error .badChecksum)
  return ⟨"eth", addr, ["evm"]⟩

/-- What a decoder makes of an error of the Base58 one. -/
def base58Error : Base58.Error → Error
  | .bufferTooSmall => .invalidLength
  | _ => .invalidAddress

/-- What is decoded into a buffer of `room` bytes. -/
def base58Bytes (address : Bytes) (room : ℕ) : Except Error Bytes :=
  match Base58.decodeToSlice address (List.replicate room 0) with
  | .ok (n, buf) => .ok (buf.take n)
  | .error e => .error (base58Error e)

def decodeSolanaKey (address : Bytes) : Except Error Bytes := do
  let key ← base58Bytes address 32
  if key.length = 32 then return key else throw .invalidLength

def decodeSolanaAddress (address : Bytes) : Except Error DecodedAddress := do
  let key ← decodeSolanaKey address
  return ⟨"solana", key, ["solana"]⟩

section

variable (H : Hashes)

def addressFromStr (address : Bytes) : Except Error Bytes := do
  let buf ← base58Bytes address 25
  if buf.length ≠ 25 then throw .invalidLength
  let payload := buf.take 21
  if (H.dsha256 payload).toList.take 4 ≠ buf.drop 21 then throw .badChecksum
  if payload.headD 0 ≠ 0x41 then throw (.unsupportedAddressVersion (payload.headD 0))
  return payload

def decodeTronAddress (address : Bytes) : Except Error DecodedAddress := do
  let raw ← addressFromStr H address
  return ⟨"tron", raw, ["tron"]⟩

/-- User accounts and smart contracts. -/
def massaType (front : Bytes) : Except Error UInt8 :=
  if front = ofString "AU" then .ok 0
  else if front = ofString "AS" then .ok 1
  else .error .invalidAddress

def decodeMassaAddress (address : Bytes) : Except Error DecodedAddress := do
  let typ ← massaType (address.take 2)
  -- type byte and payload fit a script buffer
  let buf ← base58Bytes (address.drop 2) 70
  if buf.length < 4 then throw .invalidLength
  let payload := buf.take (buf.length - 4)
  if (H.dsha256 payload).toList.take 4 ≠ buf.drop (buf.length - 4) then throw .badChecksum
  return ⟨"massa", typ :: payload, ["massa"]⟩

/-- The networks that are tried. -/
def zcashNetworks (network : String) : Except Error (List String) :=
  if network = "auto" then .ok ["zcash", "zcash-testnet"]
  else if network = "zcash" ∨ network = "zcash-testnet" then .ok [network]
  else .error .unsupportedNetwork

/-- The output that a version stands for on one of the networks. -/
def zcashOutput (version hash : Bytes) : List String → Option DecodedAddress
  | [] => none
  | net :: nets =>
    match zcashVersions net with
    | some (pkh, sh) =>
      if version = pkh then some (p2pkh hash [net])
      else if version = sh then some (p2sh hash [net])
      else zcashOutput version hash nets
    | none => none

def decodeZcashAddress (network : String) (address : Bytes) : Except Error DecodedAddress := do
  let buf ← base58Bytes address 32
  if buf.length < 4 then throw .invalidLength
  let payload := buf.take (buf.length - 4)
  if (H.dsha256 payload).toList.take 4 ≠ buf.drop (buf.length - 4) then throw .badChecksum
  if payload.length ≠ 22 then throw .invalidLength
  let networks ← zcashNetworks network
  okOr (zcashOutput (payload.take 2) (payload.drop 2) networks)
    (.unsupportedAddressVersion (payload.getD 1 0))

end

/-- The number of bytes in an address of a type. -/
def cardanoLength (typ : UInt8) : Except Error ℕ :=
  if typ = 0x0 then .ok 57
  else if typ = 0x6 ∨ typ = 0xe then .ok 29
  else .error (.unsupportedVersion typ)

def decodeCardanoAddress (address : Bytes) : Except Error DecodedAddress := do
  let (hrp, buf, n, variant) ←
    (Bech32.decodeToSlice address (List.replicate 57 0)).mapError fun e =>
      match e with
      | .bufferTooSmall => .invalidLength
      | e => .bech32 e
  if variant ≠ .bech32 then throw (.bech32 .invalidChecksum)
  let hrpIs (want : String) : Bool := eqIgnoreCase hrp (ofString want)
  if !(hrpIs "addr" || hrpIs "addr_test" || hrpIs "stake" || hrpIs "stake_test") then
    throw .unsupportedNetwork
  let payload := buf.take n
  let header ← okOr payload.head? .invalidLength
  let typ := header >>> 4
  let net := header &&& 0x0f
  if net ≠ 1 ∧ net ≠ 0 then throw .unsupportedNetwork
  let wantLen ← cardanoLength typ
  if payload.length ≠ wantLen then throw .invalidLength
  -- the prefix agrees with the header
  if (hrpIs "stake" || hrpIs "stake_test") ≠ decide (typ = 0xe) then throw .networkMismatch
  if decide (net = 0) ≠ (hrpIs "addr_test" || hrpIs "stake_test") then throw .networkMismatch
  return ⟨"cardano", payload, if net = 0 then ["cardano-testnet"] else ["cardano"]⟩

/-- A decoder, and the network it is given where it takes one. -/
inductive Decoder where
  | bitcoin (network : String)
  | evm
  | tron
  | massa
  | solana
  | cardano
  | zcash (network : String)

namespace Decoder

/-- The same decoder for a network. -/
def on (d : Decoder) (network : String) : Decoder :=
  match d with
  | bitcoin _ => bitcoin network
  | zcash _ => zcash network
  | d => d

def decode (H : Hashes) (keccak256 : Bytes → ByteVec 32) (d : Decoder) (address : Bytes) :
    Except Trap DecodedAddress :=
  match d with
  | bitcoin network => orTrap (decodeBitcoinBasedAddress H network address)
  | evm => decodeEvmAddress keccak256 address
  | tron => orTrap (decodeTronAddress H address)
  | massa => orTrap (decodeMassaAddress H address)
  | solana => orTrap (decodeSolanaAddress address)
  | cardano => orTrap (decodeCardanoAddress address)
  | zcash network => orTrap (decodeZcashAddress H network address)

end Decoder

end Outscript.Address
