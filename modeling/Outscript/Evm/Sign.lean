import Outscript.Evm.Raw

/-!
# Signing EVM transactions

A signature is carried in the transaction, with the recovery id and, in a
legacy transaction, the chain id folded into `v`. Parsing what was signed gives
the signer back, as long as that `v` fits its type.
-/
namespace Outscript.Evm

open ByteString Fallible
open Rlp (RlpItem)

/-- Keys, signatures and the hash of the crate's signer. -/
structure SecpSigner where
  PrivateKey : Type
  PublicKey : Type
  keccak256 : Bytes → ByteVec 32
  publicKey : PrivateKey → PublicKey
  serializeUncompressed : PublicKey → ByteVec 65
  signRecoverable : PrivateKey → ByteVec 32 → ByteVec 32 × ByteVec 32 × UInt8
  recoverPublicKey : ByteVec 32 → ByteVec 32 → UInt8 → ByteVec 32 → Option PublicKey

/-- Recovery inverts signing, with a recovery id of one bit. -/
structure SecpSigner.Recovers (E : SecpSigner) : Prop where
  recid_le : ∀ key digest, (E.signRecoverable key digest).2.2 ≤ 1
  recover : ∀ key digest, E.recoverPublicKey (E.signRecoverable key digest).1
    (E.signRecoverable key digest).2.1 (E.signRecoverable key digest).2.2 digest =
      some (E.publicKey key)

variable (E : SecpSigner)

def etherHash (uncompressed : Bytes) : ByteVec 20 :=
  ⟨(E.keccak256 (uncompressed.drop 1)).toList.drop 12, by simp⟩

/-- A sum of u64 terms, which must not overflow. -/
def checked (v : ℕ) : Except Trap UInt64 :=
  if v < 2 ^ 64 then .ok (UInt64.ofNat v) else .error .panic

def vSum (txType : EvmTxType) (chainId : UInt64) (recid : UInt8) : ℕ :=
  match txType with
  | .legacy => if chainId = 0 then 27 + recid.toNat else chainId.toNat * 2 + 35 + recid.toNat
  | _ => recid.toNat

/-- The `v` of a signature in a transaction of the type. -/
def signatureV (txType : EvmTxType) (chainId : UInt64) (recid : UInt8) : Except Trap UInt64 :=
  checked (vSum txType chainId recid)

namespace EvmTx

/-- Signs the transaction with the given key. -/
def sign (tx : EvmTx) (key : E.PrivateKey) : Except Trap EvmTx := do
  let buf ← orTrap tx.signBytes
  let digest := E.keccak256 buf
  let (r, s, recid) := E.signRecoverable key digest
  let v ← signatureV tx.txType tx.chainId recid
  .ok { tx with
    signed := true
    r := fromBytesBe r.toList
    s := fromBytesBe s.toList
    y := (v.toNat : ℤ) }

end EvmTx

def bigintTo32 (v : ℤ) : Except Error (ByteVec 32) :=
  if v < 0 then .error .invalidSignature
  else
    let bytes := magnitudeBytes v.natAbs
    if h : bytes.length > 32 then .error .invalidSignature
    else .ok ⟨List.replicate (32 - bytes.length) 0 ++ bytes, by simp; omega⟩

/-- The recovery id in `v`, which a legacy transaction folds into other values. -/
def recidOfV (txType : EvmTxType) (v : ℕ) : Except Error ℕ :=
  if txType = .legacy then
    if 35 ≤ v then .ok (1 - v % 2)
    else if v = 27 ∨ v = 28 then .ok (v - 27)
    else if v = 0 ∨ v = 1 then .ok v
    else .error .invalidV
  else .ok v

namespace EvmTx

/-- `r`, `s` and the recovery id of the signed transaction. -/
def signatureParts (tx : EvmTx) : Except Error (ByteVec 32 × ByteVec 32 × UInt8) := do
  if tx.signed = false then .error .notSigned
  else
    let r ← bigintTo32 tx.r
    let s ← bigintTo32 tx.s
    if tx.y < 0 ∨ 2 ^ 64 ≤ tx.y then .error .invalidV
    else
      let v ← recidOfV tx.txType tx.y.natAbs
      if v > 3 then .error .invalidV
      else .ok (r, s, UInt8.ofNat v)

/-- Recovers the sender's public key. -/
def senderPubkey (tx : EvmTx) : Except Error E.PublicKey := do
  let (r, s, recid) ← tx.signatureParts
  let buf ← tx.signBytes
  let digest := E.keccak256 buf
  match E.recoverPublicKey r s recid digest with
  | some pubkey => .ok pubkey
  | none => .error .recovery

end EvmTx

namespace RawEvmTx

/-- The bytes that are hashed for signing. -/
def preimage (tx : RawEvmTx) : Except Error Bytes := do
  let h ← tx.encode ({} : HashSink) none
  .ok h.fed

/-- Signs the transaction, with `v` in the form the type requires. -/
def sign (tx : RawEvmTx) (key : E.PrivateKey) : Except Trap EvmSignature := do
  let digest ← orTrap (tx.signingHash E.keccak256)
  let (r, s, recid) := E.signRecoverable key digest
  let v ← signatureV tx.txType tx.chainId recid
  .ok { v := v, r := r, s := s }

/-- The recovery id in `v`, which must be for this chain. -/
def recidOfV (tx : RawEvmTx) (v : ℕ) : Except Error ℕ :=
  if tx.txType = .legacy then
    if 35 ≤ v then
      if (v - 35) / 2 ≠ tx.chainId.toNat then .error .invalidV else .ok ((v - 35) % 2)
    else if (v = 27 ∨ v = 28) ∧ tx.chainId = 0 then .ok (v - 27)
    else .error .invalidV
  else if v = 0 ∨ v = 1 then .ok v
  else .error .invalidV

/-- Recovers the 20-byte sender address from a signature. -/
def recoverSender (tx : RawEvmTx) (sig : EvmSignature) : Except Error (ByteVec 20) := do
  let recid ← tx.recidOfV sig.v.toNat
  let digest ← tx.signingHash E.keccak256
  match E.recoverPublicKey sig.r sig.s (UInt8.ofNat recid) digest with
  | some pubkey => .ok (etherHash E (E.serializeUncompressed pubkey).toList)
  | none => .error .recovery

end RawEvmTx

/-! ## The value of `v` -/

/-- The `v` of an EIP-155 signature fits its type. -/
def VFits (txType : EvmTxType) (chainId : UInt64) (recid : UInt8) : Prop :=
  txType = .legacy → chainId ≠ 0 → chainId.toNat * 2 + 35 + recid.toNat < 2 ^ 64

section V

variable {txType : EvmTxType} {chainId : UInt64} {recid : UInt8}

theorem vSum_lt_iff (hrecid : recid ≤ 1) :
    vSum txType chainId recid < 2 ^ 64 ↔ VFits txType chainId recid := by
  have hle : recid.toNat ≤ 1 := UInt8.le_iff_toNat_le.mp hrecid
  have hbit : recid.toNat < 2 ^ 64 := by omega
  unfold vSum VFits
  cases txType with
  | legacy =>
    by_cases hzero : chainId = 0
    · simp only [hzero, if_true, ne_eq, not_true_eq_false, false_implies, implies_true, iff_true]
      omega
    · simp only [hzero, if_false, ne_eq, not_false_eq_true, true_implies]
  | eip2930 => exact ⟨fun _ h => (by cases h), fun _ => hbit⟩
  | eip1559 => exact ⟨fun _ h => (by cases h), fun _ => hbit⟩
  | eip4844 => exact ⟨fun _ h => (by cases h), fun _ => hbit⟩

theorem signatureV_eq_ok {v : UInt64} (hrecid : recid ≤ 1) :
    signatureV txType chainId recid = .ok v ↔
      VFits txType chainId recid ∧ v.toNat = vSum txType chainId recid := by
  rw [signatureV, checked, ← vSum_lt_iff hrecid]
  split_ifs with hlt
  · constructor
    · intro h
      cases h
      exact ⟨hlt, UInt64.toNat_ofNat_of_lt' hlt⟩
    · rintro ⟨-, hv⟩
      rw [← hv, UInt64.ofNat_toNat]
  · exact ⟨fun h => (by cases h), fun h => absurd h.1 hlt⟩

/-- The chain id is found again in `v`. -/
theorem chainIdOfV_vSum (hrecid : recid ≤ 1) (hfits : VFits .legacy chainId recid) :
    chainIdOfV (vSum .legacy chainId recid : ℕ) 0 = chainId := by
  have hle : recid.toNat ≤ 1 := UInt8.le_iff_toNat_le.mp hrecid
  have hlt := (vSum_lt_iff hrecid).mpr hfits
  rw [chainIdOfV]
  simp only [Int.natAbs_natCast]
  unfold vSum at hlt ⊢
  by_cases hzero : chainId = 0
  · simp only [hzero, if_true]
    rw [if_neg (by omega)]
  · simp only [hzero, if_false] at hlt ⊢
    have hhalf : (chainId.toNat * 2 + 35 + recid.toNat - 35 -
        (1 - (chainId.toNat * 2 + 35 + recid.toNat) % 2)) / 2 = chainId.toNat := by omega
    rw [if_pos ⟨hlt, by omega⟩, hhalf, UInt64.ofNat_toNat]

end V

/-! ## What is parsed from a signed transaction -/

/-- The text of an address, as the crate writes it. -/
def AddressText (text : Bytes) : Prop :=
  text = [0x30, 0x78] ∨
    ∃ digits, text = 0x30 :: 0x78 :: digits ∧ digits.length = 40 ∧ ∀ c ∈ digits, Hex.IsDigit c

theorem AddressText.eq_hexText {text : Bytes} (h : AddressText text) :
    ∃ bytes, text = hexText bytes := by
  rcases h with rfl | ⟨digits, rfl, hlen, hdigits⟩
  · exact ⟨[], rfl⟩
  · obtain ⟨bytes, -, rfl⟩ := Hex.exists_encode_eq (n := 20) hlen hdigits
    exact ⟨bytes, rfl⟩

/-- A transaction to sign. -/
structure EvmTx.Unsigned (tx : EvmTx) : Prop where
  signed : tx.signed = false
  txType : tx.txType ≠ .eip4844
  gasTipCap : 0 ≤ tx.gasTipCap
  gasFeeCap : 0 ≤ tx.gasFeeCap
  value : 0 ≤ tx.value
  toAddr : AddressText tx.toAddr
  -- a vector holds fewer bytes than that
  fits : ∀ fields, tx.rlpFields = .ok fields → (Rlp.encodeAll fields).length < 2 ^ 63

/-- The transaction as it is carried in its encoding with a signature: only one
type has a priority fee. -/
def EvmTx.carried (tx : EvmTx) (y r s : ℕ) : EvmTx :=
  { tx with
    signed := true
    gasTipCap := if tx.txType = .eip1559 then tx.gasTipCap else 0
    chainId := if tx.txType = .legacy then chainIdOfV y 0 else tx.chainId
    y := y
    r := r
    s := s }

@[simp] theorem b_zero (x : RlpItem) (list : List RlpItem) :
    b (x :: list) 0 = x.asBytes.getD [] := rfl

@[simp] theorem b_succ (x : RlpItem) (list : List RlpItem) (i : ℕ) :
    b (x :: list) (i + 1) = b list i := rfl

@[simp] theorem uintField_zero (v : UInt64) (list : List RlpItem) :
    uintField (.uint v :: list) 0 = .ok v := by
  have hlen := length_trimLeftZeros_le (be 8 v.toNat)
  rw [length_be] at hlen
  have hbytes : b (.uint v :: list) 0 = trimLeftZeros (be 8 v.toNat) := rfl
  rw [uintField, hbytes, Rlp.decodeUint64Checked, if_neg (by omega), beVal_trimLeftZeros,
    beVal_be_of_lt v.toNat_lt]
  exact congrArg Except.ok UInt64.ofNat_toNat

@[simp] theorem uintField_succ (x : RlpItem) (list : List RlpItem) (i : ℕ) :
    uintField (x :: list) (i + 1) = uintField list i := rfl

theorem fromBytesBe_minimalBe (n : ℕ) : fromBytesBe (minimalBe n) = (n : ℤ) := by
  rw [fromBytesBe, beVal_minimalBe]

def parseFields : EvmTxType → List RlpItem → Except Trap EvmTx
  | .legacy => parseLegacy
  | .eip2930 => parseEip2930
  | _ => parseEip1559

theorem parse_envelope {ty : EvmTxType} {list : List RlpItem} (hty : ty ≠ .eip4844)
    (hfits : (Rlp.encodeList list).length < 2 ^ 64) :
    parseTransaction (envelope ty list) = parseFields ty list := by
  have hfields := decodeFields_encodeList hfits
  have htyped : ∀ buf, parseTransaction (0x01 :: buf) = decodeFields buf >>= parseEip2930 ∧
      parseTransaction (0x02 :: buf) = decodeFields buf >>= parseEip1559 := fun _ => ⟨rfl, rfl⟩
  cases ty with
  | legacy =>
    obtain ⟨c, tail, hc, hge⟩ := head_encodeList list
    have hhigh : c ≥ 0x80 := UInt8.le_trans (by decide : (0x80 : UInt8) ≤ 0xc0) hge
    rw [hc] at hfields
    rw [envelope, hc, parseTransaction, if_pos hhigh, hfields]
    rfl
  | eip2930 => exact (htyped _).1.trans (by rw [hfields]; rfl)
  | eip1559 => exact (htyped _).2.trans (by rw [hfields]; rfl)
  | eip4844 => exact absurd rfl hty

/-- A signed transaction is read back, but for a priority fee that its type does
not carry. -/
theorem parse_signed {tx : EvmTx} (h : tx.Unsigned) {y r s : ℕ}
    (hy : y < 2 ^ 64) (hr : r < 256 ^ 32) (hs : s < 256 ^ 32) :
    ∃ bytes, EvmTx.toBytes { tx with signed := true, r := r, s := s, y := y } = .ok bytes ∧
      parseTransaction bytes = .ok (tx.carried y r s) := by
  obtain ⟨dest, hdest⟩ := h.toAddr.eq_hexText
  obtain ⟨tip, htip⟩ := Int.eq_ofNat_of_zero_le h.gasTipCap
  obtain ⟨cap, hcap⟩ := Int.eq_ofNat_of_zero_le h.gasFeeCap
  obtain ⟨value, hvalue⟩ := Int.eq_ofNat_of_zero_le h.value
  have hfields : ∃ fields, tx.rlpFields = .ok fields ∧
      parseFields tx.txType (fields ++ [.bytes (minimalBe y), .bytes (minimalBe r),
        .bytes (minimalBe s)]) = .ok (tx.carried y r s) := by
    have hty := h.txType
    obtain ⟨nonce, gasTipCap, gasFeeCap, gas, toAddr, val, data, chainId, txType, signed, _, _, _⟩ :=
      tx
    simp only at hdest htip hcap hvalue hty
    subst hdest htip hcap hvalue
    simp only [EvmTx.rlpFields, bi_natCast, toItem_hexText, ok_bind]
    cases txType with
    | legacy =>
      refine ⟨_, rfl, ?_⟩
      simp [parseFields, parseLegacy, withSignature, fromBytesBe_minimalBe, RlpItem.asBytes,
        ok_bind, EvmTx.carried]
    | eip2930 =>
      refine ⟨_, rfl, ?_⟩
      simp [parseFields, parseEip2930, withSignature, fromBytesBe_minimalBe, RlpItem.asBytes,
        ok_bind, EvmTx.carried]
    | eip1559 =>
      refine ⟨_, rfl, ?_⟩
      simp [parseFields, parseEip1559, withSignature, fromBytesBe_minimalBe, RlpItem.asBytes,
        ok_bind, EvmTx.carried]
    | eip4844 => exact absurd rfl hty
  obtain ⟨fields, hok, hparse⟩ := hfields
  have hbytes := @toBytes_signed { tx with signed := true, r := r, s := s, y := y } fields y r s
    hok rfl rfl rfl rfl
  have hfits := h.fits fields hok
  refine ⟨_, hbytes, ?_⟩
  rw [parse_envelope h.txType ?_]
  · exact hparse
  · have hylen := length_minimalBe_le (n := 8) hy
    have hrlen := length_minimalBe_le hr
    have hslen := length_minimalBe_le hs
    have hyenc := Rlp.length_encode_bytes_le (minimalBe y)
    have hrenc := Rlp.length_encode_bytes_le (minimalBe r)
    have hsenc := Rlp.length_encode_bytes_le (minimalBe s)
    rw [Rlp.encodeList, List.length_append]
    have hheader := Rlp.length_encodeLen_le (Rlp.encodeAll (fields ++ [.bytes (minimalBe y),
      .bytes (minimalBe r), .bytes (minimalBe s)])).length true
    have hbody : (Rlp.encodeAll (fields ++ [.bytes (minimalBe y), .bytes (minimalBe r),
        .bytes (minimalBe s)])).length = (Rlp.encodeAll fields).length +
          ((RlpItem.bytes (minimalBe y)).encode.length +
            ((RlpItem.bytes (minimalBe r)).encode.length +
              (RlpItem.bytes (minimalBe s)).encode.length)) := by
      simp [Rlp.encodeAll_append, Rlp.encodeAll]
    rw [hbody] at hheader ⊢
    omega

/-! ## Recovery -/

theorem bigintTo32_fromBytesBe (bytes : ByteVec 32) :
    bigintTo32 (fromBytesBe bytes.toList) = .ok bytes := by
  have hlt := beVal_vec_lt bytes
  have hlen := length_magnitudeBytes_le (by decide) hlt
  rw [bigintTo32, fromBytesBe, if_neg (by omega)]
  simp only [Int.natAbs_natCast]
  rw [dif_neg (by omega)]
  refine congrArg Except.ok (Subtype.ext ?_)
  exact (leftPad_magnitudeBytes (by decide) hlt).trans (congrArg Subtype.val (beVec_beVal bytes))

section Recovery

variable {E} (hE : E.Recovers)

theorem signBytes_carried (tx : EvmTx) {recid : UInt8} (hrecid : recid ≤ 1)
    (hfits : VFits tx.txType tx.chainId recid) (r s : ℕ) :
    (tx.carried (vSum tx.txType tx.chainId recid) r s).signBytes = tx.signBytes := by
  obtain ⟨nonce, tip, cap, gas, toAddr, value, data, chainId, txType, signed, _, _, _⟩ := tx
  cases txType with
  | legacy =>
    simp only at hfits
    simp only [EvmTx.carried, if_true, chainIdOfV_vSum hrecid hfits]
    rfl
  | eip2930 => rfl
  | eip1559 => rfl
  | eip4844 => rfl

/-- The recovery id is found again in `v`. -/
theorem recidOfV_vSum {txType : EvmTxType} {chainId : UInt64} {recid : UInt8} (hrecid : recid ≤ 1) :
    recidOfV txType (vSum txType chainId recid) = .ok recid.toNat := by
  have hle : recid.toNat ≤ 1 := UInt8.le_iff_toNat_le.mp hrecid
  cases txType with
  | legacy =>
    rw [recidOfV, if_pos rfl]
    by_cases hzero : chainId = 0
    · have hsum : vSum .legacy chainId recid = 27 + recid.toNat := if_pos hzero
      rw [hsum, if_neg (by omega), if_pos (by omega), Nat.add_sub_cancel_left]
    · have hsum : vSum .legacy chainId recid = chainId.toNat * 2 + 35 + recid.toNat :=
        if_neg hzero
      have hbit : 1 - (chainId.toNat * 2 + 35 + recid.toNat) % 2 = recid.toNat := by omega
      rw [hsum, if_pos (by omega), hbit]
  | eip2930 => rfl
  | eip1559 => rfl
  | eip4844 => rfl

theorem rawRecidOfV_vSum (tx : RawEvmTx) {recid : UInt8} (hrecid : recid ≤ 1) :
    tx.recidOfV (vSum tx.txType tx.chainId recid) = .ok recid.toNat := by
  have hle : recid.toNat ≤ 1 := UInt8.le_iff_toNat_le.mp hrecid
  by_cases hlegacy : tx.txType = .legacy
  · rw [RawEvmTx.recidOfV, if_pos hlegacy, hlegacy]
    by_cases hzero : tx.chainId = 0
    · have hsum : vSum .legacy tx.chainId recid = 27 + recid.toNat := if_pos hzero
      rw [hsum, if_neg (by omega), if_pos ⟨by omega, hzero⟩, Nat.add_sub_cancel_left]
    · have hsum : vSum .legacy tx.chainId recid = tx.chainId.toNat * 2 + 35 + recid.toNat :=
        if_neg hzero
      have hhalf : ¬ (tx.chainId.toNat * 2 + 35 + recid.toNat - 35) / 2 ≠ tx.chainId.toNat := by
        omega
      have hbit : (tx.chainId.toNat * 2 + 35 + recid.toNat - 35) % 2 = recid.toNat := by omega
      rw [hsum, if_pos (by omega), if_neg hhalf, hbit]
  · have hsum : vSum tx.txType tx.chainId recid = recid.toNat := by
      cases htype : tx.txType
      case legacy => exact absurd htype hlegacy
      all_goals rfl
    rw [RawEvmTx.recidOfV, if_neg hlegacy, hsum, if_pos (by omega)]

theorem signatureParts_carried (tx : EvmTx) {recid : UInt8} (hrecid : recid ≤ 1)
    (hfits : VFits tx.txType tx.chainId recid) (r s : ByteVec 32) :
    (tx.carried (vSum tx.txType tx.chainId recid) (beVal r.toList) (beVal s.toList)).signatureParts =
      .ok (r, s, recid) := by
  have hle : recid.toNat ≤ 1 := UInt8.le_iff_toNat_le.mp hrecid
  have hlt := (vSum_lt_iff hrecid).mpr hfits
  let signed := tx.carried (vSum tx.txType tx.chainId recid) (beVal r.toList) (beVal s.toList)
  have hr : bigintTo32 signed.r = .ok r := bigintTo32_fromBytesBe r
  have hs : bigintTo32 signed.s = .ok s := bigintTo32_fromBytesBe s
  have hv : recidOfV signed.txType signed.y.natAbs = .ok recid.toNat := recidOfV_vSum hrecid
  have hy : ¬ (signed.y < 0 ∨ 2 ^ 64 ≤ signed.y) := by
    have hval : signed.y = (vSum tx.txType tx.chainId recid : ℕ) := rfl
    omega
  have hsigned : ¬ signed.signed = false := by simp [signed, EvmTx.carried]
  have hparts : signed.signatureParts = .ok (r, s, recid) := by
    rw [EvmTx.signatureParts, if_neg hsigned, hr, ok_bind, hs, ok_bind, if_neg hy, hv, ok_bind,
      if_neg (by omega), UInt8.ofNat_toNat]
  exact hparts

include hE in
/-- What is read back gives the signer. -/
theorem senderPubkey_carried (tx : EvmTx) (key : E.PrivateKey) {preimage : Bytes}
    (hpre : tx.signBytes = .ok preimage) {r s : ByteVec 32} {recid : UInt8}
    (hsign : E.signRecoverable key (E.keccak256 preimage) = (r, s, recid))
    (hfits : VFits tx.txType tx.chainId recid) :
    (tx.carried (vSum tx.txType tx.chainId recid) (beVal r.toList)
      (beVal s.toList)).senderPubkey E = .ok (E.publicKey key) := by
  have hrecid := hE.recid_le key (E.keccak256 preimage)
  have hrecover := hE.recover key (E.keccak256 preimage)
  rw [hsign] at hrecid hrecover
  rw [EvmTx.senderPubkey, signatureParts_carried tx hrecid hfits, ok_bind]
  dsimp only
  rw [signBytes_carried tx hrecid hfits, hpre, ok_bind, hrecover]

/-- The preimage of a transaction to sign. -/
theorem EvmTx.Unsigned.signBytes {tx : EvmTx} (h : tx.Unsigned) :
    ∃ preimage, tx.signBytes = .ok preimage := by
  obtain ⟨dest, hdest⟩ := h.toAddr.eq_hexText
  obtain ⟨tip, htip⟩ := Int.eq_ofNat_of_zero_le h.gasTipCap
  obtain ⟨cap, hcap⟩ := Int.eq_ofNat_of_zero_le h.gasFeeCap
  obtain ⟨value, hvalue⟩ := Int.eq_ofNat_of_zero_le h.value
  have hty := h.txType
  unfold EvmTx.signBytes EvmTx.rlpFields
  rw [hdest, htip, hcap, hvalue]
  simp only [bi_natCast, toItem_hexText, ok_bind]
  cases htype : tx.txType with
  | legacy => exact ⟨_, rfl⟩
  | eip2930 => exact ⟨_, rfl⟩
  | eip1559 => exact ⟨_, rfl⟩
  | eip4844 => exact absurd htype hty

end Recovery

/-! ## Sign, serialize, parse, recover -/

/-- The recovery id of the signature over a preimage. -/
def recidOf (key : E.PrivateKey) (preimage : Except Error Bytes) : UInt8 :=
  match preimage with
  | .ok preimage => (E.signRecoverable key (E.keccak256 preimage)).2.2
  | .error _ => 0

/-- The fields that a signature leaves alone. -/
def SameFields (tx tx' : EvmTx) : Prop :=
  tx.nonce = tx'.nonce ∧ tx.gasTipCap = tx'.gasTipCap ∧ tx.gasFeeCap = tx'.gasFeeCap ∧
    tx.gas = tx'.gas ∧ tx.toAddr = tx'.toAddr ∧ tx.value = tx'.value ∧ tx.data = tx'.data ∧
    tx.chainId = tx'.chainId ∧ tx.txType = tx'.txType

/-- Signing succeeds, and what is parsed from the bytes has the same fields and
the signer's key. -/
def LoopCloses (tx : EvmTx) (key : E.PrivateKey) : Prop :=
  ∃ signed bytes parsed, tx.sign E key = .ok signed ∧ signed.toBytes = .ok bytes ∧
    parseTransaction bytes = .ok parsed ∧ SameFields parsed tx ∧
    parsed.senderPubkey E = .ok (E.publicKey key)

section Loop

variable {E} (hE : E.Recovers)

theorem sign_eq_ok {tx signed : EvmTx} {key : E.PrivateKey} {preimage : Bytes}
    (hpre : tx.signBytes = .ok preimage) {r s : ByteVec 32} {recid : UInt8} (hrecid : recid ≤ 1)
    (hsign : E.signRecoverable key (E.keccak256 preimage) = (r, s, recid)) :
    tx.sign E key = .ok signed ↔ VFits tx.txType tx.chainId recid ∧
      signed = { tx with
        signed := true
        r := (beVal r.toList : ℕ)
        s := (beVal s.toList : ℕ)
        y := (vSum tx.txType tx.chainId recid : ℕ) } := by
  rw [EvmTx.sign, hpre, orTrap_ok, ok_bind]
  simp only [hsign]
  rw [bind_eq_ok]
  constructor
  · rintro ⟨v, hv, hsigned⟩
    obtain ⟨hfits, hval⟩ := (signatureV_eq_ok hrecid).mp hv
    cases hsigned
    exact ⟨hfits, by rw [hval]; rfl⟩
  · rintro ⟨hfits, rfl⟩
    have hlt := (vSum_lt_iff hrecid).mpr hfits
    have hval := UInt64.toNat_ofNat_of_lt' hlt
    refine ⟨UInt64.ofNat (vSum tx.txType tx.chainId recid),
      (signatureV_eq_ok hrecid).mpr ⟨hfits, hval⟩, ?_⟩
    rw [hval]
    rfl

include hE in
/-- A signature whose `v` fits comes back with the signer, and with every field
that the type carries. -/
theorem sign_parse_recover {tx : EvmTx} (h : tx.Unsigned) (key : E.PrivateKey)
    (hfits : VFits tx.txType tx.chainId (recidOf E key tx.signBytes)) :
    ∃ signed bytes parsed, tx.sign E key = .ok signed ∧ signed.toBytes = .ok bytes ∧
      parseTransaction bytes = .ok parsed ∧
      SameFields parsed
        { tx with gasTipCap := if tx.txType = .eip1559 then tx.gasTipCap else 0 } ∧
      parsed.senderPubkey E = .ok (E.publicKey key) := by
  obtain ⟨preimage, hpre⟩ := h.signBytes
  obtain ⟨r, s, recid, hsign⟩ : ∃ r s recid,
      E.signRecoverable key (E.keccak256 preimage) = (r, s, recid) := ⟨_, _, _, rfl⟩
  have hrecid : recid ≤ 1 := by
    have hle := hE.recid_le key (E.keccak256 preimage)
    rwa [hsign] at hle
  rw [hpre, recidOf, hsign] at hfits
  have hsigned := (sign_eq_ok hpre hrecid hsign).mpr ⟨hfits, rfl⟩
  obtain ⟨bytes, hbytes, hparse⟩ := parse_signed h ((vSum_lt_iff hrecid).mpr hfits)
    (beVal_vec_lt r) (beVal_vec_lt s)
  refine ⟨_, bytes, _, hsigned, hbytes, hparse, ?_,
    senderPubkey_carried hE tx key hpre hsign hfits⟩
  refine ⟨rfl, rfl, rfl, rfl, rfl, rfl, rfl, ?_, rfl⟩
  by_cases hlegacy : tx.txType = .legacy
  · rw [hlegacy] at hfits
    have hchainId := chainIdOfV_vSum hrecid hfits
    simp only [EvmTx.carried, hlegacy, if_true, hchainId]
  · simp only [EvmTx.carried, if_neg hlegacy]

include hE in
theorem loopCloses_iff {tx : EvmTx} (h : tx.Unsigned) (key : E.PrivateKey) :
    LoopCloses E tx key ↔
      VFits tx.txType tx.chainId (recidOf E key tx.signBytes) ∧
        (tx.txType = .eip1559 ∨ tx.gasTipCap = 0) := by
  constructor
  · rintro ⟨signed, bytes, parsed, hsigned, hbytes, hparse, hsame, -⟩
    have hfits : VFits tx.txType tx.chainId (recidOf E key tx.signBytes) := by
      obtain ⟨preimage, hpre⟩ := h.signBytes
      have hrecid := hE.recid_le key (E.keccak256 preimage)
      rw [hpre, recidOf]
      exact ((sign_eq_ok hpre hrecid rfl).mp hsigned).1
    obtain ⟨signed', bytes', parsed', hsigned', hbytes', hparse', hsame', -⟩ :=
      sign_parse_recover hE h key hfits
    rw [hsigned] at hsigned'
    cases hsigned'
    rw [hbytes] at hbytes'
    cases hbytes'
    rw [hparse] at hparse'
    cases hparse'
    refine ⟨hfits, ?_⟩
    have htip := hsame.2.1.symm.trans hsame'.2.1
    by_cases hdynamic : tx.txType = .eip1559
    · exact .inl hdynamic
    · rw [if_neg hdynamic] at htip
      exact .inr htip
  · rintro ⟨hfits, htip⟩
    obtain ⟨signed, bytes, parsed, hsigned, hbytes, hparse, hsame, hkey⟩ :=
      sign_parse_recover hE h key hfits
    have hkept : (if tx.txType = .eip1559 then tx.gasTipCap else 0) = tx.gasTipCap := by
      rcases htip with htype | hzero
      · rw [if_pos htype]
      · rw [hzero, ite_self]
    rw [hkept] at hsame
    exact ⟨signed, bytes, parsed, hsigned, hbytes, hparse, hsame, hkey⟩

theorem preimage_eq {tx : RawEvmTx} (h : tx.txType ≠ .eip4844) :
    tx.preimage = .ok (tx.encoding none) ∧
      tx.signingHash E.keccak256 = .ok (E.keccak256 (tx.encoding none)) := by
  obtain ⟨sink, hencode, hafter⟩ := encode_after tx h ({} : HashSink) none
  have hfed : sink = ⟨tx.encoding none⟩ := congrArg HashSink.mk hafter
  rw [RawEvmTx.preimage, RawEvmTx.signingHash, hencode, hfed]
  exact ⟨rfl, rfl⟩

include hE in
/-- A streamed transaction gives its signer's address back. -/
theorem recoverSender_sign {tx : RawEvmTx} (h : tx.txType ≠ .eip4844) (key : E.PrivateKey) :
    (∃ sig, tx.sign E key = .ok sig ∧ tx.recoverSender E sig =
        .ok (etherHash E (E.serializeUncompressed (E.publicKey key)).toList)) ↔
      VFits tx.txType tx.chainId (recidOf E key tx.preimage) := by
  obtain ⟨hpre, hhash⟩ := preimage_eq (E := E) h
  obtain ⟨r, s, recid, hsign⟩ : ∃ r s recid,
      E.signRecoverable key (E.keccak256 (tx.encoding none)) = (r, s, recid) := ⟨_, _, _, rfl⟩
  have hrecid := hE.recid_le key (E.keccak256 (tx.encoding none))
  have hrecover := hE.recover key (E.keccak256 (tx.encoding none))
  rw [hsign] at hrecid hrecover
  have hle : recid.toNat ≤ 1 := UInt8.le_iff_toNat_le.mp hrecid
  have hsigned : ∀ sig, tx.sign E key = .ok sig ↔ VFits tx.txType tx.chainId recid ∧
      sig.v.toNat = vSum tx.txType tx.chainId recid ∧ sig.r = r ∧ sig.s = s := by
    intro sig
    rw [RawEvmTx.sign, hhash, orTrap_ok, ok_bind]
    simp only [hsign]
    rw [bind_eq_ok]
    constructor
    · rintro ⟨v, hv, hsig⟩
      obtain ⟨hfits, hval⟩ := (signatureV_eq_ok hrecid).mp hv
      cases hsig
      exact ⟨hfits, hval, rfl, rfl⟩
    · obtain ⟨v, r', s'⟩ := sig
      rintro ⟨hfits, hval, rfl, rfl⟩
      exact ⟨v, (signatureV_eq_ok hrecid).mpr ⟨hfits, hval⟩, rfl⟩
  rw [hpre, recidOf, hsign]
  constructor
  · rintro ⟨sig, hsig, -⟩
    exact ((hsigned sig).mp hsig).1
  · intro hfits
    have hlt := (vSum_lt_iff hrecid).mpr hfits
    have hval := UInt64.toNat_ofNat_of_lt' hlt
    refine ⟨⟨UInt64.ofNat (vSum tx.txType tx.chainId recid), r, s⟩,
      (hsigned _).mpr ⟨hfits, hval, rfl, rfl⟩, ?_⟩
    rw [RawEvmTx.recoverSender]
    dsimp only
    rw [hval, rawRecidOfV_vSum tx hrecid, ok_bind, hhash, ok_bind, UInt8.ofNat_toNat, hrecover]

include hE in
/-- Both signers close the loop exactly when `v` fits its type; the fields of
the first include a priority fee that only one type carries. -/
theorem sign_loop_closes :
    (∀ (tx : EvmTx) (key : E.PrivateKey), tx.Unsigned →
      (LoopCloses E tx key ↔ VFits tx.txType tx.chainId (recidOf E key tx.signBytes) ∧
        (tx.txType = .eip1559 ∨ tx.gasTipCap = 0))) ∧
    (∀ (tx : EvmTx) (key : E.PrivateKey), tx.Unsigned →
      VFits tx.txType tx.chainId (recidOf E key tx.signBytes) →
      ∃ signed bytes parsed, tx.sign E key = .ok signed ∧ signed.toBytes = .ok bytes ∧
        parseTransaction bytes = .ok parsed ∧
        SameFields parsed
          { tx with gasTipCap := if tx.txType = .eip1559 then tx.gasTipCap else 0 } ∧
        parsed.senderPubkey E = .ok (E.publicKey key)) ∧
    (∀ (tx : RawEvmTx) (key : E.PrivateKey), tx.txType ≠ .eip4844 →
      ((∃ sig, tx.sign E key = .ok sig ∧ tx.recoverSender E sig =
          .ok (etherHash E (E.serializeUncompressed (E.publicKey key)).toList)) ↔
        VFits tx.txType tx.chainId (recidOf E key tx.preimage))) :=
  ⟨fun _ key h => loopCloses_iff hE h key, fun _ key h hfits => sign_parse_recover hE h key hfits,
    fun _ key h => recoverSender_sign hE h key⟩

end Loop

/-! ## One key and two transactions -/

def sampleTx : EvmTx where
  chainId := 1
  nonce := 42
  gasFeeCap := 30000000000
  gas := 21000
  toAddr := Ascii.ofString "0x2aeb8add8337360e088b7d9ce4e857b9be60f3a7"
  value := 1000000000000000000

/-- The chain id doubled does not fit a u64. -/
def overflowTx : EvmTx := { sampleTx with chainId := 0x8000000000000000 }

def sampleRaw : RawEvmTx where
  txType := .legacy
  chainId := 1
  nonce := 42
  maxPriorityFeePerGas := 0
  maxFeePerGas := 30000000000
  gas := 21000
  toAddr := some (beVec 20 0x2aeb8add8337360e088b7d9ce4e857b9be60f3a7)
  value := beVec 32 1000000000000000000
  data := []

def sampleDigest : ByteVec 32 :=
  beVec 32 0xa7b8a7bbacd257cd90773e85b97ce75065ae707d5cbb3ca320ba52495694bfed

def overflowDigest : ByteVec 32 :=
  beVec 32 0x0cb41c67302409563b7401d5c7b9de109b5046de0723e01be5623829dd5b2a88

def sampleSignature (digest : ByteVec 32) : ByteVec 32 × ByteVec 32 × UInt8 :=
  if digest = sampleDigest then
    (beVec 32 0x324813b670f78e6a61f43767282b720ee4ba05a949a9d7896546160bf43a7d1e,
      beVec 32 0x4345a6b3c015b9ae5f2f150e0ae85c313ef00509c2119c3f0cf91480823bd778, 1)
  else
    (beVec 32 0xc8b326cce5d41f1b323b7f83629c219552707d792098e48f87635637a0e5bcf9,
      beVec 32 0x212c785f66ecf3913a95e925996e1752bae8f23a99c18bafddbc39df990d5569, 0)

/-- One key; the hash and its signatures on the two preimages. -/
def sampleSigner : SecpSigner where
  PrivateKey := Unit
  PublicKey := Unit
  keccak256 data :=
    if data.length = 64 then
      beVec 32 0x282d6d2a7c3994d46608b6382aeb8add8337360e088b7d9ce4e857b9be60f3a7
    else if sampleTx.signBytes = .ok data then sampleDigest
    else overflowDigest
  publicKey _ := ()
  serializeUncompressed _ := ⟨0x04 ::
    (be 32 0xad1d8e89212f0b92c74d23bb710c00662ad1470198ac48c43f7d6f93a2a26873 ++
      be 32 0x2577fe5b31f3475b9b12445a22cad07025ba2a5ea52ad6e17a3d1543a29be81), by simp⟩
  signRecoverable _ digest := sampleSignature digest
  recoverPublicKey r s recid digest := if (r, s, recid) = sampleSignature digest then some () else none

theorem sampleSigner_recovers : sampleSigner.Recovers where
  recid_le _ digest := by
    have hle : (sampleSignature digest).2.2 ≤ 1 := by
      unfold sampleSignature
      split_ifs <;> decide
    exact hle
  recover _ _ := if_pos rfl

theorem unsigned_of_chainId (chainId : UInt64) :
    EvmTx.Unsigned { sampleTx with chainId := chainId } where
  signed := rfl
  txType := by simp [sampleTx]
  gasTipCap := (by decide : 0 ≤ sampleTx.gasTipCap)
  gasFeeCap := (by decide : 0 ≤ sampleTx.gasFeeCap)
  value := (by decide : 0 ≤ sampleTx.value)
  toAddr := (.inr ⟨sampleTx.toAddr.drop 2, by decide +kernel, by decide +kernel, by decide +kernel⟩ :
    AddressText sampleTx.toAddr)
  fits := by
    intro fields h
    have hlen : (match sampleTx.rlpFields with
        | .ok f => decide ((Rlp.encodeAll f).length < 2 ^ 63)
        | .error _ => true) = true := by decide
    have hfields : sampleTx.rlpFields = .ok fields := h
    rw [hfields] at hlen
    exact of_decide_eq_true hlen

theorem sign_loop_closes_sample :
    LoopCloses sampleSigner sampleTx () ∧
      ∃ sig, sampleRaw.sign sampleSigner () = .ok sig ∧
        sampleRaw.recoverSender sampleSigner sig =
          .ok (beVec 20 0x2aeb8add8337360e088b7d9ce4e857b9be60f3a7) := by
  obtain ⟨hloop, -, hraw⟩ := sign_loop_closes sampleSigner_recovers
  have hfits : ∀ recid : UInt8, recid ≤ 1 → VFits .legacy 1 recid := by
    intro recid hrecid _ _
    have hle : recid.toNat ≤ 1 := UInt8.le_iff_toNat_le.mp hrecid
    have hone : (1 : UInt64).toNat = 1 := rfl
    omega
  have hrecid : ∀ preimage, recidOf sampleSigner () preimage ≤ 1 := by
    intro preimage
    cases preimage with
    | ok preimage => exact sampleSigner_recovers.recid_le () _
    | error e => exact (by decide : (0 : UInt8) ≤ 1)
  refine ⟨(hloop sampleTx () (unsigned_of_chainId 1)).mpr ⟨hfits _ (hrecid _), .inr rfl⟩, ?_⟩
  exact (hraw sampleRaw () (by decide)).mpr (hfits _ (hrecid _))

/-- Signing for a chain id of 2^63 overflows. -/
theorem sign_loop_overflows :
    overflowTx.Unsigned ∧ overflowTx.sign sampleSigner () = .error .panic ∧
      ¬ LoopCloses sampleSigner overflowTx () := by
  have hpanic : overflowTx.sign sampleSigner () = .error .panic := by
    obtain ⟨preimage, hpre⟩ := (unsigned_of_chainId 0x8000000000000000).signBytes
    have hsum : ∀ recid, signatureV .legacy 0x8000000000000000 recid = .error .panic := by
      intro recid
      have hval : (0x8000000000000000 : UInt64).toNat = 0x8000000000000000 := rfl
      rw [signatureV, vSum, if_neg (by decide), checked, if_neg (by omega)]
    unfold overflowTx EvmTx.sign
    rw [hpre, orTrap_ok, ok_bind]
    exact congrArg (· >>= _) (hsum _)
  refine ⟨unsigned_of_chainId _, hpanic, ?_⟩
  rintro ⟨signed, -, -, hsigned, -⟩
  rw [hpanic] at hsigned
  cases hsigned

end Outscript.Evm
