import Outscript.Error
import Outscript.Library.Fallible
import Outscript.Library.Protobuf
import Outscript.Sink

/-!
# Tron contracts

A contract is written into a sink as a protobuf message, fields in ascending
order and defaults omitted. It is parsed from fields in any order, of which
the last of each number counts.
-/
namespace Outscript.Tron

open ByteString Cursor Fallible Protobuf

/-- A raw address, with its prefix. -/
abbrev TronAddress := ByteVec 21

def wireVarint : Nat := 0
def wireBytes : Nat := 2

def i64Max : Nat := 2 ^ 63 - 1
def i32Max : Nat := 2 ^ 31 - 1

/-- The bytes of a string. -/
def strBytes (s : String) : Bytes := s.toUTF8.data.toList

def fromUtf8 (b : Bytes) : Option String := String.fromUTF8? ⟨b.toArray⟩

section Write

variable {S : Type} [Sink S]

def putVarint (s : S) (v : Nat) : S := Sink.put s (varint v)

def putTag (s : S) (field wire : Nat) : S := putVarint s (tagValue field wire)

/-- An integer field; zero is omitted. -/
def putUint (s : S) (field v : Nat) : S :=
  if v ≠ 0 then putVarint (putTag s field wireVarint) v else s

/-- A bytes or string field; empty is omitted. -/
def putBytes (s : S) (field : Nat) (b : Bytes) : S :=
  if b ≠ [] then Sink.put (putVarint (putTag s field wireBytes) b.length) b else s

/-- A field whose content is written twice: once to count it. -/
def putDelimited (s : S) (field : Nat) (omitEmpty : Bool) (write : ∀ {T : Type} [Sink T], T → T) : S :=
  let count := (write ({} : Counter)).count
  if omitEmpty ∧ count = 0 then s
  else write (putVarint (putTag s field wireBytes) count)

end Write

/-! ## Reading fields -/

/-- The next field's number and wire type, or nothing at the end. -/
def readTag : Read UInt8 Error (Option (Nat × Nat)) := do
  let left ← remaining
  if left = 0 then pure none
  else do
    let tag ← readVarint .unexpectedEof .tooLarge
    let field := tag >>> 3
    require (field ≠ 0 ∧ field < 2 ^ 32) .invalidData
    return some (field, tag &&& 7)

/-- A length-delimited field's content. -/
def readBytes (wire : Nat) : Read UInt8 Error Bytes := do
  require (wire = wireBytes) .invalidData
  let len ← readVarint .unexpectedEof .tooLarge
  take .unexpectedEof len

/-- A non-negative integer field. -/
def readInt (wire max : Nat) : Read UInt8 Error Nat := do
  require (wire = wireVarint) .invalidData
  let v ← readVarint .unexpectedEof .tooLarge
  require (v ≤ max) .invalidData
  return v

def readAddress (wire : Nat) : Read UInt8 Error TronAddress := do
  let b ← readBytes wire
  lift (okOr (tryInto 21 b) .invalidLength)

/-- The fields of a whole message. -/
def readMessage {σ : Type} (step : σ → Nat → Nat → Read UInt8 Error σ) (s : σ) (b : Bytes) :
    Except Error σ := do
  let (s, _) ← (fields readTag step s).run (start b)
  .ok s

/-! ## Contracts -/

structure TronTransfer where
  owner : TronAddress
  recipient : TronAddress
  amount : UInt64
  deriving DecidableEq

structure TronTransferAsset where
  assetName : Bytes
  owner : TronAddress
  recipient : TronAddress
  amount : UInt64
  deriving DecidableEq

structure TronTriggerSmartContract where
  owner : TronAddress
  contract : TronAddress
  callValue : UInt64
  data : Bytes
  callTokenValue : UInt64
  tokenId : UInt64
  deriving DecidableEq

/-- Any other contract, uninterpreted. -/
structure TronOtherContract where
  contractType : UInt32
  typeUrl : String
  parameter : Bytes
  deriving DecidableEq

inductive TronContract where
  | transfer (c : TronTransfer)
  | transferAsset (c : TronTransferAsset)
  | triggerSmartContract (c : TronTriggerSmartContract)
  | other (c : TronOtherContract)
  deriving DecidableEq

/-- The contracts that are interpreted. -/
inductive Known where
  | transfer
  | transferAsset
  | triggerSmartContract
  deriving DecidableEq

namespace Known

def contractType : Known → UInt32
  | transfer => 1
  | transferAsset => 2
  | triggerSmartContract => 31

def typeUrl : Known → String
  | transfer => "type.googleapis.com/protocol.TransferContract"
  | transferAsset => "type.googleapis.com/protocol.TransferAssetContract"
  | triggerSmartContract => "type.googleapis.com/protocol.TriggerSmartContract"

def ofTypeUrl (url : String) : Option Known :=
  if url = transfer.typeUrl then some transfer
  else if url = transferAsset.typeUrl then some transferAsset
  else if url = triggerSmartContract.typeUrl then some triggerSmartContract
  else none

end Known

/-- What is known of a parameter while it is parsed. -/
structure Parameter where
  owner : Option TronAddress := none
  recipient : Option TronAddress := none
  amount : UInt64 := 0
  callValue : UInt64 := 0
  callTokenValue : UInt64 := 0
  tokenId : UInt64 := 0
  assetName : Bytes := []
  data : Bytes := []

namespace Parameter

def readOwner (s : Parameter) (wire : Nat) : Read UInt8 Error Parameter := do
  let owner ← readAddress wire
  return { s with owner := some owner }

def readTo (s : Parameter) (wire : Nat) : Read UInt8 Error Parameter := do
  let recipient ← readAddress wire
  return { s with recipient := some recipient }

def readAmount (s : Parameter) (wire : Nat) : Read UInt8 Error Parameter := do
  let amount ← readInt wire i64Max
  return { s with amount := UInt64.ofNat amount }

/-- What a field says, as the contract numbers its fields. -/
def field : Known → Parameter → Nat → Nat → Read UInt8 Error Parameter
  | .transfer, s, 1, wire | .transferAsset, s, 2, wire => s.readOwner wire
  | .transfer, s, 2, wire | .transferAsset, s, 3, wire => s.readTo wire
  | .transfer, s, 3, wire | .transferAsset, s, 4, wire => s.readAmount wire
  | .transferAsset, s, 1, wire => do
    let assetName ← readBytes wire
    return { s with assetName }
  | .triggerSmartContract, s, 1, wire => s.readOwner wire
  | .triggerSmartContract, s, 2, wire => s.readTo wire
  | .triggerSmartContract, s, 3, wire => do
    let callValue ← readInt wire i64Max
    return { s with callValue := UInt64.ofNat callValue }
  | .triggerSmartContract, s, 4, wire => do
    let data ← readBytes wire
    return { s with data }
  | .triggerSmartContract, s, 5, wire => do
    let callTokenValue ← readInt wire i64Max
    return { s with callTokenValue := UInt64.ofNat callTokenValue }
  | .triggerSmartContract, s, 6, wire => do
    let tokenId ← readInt wire i64Max
    return { s with tokenId := UInt64.ofNat tokenId }
  | _, _, _, _ => throw .unsupportedField

def contract (s : Parameter) (owner recipient : TronAddress) : Known → TronContract
  | .transfer => .transfer ⟨owner, recipient, s.amount⟩
  | .transferAsset => .transferAsset ⟨s.assetName, owner, recipient, s.amount⟩
  | .triggerSmartContract =>
    .triggerSmartContract ⟨owner, recipient, s.callValue, s.data, s.callTokenValue, s.tokenId⟩

end Parameter

namespace TronContract

def contractType : TronContract → UInt32
  | transfer _ => Known.transfer.contractType
  | transferAsset _ => Known.transferAsset.contractType
  | triggerSmartContract _ => Known.triggerSmartContract.contractType
  | other c => c.contractType

def typeUrl : TronContract → String
  | transfer _ => Known.transfer.typeUrl
  | transferAsset _ => Known.transferAsset.typeUrl
  | triggerSmartContract _ => Known.triggerSmartContract.typeUrl
  | other c => c.typeUrl

/-- Writes the serialized contract message. -/
def writeParameter {S : Type} [Sink S] (s : S) : TronContract → S
  | transfer c =>
    let s := putBytes s 1 c.owner.toList
    let s := putBytes s 2 c.recipient.toList
    putUint s 3 c.amount.toNat
  | transferAsset c =>
    let s := putBytes s 1 c.assetName
    let s := putBytes s 2 c.owner.toList
    let s := putBytes s 3 c.recipient.toList
    putUint s 4 c.amount.toNat
  | triggerSmartContract c =>
    let s := putBytes s 1 c.owner.toList
    let s := putBytes s 2 c.contract.toList
    let s := putUint s 3 c.callValue.toNat
    let s := putBytes s 4 c.data
    let s := putUint s 5 c.callTokenValue.toNat
    putUint s 6 c.tokenId.toNat
  | other c => Sink.put s c.parameter

/-- Writes the type URL and the parameter. -/
def writeAny {S : Type} [Sink S] (c : TronContract) (s : S) : S :=
  let s := putBytes s 1 (strBytes c.typeUrl)
  putDelimited s 2 true (fun s => c.writeParameter s)

/-- Writes the contract message. -/
def write {S : Type} [Sink S] (c : TronContract) (permissionId : UInt32) (s : S) : S :=
  let s := putUint s 1 c.contractType.toNat
  let s := putDelimited s 2 false c.writeAny
  putUint s 5 permissionId.toNat

/-- Interprets a contract whose type URL is known; others stay uninterpreted. -/
def parse (contractType : UInt32) (typeUrl : String) (parameter : Bytes) : Except Error TronContract :=
  match Known.ofTypeUrl typeUrl with
  | none => .ok (other { contractType, typeUrl, parameter })
  | some known =>
    if contractType ≠ known.contractType then .error .invalidData
    else do
      let s ← readMessage (Parameter.field known) {} parameter
      let owner ← okOr s.owner .invalidData
      let recipient ← okOr s.recipient .invalidData
      .ok (s.contract owner recipient known)

end TronContract

/-! ## What is written -/

def uintField (number v : Nat) : Bytes :=
  if v ≠ 0 then varint (tagValue number wireVarint) ++ varint v else []

/-- A length-delimited field, which is written even when it is empty. -/
def messageField (number : Nat) (b : Bytes) : Bytes :=
  varint (tagValue number wireBytes) ++ (varint b.length ++ b)

def bytesField (number : Nat) (b : Bytes) : Bytes := if b ≠ [] then messageField number b else []

section Writes

variable {S : Type} [LawfulSink S]

theorem writes_uint (number v : Nat) : Writes (fun s : S => putUint s number v) (uintField number v) :=
  ((Writes.put _).comp (Writes.put _)).ite Writes.skip

theorem writes_bytes (number : Nat) (b : Bytes) :
    Writes (fun s : S => putBytes s number b) (bytesField number b) :=
  ((Writes.put _).comp ((Writes.put _).comp (Writes.put _))).ite Writes.skip

variable {write : ∀ {T : Type} [Sink T], T → T} {b : Bytes}

theorem writes_delimited (h : ∀ {T : Type} [LawfulSink T], Writes (fun s : T => write s) b)
    (number : Nat) (omitEmpty : Bool) :
    Writes (fun s : S => putDelimited s number omitEmpty write)
      (if omitEmpty ∧ b.length = 0 then [] else messageField number b) := by
  have hcount : (write ({} : Counter)).count = b.length := Counter.count_of_writes h
  simp only [putDelimited, hcount]
  exact Writes.skip.ite ((Writes.put _).comp ((Writes.put _).comp h))

theorem writes_message (h : ∀ {T : Type} [LawfulSink T], Writes (fun s : T => write s) b) (number : Nat) :
    Writes (fun s : S => putDelimited s number false write) (messageField number b) :=
  writes_delimited h number false

theorem writes_nonempty (h : ∀ {T : Type} [LawfulSink T], Writes (fun s : T => write s) b) (number : Nat) :
    Writes (fun s : S => putDelimited s number true write) (bytesField number b) := by
  have heq : bytesField number b = if true ∧ b.length = 0 then [] else messageField number b := by
    simp [bytesField, ite_not]
  rw [heq]
  exact writes_delimited h number true

end Writes

namespace TronContract

def parameterBytes : TronContract → Bytes
  | transfer c =>
    bytesField 1 c.owner.toList ++ (bytesField 2 c.recipient.toList ++ uintField 3 c.amount.toNat)
  | transferAsset c =>
    bytesField 1 c.assetName ++ (bytesField 2 c.owner.toList ++
      (bytesField 3 c.recipient.toList ++ uintField 4 c.amount.toNat))
  | triggerSmartContract c =>
    bytesField 1 c.owner.toList ++ (bytesField 2 c.contract.toList ++
      (uintField 3 c.callValue.toNat ++ (bytesField 4 c.data ++
        (uintField 5 c.callTokenValue.toNat ++ uintField 6 c.tokenId.toNat))))
  | other c => c.parameter

def anyBytes (c : TronContract) : Bytes :=
  bytesField 1 (strBytes c.typeUrl) ++ bytesField 2 c.parameterBytes

def encoding (c : TronContract) (permissionId : UInt32) : Bytes :=
  uintField 1 c.contractType.toNat ++ (messageField 2 c.anyBytes ++ uintField 5 permissionId.toNat)

section Writes

variable {S : Type} [LawfulSink S]

theorem writes_parameter (c : TronContract) :
    Writes (fun s : S => c.writeParameter s) c.parameterBytes := by
  cases c with
  | transfer c =>
    exact (writes_bytes 1 _).comp ((writes_bytes 2 _).comp (writes_uint 3 _))
  | transferAsset c =>
    exact (writes_bytes 1 _).comp ((writes_bytes 2 _).comp ((writes_bytes 3 _).comp (writes_uint 4 _)))
  | triggerSmartContract c =>
    exact (writes_bytes 1 _).comp ((writes_bytes 2 _).comp ((writes_uint 3 _).comp
      ((writes_bytes 4 _).comp ((writes_uint 5 _).comp (writes_uint 6 _)))))
  | other c => exact Writes.put _

theorem writes_any (c : TronContract) : Writes (fun s : S => c.writeAny s) c.anyBytes := by
  have hparameter : Writes (fun s : S => putDelimited s 2 true fun s => c.writeParameter s)
      (bytesField 2 c.parameterBytes) := writes_nonempty c.writes_parameter 2
  exact (writes_bytes 1 _).comp hparameter

theorem writes_write (c : TronContract) (permissionId : UInt32) :
    Writes (fun s : S => c.write permissionId s) (c.encoding permissionId) := by
  have hany : Writes (fun s : S => putDelimited s 2 false c.writeAny) (messageField 2 c.anyBytes) :=
    writes_message c.writes_any 2
  exact (writes_uint 1 _).comp (hany.comp (writes_uint 5 _))

end Writes

end TronContract

/-! ## What was written is read back -/

section Reads

variable {σ : Type} {step : σ → Nat → Nat → Read UInt8 Error σ} {s s' : σ} {number v max : Nat} {b : Bytes}

theorem length_bytesField (number : Nat) (b : Bytes) : b.length ≤ (bytesField number b).length := by
  unfold bytesField messageField
  split_ifs with h
  · simp only [List.length_append]
    omega
  · rw [not_not] at h
    rw [h]

theorem reads_tag {wire : Nat} {t : Bytes} (hnumber : 0 < number ∧ number < 2 ^ 32) (hwire : wire < 8)
    (h : Spelled (tagValue number wire) t) : Reads readTag t (some (number, wire)) := by
  obtain ⟨hfield, hlow⟩ := @tagValue_parts number wire hwire
  have hpos := List.length_pos_iff.mpr h.spells.ne_nil
  have hread := reads_spelled Error.unexpectedEof .tooLarge h
  intro r pos
  rw [readTag, run_remaining_bind, if_neg (by rw [List.length_append]; omega), run_bind_of (hread _ _)]
  dsimp only
  rw [hfield, hlow, run_require_bind ⟨by omega, hnumber.2⟩]
  rfl

theorem reads_delimited {w : Bytes} (h : Spelled b.length w) :
    Reads (readBytes wireBytes) (w ++ b) b :=
  Reads.require rfl _ ((reads_spelled _ _ h).bind (Reads.take _ b))

theorem reads_bytes (h : b.length < 2 ^ 64) : Reads (readBytes wireBytes) (varint b.length ++ b) b :=
  reads_delimited (spelled_varint h)

theorem reads_int (hv : v ≤ max) (h : v < 2 ^ 64) : Reads (readInt wireVarint max) (varint v) v := by
  intro r pos
  rw [readInt, run_require_bind rfl, run_bind_of (reads_varint _ _ h _ _), run_require_bind hv]
  rfl

theorem reads_address (a : TronAddress) :
    Reads (readAddress wireBytes) (varint a.toList.length ++ a.toList) a := by
  have hlen : a.toList.length < 2 ^ 64 := by
    rw [a.toList_length]
    decide
  intro r pos
  rw [readAddress, run_bind_of (reads_bytes hlen _ _)]
  have hinto : okOr (tryInto 21 a.toList) Error.invalidLength = .ok a :=
    okOr_eq_ok.mpr (tryInto_eq_some.mpr rfl)
  rw [hinto]
  rfl

/-- An integer field of 64 bits, whichever it is. -/
theorem reads_u64 {v : UInt64} (h : v.toNat ≤ i64Max) (set : UInt64 → σ) :
    Reads (do
      let n ← readInt wireVarint i64Max
      return set (UInt64.ofNat n)) (varint v.toNat) (set v) := by
  have hread := (reads_int h v.toNat_lt).bind_pure fun n => set (UInt64.ofNat n)
  rwa [UInt64.ofNat_toNat] at hread

theorem reads_vec (h : b.length < 2 ^ 64) (set : Bytes → σ) :
    Reads (do
      let b ← readBytes wireBytes
      return set b) (varint b.length ++ b) (set b) :=
  (reads_bytes h).bind_pure set

theorem toNat_eq_zero {v : UInt64} (h : v.toNat = 0) : v = 0 :=
  UInt64.toNat_inj.mp (h.trans UInt64.toNat_zero.symm)

theorem feeds_spelled {wire : Nat} {t w : Bytes} (hnumber : 0 < number ∧ number < 2 ^ 32)
    (hwire : wire < 8) (h : Spelled (tagValue number wire) t)
    (hstep : Reads (step s number wire) w s') : Feeds readTag step (t ++ w) s s' :=
  Feeds.field h.spells.ne_nil (reads_tag hnumber hwire h) hstep

/-- An omitted zero leaves the state as it is. -/
theorem feeds_uint (hnumber : 0 < number ∧ number < 2 ^ 32) (hzero : v = 0 → s = s')
    (hstep : Reads (step s number wireVarint) (varint v) s') :
    Feeds readTag step (uintField number v) s s' := by
  rw [uintField]
  split_ifs with hv
  · exact feeds_spelled hnumber (by decide) (spelled_varint (tagValue_lt hnumber.2 (by decide))) hstep
  · obtain rfl := hzero (not_not.mp hv)
    exact Feeds.nil s

theorem feeds_message (hnumber : 0 < number ∧ number < 2 ^ 32)
    (hstep : Reads (step s number wireBytes) (varint b.length ++ b) s') :
    Feeds readTag step (messageField number b) s s' :=
  feeds_spelled hnumber (by decide) (spelled_varint (tagValue_lt hnumber.2 (by decide))) hstep

theorem feeds_bytes (hnumber : 0 < number ∧ number < 2 ^ 32) (hempty : b = [] → s = s')
    (hstep : Reads (step s number wireBytes) (varint b.length ++ b) s') :
    Feeds readTag step (bytesField number b) s s' := by
  rw [bytesField]
  split_ifs with hb
  · exact feeds_message hnumber hstep
  · obtain rfl := hempty (not_not.mp hb)
    exact Feeds.nil s

theorem readMessage_of_feeds (h : Feeds readTag step b s s') : readMessage step s b = .ok s' := by
  rw [readMessage, h.fields_run fun pos => rfl]
  rfl

end Reads

namespace Known

theorem ofTypeUrl_typeUrl (known : Known) : ofTypeUrl known.typeUrl = some known := by
  cases known <;> decide

theorem ofTypeUrl_eq_none {url : String} (h : ∀ known : Known, url ≠ known.typeUrl) :
    ofTypeUrl url = none := by
  rw [ofTypeUrl, if_neg (h transfer), if_neg (h transferAsset), if_neg (h triggerSmartContract)]

end Known

namespace TronContract

/-- What the protocol's signed integers can hold, under a URL that is not one of
the known ones. -/
def Fits : TronContract → Prop
  | transfer c => c.amount.toNat ≤ i64Max
  | transferAsset c => c.amount.toNat ≤ i64Max
  | triggerSmartContract c =>
    c.callValue.toNat ≤ i64Max ∧ c.callTokenValue.toNat ≤ i64Max ∧ c.tokenId.toNat ≤ i64Max
  | other c => c.contractType.toNat ≤ i32Max ∧ ∀ known : Known, c.typeUrl ≠ known.typeUrl

theorem parse_known {known : Known} {b : Bytes} {s : Parameter} {owner recipient : TronAddress}
    (hread : Feeds readTag (Parameter.field known) b {} s) (howner : s.owner = some owner)
    (hrecipient : s.recipient = some recipient) :
    parse known.contractType known.typeUrl b = .ok (s.contract owner recipient known) := by
  rw [parse, known.ofTypeUrl_typeUrl]
  dsimp only
  rw [if_neg (not_not.mpr rfl), readMessage_of_feeds hread, ok_bind, howner, hrecipient]
  rfl

section Reads

variable {s : Parameter}

theorem reads_owner (a : TronAddress) :
    Reads (s.readOwner wireBytes) (varint a.toList.length ++ a.toList) { s with owner := some a } :=
  (reads_address a).bind_pure fun a => ({ s with owner := some a } : Parameter)

theorem reads_recipient (a : TronAddress) :
    Reads (s.readTo wireBytes) (varint a.toList.length ++ a.toList) { s with recipient := some a } :=
  (reads_address a).bind_pure fun a => ({ s with recipient := some a } : Parameter)

end Reads

theorem address_ne_nil (a : TronAddress) : a.toList ≠ [] := fun ha => by simpa [ha] using a.toList_length

theorem feeds_transfer {c : TronTransfer} (h : (transfer c).Fits) :
    Feeds readTag (Parameter.field .transfer) (transfer c).parameterBytes {}
      { owner := some c.owner, recipient := some c.recipient, amount := c.amount } := by
  refine (feeds_bytes (by decide) (fun ha => absurd ha (address_ne_nil _)) (reads_owner _)).append ?_
  refine (feeds_bytes (by decide) (fun ha => absurd ha (address_ne_nil _)) (reads_recipient _)).append ?_
  refine feeds_uint (by decide) (fun hzero => by rw [toNat_eq_zero hzero]) ?_
  exact reads_u64 h fun v =>
    ({ owner := some c.owner, recipient := some c.recipient, amount := v } : Parameter)

theorem feeds_transferAsset {c : TronTransferAsset} (h : (transferAsset c).Fits)
    (hlen : c.assetName.length < 2 ^ 64) :
    Feeds readTag (Parameter.field .transferAsset) (transferAsset c).parameterBytes {}
      { assetName := c.assetName, owner := some c.owner, recipient := some c.recipient
        amount := c.amount } := by
  refine (feeds_bytes (by decide) (fun hempty => by rw [hempty])
    (reads_vec hlen fun name => ({ assetName := name } : Parameter))).append ?_
  refine (feeds_bytes (by decide) (fun ha => absurd ha (address_ne_nil _)) (reads_owner _)).append ?_
  refine (feeds_bytes (by decide) (fun ha => absurd ha (address_ne_nil _)) (reads_recipient _)).append ?_
  refine feeds_uint (by decide) (fun hzero => by rw [toNat_eq_zero hzero]) ?_
  exact reads_u64 h fun v =>
    ({ assetName := c.assetName, owner := some c.owner, recipient := some c.recipient
       amount := v } : Parameter)

theorem feeds_triggerSmartContract {c : TronTriggerSmartContract} (h : (triggerSmartContract c).Fits)
    (hlen : c.data.length < 2 ^ 64) :
    Feeds readTag (Parameter.field .triggerSmartContract) (triggerSmartContract c).parameterBytes {}
      { owner := some c.owner, recipient := some c.contract, callValue := c.callValue, data := c.data
        callTokenValue := c.callTokenValue, tokenId := c.tokenId } := by
  obtain ⟨hcall, htoken, hid⟩ := h
  refine (feeds_bytes (by decide) (fun ha => absurd ha (address_ne_nil _)) (reads_owner _)).append ?_
  refine (feeds_bytes (by decide) (fun ha => absurd ha (address_ne_nil _)) (reads_recipient _)).append ?_
  refine (feeds_uint (by decide) (fun hzero => by rw [toNat_eq_zero hzero]) (reads_u64 hcall fun v =>
    ({ owner := some c.owner, recipient := some c.contract, callValue := v } : Parameter))).append ?_
  refine (feeds_bytes (by decide) (fun hempty => by rw [hempty]) (reads_vec hlen fun data =>
    ({ owner := some c.owner, recipient := some c.contract, callValue := c.callValue
       data } : Parameter))).append ?_
  refine (feeds_uint (by decide) (fun hzero => by rw [toNat_eq_zero hzero]) (reads_u64 htoken fun v =>
    ({ owner := some c.owner, recipient := some c.contract, callValue := c.callValue, data := c.data
       callTokenValue := v } : Parameter))).append ?_
  exact feeds_uint (by decide) (fun hzero => by rw [toNat_eq_zero hzero]) (reads_u64 hid fun v =>
    ({ owner := some c.owner, recipient := some c.contract, callValue := c.callValue, data := c.data
       callTokenValue := c.callTokenValue, tokenId := v } : Parameter))

/-- A written contract is interpreted as itself. -/
theorem parse_written {c : TronContract} (h : c.Fits) (hlen : c.parameterBytes.length < 2 ^ 64) :
    parse c.contractType c.typeUrl c.parameterBytes = .ok c := by
  cases c with
  | transfer c => exact parse_known (feeds_transfer h) rfl rfl
  | transferAsset c =>
    have hname := length_bytesField 1 c.assetName
    rw [parameterBytes, List.length_append] at hlen
    exact parse_known (feeds_transferAsset h (by omega)) rfl rfl
  | triggerSmartContract c =>
    have hdata := length_bytesField 4 c.data
    simp only [parameterBytes, List.length_append] at hlen
    exact parse_known (feeds_triggerSmartContract h (by omega)) rfl rfl
  | other c =>
    rw [parse, typeUrl, Known.ofTypeUrl_eq_none h.2]
    rfl

end TronContract

end Outscript.Tron
