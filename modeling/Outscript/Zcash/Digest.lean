import Outscript.Crypto.Blake2b
import Outscript.Library.Chunks
import Outscript.Zcash.Tx

/-!
# Transaction ids and signature digests

A digest is a personalized BLAKE2b-256, and the digests make a tree: a node
hashes the hashes of its children. The personalized hash is a parameter, and
the crate's own one can stand for it.
-/
namespace Outscript.Zcash

open ByteString Chunks Cursor Fallible

/-- A 32-byte hash of a message under a personalization. -/
abbrev PersonalHash := Bytes → Bytes → ByteVec 32

/-- The hash of whatever `f` writes. -/
def digest (H : PersonalHash) (person : String) (f : HashSink → HashSink) : ByteVec 32 :=
  H (Hashes.tagBytes person) (f {}).fed

def putDigest (d : HashSink) (v : ByteVec 32) : HashSink := Sink.put d v.toList

/-! ## Bundles -/

/-- The bytes of a chunk from one offset to another. -/
def part (start stop : Nat) (chunk : Bytes) : Bytes := (chunk.take stop).drop start

def putParts (chunks : List Bytes) (parts : List (Bytes → Bytes)) (d : HashSink) : HashSink :=
  chunks.foldl (fun d chunk => parts.foldl (fun d f => Sink.put d (f chunk)) d) d

section Bundles

variable (H : PersonalHash)

namespace Sapling

def spendsDigest (bundle : Sapling) : ByteVec 32 :=
  let spends := asChunks saplingSpendLen bundle.spends
  digest H "ZTxIdSSpendsHash" fun d =>
    if bundle.spends = [] then d
    else
      let d := putDigest d (digest H "ZTxIdSSpendCHash" (putParts spends
        [part 32 64])) -- nullifier
      putDigest d (digest H "ZTxIdSSpendNHash" (putParts spends
        [part 0 32, -- cv
         fun _ => bundle.anchor,
         part 64 saplingSpendLen])) -- rk

def outputsDigest (bundle : Sapling) : ByteVec 32 :=
  let outputs := asChunks saplingOutputLen bundle.outputs
  digest H "ZTxIdSOutputHash" fun d =>
    if bundle.outputs = [] then d
    else
      let d := putDigest d (digest H "ZTxIdSOutC__Hash" (putParts outputs
        [part 32 96, -- cmu, ephemeral key
         part 96 148])) -- the compact part of the ciphertext
      let d := putDigest d (digest H "ZTxIdSOutM__Hash" (putParts outputs
        [part 148 660])) -- the memo
      putDigest d (digest H "ZTxIdSOutN__Hash" (putParts outputs
        [part 0 32, -- cv
         part 660 saplingOutputLen])) -- the rest of the ciphertext, out ciphertext

def bundleDigest (bundle : Sapling) : ByteVec 32 :=
  digest H "ZTxIdSaplingHash" fun d =>
    if bundle.spends = [] ∧ bundle.outputs = [] then d
    else
      let d := putDigest d (bundle.spendsDigest H)
      let d := putDigest d (bundle.outputsDigest H)
      Sink.put d bundle.valueBalance

end Sapling

def Orchard.bundleDigest (bundle : Orchard) : ByteVec 32 :=
  let actions := asChunks orchardActionLen bundle.actions
  digest H "ZTxIdOrchardHash" fun d =>
    if bundle.actions = [] then d
    else
      let d := putDigest d (digest H "ZTxIdOrcActCHash" (putParts actions
        [part 32 64, -- nullifier
         part 96 160, -- cmx, ephemeral key
         part 160 212])) -- the compact part of the ciphertext
      let d := putDigest d (digest H "ZTxIdOrcActMHash" (putParts actions
        [part 212 724])) -- the memo
      let d := putDigest d (digest H "ZTxIdOrcActNHash" (putParts actions
        [part 0 32, -- cv
         part 64 96, -- rk
         part 724 orchardActionLen])) -- the rest of the ciphertext, out ciphertext
      Sink.put d bundle.trailer

def saplingDigest (bundle : Bytes) : Except Trap (ByteVec 32) := do
  let bundle ← parseSapling bundle
  .ok (bundle.bundleDigest H)

def orchardDigest (bundle : Bytes) : Except Trap (ByteVec 32) := do
  let bundle ← parseOrchard bundle
  .ok (bundle.bundleDigest H)

end Bundles

/-! ## Transactions -/

def sighashAll : UInt8 := 0x01
def sighashNone : UInt8 := 0x02
def sighashSingle : UInt8 := 0x03
def sighashAnyonecanpay : UInt8 := 0x80

/-- Whether only the signed input is committed to. -/
def anyoneCanPay (hashType : UInt8) : Bool := hashType &&& sighashAnyonecanpay ≠ 0

def baseType (hashType : UInt8) : UInt8 := hashType &&& ~~~sighashAnyonecanpay

section Transactions

variable (H : PersonalHash)

def outputsDigest (outputs : List ZcashTxOut) : ByteVec 32 :=
  digest H "ZTxIdOutputsHash" fun d => outputs.foldl putOutput d

def amountsDigest (prevouts : List ZcashTxOut) : ByteVec 32 :=
  digest H "ZTxTrAmountsHash" fun d =>
    prevouts.foldl (fun d prevout => Sink.put d (le64 prevout.amount)) d

def scriptsDigest (prevouts : List ZcashTxOut) : ByteVec 32 :=
  digest H "ZTxTrScriptsHash" fun d =>
    prevouts.foldl (fun d prevout => Sink.put (putVarint d prevout.script.length) prevout.script) d

/-- The signed input with the output it spends, if an input is signed. -/
def txInDigest (own : Option (ZcashTxIn × ZcashTxOut)) : ByteVec 32 :=
  digest H "Zcash___TxInHash" fun d =>
    match own with
    | none => d
    | some (input, prevout) => Sink.put (putOutput (putOutpoint d input) prevout) (le32 input.sequence)

namespace ZcashTx

variable (tx : ZcashTx)

/-- One input that spends nothing. -/
def isCoinbase : Bool :=
  match tx.inputs with
  | [input] => input.txid = List.Vector.replicate 32 0 ∧ input.vout = 0xffffffff
  | _ => false

def headerDigest : ByteVec 32 := digest H "ZTxIdHeadersHash" tx.writeHeader

def prevoutsDigest : ByteVec 32 := digest H "ZTxIdPrevoutHash" fun d => tx.inputs.foldl putOutpoint d

def sequenceDigest : ByteVec 32 :=
  digest H "ZTxIdSequencHash" fun d => tx.inputs.foldl (fun d i => Sink.put d (le32 i.sequence)) d

/-- The transparent digest of the transaction id. -/
def transparentDigest : ByteVec 32 :=
  digest H "ZTxIdTranspaHash" fun d =>
    if tx.inputs = [] ∧ tx.outputs = [] then d
    else
      let d := putDigest d (tx.prevoutsDigest H)
      let d := putDigest d (tx.sequenceDigest H)
      putDigest d (outputsDigest H tx.outputs)

/-- The digest tree with the given transparent digest. -/
def txDigest (transparent : ByteVec 32) : Except Trap (ByteVec 32) := do
  let sapling ← saplingDigest H tx.saplingBytes
  let orchard ← orchardDigest H tx.orchardBytes
  let d := putDigest {} (tx.headerDigest H)
  let d := putDigest d transparent
  let d := putDigest d sapling
  let d := putDigest d orchard
  .ok (H (Hashes.tagBytes "ZcashTxHash_" ++ le32 tx.consensusBranchId) d.fed)

/-- In display order. -/
def txid : Except Trap (ByteVec 32) := do
  let id ← tx.txDigest H (tx.transparentDigest H)
  .ok id.reverse

def checkSighash (index : Option Nat) (hashType : UInt8) : Except Error Unit :=
  let base := baseType hashType
  if ¬ (base = sighashAll ∨ base = sighashNone ∨ base = sighashSingle) then .error .unsupportedSighash
  else
    match index with
    | some index =>
      if tx.inputs.length ≤ index then .error .inputIndex
      else if base = sighashSingle ∧ tx.outputs.length ≤ index then .error .outputIndex
      else .ok ()
    | none => if hashType ≠ sighashAll then .error .unsupportedSighash else .ok ()

def checkPrevouts (index : Option Nat) (hashType : UInt8) (prevouts : List ZcashTxOut) :
    Except Error Unit :=
  if index.any (fun index => prevouts.length ≤ index) ∨
      (anyoneCanPay hashType = false ∧ prevouts.length ≠ tx.inputs.length) then
    .error .prevOutCount
  else .ok ()

/-- The outputs that a hash type signs. -/
def signedOutputs (index : Option Nat) (hashType : UInt8) : Except Trap (List ZcashTxOut) :=
  if baseType hashType = sighashNone then .ok []
  else
    match index with
    | some index =>
      if baseType hashType = sighashSingle then
        match tx.outputs[index]? with
        | some output => .ok [output]
        | none => .error .panic
      else .ok tx.outputs
    | none => .ok tx.outputs

/-- The input at the index, with the output it spends. -/
def ownInput (index : Option Nat) (prevouts : List ZcashTxOut) :
    Except Trap (Option (ZcashTxIn × ZcashTxOut)) :=
  match index with
  | none => .ok none
  | some index =>
    match tx.inputs[index]?, prevouts[index]? with
    | some input, some prevout => .ok (some (input, prevout))
    | _, _ => .error .panic

/-- The transparent digest of a signature. -/
def transparentSigDigest (hashType : UInt8) (prevouts : List ZcashTxOut) (outputs : List ZcashTxOut)
    (own : Option (ZcashTxIn × ZcashTxOut)) : ByteVec 32 :=
  let anyone := anyoneCanPay hashType
  digest H "ZTxIdTranspaHash" fun d =>
    let d := Sink.put d [hashType]
    let d := putDigest d
      (if anyone then digest H "ZTxIdPrevoutHash" fun d => d else tx.prevoutsDigest H)
    let d := putDigest d (amountsDigest H (if anyone then [] else prevouts))
    let d := putDigest d (scriptsDigest H (if anyone then [] else prevouts))
    let d := putDigest d
      (if anyone then digest H "ZTxIdSequencHash" fun d => d else tx.sequenceDigest H)
    let d := putDigest d (outputsDigest H outputs)
    putDigest d (txInDigest H own)

/-- The signature digest of a transparent input, or of the shielded parts. -/
def sighash (index : Option Nat) (hashType : UInt8) (prevouts : List ZcashTxOut) :
    Except Trap (ByteVec 32) := do
  orTrap (tx.checkSighash index hashType)
  -- nothing transparent is spent: the digest is the transaction id's
  if tx.inputs = [] ∨ tx.isCoinbase then tx.txDigest H (tx.transparentDigest H)
  else do
    orTrap (tx.checkPrevouts index hashType prevouts)
    let outputs ← tx.signedOutputs index hashType
    let own ← tx.ownInput index prevouts
    tx.txDigest H (tx.transparentSigDigest H hashType prevouts outputs own)

end ZcashTx

end Transactions

/-! ## What the checks leave -/

namespace ZcashTx

variable {H : PersonalHash} {tx : ZcashTx} {hashType : UInt8} {prevouts : List ZcashTxOut}

theorem checkSighash_some {i : Nat} : tx.checkSighash (some i) hashType = .ok () ↔
    (baseType hashType = sighashAll ∨ baseType hashType = sighashNone ∨
      baseType hashType = sighashSingle) ∧ i < tx.inputs.length ∧
      (baseType hashType = sighashSingle → i < tx.outputs.length) := by
  simp only [checkSighash]
  split_ifs with hbase hinput houtput
  · exact iff_of_false (fun h => nomatch h) fun h => absurd h.2.1 (not_lt.mpr hinput)
  · exact iff_of_false (fun h => nomatch h) fun h => absurd (h.2.2 houtput.1) (not_lt.mpr houtput.2)
  · refine iff_of_true rfl ⟨hbase, not_le.mp hinput, fun hsingle => ?_⟩
    exact not_le.mp fun hle => houtput ⟨hsingle, hle⟩
  · exact iff_of_false (fun h => nomatch h) fun h => hbase h.1

theorem checkPrevouts_some {i : Nat} : tx.checkPrevouts (some i) hashType prevouts = .ok () ↔
    i < prevouts.length ∧ (anyoneCanPay hashType = false → prevouts.length = tx.inputs.length) := by
  simp only [checkPrevouts, Option.any_some, decide_eq_true_eq]
  split_ifs with h
  · refine iff_of_false (fun h => nomatch h) ?_
    rintro ⟨hi, hall⟩
    rcases h with hle | ⟨hone, hne⟩
    · omega
    · exact hne (hall hone)
  · rw [not_or, not_and, not_not] at h
    exact iff_of_true rfl ⟨not_le.mp h.1, h.2⟩

/-- The input that is signed, with what it spends and the outputs it signs. -/
structure Signs (tx : ZcashTx) (i : Nat) (hashType : UInt8) (prevouts : List ZcashTxOut)
    (outputs : List ZcashTxOut) (input : ZcashTxIn) (prevout : ZcashTxOut) : Prop where
  base : baseType hashType = sighashAll ∨ baseType hashType = sighashNone ∨
    baseType hashType = sighashSingle
  input : tx.inputs[i]? = some input
  prevout : prevouts[i]? = some prevout
  outputs : outputs = if baseType hashType = sighashNone then []
    else if baseType hashType = sighashSingle then tx.outputs[i]?.toList else tx.outputs
  counts : anyoneCanPay hashType = false → prevouts.length = tx.inputs.length

/-- After the checks, no index is out of range. -/
theorem signs_of_checks {i : Nat} (hsighash : tx.checkSighash (some i) hashType = .ok ())
    (hprevouts : tx.checkPrevouts (some i) hashType prevouts = .ok ()) :
    ∃ outputs input prevout, tx.Signs i hashType prevouts outputs input prevout ∧
      tx.signedOutputs (some i) hashType = .ok outputs ∧
      tx.ownInput (some i) prevouts = .ok (some (input, prevout)) := by
  obtain ⟨hbase, hinput, houtput⟩ := checkSighash_some.mp hsighash
  obtain ⟨hprevout, hcounts⟩ := checkPrevouts_some.mp hprevouts
  have hi := List.getElem?_eq_getElem hinput
  have hp := List.getElem?_eq_getElem hprevout
  have hown : tx.ownInput (some i) prevouts = .ok (some (tx.inputs[i], prevouts[i])) := by
    simp only [ownInput, hi, hp]
  refine ⟨_, _, _, ⟨hbase, hi, hp, rfl, hcounts⟩, ?_, hown⟩
  rw [signedOutputs]
  split_ifs with hnone hsingle
  · rfl
  · rw [List.getElem?_eq_getElem (houtput hsingle)]
    rfl
  · rfl

/-- What a signature digest of an input is a digest of. -/
theorem sighash_eq_ok {i : Nat} {d : ByteVec 32} (hne : tx.inputs ≠ []) (hcoinbase : tx.isCoinbase = false)
    (h : tx.sighash H (some i) hashType prevouts = .ok d) :
    ∃ outputs input prevout, tx.Signs i hashType prevouts outputs input prevout ∧
      tx.signedOutputs (some i) hashType = .ok outputs ∧
      tx.ownInput (some i) prevouts = .ok (some (input, prevout)) ∧
      tx.txDigest H (tx.transparentSigDigest H hashType prevouts outputs (some (input, prevout))) =
        .ok d := by
  rw [sighash] at h
  obtain ⟨⟨⟩, hsighash, h⟩ := bind_eq_ok.mp h
  rw [if_neg (not_or.mpr ⟨hne, by rw [hcoinbase]; decide⟩)] at h
  obtain ⟨⟨⟩, hprevouts, h⟩ := bind_eq_ok.mp h
  obtain ⟨outputs, input, prevout, hsigns, hout, hown⟩ :=
    signs_of_checks (orTrap_eq_ok.mp hsighash) (orTrap_eq_ok.mp hprevouts)
  rw [hout, ok_bind, hown, ok_bind] at h
  exact ⟨outputs, input, prevout, hsigns, hout, hown, h⟩

end ZcashTx

/-! ## The hash of the crate -/

def blake2bPersonal : PersonalHash := fun person msg =>
  ⟨Blake2.blake2b.digest 32 person msg, Blake2.blake2b.length_digest (by decide) person msg⟩

/-- What writes alike into both sinks has this digest, whatever pieces it comes in. -/
theorem digest_blake2bPersonal {person : String} {f : HashSink → HashSink}
    {g : Blake2bPersonal → Blake2bPersonal} {b : Bytes} (hf : Writes f b) (hg : Writes g b)
    (hperson : (Hashes.tagBytes person).length ≤ 16) :
    (do
      let d ← Blake2bPersonal.new 32 (Hashes.tagBytes person)
      (g d).finalize32) = .ok (digest blake2bPersonal person f).toList := by
  rw [digest, HashSink.fed_of_writes hf]
  exact Blake2bPersonal.digest_of_writes hg (by decide) hperson List.length_replicate

end Outscript.Zcash
