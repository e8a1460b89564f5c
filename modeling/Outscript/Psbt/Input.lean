import Outscript.Psbt.Rewrite

/-!
# Typed views of input maps

Each accessor reads the records of one key type. Where a record must have no
key data, its key is the key type alone, so the accessor looks up that key.
-/
namespace Outscript.Psbt

open ByteString Cursor Fallible

/-- A taproot leaf script of an input. -/
structure TapLeafScript where
  controlBlock : Bytes
  script : Bytes
  leafVersion : UInt8
  deriving DecidableEq

namespace PsbtInput

variable (inp : Map)

def nonWitnessUtxo : Option Bytes := inp.getType Input.nonWitnessUtxo

def witnessUtxo : Option WireOut := do
  let value ← inp.getType Input.witnessUtxo
  match TxLayout.readOutput.run (start value) with
  | .ok (out, _) => some out
  | .error _ => none

/-- The partial signatures, each with its public key. -/
def partialSigs : List (Bytes × Bytes) :=
  (inp.recordsOf Input.partialSig).map fun r => (r.keyData, r.value)

def partialSig (pubkey : Bytes) : Option Bytes :=
  ((partialSigs inp).find? fun s => s.1 = pubkey).map (·.2)

def sighashType : Option Nat := do
  let value ← inp.getType Input.sighashType
  let bytes ← tryInto 4 value
  return leVal bytes.toList

def redeemScript : Option Bytes := inp.getType Input.redeemScript

def witnessScript : Option Bytes := inp.getType Input.witnessScript

def finalScriptSig : Option Bytes := inp.getType Input.finalScriptsig

/-- The final witness as serialized. -/
def finalScriptWitness : Option Bytes := inp.getType Input.finalScriptwitness

def tapKeySig : Option Bytes := inp.getType Input.tapKeySig

def tapInternalKey : Option (ByteVec 32) := do
  let value ← inp.getType Input.tapInternalKey
  tryInto 32 value

def tapMerkleRoot : Option (ByteVec 32) := do
  let value ← inp.getType Input.tapMerkleRoot
  tryInto 32 value

/-- A leaf script record: the script, then its leaf version. -/
def leafOf (r : Record) : Option TapLeafScript :=
  match r.value.getLast? with
  | none => none
  | some leafVersion => some ⟨r.keyData, r.value.dropLast, leafVersion⟩

def tapLeafScripts : List TapLeafScript := (inp.recordsOf Input.tapLeafScript).filterMap leafOf

/-- A script-path signature as key, leaf hash and signature. -/
def scriptSigOf (r : Record) : Option (Bytes × Bytes × Bytes) :=
  if 32 ≤ r.keyData.length then some (r.keyData.take 32, r.keyData.drop 32, r.value) else none

def tapScriptSigs : List (Bytes × Bytes × Bytes) :=
  (inp.recordsOf Input.tapScriptSig).filterMap scriptSigOf

def tapScriptSig (xonlyPubkey leafHash : ByteVec 32) : Option Bytes :=
  ((tapScriptSigs inp).find? fun s => s.1 = xonlyPubkey.toList ∧ s.2.1 = leafHash.toList).map
    (·.2.2)

def isFinalized : Bool := (finalScriptSig inp).isSome || (finalScriptWitness inp).isSome

end PsbtInput

/-- Every input has a final scriptSig or witness. -/
def View.isFinalized (p : View) : Bool := p.inputs.all PsbtInput.isFinalized

theorem Framed.key_iff {r : Record} (h : Framed r) {t : Nat} (ht : t < 2 ^ 64) (data : Bytes) :
    r.keyType = t ∧ r.keyData = data ↔ r.key = putVarint t ++ data := by
  constructor
  · rintro ⟨rfl, rfl⟩
    exact h.key_eq
  · intro hkey
    obtain ⟨key, value⟩ := r
    dsimp only at hkey
    subst hkey
    exact ⟨keyTypeOf_append ht data, keyData_append ht data value⟩

section Signatures

variable {C : Purecrypto} {recs : List Record} (h : ValidRecords C .input recs)

include h

theorem ValidRecords.tapScriptSig {r : Record} (hr : r ∈ recs) (ht : r.keyType = Input.tapScriptSig) :
    r.keyData.length = 64 ∧ (r.value.length = 64 ∨ r.value.length = 65) := by
  have hvalid := h.valid r hr
  rw [validateRecord, validateInputRecord] at hvalid
  simp only [ht] at hvalid
  obtain ⟨_, hkey, hvalue⟩ := bind_eq_ok.mp
    (show (do checkKey (r.keyData.length = 64)
              check (r.value.length = 64 || r.value.length = 65)) = .ok () from hvalid)
  rw [checkKey] at hkey
  rw [check] at hvalue
  split_ifs at hkey hvalue with hk hv
  exact ⟨of_decide_eq_true hk, by simpa using hv⟩

theorem tapScriptSig_ofRecords (key leafHash : ByteVec 32) :
    PsbtInput.tapScriptSig (Map.ofRecords recs) key leafHash =
      lookup recs (0x14 :: (key.toList ++ leafHash.toList)) := by
  have hsame {r : Record} (hr : r ∈ recs) :
      (r.keyType = Input.tapScriptSig ∧ ∃ s, PsbtInput.scriptSigOf r = some s ∧
        s.1 = key.toList ∧ s.2.1 = leafHash.toList) ↔ r.key = 0x14 :: (key.toList ++ leafHash.toList) := by
    have hiff := (h.framed r hr).key_iff (t := Input.tapScriptSig) (by decide)
      (key.toList ++ leafHash.toList)
    refine Iff.trans (and_congr_right fun ht => ?_) hiff
    have hlen := (h.tapScriptSig hr ht).1
    rw [PsbtInput.scriptSigOf, if_pos (by omega)]
    constructor
    · rintro ⟨_, ⟨⟩, hkey, hleaf⟩
      dsimp only at hkey hleaf
      rw [← hkey, ← hleaf, List.take_append_drop]
    · intro hdata
      refine ⟨_, rfl, ?_, ?_⟩
      · dsimp only
        rw [hdata, List.take_left' key.toList_length]
      · dsimp only
        rw [hdata, List.drop_left' key.toList_length]
  have hfind : recs.find? (fun r => decide (r.keyType = Input.tapScriptSig) &&
      (PsbtInput.scriptSigOf r).any fun s => decide (s.1 = key.toList ∧ s.2.1 = leafHash.toList)) =
      recs.find? fun r => r.key = 0x14 :: (key.toList ++ leafHash.toList) := by
    refine List.find?_congr fun r hr => ?_
    rw [Bool.eq_iff_iff, Bool.and_eq_true, decide_eq_true_eq, decide_eq_true_eq, ← hsame hr,
      Option.any_eq_true]
    simp only [decide_eq_true_eq]
  rw [PsbtInput.tapScriptSig, PsbtInput.tapScriptSigs, Map.recordsOf,
    Map.records_ofRecords h.framed, List.find?_filterMap, List.find?_filter, lookup, ← hfind]
  simp only [Bool.decide_and, Bool.decide_eq_true]
  cases hr : recs.find? _ with
  | none => rfl
  | some r =>
    have hp := List.find?_some hr
    rw [Bool.and_eq_true, decide_eq_true_eq] at hp
    have hlen := (h.tapScriptSig (List.mem_of_find?_eq_some hr) hp.1).1
    rw [Option.bind_some, PsbtInput.scriptSigOf, if_pos (by omega)]
    rfl

end Signatures

end Outscript.Psbt
