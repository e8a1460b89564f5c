import Mathlib.Algebra.Order.Floor.Div
import Outscript.Btc.SignRun

/-!
# Fee estimates

An input that is filled with placeholders tells the size of the transaction
before it is signed. The placeholders of a scheme are of one size. What signing
writes is not: it keeps the witness in front of a legacy signature, detects one
of several inner schemes, and appends a hash type or a leaf to a taproot
signature.
-/
namespace Outscript

open ByteString Fallible Taproot Secp256k1

/-! ## Sizes -/

def BtcTxInput.computeSize (i : BtcTxInput) : Nat :=
  32 + 4 + BtcVarInt.len i.script.length + i.script.length + 4

def BtcTxInput.computeWitnessSize (i : BtcTxInput) : Nat :=
  BtcVarInt.len i.witnesses.length +
    (i.witnesses.map fun w => BtcVarInt.len w.length + w.length).sum

def BtcTxOutput.computeSize (o : BtcTxOutput) : Nat :=
  8 + BtcVarInt.len o.script.length + o.script.length

/-- The (virtual) transaction size. -/
def BtcTx.computeSize (tx : BtcTx) : Nat :=
  let ln := 4 + BtcVarInt.len tx.inputs.length + BtcVarInt.len tx.outputs.length + 4 +
    (tx.inputs.map BtcTxInput.computeSize).sum + (tx.outputs.map BtcTxOutput.computeSize).sum
  let witln := (tx.inputs.map BtcTxInput.computeWitnessSize).sum
  if tx.hasWitness = false then ln
  else
    -- marker, flag
    ln + (witln + 2 + 3) / 4

/-! ## Sizes and serializations -/

theorem length_varSlice (s : Bytes) : (varSlice s).length = BtcVarInt.len s.length + s.length := by
  rw [varSlice, List.length_append, BtcVarInt.length_toArray]

theorem BtcTxInput.length_bytes (i : BtcTxInput) : i.bytes.length = i.computeSize := by
  simp only [bytes, computeSize, List.length_append, length_varSlice, le32, length_le,
    List.Vector.toList_length]
  omega

theorem BtcTxInput.length_witnessBytes (i : BtcTxInput) :
    i.witnessBytes.length = i.computeWitnessSize := by
  rw [witnessBytes, computeWitnessSize, List.length_append, BtcVarInt.length_toArray,
    List.length_flatMap]
  simp only [length_varSlice]

theorem BtcTxOutput.length_bytes (o : BtcTxOutput) : o.bytes.length = o.computeSize := by
  simp only [bytes, computeSize, List.length_append, length_varSlice, le64, length_le]
  omega

namespace BtcTx

variable (tx : BtcTx)

/-- The serialization adds up the fields, and with the witnesses also the marker and flag. -/
theorem length_exportBytes (wit : Bool) : (tx.exportBytes wit).length =
    4 + BtcVarInt.len tx.inputs.length + BtcVarInt.len tx.outputs.length + 4 +
      (tx.inputs.map BtcTxInput.computeSize).sum + (tx.outputs.map BtcTxOutput.computeSize).sum +
      if wit then (tx.inputs.map BtcTxInput.computeWitnessSize).sum + 2 else 0 := by
  have hinputs : (tx.inputs.flatMap BtcTxInput.bytes).length =
      (tx.inputs.map BtcTxInput.computeSize).sum := by
    simp only [List.length_flatMap, BtcTxInput.length_bytes]
  have houtputs : (tx.outputs.flatMap BtcTxOutput.bytes).length =
      (tx.outputs.map BtcTxOutput.computeSize).sum := by
    simp only [List.length_flatMap, BtcTxOutput.length_bytes]
  have hwitnesses : (tx.inputs.flatMap BtcTxInput.witnessBytes).length =
      (tx.inputs.map BtcTxInput.computeWitnessSize).sum := by
    simp only [List.length_flatMap, BtcTxInput.length_witnessBytes]
  cases wit <;> simp [exportBytes, hinputs, houtputs, hwitnesses, le32] <;> omega

/-- Three times the size without witnesses, and once the whole size. -/
def weight : Nat := 3 * (tx.exportBytes false).length + tx.bytes.length

/-- The estimated size is a quarter of the weight of what is serialized, rounded up. -/
theorem computeSize_eq : tx.computeSize = tx.weight ⌈/⌉ 4 := by
  rw [weight, bytes, length_exportBytes, length_exportBytes, computeSize, Nat.ceilDiv_eq_add_pred_div]
  cases tx.hasWitness <;> simp <;> omega

end BtcTx

/-- Fills the input with placeholders of the sizes expected for a scheme. -/
def BtcTxInput.prefill (i : BtcTxInput) (scheme : String) : Except Error BtcTxInput :=
  let emptySig : Bytes := List.replicate 72 0
  let compKey : Bytes := List.replicate 33 0
  let uncompKey : Bytes := List.replicate 65 0
  let p2pkScript : Bytes := List.replicate 35 0
  let p2pukScript : Bytes := List.replicate 67 0
  let p2pkhScript : Bytes := List.replicate 25 0
  match Scheme.parse scheme with
  | some .p2pk => .ok { i with script := pushBytes emptySig, witnesses := [] }
  | some .p2pkh =>
    .ok { i with script := pushBytes emptySig ++ pushBytes compKey, witnesses := [] }
  | some .p2pukh =>
    .ok { i with script := pushBytes emptySig ++ pushBytes uncompKey, witnesses := [] }
  | some .p2wpkh => .ok { i with script := [], witnesses := [emptySig, compKey] }
  | some (.p2wshOf .p2pk) => .ok { i with script := [], witnesses := [emptySig, p2pkScript] }
  | some (.p2wshOf .p2puk) => .ok { i with script := [], witnesses := [emptySig, p2pukScript] }
  | some .p2wsh | some (.p2wshOf .p2pkh) =>
    .ok { i with script := [], witnesses := [emptySig, compKey, p2pkhScript] }
  | some (.p2wshOf .p2pukh) =>
    .ok { i with script := [], witnesses := [emptySig, uncompKey, p2pkhScript] }
  | some .p2tr => .ok { i with script := [], witnesses := [List.replicate 64 0] }
  | some .p2shP2wpkh | none => .error .unsupportedScheme

/-! ## One input in a transaction -/

/-- The transaction with `i` between other inputs. -/
def BtcTx.around (tx : BtcTx) (before after : List BtcTxInput) (i : BtcTxInput) : BtcTx :=
  { tx with inputs := before ++ i :: after }

/-- With the estimate in its place, no transaction is smaller than with the signed
input. -/
def Covers (est signed : BtcTxInput) : Prop :=
  ∀ (tx : BtcTx) (before after : List BtcTxInput),
    (tx.around before after signed).computeSize ≤ (tx.around before after est).computeSize

/-- What the input adds to a transaction without other inputs. -/
def BtcTxInput.aloneSize (i : BtcTxInput) : Nat :=
  i.computeSize + if i.witnesses = [] then 0 else (i.computeWitnessSize + 2 + 3) / 4

/-- What the surroundings of an input contribute. -/
theorem BtcTx.exists_computeSize_around (tx : BtcTx) (before after : List BtcTxInput) :
    ∃ ln witln, ∀ i, (tx.around before after i).computeSize = ln + i.computeSize +
      if (∀ j ∈ before ++ after, j.witnesses = []) ∧ i.witnesses = [] then 0
      else (witln + i.computeWitnessSize + 2 + 3) / 4 := by
  refine ⟨4 + BtcVarInt.len (before.length + (after.length + 1)) +
    BtcVarInt.len tx.outputs.length + 4 + (before.map BtcTxInput.computeSize).sum +
    (after.map BtcTxInput.computeSize).sum + (tx.outputs.map BtcTxOutput.computeSize).sum,
    (before.map BtcTxInput.computeWitnessSize).sum + (after.map BtcTxInput.computeWitnessSize).sum,
    fun i => ?_⟩
  have hwit : (tx.around before after i).hasWitness = false ↔
      (∀ j ∈ before ++ after, j.witnesses = []) ∧ i.witnesses = [] := by
    simp [hasWitness, around, List.any_eq_false, or_imp, forall_and]
    tauto
  rw [computeSize]
  simp only [hwit]
  simp only [around, List.map_append, List.map_cons, List.sum_append, List.sum_cons,
    List.length_append, List.length_cons]
  split_ifs
  · omega
  · omega

theorem Covers.alone {est signed : BtcTxInput} (h : Covers est signed) :
    signed.aloneSize ≤ est.aloneSize := by
  have hsize (i : BtcTxInput) :
      ((⟨0, [], [], 0⟩ : BtcTx).around [] [] i).computeSize = 10 + i.aloneSize := by
    have hwit : ((⟨0, [], [], 0⟩ : BtcTx).around [] [] i).hasWitness = false ↔
        i.witnesses = [] := by
      simp [BtcTx.hasWitness, BtcTx.around]
    rw [BtcTx.computeSize, BtcTxInput.aloneSize]
    simp only [hwit]
    simp only [BtcTx.around, List.nil_append, List.map_cons, List.map_nil, List.sum_cons,
      List.sum_nil, List.length_cons, List.length_nil, Nat.add_zero]
    have hone : BtcVarInt.len (0 + 1) = 1 := rfl
    have hzero : BtcVarInt.len 0 = 1 := rfl
    split_ifs <;> omega
  have h := h ⟨0, [], [], 0⟩ [] []
  rw [hsize, hsize] at h
  omega

theorem covers_of_le {est signed : BtcTxInput} (hsize : signed.computeSize ≤ est.computeSize)
    (hempty : signed.witnesses = [] ↔ est.witnesses = [])
    (hwitness : signed.computeWitnessSize ≤ est.computeWitnessSize) : Covers est signed := by
  intro tx before after
  obtain ⟨ln, witln, hall⟩ := tx.exists_computeSize_around before after
  simp only [hall, hempty]
  split_ifs
  · omega
  · omega

/-! ## The placeholders and what is signed -/

/-- A signature with its flag has a one-byte length. -/
theorem length_pushBytes_of_le {v : Bytes} (h : v.length ≤ 75) :
    (pushBytes v).length = 1 + v.length := by
  rw [length_pushBytes, pushBytesLen, length_pushHeader, if_pos h]

theorem BtcVarInt.len_of_le {n : Nat} (h : n ≤ 0xfc) : BtcVarInt.len n = 1 := by
  rw [len_eq, if_pos h]

/-- When the placeholders of a scheme are the worst case for the input `i` of entry
`k`: there is no witness that a legacy scheme would keep, an uncompressed key is
not detected, and a taproot signature has no hash type and no leaf. -/
def WorstCase {C : Purecrypto} (i : BtcTxInput) (k : BtcTxSign C) (scheme : Scheme) : Prop :=
  match scheme with
  | .p2pk | .p2pkh | .p2pukh => i.witnesses = []
  | .p2wsh => ∀ key pk, k.key = some key → key.ecdsaPublicKey = some pk →
      detectInner C i.script pk ≠ some .p2pukh ∧ detectInner C i.script pk ≠ some .p2puk
  | .p2tr => k.sighash = 0 ∧ k.tapLeaf = none
  | .p2wpkh | .p2shP2wpkh | .p2wshOf _ => True

section Spends

variable {C : Purecrypto} (pk : SecpPublicKey C)

theorem length_generateScript (name : Format) : (generateScript C pk name).length =
    match name with
    | .comp => 33
    | .uncomp => 65
    | .script .p2pkh => 25
    | .script .p2pukh => 25
    | .script .p2pk => 35
    | .script .p2puk => 67 := by
  rcases name with _ | _ | _ | _ | _ | _ <;> simp [generateScript]

/-- A legacy input keeps its witness, which the placeholders do not have. -/
theorem covers_script {i : BtcTxInput} {est signed : Bytes} (hlen : signed.length ≤ est.length)
    (hsmall : est.length ≤ 0xfc) (hwit : i.witnesses = []) :
    Covers { i with script := est, witnesses := [] } { i with script := signed } := by
  refine covers_of_le ?_ (by simp [hwit]) (by simp [BtcTxInput.computeWitnessSize, hwit])
  simp only [BtcTxInput.computeSize, BtcVarInt.len_of_le hsmall,
    BtcVarInt.len_of_le (hlen.trans hsmall)]
  omega

theorem not_covers_script {i : BtcTxInput} {est signed : Bytes} (hlen : signed.length = est.length)
    (hwit : i.witnesses ≠ []) :
    ¬ Covers { i with script := est, witnesses := [] } { i with script := signed } := by
  intro h
  have h := h.alone
  rw [BtcTxInput.aloneSize, BtcTxInput.aloneSize, if_neg hwit, if_pos rfl,
    BtcTxInput.computeSize, BtcTxInput.computeSize] at h
  dsimp only at h
  rw [hlen] at h
  omega

/-- Where both have an empty scriptSig and a witness, the witnesses are compared. -/
theorem covers_witness {i : BtcTxInput} {est signed : List Bytes} (hest : est ≠ [])
    (hsigned : signed ≠ [])
    (h : ({ i with witnesses := signed, script := [] } : BtcTxInput).computeWitnessSize ≤
      ({ i with witnesses := est, script := [] } : BtcTxInput).computeWitnessSize) :
    Covers { i with witnesses := est, script := [] } { i with witnesses := signed, script := [] } :=
  covers_of_le le_rfl (iff_of_false hsigned hest) h

theorem not_covers_witness {i : BtcTxInput} {est signed : List Bytes} (hest : est ≠ [])
    (hsigned : signed ≠ [])
    (h : (({ i with witnesses := est, script := [] } : BtcTxInput).computeWitnessSize + 5) / 4 <
      (({ i with witnesses := signed, script := [] } : BtcTxInput).computeWitnessSize + 5) / 4) :
    ¬ Covers { i with witnesses := est, script := [] }
      { i with witnesses := signed, script := [] } := by
  intro hc
  have hc := hc.alone
  rw [BtcTxInput.aloneSize, BtcTxInput.aloneSize, if_neg hsigned, if_neg hest,
    BtcTxInput.computeSize, BtcTxInput.computeSize] at hc
  dsimp only at hc
  omega

/-- The witness of a p2wsh input. -/
theorem witnessSize_inner (i : BtcTxInput) (inner : KeyScript) {sig : Bytes} (hsig : sig.length ≤ 72) :
    ((witnessScriptSpend C pk inner).place sig i).computeWitnessSize = sig.length +
      match inner with
      | .p2pk => 38
      | .p2puk => 70
      | .p2pkh => 62
      | .p2pukh => 94 := by
  have hone (n : Nat) (hn : n ≤ 72) : BtcVarInt.len n = 1 := BtcVarInt.len_of_le (by omega)
  cases inner <;>
    simp [witnessScriptSpend, BtcTxInput.computeWitnessSize, innerItems, length_generateScript,
      hone, hsig] <;> omega

variable {pk} {i p : BtcTxInput} {sighash : UInt32} {scheme : Scheme} {spend : EcdsaSpend}
  {name : String} {sig : Bytes}

theorem place_pubkeyHashSpend {script : KeyScript} {pubkey : Format}
    (h : scheme = .p2pkh ∧ pubkey = .comp ∨ scheme = .p2pukh ∧ pubkey = .uncomp) :
    (pubkeyHashSpend C pk scheme script pubkey sighash).place sig i =
      { i with script := pushBytes sig ++ pushBytes (generateScript C pk pubkey) } := by
  rw [pubkeyHashSpend]
  split_ifs
  · rcases h with ⟨rfl, rfl⟩ | ⟨rfl, rfl⟩ <;> rfl
  · rfl

/-- What is to be shown of a scheme: its placeholders cover a signature with its
flag if they fit, and one of full length only then. -/
def CoversIff (fits : Prop) (sig : Bytes) (est signed : BtcTxInput) : Prop :=
  (fits → Covers est signed) ∧ (sig.length = 72 → Covers est signed → fits)

theorem coversIff_script {est signed : Bytes} (hlen : signed.length + 72 = est.length + sig.length)
    (hsig : sig.length ≤ 72) (hsmall : est.length ≤ 0xfc) :
    CoversIff (i.witnesses = []) sig { i with script := est, witnesses := [] }
      { i with script := signed } :=
  ⟨covers_script (by omega) hsmall, fun hfull h => by
    by_contra hwit
    exact not_covers_script (by omega) hwit h⟩

theorem coversIff_inner (inner : KeyScript) {est : List Bytes} (hest : est ≠ [])
    (hsig : sig.length ≤ 72) (hsize : ({ i with script := [], witnesses := est } :
      BtcTxInput).computeWitnessSize = 72 + match inner with
      | .p2pk => 38
      | .p2puk => 70
      | .p2pkh => 62
      | .p2pukh => 94) :
    CoversIff True sig { i with script := [], witnesses := est }
      ((witnessScriptSpend C pk inner).place sig i) := by
  refine ⟨fun _ => ?_, fun _ _ => trivial⟩
  have h := witnessSize_inner pk i inner hsig
  refine covers_witness hest (List.cons_ne_nil _ _) ?_
  change ((witnessScriptSpend C pk inner).place sig i).computeWitnessSize ≤ _
  rw [h, hsize]
  omega

/-- The placeholders of the largest witness that starts with a compressed key. -/
theorem coversIff_detected (inner : KeyScript) {est : List Bytes} (hest : est ≠ [])
    (hsig : sig.length ≤ 72) (hsize : ({ i with script := [], witnesses := est } :
      BtcTxInput).computeWitnessSize = 134) :
    CoversIff (inner ≠ .p2pukh ∧ inner ≠ .p2puk) sig { i with script := [], witnesses := est }
      ((witnessScriptSpend C pk inner).place sig i) := by
  have h := witnessSize_inner pk i inner hsig
  constructor
  · intro hinner
    refine covers_witness hest (List.cons_ne_nil _ _) ?_
    change ((witnessScriptSpend C pk inner).place sig i).computeWitnessSize ≤ _
    rw [h, hsize]
    cases inner with
    | p2pkh => dsimp only; omega
    | p2pk => dsimp only; omega
    | p2pukh => exact absurd rfl hinner.1
    | p2puk => exact absurd rfl hinner.2
  · intro hfull hcovers
    by_contra hinner
    refine not_covers_witness hest (List.cons_ne_nil _ _) ?_ hcovers
    change _ < (((witnessScriptSpend C pk inner).place sig i).computeWitnessSize + 5) / 4
    rw [h, hsize, hfull]
    cases inner with
    | p2pkh => exact absurd ⟨by decide, by decide⟩ hinner
    | p2pk => exact absurd ⟨by decide, by decide⟩ hinner
    | p2pukh => decide
    | p2puk => decide

theorem worstCase_p2wsh {k : BtcTxSign C} {key : Signer C} {inner : KeyScript}
    (hkey : k.key = some key) (hpk : key.ecdsaPublicKey = some pk)
    (hinner : detectInner C i.script pk = some inner) :
    WorstCase i k .p2wsh ↔ inner ≠ .p2pukh ∧ inner ≠ .p2puk := by
  constructor
  · intro h
    have h := h key pk hkey hpk
    rw [hinner] at h
    exact ⟨fun heq => h.1 (congrArg some heq), fun heq => h.2 (congrArg some heq)⟩
  · intro h key' pk' hkey' hpk'
    cases hkey.symm.trans hkey'
    cases hpk.symm.trans hpk'
    rw [hinner]
    exact ⟨fun heq => h.1 (Option.some.inj heq), fun heq => h.2 (Option.some.inj heq)⟩

theorem coversIff_place (hname : Scheme.parse name = some scheme)
    (hspend : ecdsaSpend C pk i.script sighash scheme = .ok spend)
    (hp : i.prefill name = .ok p) (hsig : sig.length ≤ 72) {k : BtcTxSign C} {key : Signer C}
    (hkey : k.key = some key) (hpk : key.ecdsaPublicKey = some pk) :
    CoversIff (WorstCase i k scheme) sig p (spend.place sig i) := by
  have hsigPush : (pushBytes sig).length = 1 + sig.length := length_pushBytes_of_le (by omega)
  have hcomp : (pushBytes (generateScript C pk .comp)).length = 34 := by
    rw [length_pushBytes_of_le] <;> simp [length_generateScript]
  have huncomp : (pushBytes (generateScript C pk .uncomp)).length = 66 := by
    rw [length_pushBytes_of_le] <;> simp [length_generateScript]
  have hfull : (pushBytes (List.replicate 72 0)).length = 73 := by decide
  rw [BtcTxInput.prefill, hname] at hp
  cases scheme with
  | p2pk =>
    cases hp
    cases hspend
    exact coversIff_script (by rw [hsigPush, hfull]; omega) hsig (by rw [hfull]; decide)
  | p2pkh =>
    cases hp
    cases hspend
    rw [place_pubkeyHashSpend (Or.inl ⟨rfl, rfl⟩)]
    refine coversIff_script ?_ hsig (by decide)
    rw [List.length_append, hsigPush, hcomp, List.length_append, hfull]
    simp [length_pushBytes_of_le]
    omega
  | p2pukh =>
    cases hp
    cases hspend
    rw [place_pubkeyHashSpend (Or.inr ⟨rfl, rfl⟩)]
    refine coversIff_script ?_ hsig (by decide)
    rw [List.length_append, hsigPush, huncomp, List.length_append, hfull]
    simp [length_pushBytes_of_le]
    omega
  | p2wpkh =>
    cases hp
    cases hspend
    refine ⟨fun _ => covers_witness (by simp) (by simp) ?_, fun _ _ => trivial⟩
    have hone (n : Nat) (hn : n ≤ 72) : BtcVarInt.len n = 1 := BtcVarInt.len_of_le (by omega)
    simp [BtcTxInput.computeWitnessSize, length_generateScript, hone, hsig]
    omega
  | p2shP2wpkh => cases hp
  | p2wsh =>
    cases hp
    rw [ecdsaSpend] at hspend
    cases hinner : detectInner C i.script pk with
    | none => rw [hinner] at hspend; cases hspend
    | some inner =>
      rw [hinner] at hspend
      cases hspend
      rw [worstCase_p2wsh hkey hpk hinner]
      exact coversIff_detected inner (by simp) hsig
        (by simp [BtcTxInput.computeWitnessSize, BtcVarInt.len_of_le])
  | p2wshOf inner =>
    cases hspend
    cases inner <;> cases hp <;>
      exact coversIff_inner _ (by simp) hsig
        (by simp [BtcTxInput.computeWitnessSize, BtcVarInt.len_of_le])
  | p2tr => cases hspend

theorem length_p2trSignature {k : BtcTxSign C} {key : Signer C} {digest : ByteVec 32}
    {hashType : UInt8} (h : p2trSignature key k digest hashType = .ok sig) :
    sig.length = if hashType = 0 then 64 else 65 := by
  rw [p2trSignature] at h
  obtain ⟨s, -, h⟩ := bind_eq_ok.mp h
  cases h
  by_cases hzero : hashType = 0
  · simp [hzero]
  · simp [hzero]

/-- The placeholder of taproot is a key-path signature without a hash type. -/
theorem covers_p2trPlace {k : BtcTxSign C} {key : Signer C} {digest : ByteVec 32} {hashType : UInt8}
    (ht : p2trHashType k.sighash = .ok hashType)
    (hsig : p2trSignature key k digest hashType = .ok sig) (hp : i.prefill name = .ok p)
    (hname : Scheme.parse name = some .p2tr) :
    Covers p (p2trPlace k sig i) ↔ WorstCase i k .p2tr := by
  have hlen := length_p2trSignature hsig
  have hone (n : Nat) (hn : n ≤ 65) : BtcVarInt.len n = 1 := BtcVarInt.len_of_le (by omega)
  rw [WorstCase, ← p2trHashType_eq_zero ht]
  rw [BtcTxInput.prefill, hname] at hp
  cases hp
  cases hleaf : k.tapLeaf with
  | some leaf =>
    refine iff_of_false ?_ (by simp)
    rw [p2trPlace, hleaf]
    refine not_covers_witness (List.cons_ne_nil _ _) (List.cons_ne_nil _ _) ?_
    have h₁ := BtcVarInt.len_pos leaf.1.length
    have h₂ := BtcVarInt.len_pos leaf.2.length
    have hsmall : sig.length ≤ 65 ∧ 64 ≤ sig.length := by split_ifs at hlen <;> omega
    simp [BtcTxInput.computeWitnessSize, hone, hsmall]
    omega
  | none =>
    rw [p2trPlace, hleaf]
    by_cases hzero : hashType = 0
    · rw [if_pos hzero] at hlen
      refine iff_of_true (covers_witness (by simp) (by simp) ?_) ⟨hzero, rfl⟩
      simp [BtcTxInput.computeWitnessSize, hlen]
    · rw [if_neg hzero] at hlen
      refine iff_of_false (not_covers_witness (by simp) (by simp) ?_) fun h => hzero h.1
      simp [BtcTxInput.computeWitnessSize, hlen, hone]

end Spends

/-! ## Estimates of signed inputs -/

section Estimate

variable {C : Purecrypto} {keys keys₁ : List (BtcTxSign C)} {tx tx' : BtcTx} {n : Nat}
  {k : BtcTxSign C} {i p : BtcTxInput}

/-- A signer whose ECDSA signatures have at most 71 bytes. -/
def Signer.LowDer (key : Signer C) : Prop :=
  ∀ digest sig, key.signEcdsaDer digest = some sig → sig.bytes.length ≤ 71

/-- The same entries, but for what the signer of entry `n` answers: it has the same
public key, and its ECDSA signatures have at most 71 bytes. -/
def Resigned (n : Nat) (keys keys₁ : List (BtcTxSign C)) : Prop :=
  ∃ k key key₁, keys[n]? = some k ∧ k.key = some key ∧ key₁.ecdsaPublicKey = key.ecdsaPublicKey ∧
    key₁.LowDer ∧ keys₁ = keys.set n { k with key := some key₁ }

/-- A signature of 71 bytes whose `s` is low. -/
def fullDer : DerSignature :=
  derEncode (List.Vector.replicate 32 0x80) (List.Vector.replicate 32 0x01)

theorem length_fullDer : fullDer.bytes.length = 71 := by decide

/-- The signer with ECDSA signatures of full length. -/
def Signer.full (key : Signer C) : Signer C := { key with signEcdsaDer := fun _ => some fullDer }

theorem Signer.canReplace_full (key : Signer C) : key.full.CanReplace key := by
  refine ⟨rfl, fun ask k digest sig h => ?_⟩
  cases ask with
  | ecdsa sighash => exact ⟨_, rfl⟩
  | p2tr hashType => exact ⟨sig, h⟩

theorem Signer.lowDer_full (key : Signer C) : key.full.LowDer := by
  rintro digest sig ⟨⟩
  exact length_fullDer.le

/-- The signature an ECDSA entry places. -/
theorem length_ecdsaSignature {key : Signer C} {digest : ByteVec 32} {sighash : UInt32} {sig : Bytes}
    (h : ecdsaSignature key digest sighash = .ok sig) :
    ∃ der, key.signEcdsaDer digest = some der ∧ sig.length = der.bytes.length + 1 := by
  rw [ecdsaSignature] at h
  obtain ⟨der, hder, h⟩ := bind_eq_ok.mp h
  cases h
  exact ⟨der, okOr_eq_ok.mp hder, by rw [List.length_append]; rfl⟩

/-- What is signed is covered where the placeholders are the worst case, and a
signature of full length only there. -/
theorem signed_covers {i' : BtcTxInput} {src : TxSource} {scheme : Scheme} {key : Signer C}
    (hi' : signedInput keys src n k i = .ok i') (hkey : k.key = some key)
    (hscheme : Scheme.parse k.scheme = some scheme) (hp : i.prefill k.scheme = .ok p) :
    (key.LowDer → WorstCase i k scheme → Covers p i') ∧
      ((∀ digest sig, key.signEcdsaDer digest = some sig → sig.bytes.length = 71) →
        Covers p i' → WorstCase i k scheme) := by
  obtain ⟨key', pl, sig, hkey', hpl, hsig, rfl⟩ := signedInput_eq_ok.mp hi'
  cases hkey.symm.trans hkey'
  rcases plan_eq_ok.mp hpl with ⟨scheme', pk, spend, digest, hk, -, hpk, hspend, -, rfl⟩ |
    ⟨hashType, scriptPath, digest, hk, ht, -, -, rfl⟩
  · cases hscheme.symm.trans hk
    obtain ⟨der, hder, hlen⟩ := length_ecdsaSignature hsig
    have hcovers (h : der.bytes.length ≤ 71) := coversIff_place hscheme hspend hp
      (show sig.length ≤ 72 by omega) hkey hpk
    constructor
    · intro hlow
      exact (hcovers (hlow digest der hder)).1
    · intro hfull
      have h := hfull digest der hder
      exact (hcovers h.le).2 (by omega)
  · cases hscheme.symm.trans hk
    have h := covers_p2trPlace (k := k) ht hsig hp hk
    exact ⟨fun _ => h.mpr, fun _ => h.mp⟩

theorem worstCase_resigned {key key₁ : Signer C} (hkey : k.key = some key)
    (hpk : key₁.ecdsaPublicKey = key.ecdsaPublicKey) (scheme : Scheme) :
    WorstCase i { k with key := some key₁ } scheme ↔ WorstCase i k scheme := by
  cases scheme with
  | p2wsh =>
    constructor
    · intro h key' pk hkey' hpk'
      cases hkey.symm.trans hkey'
      exact h key₁ pk rfl (hpk.trans hpk')
    · rintro h key' pk ⟨⟩ hpk'
      exact h key pk hkey (hpk.symm.trans hpk')
  | _ => exact Iff.rfl

/-- The estimate of an input is not too low, whatever transaction it stands in and
whatever its signer answers, exactly when the placeholders are the worst case. -/
theorem prefill_covers_iff (hsign : BtcTx.sign C keys tx = (.ok (), tx'))
    (hk : keys[n]? = some k) (hi : tx.inputs[n]? = some i) (hp : i.prefill k.scheme = .ok p) :
    (∀ keys₁ tx₁ i₁, Resigned n keys keys₁ → BtcTx.sign C keys₁ tx = (.ok (), tx₁) →
        tx₁.inputs[n]? = some i₁ → Covers p i₁) ↔
      ∀ scheme, Scheme.parse k.scheme = some scheme → WorstCase i k scheme := by
  have hn : n < keys.length := (List.getElem?_eq_some_iff.mp hk).1
  have hset (answer : Option (Signer C)) :
      (keys.set n { k with key := answer })[n]? = some { k with key := answer } := by
    rw [List.getElem?_set_self hn]
  constructor
  · intro h scheme hscheme
    obtain ⟨i', -, hi'⟩ := signed_at hsign hk hi
    obtain ⟨key, -, -, hkey, -⟩ := signedInput_eq_ok.mp hi'
    obtain ⟨tx₁, hsign₁⟩ := sign_resigned hsign hk hkey key.canReplace_full
    obtain ⟨i₁, hi₁, hsigned⟩ := signed_at hsign₁ (hset _) hi
    have hcovers := h _ tx₁ i₁ ⟨k, key, key.full, hk, hkey, rfl, key.lowDer_full, rfl⟩ hsign₁ hi₁
    have hpk : key.full.ecdsaPublicKey = key.ecdsaPublicKey := rfl
    refine (worstCase_resigned hkey hpk scheme).mp ((signed_covers hsigned rfl hscheme hp).2 ?_ hcovers)
    rintro digest sig ⟨⟩
    exact length_fullDer
  · rintro h _ tx₁ i₁ ⟨k', key, key₁, hk', hkey, hpk, hlow, rfl⟩ hsign₁ hi₁
    cases hk.symm.trans hk'
    obtain ⟨i', hi', hsigned⟩ := signed_at hsign₁ (hset _) hi
    cases hi₁.symm.trans hi'
    obtain ⟨key', pl, sig, hkey', hpl, -, -⟩ := signedInput_eq_ok.mp hsigned
    obtain ⟨scheme, hscheme⟩ : ∃ scheme, Scheme.parse k.scheme = some scheme := by
      rcases plan_eq_ok.mp hpl with ⟨scheme, _, _, _, hs, -⟩ | ⟨_, _, _, hs, -⟩
      · exact ⟨scheme, hs⟩
      · exact ⟨.p2tr, hs⟩
    exact (signed_covers hsigned rfl hscheme hp).1 hlow
      ((worstCase_resigned hkey hpk scheme).mpr (h scheme hscheme))

/-- An entry of a taproot output, with the given hash type. -/
def taprootEntry (sighash : UInt32) : BtcTxSign Purecrypto.blank :=
  ⟨some (constantSigner (List.Vector.replicate 32 7, List.Vector.replicate 32 8)), "p2tr", 1000,
    sighash, 0x51 :: 0x20 :: List.replicate 32 0x09, none, none⟩

/-- A transaction with one input and one output. -/
def oneInputTx : BtcTx where
  version := 2
  inputs := [⟨List.Vector.replicate 32 1, 0, [], 0xfffffffd, []⟩]
  outputs := [⟨900, 0, [0x51]⟩]
  locktime := 0

theorem prefill_covers_iff_sample : ∃ tx' p,
    BtcTx.sign Purecrypto.blank [taprootEntry 0] oneInputTx = (.ok (), tx') ∧
      (oneInputTx.input 0).prefill "p2tr" = .ok p ∧ Covers p (tx'.input 0) := by
  have hsign : BtcTx.sign Purecrypto.blank [taprootEntry 0] oneInputTx = (.ok (),
      (BtcTx.sign Purecrypto.blank [taprootEntry 0] oneInputTx).2) :=
    Prod.ext (by decide) rfl
  have hp : (oneInputTx.input 0).prefill "p2tr" =
      .ok { oneInputTx.input 0 with script := [], witnesses := [List.replicate 64 0] } := by
    decide
  refine ⟨_, _, hsign, hp, ?_⟩
  refine (prefill_covers_iff hsign (n := 0) rfl rfl hp).mpr ?_ _ _ _
    ⟨taprootEntry 0, _, _, rfl, rfl, rfl, ?_, rfl⟩ hsign (by decide)
  · intro scheme hscheme
    cases hscheme.symm.trans (show Scheme.parse "p2tr" = some .p2tr by decide)
    exact ⟨rfl, rfl⟩
  · rintro digest sig ⟨⟩
    decide

/-- A taproot signature with a hash type is larger than its placeholder. -/
theorem prefill_below_hash_type : ∃ tx' p,
    BtcTx.sign Purecrypto.blank [taprootEntry 1] oneInputTx = (.ok (), tx') ∧
      (oneInputTx.input 0).prefill "p2tr" = .ok p ∧
      (oneInputTx.edit 0 fun _ => p).computeSize < tx'.computeSize := by
  refine ⟨(BtcTx.sign Purecrypto.blank [taprootEntry 1] oneInputTx).2,
    { oneInputTx.input 0 with script := [], witnesses := [List.replicate 64 0] },
    Prod.ext (by decide) rfl, by decide, by decide⟩

end Estimate

end Outscript
