import Outscript.Library.Failures
import Outscript.Psbt.Sign

/-!
# Errors of a buffer

Only writing finds a buffer too small: parsing, resolving what an input spends
and computing digests fail in other ways.
-/
namespace Outscript.Psbt

open ByteString Cursor Cursor.Failing Fallible

/-- An error that is not one of a buffer. -/
def Roomy (e : Error) : Prop := e ≠ .bufferTooSmall

instance : DecidablePred Roomy := fun _ => inferInstanceAs (Decidable (_ ≠ _))

/-! ## Readers -/

abbrev NoRoom {α : Type} (p : Reader α) : Prop := Cursor.Failing.Fails Roomy p

namespace Reader

theorem noRoom_take (n : Nat) : NoRoom (take n) := fails_take (by decide) n

theorem noRoom_u8 : NoRoom u8 := fails_item (by decide)

theorem noRoom_u32 : NoRoom u32 := (noRoom_take 4).bind fun _ => fails_pure _

theorem noRoom_u64 : NoRoom u64 := (noRoom_take 8).bind fun _ => fails_pure _

theorem noRoom_varint : NoRoom varint := by
  intro c e h
  simp only [varint, StateT.run] at h
  split at h
  · cases h
    decide
  · split_ifs at h
    cases h
    decide

theorem noRoom_varBytes : NoRoom varBytes := noRoom_varint.bind noRoom_take

end Reader

namespace TxLayout

theorem noRoom_readHead (allowWitness : Bool) : NoRoom (readHead allowWitness) := by
  refine fails_pos.bind fun _ => Reader.noRoom_varint.bind fun _ => Fails.ite ?_ (fails_pure _)
  refine Reader.noRoom_u8.bind fun _ => Fails.ite (fails_pure _) (Fails.ite ?_ ?_)
  · exact fails_pos.bind fun _ => Reader.noRoom_varint.bind fun _ => fails_pure _
  · exact fails_throw (by decide)

theorem noRoom_readInputs (n : Nat) (unsigned : Bool) : NoRoom (readInputs n unsigned) := by
  induction n generalizing unsigned with
  | zero => exact fails_pure _
  | succ n ih =>
    exact (Reader.noRoom_take 36).bind fun _ => Reader.noRoom_varBytes.bind fun _ =>
      Reader.noRoom_u32.bind fun _ => ih _

theorem noRoom_readOutputs (n : Nat) : NoRoom (readOutputs n) := by
  induction n with
  | zero => exact fails_pure _
  | succ n ih =>
    exact Reader.noRoom_u64.bind fun _ => Reader.noRoom_varBytes.bind fun _ => ih

theorem noRoom_readOutputCount (count : Option Nat) : NoRoom (readOutputCount count) := by
  cases count with
  | some n => exact fails_pure n
  | none =>
    exact Reader.noRoom_varint.bind fun n => (noRoom_readOutputs n).bind fun _ => fails_pure n

theorem noRoom_readItems (n : Nat) (any : Bool) : NoRoom (readItems n any) := by
  induction n generalizing any with
  | zero => exact fails_pure _
  | succ n ih => exact Reader.noRoom_varBytes.bind fun _ => ih _

theorem noRoom_readWitnesses (n : Nat) (any : Bool) : NoRoom (readWitnesses n any) := by
  induction n generalizing any with
  | zero => exact fails_pure _
  | succ n ih =>
    exact Reader.noRoom_varint.bind fun items => (noRoom_readItems items any).bind fun _ => ih _

theorem noRoom_readWitnessSection (segwit : Bool) (n : Nat) :
    NoRoom (readWitnessSection segwit n) :=
  Fails.ite ((noRoom_readWitnesses n false).bind fun _ => fails_require (by decide))
    (fails_pure _)

theorem noRoom_readBody (head : Head) : NoRoom (readBody head) :=
  (noRoom_readInputs _ _).bind fun _ => fails_pos.bind fun _ =>
    (noRoom_readOutputCount _).bind fun _ => fails_pos.bind fun _ =>
      (noRoom_readWitnessSection _ _).bind fun _ => Reader.noRoom_u32.bind fun _ =>
        fails_remaining.bind fun _ =>
          (fails_require (by decide)).bind fun _ => fails_pure _

theorem noRoom_read (allowWitness : Bool) : NoRoom (read allowWitness) :=
  Reader.noRoom_u32.bind fun _ => (noRoom_readHead allowWitness).bind noRoom_readBody

end TxLayout

/-! ## Calls -/

abbrev Safe {α : Type} (x : Except Error α) : Prop := Fallible.Fails Roomy x

theorem safe_error {α : Type} {e : Error} (h : Roomy e) :
    Safe (.error e : Except Error α) :=
  fails_error h

/-- How a parser fails that is run on its own. -/
theorem NoRoom.safe_error {α β : Type} {p : Reader α} (h : NoRoom p) {c : State UInt8} {e : Error}
    (hp : p.run c = .error e) : Safe (.error e : Except Error β) :=
  fails_error (h c e hp)

theorem safe_txLayout (bytes : Bytes) (allowWitness : Bool) :
    Safe (TxLayout.parse bytes allowWitness) := by
  rw [TxLayout.parse]
  split
  · exact fails_ok _
  · exact (TxLayout.noRoom_read allowWitness).safe_error ‹_›

section Validate

variable (C : Purecrypto)

end Validate

namespace Map

theorem noRoom_scan (fuel : Nat) : NoRoom (scan fuel) := by
  induction fuel with
  | zero => exact fails_throw (by decide)
  | succ fuel ih =>
    refine fails_pos.bind fun _ => Reader.noRoom_varBytes.bind fun _ =>
      Fails.ite (fails_pure _) ?_
    exact (fails_lift (Reader.noRoom_varint _)).bind fun _ =>
      Reader.noRoom_varBytes.bind fun _ => ih

theorem noRoom_read : NoRoom read := by
  intro c e h
  simp only [read, StateT.run] at h
  split at h
  · cases h
  · rename_i e' hscan
    exact Except.error.inj h ▸ noRoom_scan _ c e' hscan

end Map

section Parse

variable (C : Purecrypto)

end Parse

/-! ## What an input spends, and its digests -/

section Digests

variable (C : Purecrypto) (p : View)

theorem safe_utxo (i : Nat) : Safe (p.utxo C.toHashes i) := by
  refine (fails_okOr (by decide)).bind fun inp => (fails_okOr (by decide)).bind fun outpoint => ?_
  cases PsbtInput.nonWitnessUtxo inp with
  | none => exact fails_okOr (by decide)
  | some prev =>
    refine (safe_txLayout prev true).bind fun layout => Fallible.Fails.ite ?_ ?_
    · exact safe_error (by decide)
    · exact fails_okOr (by decide)

theorem safe_resolve (i : Nat) : Safe (resolve C p i) := by
  refine (fails_okOr (by decide)).bind fun inp => (fails_okOr (by decide)).bind fun outpoint =>
    (safe_utxo C p i).bind fun utxo => ?_
  have hopen : Safe (openP2sh C inp utxo.script) := by
    rw [openP2sh]
    split
    · exact (fails_okOr (by decide)).bind fun rs =>
        Fallible.Fails.ite (safe_error (by decide)) (fails_ok _)
    · exact fails_ok _
  have hkind (script : Bytes) (redeem : Option Bytes) : Safe (kindOf C inp script redeem) := by
    unfold kindOf
    split
    · exact fails_ok _
    · split
      · exact (fails_okOr (by decide)).bind fun ws =>
          Fallible.Fails.ite (safe_error (by decide)) (fails_ok _)
      · split
        · exact fails_ok _
        · refine Fallible.Fails.ite (safe_error (by decide)) (Fallible.Fails.ite ?_ (fails_ok _))
          exact safe_error (by decide)
  exact hopen.bind fun sr => (hkind sr.1 sr.2).bind fun kind => fails_ok _

theorem safe_taprootMidstate : Safe (taprootMidstate C p) := by
  rw [taprootMidstate]
  split
  · exact safe_error (by decide)
  · exact Fails.mapError fun _ => by decide

/-- What an input spends, or what all inputs spend, is not known. -/
def Blocked (index : Nat) : Prop :=
  (∃ e, resolve C p index = .error e) ∨ ∃ e, taprootMidstate C p = .error e

/-- An error of signing an input: not one of a buffer, and one that skips the
input only if it is blocked. -/
def Failure (index : Nat) (e : Error) : Prop :=
  Roomy e ∧ (skippable e = true → Blocked C p index)

/-- An error that no input is skipped for. -/
def Plain (e : Error) : Prop := Roomy e ∧ skippable e = false

instance : DecidablePred Plain := fun _ => inferInstanceAs (Decidable (_ ∧ _))

variable {p} in
theorem Plain.failure {index : Nat} {e : Error} (h : Plain e) : Failure C p index e :=
  ⟨h.1, fun hskip => absurd (h.2.symm.trans hskip) Bool.false_ne_true⟩

theorem plain_singleOutput (H : Hashes) (tx : TxSource) (single : Bool) (index : Nat) :
    Fallible.Fails Plain (singleOutput H tx single index) := by
  refine Fallible.Fails.ite ?_ (fails_ok _)
  split
  · exact fails_ok _
  · exact fails_error (by decide)

theorem plain_check_index (mid : TaprootMidstate) (index : Nat) :
    Fallible.Fails Plain (mid.check index) :=
  Fallible.Fails.ite (fails_error (by decide)) (fails_ok _)

theorem plain_checkAnnex (annex : Option Bytes) : Fallible.Fails Plain (checkAnnex annex) := by
  cases annex with
  | none => exact fails_ok _
  | some annex => exact Fallible.Fails.ite (fails_error (by decide)) (fails_ok _)

theorem plain_taprootHashType (t : Option Nat) : Fallible.Fails Plain (taprootHashType t) := by
  cases t with
  | none => exact fails_ok _
  | some t => exact Fallible.Fails.ite (fails_ok _) (fails_error (by decide))

theorem plain_ecdsaHashType (t : Option Nat) : Fallible.Fails Plain (ecdsaHashType t) :=
  Fallible.Fails.ite (fails_ok _)
    (Fallible.Fails.ite (fails_ok _) (fails_error (by decide)))

variable (index : Nat) (res : Resolved) (hashType : UInt8)

theorem plain_unifiedSighash (H : Hashes) (tx : TxSource) (mid : TaprootMidstate)
    (prevout : PrevOut) (spend : UnifiedSpend) :
    Fallible.Fails Plain (unifiedSighashOf H tx mid index prevout hashType spend) :=
  Fallible.Fails.ite (fails_error (by decide)) <| (plain_check_index mid index).bind fun _ =>
    (plain_checkAnnex _).bind fun _ => (plain_singleOutput H tx _ index).bind fun _ => fails_ok _

theorem fails_resolve : Fallible.Fails (Failure C p index) (resolve C p index) :=
  fun e he => ⟨safe_resolve C p index e he, fun _ => Or.inl ⟨e, he⟩⟩

theorem fails_taprootMidstate : Fallible.Fails (Failure C p index) (taprootMidstate C p) :=
  fun e he => ⟨safe_taprootMidstate C p e he, fun _ => Or.inr ⟨e, he⟩⟩

theorem fails_taprootDigest (scriptPath : Option TapScriptPath) :
    Fallible.Fails (Failure C p index) (taprootDigest C p index res hashType scriptPath) :=
  (fails_taprootMidstate C p index).bind fun mid => Fails.mono (Fallible.Fails.ite
    (plain_unifiedSighash index hashType _ _ mid _ _)
    (Fallible.Fails.ite (fails_error (by decide)) <| (plain_check_index mid index).bind fun _ =>
      (plain_checkAnnex _).bind fun _ => (plain_singleOutput _ _ _ index).bind fun _ => fails_ok _))
    fun _ => Plain.failure C

theorem fails_ecdsaDigest (scriptCode : Bytes) (segwit : Bool) :
    Fallible.Fails (Failure C p index)
      (ecdsaDigest C p index res hashType scriptCode segwit) := by
  refine Fallible.Fails.ite ?_ (Fallible.Fails.ite (fails_ok _) ?_)
  · exact (fails_taprootMidstate C p index).bind fun mid =>
      (plain_unifiedSighash index hashType _ _ mid _ _).mono fun _ => Plain.failure C
  · exact Fails.mapError fun _ => Plain.failure C (by decide)

end Digests

end Outscript.Psbt
