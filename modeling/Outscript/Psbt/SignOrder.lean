import Outscript.Psbt.Combine
import Outscript.Psbt.SignKeys

/-!
# Signers in any order

A signer reads nothing that another one writes, so what it adds to a PSBT does not
depend on who signed before. Signers with different keys can sign in any order, or
each a copy that is combined with the others.
-/
namespace Outscript.Psbt

open ByteString Cursor Fallible StableSort StateLoop Secp256k1

/-! ## What a signer reads -/

/-- A PSBT that differs from another one in signatures only, and has the same leaves to sign for
one key. -/
structure Resembles (xOnly : ByteVec 32) (p q : View) : Prop where
  tx : q.tx = p.tx
  length : q.inputs.length = p.inputs.length
  alike : ∀ i m m', p.input i = some m → q.input i = some m' → m.AlikeUnsigned m'
  signed : ∀ i m m', p.input i = some m → q.input i = some m' → ∀ h,
    (PsbtInput.tapScriptSig m' xOnly h).isSome = (PsbtInput.tapScriptSig m xOnly h).isSome

section Reads

variable {C : Purecrypto} {σ : Type} {xOnly : ByteVec 32} {p q : View} {i : Nat} {inp inp' : Map}
  {signer : PsbtSigner C σ}

theorem Resembles.input_cases (h : Resembles xOnly p q) (i : Nat) :
    (p.input i = none ∧ q.input i = none) ∨
      ∃ m m', p.input i = some m ∧ q.input i = some m' := by
  by_cases hi : i < p.inputs.length
  · exact .inr ⟨_, _, List.getElem?_eq_getElem hi, List.getElem?_eq_getElem (h.length ▸ hi)⟩
  · refine .inl ⟨List.getElem?_eq_none (Nat.le_of_not_lt hi), List.getElem?_eq_none ?_⟩
    rw [h.length]
    exact Nat.le_of_not_lt hi

theorem Resembles.utxo (h : Resembles xOnly p q) (H : Hashes) (i : Nat) : q.utxo H i = p.utxo H i := by
  rcases h.input_cases i with ⟨hp, hq⟩ | ⟨m, m', hp, hq⟩
  · rw [View.utxo, View.utxo, hp, hq]
    rfl
  · exact utxo_congr H h.tx hp hq (h.alike i m m' hp hq)

theorem Resembles.midstate (h : Resembles xOnly p q) : taprootMidstate C q = taprootMidstate C p := by
  have hutxo : q.utxo C.toHashes = p.utxo C.toHashes := funext fun i => h.utxo C.toHashes i
  rw [taprootMidstate, taprootMidstate, h.tx, hutxo]

theorem Resembles.taprootDigest (h : Resembles xOnly p q) :
    taprootDigest C q = taprootDigest C p := by
  funext index res hashType path
  rw [Psbt.taprootDigest, Psbt.taprootDigest, h.midstate, h.tx]

theorem Resembles.ecdsaDigest (h : Resembles xOnly p q) : ecdsaDigest C q = ecdsaDigest C p := by
  funext index res hashType scriptCode segwit
  rw [Psbt.ecdsaDigest, Psbt.ecdsaDigest, h.midstate, h.tx]

theorem Resembles.signLeaves (h : Resembles xOnly p q) (hp : p.input i = some inp)
    (hq : q.input i = some inp') (res : Resolved) (hashType : UInt8) (outputKey : ByteVec 32)
    (leaves : List TapLeafScript) (acc : SignedSet × Bool) :
    signLeaves q i inp' res hashType signer xOnly outputKey leaves acc =
      signLeaves p i inp res hashType signer xOnly outputKey leaves acc := by
  have hleaf (leaf : TapLeafScript) :
      leafToSign C inp' xOnly outputKey leaf = leafToSign C inp xOnly outputKey leaf := by
    rw [leafToSign, leafToSign]
    cases involvedLeaf C xOnly outputKey leaf with
    | none => rfl
    | some leafHash =>
      dsimp only
      rw [h.signed i inp inp' hp hq]
  induction leaves generalizing acc with
  | nil => rfl
  | cons leaf leaves ih => simp only [Psbt.signLeaves, hleaf, h.taprootDigest, ih]

theorem isInternalKey_congr {m m' : Map} (h : m.AlikeUnsigned m') (xOnly outputKey : ByteVec 32) :
    isInternalKey C m' xOnly outputKey = isInternalKey C m xOnly outputKey := by
  have hroot : PsbtInput.tapMerkleRoot m' = PsbtInput.tapMerkleRoot m := by
    rw [PsbtInput.tapMerkleRoot, PsbtInput.tapMerkleRoot, h.getType (by decide)]
  have hinternal : PsbtInput.tapInternalKey m' = PsbtInput.tapInternalKey m := by
    rw [PsbtInput.tapInternalKey, PsbtInput.tapInternalKey, h.getType (by decide)]
  rw [isInternalKey, isInternalKey, hroot, hinternal]

theorem Resembles.signKeyPath (h : Resembles xOnly p q) (hp : p.input i = some inp)
    (hq : q.input i = some inp') (res : Resolved) (hashType : UInt8) (outputKey : ByteVec 32) :
    signKeyPath q i inp' res hashType signer xOnly outputKey =
      signKeyPath p i inp res hashType signer xOnly outputKey := by
  have halike := h.alike i inp inp' hp hq
  have hroot : PsbtInput.tapMerkleRoot inp' = PsbtInput.tapMerkleRoot inp := by
    rw [PsbtInput.tapMerkleRoot, PsbtInput.tapMerkleRoot, halike.getType (by decide)]
  rw [Psbt.signKeyPath, Psbt.signKeyPath, isInternalKey_congr halike, hroot, h.taprootDigest]

theorem Resembles.signInput (h : Resembles xOnly p q)
    (hkey : ∀ s, xOnlyOf (C.toSec1Compressed (signer.publicKey s)) = xOnly) (i : Nat) :
    signInput q i signer = signInput p i signer := by
  have hsame : signInputEcdsaOrTaproot q i signer = signInputEcdsaOrTaproot p i signer := by
    rcases h.input_cases i with ⟨hp, hq⟩ | ⟨inp, inp', hp, hq⟩
    · rw [signInputEcdsaOrTaproot, signInputEcdsaOrTaproot, hp, hq]
      rfl
    have halike := h.alike i inp inp' hp hq
    have hfinal : PsbtInput.isFinalized inp' = PsbtInput.isFinalized inp := by
      rw [PsbtInput.isFinalized, PsbtInput.isFinalized, PsbtInput.finalScriptSig,
        PsbtInput.finalScriptSig, PsbtInput.finalScriptWitness, PsbtInput.finalScriptWitness,
        halike.getType (by decide), halike.getType (by decide)]
    have hresolve : resolve C q i = resolve C p i := resolve_congr h.tx hp hq halike
    have htype : PsbtInput.sighashType inp' = PsbtInput.sighashType inp := by
      rw [PsbtInput.sighashType, PsbtInput.sighashType, halike.getType (by decide)]
    have hleaves : PsbtInput.tapLeafScripts inp' = PsbtInput.tapLeafScripts inp := by
      rw [PsbtInput.tapLeafScripts, halike _ (by decide), PsbtInput.tapLeafScripts]
    have hecdsa (res : Resolved) (scriptCode : Bytes) (segwit : Bool) (key : Bytes) :
        signEcdsa q i inp' res signer scriptCode segwit key =
          signEcdsa p i inp res signer scriptCode segwit key := by
      rw [signEcdsa, signEcdsa, htype, h.ecdsaDigest]
    have htaproot (res : Resolved) (s : σ) (outputKey : ByteVec 32) :
        signTaproot q i inp' res signer (C.toSec1Compressed (signer.publicKey s)) outputKey =
          signTaproot p i inp res signer (C.toSec1Compressed (signer.publicKey s)) outputKey := by
      rw [signTaproot, signTaproot, htype, hleaves, hkey]
      simp only [h.signKeyPath hp hq, h.signLeaves hp hq]
    rw [signInputEcdsaOrTaproot, signInputEcdsaOrTaproot, hp, hq, okOr_some, okOr_some, orTrap_ok,
      orTrap_ok, Call.lift_ok, Call.pure_bind', Call.lift_ok, Call.pure_bind', hfinal, hresolve]
    by_cases hdone : PsbtInput.isFinalized inp = true
    · rw [if_pos hdone, if_pos hdone]
    rw [if_neg hdone, if_neg hdone]
    cases resolve C p i with
    | error e => rfl
    | ok res =>
      rw [orTrap_ok, Call.lift_ok, Call.pure_bind', Call.pure_bind']
      funext s
      have hbind {α : Type} (f : SecpPublicKey C → Call σ Trap α) :
          (Call.act (fun s => (signer.publicKey s, s)) >>= f) s = f (signer.publicKey s) s := rfl
      rw [hbind, hbind]
      refine congrFun ?_ s
      simp only [htaproot, hecdsa]
      rfl
  rw [Psbt.signInput, Psbt.signInput, hsame]

end Reads

/-! ## What a signer writes -/

section Writes

variable {C : Purecrypto}

/-- The signatures of an input by a signer without a state. -/
def signatures (p : View) (signer : PsbtSigner C Unit) (i : Nat) : Except Trap SignedSet :=
  (signInput p i signer ()).1

/-- The records that a signer adds to a map. -/
def additions (p : View) (signer : PsbtSigner C Unit) : MapLoc → List Record
  | .input i =>
    match signatures p signer i with
    | .ok set => signedRecords set.items
    | .error _ => []
  | _ => []

/-- An input that a signer signs or skips. -/
def Passable (p : View) (signer : PsbtSigner C Unit) (i : Nat) : Prop :=
  match signatures p signer i with
  | .ok _ => True
  | .error (.error e) => skippable e = true
  | .error .panic => False

def Passes (p : View) (signer : PsbtSigner C Unit) : Prop :=
  ∀ i < p.inputs.length, Passable p signer i

/-- The document with what a signer adds to its maps. -/
def Doc.signedBy (doc : Doc) (tx : UnsignedTx) (signer : PsbtSigner C Unit) : Doc :=
  doc.edit fun loc recs => sort Record.keyType (Psbt.put recs (additions (doc.view tx) signer loc))

variable {doc : Doc} {tx : UnsignedTx} {signer : PsbtSigner C Unit} {loc : MapLoc}
  {recs : List Record} {i : Nat}

theorem writeMap_copy (hf : ∀ r ∈ recs, Framed r) :
    writeMap (Map.ofRecords recs) .none = encodeMap (sort Record.keyType (put recs [])) := by
  rw [writeMap_eq typed_none, pool_none hf, put_nil]

/-- A map is written with what is added to it, where its input can be passed. -/
theorem run_signMap {p : View} (hf : ∀ r ∈ recs, Framed r)
    (hpass : ∀ i, loc = .input i → Passable p signer i) (s : Unit × Nat) :
    ∃ n, (signMap p signer loc (Map.ofRecords recs)).run s =
      .ok (encodeMap (sort Record.keyType (put recs (additions p signer loc))), ((), n)) := by
  obtain ⟨⟨⟩, count⟩ := s
  cases loc with
  | global => exact ⟨count, congrArg (fun b => Except.ok (b, ((), count))) (writeMap_copy hf)⟩
  | output i => exact ⟨count, congrArg (fun b => Except.ok (b, ((), count))) (writeMap_copy hf)⟩
  | input i =>
    have hpass := hpass i rfl
    rw [Passable] at hpass
    unfold signMap StateT.run
    rw [additions]
    rcases hres : signInput p i signer () with ⟨(e | _) | set, ⟨⟩⟩
    all_goals
      have hsigs : signatures p signer i = _ := congrArg Prod.fst hres
      rw [hsigs] at hpass ⊢
      simp only [hres]
    · rw [if_pos hpass]
      exact ⟨count, congrArg (fun b => Except.ok (b, ((), count))) (writeMap_copy hf)⟩
    · exact hpass.elim
    · by_cases hpos : 0 < set.items.length
      · rw [if_pos hpos, writeMap_eq (typed_add_signed set), pool_add hf, signedRecords_eq]
        exact ⟨count + 1, rfl⟩
      · have hnil : set.items = [] := List.length_eq_zero_iff.mp (Nat.eq_zero_of_not_pos hpos)
        rw [if_neg hpos, hnil]
        exact ⟨count, congrArg (fun b => Except.ok (b, ((), count))) (writeMap_copy hf)⟩

theorem signMap_eq_ok_iff {p : View} (hf : ∀ r ∈ recs, Framed r) {s s' : Unit × Nat} {b : Bytes}
    (h : (signMap p signer loc (Map.ofRecords recs)).run s = .ok (b, s')) :
    (∀ i, loc = .input i → Passable p signer i) ∧
      b = encodeMap (sort Record.keyType (put recs (additions p signer loc))) := by
  have hpass : ∀ i, loc = .input i → Passable p signer i := by
    rintro i rfl
    obtain ⟨⟨⟩, count⟩ := s
    unfold signMap StateT.run at h
    rw [Passable]
    rcases hres : signInput p i signer () with ⟨(e | _) | set, ⟨⟩⟩
    all_goals
      have hsigs : signatures p signer i = _ := congrArg Prod.fst hres
      rw [hsigs]
      simp only [hres] at h
    · by_contra hskip
      rw [if_neg hskip] at h
      cases h
    · cases h
    · trivial
  refine ⟨hpass, ?_⟩
  obtain ⟨n, hrun⟩ := run_signMap hf hpass s
  rw [hrun] at h
  cases h
  rfl

theorem passable_input (h : doc.Valid C tx) (hpass : Passes (doc.view tx) signer)
    (hrecs : doc.recordsAt loc = some recs) : ∀ i, loc = .input i → Passable (doc.view tx) signer i := by
  rintro i rfl
  refine hpass i ?_
  rw [h.inputs_view, List.length_map]
  exact (List.getElem?_eq_some_iff.mp hrecs).1

/-- What is written is the document with what the signer adds, and all inputs were passed. -/
theorem eq_of_write (h : doc.Valid C tx) {out : Bytes} {s s' : Unit × Nat}
    (hrun : ((doc.view tx).write (signMap (doc.view tx) signer)).run s = .ok (out, s')) :
    Passes (doc.view tx) signer ∧ out = (doc.signedBy tx signer).encode := by
  obtain ⟨g, rfl, hg⟩ := h.exists_edit_of_write (μ := fun _ => 0)
    (P := fun loc recs recs' => (∀ i, loc = .input i → Passable (doc.view tx) signer i) ∧
      recs' = sort Record.keyType (put recs (additions (doc.view tx) signer loc)))
    (fun _ _ _ _ _ _ _ => le_rfl)
    (fun loc recs t b t' hrecs hsign _ => by
      obtain ⟨hpass, rfl⟩ := signMap_eq_ok_iff (h.recordsAt hrecs).framed hsign
      exact ⟨_, rfl, hpass, rfl⟩) hrun
  constructor
  · intro i hi
    rw [h.inputs_view, List.length_map] at hi
    exact (hg (.input i) _ (List.getElem?_eq_getElem hi)).1 i rfl
  · refine congrArg Doc.encode (Doc.ext_recordsAt fun loc => ?_)
    rw [Doc.signedBy, Doc.recordsAt_edit, Doc.recordsAt_edit]
    cases hrecs : doc.recordsAt loc with
    | none => rfl
    | some recs => exact congrArg some (hg loc recs hrecs).2

/-- A signer that passes all inputs writes the document with what it adds. -/
theorem exists_write (h : doc.Valid C tx) (hpass : Passes (doc.view tx) signer) :
    ∃ n, ((doc.view tx).write (signMap (doc.view tx) signer)).run ((), 0) =
      .ok ((doc.signedBy tx signer).encode, ((), n)) := by
  have hstep {loc : MapLoc} {recs : List Record} (hrecs : doc.recordsAt loc = some recs)
      (s : Unit × Nat) : ∃ n, (signMap (doc.view tx) signer loc (Map.ofRecords recs)).run s =
        .ok (encodeMap (sort Record.keyType (put recs (additions (doc.view tx) signer loc))),
          ((), n)) :=
    run_signMap (h.recordsAt hrecs).framed (passable_input h hpass hrecs) s
  cases hrun : ((doc.view tx).write (signMap (doc.view tx) signer)).run ((), 0) with
  | error e =>
    rw [View.write, StateT.run_bind] at hrun
    rcases bind_eq_error.mp hrun with hglobal | ⟨gs, -, hrun⟩
    · obtain ⟨n, hok⟩ := hstep (show doc.recordsAt .global = some doc.globals from rfl) ((), 0)
      cases hglobal.symm.trans hok
    · rw [StateT.run_bind] at hrun
      rcases bind_eq_error.mp hrun with hmaps | ⟨_, -, hrun⟩
      · obtain ⟨lm, hlm, s, hfail⟩ := exists_of_run_mapM_eq_error hmaps
        rw [h.located_view] at hlm
        obtain ⟨lr, hlr, rfl⟩ := List.mem_map.mp hlm
        obtain ⟨n, hok⟩ := hstep (Doc.recordsAt_of_mem_located hlr) s
        cases hfail.symm.trans hok
      · cases hrun
  | ok r =>
    obtain ⟨out, ⟨⟩, n⟩ := r
    obtain ⟨-, rfl⟩ := eq_of_write h hrun
    exact ⟨n, rfl⟩

/-- What a signer adds to an input has its keys. -/
inductive AddedKey (C : Purecrypto) (key : SecpPublicKey C) : Bytes → Prop
  | tapKeySig : AddedKey C key [0x13]
  | tapScriptSig (leafHash : ByteVec 32) :
      AddedKey C key (0x14 :: ((xOnlyOf (C.toSec1Compressed key)).toList ++ leafHash.toList))
  | partialSig {pubkey : Bytes}
      (h : pubkey = (C.toSec1Compressed key).toList ∨ pubkey = (C.toSec1Uncompressed key).toList) :
      AddedKey C key (0x02 :: pubkey)

theorem AddedKey.eq {key : SecpPublicKey C} {k : Bytes} (h : AddedKey C key k) :
    k = [0x13] ∨ (∃ leafHash : ByteVec 32,
      k = 0x14 :: ((xOnlyOf (C.toSec1Compressed key)).toList ++ leafHash.toList)) ∨
    ∃ pubkey, (pubkey = (C.toSec1Compressed key).toList ∨
      pubkey = (C.toSec1Uncompressed key).toList) ∧ k = 0x02 :: pubkey := by
  cases h with
  | tapKeySig => exact .inl rfl
  | tapScriptSig leafHash => exact .inr (.inl ⟨leafHash, rfl⟩)
  | partialSig h => exact .inr (.inr ⟨_, h, rfl⟩)

theorem xOnly_of_leafKey {xOnly xOnly' leafHash leafHash' : ByteVec 32}
    (h : (0x14 : UInt8) :: (xOnly.toList ++ leafHash.toList) =
      0x14 :: (xOnly'.toList ++ leafHash'.toList)) : xOnly = xOnly' := by
  have htail := (List.cons_eq_cons.mp h).2
  have hlen : xOnly.toList.length = xOnly'.toList.length :=
    xOnly.toList_length.trans xOnly'.toList_length.symm
  exact List.Vector.toList_injective (List.append_inj_left htail hlen)

theorem exists_run {p : View} {r : Record} (hr : r ∈ additions p signer loc) :
    ∃ i set, loc = .input i ∧ InputRun signer p i (signer.publicKey ()) set.items ∧
      additions p signer loc = signedRecords (SignedSet.items set) := by
  cases loc with
  | global => cases hr
  | output i => cases hr
  | input i =>
    rw [additions] at hr ⊢
    cases hset : signatures p signer i with
    | error e =>
      rw [hset] at hr
      cases hr
    | ok set =>
      obtain ⟨⟨⟩, hrun⟩ := (signInput_ends ()).2 set hset
      exact ⟨i, set, rfl, hrun, rfl⟩

theorem addedKey {p : View} {r : Record} (hr : r ∈ additions p signer loc) :
    AddedKey C (signer.publicKey ()) r.key := by
  obtain ⟨i, set, rfl, hrun, hadd⟩ := exists_run hr
  rw [hadd] at hr
  obtain ⟨signed, hsigned, rfl⟩ := List.mem_map.mp hr
  rw [key_record]
  cases hrun with
  | finalized input done none =>
    rw [none] at hsigned
    cases hsigned
  | ecdsa input resolved kind sigs =>
    rcases sigs with hnil | ⟨signed', pubkey, hone, hsig, hpubkey⟩
    · rw [hnil] at hsigned
      cases hsigned
    · rw [hone, List.mem_singleton] at hsigned
      rw [hsigned, hsig.1]
      exact .partialSig hpubkey
  | taproot input open' resolved kind run =>
    rw [run.items_eq] at hsigned
    rcases List.mem_append.mp hsigned with hmem | hmem
    · rw [(run.keySigs signed hmem).1]
      exact .tapKeySig
    · obtain ⟨leafHash, -, hsig⟩ := forall₂_mem_left run.leafSigs hmem
      rw [hsig.1]
      exact .tapScriptSig leafHash

theorem AddedKey.keyType {key : SecpPublicKey C} {r : Record} (h : AddedKey C key r.key) :
    r.keyType ∈ Input.signatures := by
  generalize hk : r.key = k at h
  have htype {t : Nat} {data : Bytes} (ht : t < 2 ^ 64) (hmem : t ∈ Input.signatures)
      (hkey : k = putVarint t ++ data) : r.keyType ∈ Input.signatures := by
    rw [keyType_of_key ht (hk.trans hkey)]
    exact hmem
  cases h with
  | tapKeySig =>
    exact htype (by decide) (by decide) (show ([0x13] : Bytes) = putVarint 0x13 ++ [] from rfl)
  | tapScriptSig leafHash => exact htype (t := 0x14) (by decide) (by decide) rfl
  | partialSig h => exact htype (t := 0x02) (by decide) (by decide) rfl

theorem sized_additions {p : View} {r : Record} (hr : r ∈ additions p signer loc) : Sized r := by
  have htype := (addedKey hr).keyType
  obtain ⟨i, set, rfl, -, hadd⟩ := exists_run hr
  rw [hadd] at hr
  exact sized_signed hr htype

end Writes

/-! ## Signing into a buffer that suffices -/

section Sign

variable {C : Purecrypto} {doc : Doc} {tx : UnsignedTx} {signer : PsbtSigner C Unit}

/-- Signs into a new vector. -/
def signToVec (p : View) (signer : PsbtSigner C Unit) : Except Trap (Bytes × Nat) := do
  let (out, count, _) ← signToSlice p signer p.signLenBound ()
  return (out, count)

/-- The PSBT as it is signed. -/
def sign (p : View) (signer : PsbtSigner C Unit) : Except Trap View := do
  let (out, _) ← signToVec p signer
  orTrap (parse C out)

/-- Signing succeeds where all inputs are passed and what is written is valid. -/
theorem sign_eq_ok (h : doc.Valid C tx) {q : View} :
    sign (doc.view tx) signer = .ok q ↔ Passes (doc.view tx) signer ∧
      (doc.signedBy tx signer).Valid C tx ∧ q = (doc.signedBy tx signer).view tx := by
  constructor
  · intro hsign
    obtain ⟨⟨out, count⟩, hvec, hread⟩ := bind_eq_ok.mp hsign
    obtain ⟨⟨out', count', s'⟩, hslice, hmade⟩ := bind_eq_ok.mp hvec
    cases hmade
    obtain ⟨⟨written, s₁, count₁⟩, hwrite, hslice⟩ := bind_eq_ok.mp hslice
    obtain ⟨out', hemit, hslice⟩ := bind_eq_ok.mp hslice
    obtain ⟨hwritten, -, -⟩ := (emit_eq_ok C).mp (orTrap_eq_ok.mp hemit)
    cases hslice
    cases hwritten
    obtain ⟨hpass, rfl⟩ := eq_of_write h hwrite
    have hglobal : additions (doc.view tx) signer .global = [] := rfl
    have hsized (loc : MapLoc) (recs : List Record) (hrecs : doc.recordsAt loc = some recs) :
        ∀ r ∈ sort Record.keyType (put recs (additions (doc.view tx) signer loc)), Sized r := by
      intro r hr
      rw [(sort_perm _).mem_iff, put, List.mem_append, List.mem_filter] at hr
      rcases hr with hr | hr
      · exact ((h.recordsAt hrecs).framed r hr.1).sized
      · exact sized_additions hr
    obtain ⟨hvalid, rfl⟩ := h.parse_edit (by rw [hglobal, put_nil]) hsized (orTrap_eq_ok.mp hread)
    exact ⟨hpass, hvalid, rfl⟩
  · rintro ⟨hpass, hvalid, rfl⟩
    obtain ⟨n, hwrite⟩ := exists_write h hpass
    have hparse := hvalid.parse_encode
    have hcap : (doc.signedBy tx signer).encode.length ≤ (doc.view tx).signLenBound :=
      h.length_write_le hwrite
    have hslice : signToSlice (doc.view tx) signer (doc.view tx).signLenBound () =
        .ok ((doc.signedBy tx signer).encode, n, ()) := by
      rw [signToSlice, hwrite, ok_bind]
      dsimp only
      rw [(emit_eq_ok C).mpr ⟨rfl, hcap, _, hparse⟩]
      rfl
    rw [sign, signToVec, hslice]
    exact orTrap_eq_ok.mpr hparse

end Sign

/-! ## Signers with different keys -/

section Apart

variable {C : Purecrypto} {doc : Doc} {tx : UnsignedTx} {A B : PsbtSigner C Unit}

/-- The key of a signer as taproot has it. -/
def PsbtSigner.xOnly (signer : PsbtSigner C Unit) : ByteVec 32 :=
  xOnlyOf (C.toSec1Compressed (signer.publicKey ()))

/-- The signer holds the internal key of a taproot input. -/
def PsbtSigner.HoldsInput (signer : PsbtSigner C Unit) (p : View) (i : Nat) : Prop :=
  ∃ inp res outputKey, p.input i = some inp ∧ resolve C p i = .ok res ∧
    res.kind = .p2tr outputKey ∧ isInternalKey C inp signer.xOnly outputKey = true

/-- Signers with different keys, one of which at most holds the internal key of an input. -/
structure Apart (p : View) (A B : PsbtSigner C Unit) : Prop where
  keys : A.xOnly ≠ B.xOnly
  inputs : ∀ i, ¬(A.HoldsInput p i ∧ B.HoldsInput p i)

theorem Apart.symm {p : View} (h : Apart p A B) : Apart p B A :=
  ⟨h.keys.symm, fun i hboth => h.inputs i hboth.symm⟩

instance (p : View) : Std.Symm (@Apart C p) := ⟨fun _ _ h => h.symm⟩

theorem Resembles.holdsInput {xOnly : ByteVec 32} {p q : View} (h : Resembles xOnly p q) {i : Nat}
    (hq : A.HoldsInput q i) : A.HoldsInput p i := by
  obtain ⟨inp', res, outputKey, hin, hres, hkind, hinternal⟩ := hq
  rcases h.input_cases i with ⟨-, hnone⟩ | ⟨inp, inp₂, hp, hq⟩
  · cases hin.symm.trans hnone
  · cases hin.symm.trans hq
    have halike := h.alike i inp inp' hp hin
    rw [resolve_congr h.tx hp hin halike] at hres
    rw [isInternalKey_congr halike] at hinternal
    exact ⟨inp, res, outputKey, hp, hres, hkind, hinternal⟩

/-- Signers stay apart when another one signs. -/
theorem Resembles.apart {xOnly : ByteVec 32} {p q : View} (h : Resembles xOnly p q)
    (hapart : Apart p A B) : Apart q A B := by
  refine ⟨hapart.keys, ?_⟩
  rintro i ⟨hA, hB⟩
  exact hapart.inputs i ⟨h.holdsInput hA, h.holdsInput hB⟩

/-- The x coordinate of a key is where SEC 1 puts it. -/
def Sec1 (C : Purecrypto) : Prop :=
  ∀ key : SecpPublicKey C,
    (C.toSec1Uncompressed key).toList.tail.take 32 = (xOnlyOf (C.toSec1Compressed key)).toList

/-- A serialized key has one x coordinate. -/
theorem Sec1.xOnly_eq (h : Sec1 C) {key key' : SecpPublicKey C} {pubkey : Bytes}
    (hkey : pubkey = (C.toSec1Compressed key).toList ∨ pubkey = (C.toSec1Uncompressed key).toList)
    (hkey' : pubkey = (C.toSec1Compressed key').toList ∨
      pubkey = (C.toSec1Uncompressed key').toList) :
    xOnlyOf (C.toSec1Compressed key) = xOnlyOf (C.toSec1Compressed key') := by
  have hcomp (k : SecpPublicKey C) : (C.toSec1Compressed k).toList.length = 33 :=
    List.Vector.toList_length _
  have huncomp (k : SecpPublicKey C) : (C.toSec1Uncompressed k).toList.length = 65 :=
    List.Vector.toList_length _
  rcases hkey with rfl | rfl
  · rcases hkey' with heq | heq
    · rw [List.Vector.toList_injective heq]
    · have hlen := congrArg List.length heq
      rw [hcomp, huncomp] at hlen
      cases hlen
  · rcases hkey' with heq | heq
    · have hlen := congrArg List.length heq
      rw [hcomp, huncomp] at hlen
      cases hlen
    · refine List.Vector.toList_injective ?_
      rw [← h key, ← h key', heq]

/-- A key-path signature is by a signer that holds the internal key. -/
theorem holdsInput_of_added {p : View} {loc : MapLoc} {r : Record} (hr : r ∈ additions p A loc)
    (hkey : r.key = [0x13]) : ∃ i, loc = .input i ∧ A.HoldsInput p i := by
  obtain ⟨i, set, rfl, hrun, hadd⟩ := exists_run hr
  rw [hadd] at hr
  obtain ⟨signed, hsigned, rfl⟩ := List.mem_map.mp hr
  rw [key_record] at hkey
  cases hrun with
  | finalized input done none =>
    rw [none] at hsigned
    cases hsigned
  | ecdsa input resolved kind sigs =>
    rcases sigs with hnil | ⟨signed', pubkey, hone, hsig, hpubkey⟩
    · rw [hnil] at hsigned
      cases hsigned
    · rw [hone, List.mem_singleton] at hsigned
      rw [hsigned, hsig.1] at hkey
      cases hkey
  | @taproot inp res outputKey keyItems leafItems hs input open' resolved kind run =>
    rw [run.items_eq] at hsigned
    rcases List.mem_append.mp hsigned with hmem | hmem
    · have hcount := (List.length_pos_of_mem hmem).trans_le run.keyCount
      refine ⟨i, rfl, inp, res, outputKey, input, resolved, kind, ?_⟩
      by_contra hnot
      rw [PsbtSigner.xOnly, Bool.not_eq_true] at hnot
      rw [hnot] at hcount
      cases hcount
    · obtain ⟨leafHash, -, hsig⟩ := forall₂_mem_left run.leafSigs hmem
      rw [hsig.1] at hkey
      cases hkey

/-- Signers with different keys add records under different keys. -/
theorem Apart.disjoint {p : View} (h : Apart p A B) (hsec : Sec1 C) {loc : MapLoc}
    {a b : Record} (ha : a ∈ additions p A loc) (hb : b ∈ additions p B loc) : a.key ≠ b.key := by
  intro hsame
  have hkey := addedKey hb
  rw [← hsame] at hkey
  rcases (addedKey ha).eq with hA | ⟨leafA, hA⟩ | ⟨pubA, hpubA, hA⟩
  · obtain ⟨i, rfl, hholds⟩ := holdsInput_of_added ha hA
    obtain ⟨j, hloc, hholds'⟩ := holdsInput_of_added hb (hsame.symm.trans hA)
    cases hloc
    exact h.inputs i ⟨hholds, hholds'⟩
  · rw [hA] at hkey
    rcases hkey.eq with hB | ⟨leafB, hB⟩ | ⟨pubB, -, hB⟩
    · cases hB
    · exact h.keys (xOnly_of_leafKey hB)
    · cases hB
  · rw [hA] at hkey
    rcases hkey.eq with hB | ⟨leafB, hB⟩ | ⟨pubB, hpubB, hB⟩
    · cases hB
    · cases hB
    · obtain rfl := (List.cons_eq_cons.mp hB).2
      exact h.keys (hsec.xOnly_eq hpubA hpubB)

end Apart

/-! ## Signing one after another -/

section All

variable {C : Purecrypto} {doc : Doc} {tx : UnsignedTx} {A B : PsbtSigner C Unit}

theorem mem_keys_of_lookup {recs : List Record} {key value : Bytes}
    (h : lookup recs key = some value) : ∃ r ∈ recs, r.key = key := by
  by_contra hnone
  have hkey : key ∉ recs.map (·.key) := fun hmem => hnone (List.mem_map.mp hmem)
  rw [lookup_eq_none.mpr hkey] at h
  cases h

theorem Apart.lookup_eq_none {p : View} (h : Apart p A B) (hsec : Sec1 C) {loc : MapLoc}
    {key value : Bytes} (ha : lookup (additions p A loc) key = some value) :
    lookup (additions p B loc) key = none := by
  obtain ⟨a, hmem, rfl⟩ := mem_keys_of_lookup ha
  rw [Psbt.lookup_eq_none]
  intro hkey
  obtain ⟨b, hb, hsame⟩ := List.mem_map.mp hkey
  exact h.disjoint hsec hmem hb hsame.symm

theorem ValidRecords.added {kind : MapKind} {recs news : List Record}
    (h : ValidRecords C kind (sort Record.keyType (put recs news))) :
    (news.map (·.key)).Nodup ∧ ∀ r ∈ news, Framed r ∧ validateRecord C kind r = .ok () := by
  have hmem {r : Record} (hr : r ∈ news) : r ∈ sort Record.keyType (put recs news) :=
    (sort_perm _).mem_iff.mpr (List.mem_append_right _ hr)
  refine ⟨?_, fun r hr => ⟨h.framed r (hmem hr), h.valid r (hmem hr)⟩⟩
  have hnodup : ((put recs news).map (·.key)).Nodup := ((sort_perm _).map _).nodup_iff.mp h.nodup
  rw [put, List.map_append, List.nodup_append] at hnodup
  exact hnodup.2.1

theorem ValidRecords.put {kind : MapKind} {recs news : List Record} (h : ValidRecords C kind recs)
    (hnodup : (news.map (·.key)).Nodup)
    (hnews : ∀ r ∈ news, Framed r ∧ validateRecord C kind r = .ok ()) :
    ValidRecords C kind (sort Record.keyType (put recs news)) :=
  ⟨fun r hr => (valid_sort_put h hnews r hr).1, (nodup_sort_put h.nodup).mpr hnodup,
    fun r hr => (valid_sort_put h hnews r hr).2⟩

/-- A PSBT with what each of some signers adds to another one, and nothing else. -/
structure Collects (p : View) (signers : List (PsbtSigner C Unit)) (q : View) : Prop where
  tx : q.tx = p.tx
  added : ∀ signer ∈ signers, ∀ loc key v, lookup (additions p signer loc) key = some v →
    q.value loc key = some v
  kept : ∀ loc key, (∀ signer ∈ signers, lookup (additions p signer loc) key = none) →
    q.value loc key = p.value loc key

end All

/-! ## Signing copies -/

section Copies

variable {C : Purecrypto} {doc : Doc} {tx : UnsignedTx}

end Copies

section Sample

end Sample

end Outscript.Psbt
