import Outscript.Psbt.Room

/-!
# What signing an input adds

No fixed buffer is overrun, and no error is one of a buffer. The records are an
ECDSA signature, or a key-path signature and signatures for leaves that were not
signed yet.
-/
namespace Outscript.Psbt

open ByteString Cursor Fallible Taproot Secp256k1

/-! ## Records -/

/-- An error that is neither a panic nor one of a buffer, and skips the input
only if it is blocked. -/
def Graceful (C : Purecrypto) (p : View) (index : Nat) (e : Trap) : Prop :=
  ∃ e', e = .error e' ∧ Failure C p index e'

theorem ends_lift {C : Purecrypto} {p : View} {index : Nat} {σ α : Type} {x : Except Error α}
    (h : Fallible.Fails (Failure C p index) x) :
    Call.Ends (Graceful C p index) (fun a => x = .ok a) (Call.lift (orTrap x) : Call σ Trap α) := by
  refine Call.Ends.lift (fun e he => ?_) fun _ ha => orTrap_eq_ok.mp ha
  obtain ⟨e', rfl, he'⟩ := orTrap_eq_error.mp he
  exact ⟨e', rfl, h e' he'⟩

namespace InlineBytes

variable {n : Nat}

theorem exists_expectExtend {v : InlineBytes n} (data : Bytes) (h : (v.bytes ++ data).length ≤ n) :
    ∃ v', v.expectExtend data = .ok v' ∧ v'.bytes = v.bytes ++ data :=
  ⟨⟨v.bytes ++ data, h⟩, by rw [expectExtend, extendFromSlice, dif_pos h]; rfl, rfl⟩

theorem extendFromSlice_empty {data : Bytes} (h : data.length ≤ n) :
    empty.extendFromSlice data = some ⟨data, h⟩ :=
  dif_pos h

theorem exists_foldlM {v : InlineBytes n} (parts : List Bytes)
    (h : (v.bytes ++ parts.flatten).length ≤ n) :
    ∃ v', parts.foldlM expectExtend v = .ok v' ∧ v'.bytes = v.bytes ++ parts.flatten := by
  induction parts generalizing v with
  | nil => exact ⟨v, rfl, (List.append_nil _).symm⟩
  | cons part parts ih =>
    rw [List.flatten_cons, ← List.append_assoc] at h
    obtain ⟨v₁, h₁, hv₁⟩ := exists_expectExtend (v := v) part (by
      rw [List.length_append] at h
      omega)
    obtain ⟨v₂, h₂, hv₂⟩ := ih (v := v₁) (by rwa [hv₁])
    refine ⟨v₂, by rw [List.foldlM_cons, h₁, ok_bind, h₂], ?_⟩
    rw [hv₂, hv₁, List.flatten_cons, List.append_assoc]

end InlineBytes

/-- A Schnorr signature with its sighash type. -/
def schnorrValue (sig : ByteVec 64) (hashType : UInt8) : Bytes :=
  sig.toList ++ if hashType ≠ 0 then [hashType] else []

theorem length_schnorrValue (sig : ByteVec 64) (hashType : UInt8) :
    (schnorrValue sig hashType).length = 64 ∨ (schnorrValue sig hashType).length = 65 := by
  rw [schnorrValue, List.length_append, sig.toList_length]
  split_ifs
  · exact Or.inr rfl
  · exact Or.inl rfl

theorem exists_schnorrRecord (key : List Bytes) (h : key.flatten.length ≤ 66) (sig : ByteVec 64)
    (hashType : UInt8) :
    ∃ signed, schnorrRecord key sig hashType = .ok signed ∧ signed.key.bytes = key.flatten ∧
      signed.value.bytes = schnorrValue sig hashType := by
  obtain ⟨k, hk, hkey⟩ := InlineBytes.exists_foldlM (v := .empty) (n := 66) key h
  obtain ⟨v, hv, hvalue⟩ := InlineBytes.exists_expectExtend (v := .empty) (n := 73)
    sig.toList (by
      rw [List.length_append, sig.toList_length]
      decide)
  have hlen : v.bytes.length = 64 := by
    rw [hvalue, List.length_append, sig.toList_length]
    rfl
  rw [schnorrRecord, hk, ok_bind, hv, ok_bind]
  split_ifs with ht
  · obtain ⟨v', hv', hvalue'⟩ := InlineBytes.exists_expectExtend (v := v) [hashType] (by
      rw [List.length_append, hlen, List.length_singleton]
      decide)
    refine ⟨⟨k, v'⟩, by rw [hv', ok_bind], hkey, ?_⟩
    rw [hvalue', hvalue, schnorrValue, if_pos ht]
    rfl
  · refine ⟨⟨k, v⟩, rfl, hkey, ?_⟩
    rw [hvalue, schnorrValue, if_neg ht]
    exact (List.append_nil _).symm

theorem exists_push {set : SignedSet} (h : set.isFull = false) (signed : Signed) :
    ∃ set', set.push signed = .ok set' ∧ set'.items = set.items ++ [signed] := by
  have hlt : set.items.length < 1 + maxLeafSigs := by
    rw [SignedSet.isFull, decide_eq_false_iff_not] at h
    have hfits := set.fits
    omega
  exact ⟨_, by rw [SignedSet.push, dif_pos hlt], rfl⟩

/-- A signature of the key path. -/
def IsKeySig (signed : Signed) : Prop :=
  signed.key.bytes = [0x13] ∧ (signed.value.bytes.length = 64 ∨ signed.value.bytes.length = 65)

/-- A signature for a leaf. -/
def IsLeafSig (xOnly leafHash : ByteVec 32) (signed : Signed) : Prop :=
  signed.key.bytes = 0x14 :: (xOnly.toList ++ leafHash.toList) ∧
    (signed.value.bytes.length = 64 ∨ signed.value.bytes.length = 65)

/-- A partial signature of a key. -/
def IsPartialSig (key : Bytes) (signed : Signed) : Prop :=
  signed.key.bytes = 0x02 :: key ∧ signed.value.bytes ≠ []

/-- A signer that never refuses. -/
structure PsbtSigner.Succeeds {C : Purecrypto} {σ : Type} (signer : PsbtSigner C σ) : Prop where
  ecdsa : ∀ digest s, (signer.signEcdsa digest s).1.isSome
  taproot : ∀ digest root s, (signer.signTaprootWithRoot digest root s).1.isSome
  schnorr : ∀ digest s, (signer.signSchnorr digest s).1.isSome

section Sign

variable {C : Purecrypto} {σ : Type} {p : View} {index : Nat} {inp : Map} {res : Resolved}
  {hashType : UInt8} {signer : PsbtSigner C σ} {xOnly outputKey : ByteVec 32}

theorem midstate_of_digest {path : Option TapScriptPath} {digest : ByteVec 32}
    (h : taprootDigest C p index res hashType path = .ok digest) :
    ∃ mid, taprootMidstate C p = .ok mid := by
  obtain ⟨mid, hmid, -⟩ := bind_eq_ok.mp h
  exact ⟨mid, hmid⟩

/-- The leaves of an input that are to be signed. -/
def freshLeaves (C : Purecrypto) (inp : Map) (xOnly outputKey : ByteVec 32)
    (leaves : List TapLeafScript) : List (ByteVec 32) :=
  leaves.filterMap (leafToSign C inp xOnly outputKey)

/-- What the loop over leaves adds to a set. -/
structure LeafRun (signer : PsbtSigner C σ) (p : View) (inp : Map) (xOnly outputKey : ByteVec 32)
    (leaves : List TapLeafScript) (acc acc' : SignedSet × Bool) (hs : List (ByteVec 32))
    (items : List Signed) : Prop where
  items_eq : acc'.1.items = acc.1.items ++ items
  sigs : List.Forall₂ (IsLeafSig xOnly) hs items
  fresh : hs.Sublist (freshLeaves C inp xOnly outputKey leaves)
  midstate : hs ≠ [] → ∃ mid, taprootMidstate C p = .ok mid
  all : signer.Succeeds → acc'.2 = acc.2 ∧
    hs = (freshLeaves C inp xOnly outputKey leaves).take (1 + maxLeafSigs - acc.1.items.length)

theorem signLeaves_ends (leaves : List TapLeafScript) (acc : SignedSet × Bool) :
    Call.Ends (Graceful C p index) (fun acc' => ∃ hs items,
        LeafRun signer p inp xOnly outputKey leaves acc acc' hs items)
      (signLeaves p index inp res hashType signer xOnly outputKey leaves acc) := by
  induction leaves generalizing acc with
  | nil =>
    exact Call.Ends.pure ⟨[], [], (List.append_nil _).symm, List.Forall₂.nil, List.Sublist.refl _,
      fun h => absurd rfl h, fun _ => ⟨rfl, List.take_nil.symm⟩⟩
  | cons leaf leaves ih =>
    rw [signLeaves]
    cases hfull : acc.1.isFull with
    | true =>
      rw [if_pos rfl]
      have hroom : 1 + maxLeafSigs - acc.1.items.length = 0 := by
        rw [SignedSet.isFull, decide_eq_true_eq] at hfull
        omega
      exact Call.Ends.pure ⟨[], [], (List.append_nil _).symm, List.Forall₂.nil,
        List.nil_sublist _, fun h => absurd rfl h, fun _ => ⟨rfl, by rw [hroom, List.take_zero]⟩⟩
    | false =>
      rw [if_neg Bool.false_ne_true]
      cases hleaf : leafToSign C inp xOnly outputKey leaf with
      | none =>
        have hskip : freshLeaves C inp xOnly outputKey (leaf :: leaves) =
            freshLeaves C inp xOnly outputKey leaves := List.filterMap_cons_none hleaf
        refine (ih acc).mono ?_
        rintro acc' ⟨hs, items, hitems, hsigs, hfresh, hmid, hall⟩
        refine ⟨hs, items, hitems, hsigs, ?_, hmid, fun h => ⟨(hall h).1, ?_⟩⟩
        · rw [hskip]
          exact hfresh
        · rw [hskip]
          exact (hall h).2
      | some leafHash =>
        have hcons : freshLeaves C inp xOnly outputKey (leaf :: leaves) =
            leafHash :: freshLeaves C inp xOnly outputKey leaves :=
          List.filterMap_cons_some hleaf
        refine (ends_lift (fails_taprootDigest C p index res hashType _)).bind
          fun digest hdigest => ?_
        have hmid := midstate_of_digest hdigest
        refine (Call.Ends.act (fun r => signer.Succeeds → r.isSome)
          fun s h => h.schnorr digest s).bind fun r hr => ?_
        cases r with
        | none =>
          refine (ih (acc.1, true)).mono ?_
          rintro acc' ⟨hs, items, hrun⟩
          exact ⟨hs, items, hrun.items_eq, hrun.sigs, hcons ▸ hrun.fresh.cons leafHash,
            fun _ => hmid, fun h => nomatch hr h⟩
        | some sig =>
          obtain ⟨signed, hsigned, hkey, hvalue⟩ := exists_schnorrRecord
            [[UInt8.ofNat Input.tapScriptSig], xOnly.toList, leafHash.toList]
            (by simp) sig hashType
          obtain ⟨set', hpush, hset'⟩ := exists_push hfull signed
          have hadded : acc.1.pushSchnorr
              [[UInt8.ofNat Input.tapScriptSig], xOnly.toList, leafHash.toList] sig hashType =
                .ok set' := by rw [SignedSet.pushSchnorr, hsigned, ok_bind, hpush]
          have hsig : IsLeafSig xOnly leafHash signed := by
            refine ⟨?_, hvalue ▸ length_schnorrValue sig hashType⟩
            rw [hkey, List.flatten_cons, List.flatten_cons, List.flatten_cons, List.flatten_nil,
              List.append_nil]
            rfl
          simp only [hadded, Call.lift_ok, Call.pure_bind']
          refine (ih (set', acc.2)).mono ?_
          rintro acc' ⟨hs, items, hrun⟩
          refine ⟨leafHash :: hs, signed :: items, ?_, List.Forall₂.cons hsig hrun.sigs,
            hcons ▸ hrun.fresh.cons_cons leafHash, fun _ => hmid, fun h => ⟨(hrun.all h).1, ?_⟩⟩
          · rw [hrun.items_eq, hset', List.append_assoc]
            rfl
          · have hlen : set'.items.length = acc.1.items.length + 1 := by
              rw [hset', List.length_append, List.length_singleton]
            have hfits := set'.fits
            have hroom : 1 + maxLeafSigs - acc.1.items.length =
                (1 + maxLeafSigs - set'.items.length) + 1 := by omega
            rw [hcons, hroom, List.take_succ_cons, (hrun.all h).2]

/-- What the key path adds. -/
structure KeyRun (signer : PsbtSigner C σ) (p : View) (inp : Map) (xOnly outputKey : ByteVec 32)
    (acc : SignedSet × Bool) : Prop where
  sigs : ∀ signed ∈ acc.1.items, IsKeySig signed
  count : acc.1.items.length ≤ (isInternalKey C inp xOnly outputKey).toNat
  midstate : isInternalKey C inp xOnly outputKey = true → ∃ mid, taprootMidstate C p = .ok mid
  all : signer.Succeeds → acc.2 = false ∧
    acc.1.items.length = (isInternalKey C inp xOnly outputKey).toNat

theorem signKeyPath_ends :
    Call.Ends (Graceful C p index) (KeyRun signer p inp xOnly outputKey)
      (signKeyPath p index inp res hashType signer xOnly outputKey) := by
  rw [signKeyPath]
  cases hkey : isInternalKey C inp xOnly outputKey with
  | false =>
    rw [if_neg Bool.false_ne_true]
    refine Call.Ends.pure ⟨fun _ h => (nomatch h), Nat.zero_le _, fun h => ?_, fun _ => ⟨rfl, ?_⟩⟩
    · rw [hkey] at h
      cases h
    · rw [hkey]
      rfl
  | true =>
    rw [if_pos rfl]
    refine (ends_lift (fails_taprootDigest C p index res hashType _)).bind
      fun digest hdigest => ?_
    have hmid := midstate_of_digest hdigest
    refine (Call.Ends.act (fun r => signer.Succeeds → r.isSome)
      fun s h => h.taproot digest _ s).bind fun r hr => ?_
    cases r with
    | none =>
      exact Call.Ends.pure ⟨fun _ h => (nomatch h), Nat.zero_le _, fun _ => hmid,
        fun h => nomatch hr h⟩
    | some sig =>
      obtain ⟨signed, hsigned, hkey', hvalue⟩ := exists_schnorrRecord
        [[UInt8.ofNat Input.tapKeySig]] (by decide) sig hashType
      obtain ⟨set', hpush, hset'⟩ := exists_push (show SignedSet.empty.isFull = false from rfl) signed
      have hadded : SignedSet.empty.pushSchnorr [[UInt8.ofNat Input.tapKeySig]] sig hashType =
          .ok set' := by rw [SignedSet.pushSchnorr, hsigned, ok_bind, hpush]
      have hone : set'.items = [signed] := hset'
      simp only [hadded, Call.lift_ok, Call.pure_bind']
      refine Call.Ends.pure ⟨fun signed' h => ?_, ?_, fun _ => hmid, fun _ => ⟨rfl, ?_⟩⟩
      · rw [hone, List.mem_singleton] at h
        rw [h]
        exact ⟨hkey', hvalue ▸ length_schnorrValue sig hashType⟩
      · rw [hone, hkey]
        exact le_rfl
      · rw [hone, hkey]
        rfl

/-- What signing a taproot input gives: a key-path signature if the signer holds
the internal key, and signatures of leaves. -/
structure TaprootRun (signer : PsbtSigner C σ) (p : View) (inp : Map) (xOnly outputKey : ByteVec 32)
    (items keyItems leafItems : List Signed) (hs : List (ByteVec 32)) : Prop where
  items_eq : items = keyItems ++ leafItems
  keySigs : ∀ signed ∈ keyItems, IsKeySig signed
  keyCount : keyItems.length ≤ (isInternalKey C inp xOnly outputKey).toNat
  leafSigs : List.Forall₂ (IsLeafSig xOnly) hs leafItems
  fresh : hs.Sublist (freshLeaves C inp xOnly outputKey (PsbtInput.tapLeafScripts inp))
  midstate : items ≠ [] → ∃ mid, taprootMidstate C p = .ok mid
  all : signer.Succeeds → keyItems.length = (isInternalKey C inp xOnly outputKey).toNat ∧
    hs = (freshLeaves C inp xOnly outputKey (PsbtInput.tapLeafScripts inp)).take
      (1 + maxLeafSigs - keyItems.length)

theorem signTaproot_ends {comp : ByteVec 33} :
    Call.Ends (Graceful C p index) (fun set => ∃ keyItems leafItems hs,
        TaprootRun signer p inp (xOnlyOf comp) outputKey set.items keyItems leafItems hs)
      (signTaproot p index inp res signer comp outputKey) := by
  refine (ends_lift ((plain_taprootHashType _).mono fun _ => Plain.failure C)).bind fun hashType _ => ?_
  refine signKeyPath_ends.bind fun acc hkey => ?_
  refine (signLeaves_ends (PsbtInput.tapLeafScripts inp) acc).bind ?_
  rintro acc' ⟨hs, items, hrun⟩
  split_ifs with hfailed
  · exact Call.Ends.lift (fun e he => ⟨.signer, (Except.error.inj he).symm, Plain.failure C (by decide)⟩)
      fun _ h => nomatch h
  · refine Call.Ends.pure ⟨acc.1.items, items, hs, hrun.items_eq, hkey.sigs, hkey.count, hrun.sigs,
      hrun.fresh, fun hne => ?_, fun h => ⟨(hkey.all h).2, (hrun.all h).2⟩⟩
    -- whatever was signed, its digest needed the midstate
    cases hhs : hs with
    | cons h hs' => exact hrun.midstate (by rw [hhs]; exact List.cons_ne_nil _ _)
    | nil =>
      refine hkey.midstate ?_
      have hnil : items = [] := by
        have hsigs := hrun.sigs
        rw [hhs] at hsigs
        exact List.forall₂_nil_left_iff.mp hsigs
      rw [hrun.items_eq, hnil, List.append_nil] at hne
      have hpos := List.length_pos_of_ne_nil hne
      have hcount := hkey.count
      cases hinternal : isInternalKey C inp (xOnlyOf comp) outputKey with
      | true => rfl
      | false =>
        rw [hinternal, Bool.toNat_false] at hcount
        omega

theorem exists_partialSigRecord {key : Bytes} (h : key.length ≤ 65) (der : DerSignature)
    (hashType : UInt8) :
    ∃ signed, partialSigRecord key der hashType = .ok signed ∧ IsPartialSig key signed := by
  have hder := der.length_bytes
  have hfits : der.bytes.length ≤ 73 := hder.2.trans (by decide)
  obtain ⟨v, hv, hvbytes⟩ := InlineBytes.exists_expectExtend (v := ⟨der.bytes, hfits⟩)
    [hashType] (by
      rw [List.length_append, List.length_singleton]
      exact Nat.succ_le_succ hder.2)
  obtain ⟨k, hk, hkbytes⟩ := InlineBytes.exists_expectExtend (v := .empty) (n := 66)
    [UInt8.ofNat Input.partialSig] (by decide)
  obtain ⟨k', hk', hkbytes'⟩ := InlineBytes.exists_expectExtend (v := k) (n := 66) key (by
    rw [hkbytes, List.length_append, List.length_append, List.length_singleton]
    exact (Nat.add_comm _ _).trans_le (Nat.succ_le_succ h))
  refine ⟨⟨k', v⟩, ?_, ?_, ?_⟩
  · rw [partialSigRecord, InlineBytes.extendFromSlice_empty hfits, okOr_some, orTrap_ok, ok_bind, hv,
      ok_bind, hk, ok_bind, hk', ok_bind]
  · rw [hkbytes', hkbytes]
    rfl
  · rw [hvbytes]
    simp

theorem signEcdsa_ends {scriptCode key : Bytes} {segwit : Bool} (h : key.length ≤ 65) :
    Call.Ends (Graceful C p index) (fun signed => ∀ r ∈ signed, IsPartialSig key r)
      (signEcdsa p index inp res signer scriptCode segwit key) := by
  refine (ends_lift ((plain_ecdsaHashType _).mono fun _ => Plain.failure C)).bind fun hashType _ => ?_
  refine (ends_lift (fails_ecdsaDigest C p index res hashType scriptCode segwit)).bind
    fun digest _ => ?_
  refine (Call.Ends.act (fun _ => True) fun _ => trivial).bind fun der _ => ?_
  cases der with
  | none =>
    exact Call.Ends.lift (fun e he => ⟨.signer, (Except.error.inj he).symm, Plain.failure C (by decide)⟩)
      fun _ h => nomatch h
  | some der =>
    obtain ⟨signed, hsigned, hpartial⟩ := exists_partialSigRecord h der hashType
    simp only [hsigned, Call.lift_ok, Call.pure_bind']
    refine Call.Ends.pure ?_
    rintro _ ⟨⟩
    exact hpartial

/-- What one call gives for an input. -/
inductive InputRun (signer : PsbtSigner C σ) (p : View) (index : Nat) (key : SecpPublicKey C)
    (items : List Signed) : Prop
  | finalized {inp : Map} (input : p.input index = some inp)
      (done : PsbtInput.isFinalized inp = true) (none : items = [])
  | taproot {inp : Map} {res : Resolved} {outputKey : ByteVec 32} {keyItems leafItems : List Signed}
      {hs : List (ByteVec 32)} (input : p.input index = some inp)
      (open' : PsbtInput.isFinalized inp = false) (resolved : resolve C p index = .ok res)
      (kind : res.kind = .p2tr outputKey)
      (run : TaprootRun signer p inp (xOnlyOf (C.toSec1Compressed key)) outputKey items keyItems
        leafItems hs)
  | ecdsa {inp : Map} {res : Resolved} (input : p.input index = some inp)
      (resolved : resolve C p index = .ok res) (kind : ∀ outputKey, res.kind ≠ .p2tr outputKey)
      (sigs : items = [] ∨ ∃ signed pubkey, items = [signed] ∧ IsPartialSig pubkey signed ∧
        (pubkey = (C.toSec1Compressed key).toList ∨ pubkey = (C.toSec1Uncompressed key).toList))

theorem keyInScript_eq_some {H : Hashes} {script key : Bytes} {comp : ByteVec 33}
    {uncomp : ByteVec 65} (h : keyInScript H script comp uncomp = some key) :
    key = comp.toList ∨ key = uncomp.toList := by
  obtain ⟨data, -, hdata⟩ := List.exists_of_findSome?_eq_some h
  split_ifs at hdata
  · exact Or.inl (Option.some.inj hdata).symm
  · exact Or.inr (Option.some.inj hdata).symm

theorem signInputEcdsaOrTaproot_ends :
    Call.Ends (Graceful C p index) (fun r => ∃ s, InputRun signer p index (signer.publicKey s)
        (r.1.items ++ r.2.toList) ∧ (r.2.isSome → r.1.items = []))
      (signInputEcdsaOrTaproot p index signer) := by
  refine (ends_lift (fails_okOr (Plain.failure C (by decide)))).bind fun inp hinp => ?_
  have hinput := okOr_eq_ok.mp hinp
  cases hdone : PsbtInput.isFinalized inp with
  | true =>
    rw [if_pos rfl]
    intro s
    exact Call.Ends.pure ⟨s, .finalized hinput hdone rfl, fun _ => rfl⟩ s
  | false =>
  rw [if_neg Bool.false_ne_true]
  refine (ends_lift (fails_resolve C p index)).bind fun res hres => ?_
  refine (Call.Ends.act (fun key => ∃ s, key = signer.publicKey s)
    fun s => ⟨s, rfl⟩).bind ?_
  rintro _ ⟨s, rfl⟩
  -- an ECDSA signature, or none
  have hecdsa (hkind : ∀ outputKey, res.kind ≠ .p2tr outputKey) (scriptCode : Bytes)
      (segwit : Bool) {key : Bytes}
      (hkey : key = (C.toSec1Compressed (signer.publicKey s)).toList ∨
        key = (C.toSec1Uncompressed (signer.publicKey s)).toList) :
      Call.Ends (Graceful C p index) (fun r : SignedSet × Option Signed => ∃ s,
          InputRun signer p index (signer.publicKey s) (r.1.items ++ r.2.toList) ∧
            (r.2.isSome → r.1.items = []))
        (do
          let signed ← signEcdsa p index inp res signer scriptCode segwit key
          return (.empty, signed)) := by
    have hlen : key.length ≤ 65 := by
      rcases hkey with rfl | rfl
      · exact (List.Vector.toList_length _).trans_le (by decide)
      · exact (List.Vector.toList_length _).le
    refine (signEcdsa_ends hlen).bind fun signed hsigned => Call.Ends.pure ⟨s, ?_, fun _ => rfl⟩
    refine .ecdsa hinput hres hkind ?_
    cases signed with
    | none => exact Or.inl rfl
    | some signed => exact Or.inr ⟨signed, key, rfl, hsigned signed rfl, hkey⟩
  have hnone (hkind : ∀ outputKey, res.kind ≠ .p2tr outputKey) :
      Call.Ends (Graceful C p index) (fun r : SignedSet × Option Signed => ∃ s,
          InputRun signer p index (signer.publicKey s) (r.1.items ++ r.2.toList) ∧
            (r.2.isSome → r.1.items = []))
        (return (.empty, none) : Call σ Trap (SignedSet × Option Signed)) :=
    Call.Ends.pure ⟨s, .ecdsa hinput hres hkind (Or.inl rfl), fun _ => rfl⟩
  cases hkind : res.kind with
  | p2tr outputKey =>
    refine signTaproot_ends.bind ?_
    rintro set ⟨keyItems, leafItems, hs, hrun⟩
    refine Call.Ends.pure ⟨s, ?_, fun h => nomatch h⟩
    rw [Option.toList_none, List.append_nil]
    exact .taproot hinput hdone hres hkind hrun
  | p2wpkh hash =>
    have hne : ∀ outputKey, res.kind ≠ .p2tr outputKey := fun _ h => nomatch hkind.symm.trans h
    dsimp only
    split_ifs
    · exact hnone hne
    · exact hecdsa hne _ _ (Or.inl rfl)
  | p2wsh ws =>
    have hne : ∀ outputKey, res.kind ≠ .p2tr outputKey := fun _ h => nomatch hkind.symm.trans h
    dsimp only
    split
    · exact hnone hne
    · exact hecdsa hne _ _ (keyInScript_eq_some ‹_›)
  | legacy script =>
    have hne : ∀ outputKey, res.kind ≠ .p2tr outputKey := fun _ h => nomatch hkind.symm.trans h
    dsimp only
    split
    · exact hnone hne
    · exact hecdsa hne _ _ (keyInScript_eq_some ‹_›)

/-- Signing an input ends without a panic, and gives what one call gives. -/
theorem signInput_ends :
    Call.Ends (Graceful C p index) (fun set => ∃ s, InputRun signer p index (signer.publicKey s) set.items)
      (signInput p index signer) := by
  refine signInputEcdsaOrTaproot_ends.bind ?_
  rintro ⟨set, signed⟩ ⟨s, hrun, hempty⟩
  cases signed with
  | none =>
    rw [Option.toList_none, List.append_nil] at hrun
    exact Call.Ends.pure ⟨s, hrun⟩
  | some signed =>
    have hnil : set.items = [] := hempty rfl
    have hroom : set.isFull = false := by
      rw [SignedSet.isFull, hnil]
      rfl
    obtain ⟨set', hpush, hset'⟩ := exists_push hroom signed
    simp only [hpush, Call.lift_ok]
    refine Call.Ends.pure ⟨s, ?_⟩
    rw [hset']
    exact hrun

end Sign

end Outscript.Psbt
