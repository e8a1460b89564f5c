import Outscript.Psbt.SignInput
import Outscript.Psbt.WriteRun

/-!
# Signing a PSBT

What a signing call writes is the document with the signatures put into its
inputs. The bound on its size holds, also for an input that gets a ninth leaf
signature.
-/
namespace Outscript.Psbt

open ByteString Cursor Fallible StableSort StateLoop Secp256k1

/-! ## The records of a set -/

/-- The records that signatures are written as. -/
def signedRecords (items : List Signed) : List Record := items.map fun signed => signed.record.record

theorem signedRecords_eq (set : SignedSet) :
    set.records.map NewRecord.record = signedRecords set.items := by
  rw [SignedSet.records, List.map_map]
  rfl

theorem key_record (signed : Signed) : signed.record.record.key = signed.key.bytes :=
  List.append_nil _

theorem typed_add_signed (set : SignedSet) : (MapEdit.add set.records).Typed := by
  intro a ha
  obtain ⟨signed, -, rfl⟩ := List.mem_map.mp ha
  rw [NewRecord.keyType, Record.keyType, key_record]
  rfl

theorem length_encode_signed (signed : Signed) :
    signed.record.record.encode.length = 2 + signed.key.bytes.length + signed.value.bytes.length := by
  have hk := signed.key.fits
  have hv := signed.value.fits
  have hlen {n : Nat} (hn : n ≤ 0xfc) : (putVarint n).length = 1 := by
    rw [putVarint, BtcVarInt.toArray, if_pos hn]
    rfl
  rw [Record.encode, key_record, varBytesOf, varBytesOf, List.length_append, List.length_append,
    List.length_append, hlen (by omega)]
  change 1 + _ + ((putVarint signed.value.bytes.length).length + signed.value.bytes.length) = _
  rw [hlen (by omega)]
  omega

theorem length_encodeRecords_le {recs : List Record} {n : Nat}
    (h : ∀ r ∈ recs, r.encode.length ≤ n) : (encodeRecords recs).length ≤ recs.length * n := by
  induction recs with
  | nil => exact Nat.zero_le _
  | cons r recs ih =>
    obtain ⟨hr, hrecs⟩ := List.forall_mem_cons.mp h
    have htail := ih hrecs
    have hcons : encodeRecords (r :: recs) = r.encode ++ encodeRecords recs := List.flatMap_cons
    rw [hcons, List.length_append, List.length_cons, Nat.succ_mul]
    omega

/-- What the signatures of one input may take. -/
def signatureRoom (inp : Map) : Nat :=
  141 + min (PsbtInput.tapLeafScripts inp).length maxLeafSigs * 132

section Room

variable {C : Purecrypto} {σ : Type} {p : View} {index : Nat} {inp : Map}
  {signer : PsbtSigner C σ}

theorem InputRun.length_le {key : SecpPublicKey C} {items : List Signed}
    (h : InputRun signer p index key items) (hinp : p.input index = some inp)
    (hfits : items.length ≤ 1 + maxLeafSigs) :
    (encodeRecords (signedRecords items)).length ≤ signatureRoom inp := by
  cases h with
  | finalized input done none =>
    rw [none]
    exact Nat.zero_le _
  | ecdsa input resolved kind sigs =>
    rcases sigs with rfl | ⟨signed, pubkey, rfl, -, -⟩
    · exact Nat.zero_le _
    · have hlen := length_encode_signed signed
      have hk := signed.key.fits
      have hv := signed.value.fits
      have hone : encodeRecords (signedRecords [signed]) = signed.record.record.encode :=
        List.flatMap_singleton _ _
      rw [hone, hlen, signatureRoom]
      omega
  | @taproot inp' res outputKey keyItems leafItems hs input open' resolved kind run =>
    cases input.symm.trans hinp
    have hkeys : (encodeRecords (signedRecords keyItems)).length ≤ keyItems.length * 68 := by
      rw [← List.length_map (fun signed : Signed => signed.record.record)]
      refine length_encodeRecords_le fun r hr => ?_
      obtain ⟨signed, hsigned, rfl⟩ := List.mem_map.mp hr
      obtain ⟨hkey, hvalue⟩ := run.keySigs signed hsigned
      rw [length_encode_signed, hkey, List.length_singleton]
      omega
    have hleaves : (encodeRecords (signedRecords leafItems)).length ≤ leafItems.length * 132 := by
      rw [← List.length_map (fun signed : Signed => signed.record.record)]
      refine length_encodeRecords_le fun r hr => ?_
      obtain ⟨signed, hsigned, rfl⟩ := List.mem_map.mp hr
      obtain ⟨i, hi, rfl⟩ := List.getElem_of_mem hsigned
      obtain ⟨hkey, hvalue⟩ := run.leafSigs.get (run.leafSigs.length_eq ▸ hi) hi
      have hlen : leafItems[i].key.bytes.length = 65 := by
        change leafItems[i].key.bytes = _ at hkey
        rw [hkey, List.length_cons, List.length_append, List.Vector.toList_length,
          List.Vector.toList_length]
      change leafItems[i].value.bytes.length = 64 ∨ leafItems[i].value.bytes.length = 65 at hvalue
      rw [length_encode_signed, hlen]
      omega
    have hone : keyItems.length ≤ 1 := run.keyCount.trans (Bool.toNat_le _)
    have hcount : leafItems.length ≤ (PsbtInput.tapLeafScripts inp).length := by
      rw [← run.leafSigs.length_eq]
      exact run.fresh.length_le.trans (List.length_filterMap_le _ _)
    rw [run.items_eq, List.length_append] at hfits
    rw [run.items_eq, signedRecords, List.map_append, encodeRecords_append, List.length_append,
      signatureRoom]
    change (encodeRecords (signedRecords keyItems)).length +
      (encodeRecords (signedRecords leafItems)).length ≤ _
    rw [maxLeafSigs] at hfits ⊢
    omega

end Room

theorem length_put_le (recs news : List Record) :
    (encodeMap (sort Record.keyType (put recs news))).length ≤
      (encodeMap recs).length + (encodeRecords news).length := by
  have hfilter : (encodeRecords (recs.filter fun r => r.key ∉ news.map (·.key))).length ≤
      (encodeRecords recs).length := (List.filter_sublist.flatMap _).length_le
  rw [encodeMap, List.length_append, length_encodeRecords_perm (sort_perm _), put,
    encodeRecords_append, List.length_append, encodeMap, List.length_append]
  omega

/-! ## The document written -/

section Sign

variable {C : Purecrypto} {σ : Type} {doc : Doc} {tx : UnsignedTx} {signer : PsbtSigner C σ}

/-- What one call puts into a map. -/
inductive MapRun (signer : PsbtSigner C σ) (p : View) (loc : MapLoc) (recs : List Record) :
    List Record → Prop
  | copied (none : ∀ i, loc ≠ .input i) : MapRun signer p loc recs (sort Record.keyType recs)
  | skipped {i : Nat} (input : loc = .input i) (blocked : Blocked C p i) : MapRun signer p loc recs (sort Record.keyType recs)
  | signed {i : Nat} {s : σ} {set : SignedSet} (input : loc = .input i)
      (run : InputRun signer p i (signer.publicKey s) set.items) :
      MapRun signer p loc recs (sort Record.keyType (put recs (signedRecords set.items)))

theorem put_nil (recs : List Record) : put recs [] = recs := by simp [put]

theorem signMap_eq_ok (h : doc.Valid C tx) {loc : MapLoc} {recs : List Record}
    (hrecs : doc.recordsAt loc = some recs) {s s' : σ × Nat} {b : Bytes}
    (hsign : (signMap (doc.view tx) signer loc (Map.ofRecords recs)).run s = .ok (b, s')) :
    s.2 ≤ s'.2 ∧ ∃ recs', b = encodeMap recs' ∧ MapRun signer (doc.view tx) loc recs recs' ∧
      (s'.2 = 0 → recs' = sort Record.keyType recs) := by
  have hframed := (h.recordsAt hrecs).framed
  have hcopy : writeMap (Map.ofRecords recs) .none = encodeMap (sort Record.keyType recs) := by
    rw [writeMap_eq typed_none, pool_none hframed]
  obtain ⟨s, count⟩ := s
  cases loc with
  | input i =>
    unfold signMap StateT.run at hsign
    rcases hres : signInput (doc.view tx) i signer s with ⟨e | set, s₁⟩
    · cases e with
      | panic =>
        simp only [hres] at hsign
        cases hsign
      | error e =>
        simp only [hres] at hsign
        split_ifs at hsign with hskip
        cases hsign
        obtain ⟨_, ⟨⟩, hfailure⟩ := (signInput_ends s).1 _ (congrArg Prod.fst hres)
        exact ⟨le_rfl, _, hcopy, .skipped rfl (hfailure.2 hskip), fun _ => rfl⟩
    · simp only [hres] at hsign
      obtain ⟨s₀, hrun⟩ := (signInput_ends s).2 set (congrArg Prod.fst hres)
      split_ifs at hsign with hpos
      · cases hsign
        refine ⟨Nat.le_succ _, _, ?_, .signed rfl hrun, fun h => absurd h (Nat.succ_ne_zero _)⟩
        rw [writeMap_eq (typed_add_signed set), pool_add hframed, signedRecords_eq]
      · cases hsign
        have hnil : set.items = [] := List.length_eq_zero_iff.mp (Nat.eq_zero_of_not_pos hpos)
        have hput : sort Record.keyType (put recs (signedRecords set.items)) =
            sort Record.keyType recs := by rw [hnil, signedRecords, List.map_nil, put_nil]
        exact ⟨le_rfl, _, hcopy.trans (by rw [hput]), .signed rfl hrun, fun _ => hput⟩
  | global =>
    cases hsign
    exact ⟨le_rfl, _, hcopy, .copied fun i h => (nomatch h), fun _ => rfl⟩
  | output i =>
    cases hsign
    exact ⟨le_rfl, _, hcopy, .copied fun i h => (nomatch h), fun _ => rfl⟩

/-- What a signing call writes is a document with each map copied or signed. -/
theorem Doc.Valid.signed (h : doc.Valid C tx) {s s' : σ × Nat} {out : Bytes}
    (hout : ((doc.view tx).write (signMap (doc.view tx) signer)).run s = .ok (out, s')) :
    ∃ g, out = (doc.edit g).encode ∧ ∀ loc recs, doc.recordsAt loc = some recs →
      MapRun signer (doc.view tx) loc recs (g loc recs) ∧
        (s'.2 = 0 → g loc recs = sort Record.keyType recs) := by
  refine h.exists_edit_of_write (μ := Prod.snd)
    (P := fun loc recs recs' => MapRun signer (doc.view tx) loc recs recs' ∧
      (s'.2 = 0 → recs' = sort Record.keyType recs))
    (fun _ _ _ _ _ hrecs hsign => (signMap_eq_ok h hrecs hsign).1) ?_ hout
  intro loc recs t b t' hrecs hsign hle
  obtain ⟨-, recs', hb, hrun, hnone⟩ := signMap_eq_ok h hrecs hsign
  exact ⟨recs', hb, hrun, fun hzero => hnone (Nat.eq_zero_of_le_zero (hle.trans_eq hzero))⟩

/-- The room for the signatures of a map. -/
def MapLoc.signatureRoom (loc : MapLoc) (recs : List Record) : Nat :=
  match loc with
  | .input _ => Psbt.signatureRoom (Map.ofRecords recs)
  | _ => 0

theorem MapRun.length_le (h : doc.Valid C tx) {loc : MapLoc} {recs recs' : List Record}
    (hrecs : doc.recordsAt loc = some recs) (hrun : MapRun signer (doc.view tx) loc recs recs') :
    (encodeMap recs').length ≤ (encodeMap recs).length + loc.signatureRoom recs := by
  have hcopy : (encodeMap (sort Record.keyType recs)).length ≤
      (encodeMap recs).length + loc.signatureRoom recs := by
    have hput := length_put_le recs []
    rw [put_nil] at hput
    exact hput.trans (Nat.add_le_add_left (Nat.zero_le _) _)
  cases hrun with
  | copied => exact hcopy
  | skipped => exact hcopy
  | @signed i s set input run =>
    subst input
    exact (length_put_le _ _).trans
      (Nat.add_le_add_left (run.length_le (h.input_view hrecs) set.fits) _)

theorem Doc.Valid.sum_signatureRoom (h : doc.Valid C tx) :
    (doc.located.map fun lr => lr.1.signatureRoom lr.2).sum =
      (doc.view tx).tx.layout.inputCount * 141 + ((doc.view tx).inputs.map fun inp =>
        min (PsbtInput.tapLeafScripts inp).length maxLeafSigs).sum * 132 := by
  have hcount : (doc.view tx).tx.layout.inputCount = doc.inputs.length := h.inputCount.symm
  have hinputs : (doc.inputs.mapIdx fun i recs => (MapLoc.input i, recs)).map
      (fun lr => lr.1.signatureRoom lr.2) =
        doc.inputs.map fun recs => Psbt.signatureRoom (Map.ofRecords recs) := by
    rw [map_mapIdx]
    exact List.ext_getElem (by simp) fun i h₁ h₂ => by simp [MapLoc.signatureRoom]
  have houtputs : ((doc.outputs.mapIdx fun i recs => (MapLoc.output i, recs)).map
      fun lr => lr.1.signatureRoom lr.2).sum = 0 := by
    refine List.sum_eq_zero fun n hn => ?_
    obtain ⟨lr, hlr, rfl⟩ := List.mem_map.mp hn
    obtain ⟨i, hi, rfl⟩ := List.mem_mapIdx.mp hlr
    rfl
  rw [Doc.located, List.map_append, List.sum_append, hinputs, houtputs, hcount, h.inputs_view]
  induction doc.inputs with
  | nil => rfl
  | cons recs inputs ih =>
    simp only [List.map_cons, List.sum_cons, List.length_cons, Nat.add_zero] at ih ⊢
    rw [ih, Psbt.signatureRoom]
    ring

end Sign

/-- A signer that gives the same signatures for every digest. -/
def constantSigner : PsbtSigner .blank Unit where
  publicKey _ := (List.Vector.replicate 32 1, List.Vector.replicate 32 2)
  signEcdsa _ s := (some (derEncode (List.Vector.replicate 32 3) (List.Vector.replicate 32 4)), s)
  signTaprootWithRoot _ _ s := (some (List.Vector.replicate 64 5), s)
  signSchnorr _ s := (some (List.Vector.replicate 64 6), s)

end Outscript.Psbt
