import Outscript.Psbt.SignLeaves

/-!
# The keys of the records that signing adds

A signing call looks for signatures of a leaf in the PSBT, and not among those it
has just made. So leaves that share a hash are signed twice in one call, and what is
written is refused for a duplicate key. It is refused for nothing else.
-/
namespace Outscript.Psbt

open ByteString Cursor Fallible StableSort Taproot Secp256k1

/-! ## Documents with a duplicate key -/

section Parse

variable {C : Purecrypto}

theorem validateMap_repeats {kind : MapKind} {recs : List Record} (hf : ∀ r ∈ recs, Framed r)
    (hdup : ¬(recs.map (·.key)).Nodup) :
    validateMap C kind (Map.ofRecords recs) = .error .duplicateKey := by
  rw [validateMap, Map.checkDuplicates, Map.records_ofRecords hf, if_neg hdup]
  rfl

/-- Maps of valid records are read up to a duplicate key. -/
theorem readMaps_repeats {kind : MapKind} {maps : List (List Record)}
    (hall : ∀ recs ∈ maps, ∀ r ∈ recs, Framed r ∧ validateRecord C kind r = .ok ())
    (hdup : ∃ recs ∈ maps, ¬(recs.map (·.key)).Nodup) (rest : Bytes) (p : Nat) :
    (readMaps C kind maps.length).run ⟨maps.flatMap encodeMap ++ rest, p⟩ =
      .error .duplicateKey := by
  induction maps generalizing p with
  | nil =>
    obtain ⟨recs, hmem, -⟩ := hdup
    cases hmem
  | cons recs maps ih =>
    obtain ⟨hrecs, hmaps⟩ := List.forall_mem_cons.mp hall
    have hframed : ∀ r ∈ recs, Framed r := fun r hr => (hrecs r hr).1
    have hread := Map.decodes_read.run_bind (a := Map.ofRecords recs)
      (q := fun map => do
        lift (validateMap C kind map)
        readMaps C kind maps.length)
      ⟨recs, hframed, rfl⟩ (maps.flatMap encodeMap ++ rest) p
    rw [List.length_cons, readMaps, List.flatMap_cons, List.append_assoc, encodeMap_eq, hread]
    by_cases hnodup : (recs.map (·.key)).Nodup
    · have hvalid : ValidRecords C kind recs := ⟨hframed, hnodup, fun r hr => (hrecs r hr).2⟩
      rw [run_lift_bind ((validateMap_ofRecords hframed).mpr hvalid)]
      obtain ⟨recs', hmem, hdup⟩ := hdup
      rcases List.mem_cons.mp hmem with rfl | hmem
      · exact absurd hnodup hdup
      · exact ih hmaps ⟨recs', hmem, hdup⟩ _
    · rw [validateMap_repeats hframed hnodup]
      rfl

variable {doc : Doc} {tx : UnsignedTx}

/-- A document that differs from a valid one in the records of its inputs is refused for a
duplicate key, where these are valid records. -/
theorem Doc.Valid.parse_repeats (h : doc.Valid C tx) {inputs : List (List Record)}
    (hlen : inputs.length = doc.inputs.length)
    (hall : ∀ recs ∈ inputs, ∀ r ∈ recs, Framed r ∧ validateRecord C .input r = .ok ())
    (hdup : ∃ recs ∈ inputs, ¬(recs.map (·.key)).Nodup) :
    parse C (Doc.encode ⟨doc.globals, inputs, doc.outputs⟩) = .error .duplicateKey := by
  obtain ⟨hg, -, -, htx, hlayout, hilen, -⟩ := h
  have hdrop : seek (Doc.encode ⟨doc.globals, inputs, doc.outputs⟩) 5 =
      ⟨encodeMap doc.globals ++ (inputs.flatMap encodeMap ++ doc.outputs.flatMap encodeMap), 5⟩ := by
    rw [← List.flatMap_append]
    rfl
  have hin := readMaps_repeats hall hdup (doc.outputs.flatMap encodeMap)
    (5 + (encodeMap doc.globals).length)
  rw [hlen, hilen] at hin
  have htx' : missingTx ((Map.ofRecords doc.globals).getType Global.unsignedTx) = .ok tx.bytes := by
    rw [missingTx_eq_ok, getType_ofRecords hg.framed (by decide)]
    exact htx
  have hrun : (readView C (Doc.encode ⟨doc.globals, inputs, doc.outputs⟩)).run
      (seek (Doc.encode ⟨doc.globals, inputs, doc.outputs⟩) 5) = .error .duplicateKey := by
    rw [hdrop, readView]
    refine (run_bind_of (read_encodeMap hg.framed _ _)).trans ?_
    rw [run_lift_bind ((validateMap_ofRecords hg.framed).mpr hg), run_lift_bind htx',
      run_lift_bind hlayout, run_pos_bind]
    rw [StateT.run_bind, hin]
    rfl
  have hmagic : (Doc.encode ⟨doc.globals, inputs, doc.outputs⟩).take 5 = magic := rfl
  rw [parse, if_pos hmagic, hrun]

end Parse

/-! ## The records of one input -/

section Items

variable {C : Purecrypto} {σ : Type} {signer : PsbtSigner C σ} {p : View} {i : Nat}
  {key : SecpPublicKey C} {items : List Signed}

/-- The encodings of a key are read as keys. -/
def Readable (C : Purecrypto) (key : SecpPublicKey C) : Prop :=
  isPubkey C (C.toSec1Compressed key).toList = true ∧
    isPubkey C (C.toSec1Uncompressed key).toList = true

theorem framed_signed {signed : Signed} {t : Nat} {data : Bytes} (ht : t < 2 ^ 64)
    (hkey : signed.key.bytes = putVarint t ++ data) : Framed signed.record.record :=
  ⟨(congrArg List.length (key_record signed)).trans_lt (signed.key.fits.trans_lt (by decide)),
    signed.value.fits.trans_lt (by decide), t, data, ht, (key_record signed).trans hkey⟩

theorem valid_signature {r : Record} {t : Nat} {data : Bytes} (ht : t < 2 ^ 64)
    (hkey : r.key = putVarint t ++ data) (hrec : (t = Input.tapKeySig ∧ data = []) ∨
      (t = Input.tapScriptSig ∧ data.length = 64))
    (hvalue : r.value.length = 64 ∨ r.value.length = 65) : validateRecord C .input r = .ok () := by
  have htype := keyType_of_key ht hkey
  have hdata := keyData_of_key ht hkey
  have hcheck : check (r.value.length = 64 || r.value.length = 65) = .ok () := by
    rw [check, if_pos (by simpa using hvalue)]
  rw [validateRecord, validateInputRecord]
  rcases hrec with ⟨rfl, rfl⟩ | ⟨rfl, hlen⟩
  · simp only [htype, hdata]
    exact hcheck
  · simp only [htype, hdata, hlen]
    exact hcheck

theorem valid_partialSig {r : Record} {pubkey : Bytes} (hkey : r.key = 0x02 :: pubkey)
    (hpubkey : isPubkey C pubkey = true) (hvalue : r.value ≠ []) :
    validateRecord C .input r = .ok () := by
  have hkey : r.key = putVarint 0x02 ++ pubkey := hkey
  have htype := keyType_of_key (by decide) hkey
  have hdata := keyData_of_key (by decide) hkey
  rw [validateRecord, validateInputRecord]
  simp only [htype, hdata]
  have hcheck : check (decide (r.value ≠ [])) = .ok () := by
    rw [check, if_pos (by simpa using hvalue)]
  have hok : (do
      checkKey (isPubkey C pubkey)
      check (r.value ≠ [])) = Except.ok () := by
    rw [checkKey, if_pos hpubkey, ok_bind]
    exact hcheck
  exact hok

theorem InputRun.exists_input (h : InputRun signer p i key items) : ∃ inp, p.input i = some inp := by
  cases h with
  | finalized input => exact ⟨_, input⟩
  | ecdsa input => exact ⟨_, input⟩
  | taproot input => exact ⟨_, input⟩

/-- What signing adds to an input is valid on its own. -/
theorem InputRun.valid (h : InputRun signer p i key items) (hread : Readable C key) :
    ∀ r ∈ signedRecords items, Framed r ∧ validateRecord C .input r = .ok () := by
  intro r hr
  obtain ⟨signed, hsigned, rfl⟩ := List.mem_map.mp hr
  cases h with
  | finalized input done none =>
    rw [none] at hsigned
    cases hsigned
  | ecdsa input resolved kind sigs =>
    rcases sigs with hnil | ⟨signed', pubkey, hone, ⟨hkey, hvalue⟩, hpubkey⟩
    · rw [hnil] at hsigned
      cases hsigned
    · rw [hone, List.mem_singleton] at hsigned
      subst hsigned
      have hkey : signed.key.bytes = putVarint 0x02 ++ pubkey := hkey
      refine ⟨framed_signed (by decide) hkey,
        valid_partialSig ((key_record _).trans hkey) ?_ hvalue⟩
      rcases hpubkey with rfl | rfl
      · exact hread.1
      · exact hread.2
  | taproot input open' resolved kind run =>
    rw [run.items_eq] at hsigned
    rcases List.mem_append.mp hsigned with hmem | hmem
    · obtain ⟨hkey, hvalue⟩ := run.keySigs signed hmem
      have hkey : signed.key.bytes = putVarint 0x13 ++ [] := hkey
      exact ⟨framed_signed (by decide) hkey,
        valid_signature (by decide) ((key_record _).trans hkey) (.inl ⟨rfl, rfl⟩) hvalue⟩
    · obtain ⟨leafHash, -, hkey, hvalue⟩ := forall₂_mem_left run.leafSigs hmem
      have hlen : ((xOnlyOf (C.toSec1Compressed key)).toList ++ leafHash.toList).length = 64 := by
        rw [List.length_append, List.Vector.toList_length, List.Vector.toList_length]
      have hkey : signed.key.bytes = putVarint 0x14 ++
          ((xOnlyOf (C.toSec1Compressed key)).toList ++ leafHash.toList) := hkey
      exact ⟨framed_signed (by decide) hkey,
        valid_signature (by decide) ((key_record _).trans hkey) (.inr ⟨rfl, hlen⟩) hvalue⟩

theorem map_key_signedRecords (items : List Signed) :
    (signedRecords items).map (·.key) = items.map (·.key.bytes) := by
  rw [signedRecords, List.map_map]
  exact List.map_congr_left fun signed _ => key_record signed

/-- The keys of what a taproot input gets differ exactly if the leaves do. -/
theorem TaprootRun.nodup_iff {inp : Map} {xOnly outputKey : ByteVec 32} {keyItems leafItems}
    {hs : List (ByteVec 32)}
    (h : TaprootRun signer p inp xOnly outputKey items keyItems leafItems hs) :
    ((signedRecords items).map (·.key)).Nodup ↔ hs.Nodup := by
  have hleaves : leafItems.map (·.key.bytes) =
      hs.map fun leafHash => 0x14 :: (xOnly.toList ++ leafHash.toList) := by
    have hsigs := h.leafSigs
    clear h
    induction hsigs with
    | nil => rfl
    | cons hsig _ ih => rw [List.map_cons, List.map_cons, hsig.1, ih]
  have hkeys : keyItems.map (·.key.bytes) = List.replicate keyItems.length [0x13] :=
    List.eq_replicate_iff.mpr ⟨List.length_map _, fun k hk => by
      obtain ⟨signed, hmem, rfl⟩ := List.mem_map.mp hk
      exact (h.keySigs signed hmem).1⟩
  have hone : keyItems.length ≤ 1 := h.keyCount.trans (Bool.toNat_le _)
  rw [map_key_signedRecords, h.items_eq, List.map_append, hkeys, hleaves, List.nodup_append]
  constructor
  · rintro ⟨-, hnodup, -⟩
    exact hnodup.of_map _
  · intro hnodup
    refine ⟨List.nodup_replicate.mpr hone, hnodup.map ?_, ?_⟩
    · intro a b hab
      exact List.Vector.toList_injective (List.append_cancel_left (List.cons_eq_cons.mp hab).2)
    · intro k hk k' hk' hsame
      obtain ⟨leafHash, -, rfl⟩ := List.mem_map.mp hk'
      rw [List.eq_of_mem_replicate hk] at hsame
      cases hsame

/-- Two of the leaves that a call with the key signs for an input have one hash. -/
def RepeatsLeaf (C : Purecrypto) (p : View) (xOnly : ByteVec 32) (i : Nat) : Prop :=
  ∃ inp outputKey, Signable C p i inp outputKey ∧ ¬(leavesOfCall C inp xOnly outputKey).Nodup

theorem utxos_of_midstate {mid : TaprootMidstate} {bytes : Bytes} (hp : parse C bytes = .ok p)
    (h : taprootMidstate C p = .ok mid) :
    ∀ j < p.inputs.length, ∃ u, p.utxo C.toHashes j = .ok u := by
  obtain ⟨doc, hdoc, -, hview⟩ := parse_eq_ok.mp hp
  have hcount : p.tx.layout.inputCount = p.inputs.length := by
    rw [hview, hdoc.inputs_view, List.length_map, hdoc.inputCount]
    rfl
  rw [taprootMidstate] at h
  cases hutxos : (List.range p.tx.layout.inputCount).mapM (p.utxo C.toHashes) with
  | error e =>
    rw [hutxos] at h
    cases h
  | ok prevouts =>
    intro j hj
    exact exists_mapM_ok_iff.mp ⟨_, hutxos⟩ j (List.mem_range.mpr (hcount ▸ hj))

/-- The records that signing adds to an input have different keys exactly where no leaf is
repeated. -/
theorem InputRun.nodup_iff (h : InputRun signer p i key items) {bytes : Bytes}
    (hp : parse C bytes = .ok p) (hsucc : signer.Succeeds) :
    ((signedRecords items).map (·.key)).Nodup ↔
      ¬RepeatsLeaf C p (xOnlyOf (C.toSec1Compressed key)) i := by
  cases h with
  | finalized input done none =>
    refine iff_of_true (by rw [none]; exact List.nodup_nil) ?_
    rintro ⟨inp', outputKey', hsignable, -⟩
    cases input.symm.trans hsignable.input
    rw [hsignable.unfinalized] at done
    cases done
  | ecdsa input resolved kind sigs =>
    refine iff_of_true ?_ ?_
    · rcases sigs with rfl | ⟨signed, pubkey, rfl, -, -⟩
      · exact List.nodup_nil
      · exact List.nodup_singleton _
    · rintro ⟨inp', outputKey', hsignable, -⟩
      obtain ⟨res', hres', hkind⟩ := hsignable.resolved
      cases resolved.symm.trans hres'
      exact kind outputKey' hkind
  | @taproot inp res outputKey keyItems leafItems hs input open' resolved kind run =>
    obtain ⟨hcount, hhs⟩ := run.all hsucc
    rw [hcount, ← leavesOfCall] at hhs
    rw [run.nodup_iff, hhs]
    constructor
    · rintro hnodup ⟨inp', outputKey', hsignable, hrepeats⟩
      cases input.symm.trans hsignable.input
      obtain ⟨res', hres', hkind⟩ := hsignable.resolved
      cases resolved.symm.trans hres'
      cases kind.symm.trans hkind
      exact hrepeats hnodup
    · intro hno
      by_contra hrepeats
      -- a repeated leaf was signed, for which the UTXOs of all inputs were known
      have hne : items ≠ [] := by
        rintro hnil
        have hsigs := run.leafSigs.length_eq
        have hleaf : leafItems = [] := (List.append_eq_nil_iff.mp (run.items_eq.symm.trans hnil)).2
        rw [hleaf, List.length_nil, List.length_eq_zero_iff] at hsigs
        rw [← hhs, hsigs] at hrepeats
        exact hrepeats List.nodup_nil
      obtain ⟨mid, hmid⟩ := run.midstate hne
      exact hno ⟨inp, outputKey, ⟨input, open', ⟨res, resolved, kind⟩, utxos_of_midstate hp hmid⟩,
        hrepeats⟩

end Items

/-! ## What is written -/

section Written

variable {C : Purecrypto} {σ : Type} {doc : Doc} {tx : UnsignedTx} {signer : PsbtSigner C σ}
  {key : SecpPublicKey C} {g : MapLoc → List Record → List Record}

/-- An edit that adds valid records to inputs. -/
structure Adds (C : Purecrypto) (doc : Doc) (g : MapLoc → List Record → List Record) : Prop where
  valid : ∀ loc recs, doc.recordsAt loc = some recs →
    ∀ r ∈ g loc recs, Framed r ∧ validateRecord C loc.kind r = .ok ()
  others : ∀ loc recs, doc.recordsAt loc = some recs → (∀ i, loc ≠ .input i) →
    g loc recs = sort Record.keyType recs

/-- The map of an input consists of the records of the document. -/
theorem Doc.Valid.exists_recordsAt (h : doc.Valid C tx) {i : Nat} {inp : Map}
    (hinput : (doc.view tx).input i = some inp) :
    ∃ recs, doc.recordsAt (.input i) = some recs ∧ inp = Map.ofRecords recs := by
  rw [View.input, h.inputs_view, List.getElem?_map, Option.map_eq_some_iff] at hinput
  obtain ⟨recs, hrecs, rfl⟩ := hinput
  exact ⟨recs, hrecs, rfl⟩

theorem Doc.Valid.edit_of_adds (h : doc.Valid C tx) (ha : Adds C doc g)
    (hnodup : ∀ i recs, doc.recordsAt (.input i) = some recs →
      ((g (.input i) recs).map (·.key)).Nodup) : (doc.edit g).Valid C tx := by
  have hglobals : g .global doc.globals = sort Record.keyType doc.globals :=
    ha.others .global doc.globals rfl fun _ => MapLoc.noConfusion
  refine Doc.valid_iff.mpr ⟨fun loc recs hrecs => ?_, ?_, h.layout, ?_, ?_⟩
  · rw [Doc.recordsAt_edit, Option.map_eq_some_iff] at hrecs
    obtain ⟨recs, hrecs, rfl⟩ := hrecs
    have hvalid := ha.valid loc recs hrecs
    refine ⟨fun r hr => (hvalid r hr).1, ?_, fun r hr => (hvalid r hr).2⟩
    cases loc with
    | input i => exact hnodup i recs hrecs
    | global =>
      rw [ha.others .global recs hrecs fun _ => MapLoc.noConfusion]
      exact ((h.recordsAt hrecs).of_perm (sort_perm recs)).nodup
    | output i =>
      rw [ha.others (.output i) recs hrecs fun _ => MapLoc.noConfusion]
      exact ((h.recordsAt hrecs).of_perm (sort_perm recs)).nodup
  · have hsorted : (doc.edit g).globals = sort Record.keyType doc.globals := hglobals
    rw [hsorted]
    exact h.lookup_sorted
  · rw [Doc.length_inputs_edit, h.inputCount]
  · rw [Doc.length_outputs_edit, h.outputCount]

theorem Doc.Valid.parse_of_adds (h : doc.Valid C tx) (ha : Adds C doc g)
    (hdup : ∃ i recs, doc.recordsAt (.input i) = some recs ∧
      ¬((g (.input i) recs).map (·.key)).Nodup) :
    parse C (doc.edit g).encode = .error .duplicateKey := by
  have hsame : doc.edit g = ⟨(doc.edit fun _ => sort Record.keyType).globals, (doc.edit g).inputs,
      (doc.edit fun _ => sort Record.keyType).outputs⟩ := by
    refine Doc.ext_recordsAt fun loc => ?_
    rw [Doc.recordsAt_edit]
    cases loc with
    | global => exact congrArg some (ha.others .global doc.globals rfl fun _ => MapLoc.noConfusion)
    | input i => exact (Doc.recordsAt_edit g (.input i)).symm
    | output i =>
      refine Eq.trans ?_ (Doc.recordsAt_edit (fun _ => sort Record.keyType) (.output i)).symm
      cases hrecs : doc.recordsAt (.output i) with
      | none => rfl
      | some recs =>
        exact congrArg some (ha.others (.output i) recs hrecs fun _ => MapLoc.noConfusion)
  rw [hsame]
  refine h.sorted.parse_repeats ?_ ?_ ?_
  · rw [Doc.length_inputs_edit, Doc.length_inputs_edit]
  · intro recs hmem
    obtain ⟨i, hi⟩ := List.mem_iff_getElem?.mp hmem
    have hin : (doc.edit g).recordsAt (.input i) = some recs := hi
    rw [Doc.recordsAt_edit, Option.map_eq_some_iff] at hin
    obtain ⟨recs, hrecs, rfl⟩ := hin
    exact ha.valid (.input i) recs hrecs
  · obtain ⟨i, recs, hrecs, hdup⟩ := hdup
    refine ⟨g (.input i) recs, List.mem_iff_getElem?.mpr ⟨i, ?_⟩, hdup⟩
    have hin : (doc.edit g).recordsAt (.input i) = some (g (.input i) recs) := by
      rw [Doc.recordsAt_edit, hrecs]
      rfl
    exact hin

theorem Doc.Valid.length_edit_signed (h : doc.Valid C tx)
    (hg : ∀ loc recs, doc.recordsAt loc = some recs →
      (encodeMap (g loc recs)).length ≤ (encodeMap recs).length + loc.signatureRoom recs) :
    (doc.edit g).encode.length ≤ (doc.view tx).signLenBound := by
  have hlen := Doc.length_edit_le doc MapLoc.signatureRoom hg
  rw [h.sum_signatureRoom] at hlen
  rw [View.signLenBound, View.len]
  exact hlen.trans_eq (by simp [MapLoc.signatureRoom, Doc.view, Nat.add_assoc])

theorem nodup_sort_put {recs news : List Record} (h : (recs.map (·.key)).Nodup) :
    ((sort Record.keyType (put recs news)).map (·.key)).Nodup ↔ (news.map (·.key)).Nodup :=
  ((sort_perm _).map _).nodup_iff.trans (nodup_put h)

theorem valid_sort_put {kind : MapKind} {recs news : List Record} (h : ValidRecords C kind recs)
    (hnews : ∀ r ∈ news, Framed r ∧ validateRecord C kind r = .ok ()) :
    ∀ r ∈ sort Record.keyType (put recs news), Framed r ∧ validateRecord C kind r = .ok () := by
  intro r hr
  rw [(sort_perm _).mem_iff, put, List.mem_append, List.mem_filter] at hr
  rcases hr with hr | hr
  · exact ⟨h.framed r hr.1, h.valid r hr.1⟩
  · exact hnews r hr

theorem valid_sort {kind : MapKind} {recs : List Record} (h : ValidRecords C kind recs) :
    ∀ r ∈ sort Record.keyType recs, Framed r ∧ validateRecord C kind r = .ok () :=
  fun r hr => ⟨(h.of_perm (sort_perm recs)).framed r hr, (h.of_perm (sort_perm recs)).valid r hr⟩

theorem adds_of_runs (h : doc.Valid C tx) (hkey : ∀ s, signer.publicKey s = key)
    (hread : Readable C key) (hg : ∀ loc recs, doc.recordsAt loc = some recs →
      MapRun signer (doc.view tx) loc recs (g loc recs)) : Adds C doc g := by
  refine ⟨fun loc recs hrecs => ?_, fun loc recs hrecs hloc => (hg loc recs hrecs).eq_sort hloc⟩
  have hvalid := h.recordsAt hrecs
  have hrun := hg loc recs hrecs
  generalize g loc recs = recs' at hrun
  cases hrun with
  | copied => exact valid_sort hvalid
  | skipped => exact valid_sort hvalid
  | signed input run =>
    subst input
    rw [hkey] at run
    exact valid_sort_put hvalid (run.valid hread)

theorem MapRun.nodup_iff {i : Nat} {recs recs' : List Record} (h : doc.Valid C tx)
    (hsucc : signer.Succeeds) (hkey : ∀ s, signer.publicKey s = key)
    (hrecs : doc.recordsAt (.input i) = some recs)
    (hrun : MapRun signer (doc.view tx) (.input i) recs recs') :
    (recs'.map (·.key)).Nodup ↔
      ¬RepeatsLeaf C (doc.view tx) (xOnlyOf (C.toSec1Compressed key)) i := by
  have hnodup := (h.recordsAt hrecs).nodup
  cases hrun with
  | copied none => exact absurd rfl (none i)
  | skipped input blocked =>
    cases input
    refine iff_of_true (((sort_perm recs).map _).nodup_iff.mpr hnodup) ?_
    rintro ⟨inp, outputKey, hsignable, -⟩
    exact hsignable.not_blocked h.parse_encode blocked
  | signed input run =>
    cases input
    rw [hkey] at run
    exact (nodup_sort_put hnodup).trans (run.nodup_iff h.parse_encode hsucc)

theorem emit_of_parse_error {cap : Nat} {bytes : Bytes} {e : Error} (hcap : bytes.length ≤ cap)
    (h : parse C bytes = .error e) : emit C cap (.ok bytes) = .error e := by
  rw [emit, ok_bind, if_neg (Nat.not_lt.mpr hcap), h]
  rfl

/-- What a signing call writes has the room it is promised. -/
theorem Doc.Valid.length_write_le (h : doc.Valid C tx) {s s' : σ × Nat} {out : Bytes}
    (hrun : ((doc.view tx).write (signMap (doc.view tx) signer)).run s = .ok (out, s')) :
    out.length ≤ (doc.view tx).signLenBound := by
  obtain ⟨g, rfl, hg⟩ := h.signed hrun
  exact h.length_edit_signed fun loc recs hrecs => (hg loc recs hrecs).1.length_le h hrecs

/-- Adding records to a map that there is puts them into the document. -/
theorem Doc.Valid.editMap_add (h : doc.Valid C tx) {loc : MapLoc} {added : List NewRecord}
    {cap : Nat} (htyped : (MapEdit.add added).Typed) (hin : (doc.recordsAt loc).isSome) :
    editMap C (doc.view tx) cap loc (.add added) =
      emit C cap (.ok (doc.put loc (added.map NewRecord.record)).encode) := by
  have hwrite := h.write_view
    (f := fun at' map => .ok (if at' = loc then writeMap map (.add added) else writeMap map .none))
    (g := fun at' recs => sort Record.keyType
      (if at' = loc then Psbt.put recs (added.map NewRecord.record) else recs)) (by
    intro at' recs hrecs
    have hframed := (h.recordsAt hrecs).framed
    split_ifs with hat
    · rw [writeMap_eq htyped, pool_add hframed]
    · rw [writeMap_eq typed_none, pool_none hframed])
  rw [editMap, h.checkLoc_view.mpr hin, ok_bind, hwrite]
  rfl

/-- Signing one input puts the signatures into it. -/
theorem Doc.Valid.adds_put (h : doc.Valid C tx) {i : Nat} {news : List Record}
    (hnews : ∀ r ∈ news, Framed r ∧ validateRecord C .input r = .ok ()) :
    Adds C doc fun loc recs => sort Record.keyType (if loc = .input i then Psbt.put recs news else recs) := by
  refine ⟨fun loc recs hrecs => ?_, fun loc recs _ hloc => by rw [if_neg (hloc i)]⟩
  have hvalid := h.recordsAt hrecs
  by_cases hat : loc = .input i
  · subst hat
    rw [if_pos rfl]
    exact valid_sort_put hvalid hnews
  · rw [if_neg hat]
    exact valid_sort hvalid

theorem Doc.Valid.sign_refused_iff (h : doc.Valid C tx) (hsucc : signer.Succeeds)
    (hkey : ∀ s, signer.publicKey s = key) (hread : Readable C key) {s s' : σ} {out : Bytes}
    {count : Nat}
    (hwrite : ((doc.view tx).write (signMap (doc.view tx) signer)).run (s, 0) =
      .ok (out, s', count)) :
    ((∀ i, ¬RepeatsLeaf C (doc.view tx) (xOnlyOf (C.toSec1Compressed key)) i) →
      signToSlice (doc.view tx) signer (doc.view tx).signLenBound s = .ok (out, count, s')) ∧
    ∀ i, RepeatsLeaf C (doc.view tx) (xOnlyOf (C.toSec1Compressed key)) i →
      signToSlice (doc.view tx) signer (doc.view tx).signLenBound s =
        .error (.error .duplicateKey) := by
  have hlen := h.length_write_le hwrite
  have hcall : signToSlice (doc.view tx) signer (doc.view tx).signLenBound s =
      (do
        let out ← orTrap (emit C (doc.view tx).signLenBound (.ok out))
        .ok (out, count, s')) := by
    rw [signToSlice, hwrite, ok_bind]
  obtain ⟨g, rfl, hg⟩ := h.signed hwrite
  have hruns : ∀ loc recs, doc.recordsAt loc = some recs →
      MapRun signer (doc.view tx) loc recs (g loc recs) :=
    fun loc recs hrecs => (hg loc recs hrecs).1
  have hadds := adds_of_runs h hkey hread hruns
  constructor
  · intro hno
    have hvalid := h.edit_of_adds hadds fun i recs hrecs =>
      ((hruns _ recs hrecs).nodup_iff h hsucc hkey hrecs).mpr (hno i)
    rw [hcall, (emit_eq_ok C).mpr ⟨rfl, hlen, _, hvalid.parse_encode⟩]
    rfl
  · rintro i ⟨inp, outputKey, hsignable, hdup⟩
    obtain ⟨recs, hrecs, -⟩ := h.exists_recordsAt hsignable.input
    have hrefused := h.parse_of_adds hadds ⟨i, recs, hrecs, fun hnodup =>
      ((hruns _ recs hrecs).nodup_iff h hsucc hkey hrecs).mp hnodup
        ⟨inp, outputKey, hsignable, hdup⟩⟩
    rw [hcall, emit_of_parse_error hlen hrefused]
    rfl

theorem Doc.Valid.length_put_signed (h : doc.Valid C tx) {i : Nat} {set : SignedSet}
    (hrun : InputRun signer (doc.view tx) i key set.items) :
    (doc.put (.input i) (signedRecords set.items)).encode.length ≤ (doc.view tx).signLenBound := by
  refine h.length_edit_signed fun loc recs hrecs => ?_
  by_cases hat : loc = .input i
  · subst hat
    rw [if_pos rfl]
    exact (length_put_le _ _).trans
      (Nat.add_le_add_left (hrun.length_le (h.input_view hrecs) set.fits) _)
  · rw [if_neg hat, length_encodeMap_sort]
    exact Nat.le_add_right _ _

theorem Doc.Valid.signInput_refused_iff (h : doc.Valid C tx) (hsucc : signer.Succeeds)
    (hkey : ∀ s, signer.publicKey s = key) (hread : Readable C key) {i : Nat} {s s' : σ}
    {set : SignedSet} (hres : signInput (doc.view tx) i signer s = (.ok set, s'))
    (hne : set.items ≠ []) :
    (¬RepeatsLeaf C (doc.view tx) (xOnlyOf (C.toSec1Compressed key)) i →
      ∃ out, signInputToSlice (doc.view tx) i signer (doc.view tx).signLenBound s = .ok out) ∧
    (RepeatsLeaf C (doc.view tx) (xOnlyOf (C.toSec1Compressed key)) i →
      signInputToSlice (doc.view tx) i signer (doc.view tx).signLenBound s =
        .error (.error .duplicateKey)) := by
  obtain ⟨s₀, hrun⟩ := (signInput_ends s).2 set (congrArg Prod.fst hres)
  rw [hkey] at hrun
  obtain ⟨inp, hinput⟩ := hrun.exists_input
  obtain ⟨recs, hrecs, -⟩ := h.exists_recordsAt hinput
  have hadds := h.adds_put (i := i) (hrun.valid hread)
  have hlen := h.length_put_signed hrun
  have hnodup : ((sort Record.keyType (Psbt.put recs (signedRecords set.items))).map (·.key)).Nodup ↔
      ¬RepeatsLeaf C (doc.view tx) (xOnlyOf (C.toSec1Compressed key)) i :=
    (nodup_sort_put (h.recordsAt hrecs).nodup).trans (hrun.nodup_iff h.parse_encode hsucc)
  have hcall : signInputToSlice (doc.view tx) i signer (doc.view tx).signLenBound s =
      orTrap (emit C (doc.view tx).signLenBound
        (.ok (doc.put (.input i) (signedRecords set.items)).encode)) := by
    unfold signInputToSlice
    rw [hres]
    dsimp only
    rw [if_neg fun hnil => hne (List.length_eq_zero_iff.mp hnil),
      h.editMap_add (typed_add_signed set) (hrecs ▸ rfl), signedRecords_eq]
  constructor
  · intro hno
    have hvalid : (doc.put (.input i) (signedRecords set.items)).Valid C tx := by
      refine h.edit_of_adds hadds fun j recs' hrecs' => ?_
      by_cases hj : MapLoc.input j = .input i
      · cases hj
        cases hrecs.symm.trans hrecs'
        rw [if_pos rfl, hnodup]
        exact hno
      · rw [if_neg hj]
        exact ((sort_perm recs').map _).nodup_iff.mpr (h.recordsAt hrecs').nodup
    have hemit := (emit_eq_ok C).mpr ⟨rfl, hlen, _, hvalid.parse_encode⟩
    exact ⟨_, hcall.trans (orTrap_eq_ok.mpr hemit)⟩
  · intro hrepeats
    rw [hcall, emit_of_parse_error hlen (h.parse_of_adds hadds ⟨i, recs, hrecs, ?_⟩)]
    · rfl
    · rw [if_pos rfl, hnodup]
      exact not_not.mpr hrepeats

end Written

/-- Signing is refused for a duplicate key exactly where a call signs two leaves with one hash
for an input; where it signs no such leaves, what it writes is accepted. -/
theorem signing_refused_iff {C : Purecrypto} {bytes : Bytes} {p : View}
    (hp : parse C bytes = .ok p) {σ : Type} {signer : PsbtSigner C σ} (hsucc : signer.Succeeds)
    {key : SecpPublicKey C} (hkey : ∀ s, signer.publicKey s = key) (hread : Readable C key) :
    (∀ s out s' count, (p.write (signMap p signer)).run (s, 0) = .ok (out, s', count) →
      ((∀ i, ¬RepeatsLeaf C p (xOnlyOf (C.toSec1Compressed key)) i) →
        signToSlice p signer p.signLenBound s = .ok (out, count, s')) ∧
      ∀ i, RepeatsLeaf C p (xOnlyOf (C.toSec1Compressed key)) i →
        signToSlice p signer p.signLenBound s = .error (.error .duplicateKey)) ∧
    ∀ i s set s', signInput p i signer s = (.ok set, s') → set.items ≠ [] →
      (¬RepeatsLeaf C p (xOnlyOf (C.toSec1Compressed key)) i →
        ∃ out, signInputToSlice p i signer p.signLenBound s = .ok out) ∧
      (RepeatsLeaf C p (xOnlyOf (C.toSec1Compressed key)) i →
        signInputToSlice p i signer p.signLenBound s = .error (.error .duplicateKey)) := by
  obtain ⟨doc, hd, -, hview⟩ := parse_eq_ok.mp hp
  generalize p.tx = tx at hd hview
  subst hview
  constructor
  · intro s out s' count hwrite
    exact hd.sign_refused_iff hsucc hkey hread hwrite
  · intro i s set s' hres hne
    exact hd.signInput_refused_iff hsucc hkey hread hres hne

/-! ## A tree with one script in two leaves -/

section Sample

/-- The leaf with the script again, next to another leaf. -/
def innerBranch : ByteVec 32 :=
  beVec 32 0xf1289b9c75fa091611e01a905f7a1e87caf7a65a9c9189a2b297bb63450058f1
def repeatRoot : ByteVec 32 :=
  beVec 32 0xb2bf0a4c16c542766877d2f932c0ef78490422e3efcac148910d50746c0f1433
def repeatTweak : ByteVec 32 :=
  beVec 32 0x3ea5b18bc116b82ce7e68dc65477c4d778a0ea2d4bcaf69f2665e4dc495a8587

/-- The multiple of the generator by the tweak. -/
def repeatTweakPoint : ByteVec 32 × ByteVec 32 :=
  (beVec 32 0xe1bb1a43d1db7c853b0d28ddb3cbc2f4dded202c499aa74c74a03c12db222765,
    beVec 32 0x31f3e6ab5fcb069f9cbb87a44c201e0adda67dbf5c9f61d4b2a439f3871cb5cd)

/-- The sum of it and the generator. -/
def repeatOutputPoint : ByteVec 32 × ByteVec 32 :=
  (beVec 32 0xa2e0f830fa0c12b182a988dcc6c44060cbbd2499a1f8f1ea645a8a43fb69c644,
    beVec 32 0x8945520a49e1bc92b4d79cb48923a0c3fa1f4cb2751c384f4626f6f271c12c57)

/-- What the package computes for the control blocks of the two leaves. -/
def repeatCrypto : Purecrypto :=
  { Purecrypto.blank with
    sha256 := fun data =>
      if data = Hashes.tagBytes "TapLeaf" then leafTag
      else if data = Hashes.tagBytes "TapBranch" then branchTag
      else if data = Hashes.tagBytes "TapTweak" then tweakTag
      else if data = leafTag.toList ++ (leafTag.toList ++ (0xc0 :: 34 :: leafScript)) then
        leafScriptHash
      else if data = branchTag.toList ++ (branchTag.toList ++
        (leafScriptHash.toList ++ firstLeaf.toList)) then innerBranch
      else if data = branchTag.toList ++ (branchTag.toList ++
        (leafScriptHash.toList ++ innerBranch.toList)) then repeatRoot
      else if data = tweakTag.toList ++ (tweakTag.toList ++
        (pointG.1.toList ++ repeatRoot.toList)) then repeatTweak
      else List.Vector.replicate 32 0
    fromSec1 := fun data =>
      if data = 0x02 :: pointG.1.toList ∨ data = 0x04 :: (pointG.1.toList ++ pointG.2.toList) then
        some pointG else none
    scalarFromBytesBe := fun data => if data = repeatTweak then some data else none
    mulGenerator := fun (scalar : ByteVec 32) =>
      if scalar = repeatTweak then some repeatTweakPoint else none
    add := fun (a b : Option (ByteVec 32 × ByteVec 32)) =>
      if a = some pointG ∧ b = some repeatTweakPoint then some repeatOutputPoint else none }

/-- A signer with the generator as its key. -/
def repeatSigner : PsbtSigner repeatCrypto Unit where
  publicKey _ := pointG
  signEcdsa _ s := (some (derEncode (List.Vector.replicate 32 3) (List.Vector.replicate 32 4)), s)
  signTaprootWithRoot _ _ s := (some (List.Vector.replicate 64 5), s)
  signSchnorr _ s := (some (List.Vector.replicate 64 6), s)

/-- An input with a control block for each of the two leaves. -/
def repeatInput : List Record :=
  [⟨[0x01], le 8 5000 ++ (34 :: 0x51 :: 0x20 :: repeatOutputPoint.1.toList)⟩,
    ⟨0x15 :: 0xc1 :: (pointG.1.toList ++ innerBranch.toList), leafScript ++ [0xc0]⟩,
    ⟨0x15 :: 0xc1 :: (pointG.1.toList ++ (firstLeaf.toList ++ leafScriptHash.toList)),
      leafScript ++ [0xc0]⟩]

/-- The two leaves are signed under one key. -/
theorem signing_refused_sample :
    ∃ p, parse repeatCrypto (sampleDoc repeatInput []).encode = .ok p ∧
      signToSlice p repeatSigner p.signLenBound () = .error (.error .duplicateKey) := by
  have hread : Readable repeatCrypto pointG := ⟨by decide, by decide⟩
  obtain ⟨r, hr⟩ : ∃ r, (do
      let p ← orTrap (parse repeatCrypto (sampleDoc repeatInput []).encode)
      let inp ← orTrap (okOr (p.input 0) .inputIndex)
      let res ← orTrap (resolve repeatCrypto p 0)
      let u ← orTrap (p.utxo repeatCrypto.toHashes 0)
      let w ← (p.write (signMap p repeatSigner)).run ((), 0)
      if p.inputs.length = 1 ∧ PsbtInput.isFinalized inp = false ∧
        res.kind = .p2tr repeatOutputPoint.1 ∧
        leavesOfCall repeatCrypto inp pointG.1 repeatOutputPoint.1 =
          [leafScriptHash, leafScriptHash] then
          .ok (p, inp, res, u, w) else .error .panic : Except Trap _) = .ok r :=
    exists_ok_of_isOk (by decide +kernel)
  obtain ⟨p, hp, hr⟩ := bind_eq_ok.mp hr
  obtain ⟨inp, hinp, hr⟩ := bind_eq_ok.mp hr
  obtain ⟨res, hres, hr⟩ := bind_eq_ok.mp hr
  obtain ⟨u, hu, hr⟩ := bind_eq_ok.mp hr
  obtain ⟨⟨out, ⟨⟩, count⟩, hwrite, hr⟩ := bind_eq_ok.mp hr
  split_ifs at hr with hall
  obtain ⟨hlen, hopen, hkind, hleaves⟩ := hall
  have hsign : Signable repeatCrypto p 0 inp repeatOutputPoint.1 :=
    ⟨okOr_eq_ok.mp (orTrap_eq_ok.mp hinp), hopen, ⟨res, orTrap_eq_ok.mp hres, hkind⟩, fun j hj => by
      obtain rfl : j = 0 := by omega
      exact ⟨u, orTrap_eq_ok.mp hu⟩⟩
  have hxOnly : xOnlyOf (repeatCrypto.toSec1Compressed pointG) = pointG.1 := by decide
  have hrepeats : RepeatsLeaf repeatCrypto p (xOnlyOf (repeatCrypto.toSec1Compressed pointG)) 0 := by
    rw [hxOnly]
    refine ⟨inp, repeatOutputPoint.1, hsign, ?_⟩
    rw [hleaves]
    decide
  have hsucc : repeatSigner.Succeeds := ⟨fun _ _ => rfl, fun _ _ _ => rfl, fun _ _ => rfl⟩
  have hp := orTrap_eq_ok.mp hp
  have hcall := signing_refused_iff hp hsucc (fun _ => rfl) hread
  exact ⟨p, hp, (hcall.1 () out () count hwrite).2 0 hrepeats⟩

end Sample

end Outscript.Psbt
