import Outscript.Psbt.Satisfy
import Outscript.Psbt.WriteRun

/-!
# What finalizing changes

Finalizing rewrites the inputs that it has witnesses for, and copies the rest.
No stack is overrun on the way, and doing it again changes nothing.
-/
namespace Outscript.Psbt

open ByteString Cursor Fallible StableSort StateLoop

/-! ## Building a final input -/

theorem exists_satisfy (H : Hashes) (inp : Map) {t : Template}
    (ht : ∀ m keys, t = .multi m keys → MultisigBounds m keys) :
    ∃ r, satisfy H inp t = .ok r ∧ ∀ st ∈ r, 1 ≤ st.items.length ∧ st.items.length ≤ 17 := by
  cases t with
  | pkh hash =>
    rw [satisfy]
    cases (PsbtInput.partialSigs inp).find? fun s => decide (H.hash160 s.1 = hash) with
    | none => exact ⟨none, rfl, by rintro _ ⟨⟩⟩
    | some s =>
      obtain ⟨pk, sig⟩ := s
      obtain ⟨st₁, h₁, hst₁⟩ := Stack.exists_push (show Stack.empty.items.length < 20 by decide) sig
      obtain ⟨st₂, h₂, hst₂⟩ := Stack.exists_push (show st₁.items.length < 20 by rw [hst₁]; simp [Stack.empty]) pk
      refine ⟨some st₂, by dsimp only; rw [h₁, ok_bind, h₂]; rfl, ?_⟩
      rintro _ ⟨⟩
      rw [hst₂, hst₁]
      simp [Stack.empty]
  | pk key =>
    rw [satisfy]
    cases PsbtInput.partialSig inp key with
    | none => exact ⟨none, rfl, by rintro _ ⟨⟩⟩
    | some sig =>
      obtain ⟨st₁, h₁, hst₁⟩ := Stack.exists_push (show Stack.empty.items.length < 20 by decide) sig
      refine ⟨some st₁, by dsimp only; rw [h₁]; rfl, ?_⟩
      rintro _ ⟨⟩
      rw [hst₁]
      simp [Stack.empty]
  | multi m keys =>
    have hb := ht m keys rfl
    obtain ⟨r, hr, -, hst⟩ := multisigStack_satisfy H inp hb
    refine ⟨r, hr, fun st h => ?_⟩
    obtain ⟨sigs, hitems, hlen, -⟩ := hst st h
    have hm := hb.le.trans hb.fits
    rw [hitems, List.length_cons, hlen]
    omega

theorem exists_satisfyScript (C : Purecrypto) (inp : Map) (script : Bytes) :
    ∃ r, satisfyScript C inp script = .ok r ∧
      ∀ st ∈ r, 1 ≤ st.items.length ∧ st.items.length ≤ 17 := by
  obtain ⟨t, ht, hbounds⟩ := exists_template script
  rw [satisfyScript, ht, ok_bind]
  cases t with
  | none => exact ⟨none, rfl, fun _ h => nomatch h⟩
  | some t => exact exists_satisfy C.toHashes inp fun m keys hmulti => hbounds m keys (by rw [hmulti])

theorem exists_tapScriptWitness (C : Purecrypto) (inp : Map) (outputKey : ByteVec 32) :
    ∃ r, tapScriptWitness C inp outputKey = .ok r ∧ ∀ st ∈ r, 1 ≤ st.items.length := by
  obtain ⟨r, hr, -, hst⟩ := @exists_tapLeafLoop C inp outputKey
    (PsbtInput.tapLeafScripts inp) none
  refine ⟨r, hr, fun st h => ?_⟩
  rcases hst st h with ⟨len, hnone⟩ | ⟨leaf, -, m, keys, leafHash, -, hitems⟩
  · cases hnone
  · rw [hitems, leafWitness, List.length_append]
    exact Nat.le_add_left_of_le (Nat.succ_le_succ (Nat.zero_le 1))

/-- A final input has a scriptSig or a witness. -/
def Final.NonEmpty (fin : Final) : Prop :=
  fin.scriptSig.isEmpty = false ∨ fin.witness.items ≠ []

theorem nonEmpty_of_items {st : Stack} (redeem : Option Bytes) (w : Stack)
    (h : 1 ≤ st.items.length) : Final.NonEmpty ⟨⟨st, redeem⟩, w⟩ := by
  refine Or.inl ?_
  rw [ScriptSigValue.isEmpty, decide_eq_false (Nat.ne_of_gt h), Bool.false_and]

theorem nonEmpty_of_witness {st : Stack} (v : ScriptSigValue) (h : 1 ≤ st.items.length) :
    Final.NonEmpty ⟨v, st⟩ :=
  Or.inr (List.ne_nil_of_length_pos h)

/-- Building never overruns a stack, and gives something where it gives a result. -/
theorem buildFinal_cases (C : Purecrypto) (p : View) (i : Nat) :
    (∃ e, buildFinal C p i = .error (.error e)) ∨
      ∃ r, buildFinal C p i = .ok r ∧ ∀ fin ∈ r, fin.NonEmpty := by
  rw [buildFinal]
  cases p.input i with
  | none => exact Or.inl ⟨_, rfl⟩
  | some inp =>
  cases hres : resolve C p i with
  | error e => exact Or.inl ⟨e, rfl⟩
  | ok res =>
  refine Or.inr ?_
  simp only [okOr_some, orTrap_ok, ok_bind]
  cases res.kind with
  | legacy script =>
    obtain ⟨r, hr, hst⟩ := exists_satisfyScript C inp script
    simp only [hr, ok_bind]
    cases r with
    | none => exact ⟨none, rfl, fun _ h => nomatch h⟩
    | some st => exact ⟨_, rfl, by rintro _ ⟨⟩; exact nonEmpty_of_items _ _ (hst st rfl).1⟩
  | p2wpkh hash =>
    obtain ⟨r, hr, hst⟩ := exists_satisfy C.toHashes inp (t := .pkh hash) (fun _ _ h => nomatch h)
    simp only [hr, ok_bind]
    cases r with
    | none => exact ⟨none, rfl, fun _ h => nomatch h⟩
    | some st => exact ⟨_, rfl, by rintro _ ⟨⟩; exact nonEmpty_of_witness _ (hst st rfl).1⟩
  | p2wsh ws =>
    obtain ⟨r, hr, hst⟩ := exists_satisfyScript C inp ws
    simp only [hr, ok_bind]
    cases r with
    | none => exact ⟨none, rfl, fun _ h => nomatch h⟩
    | some st =>
      have hbounds := hst st rfl
      obtain ⟨st', hpush, hst'⟩ := Stack.exists_push (show st.items.length < 20 by omega) ws
      have hlen : 1 ≤ st'.items.length := by
        rw [hst', List.length_append]
        exact Nat.le_add_right_of_le hbounds.1
      refine ⟨_, by simp only [hpush, ok_bind]; rfl, ?_⟩
      rintro _ ⟨⟩
      exact nonEmpty_of_witness _ hlen
  | p2tr outputKey =>
    cases PsbtInput.tapKeySig inp with
    | some sig =>
      obtain ⟨st, hpush, hst⟩ := Stack.exists_push (show Stack.empty.items.length < 20 by decide) sig
      refine ⟨_, by simp only [hpush, ok_bind]; rfl, ?_⟩
      rintro _ ⟨⟩
      exact nonEmpty_of_witness _ (by rw [hst]; exact le_rfl)
    | none =>
      obtain ⟨r, hr, hst⟩ := exists_tapScriptWitness C inp outputKey
      simp only [hr, ok_bind]
      cases r with
      | none => exact ⟨none, rfl, fun _ h => nomatch h⟩
      | some st => exact ⟨_, rfl, by rintro _ ⟨⟩; exact nonEmpty_of_witness _ (hst st rfl)⟩

/-! ## Maps that are alike -/

section Alike

variable {C : Purecrypto} {p q : View} {i : Nat} {m m' : Map}

theorem partialSigs_congr (h : m.Alike m') : PsbtInput.partialSigs m' = PsbtInput.partialSigs m := by
  rw [PsbtInput.partialSigs, h, PsbtInput.partialSigs]

theorem partialSig_congr (h : m.Alike m') : PsbtInput.partialSig m' = PsbtInput.partialSig m := by
  funext key
  rw [PsbtInput.partialSig, partialSigs_congr h, PsbtInput.partialSig]

theorem satisfy_congr (H : Hashes) (h : m.Alike m') (t : Template) :
    satisfy H m' t = satisfy H m t := by
  cases t with
  | pkh hash => rw [satisfy, satisfy, partialSigs_congr h]
  | pk key => rw [satisfy, satisfy, partialSig_congr h]
  | multi k keys =>
    rw [satisfy, satisfy]
    simp only [pushSigs_congr (partialSig_congr h)]

theorem satisfyScript_congr (h : m.Alike m') (script : Bytes) :
    satisfyScript C m' script = satisfyScript C m script := by
  rw [satisfyScript, satisfyScript]
  simp only [satisfy_congr C.toHashes h]

theorem tapScriptWitness_congr (h : m.Alike m') (outputKey : ByteVec 32) :
    tapScriptWitness C m' outputKey = tapScriptWitness C m outputKey := by
  have hleaves : PsbtInput.tapLeafScripts m' = PsbtInput.tapLeafScripts m := by
    rw [PsbtInput.tapLeafScripts, h, PsbtInput.tapLeafScripts]
  have hsigs : leafSig m' = leafSig m := by
    funext leafHash key
    rw [leafSig, PsbtInput.tapScriptSigs, h, leafSig, PsbtInput.tapScriptSigs]
  rw [tapScriptWitness, hleaves, tapLeafLoop_congr hsigs, tapScriptWitness]

theorem isFinalized_congr (h : m.Alike m') :
    PsbtInput.isFinalized m' = PsbtInput.isFinalized m := by
  simp only [PsbtInput.isFinalized, PsbtInput.finalScriptSig, PsbtInput.finalScriptWitness,
    h.getType]

/-- Alike inputs of one transaction are finalized alike. -/
theorem buildFinal_congr (htx : q.tx = p.tx) (hp : p.input i = some m) (hq : q.input i = some m')
    (h : m.Alike m') : buildFinal C q i = buildFinal C p i := by
  have hkey : PsbtInput.tapKeySig m' = PsbtInput.tapKeySig m := h.getType _
  rw [buildFinal, buildFinal, hp, hq, resolve_congr htx hp hq h.unsigned]
  simp only [okOr_some, orTrap_ok, ok_bind, satisfyScript_congr h, satisfy_congr _ h, hkey,
    tapScriptWitness_congr h]

end Alike

/-! ## The records of a final input -/

/-- The records of a rewritten map. -/
def finalRecords (recs : List Record) (fin : Option Final) : List Record :=
  sort Record.keyType <| fin.elim recs fun fin =>
    recs.filter keptFinal ++ fin.added.map NewRecord.record

theorem key_added {fin : Final} {a : NewRecord} (h : a ∈ fin.added) :
    (a.key = [0x07] ∨ a.key = [0x08]) ∧ a.keyTail = [] := by
  rw [Final.added] at h
  split at h <;> simp only [List.mem_cons, List.not_mem_nil, or_false] at h
  · rcases h with rfl | rfl
    · exact ⟨Or.inl rfl, rfl⟩
    · exact ⟨Or.inr rfl, rfl⟩
  · rw [h]
    exact ⟨Or.inl rfl, rfl⟩
  · rw [h]
    exact ⟨Or.inr rfl, rfl⟩

theorem record_added {fin : Final} {r : Record} (h : r ∈ fin.added.map NewRecord.record) :
    r.key = [0x07] ∨ r.key = [0x08] := by
  obtain ⟨a, ha, rfl⟩ := List.mem_map.mp h
  obtain ⟨hkey, htail⟩ := key_added ha
  rw [NewRecord.record, htail, List.append_nil]
  exact hkey

theorem not_keptFinal {r : Record} (h : r.key = [0x07] ∨ r.key = [0x08]) : keptFinal r = false := by
  have ht : r.keyType = 7 ∨ r.keyType = 8 := by
    rw [Record.keyType]
    rcases h with h | h
    · rw [h]
      exact Or.inl (by decide)
    · rw [h]
      exact Or.inr (by decide)
  rw [keptFinal, decide_eq_true (by omega)]
  rfl

theorem keptFinal_iff (r : Record) :
    keptFinal r = true ↔ r.keyType = 0x00 ∨ r.keyType = 0x01 ∨ 0x18 < r.keyType := by
  rw [keptFinal, Bool.not_eq_true', decide_eq_false_iff_not]
  omega

theorem Final.NonEmpty.added_ne {fin : Final} (h : fin.NonEmpty) : fin.added ≠ [] := by
  rw [Final.added]
  rcases h with h | h
  · rw [h]
    cases decide (fin.witness.items.length = 0) <;> exact List.cons_ne_nil _ _
  · rw [decide_eq_false (mt List.length_eq_zero_iff.mp h)]
    cases fin.scriptSig.isEmpty <;> exact List.cons_ne_nil _ _

theorem nodup_added (fin : Final) : ((fin.added.map NewRecord.record).map (·.key)).Nodup := by
  rw [Final.added]
  split <;> simp [NewRecord.record, Input.finalScriptsig, Input.finalScriptwitness]

theorem writeMap_final {recs : List Record} (h : ∀ r ∈ recs, Framed r) (fin : Option Final) :
    writeMap (Map.ofRecords recs) (fin.elim .none Final.edit) = encodeMap (finalRecords recs fin) := by
  cases fin with
  | none => rw [Option.elim_none, writeMap_eq typed_none, pool_none h]; rfl
  | some fin =>
    have htyped : fin.edit.Typed := by
      intro a ha
      rw [NewRecord.keyType, NewRecord.record, (key_added ha).2, List.append_nil]
      rfl
    have hkeep : (recs.filter fun r => keptFinal r && !fin.edit.isAdded r.key) =
        recs.filter keptFinal := by
      refine List.filter_congr fun r hr => ?_
      cases hadded : fin.edit.isAdded r.key with
      | false => rw [Bool.not_false, Bool.and_true]
      | true =>
        obtain ⟨a, ha, hkey⟩ := List.mem_map.mp (MapEdit.isAdded_iff.mp hadded)
        have hr := record_added (List.mem_map_of_mem (f := NewRecord.record) ha)
        rw [hkey] at hr
        rw [not_keptFinal hr, Bool.false_and]
    have hpool : fin.edit.pool (Map.ofRecords recs) =
        recs.filter keptFinal ++ fin.added.map NewRecord.record := by
      rw [← hkeep, MapEdit.pool, MapEdit.primary, MapEdit.merged, Map.records_ofRecords h]
      rfl
    rw [Option.elim_some, writeMap_eq htyped, hpool]
    rfl

/-! ## The finalized document -/

/-- What is built for a map where nothing fails. -/
def Doc.finalAt (C : Purecrypto) (doc : Doc) (tx : UnsignedTx) (loc : MapLoc)
    (recs : List Record) : Option Final :=
  match finalOf C (doc.view tx) loc (Map.ofRecords recs) with
  | .ok fin => fin
  | .error _ => none

theorem Doc.finalOf_of_finalAt {C : Purecrypto} {doc : Doc} {tx : UnsignedTx} {loc : MapLoc}
    {recs : List Record} {fin : Final} (h : doc.finalAt C tx loc recs = some fin) :
    finalOf C (doc.view tx) loc (Map.ofRecords recs) = .ok (some fin) := by
  rw [Doc.finalAt] at h
  cases hof : finalOf C (doc.view tx) loc (Map.ofRecords recs) with
  | error e =>
    rw [hof] at h
    cases h
  | ok r =>
    rw [hof] at h
    rw [← h]

/-- The document with every input finalized that can be. -/
def Doc.finalize (C : Purecrypto) (doc : Doc) (tx : UnsignedTx) : Doc :=
  doc.edit fun loc recs => finalRecords recs (doc.finalAt C tx loc recs)

theorem Doc.recordsAt_finalize {C : Purecrypto} (doc : Doc) (tx : UnsignedTx) (loc : MapLoc) :
    (doc.finalize C tx).recordsAt loc =
      (doc.recordsAt loc).map fun recs => finalRecords recs (doc.finalAt C tx loc recs) :=
  Doc.recordsAt_edit _ _

theorem finalizeMap_eq_ok {C : Purecrypto} {p : View} {loc : MapLoc} {map : Map} {s s' : Nat}
    {b : Bytes} :
    (finalizeMap C p loc map).run s = .ok (b, s') ↔ ∃ fin, finalOf C p loc map = .ok fin ∧
      b = writeMap map (fin.elim .none Final.edit) ∧ s' = s + fin.isSome.toNat := by
  unfold finalizeMap StateT.run
  cases finalOf C p loc map with
  | error e => simp
  | ok fin => cases fin <;> simp [eq_comm]

theorem finalizeMap_eq_error {C : Purecrypto} {p : View} {loc : MapLoc} {map : Map} {s : Nat}
    {e : Trap} :
    (finalizeMap C p loc map).run s = .error e ↔ finalOf C p loc map = .error e := by
  unfold finalizeMap StateT.run
  cases finalOf C p loc map with
  | error e => simp
  | ok fin => cases fin <;> simp

theorem finalOf_ne_panic (C : Purecrypto) (p : View) (loc : MapLoc) (map : Map) :
    finalOf C p loc map ≠ .error .panic := by
  cases loc with
  | input i =>
    rw [finalOf]
    rcases buildFinal_cases C p i with ⟨e, he⟩ | ⟨r, hr, -⟩
    · rw [he]
      dsimp only
      split_ifs <;> exact fun h => nomatch h
    · rw [hr]
      dsimp only
      split_ifs <;> exact fun h => nomatch h
  | _ => exact fun h => nomatch h

theorem finalOf_nonEmpty {C : Purecrypto} {p : View} {loc : MapLoc} {map : Map} {fin : Final}
    (h : finalOf C p loc map = .ok (some fin)) :
    ∃ i, loc = .input i ∧ PsbtInput.isFinalized map = false ∧ fin.NonEmpty := by
  cases loc with
  | input i =>
    rw [finalOf] at h
    cases hdone : PsbtInput.isFinalized map with
    | true =>
      rw [hdone, if_pos rfl] at h
      cases h
    | false =>
      rw [hdone, if_neg Bool.false_ne_true] at h
      refine ⟨i, rfl, rfl, ?_⟩
      rcases buildFinal_cases C p i with ⟨e, he⟩ | ⟨r, hr, hne⟩
      · rw [he] at h
        dsimp only at h
        split_ifs at h
        cases h
      · rw [hr] at h
        cases h
        exact hne fin rfl
  | _ => cases h

theorem writeFinalized_ne_panic (C : Purecrypto) (p : View) :
    writeFinalized C p ≠ .error .panic := by
  intro h
  rw [writeFinalized, View.write, StateT.run_bind] at h
  rcases bind_eq_error.mp h with h | ⟨gs, -, h⟩
  · exact finalOf_ne_panic _ _ _ _ (finalizeMap_eq_error.mp h)
  · rw [StateT.run_bind] at h
    rcases bind_eq_error.mp h with h | ⟨_, -, h⟩
    · obtain ⟨lm, -, s, hlm⟩ := exists_of_run_mapM_eq_error h
      exact finalOf_ne_panic _ _ _ _ (finalizeMap_eq_error.mp hlm)
    · cases h

section Correct

variable {C : Purecrypto} {doc : Doc} {tx : UnsignedTx} (h : doc.Valid C tx)

include h

theorem Doc.Valid.finalizeMap_view {loc : MapLoc} {recs : List Record}
    (hrecs : doc.recordsAt loc = some recs) (s : Nat) (b : Bytes) (s' : Nat) :
    (finalizeMap C (doc.view tx) loc (Map.ofRecords recs)).run s = .ok (b, s') ↔
      (∃ fin, finalOf C (doc.view tx) loc (Map.ofRecords recs) = .ok fin) ∧
        b = encodeMap (finalRecords recs (doc.finalAt C tx loc recs)) ∧
        s' = s + (doc.finalAt C tx loc recs).isSome.toNat := by
  have hwrite := writeMap_final (h.recordsAt hrecs).framed
  rw [finalizeMap_eq_ok]
  constructor
  · rintro ⟨fin, hfin, rfl, rfl⟩
    have hat : doc.finalAt C tx loc recs = fin := by rw [Doc.finalAt, hfin]
    rw [hat, hwrite]
    exact ⟨⟨fin, hfin⟩, rfl, rfl⟩
  · rintro ⟨⟨fin, hfin⟩, rfl, rfl⟩
    have hat : doc.finalAt C tx loc recs = fin := by rw [Doc.finalAt, hfin]
    rw [hat]
    exact ⟨fin, hfin, (hwrite fin).symm, rfl⟩

/-- Finalizing writes the finalized document, and counts what it built. -/
theorem Doc.Valid.writeFinalized_eq_ok {bytes : Bytes} {c : Nat} :
    writeFinalized C (doc.view tx) = .ok (bytes, c) ↔
      (∀ loc recs, doc.recordsAt loc = some recs →
        ∃ fin, finalOf C (doc.view tx) loc (Map.ofRecords recs) = .ok fin) ∧
      bytes = (doc.finalize C tx).encode ∧
      c = doc.located.countP fun lr => (doc.finalAt C tx lr.1 lr.2).isSome := by
  have hglobal (s : Nat) (b : Bytes) (s' : Nat) :=
    h.finalizeMap_view (show doc.recordsAt .global = some doc.globals from rfl) s b s'
  have hmaps (s : Nat) (bs : List Bytes) (s' : Nat) :
      ((doc.view tx).located.mapM fun lm => finalizeMap C (doc.view tx) lm.1 lm.2).run s =
        .ok (bs, s') ↔
      (∀ lr ∈ doc.located, ∃ fin, finalOf C (doc.view tx) lr.1 (Map.ofRecords lr.2) = .ok fin) ∧
        bs = doc.located.map (fun lr => encodeMap (finalRecords lr.2 (doc.finalAt C tx lr.1 lr.2))) ∧
        s' = s + doc.located.countP fun lr => (doc.finalAt C tx lr.1 lr.2).isSome := by
    rw [h.located_view, List.mapM_map]
    exact run_mapM_eq_ok_map fun lr hlr => h.finalizeMap_view (Doc.recordsAt_of_mem_located hlr)
  have hbytes : (doc.finalize C tx).encode = magic ++
      (encodeMap (finalRecords doc.globals (doc.finalAt C tx .global doc.globals)) ++
        (doc.located.map fun lr =>
          encodeMap (finalRecords lr.2 (doc.finalAt C tx lr.1 lr.2))).flatten) := by
    have hcomp : (doc.located.map fun lr =>
          encodeMap (finalRecords lr.2 (doc.finalAt C tx lr.1 lr.2))) =
        (doc.located.map fun lr => finalRecords lr.2 (doc.finalAt C tx lr.1 lr.2)).map encodeMap := by
      rw [List.map_map]
      rfl
    rw [hcomp, Doc.map_located (fun loc recs => finalRecords recs (doc.finalAt C tx loc recs)),
      ← List.flatMap_def]
    rfl
  rw [Doc.forall_recordsAt, hbytes, writeFinalized, View.write, StateT.run_bind, bind_eq_ok]
  constructor
  · rintro ⟨⟨gs, s₁⟩, hgs, hrest⟩
    rw [StateT.run_bind] at hrest
    obtain ⟨⟨bs, s₂⟩, hbs, hrest⟩ := bind_eq_ok.mp hrest
    cases hrest
    obtain ⟨hok, rfl, rfl⟩ := (hglobal _ _ _).mp hgs
    obtain ⟨hoks, rfl, rfl⟩ := (hmaps _ _ _).mp hbs
    exact ⟨⟨hok, hoks⟩, rfl, Nat.zero_add _⟩
  · rintro ⟨⟨hok, hoks⟩, rfl, rfl⟩
    refine ⟨_, (hglobal _ _ _).mpr ⟨hok, rfl, rfl⟩, ?_⟩
    rw [StateT.run_bind]
    refine bind_eq_ok.mpr ⟨_, (hmaps _ _ _).mpr ⟨hoks, rfl, rfl⟩, ?_⟩
    -- nothing is built for the global map
    have hzero : (doc.finalAt C tx .global doc.globals).isSome.toNat = 0 := rfl
    simp only [hzero, Nat.zero_add]
    rfl

end Correct

theorem isFinalized_ofRecords {recs : List Record} (hf : ∀ r ∈ recs, Framed r) {r : Record}
    (hr : r ∈ recs) (hkey : r.key = [0x07] ∨ r.key = [0x08]) :
    PsbtInput.isFinalized (Map.ofRecords recs) = true := by
  have hsome {t : Nat} (ht : t < 2 ^ 64) (hmem : putVarint t ∈ recs.map (·.key)) :
      ((Map.ofRecords recs).getType t).isSome = true := by
    rw [getType_ofRecords hf ht, Option.isSome_iff_ne_none, Ne, lookup_eq_none, not_not]
    exact hmem
  rw [PsbtInput.isFinalized, Bool.or_eq_true]
  refine hkey.imp (fun h => ?_) fun h => ?_
  · exact hsome (t := Input.finalScriptsig) (by decide) (List.mem_map.mpr ⟨r, hr, h⟩)
  · exact hsome (t := Input.finalScriptwitness) (by decide) (List.mem_map.mpr ⟨r, hr, h⟩)

theorem finalOf_congr {C : Purecrypto} {p q : View} {loc : MapLoc} {m m' : Map}
    (htx : q.tx = p.tx) (hp : p.mapAt loc = some m) (hq : q.mapAt loc = some m')
    (h : m.Alike m') : finalOf C q loc m' = finalOf C p loc m := by
  cases loc with
  | input i => rw [finalOf, finalOf, isFinalized_congr h, buildFinal_congr htx hp hq h]
  | _ => rfl

theorem finalizeToSlice_eq_ok {C : Purecrypto} {p : View} {cap c : Nat} {out : Bytes} :
    finalizeToSlice C p cap = .ok (out, c) ↔
      writeFinalized C p = .ok (out, c) ∧ out.length ≤ cap ∧ ∃ q, parse C out = .ok q := by
  rw [finalizeToSlice, bind_eq_ok]
  constructor
  · rintro ⟨⟨bytes, count⟩, hwrite, hrest⟩
    obtain ⟨out', hemit, hrest⟩ := bind_eq_ok.mp hrest
    cases hrest
    obtain ⟨hbytes, hout⟩ := (emit_eq_ok C).mp (orTrap_eq_ok.mp hemit)
    cases hbytes
    exact ⟨hwrite, hout⟩
  · rintro ⟨hwrite, hout⟩
    exact ⟨_, hwrite, bind_eq_ok.mpr
      ⟨out, orTrap_eq_ok.mpr ((emit_eq_ok C).mpr ⟨rfl, hout⟩), rfl⟩⟩

/-- The bytes that finalizing writes are those of a valid document. -/
theorem Doc.Valid.finalize {C : Purecrypto} {doc : Doc} {tx : UnsignedTx} {q : View}
    (h : doc.Valid C tx) (hlen : (doc.finalize C tx).encode.length < 2 ^ 64)
    (hq : parse C (doc.finalize C tx).encode = .ok q) :
    (doc.finalize C tx).Valid C tx ∧ q = (doc.finalize C tx).view tx := by
  refine h.parse_edit rfl (fun loc recs hrecs r hr => ?_) hq
  have hold : ∀ r ∈ recs, Sized r := fun r hr => ((h.recordsAt hrecs).framed r hr).sized
  have hin : (doc.finalize C tx).recordsAt loc =
      some (finalRecords recs (doc.finalAt C tx loc recs)) := by
    rw [Doc.recordsAt_finalize, hrecs, Option.map_some]
  have hvalue := (Doc.length_value_le hin hr).trans_lt hlen
  rw [finalRecords, (sort_perm _).mem_iff] at hr
  cases hfin : doc.finalAt C tx loc recs with
  | none =>
    rw [hfin] at hr
    exact hold r hr
  | some fin =>
    rw [hfin, Option.elim_some, List.mem_append, List.mem_filter] at hr
    rcases hr with hr | hr
    · exact hold r hr.1
    · have hkey := record_added hr
      refine ⟨?_, ?_, hvalue⟩
      · rcases hkey with h | h <;> simp [h]
      · rcases hkey with h | h <;> simp [h]

/-! ## What finalizing does -/

/-- Not finalized before, and finalized after. -/
def newlyFinalized (m m' : Map) : Bool := !PsbtInput.isFinalized m && PsbtInput.isFinalized m'

/-- What a finalized input consists of: its UTXOs and unknown or proprietary
records, and a final scriptSig, a final witness or both. -/
def FinalizedFrom (m m' : Map) : Prop :=
  ∃ added : List Record, added ≠ [] ∧ (∀ r ∈ added, r.key = [0x07] ∨ r.key = [0x08]) ∧
    (added.map (·.key)).Nodup ∧
    StablySorted Record.keyType (m.records.filter (fun r =>
      r.keyType = 0x00 ∨ r.keyType = 0x01 ∨ 0x18 < r.keyType) ++ added) m'.records

section Places

variable {C : Purecrypto} {doc : Doc} {tx : UnsignedTx} (h : doc.Valid C tx)
  (hd : (doc.finalize C tx).Valid C tx) {loc : MapLoc} {recs : List Record}
  (hrecs : doc.recordsAt loc = some recs)

include hd hrecs in
theorem Doc.Valid.finalize_at :
    (doc.finalize C tx).recordsAt loc = some (finalRecords recs (doc.finalAt C tx loc recs)) ∧
      ∀ r ∈ finalRecords recs (doc.finalAt C tx loc recs), Framed r := by
  have hin : (doc.finalize C tx).recordsAt loc =
      some (finalRecords recs (doc.finalAt C tx loc recs)) := by
    rw [Doc.recordsAt_finalize, hrecs, Option.map_some]
  exact ⟨hin, (hd.recordsAt hin).framed⟩

include h hrecs in
theorem Doc.Valid.alike_of_copied (hfin : doc.finalAt C tx loc recs = none) :
    (Map.ofRecords recs).Alike (Map.ofRecords (finalRecords recs (doc.finalAt C tx loc recs))) := by
  have hframed := (h.recordsAt hrecs).framed
  have hsorted : ∀ r ∈ sort Record.keyType recs, Framed r :=
    fun r hr => hframed r ((sort_perm recs).mem_iff.mp hr)
  rw [hfin, finalRecords, Option.elim_none]
  refine Map.alike_of_stablySorted ?_
  rw [Map.records_ofRecords hframed, Map.records_ofRecords hsorted]
  exact sort_stablySorted _ _

include h hd hrecs in
/-- What is built for a map shows in what it was and is. -/
theorem Doc.Valid.newlyFinalized_iff :
    newlyFinalized (Map.ofRecords recs)
        (Map.ofRecords (finalRecords recs (doc.finalAt C tx loc recs))) =
      (doc.finalAt C tx loc recs).isSome := by
  cases hfin : doc.finalAt C tx loc recs with
  | none =>
    have halike := h.alike_of_copied hrecs hfin
    rw [hfin] at halike
    rw [newlyFinalized, isFinalized_congr halike, Bool.not_and_self]
    rfl
  | some fin =>
    have hframed := (hd.finalize_at hrecs).2
    obtain ⟨i, rfl, hnot, hne⟩ := finalOf_nonEmpty (Doc.finalOf_of_finalAt hfin)
    obtain ⟨a, ha⟩ := List.exists_mem_of_ne_nil _ hne.added_ne
    have hmem : a.record ∈ finalRecords recs (some fin) := by
      rw [finalRecords, (sort_perm _).mem_iff]
      exact List.mem_append_right _ (List.mem_map_of_mem ha)
    rw [hfin] at hframed
    rw [newlyFinalized, hnot, isFinalized_ofRecords hframed hmem
      (record_added (List.mem_map_of_mem ha))]
    rfl

include h hd hrecs in
/-- A finalized input has its records rewritten, and every other map is copied. -/
theorem Doc.Valid.finalized_at :
    let m := Map.ofRecords recs
    let m' := Map.ofRecords (finalRecords recs (doc.finalAt C tx loc recs))
    if newlyFinalized m m' then (∃ i, loc = .input i) ∧ FinalizedFrom m m'
    else StablySorted Record.keyType m.records m'.records := by
  intro m m'
  have hframed := (hd.finalize_at hrecs).2
  have hm' : m'.records = finalRecords recs (doc.finalAt C tx loc recs) :=
    Map.records_ofRecords hframed
  have hm : m.records = recs := Map.records_ofRecords (h.recordsAt hrecs).framed
  rw [h.newlyFinalized_iff hd hrecs]
  cases hfin : doc.finalAt C tx loc recs with
  | none =>
    rw [if_neg (by simp), hm, hm', hfin]
    exact sort_stablySorted _ _
  | some fin =>
    obtain ⟨i, hloc, -, hne⟩ := finalOf_nonEmpty (Doc.finalOf_of_finalAt hfin)
    have hkept : (recs.filter fun r => r.keyType = 0x00 ∨ r.keyType = 0x01 ∨ 0x18 < r.keyType) =
        recs.filter keptFinal := by
      refine List.filter_congr fun r _ => ?_
      rw [Bool.eq_iff_iff, decide_eq_true_eq, keptFinal_iff]
    rw [Option.isSome_some, if_pos rfl]
    refine ⟨⟨i, hloc⟩, fin.added.map NewRecord.record, by simpa using hne.added_ne,
      fun r hr => record_added hr, nodup_added fin, ?_⟩
    rw [hm, hm', hfin, hkept]
    exact sort_stablySorted _ _

end Places

section Again

variable {C : Purecrypto} {doc : Doc} {tx : UnsignedTx} (h : doc.Valid C tx)
  (hd : (doc.finalize C tx).Valid C tx)
  (hok : ∀ loc recs, doc.recordsAt loc = some recs →
    ∃ fin, finalOf C (doc.view tx) loc (Map.ofRecords recs) = .ok fin)

include h hd hok

/-- Nothing is left to build in a finalized document. -/
theorem Doc.Valid.finalOf_finalize {loc : MapLoc} {recs' : List Record}
    (hrecs' : (doc.finalize C tx).recordsAt loc = some recs') :
    finalOf C ((doc.finalize C tx).view tx) loc (Map.ofRecords recs') = .ok none := by
  rw [Doc.recordsAt_finalize, Option.map_eq_some_iff] at hrecs'
  obtain ⟨recs, hrecs, rfl⟩ := hrecs'
  have hin := (hd.finalize_at hrecs).1
  have hnew := h.newlyFinalized_iff hd hrecs
  cases hfin : doc.finalAt C tx loc recs with
  | none =>
    obtain ⟨fin, hof⟩ := hok loc recs hrecs
    have hnone : fin = none := by
      rw [Doc.finalAt, hof] at hfin
      exact hfin
    have halike := h.alike_of_copied hrecs hfin
    have hp := h.mapAt_view loc
    have hq := hd.mapAt_view loc
    rw [hrecs] at hp
    rw [hin] at hq
    have hcongr := finalOf_congr (C := C) (p := doc.view tx) (q := (doc.finalize C tx).view tx)
      rfl hp hq halike
    rw [hfin] at hcongr
    rw [hcongr, hof, hnone]
  | some fin =>
    rw [hfin] at hnew
    have hdone := (Bool.and_eq_true_iff.mp hnew).2
    cases loc with
    | input i => rw [finalOf, if_pos hdone]
    | _ => rfl

theorem Doc.Valid.finalAt_finalize {loc : MapLoc} {recs' : List Record}
    (hrecs' : (doc.finalize C tx).recordsAt loc = some recs') :
    (doc.finalize C tx).finalAt C tx loc recs' = none := by
  rw [Doc.finalAt, h.finalOf_finalize hd hok hrecs']

/-- Finalizing again changes nothing. -/
theorem Doc.Valid.writeFinalized_again :
    writeFinalized C ((doc.finalize C tx).view tx) = .ok ((doc.finalize C tx).encode, 0) := by
  refine hd.writeFinalized_eq_ok.mpr
    ⟨fun loc recs hrecs => ⟨none, h.finalOf_finalize hd hok hrecs⟩, ?_, ?_⟩
  · refine congrArg Doc.encode (Doc.ext_recordsAt fun loc => ?_)
    rw [Doc.recordsAt_finalize (doc.finalize C tx)]
    cases hrecs' : (doc.finalize C tx).recordsAt loc with
    | none => rfl
    | some recs' =>
      rw [Option.map_some, h.finalAt_finalize hd hok hrecs']
      rw [Doc.recordsAt_finalize, Option.map_eq_some_iff] at hrecs'
      obtain ⟨recs, -, rfl⟩ := hrecs'
      exact congrArg some (sort_sort Record.keyType _).symm
  · refine (List.countP_eq_zero.mpr fun lr hlr => ?_).symm
    rw [h.finalAt_finalize hd hok (Doc.recordsAt_of_mem_located hlr)]
    exact Bool.false_ne_true

end Again

/-- Inputs before and after, each with its place. -/
theorem Doc.zip_edit_inputs (doc : Doc) (g : MapLoc → List Record → List Record) :
    (doc.inputs.map Map.ofRecords).zip ((doc.edit g).inputs.map Map.ofRecords) =
      (doc.inputs.mapIdx fun i recs => (MapLoc.input i, recs)).map fun lr =>
        (Map.ofRecords lr.2, Map.ofRecords (g lr.1 lr.2)) := by
  rw [map_mapIdx]
  apply List.ext_getElem (by simp)
  intro i h₁ h₂
  simp [Doc.edit]

theorem Doc.Valid.countP_finalAt {C : Purecrypto} {doc : Doc} {tx : UnsignedTx}
    (h : doc.Valid C tx) (hd : (doc.finalize C tx).Valid C tx) :
    (doc.located.countP fun lr => (doc.finalAt C tx lr.1 lr.2).isSome) =
      ((doc.view tx).inputs.zip ((doc.finalize C tx).view tx).inputs).countP fun mm =>
        newlyFinalized mm.1 mm.2 := by
  have houtputs : (doc.outputs.mapIdx fun i recs => (MapLoc.output i, recs)).countP
      (fun lr => (doc.finalAt C tx lr.1 lr.2).isSome) = 0 := by
    refine List.countP_eq_zero.mpr fun lr hlr => ?_
    obtain ⟨i, hi, rfl⟩ := List.mem_mapIdx.mp hlr
    exact Bool.false_ne_true
  rw [Doc.located, List.countP_append, houtputs, Nat.add_zero, h.inputs_view, hd.inputs_view,
    Doc.finalize, Doc.zip_edit_inputs, List.countP_map]
  refine List.countP_congr fun lr hlr => ?_
  have hrecs : doc.recordsAt lr.1 = some lr.2 :=
    Doc.recordsAt_of_mem_located (List.mem_append_left _ hlr)
  rw [← h.newlyFinalized_iff hd hrecs]
  rfl

/-- Finalizing is exact and framed, and doing it again changes nothing. -/
theorem finalize_exact {C : Purecrypto} {bytes : Bytes} {p : View} (hp : parse C bytes = .ok p) :
    (∀ cap, finalizeToSlice C p cap ≠ .error .panic) ∧ finalizedLen C p ≠ .error .panic ∧
    ∀ cap out c, cap < 2 ^ 64 → finalizeToSlice C p cap = .ok (out, c) →
      finalizedLen C p = .ok out.length ∧
      ∃ q, parse C out = .ok q ∧ q.tx = p.tx ∧ q.inputs.length = p.inputs.length ∧
        c = ((p.inputs.zip q.inputs).countP fun mm => newlyFinalized mm.1 mm.2) ∧
        (∀ loc m, p.mapAt loc = some m → ∃ m', q.mapAt loc = some m' ∧
          if newlyFinalized m m' then (∃ i, loc = .input i) ∧ FinalizedFrom m m'
          else StablySorted Record.keyType m.records m'.records) ∧
        ∀ cap', out.length ≤ cap' → finalizeToSlice C q cap' = .ok (out, 0) := by
  refine ⟨fun cap h => ?_, fun h => ?_, ?_⟩
  · rw [finalizeToSlice] at h
    rcases bind_eq_error.mp h with h | ⟨bc, -, h⟩
    · exact writeFinalized_ne_panic C p h
    · rcases bind_eq_error.mp h with h | ⟨out, -, h⟩
      · exact orTrap_ne_panic _ h
      · cases h
  · rw [finalizedLen] at h
    rcases bind_eq_error.mp h with h | ⟨bc, -, h⟩
    · exact writeFinalized_ne_panic C p h
    · cases h
  · intro cap out c hcap hout
    obtain ⟨doc, hdoc, -, hview⟩ := parse_eq_ok.mp hp
    obtain ⟨hwrite, hlen, q, hq⟩ := finalizeToSlice_eq_ok.mp hout
    have hlength : finalizedLen C p = .ok out.length := by
      rw [finalizedLen, hwrite]
      rfl
    rw [hview] at hwrite
    obtain ⟨hok, rfl, rfl⟩ := hdoc.writeFinalized_eq_ok.mp hwrite
    obtain ⟨hd, hqview⟩ := hdoc.finalize (hlen.trans_lt hcap) hq
    have hp' : p.inputs = (doc.view p.tx).inputs := congrArg View.inputs hview
    have hq' : q.inputs = ((doc.finalize C p.tx).view p.tx).inputs := congrArg View.inputs hqview
    refine ⟨hlength, q, hq, by rw [hqview]; rfl, ?_, ?_, ?_, ?_⟩
    · rw [hp', hq', hd.inputs_view, hdoc.inputs_view, List.length_map, List.length_map,
        Doc.finalize, Doc.length_inputs_edit]
    · rw [hp', hq']
      exact hdoc.countP_finalAt hd
    · intro loc m hm
      have hmap : (doc.view p.tx).mapAt loc = some m := hview ▸ hm
      rw [hdoc.mapAt_view, Option.map_eq_some_iff] at hmap
      obtain ⟨recs, hrecs, rfl⟩ := hmap
      refine ⟨_, ?_, hdoc.finalized_at hd hrecs⟩
      rw [hqview, hd.mapAt_view, (hd.finalize_at hrecs).1, Option.map_some]
    · intro cap' hcap'
      rw [hqview]
      exact finalizeToSlice_eq_ok.mpr ⟨hdoc.writeFinalized_again hd hok, hcap', q, hq⟩

/-- An input that spends a taproot output, signed on the key path. -/
def keyPathInput : List Record :=
  [⟨[0x01], le 8 5000 ++ (34 :: 0x51 :: 0x20 :: List.replicate 32 7)⟩, ⟨[0x13], List.replicate 64 9⟩]

theorem finalize_exact_sample :
    ∃ p out, parse .blank (sampleDoc keyPathInput []).encode = .ok p ∧
      finalizeToSlice .blank p 300 = .ok (out, 1) ∧ finalizedLen .blank p = .ok out.length ∧
      ∃ q, parse .blank out = .ok q ∧
        ∀ cap', out.length ≤ cap' → finalizeToSlice .blank q cap' = .ok (out, 0) := by
  obtain ⟨r, hr⟩ : ∃ r, (do
      let p ← orTrap (parse .blank (sampleDoc keyPathInput []).encode)
      let r ← finalizeToSlice .blank p 300
      if r.2 = 1 then .ok (p, r.1) else .error .panic : Except Trap _) = .ok r :=
    exists_ok_of_isOk (by decide +kernel)
  obtain ⟨p, hp, hrest⟩ := bind_eq_ok.mp hr
  obtain ⟨⟨out, c⟩, hout, hcount⟩ := bind_eq_ok.mp hrest
  split_ifs at hcount with hc
  obtain rfl : c = 1 := hc
  have hparse := orTrap_eq_ok.mp hp
  obtain ⟨hlen, q, hq, -, -, -, -, hagain⟩ :=
    (finalize_exact hparse).2.2 300 out 1 (by decide) hout
  exact ⟨p, out, hparse, hout, hlen, q, hq, hagain⟩

end Outscript.Psbt
