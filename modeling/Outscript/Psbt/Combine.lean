import Outscript.Psbt.Rewrite

/-!
# Combining PSBTs

The combiner walks the maps of both PSBTs side by side and writes each pair as
one map. Its result is the left-biased union of the two, so combining is
idempotent, associative, and commutative where the two agree.
-/
namespace Outscript.Psbt

open ByteString Cursor Fallible StableSort

/-- The next of the maps still to be merged. -/
def nextMap : StateT (List Map) (Except Error) Map := fun theirs =>
  match theirs with
  | [] => .error .txMismatch
  | map :: rest => .ok (map, rest)

/-- Merges a map with the next of theirs. -/
def mergeNext (map : Map) : StateT (List Map) (Except Error) Bytes := do
  let secondary ← nextMap
  return writeMap map (.merge secondary)

section Combiner

variable (C : Purecrypto)

/-- Writes the union of two PSBTs of one transaction; the first one's records
win. -/
def combineToSlice (p other : View) (cap : Nat) : Except Error Bytes :=
  if p.tx.bytes ≠ other.tx.bytes then .error .txMismatch
  else emit C cap ((p.write fun _ map => mergeNext map).run' (other.global :: other.maps))

/-- Combining into a buffer that always suffices. -/
def combine (p other : View) : Except Error View := do
  let out ← combineToSlice C p other (p.len + other.len)
  parse C out

end Combiner

/-! ## Unions of record lists -/

/-- The records of `xs`, and those of `ys` under other keys. -/
def union (xs ys : List Record) : List Record :=
  xs ++ ys.filter fun r => r.key ∉ xs.map (·.key)

theorem lookup_union (xs ys : List Record) (key : Bytes) :
    lookup (union xs ys) key = (lookup xs key).or (lookup ys key) := by
  rw [union, lookup_append, lookup_filter_keys]
  by_cases hmem : key ∈ xs.map (·.key)
  · cases hx : lookup xs key with
    | none => exact absurd hmem (lookup_eq_none.mp hx)
    | some value => rfl
  · rw [if_neg hmem]

theorem ValidRecords.union {C : Purecrypto} {kind : MapKind} {xs ys : List Record}
    (hx : ValidRecords C kind xs) (hy : ValidRecords C kind ys) :
    ValidRecords C kind (union xs ys) := by
  refine ⟨?_, ?_, ?_⟩
  · intro r hr
    rcases List.mem_append.mp hr with hr | hr
    · exact hx.framed r hr
    · exact hy.framed r (List.mem_filter.mp hr).1
  · rw [Psbt.union, List.map_append, List.nodup_append]
    refine ⟨hx.nodup, hy.nodup.sublist (List.filter_sublist.map _), ?_⟩
    rintro key hkey _ hnew rfl
    obtain ⟨r, hr, rfl⟩ := List.mem_map.mp hnew
    exact (by simpa using (List.mem_filter.mp hr).2 : r.key ∉ xs.map (·.key)) hkey
  · intro r hr
    rcases List.mem_append.mp hr with hr | hr
    · exact hx.valid r hr
    · exact hy.valid r (List.mem_filter.mp hr).1

theorem pool_merge {xs ys : List Record} (hx : ∀ r ∈ xs, Framed r) (hy : ∀ r ∈ ys, Framed r) :
    (MapEdit.merge (Map.ofRecords ys)).pool (Map.ofRecords xs) = union xs ys := by
  have hskip : ∀ r ∈ ys, (!(Map.ofRecords xs).containsKey r.key) =
      decide (r.key ∉ xs.map (·.key)) := by
    intro r _
    rw [Map.containsKey, Map.records_ofRecords hx, Bool.eq_iff_iff]
    simp
  rw [MapEdit.pool, MapEdit.primary, MapEdit.merged, Map.records_ofRecords hx]
  simp only [MapEdit.merge, MapEdit.none, MapEdit.isAdded, Option.all_none, List.any_nil,
    Bool.not_false, Bool.and_self, Bool.and_true, List.filter_true, Option.elim_some,
    List.map_nil, List.append_nil, Map.records_ofRecords hy]
  exact congrArg (xs ++ ·) (List.filter_congr hskip)

theorem typed_merge (map : Map) : (MapEdit.merge map).Typed := by
  simp [MapEdit.Typed, MapEdit.merge, MapEdit.none]

/-- The merged map, sorted. -/
def merged (xs ys : List Record) : List Record := sort Record.keyType (union xs ys)

theorem writeMap_merge {xs ys : List Record} (hx : ∀ r ∈ xs, Framed r)
    (hy : ∀ r ∈ ys, Framed r) :
    writeMap (Map.ofRecords xs) (.merge (Map.ofRecords ys)) = encodeMap (merged xs ys) := by
  rw [writeMap_eq (typed_merge _), pool_merge hx hy, merged]

theorem zipWith_writeMap {xs ys : List (List Record)} (hx : ∀ recs ∈ xs, ∀ r ∈ recs, Framed r)
    (hy : ∀ recs ∈ ys, ∀ r ∈ recs, Framed r) :
    List.zipWith (fun x y => writeMap x (.merge y)) (xs.map Map.ofRecords) (ys.map Map.ofRecords) =
      (List.zipWith merged xs ys).map encodeMap := by
  rw [List.zipWith_map, List.map_zipWith]
  apply List.ext_getElem (by simp)
  intro i h₁ h₂
  simp only [List.length_zipWith] at h₁
  rw [List.getElem_zipWith, List.getElem_zipWith,
    writeMap_merge (hx _ (List.getElem_mem _)) (hy _ (List.getElem_mem _))]

theorem length_merged_le (xs ys : List Record) :
    (encodeMap (merged xs ys)).length ≤ (encodeRecords xs).length + (encodeMap ys).length := by
  have hfilter : (encodeRecords (ys.filter fun r => r.key ∉ xs.map (·.key))).length ≤
      (encodeRecords ys).length := (List.filter_sublist.flatMap _).length_le
  rw [encodeMap, List.length_append, merged, length_encodeRecords_perm (sort_perm _), union,
    encodeRecords_append, List.length_append, encodeMap, List.length_append]
  omega

/-! ## The two PSBTs side by side -/

/-- The documents merged map by map. -/
def Doc.merge (a b : Doc) : Doc :=
  ⟨merged a.globals b.globals, List.zipWith merged a.inputs b.inputs,
    List.zipWith merged a.outputs b.outputs⟩

theorem Doc.recordsAt_merge (a b : Doc) (loc : MapLoc) :
    (a.merge b).recordsAt loc =
      (a.recordsAt loc).bind fun xs => (b.recordsAt loc).map fun ys => merged xs ys := by
  cases loc with
  | global => rfl
  | input i =>
    simp only [merge, recordsAt, List.getElem?_zipWith]
    cases a.inputs[i]? <;> cases b.inputs[i]? <;> rfl
  | output i =>
    simp only [merge, recordsAt, List.getElem?_zipWith]
    cases a.outputs[i]? <;> cases b.outputs[i]? <;> rfl

section Correct

variable {C : Purecrypto} {a b : Doc} {tx : UnsignedTx}

theorem run_mapM_mergeNext {α : Type} (l : List (α × Map)) (theirs : List Map)
    (hlen : l.length = theirs.length) :
    (l.mapM fun lm => mergeNext lm.2).run theirs =
      .ok (List.zipWith (fun lm map => writeMap lm.2 (.merge map)) l theirs, []) := by
  induction l generalizing theirs with
  | nil =>
    obtain rfl := List.length_eq_zero_iff.mp hlen.symm
    rfl
  | cons lm l ih =>
    cases theirs with
    | nil => cases hlen
    | cons map theirs =>
      rw [List.mapM_cons, StateT.run_bind]
      change (do
        let (rest, s) ← (l.mapM fun lm : α × Map => mergeNext lm.2).run theirs
        Except.ok (writeMap lm.2 (.merge map) :: rest, s)) = _
      rw [ih theirs (Nat.succ.inj hlen)]
      rfl

theorem Doc.Valid.length_eq (ha : a.Valid C tx) (hb : b.Valid C tx) :
    a.inputs.length = b.inputs.length ∧ a.outputs.length = b.outputs.length :=
  ⟨ha.inputCount.trans hb.inputCount.symm, ha.outputCount.trans hb.outputCount.symm⟩

theorem Doc.Valid.recordsAt_isSome_eq (ha : a.Valid C tx) (hb : b.Valid C tx) (loc : MapLoc) :
    (a.recordsAt loc).isSome = (b.recordsAt loc).isSome := by
  obtain ⟨hi, ho⟩ := ha.length_eq hb
  rw [Bool.eq_iff_iff]
  cases loc with
  | global => exact Iff.rfl
  | input i => simp [Doc.recordsAt, hi]
  | output i => simp [Doc.recordsAt, ho]

/-- Merging maps pairwise keeps every pair aligned. -/
theorem Doc.Valid.write_merge (ha : a.Valid C tx) (hb : b.Valid C tx) :
    ((a.view tx).write fun _ map => mergeNext map).run'
        ((b.view tx).global :: (b.view tx).maps) = .ok (a.merge b).encode := by
  obtain ⟨hi, ho⟩ := ha.length_eq hb
  have hlen : (a.view tx).located.length = (b.view tx).maps.length := by
    rw [ha.located_view, hb.maps_view, List.length_map, List.length_map, Doc.located]
    simp [hi, ho]
  have hglobal : (mergeNext (a.view tx).global).run ((b.view tx).global :: (b.view tx).maps) =
      .ok (encodeMap (merged a.globals b.globals), (b.view tx).maps) := by
    rw [← writeMap_merge ha.globals.framed hb.globals.framed]
    rfl
  have hzip : List.zipWith (fun (lm : MapLoc × Map) map => writeMap lm.2 (.merge map))
        (a.view tx).located (b.view tx).maps =
      ((a.merge b).inputs ++ (a.merge b).outputs).map encodeMap := by
    have hmerge := zipWith_writeMap ha.framed_maps hb.framed_maps
    rw [← ha.maps_view, ← View.map_snd_located, List.zipWith_map_left] at hmerge
    rw [hb.maps_view, hmerge, List.zipWith_append hi]
    rfl
  have hmaps := run_mapM_mergeNext (a.view tx).located (b.view tx).maps hlen
  rw [hzip] at hmaps
  rw [View.write, StateT.run'_eq, StateT.run_bind, hglobal, ok_bind, StateT.run_bind, hmaps,
    Doc.encode, Doc.mapBytes, List.flatMap_def]
  rfl

/-- The combination is valid, and no larger than both together. -/
theorem Doc.Valid.merge (ha : a.Valid C tx) (hb : b.Valid C tx) : (a.merge b).Valid C tx := by
  obtain ⟨hi, ho⟩ := ha.length_eq hb
  refine Doc.valid_iff.mpr ⟨?_, ?_, ha.layout, ?_, ?_⟩
  · intro loc recs hrecs
    rw [Doc.recordsAt_merge, Option.bind_eq_some_iff] at hrecs
    obtain ⟨xs, hxs, hrecs⟩ := hrecs
    obtain ⟨ys, hys, rfl⟩ := Option.map_eq_some_iff.mp hrecs
    exact .of_perm (sort_perm _) ((ha.recordsAt hxs).union (hb.recordsAt hys))
  · have hunion := ha.globals.union hb.globals
    rw [← ha.unsigned, Doc.merge, merged, lookup_of_perm hunion.nodup (sort_perm _), lookup_union,
      ha.unsigned]
    rfl
  · rw [Doc.merge, List.length_zipWith, hi, Nat.min_self, hb.inputCount]
  · rw [Doc.merge, List.length_zipWith, ho, Nat.min_self, hb.outputCount]

theorem Doc.length_merge_le (a b : Doc) :
    (a.merge b).encode.length ≤ a.encode.length + b.encode.length := by
  have hzip (xs ys : List (List Record)) : ((List.zipWith merged xs ys).flatMap encodeMap).length ≤
      (xs.flatMap encodeMap).length + (ys.flatMap encodeMap).length := by
    induction xs generalizing ys with
    | nil => simp
    | cons x xs ih =>
      cases ys with
      | nil => simp
      | cons y ys =>
        have hle := length_merged_le x y
        have hx : (encodeRecords x).length ≤ (encodeMap x).length := by simp [encodeMap]
        have htail := ih ys
        simp only [List.zipWith_cons_cons, List.flatMap_cons, List.length_append]
        omega
  have hglobal := length_merged_le a.globals b.globals
  have hx : (encodeRecords a.globals).length ≤ (encodeMap a.globals).length := by simp [encodeMap]
  have hi := hzip a.inputs b.inputs
  have ho := hzip a.outputs b.outputs
  simp only [Doc.merge, Doc.encode, Doc.mapBytes, List.flatMap_append, List.length_append]
  omega

theorem Doc.Valid.value_merge (ha : a.Valid C tx) (hb : b.Valid C tx) (loc : MapLoc)
    (key : Bytes) :
    ((a.merge b).view tx).value loc key =
      ((a.view tx).value loc key).or ((b.view tx).value loc key) := by
  rw [(ha.merge hb).value_view, ha.value_view, hb.value_view, Doc.recordsAt_merge]
  have hsome := ha.recordsAt_isSome_eq hb loc
  cases hxs : a.recordsAt loc with
  | none =>
    rw [hxs, eq_comm, Option.isSome_none, Option.isSome_eq_false_iff, Option.isNone_iff_eq_none]
      at hsome
    rw [hsome]
    rfl
  | some xs =>
    rw [hxs, eq_comm, Option.isSome_some, Option.isSome_iff_exists] at hsome
    obtain ⟨ys, hys⟩ := hsome
    have hunion := (ha.recordsAt hxs).union (hb.recordsAt hys)
    rw [hys]
    simp only [Option.bind_some, Option.map_some]
    rw [merged, lookup_of_perm hunion.nodup (sort_perm _), lookup_union]

/-- Combining never fails for PSBTs of one transaction. -/
theorem Doc.Valid.combine_view (ha : a.Valid C tx) (hb : b.Valid C tx) :
    combine C (a.view tx) (b.view tx) = .ok ((a.merge b).view tx) := by
  have hslice : combineToSlice C (a.view tx) (b.view tx)
      ((a.view tx).len + (b.view tx).len) = .ok (a.merge b).encode := by
    rw [combineToSlice, if_neg fun hne => hne rfl, ha.write_merge hb, emit_eq_ok]
    exact ⟨rfl, a.length_merge_le b, _, (ha.merge hb).parse_encode⟩
  rw [combine, hslice, ok_bind, (ha.merge hb).parse_encode]

end Correct

/-- Two views of one transaction with the same value for every key of every map. -/
def View.SameRecords (p q : View) : Prop :=
  p.tx = q.tx ∧ ∀ loc key, p.value loc key = q.value loc key

/-- Combining is a total left-biased union. -/
theorem combine_leftBiasedUnion {C : Purecrypto} {x y z : Bytes} {a b c : View}
    (ha : parse C x = .ok a) (hb : parse C y = .ok b) (hc : parse C z = .ok c)
    (hab : a.tx.bytes = b.tx.bytes) (hbc : b.tx.bytes = c.tx.bytes) :
    (∃ ab, combine C a b = .ok ab ∧ ab.tx = a.tx ∧
        ∀ loc key, ab.value loc key = (a.value loc key).or (b.value loc key)) ∧
      (∃ aa, combine C a a = .ok aa ∧ aa.SameRecords a) ∧
      (∃ ab bc ab_c a_bc, combine C a b = .ok ab ∧ combine C b c = .ok bc ∧
        combine C ab c = .ok ab_c ∧ combine C a bc = .ok a_bc ∧ ab_c.SameRecords a_bc) ∧
      ((∀ loc key v w, a.value loc key = some v → b.value loc key = some w → v = w) →
        ∃ ab ba, combine C a b = .ok ab ∧ combine C b a = .ok ba ∧ ab.SameRecords ba) := by
  obtain ⟨da, hda, -, hpa⟩ := parse_eq_ok.mp ha
  obtain ⟨db, hdb, -, hpb⟩ := parse_eq_ok.mp hb
  obtain ⟨dc, hdc, -, hpc⟩ := parse_eq_ok.mp hc
  have htb : b.tx = a.tx := unsignedTx_unique hab.symm hdb.layout hda.layout
  have htc : c.tx = a.tx := unsignedTx_unique (hab.trans hbc).symm hdc.layout hda.layout
  rw [htb] at hdb hpb
  rw [htc] at hdc hpc
  rw [hpa, hpb, hpc]
  refine ⟨⟨_, hda.combine_view hdb, rfl, hda.value_merge hdb⟩,
    ⟨_, hda.combine_view hda, rfl, ?_⟩,
    ⟨_, _, _, _, hda.combine_view hdb, hdb.combine_view hdc, (hda.merge hdb).combine_view hdc,
      hda.combine_view (hdb.merge hdc), rfl, ?_⟩,
    fun hagree => ⟨_, _, hda.combine_view hdb, hdb.combine_view hda, rfl, ?_⟩⟩
  · intro loc key
    rw [hda.value_merge hda, Option.or_self]
  · intro loc key
    rw [(hda.merge hdb).value_merge hdc, hda.value_merge hdb, hda.value_merge (hdb.merge hdc),
      hdb.value_merge hdc, Option.or_assoc]
  · intro loc key
    rw [hda.value_merge hdb, hdb.value_merge hda]
    cases hv : (da.view a.tx).value loc key with
    | none => rw [Option.none_or, Option.or_none]
    | some v =>
      cases hw : (db.view a.tx).value loc key with
      | none => rfl
      | some w => rw [hagree loc key v w hv hw]

/-- Two signers' partial work, and the original. -/
theorem combine_leftBiasedUnion_sample :
    ∃ a b c : View,
      parse .blank (sampleDoc [⟨[0x05], [0x51]⟩] []).encode = .ok a ∧
      parse .blank (sampleDoc [⟨[0x05], [0x52]⟩, ⟨[0x04], [0x53]⟩] []).encode = .ok b ∧
      parse .blank (sampleDoc [] []).encode = .ok c ∧
      ∃ ab bc ab_c a_bc, combine .blank a b = .ok ab ∧ combine .blank b c = .ok bc ∧
        combine .blank ab c = .ok ab_c ∧ combine .blank a bc = .ok a_bc ∧
        ab_c.SameRecords a_bc := by
  have hrun : (do
      let a ← parse .blank (sampleDoc [⟨[0x05], [0x51]⟩] []).encode
      let b ← parse .blank (sampleDoc [⟨[0x05], [0x52]⟩, ⟨[0x04], [0x53]⟩] []).encode
      let c ← parse .blank (sampleDoc [] []).encode
      .ok (decide (a.tx.bytes = b.tx.bytes ∧ b.tx.bytes = c.tx.bytes))) =
        (.ok true : Except Error Bool) := by decide +kernel
  obtain ⟨a, ha, hrun⟩ := bind_eq_ok.mp hrun
  obtain ⟨b, hb, hrun⟩ := bind_eq_ok.mp hrun
  obtain ⟨c, hc, hrun⟩ := bind_eq_ok.mp hrun
  obtain ⟨hab, hbc⟩ := of_decide_eq_true (Except.ok.inj hrun)
  exact ⟨a, b, c, ha, hb, hc, (combine_leftBiasedUnion ha hb hc hab hbc).2.2.1⟩

end Outscript.Psbt
