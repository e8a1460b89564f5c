import Outscript.Library.StateLoop
import Outscript.Psbt.RecordEdit

/-!
# Writers with a state

A writer that rewrites record lists may keep a state of its own. What it writes
is still the encoding of an edited document, whose size is bounded map by map.
-/
namespace Outscript.Psbt

open ByteString Cursor Fallible StableSort StateLoop

/-! ## Places and sizes -/

/-- The places of a document are the global one and those of its other maps. -/
theorem Doc.forall_recordsAt {doc : Doc} {P : MapLoc → List Record → Prop} :
    (∀ loc recs, doc.recordsAt loc = some recs → P loc recs) ↔
      P .global doc.globals ∧ ∀ lr ∈ doc.located, P lr.1 lr.2 := by
  constructor
  · exact fun h => ⟨h .global _ rfl, fun lr hlr => h _ _ (Doc.recordsAt_of_mem_located hlr)⟩
  · rintro ⟨hglobal, hlocated⟩ loc recs hrecs
    cases loc with
    | global =>
      cases hrecs
      exact hglobal
    | input i =>
      refine hlocated (.input i, recs) (List.mem_append_left _ (List.mem_mapIdx.mpr ?_))
      obtain ⟨hi, rfl⟩ := List.getElem?_eq_some_iff.mp hrecs
      exact ⟨i, hi, rfl⟩
    | output i =>
      refine hlocated (.output i, recs) (List.mem_append_right _ (List.mem_mapIdx.mpr ?_))
      obtain ⟨hi, rfl⟩ := List.getElem?_eq_some_iff.mp hrecs
      exact ⟨i, hi, rfl⟩

/-- Documents with the same records at each place are equal. -/
theorem Doc.ext_recordsAt {d d' : Doc} (h : ∀ loc, d.recordsAt loc = d'.recordsAt loc) : d = d' := by
  obtain ⟨globals, inputs, outputs⟩ := d
  obtain ⟨globals', inputs', outputs'⟩ := d'
  have hglobals : globals = globals' := Option.some.inj (h .global)
  have hinputs : inputs = inputs' := List.ext_getElem? fun i => h (.input i)
  have houtputs : outputs = outputs' := List.ext_getElem? fun i => h (.output i)
  rw [hglobals, hinputs, houtputs]

theorem length_flatMap_of_mem {α : Type} {f : α → Bytes} {l : List α} {a : α} (ha : a ∈ l) :
    (f a).length ≤ (l.flatMap f).length := by
  obtain ⟨front, back, rfl⟩ := List.append_of_mem ha
  rw [List.flatMap_append, List.flatMap_cons, List.length_append, List.length_append]
  omega

/-- A record is no longer than the document that it is in. -/
theorem Doc.length_value_le {doc : Doc} {loc : MapLoc} {recs : List Record} {r : Record}
    (hrecs : doc.recordsAt loc = some recs) (hr : r ∈ recs) :
    r.value.length ≤ doc.encode.length := by
  have hmaps : (encodeMap recs).length ≤ (doc.maps.flatMap encodeMap).length := by
    refine (Doc.forall_maps (P := fun recs =>
      (encodeMap recs).length ≤ (doc.maps.flatMap encodeMap).length)).mp ?_ loc recs hrecs
    exact fun recs hmem => length_flatMap_of_mem hmem
  have hrec : r.encode.length ≤ (encodeRecords recs).length := length_flatMap_of_mem hr
  have hvalue : r.value.length ≤ r.encode.length := by
    rw [Record.encode, varBytesOf, varBytesOf]
    simp only [List.length_append]
    omega
  rw [encodeMap, List.length_append] at hmaps
  rw [Doc.encode_eq, List.length_append]
  omega

section Write

variable {C : Purecrypto} {doc : Doc} {tx : UnsignedTx} {σ ε : Type}

theorem Doc.Valid.input_view (h : doc.Valid C tx) {i : Nat} {recs : List Record}
    (hrecs : doc.recordsAt (.input i) = some recs) :
    (doc.view tx).input i = some (Map.ofRecords recs) := by
  have hmap := h.mapAt_view (.input i)
  rw [hrecs] at hmap
  exact hmap

/-- The maps after the global one with their places, by position. -/
theorem Doc.located_eq (doc : Doc) :
    doc.located = doc.body.mapIdx fun j recs => (mapLoc doc.inputs.length j, recs) :=
  (mapIdx_mapLoc doc.inputs doc.outputs).symm

/-- The edit that puts given records at each place. -/
def placed (n : Nat) (globals : List Record) (body : List (List Record)) :
    MapLoc → List Record → List Record
  | .global, _ => globals
  | .input i, _ => body.getD i []
  | .output i, _ => body.getD (n + i) []

theorem placed_mapLoc (n : Nat) (globals : List Record) (body : List (List Record)) (j : Nat)
    (recs : List Record) : placed n globals body (mapLoc n j) recs = body.getD j [] := by
  rw [mapLoc]
  split_ifs with hj
  · rfl
  · rw [placed, Nat.add_sub_cancel' (Nat.le_of_not_lt hj)]

/-- A writer that writes record lists, with a measure of its state that does not
decrease, writes an edited document. -/
theorem Doc.Valid.exists_edit_of_write (h : doc.Valid C tx)
    {f : MapLoc → Map → StateT σ (Except ε) Bytes} {P : MapLoc → List Record → List Record → Prop}
    {μ : σ → Nat} {s s' : σ} {out : Bytes}
    (hμ : ∀ loc recs t b t', doc.recordsAt loc = some recs →
      (f loc (Map.ofRecords recs)).run t = .ok (b, t') → μ t ≤ μ t')
    (hf : ∀ loc recs t b t', doc.recordsAt loc = some recs →
      (f loc (Map.ofRecords recs)).run t = .ok (b, t') → μ t' ≤ μ s' →
        ∃ recs', b = encodeMap recs' ∧ P loc recs recs')
    (hout : ((doc.view tx).write f).run s = .ok (out, s')) :
    ∃ g, out = (doc.edit g).encode ∧
      ∀ loc recs, doc.recordsAt loc = some recs → P loc recs (g loc recs) := by
  rw [View.write, StateT.run_bind] at hout
  obtain ⟨⟨b, s₁⟩, hglobal, hout⟩ := bind_eq_ok.mp hout
  rw [StateT.run_bind] at hout
  obtain ⟨⟨bs, s₂⟩, hmaps, hout⟩ := bind_eq_ok.mp hout
  cases hout
  rw [h.located_view, List.mapM_map] at hmaps
  have hruns := run_mapM_eq_ok.mp hmaps
  have hmono : ∀ lr ∈ doc.located, ∀ t b t',
      Step (fun lr => f lr.1 (Map.ofRecords lr.2)) lr t b t' → μ t ≤ μ t' :=
    fun lr hlr t b t' => hμ lr.1 lr.2 t b t' (Doc.recordsAt_of_mem_located hlr)
  obtain ⟨globals, rfl, hP⟩ := hf .global doc.globals _ _ _ rfl hglobal (hruns.measure_le hmono)
  obtain ⟨body, rfl, hall⟩ := (hruns.bounded hmono).exists_map
    (Q := fun lr recs' => P lr.1 lr.2 recs') (e := encodeMap) fun lr hlr t b t' hstep =>
      hf lr.1 lr.2 t b t' (Doc.recordsAt_of_mem_located hlr) hstep.1 hstep.2
  have hlen := hall.length_eq
  have hat : ∀ (j : Nat) (hj : j < doc.located.length) (hjb : j < body.length),
      placed doc.inputs.length globals body doc.located[j].1 doc.located[j].2 =
        body[j] := by
    intro j hj hjb
    simp only [doc.located_eq, List.getElem_mapIdx]
    rw [placed_mapLoc, List.getD_eq_getElem?_getD, List.getElem?_eq_getElem hjb, Option.getD_some]
  refine ⟨placed doc.inputs.length globals body, ?_, Doc.forall_recordsAt.mpr ⟨hP, ?_⟩⟩
  · have hbody : doc.located.map (fun lr => placed doc.inputs.length globals body lr.1 lr.2) = body := by
      apply List.ext_getElem (by rw [List.length_map, hlen])
      intro j h₁ h₂
      rw [List.getElem_map, hat _ _ h₂]
    have henc : (doc.edit (placed doc.inputs.length globals body)).encode =
        magic ++ (encodeMap globals ++ (doc.located.map fun lr =>
          placed doc.inputs.length globals body lr.1 lr.2).flatMap encodeMap) := by
      rw [Doc.map_located]
      rfl
    rw [henc, hbody, List.flatMap_def]
  · intro lr hlr
    obtain ⟨j, hj, rfl⟩ := List.getElem_of_mem hlr
    rw [hat j hj (hlen ▸ hj)]
    exact hall.get hj (hlen ▸ hj)

theorem Doc.map_snd_located (doc : Doc) :
    doc.located.map Prod.snd = doc.inputs ++ doc.outputs := by
  rw [Doc.located, List.map_append, map_mapIdx, map_mapIdx]
  congr 1
  · exact List.ext_getElem (by simp) fun i h₁ h₂ => by simp
  · exact List.ext_getElem (by simp) fun i h₁ h₂ => by simp

/-- An edit that lets each map grow by no more than a bound. -/
theorem Doc.length_edit_le (doc : Doc) {g : MapLoc → List Record → List Record}
    (w : MapLoc → List Record → Nat)
    (hw : ∀ loc recs, doc.recordsAt loc = some recs →
      (encodeMap (g loc recs)).length ≤ (encodeMap recs).length + w loc recs) :
    (doc.edit g).encode.length ≤
      doc.encode.length + (w .global doc.globals + (doc.located.map fun lr => w lr.1 lr.2).sum) := by
  have hglobal := hw .global doc.globals rfl
  have hold : ((doc.inputs ++ doc.outputs).flatMap encodeMap).length =
      (doc.located.map fun lr => (encodeMap lr.2).length).sum := by
    rw [← doc.map_snd_located, List.flatMap_map, List.length_flatMap]
  have hnew : (((doc.edit g).inputs ++ (doc.edit g).outputs).flatMap encodeMap).length =
      (doc.located.map fun lr => (encodeMap (g lr.1 lr.2)).length).sum := by
    rw [← Doc.map_located, List.flatMap_map, List.length_flatMap]
  have hsum : (doc.located.map fun lr => (encodeMap (g lr.1 lr.2)).length).sum ≤
      (doc.located.map fun lr => (encodeMap lr.2).length).sum +
        (doc.located.map fun lr => w lr.1 lr.2).sum := by
    rw [← List.sum_map_add]
    exact List.sum_le_sum fun lr hlr => hw lr.1 lr.2 (Doc.recordsAt_of_mem_located hlr)
  have hparts (d : Doc) : d.encode.length = magic.length + ((encodeMap d.globals).length +
      ((d.inputs ++ d.outputs).flatMap encodeMap).length) := by
    have henc : d.encode =
        magic ++ (encodeMap d.globals ++ (d.inputs ++ d.outputs).flatMap encodeMap) := rfl
    rw [henc, List.length_append, List.length_append]
  have hsame : (encodeMap (doc.edit g).globals).length = (encodeMap (g .global doc.globals)).length :=
    rfl
  rw [hparts, hparts, hold, hnew, hsame]
  omega

end Write

end Outscript.Psbt
