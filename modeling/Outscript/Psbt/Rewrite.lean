import Outscript.Psbt.WriteMap

/-!
# Rewriting a PSBT

Every writer streams the magic and then one map after another, and validates
what it wrote. A writer that maps record lists to record lists takes a valid
document to another document; written with no edit, a PSBT comes back with each
map stably sorted by key type, and rewriting that changes nothing.
-/
namespace Outscript.Psbt

open ByteString Cursor Fallible StableSort

inductive MapLoc where
  | global
  | input (index : Nat)
  | output (index : Nat)
  deriving DecidableEq

def MapLoc.kind : MapLoc → MapKind
  | .global => .global
  | .input _ => .input
  | .output _ => .output

/-- The place of the `i`-th map after the global one. -/
def mapLoc (inputCount i : Nat) : MapLoc :=
  if i < inputCount then .input i else .output (i - inputCount)

namespace View

/-- The input and output maps, each with its place. -/
def located (p : View) : List (MapLoc × Map) :=
  p.maps.mapIdx fun i map => (mapLoc p.tx.layout.inputCount i, map)

def mapAt (p : View) : MapLoc → Option Map
  | .global => some p.global
  | .input i => p.inputs[i]?
  | .output i => p.outputs[i]?

/-- The value of a key in one of the maps. -/
def value (p : View) (loc : MapLoc) (key : Bytes) : Option Bytes :=
  (p.mapAt loc).bind (·.get key)

/-- Streams a PSBT with each map written by `f`. -/
def write {m : Type → Type} [Monad m] (p : View) (f : MapLoc → Map → m Bytes) : m Bytes := do
  let global ← f .global p.global
  let maps ← p.located.mapM fun (loc, map) => f loc map
  return magic ++ (global ++ maps.flatten)

/-- A copy with no edit. -/
def rewrite (p : View) : Except Error Bytes := p.write fun _ map => .ok (writeMap map .none)

def checkLoc (p : View) : MapLoc → Except Error Unit
  | .global => .ok ()
  | .input i => if p.tx.layout.inputCount ≤ i then .error .inputIndex else .ok ()
  | .output i => if p.tx.layout.outputCount ≤ i then .error .outputIndex else .ok ()

end View

section Emit

variable (C : Purecrypto)

/-- Puts what a writer wrote into a buffer of `cap` bytes and validates it. -/
def emit (cap : Nat) (written : Except Error Bytes) : Except Error Bytes := do
  let bytes ← written
  if cap < bytes.length then .error .bufferTooSmall
  else do
    let _ ← parse C bytes
    .ok bytes

/-- A copy with `edit` applied to one map. -/
def editMap (p : View) (cap : Nat) (loc : MapLoc) (edit : MapEdit) : Except Error Bytes := do
  p.checkLoc loc
  emit C cap <| p.write fun at' map =>
    .ok (if at' = loc then writeMap map edit else writeMap map .none)

def setInputRecord (p : View) (index : Nat) (key value : Bytes) (cap : Nat) :
    Except Error Bytes :=
  editMap C p cap (.input index) (.add [⟨key, [], value⟩])

def setOutputRecord (p : View) (index : Nat) (key value : Bytes) (cap : Nat) :
    Except Error Bytes :=
  editMap C p cap (.output index) (.add [⟨key, [], value⟩])

theorem emit_eq_ok {cap : Nat} {written : Except Error Bytes} {bytes : Bytes} :
    emit C cap written = .ok bytes ↔
      written = .ok bytes ∧ bytes.length ≤ cap ∧ ∃ q, parse C bytes = .ok q := by
  rw [emit, bind_eq_ok]
  constructor
  · rintro ⟨w, hw, h⟩
    split_ifs at h with hcap
    obtain ⟨q, hq, h⟩ := bind_eq_ok.mp h
    cases h
    exact ⟨hw, Nat.le_of_not_lt hcap, q, hq⟩
  · rintro ⟨hw, hcap, q, hq⟩
    refine ⟨bytes, hw, ?_⟩
    rw [if_neg (Nat.not_lt.mpr hcap), hq]
    rfl

end Emit

/-! ## Documents map by map -/

theorem map_mapIdx {α β γ : Type} (f : β → γ) (g : Nat → α → β) (l : List α) :
    (l.mapIdx g).map f = l.mapIdx fun i a => f (g i a) := by
  apply List.ext_getElem (by simp)
  intro i h₁ h₂
  simp

theorem mapIdx_map {α β γ : Type} (f : α → β) (g : Nat → β → γ) (l : List α) :
    (l.map f).mapIdx g = l.mapIdx fun i a => g i (f a) := by
  apply List.ext_getElem (by simp)
  intro i h₁ h₂
  simp

namespace Doc

variable (doc : Doc)

def recordsAt : MapLoc → Option (List Record)
  | .global => some doc.globals
  | .input i => doc.inputs[i]?
  | .output i => doc.outputs[i]?

/-- The input and output records, each with their place. -/
def located : List (MapLoc × List Record) :=
  (doc.inputs.mapIdx fun i recs => (.input i, recs)) ++
    doc.outputs.mapIdx fun i recs => (.output i, recs)

def edit (g : MapLoc → List Record → List Record) : Doc :=
  { globals := g .global doc.globals
    inputs := doc.inputs.mapIdx fun i => g (.input i)
    outputs := doc.outputs.mapIdx fun i => g (.output i) }

/-- The sorted document with records added at one place. -/
def put (loc : MapLoc) (news : List Record) : Doc :=
  doc.edit fun at' recs => sort Record.keyType (if at' = loc then Psbt.put recs news else recs)

variable {doc}

@[simp] theorem recordsAt_edit (g : MapLoc → List Record → List Record) (loc : MapLoc) :
    (doc.edit g).recordsAt loc = (doc.recordsAt loc).map (g loc) := by
  cases loc <;> simp [edit, recordsAt]

theorem edit_edit (g g' : MapLoc → List Record → List Record) :
    (doc.edit g).edit g' = doc.edit fun loc recs => g' loc (g loc recs) := by
  simp only [edit, List.mapIdx_mapIdx, Function.comp_def]

@[simp] theorem length_inputs_edit (g : MapLoc → List Record → List Record) :
    (doc.edit g).inputs.length = doc.inputs.length := List.length_mapIdx

@[simp] theorem length_outputs_edit (g : MapLoc → List Record → List Record) :
    (doc.edit g).outputs.length = doc.outputs.length := List.length_mapIdx

theorem recordsAt_of_mem_located {loc : MapLoc} {recs : List Record}
    (h : (loc, recs) ∈ doc.located) : doc.recordsAt loc = some recs := by
  rcases List.mem_append.mp h with h | h
  · obtain ⟨i, hi, heq⟩ := List.mem_mapIdx.mp h
    cases heq
    exact List.getElem?_eq_getElem hi
  · obtain ⟨i, hi, heq⟩ := List.mem_mapIdx.mp h
    cases heq
    exact List.getElem?_eq_getElem hi

theorem map_located (g : MapLoc → List Record → List Record) :
    doc.located.map (fun lr => g lr.1 lr.2) = (doc.edit g).inputs ++ (doc.edit g).outputs := by
  rw [located, edit, List.map_append, map_mapIdx, map_mapIdx]

/-- A property of the maps at every place is one of all maps. -/
theorem forall_maps {P : List Record → Prop} :
    (∀ recs ∈ doc.maps, P recs) ↔ ∀ loc recs, doc.recordsAt loc = some recs → P recs := by
  constructor
  · rintro h (_ | i | i) recs hrecs
    · cases hrecs
      exact h _ List.mem_cons_self
    · exact h _ (by simp [maps, List.mem_of_getElem? hrecs])
    · exact h _ (by simp [maps, List.mem_of_getElem? hrecs])
  · intro h recs hrecs
    rcases List.mem_cons.mp hrecs with rfl | hrecs
    · exact h .global _ rfl
    rcases List.mem_append.mp hrecs with hrecs | hrecs
    · obtain ⟨i, hi⟩ := List.mem_iff_getElem?.mp hrecs
      exact h (.input i) _ hi
    · obtain ⟨i, hi⟩ := List.mem_iff_getElem?.mp hrecs
      exact h (.output i) _ hi

theorem encode_eq : doc.encode = magic ++ doc.maps.flatMap encodeMap := rfl

end Doc

theorem mapIdx_mapLoc {α : Type} (ins outs : List α) :
    (ins ++ outs).mapIdx (fun i map => (mapLoc ins.length i, map)) =
      ins.mapIdx (fun i map => (.input i, map)) ++
        outs.mapIdx (fun i map => (.output i, map)) := by
  rw [List.mapIdx_append]
  congr 1
  · apply List.ext_getElem (by simp)
    intro i h₁ h₂
    simp only [List.length_mapIdx] at h₁
    simp [mapLoc, h₁]
  · simp [mapLoc]

theorem View.map_snd_located (p : View) : p.located.map Prod.snd = p.maps := by
  rw [View.located, map_mapIdx]
  apply List.ext_getElem (by simp)
  intro i h₁ h₂
  rw [List.getElem_mapIdx]

section Correct

variable {C : Purecrypto} {doc : Doc} {tx : UnsignedTx}

/-- A document is valid when the records at each place are. -/
theorem Doc.valid_iff :
    doc.Valid C tx ↔
      (∀ loc recs, doc.recordsAt loc = some recs → ValidRecords C loc.kind recs) ∧
        lookup doc.globals [0] = some tx.bytes ∧ unsignedLayout tx.bytes = .ok tx.layout ∧
        doc.inputs.length = tx.layout.inputCount ∧
        doc.outputs.length = tx.layout.outputCount := by
  constructor
  · intro h
    refine ⟨?_, h.unsigned, h.layout, h.inputCount, h.outputCount⟩
    rintro (_ | i | i) recs hrecs
    · cases hrecs
      exact h.globals
    · exact h.inputs _ (List.mem_of_getElem? hrecs)
    · exact h.outputs _ (List.mem_of_getElem? hrecs)
  · rintro ⟨h, hunsigned, hlayout, hi, ho⟩
    refine ⟨h .global _ rfl, ?_, ?_, hunsigned, hlayout, hi, ho⟩
    · intro recs hrecs
      obtain ⟨i, hi⟩ := List.mem_iff_getElem?.mp hrecs
      exact h (.input i) _ hi
    · intro recs hrecs
      obtain ⟨i, hi⟩ := List.mem_iff_getElem?.mp hrecs
      exact h (.output i) _ hi

variable (h : doc.Valid C tx)

include h

theorem Doc.Valid.recordsAt {loc : MapLoc} {recs : List Record}
    (hrecs : doc.recordsAt loc = some recs) : ValidRecords C loc.kind recs :=
  (Doc.valid_iff.mp h).1 loc recs hrecs

theorem Doc.Valid.mapAt_view (loc : MapLoc) :
    (doc.view tx).mapAt loc = (doc.recordsAt loc).map Map.ofRecords := by
  cases loc with
  | global => rfl
  | input i => rw [View.mapAt, h.inputs_view, List.getElem?_map]; rfl
  | output i => rw [View.mapAt, h.outputs_view, List.getElem?_map]; rfl

theorem Doc.Valid.value_view (loc : MapLoc) (key : Bytes) :
    (doc.view tx).value loc key = (doc.recordsAt loc).bind (lookup · key) := by
  rw [View.value, h.mapAt_view]
  cases hrecs : doc.recordsAt loc with
  | none => rfl
  | some recs => exact get_ofRecords (h.recordsAt hrecs).framed key

theorem Doc.Valid.located_view :
    (doc.view tx).located = doc.located.map fun lr => (lr.1, Map.ofRecords lr.2) := by
  have hcount : (doc.view tx).tx.layout.inputCount = (doc.inputs.map Map.ofRecords).length := by
    rw [List.length_map]
    exact h.inputCount.symm
  rw [View.located, h.maps_view, List.map_append, hcount, mapIdx_mapLoc, mapIdx_map, mapIdx_map,
    Doc.located, List.map_append, map_mapIdx, map_mapIdx]

/-- A writer that rewrites record lists writes the edited document. -/
theorem Doc.Valid.write_view {f : MapLoc → Map → Except Error Bytes}
    {g : MapLoc → List Record → List Record}
    (hf : ∀ loc recs, doc.recordsAt loc = some recs →
      f loc (Map.ofRecords recs) = .ok (encodeMap (g loc recs))) :
    (doc.view tx).write f = .ok (doc.edit g).encode := by
  have hglobal : f .global (doc.view tx).global = .ok (encodeMap (g .global doc.globals)) :=
    hf .global doc.globals rfl
  have hmaps : (doc.view tx).located.mapM (fun lm => f lm.1 lm.2) =
      .ok (doc.located.map fun lr => encodeMap (g lr.1 lr.2)) := by
    rw [h.located_view, List.mapM_map]
    exact mapM_ok fun lr hlr => hf _ _ (Doc.recordsAt_of_mem_located hlr)
  have hcomp : (doc.located.map fun lr => encodeMap (g lr.1 lr.2)) =
      (doc.located.map fun lr => g lr.1 lr.2).map encodeMap := by rw [List.map_map]; rfl
  rw [View.write, hglobal, ok_bind, hmaps, ok_bind, hcomp, Doc.map_located, ← List.flatMap_def]
  rfl

/-- Writing with no edit sorts every map. -/
theorem Doc.Valid.rewrite_view :
    (doc.view tx).rewrite = .ok (doc.edit fun _ => sort Record.keyType).encode := by
  apply h.write_view
  intro loc recs hrecs
  rw [writeMap_eq typed_none, pool_none (h.recordsAt hrecs).framed]

theorem Doc.Valid.checkLoc_view {loc : MapLoc} :
    (doc.view tx).checkLoc loc = .ok () ↔ (doc.recordsAt loc).isSome := by
  have hi : (doc.view tx).tx.layout.inputCount = doc.inputs.length := h.inputCount.symm
  have ho : (doc.view tx).tx.layout.outputCount = doc.outputs.length := h.outputCount.symm
  cases loc with
  | global => simp [View.checkLoc, Doc.recordsAt]
  | input i => simp [View.checkLoc, Doc.recordsAt, hi]
  | output i => simp [View.checkLoc, Doc.recordsAt, ho]

/-- Adding records writes the document with the records put there. -/
theorem Doc.Valid.editMap_add_eq_ok {loc : MapLoc} {added : List NewRecord} {cap : Nat}
    {out : Bytes} (htyped : (MapEdit.add added).Typed) :
    editMap C (doc.view tx) cap loc (.add added) = .ok out ↔
      (doc.recordsAt loc).isSome ∧ out = (doc.put loc (added.map NewRecord.record)).encode ∧
        out.length ≤ cap ∧ ∃ q, parse C out = .ok q := by
  have hwrite := h.write_view
    (f := fun at' map => .ok (if at' = loc then writeMap map (.add added) else writeMap map .none))
    (g := fun at' recs => sort Record.keyType
      (if at' = loc then Psbt.put recs (added.map NewRecord.record) else recs)) (by
    intro at' recs hrecs
    have hframed := (h.recordsAt hrecs).framed
    split_ifs with hat
    · rw [writeMap_eq htyped, pool_add hframed]
    · rw [writeMap_eq typed_none, pool_none hframed])
  rw [editMap, bind_eq_ok, ← h.checkLoc_view]
  constructor
  · rintro ⟨u, hloc, hemit⟩
    rw [hwrite, emit_eq_ok] at hemit
    exact ⟨hloc, (Except.ok.inj hemit.1).symm, hemit.2⟩
  · rintro ⟨hloc, rfl, hout⟩
    exact ⟨(), hloc, (emit_eq_ok C).mpr ⟨hwrite, hout⟩⟩

theorem Doc.Valid.edit_perm {g : MapLoc → List Record → List Record}
    (hg : ∀ loc recs, doc.recordsAt loc = some recs → (g loc recs).Perm recs) :
    (doc.edit g).Valid C tx := by
  obtain ⟨hvalid, hunsigned, hlayout, hi, ho⟩ := Doc.valid_iff.mp h
  refine Doc.valid_iff.mpr ⟨?_, ?_, hlayout, ?_, ?_⟩
  · intro loc recs hrecs
    rw [Doc.recordsAt_edit, Option.map_eq_some_iff] at hrecs
    obtain ⟨recs₀, h₀, rfl⟩ := hrecs
    exact .of_perm (hg loc recs₀ h₀) (hvalid loc recs₀ h₀)
  · rw [← hunsigned]
    exact lookup_of_perm h.globals.nodup (hg .global _ rfl) _
  · rw [Doc.length_inputs_edit, hi]
  · rw [Doc.length_outputs_edit, ho]

end Correct

/-- The parser accepts canonical encodings only, and rewriting brings them to a
normal form. -/
theorem parse_canonical_rewrite {C : Purecrypto} {bytes : Bytes} {p : View} (h : parse C bytes = .ok p) :
    bytes = magic ++ (p.global :: (p.inputs ++ p.outputs)).flatMap
        (fun map => map.records.flatMap Record.encode ++ [0]) ∧
      p.inputs.length = p.tx.layout.inputCount ∧ p.outputs.length = p.tx.layout.outputCount ∧
      (∀ map ∈ p.global :: (p.inputs ++ p.outputs), (map.records.map (·.key)).Nodup) ∧
      ∃ out q, p.rewrite = .ok out ∧ parse C out = .ok q ∧ q.tx = p.tx ∧
        (∀ loc map, p.mapAt loc = some map → ∃ map', q.mapAt loc = some map' ∧
          StablySorted Record.keyType map.records map'.records) ∧
        q.rewrite = .ok out := by
  obtain ⟨doc, hdoc, rfl, hp⟩ := parse_eq_ok.mp h
  have hmaps : p.global :: (p.inputs ++ p.outputs) = doc.maps.map Map.ofRecords := by
    rw [hp, hdoc.inputs_view, hdoc.outputs_view, ← List.map_append]
    rfl
  have hvalid : ∀ recs ∈ doc.maps, ∃ kind, ValidRecords C kind recs :=
    Doc.forall_maps.mpr fun loc recs hrecs => ⟨_, hdoc.recordsAt hrecs⟩
  have hsorted : (doc.edit fun _ => sort Record.keyType).Valid C p.tx :=
    hdoc.edit_perm fun _ recs _ => sort_perm recs
  refine ⟨?_, ?_, ?_, ?_, (doc.edit fun _ => sort Record.keyType).encode,
    (doc.edit fun _ => sort Record.keyType).view p.tx, ?_, hsorted.parse_encode, rfl, ?_, ?_⟩
  · rw [hmaps, List.flatMap_map, Doc.encode_eq]
    congr 1
    apply List.flatMap_congr
    intro recs hrecs
    obtain ⟨kind, hr⟩ := hvalid recs hrecs
    rw [Map.records_ofRecords hr.framed]
    rfl
  · rw [hp, hdoc.inputs_view, List.length_map]
    exact hdoc.inputCount
  · rw [hp, hdoc.outputs_view, List.length_map]
    exact hdoc.outputCount
  · intro map hmap
    rw [hmaps] at hmap
    obtain ⟨recs, hrecs, rfl⟩ := List.mem_map.mp hmap
    obtain ⟨kind, hr⟩ := hvalid recs hrecs
    rw [Map.records_ofRecords hr.framed]
    exact hr.nodup
  · rw [hp]
    exact hdoc.rewrite_view
  · intro loc map hmap
    rw [hp, hdoc.mapAt_view, Option.map_eq_some_iff] at hmap
    obtain ⟨recs, hrecs, rfl⟩ := hmap
    have hr := hdoc.recordsAt hrecs
    refine ⟨Map.ofRecords (sort Record.keyType recs), ?_, ?_⟩
    · rw [hsorted.mapAt_view, Doc.recordsAt_edit, hrecs]
      rfl
    · rw [Map.records_ofRecords hr.framed,
        Map.records_ofRecords (hr.of_perm (sort_perm recs)).framed]
      exact sort_stablySorted _ _
  · rw [hsorted.rewrite_view]
    simp only [Doc.edit_edit, sort_sort]

theorem parse_canonical_rewrite_sample :
    let doc := sampleDoc [⟨[0x05], [0x51]⟩, ⟨[0x04], [0x52, 0x53]⟩] []
    ∃ p : View, parse .blank doc.encode = .ok p ∧
      ∃ out q, p.rewrite = .ok out ∧ parse .blank out = .ok q ∧ q.rewrite = .ok out := by
  obtain ⟨p, hp⟩ : ∃ p, parse .blank
      (sampleDoc [⟨[0x05], [0x51]⟩, ⟨[0x04], [0x52, 0x53]⟩] []).encode = .ok p :=
    exists_ok_of_isOk (by decide +kernel)
  obtain ⟨-, -, -, -, out, q, hout, hq, -, -, hagain⟩ := parse_canonical_rewrite hp
  exact ⟨p, hp, out, q, hout, hq, hagain⟩

end Outscript.Psbt
