import Outscript.Psbt.Validate

/-!
# Parsing a PSBT

A PSBT is a magic, a global map, and a map for every input and output of the
unsigned transaction that the global map holds. The parser accepts exactly the
encodings of valid documents, and the views it returns read those documents
back.
-/
namespace Outscript.Psbt

open ByteString Cursor Fallible

def magic : Bytes := [0x70, 0x73, 0x62, 0x74, 0xff]

structure UnsignedTx where
  bytes : Bytes
  layout : TxLayout
  deriving DecidableEq

/-- A validated view of a version-0 PSBT. -/
structure View where
  bytes : Bytes
  global : Map
  tx : UnsignedTx
  /-- Offset of the first input map. -/
  inputsAt : Nat
  deriving DecidableEq

section Parse

variable (C : Purecrypto)

def readMaps (kind : MapKind) : Nat → Reader Unit
  | 0 => pure ()
  | n + 1 => do
    let map ← Map.read
    lift (validateMap C kind map)
    readMaps kind n

def missingTx : Option Bytes → Except Error Bytes
  | some tx => .ok tx
  | none => .error .missingUnsignedTx

/-- The layout of an unsigned transaction; any error of the scanner is one. -/
def unsignedLayout (txBytes : Bytes) : Except Error TxLayout :=
  match TxLayout.parse txBytes false with
  | .error _ => .error .invalidUnsignedTx
  | .ok layout => if layout.unsigned then .ok layout else .error .invalidUnsignedTx

def readView (bytes : Bytes) : Reader View := do
  let global ← Map.read
  lift (validateMap C .global global)
  let txBytes ← lift (missingTx (global.getType Global.unsignedTx))
  let layout ← lift (unsignedLayout txBytes)
  let inputsAt ← pos
  readMaps C .input layout.inputCount
  readMaps C .output layout.outputCount
  let left ← remaining
  require (left = 0) .trailingData
  return { bytes, global, tx := ⟨txBytes, layout⟩, inputsAt }

/-- Parses and fully validates a binary PSBT. -/
def parse (bytes : Bytes) : Except Error View :=
  if bytes.take 5 = magic then
    match (readView C bytes).run (seek bytes 5) with
    | .ok (view, _) => .ok view
    | .error e => .error e
  else .error .invalidMagic

end Parse

/-- The unsigned transaction is determined by its bytes. -/
theorem unsignedTx_unique {t u : UnsignedTx} (h : t.bytes = u.bytes)
    (ht : unsignedLayout t.bytes = .ok t.layout) (hu : unsignedLayout u.bytes = .ok u.layout) :
    t = u := by
  obtain ⟨bytes, layout⟩ := t
  obtain ⟨bytes', layout'⟩ := u
  dsimp only at h ht hu
  subst h
  rw [ht] at hu
  rw [Except.ok.inj hu]

/-- Reads maps while they can be read. -/
def mapsFrom : Nat → State UInt8 → List Map
  | 0, _ => []
  | n + 1, c =>
    match Map.read.run c with
    | .ok (m, c') => m :: mapsFrom n c'
    | .error _ => []

namespace View

/-- The input maps followed by the output maps. -/
def maps (p : View) : List Map :=
  mapsFrom (p.tx.layout.inputCount + p.tx.layout.outputCount) (seek p.bytes p.inputsAt)

def inputs (p : View) : List Map := p.maps.take p.tx.layout.inputCount

def outputs (p : View) : List Map := p.maps.drop p.tx.layout.inputCount

/-- Input map `index`. -/
def input (p : View) (index : Nat) : Option Map := p.inputs[index]?

def len (p : View) : Nat := p.bytes.length

end View

/-! ## Documents -/

/-- The records of every map of a PSBT. -/
structure Doc where
  globals : List Record
  inputs : List (List Record)
  outputs : List (List Record)
  deriving DecidableEq

def encodeMap (recs : List Record) : Bytes := encodeRecords recs ++ [0]

namespace Doc

def mapBytes (doc : Doc) : Bytes := (doc.inputs ++ doc.outputs).flatMap encodeMap

def encode (doc : Doc) : Bytes := magic ++ (encodeMap doc.globals ++ doc.mapBytes)

/-- All maps, in the order in which they are written. -/
def maps (doc : Doc) : List (List Record) := doc.globals :: (doc.inputs ++ doc.outputs)

end Doc

/-- The value of a key in a list of records. -/
def lookup (recs : List Record) (key : Bytes) : Option Bytes :=
  (recs.find? (fun r => r.key = key)).map (·.value)

/-- A document that passes every check of the parser, with its transaction. -/
structure Doc.Valid (C : Purecrypto) (doc : Doc) (tx : UnsignedTx) : Prop where
  globals : ValidRecords C .global doc.globals
  inputs : ∀ recs ∈ doc.inputs, ValidRecords C .input recs
  outputs : ∀ recs ∈ doc.outputs, ValidRecords C .output recs
  unsigned : lookup doc.globals [0] = some tx.bytes
  layout : unsignedLayout tx.bytes = .ok tx.layout
  inputCount : doc.inputs.length = tx.layout.inputCount
  outputCount : doc.outputs.length = tx.layout.outputCount

def Doc.view (doc : Doc) (tx : UnsignedTx) : View :=
  { bytes := doc.encode
    global := Map.ofRecords doc.globals
    tx
    inputsAt := 5 + (encodeMap doc.globals).length }

/-- An unsigned transaction with one input and one output. -/
def sampleTx : Bytes :=
  [2, 0, 0, 0, 1] ++ List.replicate 32 7 ++ [0, 0, 0, 0, 0, 255, 255, 255, 255] ++
    [1, 16, 39, 0, 0, 0, 0, 0, 0, 0, 0, 0, 0, 0]

/-- The PSBT of `sampleTx` with the given records in its input and output. -/
def sampleDoc (input output : List Record) : Doc :=
  ⟨[⟨[0], sampleTx⟩], [input], [output]⟩

/-! ## Records by key -/

theorem lookup_eq_some {recs : List Record} (hn : (recs.map (·.key)).Nodup) {key value : Bytes} :
    lookup recs key = some value ↔ ⟨key, value⟩ ∈ recs := by
  induction recs with
  | nil => simp [lookup]
  | cons r recs ih =>
    obtain ⟨hr, hrecs⟩ := List.nodup_cons.mp hn
    rw [List.mem_cons]
    by_cases hk : r.key = key
    · have hfind : lookup (r :: recs) key = some r.value := by simp [lookup, hk]
      rw [hfind, Option.some.injEq]
      constructor
      · rintro rfl
        exact Or.inl (by rw [← hk])
      · rintro (heq | hmem)
        · rw [← heq]
        · exact absurd (List.mem_map.mpr ⟨_, hmem, hk.symm⟩) hr
    · have hfind : lookup (r :: recs) key = lookup recs key := by simp [lookup, hk]
      rw [hfind, ih hrecs]
      constructor
      · exact Or.inr
      · rintro (heq | hmem)
        · exact absurd (by rw [← heq]) hk
        · exact hmem

theorem lookup_eq_none {recs : List Record} {key : Bytes} :
    lookup recs key = none ↔ key ∉ recs.map (·.key) := by
  simp [lookup]

/-- A record without key data is found by its key type. -/
theorem getType_ofRecords {recs : List Record} (h : ∀ r ∈ recs, Framed r) {t : Nat}
    (ht : t < 2 ^ 64) : (Map.ofRecords recs).getType t = lookup recs (putVarint t) := by
  have hkey : ∀ r ∈ recs,
      (r.keyType = t ∧ r.keyData = [] ↔ r.key = putVarint t) := by
    intro r hr
    constructor
    · rintro ⟨h₁, h₂⟩
      rw [(h r hr).key_eq, h₁, h₂, List.append_nil]
    · intro hk
      have hcanon : r.key = putVarint t ++ [] := by rw [hk, List.append_nil]
      have hdata := keyData_append ht [] r.value
      rw [← hcanon] at hdata
      exact ⟨by rw [Record.keyType, hcanon, keyTypeOf_append ht], hdata⟩
  rw [Map.getType, Map.recordsOf, Map.records_ofRecords h, lookup, List.find?_filter]
  congr 1
  induction recs with
  | nil => rfl
  | cons r recs ih =>
    obtain ⟨hr, hrecs⟩ := List.forall_mem_cons.mp hkey
    have htail := ih (fun r hr => h r (List.mem_cons_of_mem _ hr)) hrecs
    simp only [decide_eq_true_eq] at htail
    simp only [List.find?_cons, decide_eq_true_eq, hr, htail]

theorem get_ofRecords {recs : List Record} (h : ∀ r ∈ recs, Framed r) (key : Bytes) :
    (Map.ofRecords recs).get key = lookup recs key := by
  rw [Map.get, Map.records_ofRecords h]
  rfl

/-! ## The parser and documents -/

theorem encodeMap_eq (recs : List Record) : encodeMap recs = (Map.ofRecords recs).bytes ++ [0] := rfl

theorem read_encodeMap {recs : List Record} (h : ∀ r ∈ recs, Framed r) (rest : Bytes) (p : Nat) :
    Map.read.run ⟨encodeMap recs ++ rest, p⟩ =
      .ok (Map.ofRecords recs, ⟨rest, p + (encodeMap recs).length⟩) :=
  Map.decodes_read.run_append ⟨recs, h, rfl⟩ rest p

theorem mapsFrom_encode {maps : List (List Record)} (h : ∀ recs ∈ maps, ∀ r ∈ recs, Framed r)
    (rest : Bytes) (p : Nat) :
    mapsFrom maps.length ⟨maps.flatMap encodeMap ++ rest, p⟩ = maps.map Map.ofRecords := by
  induction maps generalizing p with
  | nil => rfl
  | cons recs maps ih =>
    obtain ⟨hr, hmaps⟩ := List.forall_mem_cons.mp h
    rw [List.length_cons, mapsFrom, List.flatMap_cons, List.append_assoc, read_encodeMap hr]
    dsimp only
    rw [ih hmaps, List.map_cons]

/-- Maps are equal only if their records are. -/
theorem map_ofRecords_inj {as bs : List (List Record)} (ha : ∀ recs ∈ as, ∀ r ∈ recs, Framed r)
    (hb : ∀ recs ∈ bs, ∀ r ∈ recs, Framed r)
    (h : as.map Map.ofRecords = bs.map Map.ofRecords) : as = bs := by
  have hback {maps : List (List Record)} (hmaps : ∀ recs ∈ maps, ∀ r ∈ recs, Framed r) :
      (maps.map Map.ofRecords).map Map.records = maps := by
    rw [List.map_map]
    exact (List.map_congr_left fun recs hrecs => Map.records_ofRecords (hmaps recs hrecs)).trans
      (List.map_id _)
  rw [← hback ha, h, hback hb]

section Correct

variable {C : Purecrypto}

theorem readMaps_sound {kind : MapKind} {n : Nat} {c c' : State UInt8}
    (h : (readMaps C kind n).run c = .ok ((), c')) :
    ∃ maps : List (List Record), maps.length = n ∧ (∀ recs ∈ maps, ValidRecords C kind recs) ∧
      c.rest = maps.flatMap encodeMap ++ c'.rest ∧
      c'.pos = c.pos + (maps.flatMap encodeMap).length := by
  induction n generalizing c with
  | zero =>
    cases h
    exact ⟨[], rfl, by simp, rfl, rfl⟩
  | succ n ih =>
    obtain ⟨map, r, ⟨recs, hrecs, rfl⟩, h₁, h⟩ := Map.decodes_read.of_run_bind h
    obtain ⟨_, hv, h⟩ := of_run_lift_bind h
    obtain ⟨maps, hlen, hmaps, hrest, hpos⟩ := ih h
    dsimp only at hrest hpos
    refine ⟨recs :: maps, by rw [List.length_cons, hlen],
      List.forall_mem_cons.mpr ⟨(validateMap_ofRecords hrecs).mp hv, hmaps⟩, ?_, ?_⟩
    · simp only [h₁, hrest, List.flatMap_cons, List.append_assoc, encodeMap_eq]
    · simp only [hpos, List.flatMap_cons, List.length_append, encodeMap_eq, Nat.add_assoc]

theorem readMaps_complete {kind : MapKind} {maps : List (List Record)}
    (h : ∀ recs ∈ maps, ValidRecords C kind recs) (rest : Bytes) (p : Nat) :
    (readMaps C kind maps.length).run ⟨maps.flatMap encodeMap ++ rest, p⟩ =
      .ok ((), ⟨rest, p + (maps.flatMap encodeMap).length⟩) := by
  induction maps generalizing p with
  | nil => rfl
  | cons recs maps ih =>
    obtain ⟨hr, hmaps⟩ := List.forall_mem_cons.mp h
    have hread := Map.decodes_read.run_bind (a := Map.ofRecords recs)
      (q := fun map => do
        lift (validateMap C kind map)
        readMaps C kind maps.length)
      ⟨recs, hr.framed, rfl⟩ (maps.flatMap encodeMap ++ rest) p
    have hvalid := (validateMap_ofRecords hr.framed).mpr hr
    rw [List.length_cons, readMaps, List.flatMap_cons, List.append_assoc, encodeMap_eq, hread,
      run_lift_bind hvalid, ih hmaps]
    simp only [List.length_append, Nat.add_assoc]

theorem missingTx_eq_ok {o : Option Bytes} {tx : Bytes} : missingTx o = .ok tx ↔ o = some tx := by
  cases o <;> simp [missingTx]

theorem parse_eq_ok_iff_run {bytes : Bytes} {p : View} :
    parse C bytes = .ok p ↔ bytes.take 5 = magic ∧
      ∃ c', (readView C bytes).run (seek bytes 5) = .ok (p, c') := by
  rw [parse]
  split_ifs with hm
  · cases (readView C bytes).run (seek bytes 5) with
    | ok r =>
      obtain ⟨v, c'⟩ := r
      simp [hm, eq_comm]
    | error e => simp
  · simp [hm]

/-- The parser accepts exactly the encodings of valid documents. -/
theorem parse_eq_ok {bytes : Bytes} {p : View} :
    parse C bytes = .ok p ↔
      ∃ doc : Doc, doc.Valid C p.tx ∧ bytes = doc.encode ∧ p = doc.view p.tx := by
  rw [parse_eq_ok_iff_run]
  constructor
  · rintro ⟨hmagic, c', h⟩
    obtain ⟨global, r₁, ⟨recs, hrecs, rfl⟩, h₁, h⟩ := Map.decodes_read.of_run_bind h
    obtain ⟨_, hv, h⟩ := of_run_lift_bind h
    obtain ⟨txBytes, htx, h⟩ := of_run_lift_bind h
    obtain ⟨layout, hlayout, h⟩ := of_run_lift_bind h
    rw [run_pos_bind] at h
    obtain ⟨u, c₂, h₂, h⟩ := run_bind_ok.mp h
    obtain ⟨u', c₃, h₃, h⟩ := run_bind_ok.mp h
    rw [run_remaining_bind] at h
    obtain ⟨hnil, h⟩ := of_run_require_bind h
    obtain ⟨rfl, -⟩ := run_pure_ok.mp h
    obtain ⟨ins, hilen, hins, hirest, -⟩ := readMaps_sound h₂
    obtain ⟨outs, holen, houts, horest, -⟩ := readMaps_sound h₃
    have hvalid := (validateMap_ofRecords hrecs).mp hv
    rw [missingTx_eq_ok, getType_ofRecords hrecs (by decide)] at htx
    have hbytes : bytes = Doc.encode ⟨recs, ins, outs⟩ := by
      dsimp only [seek] at h₁ hirest
      rw [List.length_eq_zero_iff.mp hnil, List.append_nil] at horest
      rw [Doc.encode, Doc.mapBytes, ← List.take_append_drop 5 bytes, hmagic, h₁, hirest, horest,
        List.flatMap_append, encodeMap_eq]
    refine ⟨⟨recs, ins, outs⟩, ⟨hvalid, hins, houts, htx, hlayout, hilen, holen⟩, hbytes, ?_⟩
    rw [Doc.view, ← hbytes]
    rfl
  · rintro ⟨doc, ⟨hg, hi, ho, htx, hlayout, hilen, holen⟩, rfl, hp⟩
    have hdrop : seek doc.encode 5 = ⟨encodeMap doc.globals ++ doc.mapBytes, 5⟩ := rfl
    refine ⟨rfl, ⟨[], 5 + (encodeMap doc.globals).length + doc.mapBytes.length⟩, ?_⟩
    have hin := readMaps_complete hi (doc.outputs.flatMap encodeMap)
      (5 + (encodeMap doc.globals).length)
    have hout := readMaps_complete ho []
      (5 + (encodeMap doc.globals).length + (doc.inputs.flatMap encodeMap).length)
    rw [List.append_nil] at hout
    rw [hilen] at hin
    rw [holen] at hout
    have htx' : missingTx ((Map.ofRecords doc.globals).getType Global.unsignedTx) =
        .ok p.tx.bytes := by
      rw [missingTx_eq_ok, getType_ofRecords hg.framed (by decide)]
      exact htx
    rw [hdrop, readView]
    refine run_bind_ok.mpr ⟨_, _, read_encodeMap hg.framed _ _, ?_⟩
    rw [run_lift_bind ((validateMap_ofRecords hg.framed).mpr hg), run_lift_bind htx',
      run_lift_bind hlayout, run_pos_bind]
    rw [Doc.mapBytes, List.flatMap_append, List.length_append]
    refine run_bind_ok.mpr ⟨_, _, hin, run_bind_ok.mpr ⟨_, _, hout, ?_⟩⟩
    rw [hp]
    simp only [Nat.add_assoc]
    rfl

variable {doc : Doc} {tx : UnsignedTx} (h : doc.Valid C tx)

include h

theorem Doc.Valid.parse_encode : parse C doc.encode = .ok (doc.view tx) :=
  parse_eq_ok.mpr ⟨doc, h, rfl, rfl⟩

theorem Doc.Valid.framed_maps : ∀ recs ∈ doc.inputs ++ doc.outputs, ∀ r ∈ recs, Framed r := by
  intro recs hrecs
  rcases List.mem_append.mp hrecs with hrecs | hrecs
  · exact (h.inputs recs hrecs).framed
  · exact (h.outputs recs hrecs).framed

/-- The views give the maps of the document back. -/
theorem Doc.Valid.maps_view : (doc.view tx).maps = (doc.inputs ++ doc.outputs).map Map.ofRecords := by
  have hlen : tx.layout.inputCount + tx.layout.outputCount =
      (doc.inputs ++ doc.outputs).length := by
    rw [List.length_append, h.inputCount, h.outputCount]
  have hseek : seek doc.encode (5 + (encodeMap doc.globals).length) =
      ⟨(doc.inputs ++ doc.outputs).flatMap encodeMap ++ [],
        5 + (encodeMap doc.globals).length⟩ := by
    rw [seek, ← List.drop_drop]
    simp [Doc.encode, magic, Doc.mapBytes]
  have hmaps := mapsFrom_encode h.framed_maps [] (5 + (encodeMap doc.globals).length)
  rw [← hlen, ← hseek] at hmaps
  exact hmaps

theorem Doc.Valid.inputs_view : (doc.view tx).inputs = doc.inputs.map Map.ofRecords := by
  have hlen : (doc.view tx).tx.layout.inputCount = (doc.inputs.map Map.ofRecords).length := by
    rw [List.length_map]
    exact h.inputCount.symm
  rw [View.inputs, h.maps_view, List.map_append, hlen, List.take_left]

theorem Doc.Valid.outputs_view : (doc.view tx).outputs = doc.outputs.map Map.ofRecords := by
  have hlen : (doc.view tx).tx.layout.inputCount = (doc.inputs.map Map.ofRecords).length := by
    rw [List.length_map]
    exact h.inputCount.symm
  rw [View.outputs, h.maps_view, List.map_append, hlen, List.drop_left]

omit h in
/-- A document is determined by its bytes. -/
theorem Doc.Valid.unique {doc' : Doc} {tx' : UnsignedTx} (h : doc.Valid C tx)
    (h' : doc'.Valid C tx') (heq : doc.encode = doc'.encode) : doc = doc' ∧ tx = tx' := by
  have hp := h.parse_encode
  rw [heq, h'.parse_encode] at hp
  have hview := Except.ok.inj hp
  have htx : tx' = tx := congrArg View.tx hview
  subst htx
  have hglobals : doc'.globals = doc.globals := by
    have hmap : Map.ofRecords doc'.globals = Map.ofRecords doc.globals :=
      congrArg View.global hview
    rw [← Map.records_ofRecords h'.globals.framed, hmap,
      Map.records_ofRecords h.globals.framed]
  have hinputs : doc'.inputs = doc.inputs :=
    map_ofRecords_inj (fun recs hrecs => (h'.inputs recs hrecs).framed)
      (fun recs hrecs => (h.inputs recs hrecs).framed)
      (by rw [← h'.inputs_view, ← h.inputs_view, hview])
  have houtputs : doc'.outputs = doc.outputs :=
    map_ofRecords_inj (fun recs hrecs => (h'.outputs recs hrecs).framed)
      (fun recs hrecs => (h.outputs recs hrecs).framed)
      (by rw [← h'.outputs_view, ← h.outputs_view, hview])
  refine ⟨?_, rfl⟩
  cases doc
  cases doc'
  simp_all

end Correct

end Outscript.Psbt
