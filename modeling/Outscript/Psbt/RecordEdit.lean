import Outscript.Psbt.Rewrite

/-!
# Setting a record

Records with nonempty keys are framed so that no byte of one can be taken for
another, so setting one changes nothing else. An empty key is written as a
terminator: what follows it, the value, then starts the next map.
-/
namespace Outscript.Psbt

open ByteString Cursor Fallible StableSort

/-- A record whose framing the reader follows. -/
structure Sized (r : Record) : Prop where
  key_ne : r.key ≠ []
  key_lt : r.key.length < 2 ^ 64
  value_lt : r.value.length < 2 ^ 64

theorem Framed.sized {r : Record} (h : Framed r) : Sized r :=
  ⟨h.canonical.ne_nil, h.key_lt, h.value_lt⟩

theorem encodeMap_nil : encodeMap [] = varBytesOf [] := rfl

theorem encodeMap_cons (r : Record) (recs : List Record) :
    encodeMap (r :: recs) = varBytesOf r.key ++ (varBytesOf r.value ++ encodeMap recs) := by
  simp only [encodeMap, encodeRecords_cons, List.append_assoc]

theorem encodeMap_ne_nil (recs : List Record) : encodeMap recs ≠ [] := by simp [encodeMap]

/-- A map ends where its records say. -/
theorem encodeMap_inj {as bs : List Record} (ha : ∀ r ∈ as, Sized r) (hb : ∀ r ∈ bs, Sized r)
    {s t : Bytes} (h : encodeMap as ++ s = encodeMap bs ++ t) : as = bs ∧ s = t := by
  induction as generalizing bs with
  | nil =>
    cases bs with
    | nil => exact ⟨rfl, List.append_cancel_left h⟩
    | cons b bs =>
      have hb' := hb b List.mem_cons_self
      rw [encodeMap_nil, encodeMap_cons, List.append_assoc] at h
      exact absurd (decodes_varBytes.prefix_free (by decide) hb'.key_lt h).1.symm hb'.key_ne
  | cons a as ih =>
    obtain ⟨ha', has⟩ := List.forall_mem_cons.mp ha
    cases bs with
    | nil =>
      rw [encodeMap_nil, encodeMap_cons, List.append_assoc] at h
      exact absurd (decodes_varBytes.prefix_free ha'.key_lt (by decide) h).1 ha'.key_ne
    | cons b bs =>
      obtain ⟨hb', hbs⟩ := List.forall_mem_cons.mp hb
      simp only [encodeMap_cons, List.append_assoc] at h
      obtain ⟨hkey, h⟩ := decodes_varBytes.prefix_free ha'.key_lt hb'.key_lt h
      obtain ⟨hvalue, h⟩ := decodes_varBytes.prefix_free ha'.value_lt hb'.value_lt h
      obtain ⟨rfl, rfl⟩ := ih has hbs h
      obtain ⟨key, value⟩ := a
      dsimp only at hkey hvalue
      rw [hkey, hvalue]
      exact ⟨rfl, rfl⟩

theorem encodeMaps_inj {as bs : List (List Record)} (ha : ∀ recs ∈ as, ∀ r ∈ recs, Sized r)
    (hb : ∀ recs ∈ bs, ∀ r ∈ recs, Sized r) (hlen : as.length = bs.length) {s t : Bytes}
    (h : as.flatMap encodeMap ++ s = bs.flatMap encodeMap ++ t) : as = bs ∧ s = t := by
  induction as generalizing bs with
  | nil =>
    obtain rfl := List.length_eq_zero_iff.mp hlen.symm
    exact ⟨rfl, h⟩
  | cons a as ih =>
    cases bs with
    | nil => cases hlen
    | cons b bs =>
      obtain ⟨ha', has⟩ := List.forall_mem_cons.mp ha
      obtain ⟨hb', hbs⟩ := List.forall_mem_cons.mp hb
      simp only [List.flatMap_cons, List.append_assoc] at h
      obtain ⟨rfl, htail⟩ := encodeMap_inj ha' hb' h
      obtain ⟨rfl, rfl⟩ := ih has hbs (Nat.succ.inj hlen) htail
      exact ⟨rfl, rfl⟩

namespace Doc

/-- The maps after the global one. -/
def body (doc : Doc) : List (List Record) := doc.inputs ++ doc.outputs

/-- A document from the maps after the global one. -/
def ofBody (globals : List Record) (body : List (List Record)) (inputCount : Nat) : Doc :=
  ⟨globals, body.take inputCount, body.drop inputCount⟩

theorem ofBody_body (doc : Doc) : ofBody doc.globals doc.body doc.inputs.length = doc := by
  simp [ofBody, body]

theorem body_edit (doc : Doc) (g : MapLoc → List Record → List Record) :
    (doc.edit g).body = doc.body.mapIdx fun j => g (mapLoc doc.inputs.length j) := by
  have h := congrArg (List.map fun lr : MapLoc × List Record => g lr.1 lr.2)
    (mapIdx_mapLoc doc.inputs doc.outputs)
  rw [map_mapIdx, List.map_append, map_mapIdx, map_mapIdx] at h
  exact h.symm

end Doc

theorem mapLoc_ne_global (n j : Nat) : mapLoc n j ≠ .global := by
  rw [mapLoc]
  split_ifs <;> exact MapLoc.noConfusion

theorem mapLoc_injective (n : Nat) : Function.Injective (mapLoc n) := by
  intro i j h
  simp only [mapLoc] at h
  split_ifs at h <;> simp only [MapLoc.input.injEq, MapLoc.output.injEq] at h <;> omega

section Sized

variable {C : Purecrypto} {globals : List Record} {tx : UnsignedTx}

/-- The parser takes sized records as they were written. -/
theorem parse_sized {body : List (List Record)} {rest : Bytes} {q : View}
    (hs : ∀ recs ∈ globals :: body, ∀ r ∈ recs, Sized r)
    (htx : lookup globals [0] = some tx.bytes) (hlayout : unsignedLayout tx.bytes = .ok tx.layout)
    (hlen : body.length = tx.layout.inputCount + tx.layout.outputCount)
    (h : parse C (magic ++ (encodeMap globals ++ (body.flatMap encodeMap ++ rest))) = .ok q) :
    rest = [] ∧ (Doc.ofBody globals body tx.layout.inputCount).Valid C tx ∧
      q = (Doc.ofBody globals body tx.layout.inputCount).view tx := by
  obtain ⟨doc, hdoc, hbytes, hq⟩ := parse_eq_ok.mp h
  obtain ⟨hglobals, hbody⟩ := List.forall_mem_cons.mp hs
  obtain ⟨rfl, henc⟩ := encodeMap_inj hglobals
    (fun r hr => (hdoc.globals.framed r hr).sized) (List.append_cancel_left hbytes)
  have hqtx : q.tx = tx :=
    unsignedTx_unique (Option.some.inj (hdoc.unsigned.symm.trans htx)) hdoc.layout hlayout
  rw [hqtx] at hdoc hq
  have hcount : body.length = doc.body.length := by
    rw [hlen, Doc.body, List.length_append, hdoc.inputCount, hdoc.outputCount]
  rw [Doc.mapBytes, ← List.append_nil ((doc.inputs ++ doc.outputs).flatMap _)] at henc
  obtain ⟨rfl, hrest⟩ := encodeMaps_inj hbody
    (fun recs hrecs r hr => (hdoc.framed_maps recs hrecs r hr).sized) hcount henc
  have hsame : Doc.ofBody doc.globals (doc.inputs ++ doc.outputs) tx.layout.inputCount = doc := by
    rw [← hdoc.inputCount]
    exact doc.ofBody_body
  rw [hsame]
  exact ⟨hrest, hdoc, hq⟩

end Sized

/-! ## What is read back -/

namespace View

/-- `out` parses to `p` with one key of one map set. -/
def Sets (C : Purecrypto) (p : View) (loc : MapLoc) (key value out : Bytes) : Prop :=
  ∃ q, parse C out = .ok q ∧ q.tx = p.tx ∧
    ∀ loc' key', q.value loc' key' =
      if loc' = loc ∧ key' = key then some value else p.value loc' key'

/-- The place after an input or output map. -/
def following (p : View) : MapLoc → MapLoc
  | .global => mapLoc p.tx.layout.inputCount 0
  | .input i => mapLoc p.tx.layout.inputCount (i + 1)
  | .output i => .output (i + 1)

/-- A value that can stand as the key of an empty record in the map after
`loc`, with room for it in the buffer. -/
structure Splices (C : Purecrypto) (p : View) (loc : MapLoc) (value : Bytes) (cap : Nat) :
    Prop where
  inRange : (p.mapAt loc).isSome
  next : ∃ map, p.mapAt (p.following loc) = some map ∧
    ValidRecords C (p.following loc).kind (⟨value, []⟩ :: map.records)
  fits : p.len + 1 + (varBytesOf value).length ≤ cap

end View

theorem encodeMap_emptyKey (recs : List Record) (value : Bytes) :
    encodeMap (recs ++ [⟨[], value⟩]) = encodeMap recs ++ (varBytesOf value ++ [0]) := by
  simp [encodeMap, encodeRecords_append, encodeRecords_cons, varBytesOf_nil]

theorem keyType_le (r : Record) : r.keyType ≤ keyTypeOf [] := by
  have hmax : keyTypeOf [] = 2 ^ 64 - 1 := by decide
  rw [hmax, Record.keyType, keyTypeOf]
  cases hv : Reader.varint.run (start r.key) with
  | error e => exact le_rfl
  | ok vc =>
    have hlt := ((decodes_varint _ _ _).mp hv).1
    dsimp only at hlt ⊢
    omega

/-- A record with an empty key is written last. -/
theorem sort_emptyKey (recs : List Record) (value : Bytes) :
    sort Record.keyType (recs ++ [⟨[], value⟩]) = sort Record.keyType recs ++ [⟨[], value⟩] := by
  have hsorted := sort_stablySorted Record.keyType recs
  refine (sort_stablySorted Record.keyType _).unique ⟨?_, fun k => ?_⟩
  · refine List.pairwise_append.mpr ⟨hsorted.sorted, List.pairwise_singleton _ _, ?_⟩
    rintro r - _ hr
    rw [List.mem_singleton.mp hr]
    exact keyType_le r
  · rw [List.filter_append, List.filter_append, hsorted.stable]

namespace Doc

variable {doc : Doc} {pre post : List (List Record)} {recs : List Record}

/-- An edit that treats one map apart. -/
theorem body_edit_at (hb : doc.body = pre ++ recs :: post) {g : MapLoc → List Record → List Record}
    {f : List Record → List Record}
    (hg : ∀ j, j ≠ pre.length → ∀ r, g (mapLoc doc.inputs.length j) r = f r) :
    (doc.edit g).body =
      pre.map f ++ g (mapLoc doc.inputs.length pre.length) recs :: post.map f := by
  rw [body_edit, hb, List.mapIdx_append, List.mapIdx_cons]
  congr 1
  · apply List.ext_getElem (by simp)
    intro j h₁ h₂
    rw [List.getElem_mapIdx, List.getElem_map]
    exact hg j (by simp at h₁; omega) _
  · rw [Nat.zero_add]
    congr 1
    apply List.ext_getElem (by simp)
    intro j h₁ h₂
    rw [List.getElem_mapIdx, List.getElem_map]
    exact hg _ (by omega) _

theorem body_put (hb : doc.body = pre ++ recs :: post) (news : List Record) :
    (doc.put (mapLoc doc.inputs.length pre.length) news).body =
      pre.map (sort Record.keyType) ++
        sort Record.keyType (Psbt.put recs news) :: post.map (sort Record.keyType) := by
  rw [put, body_edit_at hb (f := sort Record.keyType), if_pos rfl]
  intro j hj r
  rw [if_neg fun heq => hj (mapLoc_injective _ heq)]

/-- Where a map stands among the input and output maps. -/
theorem exists_split {loc : MapLoc} (hloc : loc ≠ .global) (hrecs : doc.recordsAt loc = some recs) :
    ∃ pre post, doc.body = pre ++ recs :: post ∧ loc = mapLoc doc.inputs.length pre.length := by
  cases loc with
  | global => exact absurd rfl hloc
  | input i =>
    obtain ⟨hi, rfl⟩ := List.getElem?_eq_some_iff.mp hrecs
    refine ⟨doc.inputs.take i, doc.inputs.drop (i + 1) ++ doc.outputs, ?_, ?_⟩
    · rw [body, ← List.cons_append, List.getElem_cons_drop, ← List.append_assoc,
        List.take_append_drop]
    · rw [List.length_take_of_le hi.le, mapLoc, if_pos hi]
  | output i =>
    obtain ⟨hi, rfl⟩ := List.getElem?_eq_some_iff.mp hrecs
    refine ⟨doc.inputs ++ doc.outputs.take i, doc.outputs.drop (i + 1), ?_, ?_⟩
    · rw [body, List.append_assoc, List.getElem_cons_drop, List.take_append_drop]
    · rw [List.length_append, List.length_take_of_le hi.le, mapLoc, if_neg (by omega),
        Nat.add_sub_cancel_left]

/-- The map at the `j`-th place after the global one. -/
theorem recordsAt_mapLoc (doc : Doc) (j : Nat) :
    doc.recordsAt (mapLoc doc.inputs.length j) = doc.body[j]? := by
  rw [mapLoc, body]
  split_ifs with hj
  · exact (List.getElem?_append_left hj).symm
  · exact (List.getElem?_append_right (Nat.le_of_not_lt hj)).symm

end Doc

section Correct

variable {C : Purecrypto} {doc : Doc} {tx : UnsignedTx} {loc : MapLoc}

theorem Doc.Valid.ne_emptyKey (h : doc.Valid C tx) {recs : List Record}
    (hrecs : doc.recordsAt loc = some recs) : ∀ r ∈ recs, r.key ≠ [] :=
  fun r hr => ((h.recordsAt hrecs).framed r hr).canonical.ne_nil

theorem Doc.Valid.sorted (h : doc.Valid C tx) :
    (doc.edit fun _ => sort Record.keyType).Valid C tx :=
  h.edit_perm fun _ recs _ => sort_perm recs

theorem Doc.Valid.lookup_sorted (h : doc.Valid C tx) :
    lookup (sort Record.keyType doc.globals) [0] = some tx.bytes := by
  rw [lookup_of_perm h.globals.nodup (sort_perm _)]
  exact h.unsigned

theorem Doc.Valid.length_body (h : doc.Valid C tx) :
    doc.body.length = tx.layout.inputCount + tx.layout.outputCount := by
  rw [Doc.body, List.length_append, h.inputCount, h.outputCount]

/-- A document of sized records that keeps the transaction is read as it is. -/
theorem Doc.Valid.parse_edit (h : doc.Valid C tx) {g : MapLoc → List Record → List Record}
    (hg : g .global doc.globals = sort Record.keyType doc.globals)
    (hs : ∀ at' recs, doc.recordsAt at' = some recs → ∀ r ∈ g at' recs, Sized r) {q : View}
    (hq : parse C (doc.edit g).encode = .ok q) :
    (doc.edit g).Valid C tx ∧ q = (doc.edit g).view tx := by
  have hsized : ∀ recs ∈ (doc.edit g).maps, ∀ r ∈ recs, Sized r := by
    rw [Doc.forall_maps]
    intro at' recs hrecs
    rw [Doc.recordsAt_edit, Option.map_eq_some_iff] at hrecs
    obtain ⟨recs, hrecs, rfl⟩ := hrecs
    exact hs at' recs hrecs
  have hbody : (doc.edit g).body.length = tx.layout.inputCount + tx.layout.outputCount := by
    rw [Doc.body_edit, List.length_mapIdx, h.length_body]
  have hlookup : lookup (doc.edit g).globals [0] = some tx.bytes := by
    rw [← h.lookup_sorted, ← hg]
    rfl
  have henc : (doc.edit g).encode = magic ++ (encodeMap (doc.edit g).globals ++
      ((doc.edit g).body.flatMap encodeMap ++ [])) := by rw [List.append_nil]; rfl
  rw [henc] at hq
  have hsame := (doc.edit g).ofBody_body
  rw [Doc.length_inputs_edit, h.inputCount, Doc.body] at hsame
  have hparsed := parse_sized hsized hlookup h.layout hbody hq
  rw [hsame] at hparsed
  exact hparsed.2

theorem Doc.Valid.parse_put (h : doc.Valid C tx) {news : List Record} (hloc : loc ≠ .global)
    (hs : ∀ r ∈ news, Sized r) {q : View} (hq : parse C (doc.put loc news).encode = .ok q) :
    (doc.put loc news).Valid C tx ∧ q = (doc.put loc news).view tx := by
  refine h.parse_edit (by rw [if_neg hloc.symm]) ?_ hq
  intro at' recs hrecs r hr
  have hr' := (sort_perm _).mem_iff.mp hr
  have hold : ∀ r ∈ recs, Sized r := fun r hr => ((h.recordsAt hrecs).framed r hr).sized
  split_ifs at hr'
  · rcases List.mem_append.mp hr' with hr' | hr'
    · exact hold r (List.mem_filter.mp hr').1
    · exact hs r hr'
  · exact hold r hr'

/-- Reading records back after some were put at one place. -/
theorem Doc.Valid.value_put (h : doc.Valid C tx) {news : List Record}
    (hp : (doc.put loc news).Valid C tx) (hnews : (news.map (·.key)).Nodup)
    (hin : (doc.recordsAt loc).isSome) (loc' : MapLoc) (key : Bytes) :
    ((doc.put loc news).view tx).value loc' key =
      if loc' = loc then (lookup news key).or ((doc.view tx).value loc' key)
      else (doc.view tx).value loc' key := by
  rw [hp.value_view, h.value_view, Doc.put, Doc.recordsAt_edit]
  cases hrecs : doc.recordsAt loc' with
  | none =>
    have hne : loc' ≠ loc := fun heq => by simp [← heq, hrecs] at hin
    rw [if_neg hne]
    rfl
  | some recs =>
    have hnodup := (h.recordsAt hrecs).nodup
    simp only [Option.map_some, Option.bind_some]
    split_ifs with heq
    · rw [lookup_of_perm ((nodup_put hnodup).mpr hnews) (sort_perm _), lookup_put]
    · rw [lookup_of_perm hnodup (sort_perm _)]

theorem flatMap_encodeMap_ne_nil {maps : List (List Record)} (h : maps ≠ []) :
    maps.flatMap encodeMap ≠ [] := by
  cases maps with
  | nil => exact absurd rfl h
  | cons recs maps =>
    intro hnil
    exact encodeMap_ne_nil recs (List.append_eq_nil_iff.mp hnil).1

/-- Nothing may follow the maps that the transaction calls for. -/
theorem Doc.Valid.no_surplus (h : doc.Valid C tx) {maps : List (List Record)} {rest : Bytes}
    (hs : ∀ recs ∈ maps, ∀ r ∈ recs, Sized r)
    (hlen : tx.layout.inputCount + tx.layout.outputCount ≤ maps.length) {q : View}
    (hq : parse C (magic ++ (encodeMap (sort Record.keyType doc.globals) ++
      (maps.flatMap encodeMap ++ rest))) = .ok q) :
    maps.length = tx.layout.inputCount + tx.layout.outputCount ∧ rest = [] := by
  have hglobals : ∀ r ∈ sort Record.keyType doc.globals, Sized r :=
    fun r hr => (h.globals.framed r ((sort_perm _).mem_iff.mp hr)).sized
  have hsplit := List.take_append_drop (tx.layout.inputCount + tx.layout.outputCount) maps
  rw [← hsplit, List.flatMap_append, List.append_assoc] at hq
  have hparsed := parse_sized
    (List.forall_mem_cons.mpr ⟨hglobals, fun recs hrecs => hs recs (List.mem_of_mem_take hrecs)⟩)
    h.lookup_sorted h.layout (List.length_take_of_le hlen) hq
  obtain ⟨hdrop, hrest⟩ := List.append_eq_nil_iff.mp hparsed.1
  refine ⟨le_antisymm ?_ hlen, hrest⟩
  by_contra hlt
  refine flatMap_encodeMap_ne_nil ?_ hdrop
  exact fun hnil => hlt (List.drop_eq_nil_iff.mp hnil)

/-- An empty key ends its map, and the value starts the next one. -/
theorem Doc.Valid.encode_emptyKey (h : doc.Valid C tx) {pre post : List (List Record)}
    {recs : List Record} (hb : doc.body = pre ++ recs :: post) (value : Bytes) :
    (doc.put (mapLoc doc.inputs.length pre.length) [⟨[], value⟩]).encode =
      magic ++ (encodeMap (sort Record.keyType doc.globals) ++
        ((pre.map (sort Record.keyType) ++ [sort Record.keyType recs]).flatMap encodeMap ++
          (varBytesOf value ++
            (encodeMap [] ++ (post.map (sort Record.keyType)).flatMap encodeMap)))) := by
  have hne : ∀ r ∈ recs, r.key ≠ [] := by
    have hmem : recs ∈ doc.inputs ++ doc.outputs := by
      change recs ∈ doc.body
      simp [hb]
    exact fun r hr => (h.framed_maps recs hmem r hr).canonical.ne_nil
  have hput : Psbt.put recs [⟨[], value⟩] = recs ++ [⟨[], value⟩] := by
    rw [Psbt.put, List.filter_eq_self.mpr]
    intro r hr
    simpa using hne r hr
  have hglobals : (doc.put (mapLoc doc.inputs.length pre.length) [⟨[], value⟩]).globals =
      sort Record.keyType doc.globals :=
    congrArg (sort Record.keyType) (if_neg (mapLoc_ne_global _ _).symm)
  have hmaps := Doc.body_put hb [⟨[], value⟩]
  rw [Doc.encode, Doc.mapBytes, ← Doc.body, hglobals, hmaps, hput, sort_emptyKey]
  simp only [List.flatMap_append, List.flatMap_cons, List.flatMap_nil, List.append_nil,
    encodeMap_emptyKey, List.append_assoc]
  rfl

/-- The sorted document with a record before those of the `j`-th map after the
global one. -/
def Doc.prepend (doc : Doc) (j : Nat) (r : Record) : Doc :=
  doc.edit fun at' recs =>
    if at' = mapLoc doc.inputs.length j then r :: sort Record.keyType recs
    else sort Record.keyType recs

theorem Doc.encode_prepend {pre post : List (List Record)} {recs : List Record}
    (hb : doc.body = pre ++ recs :: post) (r : Record) :
    (doc.prepend pre.length r).encode =
      magic ++ (encodeMap (sort Record.keyType doc.globals) ++
        ((pre.map (sort Record.keyType)).flatMap encodeMap ++
          (varBytesOf r.key ++ (varBytesOf r.value ++ (encodeMap (sort Record.keyType recs) ++
            (post.map (sort Record.keyType)).flatMap encodeMap))))) := by
  have hglobals : (doc.prepend pre.length r).globals = sort Record.keyType doc.globals :=
    if_neg (mapLoc_ne_global _ _).symm
  have hbody : (doc.prepend pre.length r).body = pre.map (sort Record.keyType) ++
      (r :: sort Record.keyType recs) :: post.map (sort Record.keyType) := by
    rw [Doc.prepend, Doc.body_edit_at hb (f := sort Record.keyType), if_pos rfl]
    intro j hj recs'
    rw [if_neg fun heq => hj (mapLoc_injective _ heq)]
  rw [Doc.encode, Doc.mapBytes, ← Doc.body, hglobals, hbody]
  simp only [List.flatMap_append, List.flatMap_cons, encodeMap_cons, List.append_assoc]

/-- Whether a record may stand before those of a map. -/
theorem Doc.Valid.parse_prepend (h : doc.Valid C tx) {j : Nat} {recs : List Record}
    (hrecs : doc.recordsAt (mapLoc doc.inputs.length j) = some recs) {r : Record} (hr : Sized r) :
    (∃ q, parse C (doc.prepend j r).encode = .ok q) ↔
      ValidRecords C (mapLoc doc.inputs.length j).kind (r :: recs) := by
  have hperm := (sort_perm recs).cons r
  constructor
  · rintro ⟨q, hq⟩
    have hvalid := (h.parse_edit (if_neg (mapLoc_ne_global _ _).symm) ?_ hq).1
    · have hat : (doc.prepend j r).recordsAt (mapLoc doc.inputs.length j) =
          some (r :: sort Record.keyType recs) := by
        rw [Doc.prepend, Doc.recordsAt_edit, hrecs, Option.map_some, if_pos rfl]
      exact (hvalid.recordsAt hat).of_perm hperm.symm
    · intro at' recs' hrecs' r' hr'
      have hold : ∀ r ∈ sort Record.keyType recs', Sized r := fun r hr =>
        ((h.recordsAt hrecs').framed r ((sort_perm _).mem_iff.mp hr)).sized
      split_ifs at hr'
      · rcases List.mem_cons.mp hr' with rfl | hr'
        · exact hr
        · exact hold r' hr'
      · exact hold r' hr'
  · intro hvalid
    have hdoc : (doc.prepend j r).Valid C tx := by
      refine Doc.valid_iff.mpr ⟨?_, ?_, h.layout, ?_, ?_⟩
      · intro at' recs' hrecs'
        rw [Doc.prepend, Doc.recordsAt_edit, Option.map_eq_some_iff] at hrecs'
        obtain ⟨recs₀, h₀, rfl⟩ := hrecs'
        split_ifs with hat
        · rw [hat, hrecs] at h₀
          rw [← Option.some.inj h₀, hat]
          exact hvalid.of_perm hperm
        · exact (h.recordsAt h₀).of_perm (sort_perm _)
      · rw [← h.lookup_sorted]
        exact congrArg (lookup · [0]) (if_neg (mapLoc_ne_global _ _).symm)
      · rw [Doc.prepend, Doc.length_inputs_edit, h.inputCount]
      · rw [Doc.prepend, Doc.length_outputs_edit, h.outputCount]
    exact ⟨_, hdoc.parse_encode⟩

theorem following_mapLoc {p : View} (j : Nat) :
    p.following (mapLoc p.tx.layout.inputCount j) = mapLoc p.tx.layout.inputCount (j + 1) := by
  simp only [mapLoc]
  split_ifs with hj hj' hj'
  · simp [View.following, mapLoc, hj']
  · simp [View.following, mapLoc, hj']
  · omega
  · simp only [View.following, MapLoc.output.injEq]
    omega

/-- A record with an empty key is accepted only as the start of the next map. -/
theorem Doc.Valid.parse_emptyKey (h : doc.Valid C tx) (hloc : loc ≠ .global)
    (hin : (doc.recordsAt loc).isSome) {value : Bytes} (hv : value.length < 2 ^ 64) :
    (∃ q, parse C (doc.put loc [⟨[], value⟩]).encode = .ok q) ↔
      ∃ recs, doc.recordsAt ((doc.view tx).following loc) = some recs ∧
        ValidRecords C ((doc.view tx).following loc).kind (⟨value, []⟩ :: recs) := by
  obtain ⟨recs, hrecs⟩ := Option.isSome_iff_exists.mp hin
  obtain ⟨pre, post, hb, rfl⟩ := Doc.exists_split hloc hrecs
  have hcount : doc.inputs.length = (doc.view tx).tx.layout.inputCount := h.inputCount
  have hnext : (doc.view tx).following (mapLoc doc.inputs.length pre.length) =
      mapLoc doc.inputs.length (pre.length + 1) := by rw [hcount, following_mapLoc]
  have hat : doc.recordsAt (mapLoc doc.inputs.length (pre.length + 1)) = post[0]? := by
    rw [Doc.recordsAt_mapLoc, hb, List.getElem?_append_right (Nat.le_succ _)]
    simp
  have hlen := h.length_body
  have hsized : ∀ recs ∈ doc.body.map (sort Record.keyType), ∀ r ∈ recs, Sized r := by
    intro sorted hsorted r hr
    obtain ⟨recs, hrecs, rfl⟩ := List.mem_map.mp hsorted
    exact (h.framed_maps recs hrecs r ((sort_perm _).mem_iff.mp hr)).sized
  rw [hb, List.length_append, List.length_cons] at hlen
  rw [hb, List.map_append, List.map_cons] at hsized
  rw [hnext, hat, h.encode_emptyKey hb]
  cases post with
  | nil =>
    -- no map follows, so the value is left over
    refine iff_of_false ?_ (by simp)
    rintro ⟨q, hq⟩
    have hsurplus := h.no_surplus hsized (by simp [← hlen]) hq
    exact varBytesOf_ne_nil value (List.append_eq_nil_iff.mp hsurplus.2).1
  | cons next post =>
    by_cases hnil : value = []
    · -- the value is one more terminator: two empty maps are inserted
      subst hnil
      refine iff_of_false ?_ ?_
      · rintro ⟨q, hq⟩
        have hsame : (pre.map (sort Record.keyType) ++ [sort Record.keyType recs]).flatMap encodeMap ++
            (varBytesOf [] ++
              (encodeMap [] ++ ((next :: post).map (sort Record.keyType)).flatMap encodeMap)) =
            (pre.map (sort Record.keyType) ++ sort Record.keyType recs ::
              [] :: [] :: (next :: post).map (sort Record.keyType)).flatMap encodeMap ++ [] := by
          simp [encodeMap_nil]
        rw [hsame] at hq
        have hsurplus := h.no_surplus (fun recs' hrecs' r hr => ?_) (by simp [← hlen]) hq
        · simp only [List.length_append, List.length_cons, List.length_map] at hsurplus hlen
          omega
        · rcases List.mem_append.mp hrecs' with hrecs' | hrecs'
          · exact hsized recs' (List.mem_append_left _ hrecs') r hr
          · simp only [List.mem_cons] at hrecs'
            rcases hrecs' with rfl | rfl | rfl | hrecs'
            · exact hsized _ (by simp) r hr
            · cases hr
            · cases hr
            · exact hsized recs' (by simpa using Or.inr (Or.inr hrecs')) r hr
      · rintro ⟨recs', -, hvalid⟩
        exact (hvalid.framed _ List.mem_cons_self).canonical.ne_nil rfl
    · -- the value is the key of an empty record before those of the next map
      have hb' : doc.body = (pre ++ [recs]) ++ next :: post := by
        rw [hb, List.append_assoc, List.singleton_append]
      have hlast : (pre ++ [recs]).length = pre.length + 1 := by
        rw [List.length_append, List.length_singleton]
      have hprepend := doc.encode_prepend hb' ⟨value, []⟩
      rw [hlast, List.map_append, List.map_singleton, ← encodeMap_nil] at hprepend
      have hrecs' : doc.recordsAt (mapLoc doc.inputs.length (pre.length + 1)) = some next := by
        rw [hat]
        rfl
      simp only [List.map_cons, List.flatMap_cons]
      have hsize : Sized ⟨value, []⟩ := ⟨hnil, hv, Nat.two_pow_pos 64⟩
      rw [← hprepend, h.parse_prepend hrecs' hsize]
      simp

theorem length_encodeMap_sort (recs : List Record) :
    (encodeMap (sort Record.keyType recs)).length = (encodeMap recs).length := by
  rw [encodeMap, encodeMap, List.length_append, List.length_append,
    length_encodeRecords_perm (sort_perm recs)]

theorem length_encodeMaps_sort (maps : List (List Record)) :
    ((maps.map (sort Record.keyType)).flatMap encodeMap).length =
      (maps.flatMap encodeMap).length := by
  induction maps with
  | nil => rfl
  | cons recs maps ih =>
    rw [List.map_cons, List.flatMap_cons, List.flatMap_cons, List.length_append,
      List.length_append, ih, length_encodeMap_sort]

theorem Doc.Valid.length_emptyKey (h : doc.Valid C tx) (hloc : loc ≠ .global)
    (hin : (doc.recordsAt loc).isSome) (value : Bytes) :
    (doc.put loc [⟨[], value⟩]).encode.length =
      doc.encode.length + 1 + (varBytesOf value).length := by
  obtain ⟨recs, hrecs⟩ := Option.isSome_iff_exists.mp hin
  obtain ⟨pre, post, hb, rfl⟩ := Doc.exists_split hloc hrecs
  rw [h.encode_emptyKey hb, Doc.encode, Doc.mapBytes, ← Doc.body, hb]
  simp only [List.length_append, List.flatMap_append, List.flatMap_cons, List.flatMap_nil,
    length_encodeMap_sort, length_encodeMaps_sort, encodeMap_nil, varBytesOf_nil,
    List.length_singleton, List.length_nil]
  omega

/-- No map holds a record with an empty key. -/
theorem value_emptyKey {bytes : Bytes} {q : View} (h : parse C bytes = .ok q) (loc : MapLoc) :
    q.value loc [] = none := by
  obtain ⟨doc, hdoc, -, hq⟩ := parse_eq_ok.mp h
  rw [hq, hdoc.value_view]
  cases hrecs : doc.recordsAt loc with
  | none => rfl
  | some recs =>
    refine lookup_eq_none.mpr fun hmem => ?_
    obtain ⟨r, hr, hkey⟩ := List.mem_map.mp hmem
    exact hdoc.ne_emptyKey hrecs r hr hkey

theorem View.not_sets_emptyKey {p : View} {value out : Bytes} : ¬ p.Sets C loc [] value out := by
  rintro ⟨q, hq, -, hvalue⟩
  have hnone := value_emptyKey hq loc
  rw [hvalue, if_pos ⟨rfl, rfl⟩] at hnone
  cases hnone

theorem typed_set (key value : Bytes) : (MapEdit.add [⟨key, [], value⟩]).Typed := by
  simp [MapEdit.Typed, MapEdit.add, NewRecord.keyType, NewRecord.record, Record.keyType]

/-- When setting a record with an empty key succeeds. -/
theorem Doc.Valid.splices_iff (h : doc.Valid C tx) (hloc : loc ≠ .global) {value : Bytes}
    (hv : value.length < 2 ^ 64) {cap : Nat} :
    (doc.view tx).Splices C loc value cap ↔
      ∃ out, editMap C (doc.view tx) cap loc (.add [⟨[], [], value⟩]) = .ok out := by
  have hmap : ((doc.view tx).mapAt loc).isSome = (doc.recordsAt loc).isSome := by
    rw [h.mapAt_view, Option.isSome_map]
  have hnext : (∃ map, (doc.view tx).mapAt ((doc.view tx).following loc) = some map ∧
        ValidRecords C ((doc.view tx).following loc).kind (⟨value, []⟩ :: map.records)) ↔
      ∃ recs, doc.recordsAt ((doc.view tx).following loc) = some recs ∧
        ValidRecords C ((doc.view tx).following loc).kind (⟨value, []⟩ :: recs) := by
    rw [h.mapAt_view]
    cases hrecs : doc.recordsAt ((doc.view tx).following loc) with
    | none => simp
    | some recs => simp [Map.records_ofRecords (h.recordsAt hrecs).framed]
  have hlen : (doc.view tx).len = doc.encode.length := rfl
  constructor
  · rintro ⟨hin, hsplice, hfits⟩
    rw [hmap] at hin
    refine ⟨_, (h.editMap_add_eq_ok (typed_set _ _)).mpr ⟨hin, rfl, ?_, ?_⟩⟩
    · rw [hlen, ← h.length_emptyKey hloc hin] at hfits
      exact hfits
    · exact (h.parse_emptyKey hloc hin hv).mpr (hnext.mp hsplice)
  · rintro ⟨out, hout⟩
    obtain ⟨hin, rfl, hfits, hparse⟩ := (h.editMap_add_eq_ok (typed_set _ _)).mp hout
    refine ⟨by rwa [hmap], hnext.mpr ((h.parse_emptyKey hloc hin hv).mp hparse), ?_⟩
    rw [hlen, ← h.length_emptyKey hloc hin]
    exact hfits

/-- Setting a record at one place, for nonempty and for empty keys. -/
theorem editMap_sets_iff {bytes : Bytes} {p : View} (h : parse C bytes = .ok p)
    (hloc : loc ≠ .global) {key value : Bytes} (hk : key.length < 2 ^ 64)
    (hv : value.length < 2 ^ 64) (cap : Nat) :
    (∀ out, editMap C p cap loc (.add [⟨key, [], value⟩]) = .ok out →
        p.Sets C loc key value out) ↔
      key ≠ [] ∨ ¬ p.Splices C loc value cap := by
  obtain ⟨doc, hdoc, -, hp⟩ := parse_eq_ok.mp h
  rw [hp]
  by_cases hkey : key = []
  · subst hkey
    rw [hdoc.splices_iff hloc hv]
    simp only [ne_eq, not_true, false_or]
    constructor
    · rintro hall ⟨out, hout⟩
      exact View.not_sets_emptyKey (hall out hout)
    · exact fun hno out hout => absurd ⟨out, hout⟩ hno
  · refine iff_of_true ?_ (Or.inl hkey)
    intro out hout
    obtain ⟨hin, rfl, -, q, hq⟩ := (hdoc.editMap_add_eq_ok (typed_set _ _)).mp hout
    have hsized : ∀ r ∈ [(⟨key, [], value⟩ : NewRecord)].map NewRecord.record, Sized r := by
      intro r hr
      rw [List.map_singleton, NewRecord.record, List.append_nil, List.mem_singleton] at hr
      rw [hr]
      exact ⟨hkey, hk, hv⟩
    obtain ⟨hput, hq'⟩ := hdoc.parse_put hloc hsized hq
    refine ⟨q, hq, by rw [hq']; rfl, ?_⟩
    intro loc' key'
    rw [hq', hdoc.value_put hput (by simp) hin]
    by_cases hloc' : loc' = loc
    · by_cases hkey' : key' = key
      · simp [hloc', hkey', lookup, NewRecord.record]
      · simp [hkey', lookup, NewRecord.record, Ne.symm hkey']
    · simp [hloc']

/-- A record edit touches only the record it names exactly when the key is not
empty, or the value cannot start the next map. -/
theorem setRecord_sets_iff {bytes : Bytes} {p : View} (h : parse C bytes = .ok p) (index : Nat)
    {key value : Bytes} (hk : key.length < 2 ^ 64) (hv : value.length < 2 ^ 64) (cap : Nat) :
    ((∀ out, setInputRecord C p index key value cap = .ok out →
        p.Sets C (.input index) key value out) ↔
      key ≠ [] ∨ ¬ p.Splices C (.input index) value cap) ∧
    ((∀ out, setOutputRecord C p index key value cap = .ok out →
        p.Sets C (.output index) key value out) ↔
      key ≠ [] ∨ ¬ p.Splices C (.output index) value cap) :=
  ⟨editMap_sets_iff h MapLoc.noConfusion hk hv cap, editMap_sets_iff h MapLoc.noConfusion hk hv cap⟩

end Correct

/-- Replacing a redeem script and adding a record to an output. -/
theorem setRecord_sets_sample :
    ∃ p, parse .blank (sampleDoc [⟨[0x04], [0x51]⟩] []).encode = .ok p ∧
      (∀ out, setInputRecord .blank p 0 [0x04] [0x52] 1000 = .ok out →
        p.Sets .blank (.input 0) [0x04] [0x52] out) ∧
      ∀ out, setOutputRecord .blank p 0 [0x04] [0x52] 1000 = .ok out →
        p.Sets .blank (.output 0) [0x04] [0x52] out := by
  obtain ⟨p, hp⟩ : ∃ p, parse .blank (sampleDoc [⟨[0x04], [0x51]⟩] []).encode = .ok p :=
    exists_ok_of_isOk (by decide +kernel)
  have hkey : ([0x04] : Bytes).length < 2 ^ 64 := by decide
  have hvalue : ([0x52] : Bytes).length < 2 ^ 64 := by decide
  have h := setRecord_sets_iff hp 0 hkey hvalue 1000
  exact ⟨p, hp, h.1.mpr (Or.inl (by decide)), h.2.mpr (Or.inl (by decide))⟩

/-- With an empty key, the value becomes a record of the next map. -/
theorem setInputRecord_splices :
    ∃ p out, parse .blank (sampleDoc [] []).encode = .ok p ∧
      setInputRecord .blank p 0 [] [0x00] 1000 = .ok out ∧
      ¬ p.Sets .blank (.input 0) [] [0x00] out ∧
      p.value (.output 0) [0x00] = none ∧
      ∃ q, parse .blank out = .ok q ∧ q.value (.output 0) [0x00] = some [] := by
  have hrun : (do
      let p ← parse .blank (sampleDoc [] []).encode
      let out ← setInputRecord .blank p 0 [] [0x00] 1000
      let q ← parse .blank out
      .ok (p.value (.output 0) [0x00], q.value (.output 0) [0x00])) =
        (.ok (none, some []) : Except Error (Option Bytes × Option Bytes)) := by decide +kernel
  obtain ⟨p, hp, hrun⟩ := bind_eq_ok.mp hrun
  obtain ⟨out, hout, hrun⟩ := bind_eq_ok.mp hrun
  obtain ⟨q, hq, hrun⟩ := bind_eq_ok.mp hrun
  obtain ⟨hbefore, hafter⟩ := Prod.mk.inj (Except.ok.inj hrun)
  exact ⟨p, out, hp, hout, View.not_sets_emptyKey, hbefore, q, hq, hafter⟩

end Outscript.Psbt
