import Outscript.Library.StableSort
import Outscript.Psbt.Parse

/-!
# Writing maps

A map is written by ascending key type: the records kept, then those merged in
from another map, then those added. The writer passes over the three lists once
to find each key type and once more to emit it; what it emits is their
concatenation, stably sorted.
-/
namespace Outscript.Psbt

open ByteString StableSort

/-- A record to add to a map. Its full key is `key` followed by `keyTail`. -/
structure NewRecord where
  key : Bytes
  keyTail : Bytes
  value : Bytes
  deriving DecidableEq

namespace NewRecord

def hasKey (a : NewRecord) (key : Bytes) : Bool :=
  key.length = a.key.length + a.keyTail.length && a.key.isPrefixOf key &&
    a.keyTail.isSuffixOf key

def keyType (a : NewRecord) : Nat := keyTypeOf a.key

def record (a : NewRecord) : Record := ⟨a.key ++ a.keyTail, a.value⟩

end NewRecord

/-- How to rewrite a map: keep some of its records, merge in the records of
another map, and add (or replace) records. -/
structure MapEdit where
  keep : Option (Record → Bool)
  secondary : Option Map
  added : List NewRecord

namespace MapEdit

def none : MapEdit := ⟨.none, .none, []⟩

def add (added : List NewRecord) : MapEdit := { none with added }

def merge (secondary : Map) : MapEdit := { none with secondary := some secondary }

def isAdded (edit : MapEdit) (key : Bytes) : Bool := edit.added.any (·.hasKey key)

/-- The records of the map that stay. -/
def primary (edit : MapEdit) (map : Map) : List Record :=
  map.records.filter fun r => edit.keep.all (· r) && !edit.isAdded r.key

/-- The records of the other map that have no counterpart. -/
def merged (edit : MapEdit) (map : Map) : List Record :=
  (edit.secondary.elim [] Map.records).filter fun r =>
    !map.containsKey r.key && !edit.isAdded r.key

/-- All records of the rewritten map, before they are sorted. -/
def pool (edit : MapEdit) (map : Map) : List Record :=
  edit.primary map ++ (edit.merged map ++ edit.added.map NewRecord.record)

end MapEdit

def putRecordSplit (a : NewRecord) : Bytes :=
  putVarint (a.key.length + a.keyTail.length) ++
    (a.key ++ (a.keyTail ++ (putVarint a.value.length ++ a.value)))

def putRecord (r : Record) : Bytes := putRecordSplit ⟨r.key, [], r.value⟩

/-- The key types that the writer considers. -/
def keyTypes (map : Map) (edit : MapEdit) : List Nat :=
  (edit.primary map).map Record.keyType ++
    ((edit.merged map).map Record.keyType ++ edit.added.map NewRecord.keyType)

/-- The records of one key type. -/
def writeGroup (map : Map) (edit : MapEdit) (t : Nat) : Bytes :=
  ((edit.primary map).filter (fun r => r.keyType = t)).flatMap putRecord ++
    (((edit.merged map).filter (fun r => r.keyType = t)).flatMap putRecord ++
      (edit.added.filter (fun a => a.keyType = t)).flatMap putRecordSplit)

/-- Writes `map` with `edit` applied, and the terminator. -/
def writeMap (map : Map) (edit : MapEdit) : Bytes :=
  select (keyTypes map edit) (writeGroup map edit) ((keyTypes map edit).length + 1) .none ++ [0]

theorem NewRecord.hasKey_iff {a : NewRecord} {key : Bytes} :
    a.hasKey key = true ↔ key = a.record.key := by
  simp only [hasKey, record, Bool.and_eq_true, decide_eq_true_eq, List.isPrefixOf_iff_prefix,
    List.isSuffixOf_iff_suffix]
  constructor
  · rintro ⟨⟨hlen, front, rfl⟩, tail, htail⟩
    have hfront : tail.length = a.key.length := by
      have hlens := congrArg List.length htail
      simp only [List.length_append] at hlens hlen
      omega
    obtain ⟨-, rfl⟩ := List.append_inj htail hfront
    rfl
  · rintro rfl
    exact ⟨⟨by simp, List.prefix_append _ _⟩, List.suffix_append _ _⟩

theorem putRecordSplit_eq (a : NewRecord) : putRecordSplit a = a.record.encode := by
  simp [putRecordSplit, NewRecord.record, Record.encode, varBytesOf]

theorem putRecord_eq (r : Record) : putRecord r = r.encode := by
  rw [putRecord, putRecordSplit_eq, NewRecord.record, List.append_nil]

namespace MapEdit

variable {edit : MapEdit} {map : Map}

theorem isAdded_iff {key : Bytes} :
    edit.isAdded key = true ↔ key ∈ edit.added.map (·.record.key) := by
  simp only [isAdded, List.any_eq_true, NewRecord.hasKey_iff, List.mem_map, @eq_comm _ key]

/-- Key data never changes the key type of a new record. -/
def Typed (edit : MapEdit) : Prop := ∀ a ∈ edit.added, a.keyType = a.record.keyType

theorem keyTypes_eq (h : edit.Typed) : keyTypes map edit = (edit.pool map).map Record.keyType := by
  have hadded : edit.added.map NewRecord.keyType =
      (edit.added.map NewRecord.record).map Record.keyType := by
    rw [List.map_map]
    exact List.map_congr_left h
  rw [keyTypes, pool, List.map_append, List.map_append, hadded]

theorem writeGroup_eq (h : edit.Typed) (t : Nat) :
    writeGroup map edit t =
      ((edit.pool map).filter (fun r => r.keyType = t)).flatMap Record.encode := by
  have hadded : (edit.added.filter (fun a => a.keyType = t)).flatMap putRecordSplit =
      ((edit.added.map NewRecord.record).filter (fun r => r.keyType = t)).flatMap
        Record.encode := by
    rw [List.filter_map, List.flatMap_map]
    have hfilter : edit.added.filter (fun a => a.keyType = t) =
        edit.added.filter ((fun r => decide (r.keyType = t)) ∘ NewRecord.record) :=
      List.filter_congr fun a ha => by simp only [Function.comp, h a ha]
    rw [hfilter]
    exact List.flatMap_congr fun a _ => putRecordSplit_eq a
  have hput (l : List Record) : l.flatMap putRecord = l.flatMap Record.encode :=
    List.flatMap_congr fun r _ => putRecord_eq r
  rw [writeGroup, hadded, hput, hput, pool]
  simp only [List.filter_append, List.flatMap_append]

end MapEdit

/-- The writer emits every record of the pool once, stably sorted by key type. -/
theorem writeMap_eq {edit : MapEdit} (h : edit.Typed) (map : Map) :
    writeMap map edit = encodeMap (sort Record.keyType (edit.pool map)) := by
  have hgroup : writeGroup map edit = fun t =>
      ((edit.pool map).filter (fun r => r.keyType = t)).flatMap Record.encode :=
    funext fun t => MapEdit.writeGroup_eq h t
  rw [writeMap, hgroup, select_flatMap, MapEdit.keyTypes_eq h, List.length_map]
  rfl

theorem typed_none : MapEdit.none.Typed := by simp [MapEdit.Typed, MapEdit.none]

theorem pool_none {recs : List Record} (h : ∀ r ∈ recs, Framed r) :
    MapEdit.none.pool (Map.ofRecords recs) = recs := by
  rw [MapEdit.pool, MapEdit.primary, MapEdit.merged, Map.records_ofRecords h]
  simp [MapEdit.none, MapEdit.isAdded]

/-! ## Replacing records -/

/-- The records with new ones added, in place of those with the same keys. -/
def put (recs news : List Record) : List Record :=
  recs.filter (fun r => r.key ∉ news.map (·.key)) ++ news

theorem pool_add {added : List NewRecord} {recs : List Record} (h : ∀ r ∈ recs, Framed r) :
    (MapEdit.add added).pool (Map.ofRecords recs) = put recs (added.map NewRecord.record) := by
  have hkeep : ∀ r ∈ recs, (!(MapEdit.add added).isAdded r.key) =
      decide (r.key ∉ (added.map NewRecord.record).map (·.key)) := by
    intro r _
    rw [Bool.eq_iff_iff, Bool.not_eq_true', ← Bool.not_eq_true, MapEdit.isAdded_iff, List.map_map,
      decide_eq_true_eq]
    rfl
  rw [MapEdit.pool, MapEdit.primary, MapEdit.merged, Map.records_ofRecords h, put]
  simp only [MapEdit.add, MapEdit.none, Option.all_none, Bool.true_and, Option.elim_none,
    List.filter_nil, List.nil_append]
  exact congrArg (· ++ _) (List.filter_congr hkeep)

theorem lookup_append (xs ys : List Record) (key : Bytes) :
    lookup (xs ++ ys) key = (lookup xs key).or (lookup ys key) := by
  rw [lookup, lookup, lookup, List.find?_append, Option.map_or]

theorem lookup_filter_keys (recs : List Record) (keys : List Bytes) (key : Bytes) :
    lookup (recs.filter fun r => r.key ∉ keys) key =
      if key ∈ keys then none else lookup recs key := by
  induction recs with
  | nil => simp [lookup]
  | cons r recs ih =>
    rw [List.filter_cons]
    by_cases hkey : r.key = key
    · subst hkey
      by_cases hmem : r.key ∈ keys
      · simpa [hmem] using ih
      · simp [hmem, lookup]
    · have hcons (l : List Record) : lookup (r :: l) key = lookup l key := by simp [lookup, hkey]
      split_ifs at ih ⊢ <;> simp_all

/-- The new values win, and the rest is as it was. -/
theorem lookup_put (recs news : List Record) (key : Bytes) :
    lookup (put recs news) key = (lookup news key).or (lookup recs key) := by
  rw [put, lookup_append, lookup_filter_keys]
  by_cases hmem : key ∈ news.map (·.key)
  · rw [if_pos hmem]
    cases hnew : lookup news key with
    | none => exact absurd hmem (lookup_eq_none.mp hnew)
    | some value => rfl
  · rw [if_neg hmem, lookup_eq_none.mpr hmem, Option.or_none, Option.none_or]

theorem nodup_put {recs news : List Record} (hr : (recs.map (·.key)).Nodup) :
    ((put recs news).map (·.key)).Nodup ↔ (news.map (·.key)).Nodup := by
  rw [put, List.map_append, List.nodup_append]
  constructor
  · exact fun h => h.2.1
  · refine fun h => ⟨hr.sublist (List.filter_sublist.map _), h, ?_⟩
    rintro key hkey _ hnew rfl
    obtain ⟨r, hrmem, rfl⟩ := List.mem_map.mp hkey
    exact (by simpa using (List.mem_filter.mp hrmem).2 : r.key ∉ news.map (·.key)) hnew

/-! ## Sorted record lists -/

section Sorted

variable {C : Purecrypto} {kind : MapKind} {xs ys : List Record}

/-- A rearrangement of valid records is valid. -/
theorem ValidRecords.of_perm (hp : ys.Perm xs) (h : ValidRecords C kind xs) :
    ValidRecords C kind ys :=
  ⟨fun r hr => h.framed r (hp.mem_iff.mp hr), (hp.map _).nodup_iff.mpr h.nodup,
    fun r hr => h.valid r (hp.mem_iff.mp hr)⟩

/-- With distinct keys, the value of a key does not depend on the order. -/
theorem lookup_of_perm (hn : (xs.map (·.key)).Nodup) (hp : ys.Perm xs) (key : Bytes) :
    lookup ys key = lookup xs key := by
  have hn' : (ys.map (·.key)).Nodup := (hp.map _).nodup_iff.mpr hn
  ext value
  rw [lookup_eq_some hn', lookup_eq_some hn, hp.mem_iff]

theorem sort_perm (xs : List Record) : (sort Record.keyType xs).Perm xs :=
  (sort_stablySorted _ _).perm

theorem length_encodeRecords_perm (hp : ys.Perm xs) :
    (encodeRecords ys).length = (encodeRecords xs).length :=
  (hp.flatMap_right _).length_eq

end Sorted

end Outscript.Psbt
