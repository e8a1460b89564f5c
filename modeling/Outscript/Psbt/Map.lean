import Outscript.Psbt.Reader

/-!
# Key-value maps

A map is its encoded records, read up to a zero byte. The records read back
from it are the ones it was made of, whatever bytes their keys and values hold,
because every length is canonical and no key is empty.
-/
namespace Outscript.Psbt

open ByteString Cursor

structure Record where
  key : Bytes
  value : Bytes
  deriving DecidableEq

/-- The key type; `u64::MAX` for a key that has none. -/
def keyTypeOf (key : Bytes) : Nat :=
  match Reader.varint.run (start key) with
  | .ok (v, _) => v
  | .error _ => 2 ^ 64 - 1

namespace Record

def keyType (r : Record) : Nat := keyTypeOf r.key

def keyData (r : Record) : Bytes :=
  match BtcVarInt.decode r.key with
  | some (_, n) => r.key.drop n
  | none => []

def encode (r : Record) : Bytes := varBytesOf r.key ++ varBytesOf r.value

end Record

/-- The encoded records, without the terminating zero byte. -/
structure Map where
  bytes : Bytes
  deriving DecidableEq

namespace Map

/-- Where the terminator stands. `fuel` bounds the number of records. -/
def scan : Nat → Reader Nat
  | 0 => throw .unexpectedEof
  | fuel + 1 => do
    let at' ← pos
    let key ← Reader.varBytes
    if key = [] then pure at'
    else do
      let _ ← lift (Reader.varint.run (start key))
      let _ ← Reader.varBytes
      scan fuel

/-- Reads one map with its terminator, checking only the framing. -/
def read : Reader Map := fun c =>
  match (scan (c.rest.length + 1)).run c with
  | .ok (at', c') => .ok (⟨c.rest.take (at' - c.pos)⟩, c')
  | .error e => .error e

def recordsFrom : Nat → State UInt8 → List Record
  | 0, _ => []
  | fuel + 1, c =>
    if c.rest = [] then []
    else
      match Reader.varBytes.run c with
      | .error _ => []
      | .ok (key, c₁) =>
        match Reader.varBytes.run c₁ with
        | .error _ => []
        | .ok (value, c₂) => ⟨key, value⟩ :: recordsFrom fuel c₂

/-- The records, in encoded order. -/
def records (m : Map) : List Record := recordsFrom m.bytes.length (start m.bytes)

def recordsOf (m : Map) (keyType : Nat) : List Record :=
  m.records.filter (fun r => r.keyType = keyType)

/-- The value of the record with the given full key. -/
def get (m : Map) (key : Bytes) : Option Bytes :=
  (m.records.find? (fun r => r.key = key)).map (·.value)

/-- The value of the record of `keyType` without key data. -/
def getType (m : Map) (keyType : Nat) : Option Bytes :=
  ((m.recordsOf keyType).find? (fun r => r.keyData = [])).map (·.value)

def containsKey (m : Map) (key : Bytes) : Bool := m.records.any (fun r => r.key = key)

def checkDuplicates (m : Map) : Except Error Unit :=
  if (m.records.map (·.key)).Nodup then .ok () else .error .duplicateKey

end Map

/-! ## Framing -/

/-- A key that starts with a canonical key type. -/
def CanonicalKey (key : Bytes) : Prop := ∃ t data, t < 2 ^ 64 ∧ key = putVarint t ++ data

/-- A record that can stand in a map. -/
structure Framed (r : Record) : Prop where
  key_lt : r.key.length < 2 ^ 64
  value_lt : r.value.length < 2 ^ 64
  canonical : CanonicalKey r.key

def encodeRecords (recs : List Record) : Bytes := recs.flatMap Record.encode

def Map.ofRecords (recs : List Record) : Map := ⟨encodeRecords recs⟩

@[simp] theorem encodeRecords_nil : encodeRecords [] = [] := rfl

theorem encodeRecords_cons (r : Record) (recs : List Record) :
    encodeRecords (r :: recs) = varBytesOf r.key ++ (varBytesOf r.value ++ encodeRecords recs) := by
  rw [encodeRecords, List.flatMap_cons, Record.encode, List.append_assoc]
  rfl

theorem encodeRecords_append (a b : List Record) :
    encodeRecords (a ++ b) = encodeRecords a ++ encodeRecords b := List.flatMap_append

theorem varint_start_ok_iff {key : Bytes} :
    (∃ r, Reader.varint.run (start key) = .ok r) ↔ CanonicalKey key := by
  constructor
  · rintro ⟨⟨t, c⟩, h⟩
    obtain ⟨ht, hrest, -⟩ := (decodes_varint _ _ _).mp h
    exact ⟨t, c.rest, ht, hrest⟩
  · rintro ⟨t, data, ht, rfl⟩
    exact ⟨_, decodes_varint.run_append ht data 0⟩

theorem CanonicalKey.ne_nil {key : Bytes} (h : CanonicalKey key) : key ≠ [] := by
  obtain ⟨t, data, -, rfl⟩ := h
  intro hnil
  exact BtcVarInt.toArray_ne_nil t (List.append_eq_nil_iff.mp hnil).1

theorem keyTypeOf_append {t : Nat} (ht : t < 2 ^ 64) (data : Bytes) :
    keyTypeOf (putVarint t ++ data) = t := by
  rw [keyTypeOf, start, decodes_varint.run_append ht]

theorem keyData_append {t : Nat} (ht : t < 2 ^ 64) (data value : Bytes) :
    Record.keyData ⟨putVarint t ++ data, value⟩ = data := by
  rw [Record.keyData, putVarint, BtcVarInt.decode_toArray ht]
  dsimp only
  rw [← BtcVarInt.length_toArray, List.drop_left]

/-- A framed key is its type and its data. -/
theorem Framed.key_eq {r : Record} (h : Framed r) :
    r.key = putVarint r.keyType ++ r.keyData := by
  obtain ⟨key, value⟩ := r
  obtain ⟨t, data, ht, hkey⟩ := h.canonical
  dsimp only at hkey
  subst hkey
  rw [keyData_append ht, Record.keyType, keyTypeOf_append ht]

theorem length_encodeRecords (recs : List Record) :
    recs.length ≤ (encodeRecords recs).length := by
  induction recs with
  | nil => exact Nat.zero_le _
  | cons r recs ih =>
    have hpos := List.length_pos_iff.mpr (varBytesOf_ne_nil r.key)
    rw [encodeRecords_cons, List.length_append, List.length_append, List.length_cons]
    omega

namespace Map

theorem scan_encodeRecords {recs : List Record} (h : ∀ r ∈ recs, Framed r) {fuel : Nat}
    (hfuel : recs.length < fuel) (rest : Bytes) (p : Nat) :
    (scan fuel).run ⟨encodeRecords recs ++ 0 :: rest, p⟩ =
      .ok (p + (encodeRecords recs).length, ⟨rest, p + (encodeRecords recs).length + 1⟩) := by
  induction recs generalizing fuel p with
  | nil =>
    obtain ⟨fuel, rfl⟩ := Nat.exists_eq_succ_of_ne_zero (Nat.ne_of_gt hfuel)
    have hread := decodes_varBytes.run_bind (a := [])
      (q := fun key => if key = [] then pure p else do
        let _ ← lift (Reader.varint.run (start key))
        let _ ← Reader.varBytes
        scan fuel) (by decide) rest p
    rw [scan, run_pos_bind]
    exact hread
  | cons r recs ih =>
    obtain ⟨fuel, rfl⟩ := Nat.exists_eq_succ_of_ne_zero (Nat.ne_of_gt (Nat.zero_lt_of_lt hfuel))
    obtain ⟨hr, hrecs⟩ := List.forall_mem_cons.mp h
    obtain ⟨t, ht⟩ := varint_start_ok_iff.mpr hr.canonical
    rw [scan, run_pos_bind, encodeRecords_cons, List.append_assoc, List.append_assoc,
      decodes_varBytes.run_bind hr.key_lt, if_neg hr.canonical.ne_nil, run_lift_bind ht,
      decodes_varBytes.run_bind hr.value_lt,
      ih hrecs (Nat.lt_of_succ_lt_succ hfuel), List.length_append, List.length_append]
    simp only [Nat.add_assoc]

theorem scan_sound {fuel : Nat} {c c' : State UInt8} {at' : Nat}
    (h : (scan fuel).run c = .ok (at', c')) :
    ∃ recs, (∀ r ∈ recs, Framed r) ∧ c.rest = encodeRecords recs ++ 0 :: c'.rest ∧
      at' = c.pos + (encodeRecords recs).length := by
  induction fuel generalizing c with
  | zero => cases h
  | succ fuel ih =>
    rw [scan, run_pos_bind] at h
    obtain ⟨key, r₁, hkey, h₁, h⟩ := decodes_varBytes.of_run_bind h
    split_ifs at h with hnil
    · cases h
      refine ⟨[], by simp, ?_, rfl⟩
      rw [h₁, hnil, varBytesOf_nil]
      rfl
    · obtain ⟨p, hp, h⟩ := of_run_lift_bind h
      obtain ⟨value, r₂, hvalue, h₂, h⟩ := decodes_varBytes.of_run_bind h
      obtain ⟨recs, hrecs, hrest, hat⟩ := ih h
      dsimp only at h₂ hrest hat
      have hframed : Framed ⟨key, value⟩ := ⟨hkey, hvalue, varint_start_ok_iff.mp ⟨p, hp⟩⟩
      refine ⟨⟨key, value⟩ :: recs, List.forall_mem_cons.mpr ⟨hframed, hrecs⟩, ?_, ?_⟩
      · rw [encodeRecords_cons, h₁, h₂, hrest]
        simp only [List.append_assoc]
      · rw [encodeRecords_cons, List.length_append, List.length_append, hat]
        simp only [Nat.add_assoc]

/-- The maps that a reader returns. -/
def WellFramed (m : Map) : Prop := ∃ recs, (∀ r ∈ recs, Framed r) ∧ m = ofRecords recs

theorem decodes_read : Decodes read WellFramed (fun m => m.bytes ++ [0]) := by
  apply Decodes.intro
  · rintro m rest p ⟨recs, hrecs, rfl⟩
    have hfuel : recs.length < ((encodeRecords recs ++ [0]) ++ rest).length + 1 := by
      have := length_encodeRecords recs
      simp only [List.length_append]
      omega
    have hscan := scan_encodeRecords hrecs hfuel rest p
    simp only [ofRecords, List.append_assoc, List.singleton_append] at hscan ⊢
    simp only [read, StateT.run] at hscan ⊢
    rw [hscan]
    dsimp only
    rw [Nat.add_sub_cancel_left, List.take_left, List.length_append]
    rfl
  · intro c m c' h
    simp only [read, StateT.run] at h
    cases hs : scan (c.rest.length + 1) c with
    | error e => rw [hs] at h; cases h
    | ok r =>
      obtain ⟨at', c₁⟩ := r
      rw [hs] at h
      cases h
      obtain ⟨recs, hrecs, hrest, rfl⟩ := scan_sound hs
      have hbytes : c.rest.take (c.pos + (encodeRecords recs).length - c.pos) =
          encodeRecords recs := by rw [Nat.add_sub_cancel_left, hrest, List.take_left]
      rw [hbytes]
      exact ⟨⟨recs, hrecs, rfl⟩, c'.rest, by rw [hrest, List.append_assoc]; rfl⟩

theorem recordsFrom_encodeRecords {recs : List Record} (h : ∀ r ∈ recs, Framed r) {fuel : Nat}
    (hfuel : recs.length ≤ fuel) (p : Nat) :
    recordsFrom fuel ⟨encodeRecords recs, p⟩ = recs := by
  induction recs generalizing fuel p with
  | nil => cases fuel <;> rfl
  | cons r recs ih =>
    obtain ⟨fuel, rfl⟩ := Nat.exists_eq_succ_of_ne_zero (Nat.ne_of_gt (Nat.zero_lt_of_lt hfuel))
    obtain ⟨hr, hrecs⟩ := List.forall_mem_cons.mp h
    have hne : ¬ (varBytesOf r.key ++ (varBytesOf r.value ++ encodeRecords recs)) = [] :=
      fun hnil => varBytesOf_ne_nil _ (List.append_eq_nil_iff.mp hnil).1
    rw [recordsFrom, encodeRecords_cons, if_neg hne, decodes_varBytes.run_append hr.key_lt]
    dsimp only
    rw [decodes_varBytes.run_append hr.value_lt]
    dsimp only
    rw [ih hrecs (Nat.le_of_succ_le_succ hfuel)]

/-- The records of a map are the ones it was made of. -/
theorem records_ofRecords {recs : List Record} (h : ∀ r ∈ recs, Framed r) :
    (ofRecords recs).records = recs :=
  recordsFrom_encodeRecords h (length_encodeRecords recs) 0

end Map

end Outscript.Psbt
