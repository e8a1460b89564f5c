import Outscript.Cbor.Head

/-!
# CBOR values

Encoding sorts the entries of a map by their encoded keys, shorter keys first,
so equal encodings are of values equal up to the order of map entries. Decoding
gives such a value back.
-/
namespace Outscript

open ByteString Cursor

inductive Cbor where
  | uint (v : UInt64)
  | bytes (b : Bytes)
  | array (items : List Cbor)
  | map (entries : List (Cbor × Cbor))
  | bool (b : Bool)
  | null
  /-- Encoded bytes, inserted as they are. -/
  | raw (b : Bytes)

namespace Cbor

/-- Encoded keys compare by length, then byte by byte. -/
def keyOrder (key : Bytes) : ℕ ×ₗ List ℕ := toLex (key.length, key.map UInt8.toNat)

def keyLe (a b : Bytes × Bytes) : Prop := keyOrder a.1 ≤ keyOrder b.1

instance : DecidableRel keyLe := fun _ _ => inferInstanceAs (Decidable (_ ≤ _))

mutual

def encode : Cbor → Bytes
  | .uint v => writeHead 0 v.toNat
  | .bytes b => writeHead 2 b.length ++ b
  | .array items => writeHead 4 items.length ++ encodeItems items
  | .map entries =>
    let encoded := (encodeEntries entries).insertionSort keyLe
    writeHead 5 encoded.length ++ encoded.flatMap (fun e => e.1 ++ e.2)
  | .bool b => [if b then 0xf5 else 0xf4]
  | .null => [0xf6]
  | .raw b => b

def encodeItems : List Cbor → Bytes
  | [] => []
  | item :: items => item.encode ++ encodeItems items

def encodeEntries : List (Cbor × Cbor) → List (Bytes × Bytes)
  | [] => []
  | (k, v) :: entries => (k.encode, v.encode) :: encodeEntries entries

end

/-! ## Decoding -/

/-- A container's count against what is left of the data. -/
def checkCount (count : ℕ) : Read UInt8 Error ℕ := do
  let left ← remaining
  require (count ≤ left) .unexpectedEof
  pure count

/-- What follows a head. The containers, if any may be opened, hold what `inner`
reads. -/
def decodeArg (inner : Option (Read UInt8 Error Cbor)) (major : UInt8) (arg : ℕ) :
    Read UInt8 Error Cbor :=
  if major = 0 then pure (.uint (UInt64.ofNat arg))
  else if major = 2 then do
    let b ← take .unexpectedEof arg
    pure (.bytes b)
  else if major = 4 then
    match inner with
    | none => throw .nestingTooDeep
    | some inner => do
      let count ← checkCount arg
      let items ← many inner count
      pure (.array items)
  else if major = 5 then
    match inner with
    | none => throw .nestingTooDeep
    | some inner => do
      -- two items an entry
      require (arg * 2 < 2 ^ 64) .unexpectedEof
      let count ← checkCount (arg * 2)
      let entries ← many (do
        let k ← inner
        let v ← inner
        pure (k, v)) (count / 2)
      pure (.map entries)
  else if major = 7 then
    if arg = 20 then pure (.bool false)
    else if arg = 21 then pure (.bool true)
    else if arg = 22 ∨ arg = 23 then pure .null
    else throw (.unsupportedSimpleValue arg)
  else throw (.unsupportedMajorType major)

def decodeBody (inner : Option (Read UInt8 Error Cbor)) : Read UInt8 Error Cbor := do
  let (major, arg, indefinite) ← readHead
  require (¬ (indefinite = true ∧ (major = 0 ∨ major = 2 ∨ major = 4 ∨ major = 5)))
    .unsupportedIndefiniteLength
  decodeArg inner major arg

/-- Arrays and maps may be opened `left` deep. -/
def decodeValue : ℕ → Read UInt8 Error Cbor
  | 0 => decodeBody none
  | left + 1 => decodeBody (some (decodeValue left))

def maxDepth : ℕ := 64

/-- The value at the front of the data, and the number of bytes it takes. -/
def decode (data : Bytes) : Except Error (Cbor × ℕ) := do
  let (v, c) ← (decodeValue maxDepth).run (start data)
  .ok (v, c.pos)

def asBytes : Cbor → Option Bytes
  | .bytes b => some b
  | _ => none

def asUint : Cbor → Option UInt64
  | .uint v => some v
  | _ => none

def asArray : Cbor → Option (List Cbor)
  | .array items => some items
  | _ => none

def asMap : Cbor → Option (List (Cbor × Cbor))
  | .map entries => some entries
  | _ => none

/-! ## Values up to the order of map entries -/

mutual

/-- Equal up to permuting the entries of maps at any level. -/
inductive Same : Cbor → Cbor → Prop
  | refl (c : Cbor) : Same c c
  | array {xs ys : List Cbor} (h : SameItems xs ys) : Same (.array xs) (.array ys)
  | map {xs ys : List (Cbor × Cbor)} (h : SameEntries xs ys) : Same (.map xs) (.map ys)

inductive SameItems : List Cbor → List Cbor → Prop
  | nil : SameItems [] []
  | cons {x y : Cbor} {xs ys : List Cbor} (h : Same x y) (hs : SameItems xs ys) :
      SameItems (x :: xs) (y :: ys)

inductive SameEntries : List (Cbor × Cbor) → List (Cbor × Cbor) → Prop
  | nil : SameEntries [] []
  | cons {k k' v v' : Cbor} {es es' : List (Cbor × Cbor)} (hk : Same k k') (hv : Same v v')
      (hs : SameEntries es es') : SameEntries ((k, v) :: es) ((k', v') :: es')
  | swap (e e' : Cbor × Cbor) (es : List (Cbor × Cbor)) :
      SameEntries (e :: e' :: es) (e' :: e :: es)
  | trans {es es' es'' : List (Cbor × Cbor)} (h : SameEntries es es') (h' : SameEntries es' es'') :
      SameEntries es es''

end

mutual

theorem Same.symm {a b : Cbor} : Same a b → Same b a
  | .refl c => .refl c
  | .array h => .array h.symm
  | .map h => .map h.symm

theorem SameItems.symm {xs ys : List Cbor} : SameItems xs ys → SameItems ys xs
  | .nil => .nil
  | .cons h hs => .cons h.symm hs.symm

theorem SameEntries.symm {xs ys : List (Cbor × Cbor)} : SameEntries xs ys → SameEntries ys xs
  | .nil => .nil
  | .cons hk hv hs => .cons hk.symm hv.symm hs.symm
  | .swap e e' es => .swap e' e es
  | .trans h h' => .trans h'.symm h.symm

end

mutual

theorem Same.trans {a b c : Cbor} : Same a b → Same b c → Same a c
  | .refl _, h => h
  | .array h, .refl _ => .array h
  | .array h, .array h' => .array (h.trans' h')
  | .map h, .refl _ => .map h
  | .map h, .map h' => .map (.trans h h')

theorem SameItems.trans' {xs ys zs : List Cbor} : SameItems xs ys → SameItems ys zs →
    SameItems xs zs
  | .nil, .nil => .nil
  | .cons h hs, .cons h' hs' => .cons (h.trans h') (hs.trans' hs')

end

theorem SameItems.refl (xs : List Cbor) : SameItems xs xs := by
  induction xs with
  | nil => exact .nil
  | cons x xs ih => exact .cons (.refl x) ih

theorem SameEntries.refl (es : List (Cbor × Cbor)) : SameEntries es es := by
  induction es with
  | nil => exact .nil
  | cons e es ih => exact .cons (.refl e.1) (.refl e.2) ih

/-- Entries may stand in any order. -/
theorem SameEntries.of_perm {es es' : List (Cbor × Cbor)} (h : es.Perm es') :
    SameEntries es es' := by
  induction h with
  | nil => exact .nil
  | cons e _ ih => exact .cons (.refl e.1) (.refl e.2) ih
  | swap e e' es => exact .swap e' e es
  | trans _ _ ih ih' => exact .trans ih ih'

/-! ## Sorted entries -/

theorem keyOrder_injective : Function.Injective keyOrder := by
  intro a b h
  have hbytes : a.map UInt8.toNat = b.map UInt8.toNat := (Prod.mk.inj h).2
  exact List.map_injective_iff.mpr (fun _ _ => UInt8.toNat_inj.mp) hbytes

instance : Std.Total keyLe := ⟨fun a b => le_total (keyOrder a.1) (keyOrder b.1)⟩

instance : IsTrans (Bytes × Bytes) keyLe := ⟨fun _ _ _ => le_trans⟩

/-- An entry, encoded. -/
def encodeEntry (e : Cbor × Cbor) : Bytes × Bytes := (e.1.encode, e.2.encode)

def entryLe (e e' : Cbor × Cbor) : Prop := keyLe (encodeEntry e) (encodeEntry e')

instance : DecidableRel entryLe := fun _ _ => inferInstanceAs (Decidable (keyLe _ _))

instance : Std.Total entryLe := ⟨fun e e' => le_total (keyOrder e.1.encode) (keyOrder e'.1.encode)⟩

instance : IsTrans (Cbor × Cbor) entryLe := ⟨fun _ _ _ => le_trans⟩

theorem encodeItems_eq (items : List Cbor) : encodeItems items = items.flatMap encode := by
  induction items with
  | nil => rfl
  | cons item items ih => rw [encodeItems, ih, List.flatMap_cons]

theorem encodeEntries_eq (entries : List (Cbor × Cbor)) :
    encodeEntries entries = entries.map encodeEntry := by
  induction entries with
  | nil => rfl
  | cons e entries ih => rw [encodeEntries, ih, List.map_cons, encodeEntry]

/-- The bytes of the entries in their order. -/
def entryBytes (e : Cbor × Cbor) : Bytes := e.1.encode ++ e.2.encode

theorem encode_array (items : List Cbor) :
    (array items).encode = writeHead 4 items.length ++ items.flatMap encode := by
  rw [encode, encodeItems_eq]

theorem encode_map (entries : List (Cbor × Cbor)) :
    (map entries).encode =
      writeHead 5 entries.length ++ (entries.insertionSort entryLe).flatMap entryBytes := by
  have hsort : (entries.map encodeEntry).insertionSort keyLe =
      (entries.insertionSort entryLe).map encodeEntry :=
    (List.map_insertionSort entryLe keyLe encodeEntry entries (fun _ _ _ _ => Iff.rfl)).symm
  rw [encode, encodeEntries_eq, hsort]
  simp only [List.length_map, List.length_insertionSort, List.flatMap_map]
  rfl

mutual

/-- The value with the entries of its maps as they are encoded. -/
def canon : Cbor → Cbor
  | .uint v => .uint v
  | .bytes b => .bytes b
  | .array items => .array (canonItems items)
  | .map entries => .map ((canonEntries entries).insertionSort entryLe)
  | .bool b => .bool b
  | .null => .null
  | .raw b => .raw b

def canonItems : List Cbor → List Cbor
  | [] => []
  | item :: items => item.canon :: canonItems items

def canonEntries : List (Cbor × Cbor) → List (Cbor × Cbor)
  | [] => []
  | (k, v) :: entries => (k.canon, v.canon) :: canonEntries entries

end

theorem canonItems_eq (items : List Cbor) : canonItems items = items.map canon := by
  induction items with
  | nil => rfl
  | cons item items ih => rw [canonItems, ih, List.map_cons]

theorem canonEntries_eq (entries : List (Cbor × Cbor)) :
    canonEntries entries = entries.map (fun e => (e.1.canon, e.2.canon)) := by
  induction entries with
  | nil => rfl
  | cons e entries ih => rw [canonEntries, ih, List.map_cons]

mutual

/-- Sorting the entries changes no encoding. -/
theorem encode_canon (c : Cbor) : c.canon.encode = c.encode := by
  cases c with
  | uint v => rfl
  | bytes b => rfl
  | array items =>
    have hlen : (canonItems items).length = items.length := by
      rw [canonItems_eq, List.length_map]
    rw [canon, encode, encode, encodeItems_canon, hlen]
  | map entries =>
    have hencoded : ((canonEntries entries).insertionSort entryLe).map encodeEntry =
        (encodeEntries entries).insertionSort keyLe := by
      rw [← encodeEntries_canon entries, encodeEntries_eq]
      exact List.map_insertionSort entryLe keyLe encodeEntry _ (fun _ _ _ _ => Iff.rfl)
    have hsorted := List.pairwise_insertionSort keyLe (encodeEntries entries)
    rw [canon, encode, encode, encodeEntries_eq, hencoded, hsorted.insertionSort_eq]
  | bool b => rfl
  | null => rfl
  | raw b => rfl

theorem encodeItems_canon (items : List Cbor) :
    encodeItems (canonItems items) = encodeItems items := by
  cases items with
  | nil => rfl
  | cons item items =>
    rw [canonItems, encodeItems, encodeItems, encode_canon item, encodeItems_canon items]

theorem encodeEntries_canon (entries : List (Cbor × Cbor)) :
    encodeEntries (canonEntries entries) = encodeEntries entries := by
  cases entries with
  | nil => rfl
  | cons e entries =>
    obtain ⟨k, v⟩ := e
    rw [canonEntries, encodeEntries, encodeEntries, encode_canon k, encode_canon v,
      encodeEntries_canon entries]

end

mutual

theorem same_canon (c : Cbor) : Same c c.canon := by
  cases c with
  | uint v => exact .refl _
  | bytes b => exact .refl _
  | array items => exact .array (same_canonItems items)
  | map entries =>
    refine .map (.trans (same_canonEntries entries) (.of_perm ?_))
    exact (List.perm_insertionSort entryLe _).symm
  | bool b => exact .refl _
  | null => exact .refl _
  | raw b => exact .refl _

theorem same_canonItems (items : List Cbor) : SameItems items (canonItems items) := by
  cases items with
  | nil => exact .nil
  | cons item items => exact .cons (same_canon item) (same_canonItems items)

theorem same_canonEntries (entries : List (Cbor × Cbor)) :
    SameEntries entries (canonEntries entries) := by
  cases entries with
  | nil => exact .nil
  | cons e entries =>
    obtain ⟨k, v⟩ := e
    exact .cons (same_canon k) (same_canon v) (same_canonEntries entries)

end

/-! ## Reading what was written -/

mutual

/-- No encoded bytes are inserted. -/
def RawFree : Cbor → Prop
  | .array items => RawFreeItems items
  | .map entries => RawFreeEntries entries
  | .raw _ => False
  | _ => True

def RawFreeItems : List Cbor → Prop
  | [] => True
  | item :: items => item.RawFree ∧ RawFreeItems items

def RawFreeEntries : List (Cbor × Cbor) → Prop
  | [] => True
  | (k, v) :: entries => k.RawFree ∧ v.RawFree ∧ RawFreeEntries entries

end

mutual

/-- How deep arrays and maps are nested. -/
def depth : Cbor → ℕ
  | .array items => depthItems items + 1
  | .map entries => depthEntries entries + 1
  | _ => 0

def depthItems : List Cbor → ℕ
  | [] => 0
  | item :: items => max item.depth (depthItems items)

def depthEntries : List (Cbor × Cbor) → ℕ
  | [] => 0
  | (k, v) :: entries => max (max k.depth v.depth) (depthEntries entries)

end

/-- What a decoder takes at a nesting of `left` more levels. -/
structure Readable (left : ℕ) (c : Cbor) : Prop where
  rawFree : c.RawFree
  depth_le : c.depth ≤ left
  fits : c.encode.length < 2 ^ 64

theorem rawFreeItems_iff (items : List Cbor) :
    RawFreeItems items ↔ ∀ c ∈ items, c.RawFree := by
  induction items with
  | nil => simp [RawFreeItems]
  | cons item items ih => simp [RawFreeItems, ih]

theorem rawFreeEntries_iff (entries : List (Cbor × Cbor)) :
    RawFreeEntries entries ↔ ∀ e ∈ entries, e.1.RawFree ∧ e.2.RawFree := by
  induction entries with
  | nil => simp [RawFreeEntries]
  | cons e entries ih => simp [RawFreeEntries, ih, and_assoc]

theorem depthItems_le_iff (items : List Cbor) (n : ℕ) :
    depthItems items ≤ n ↔ ∀ c ∈ items, c.depth ≤ n := by
  induction items with
  | nil => simp [depthItems]
  | cons item items ih => simp [depthItems, ih]

theorem depthEntries_le_iff (entries : List (Cbor × Cbor)) (n : ℕ) :
    depthEntries entries ≤ n ↔ ∀ e ∈ entries, e.1.depth ≤ n ∧ e.2.depth ≤ n := by
  induction entries with
  | nil => simp [depthEntries]
  | cons e entries ih => simp [depthEntries, ih, and_assoc]

theorem writeHead_ne_nil (major : UInt8) (value : ℕ) : writeHead major value ≠ [] := by
  unfold writeHead
  dsimp only
  split_ifs <;> simp

/-- An item takes a byte at least. -/
theorem encode_length_pos {c : Cbor} (h : c.RawFree) : 0 < c.encode.length := by
  have hhead : ∀ (major : UInt8) (value : ℕ) (tail : Bytes),
      0 < (writeHead major value ++ tail).length := by
    intro major value tail
    have := List.length_pos_iff.mpr (writeHead_ne_nil major value)
    rw [List.length_append]
    omega
  cases c with
  | uint v =>
    rw [encode]
    exact List.length_pos_iff.mpr (writeHead_ne_nil _ _)
  | bytes b =>
    rw [encode]
    exact hhead _ _ _
  | array items =>
    rw [encode]
    exact hhead _ _ _
  | map entries =>
    rw [encode]
    exact hhead _ _ _
  | bool b => exact Nat.one_pos
  | null => exact Nat.one_pos
  | raw b => exact absurd h id

theorem length_items_le {items : List Cbor} (hraw : ∀ c ∈ items, c.RawFree) :
    items.length ≤ (items.flatMap encode).length := by
  have hle := List.length_le_sum_of_one_le (items.map fun c => c.encode.length) (by
    simp only [List.mem_map, forall_exists_index, and_imp, forall_apply_eq_imp_iff₂]
    exact fun c hc => encode_length_pos (hraw c hc))
  rw [List.length_map] at hle
  rwa [List.length_flatMap]

theorem length_entries_le {entries : List (Cbor × Cbor)}
    (hraw : ∀ e ∈ entries, e.1.RawFree ∧ e.2.RawFree) :
    entries.length * 2 ≤ (entries.flatMap entryBytes).length := by
  induction entries with
  | nil => exact Nat.zero_le _
  | cons e entries ih =>
    have hrest := ih fun e' he' => hraw e' (List.mem_cons_of_mem e he')
    obtain ⟨hk, hv⟩ := hraw e List.mem_cons_self
    have hkpos := encode_length_pos hk
    have hvpos := encode_length_pos hv
    rw [List.flatMap_cons, List.length_append, entryBytes, List.length_append, List.length_cons]
    omega

section Run

variable {inner : Option (Read UInt8 Error Cbor)}

theorem run_decodeBody {major arg : ℕ} (hm : major < 8) (ha : arg < 2 ^ 64) (tail : Bytes)
    (pos : ℕ) :
    (decodeBody inner).run ⟨writeHead (UInt8.ofNat major) arg ++ tail, pos⟩ =
      (decodeArg inner (UInt8.ofNat major) arg).run
        ⟨tail, pos + (writeHead (UInt8.ofNat major) arg).length⟩ := by
  rw [decodeBody, run_bind_of (readHead_writeHead hm ha tail pos)]
  exact run_require_bind (by simp) _

theorem run_checkCount {count : ℕ} {c : State UInt8} (h : count ≤ c.rest.length) :
    (checkCount count).run c = .ok (count, c) := by
  rw [checkCount, run_remaining_bind, run_require_bind h]
  rfl

/-- Items behind a head that counts them. -/
theorem run_decodeArg_array {p : Read UInt8 Error Cbor} {items : List Cbor}
    (hraw : ∀ c ∈ items, c.RawFree)
    (hread : ∀ c ∈ items, ∀ rest pos, p.run ⟨c.encode ++ rest, pos⟩ =
      .ok (c.canon, ⟨rest, pos + c.encode.length⟩)) (rest : Bytes) (pos : ℕ) :
    (decodeArg (some p) 4 items.length).run ⟨items.flatMap encode ++ rest, pos⟩ =
      .ok (.array (items.map canon), ⟨rest, pos + (items.flatMap encode).length⟩) := by
  have hle := length_items_le hraw
  have hcount : items.length ≤ (items.flatMap encode ++ rest).length := by
    rw [List.length_append]
    omega
  have hitems := run_many_append hread rest pos
  have harg : decodeArg (some p) 4 items.length = (do
      let count ← checkCount items.length
      let items ← many p count
      pure (.array items)) := rfl
  rw [harg, run_bind_of (run_checkCount hcount), run_bind_of hitems]
  rfl

theorem run_decodeArg_map {p : Read UInt8 Error Cbor} {entries : List (Cbor × Cbor)}
    (hraw : ∀ e ∈ entries, e.1.RawFree ∧ e.2.RawFree)
    (hread : ∀ e ∈ entries, ∀ rest pos,
      p.run ⟨e.1.encode ++ rest, pos⟩ = .ok (e.1.canon, ⟨rest, pos + e.1.encode.length⟩) ∧
      p.run ⟨e.2.encode ++ rest, pos⟩ = .ok (e.2.canon, ⟨rest, pos + e.2.encode.length⟩))
    (hfits : (entries.flatMap entryBytes).length < 2 ^ 64) (rest : Bytes) (pos : ℕ) :
    (decodeArg (some p) 5 entries.length).run ⟨entries.flatMap entryBytes ++ rest, pos⟩ =
      .ok (.map (entries.map fun e => (e.1.canon, e.2.canon)),
        ⟨rest, pos + (entries.flatMap entryBytes).length⟩) := by
  have hle := length_entries_le hraw
  have hcount : entries.length * 2 ≤ (entries.flatMap entryBytes ++ rest).length := by
    rw [List.length_append]
    omega
  have hpair : ∀ e ∈ entries, ∀ rest pos,
      (do
        let k ← p
        let v ← p
        pure (k, v) : Read UInt8 Error (Cbor × Cbor)).run ⟨entryBytes e ++ rest, pos⟩ =
        .ok ((e.1.canon, e.2.canon), ⟨rest, pos + (entryBytes e).length⟩) := by
    intro e he rest pos
    rw [entryBytes, List.append_assoc, run_bind_of (hread e he _ pos).1,
      run_bind_of (hread e he rest _).2, List.length_append, Nat.add_assoc]
    rfl
  have hentries := run_many_append hpair rest pos
  have harg : decodeArg (some p) 5 entries.length = (do
      require (entries.length * 2 < 2 ^ 64) .unexpectedEof
      let count ← checkCount (entries.length * 2)
      let entries ← many (do
        let k ← p
        let v ← p
        pure (k, v)) (count / 2)
      pure (.map entries)) := rfl
  rw [harg, run_require_bind (by omega), run_bind_of (run_checkCount hcount),
    Nat.mul_div_cancel _ (by decide), run_bind_of hentries]
  rfl

/-- An item without items inside. -/
theorem run_decodeBody_leaf {c : Cbor} (hraw : c.RawFree) (hdepth : c.depth = 0)
    (hfits : c.encode.length < 2 ^ 64) (rest : Bytes) (pos : ℕ) :
    (decodeBody inner).run ⟨c.encode ++ rest, pos⟩ =
      .ok (c.canon, ⟨rest, pos + c.encode.length⟩) := by
  cases c with
  | uint v =>
    have hhead := @run_decodeBody inner 0 _ (by decide) v.toNat_lt rest pos
    have hvalue : UInt64.ofNat v.toNat = v := UInt64.ofNat_toNat
    have harg : decodeArg inner 0 v.toNat = pure (.uint v) := congrArg (fun v => pure (uint v)) hvalue
    rw [encode, canon]
    exact hhead.trans (congrArg (fun p => StateT.run p _) harg)
  | bytes b =>
    rw [encode, List.length_append] at hfits
    have hhead := @run_decodeBody inner 2 _ (by decide)
      (by omega : b.length < 2 ^ 64) (b ++ rest) pos
    have htake := (decodes_take (β := UInt8) Error.unexpectedEof b.length).run_append (a := b) rfl
      rest (pos + (writeHead 2 b.length).length)
    have harg : decodeArg inner 2 b.length = (do
        let b ← take .unexpectedEof b.length
        pure (.bytes b)) := rfl
    rw [encode, canon, List.append_assoc, List.length_append, ← Nat.add_assoc]
    refine hhead.trans ?_
    exact (congrArg (fun p => StateT.run p _) harg).trans (run_bind_of htake)
  | array items => cases hdepth
  | map entries => cases hdepth
  | bool b =>
    cases b with
    | false =>
      exact @run_decodeBody inner 7 20 (by decide) (by decide) rest pos
    | true =>
      exact @run_decodeBody inner 7 21 (by decide) (by decide) rest pos
  | null =>
    exact @run_decodeBody inner 7 22 (by decide) (by decide) rest pos
  | raw b => exact absurd hraw id

end Run

theorem canon_map (entries : List (Cbor × Cbor)) :
    (map entries).canon =
      .map ((entries.insertionSort entryLe).map fun e => (e.1.canon, e.2.canon)) := by
  have hsort := List.map_insertionSort entryLe entryLe (fun e => (e.1.canon, e.2.canon)) entries
    (by
      intro e _ e' _
      simp only [entryLe, encodeEntry, encode_canon])
  rw [canon, canonEntries_eq, hsort]

/-- What an array holds is read one level deeper. -/
theorem Readable.item {left : ℕ} {items : List Cbor} (h : Readable (left + 1) (.array items))
    {c : Cbor} (hc : c ∈ items) : Readable left c where
  rawFree := (rawFreeItems_iff items).mp h.rawFree c hc
  depth_le := (depthItems_le_iff items left).mp (Nat.le_of_succ_le_succ h.depth_le) c hc
  fits := by
    have hfits := h.fits
    rw [encode_array, List.length_append, List.length_flatMap] at hfits
    have hle : c.encode.length ≤ (items.map fun c => c.encode.length).sum :=
      List.single_le_sum (fun _ _ => Nat.zero_le _) _ (List.mem_map_of_mem hc)
    omega

theorem Readable.entry {left : ℕ} {entries : List (Cbor × Cbor)}
    (h : Readable (left + 1) (.map entries)) {e : Cbor × Cbor} (he : e ∈ entries) :
    Readable left e.1 ∧ Readable left e.2 := by
  have hraw := (rawFreeEntries_iff entries).mp h.rawFree e he
  have hdepth := (depthEntries_le_iff entries left).mp (Nat.le_of_succ_le_succ h.depth_le) e he
  have hfits := h.fits
  rw [encode_map, List.length_append, List.length_flatMap] at hfits
  have hsorted : e ∈ entries.insertionSort entryLe := (List.mem_insertionSort entryLe).mpr he
  have hle : (entryBytes e).length ≤
      ((entries.insertionSort entryLe).map fun e => (entryBytes e).length).sum :=
    List.single_le_sum (fun _ _ => Nat.zero_le _) _ (List.mem_map_of_mem hsorted)
  have hentry : (entryBytes e).length = e.1.encode.length + e.2.encode.length :=
    List.length_append
  exact ⟨⟨hraw.1, hdepth.1, by omega⟩, ⟨hraw.2, hdepth.2, by omega⟩⟩

/-- A value is read back with its entries sorted, whatever follows it. -/
theorem run_decodeValue {left : ℕ} {c : Cbor} (h : Readable left c) (rest : Bytes) (pos : ℕ) :
    (decodeValue left).run ⟨c.encode ++ rest, pos⟩ =
      .ok (c.canon, ⟨rest, pos + c.encode.length⟩) := by
  induction left generalizing c rest pos with
  | zero =>
    exact run_decodeBody_leaf h.rawFree (Nat.eq_zero_of_le_zero h.depth_le) h.fits rest pos
  | succ left ih =>
    cases c with
    | array items =>
      have hraw := (rawFreeItems_iff items).mp h.rawFree
      have hlen : items.length < 2 ^ 64 := by
        have hfits := h.fits
        have hle := length_items_le hraw
        rw [encode_array, List.length_append] at hfits
        omega
      have hread := run_decodeArg_array hraw (fun c hc => ih (h.item hc)) rest
        (pos + (writeHead 4 items.length).length)
      rw [encode_array, List.append_assoc, decodeValue, canon, canonItems_eq, List.length_append,
        ← Nat.add_assoc]
      exact (run_decodeBody (show 4 < 8 by decide) hlen _ _).trans hread
    | map entries =>
      have hmem : ∀ e ∈ entries.insertionSort entryLe, e ∈ entries :=
        fun e he => (List.mem_insertionSort entryLe).mp he
      have hraw := fun e he => (rawFreeEntries_iff entries).mp h.rawFree e (hmem e he)
      have hfits := h.fits
      have hle := length_entries_le hraw
      rw [List.length_insertionSort] at hle
      rw [encode_map, List.length_append] at hfits
      have hread := run_decodeArg_map hraw
        (fun e he rest pos => ⟨ih (h.entry (hmem e he)).1 rest pos,
          ih (h.entry (hmem e he)).2 rest pos⟩) (by omega) rest
        (pos + (writeHead 5 entries.length).length)
      rw [List.length_insertionSort] at hread
      rw [encode_map, List.append_assoc, decodeValue, canon_map, List.length_append,
        ← Nat.add_assoc]
      exact (run_decodeBody (show 5 < 8 by decide) (by omega) _ _).trans hread
    | uint v => exact run_decodeBody_leaf h.rawFree rfl h.fits rest pos
    | bytes b => exact run_decodeBody_leaf h.rawFree rfl h.fits rest pos
    | bool b => exact run_decodeBody_leaf h.rawFree rfl h.fits rest pos
    | null => exact run_decodeBody_leaf h.rawFree rfl h.fits rest pos
    | raw b => exact absurd h.rawFree id

theorem decode_encode {c : Cbor} (h : Readable maxDepth c) :
    decode c.encode = .ok (c.canon, c.encode.length) := by
  have hrun := run_decodeValue h [] 0
  rw [List.append_nil, Nat.zero_add] at hrun
  rw [decode, start, hrun]
  rfl

/-- Equal encodings are of equal values, up to the order of map entries. -/
theorem same_of_encode_eq {left : ℕ} {a b : Cbor} (ha : Readable left a) (hb : Readable left b)
    (h : a.encode = b.encode) : Same a b := by
  have hread := run_decodeValue ha [] 0
  rw [h, run_decodeValue hb [] 0] at hread
  have hcanon : b.canon = a.canon := (Prod.mk.inj (Except.ok.inj hread)).1
  have hsame := same_canon a
  rw [← hcanon] at hsame
  exact hsame.trans (same_canon b).symm

/-! ## Distinct keys -/

mutual

/-- No two keys of a map are related. -/
def DistinctKeys (R : Cbor → Cbor → Prop) : Cbor → Prop
  | .array items => DistinctItems R items
  | .map entries =>
    (entries.map Prod.fst).Pairwise (fun k k' => ¬ R k k') ∧ DistinctEntries R entries
  | _ => True

def DistinctItems (R : Cbor → Cbor → Prop) : List Cbor → Prop
  | [] => True
  | item :: items => item.DistinctKeys R ∧ DistinctItems R items

def DistinctEntries (R : Cbor → Cbor → Prop) : List (Cbor × Cbor) → Prop
  | [] => True
  | (k, v) :: entries => (k.DistinctKeys R ∧ v.DistinctKeys R) ∧ DistinctEntries R entries

end

theorem distinctItems_iff (R : Cbor → Cbor → Prop) (items : List Cbor) :
    DistinctItems R items ↔ ∀ c ∈ items, c.DistinctKeys R := by
  induction items with
  | nil => simp [DistinctItems]
  | cons item items ih => simp [DistinctItems, ih]

theorem distinctEntries_iff (R : Cbor → Cbor → Prop) (entries : List (Cbor × Cbor)) :
    DistinctEntries R entries ↔ ∀ e ∈ entries, e.1.DistinctKeys R ∧ e.2.DistinctKeys R := by
  induction entries with
  | nil => simp [DistinctEntries]
  | cons e entries ih => simp [DistinctEntries, ih]

/-- Keys with one encoding. -/
def EncodedAlike (k k' : Cbor) : Prop := k.encode = k'.encode

/-- Keys that differ, also in the order of their entries, differ in their encoding. -/
theorem DistinctKeys.encoded {left : ℕ} {c : Cbor} (h : c.DistinctKeys Same)
    (hread : Readable left c) : c.DistinctKeys EncodedAlike := by
  induction left generalizing c with
  | zero =>
    cases c with
    | array items => exact absurd hread.depth_le (Nat.not_succ_le_zero _)
    | map entries => exact absurd hread.depth_le (Nat.not_succ_le_zero _)
    | uint v => trivial
    | bytes b => trivial
    | bool b => trivial
    | null => trivial
    | raw b => trivial
  | succ left ih =>
    cases c with
    | array items =>
      have hitems := (distinctItems_iff Same items).mp h
      exact (distinctItems_iff _ items).mpr fun c hc => ih (hitems c hc) (hread.item hc)
    | map entries =>
      have hentries := (distinctEntries_iff Same entries).mp h.2
      refine ⟨?_, (distinctEntries_iff _ entries).mpr fun e he =>
        ⟨ih (hentries e he).1 (hread.entry he).1, ih (hentries e he).2 (hread.entry he).2⟩⟩
      refine h.1.imp_of_mem ?_
      intro k k' hk hk' hne hencode
      obtain ⟨e, he, rfl⟩ := List.mem_map.mp hk
      obtain ⟨e', he', rfl⟩ := List.mem_map.mp hk'
      exact hne (same_of_encode_eq (hread.entry he).1 (hread.entry he').1 hencode)
    | uint v => trivial
    | bytes b => trivial
    | bool b => trivial
    | null => trivial
    | raw b => trivial

/-- Entries with distinct keys are sorted in one way. -/
theorem insertionSort_eq_of_perm {es es' : List (Bytes × Bytes)} (h : es.Perm es')
    (hkeys : (es.map Prod.fst).Nodup) : es.insertionSort keyLe = es'.insertionSort keyLe := by
  have hperm : (es.insertionSort keyLe).Perm (es'.insertionSort keyLe) :=
    (List.perm_insertionSort keyLe es).trans (h.trans (List.perm_insertionSort keyLe es').symm)
  refine hperm.eq_of_pairwise ?_ (List.pairwise_insertionSort keyLe es)
    (List.pairwise_insertionSort keyLe es')
  intro e e' he he' hle hge
  have hkey : e.1 = e'.1 := keyOrder_injective (le_antisymm hle hge)
  have hmem : e ∈ es := (List.mem_insertionSort keyLe).mp he
  have hmem' : e' ∈ es := h.mem_iff.mpr ((List.mem_insertionSort keyLe).mp he')
  exact List.inj_on_of_nodup_map hkeys hmem hmem' hkey

theorem nodup_encodeEntries {entries : List (Cbor × Cbor)} :
    ((encodeEntries entries).map Prod.fst).Nodup ↔
      (entries.map Prod.fst).Pairwise (fun k k' => ¬ EncodedAlike k k') := by
  rw [encodeEntries_eq, List.map_map, List.Nodup, List.pairwise_map, List.pairwise_map]
  rfl

mutual

/-- The order of entries is lost, as long as the encoded keys differ. -/
theorem Same.encode_eq {a b : Cbor} : Same a b → a.DistinctKeys EncodedAlike →
    a.encode = b.encode ∧ b.DistinctKeys EncodedAlike
  | .refl _, h => ⟨rfl, h⟩
  | @Same.array xs ys hs, h => by
    obtain ⟨hlen, hencode, hdistinct⟩ := hs.encode_eq h
    refine ⟨?_, hdistinct⟩
    rw [encode, encode, hencode, hlen]
  | @Same.map xs ys hs, h => by
    obtain ⟨hperm, hdistinct⟩ := hs.encode_perm h.2
    have hkeys := nodup_encodeEntries.mpr h.1
    have hkeys' := nodup_encodeEntries.mp ((hperm.map Prod.fst).nodup_iff.mp hkeys)
    refine ⟨?_, hkeys', hdistinct⟩
    rw [encode, encode, insertionSort_eq_of_perm hperm hkeys]

theorem SameItems.encode_eq {xs ys : List Cbor} : SameItems xs ys → DistinctItems EncodedAlike xs →
    xs.length = ys.length ∧ encodeItems xs = encodeItems ys ∧ DistinctItems EncodedAlike ys
  | .nil, _ => ⟨rfl, rfl, trivial⟩
  | @SameItems.cons _ _ xs ys hx hs, h => by
    obtain ⟨hencode, hdistinct⟩ := hx.encode_eq h.1
    obtain ⟨hlen, hencodes, hdistincts⟩ := hs.encode_eq h.2
    refine ⟨by rw [List.length_cons, List.length_cons, hlen], ?_, hdistinct, hdistincts⟩
    rw [encodeItems, encodeItems, hencode, hencodes]

theorem SameEntries.encode_perm {xs ys : List (Cbor × Cbor)} : SameEntries xs ys →
    DistinctEntries EncodedAlike xs →
    (encodeEntries xs).Perm (encodeEntries ys) ∧ DistinctEntries EncodedAlike ys
  | .nil, _ => ⟨.nil, trivial⟩
  | .cons hk hv hs, h => by
    obtain ⟨hkey, hkeyDistinct⟩ := hk.encode_eq h.1.1
    obtain ⟨hvalue, hvalueDistinct⟩ := hv.encode_eq h.1.2
    obtain ⟨hperm, hdistinct⟩ := hs.encode_perm h.2
    refine ⟨?_, ⟨hkeyDistinct, hvalueDistinct⟩, hdistinct⟩
    rw [encodeEntries, encodeEntries, hkey, hvalue]
    exact hperm.cons _
  | .swap _ _ _, h => ⟨.swap _ _ _, h.2.1, h.1, h.2.2⟩
  | .trans hs hs', h => by
    obtain ⟨hperm, hdistinct⟩ := hs.encode_perm h
    obtain ⟨hperm', hdistinct'⟩ := hs'.encode_perm hdistinct
    exact ⟨hperm.trans hperm', hdistinct'⟩

end

/-- Encoding is canonical and faithful: it forgets the order of map entries and
nothing else, and decoding gives such a value back. -/
theorem encode_canonical {a b : Cbor} (ha : Readable maxDepth a) (hb : Readable maxDepth b)
    (hdistinct : a.DistinctKeys Same) :
    (a.encode = b.encode ↔ Same a b) ∧
      ∃ a', decode a.encode = .ok (a', a.encode.length) ∧ Same a a' ∧ a'.encode = a.encode :=
  ⟨⟨same_of_encode_eq ha hb, fun h => (h.encode_eq (hdistinct.encoded ha)).1⟩,
    a.canon, decode_encode ha, same_canon a, encode_canon a⟩

def sampleMap : Cbor := .map [(.bytes [7], .uint 1000), (.uint 7, .array [.null, .bool true])]

def sampleMapPermuted : Cbor :=
  .map [(.uint 7, .array [.null, .bool true]), (.bytes [7], .uint 1000)]

theorem encode_canonical_sample :
    sampleMap.encode = sampleMapPermuted.encode ∧
      ∃ a', decode sampleMap.encode = .ok (a', sampleMap.encode.length) ∧ Same sampleMap a' := by
  have hkeys : sampleMap.DistinctKeys Same := by
    refine ⟨?_, ⟨trivial, trivial⟩, ⟨trivial, trivial, trivial, trivial⟩, trivial⟩
    simp only [List.map_cons, List.map_nil, List.pairwise_cons, List.mem_singleton, forall_eq,
      List.not_mem_nil, false_implies, implies_true, List.Pairwise.nil, and_true]
    rintro ⟨⟩
  have hread : Readable maxDepth sampleMap :=
    ⟨by simp [sampleMap, RawFree, RawFreeEntries, RawFreeItems], by decide,
      by decide⟩
  have hread' : Readable maxDepth sampleMapPermuted :=
    ⟨by simp [sampleMapPermuted, RawFree, RawFreeEntries, RawFreeItems], by decide,
      by decide⟩
  obtain ⟨hiff, a', hdecode, hsame, -⟩ := encode_canonical hread hread' hkeys
  exact ⟨hiff.mpr (.map (.swap _ _ _)), a', hdecode, hsame⟩

/-- Two maps that differ in the order of their entries, as keys of one map. -/
def mapKey : Cbor := .map [(.uint 0, .null), (.uint 1, .null)]

def mapKeyPermuted : Cbor := .map [(.uint 1, .null), (.uint 0, .null)]

theorem mapKey_ne : mapKey ≠ mapKeyPermuted := by
  intro h
  have hlist := Cbor.map.inj h
  cases (Prod.mk.inj (List.cons.inj hlist).1).1

/-- Distinct keys with one encoding keep the order in which they were given. -/
theorem encode_keeps_order :
    ∃ a b : Cbor, a.RawFree ∧ b.RawFree ∧ a.depth ≤ maxDepth ∧ b.depth ≤ maxDepth ∧
      a.DistinctKeys Eq ∧ b.DistinctKeys Eq ∧ Same a b ∧ a.encode ≠ b.encode := by
  have hfree : ∀ v w, (map [(mapKey, uint v), (mapKeyPermuted, uint w)]).RawFree ∧
      (map [(mapKeyPermuted, uint v), (mapKey, uint w)]).RawFree := by
    simp [mapKey, mapKeyPermuted, RawFree, RawFreeEntries]
  have hinner : ∀ {k k' : Cbor}, k = uint 0 → k' = uint 1 →
      (map [(k, null), (k', null)]).DistinctKeys Eq ∧
        (map [(k', null), (k, null)]).DistinctKeys Eq := by
    rintro k k' rfl rfl
    simp [DistinctKeys, DistinctEntries]
  obtain ⟨hkey, hkey'⟩ := hinner rfl rfl
  refine ⟨.map [(mapKey, .uint 0), (mapKeyPermuted, .uint 1)],
    .map [(mapKeyPermuted, .uint 1), (mapKey, .uint 0)], (hfree 0 1).1, (hfree 1 0).2,
    by decide, by decide, ?_, ?_, .map (.swap _ _ _), by decide⟩
  · exact ⟨by simp [mapKey_ne], ⟨hkey, trivial⟩, ⟨hkey', trivial⟩, trivial⟩
  · exact ⟨by simp [mapKey_ne.symm], ⟨hkey', trivial⟩, ⟨hkey, trivial⟩, trivial⟩

end Cbor

end Outscript
