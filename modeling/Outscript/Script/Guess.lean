import Mathlib.Data.List.TakeWhile
import Outscript.Address.RoundTrip
import Outscript.Script.Formats

/-!
# Guessing the format of a script

A script is taken for one of the formats by its length and a few of its bytes, and
for one that a key generates where there is a key to compare with. What is generated
for a key is guessed as a format that generates the same script for it.
-/
namespace Outscript.Formats

open ByteString Fallible Address Call

section Guess

variable {K : Chains}

/-! ## Calls on a script -/

/-- A result if there is one. A panic is passed on. -/
def attempt {α : Type} (x : ScriptCall α) : ScriptCall (Option α) := fun cache =>
  match x cache with
  | (.ok a, cache) => (.ok (some a), cache)
  | (.error (.error _), cache) => (.ok none, cache)
  | (.error .panic, cache) => (.error .panic, cache)

/-- The first of some formats that a script is generated for. -/
def firstOf (pubkey : PubKey K) (script : Bytes) : List String → ScriptCall (Option String)
  | [] => pure none
  | e :: es => do
    let buf ← attempt (Script.generate pubkey e)
    if buf = some script then return some e
    firstOf pubkey script es

def hintName (hint : Option (PubKey K)) (script : Bytes) (formats : List String) :
    Except Trap (Option String) :=
  match hint with
  | some pubkey => (firstOf pubkey script formats []).1
  | none => .ok none

/-- The formats that are told apart by a key only. -/
def hashFormats : List String := ["p2pkh", "p2pukh"]

def wrappedFormats : List String :=
  ["p2sh:p2pk", "p2sh:p2pkh", "p2sh:p2puk", "p2sh:p2pukh", "p2sh:p2wpkh"]

/-- What ends with a signature check. -/
def guessKey (script : Bytes) : String :=
  match parsePushBytes script with
  | some (v, _) =>
    if pushBytes v ++ [0xac] = script then
      if v.length = 33 then "p2pk" else if v.length = 65 then "p2puk" else "invalid"
    else "invalid"
  | none => "invalid"

/-- What ends with a comparison. -/
def guessWrapped (script : Bytes) (hint : Option (PubKey K)) : Except Trap String :=
  match parsePushBytes script.tail with
  | some (v, _) =>
    if [0xa9] ++ (pushBytes v ++ [0x87]) = script then do
      let found ← hintName hint script wrappedFormats
      return found.getD "p2sh"
    else .ok "invalid"
  | none => .ok "invalid"

def guessName (script : Bytes) (hint : Option (PubKey K)) : Except Trap String :=
  if script.headD 0 = 0 then
    .ok (if script.length = 22 then "p2wpkh" else if script.length = 34 then "p2wsh" else "invalid")
  else if script.headD 0 = 0x51 then .ok (if script.length = 34 then "p2tr" else "invalid")
  else if script.headD 0 = 0x6a then .ok "op_return"
  else if script.getLastD 0 = 0xac then
    if script.length = 25 ∧ [0x76, 0xa9, 0x14] <+: script ∧ [0x88, 0xac] <:+ script then do
      let found ← hintName hint script hashFormats
      return found.getD "p2pkh"
    else .ok (guessKey script)
  else if script.getLastD 0 = 0x87 then guessWrapped script hint
  else .ok "invalid"

def guessOut (script : Bytes) (hint : Option (PubKey K)) : Except Trap Out :=
  if script = [] then .ok ⟨"empty", ["invalid"], script⟩
  else do
    let name ← guessName script hint
    return ⟨name, [], script⟩

/-- The outputs of the formats that the key has. -/
def outsFrom (pubkey : PubKey K) : List String → ScriptCall (List Out)
  | [] => pure []
  | name :: names => do
    let buf ← attempt (Script.generate pubkey name)
    let outs ← outsFrom pubkey names
    match buf with
    | some buf => return ⟨name, [], buf⟩ :: outs
    | none => return outs

def getOuts (pubkey : PubKey K) : Except Trap (List Out) := (outsFrom pubkey allFormats []).1

/-! ## Without the cache -/

theorem reads_attempt {α : Type} {x : ScriptCall α} {r : Except Trap α} {inv : Cache → Prop}
    (hx : Reads inv (fun _ => ()) () x r) (hr : r ≠ .error .panic) :
    Reads inv (fun _ => ()) () (attempt x) (.ok r.toOption) := by
  intro cache hs ht
  obtain ⟨hval, hs', ht'⟩ := hx cache hs ht
  rw [attempt]
  rcases hrun : x cache with ⟨(e | _) | a, cache'⟩
  all_goals rw [hrun] at hval hs' ht'
  all_goals subst hval
  · exact ⟨rfl, hs', ht'⟩
  · exact absurd rfl hr
  · exact ⟨rfl, hs', ht'⟩

variable (pk : PubKey K)

theorem reads_generate (name : String) :
    Reads (Memo.Sound (scriptBytes pk)) (fun _ => ()) () (attempt (Script.generate pk name))
      (.ok (scriptBytes pk name).toOption) :=
  reads_attempt (Memo.reads_fetch _ name _) (scriptBytes_ne_panic pk name)

/-- The format generates the script. -/
def generates (script : Bytes) (name : String) : Bool := (scriptBytes pk name).toOption = some script

theorem generates_iff {script : Bytes} {name : String} :
    generates pk script name = true ↔ scriptBytes pk name = .ok script := by
  rw [generates, decide_eq_true_iff]
  cases scriptBytes pk name with
  | ok b => simp [Except.toOption]
  | error e => simp [Except.toOption]

theorem reads_firstOf (script : Bytes) (es : List String) :
    Reads (Memo.Sound (scriptBytes pk)) (fun _ => ()) () (firstOf pk script es)
      (.ok (es.find? (generates pk script))) := by
  induction es with
  | nil => exact reads_pure _
  | cons e es ih =>
    have hstep := (reads_generate pk e).bind (f := fun buf =>
      if buf = some script then return some e else firstOf pk script es)
      (g := fun buf => if buf = some script then .ok (some e) else
        .ok (es.find? (generates pk script))) fun buf _ => Reads.ite (reads_pure _) ih
    have hvalue : (.ok ((e :: es).find? (generates pk script)) : Except Trap (Option String)) =
        (.ok (scriptBytes pk e).toOption >>= fun buf => if buf = some script then .ok (some e) else
          .ok (es.find? (generates pk script))) := by
      rw [ok_bind, List.find?_cons, generates]
      by_cases h : (scriptBytes pk e).toOption = some script
      · rw [if_pos h, decide_eq_true h]
      · rw [if_neg h, decide_eq_false h]
    rw [hvalue]
    exact hstep

theorem hintName_some (script : Bytes) (es : List String) :
    hintName (some pk) script es = .ok (es.find? (generates pk script)) :=
  (reads_firstOf pk script es [] (Memo.sound_nil _) rfl).1

/-- The outputs of a key are what its formats generate. -/
theorem getOuts_eq : getOuts pk = .ok (allFormats.filterMap fun name =>
    (scriptBytes pk name).toOption.map fun s => ⟨name, [], s⟩) := by
  have hreads (names : List String) :
      Reads (Memo.Sound (scriptBytes pk)) (fun _ => ()) () (outsFrom pk names)
        (.ok (names.filterMap fun name =>
          (scriptBytes pk name).toOption.map fun s => (⟨name, [], s⟩ : Out))) := by
    induction names with
    | nil => exact reads_pure _
    | cons name names ih =>
      refine (reads_generate pk name).then (ih.then ?_)
      cases hname : (scriptBytes pk name).toOption with
      | none =>
        rw [List.filterMap_cons, hname]
        exact reads_pure _
      | some s =>
        rw [List.filterMap_cons, hname]
        exact reads_pure _
  exact (hreads allFormats [] (Memo.sound_nil _) rfl).1

/-! ## Shapes -/

/-- Scripts as the formats generate them, by what they are guessed as without a key. -/
inductive Shape : String → Bytes → Prop
  | p2pkh (hash : ByteVec 20) : Shape "p2pkh" ([0x76, 0xa9, 0x14] ++ hash.toList ++ [0x88, 0xac])
  | p2sh (hash : ByteVec 20) : Shape "p2sh" ([0xa9, 0x14] ++ hash.toList ++ [0x87])
  | p2pk (key : ByteVec 33) : Shape "p2pk" ([0x21] ++ key.toList ++ [0xac])
  | p2puk (key : ByteVec 65) : Shape "p2puk" ([0x41] ++ key.toList ++ [0xac])
  | p2wpkh (hash : ByteVec 20) : Shape "p2wpkh" ([0x00, 0x14] ++ hash.toList)
  | p2wsh (hash : ByteVec 32) : Shape "p2wsh" ([0x00, 0x20] ++ hash.toList)
  | p2tr (key : ByteVec 32) : Shape "p2tr" ([0x51, 0x20] ++ key.toList)

/-- The formats of a shape that a key may tell apart. -/
def refinements (name : String) : List String :=
  if name = "p2pkh" then hashFormats else if name = "p2sh" then wrappedFormats else []

/-- The first of the refinements that the key in the hint generates. -/
def refined (hint : Option (PubKey K)) (name : String) (script : Bytes) : String :=
  match hint with
  | some pk => ((refinements name).find? (generates pk script)).getD name
  | none => name

theorem getD_hintName (hint : Option (PubKey K)) (script : Bytes) (name : String) :
    (hintName hint script (refinements name) >>= fun found => .ok (found.getD name)) =
      .ok (refined hint name script) := by
  cases hint with
  | none => rfl
  | some pk =>
    rw [hintName_some]
    rfl

theorem parse_pushed {n : UInt8} {v : Bytes} (hn : n ≤ 75) (h : n.toNat = v.length) (rest : Bytes) :
    parsePushBytes (n :: (v ++ rest)) = some (v, v.length + 1) := by
  have hlt : v.length ≤ 75 := by
    rw [← h]
    exact UInt8.le_iff_toNat_le.mp hn
  have hpush : pushBytes v = n :: v := by
    rw [pushBytes_short hlt, ← h, UInt8.ofNat_toNat]
  have hparse := parsePushBytes_pushBytes (v := v) (by omega) rest
  rw [hpush] at hparse
  rw [← List.cons_append, hparse, List.length_cons]

theorem last_append (front back : Bytes) {c : UInt8} (h : back.getLast? = some c) :
    (front ++ back).getLastD 0 = c := by
  rw [List.getLastD_eq_getLast?, List.getLast?_append, h]
  rfl

/-- A key that is pushed in front of a signature check. -/
theorem guessKey_pushed {n : UInt8} {key : Bytes} (hn : n ≤ 75) (h : n.toNat = key.length) :
    guessKey ([n] ++ key ++ [0xac]) =
      if key.length = 33 then "p2pk" else if key.length = 65 then "p2puk" else "invalid" := by
  have hlt : key.length ≤ 75 := by
    rw [← h]
    exact UInt8.le_iff_toNat_le.mp hn
  have hparse : parsePushBytes ([n] ++ key ++ [0xac]) = some (key, key.length + 1) :=
    parse_pushed hn h [0xac]
  have hbuilt : pushBytes key ++ [0xac] = [n] ++ key ++ [0xac] := by
    rw [pushBytes_short hlt, ← h, UInt8.ofNat_toNat]
    rfl
  rw [guessKey, hparse]
  dsimp only
  rw [if_pos hbuilt]

theorem guessName_of_shape {name : String} {s : Bytes} (h : Shape name s) (hint : Option (PubKey K)) :
    guessName s hint = .ok (refined hint name s) := by
  have hplain (hnone : refinements name = []) : refined hint name s = name := by
    cases hint with
    | none => rfl
    | some pk => rw [refined, hnone]; rfl
  cases h with
  | p2pkh hash =>
    have hhash := hash.toList_length
    have hlast : ([0x76, 0xa9, 0x14] ++ hash.toList ++ [0x88, 0xac]).getLastD 0 = 0xac :=
      last_append _ _ rfl
    rw [guessName, if_neg (by simp), if_neg (by simp), if_neg (by simp), if_pos hlast,
      if_pos ⟨by simp [hhash], ⟨_, (List.append_assoc _ _ _).symm⟩, ⟨_, rfl⟩⟩]
    exact getD_hintName hint _ "p2pkh"
  | p2sh hash =>
    have hhash := hash.toList_length
    have hlast : ([0xa9, 0x14] ++ hash.toList ++ [0x87]).getLastD 0 = 0x87 := last_append _ _ rfl
    have hparse : parsePushBytes ([0xa9, 0x14] ++ hash.toList ++ [0x87]).tail =
        some (hash.toList, hash.toList.length + 1) :=
      parse_pushed (n := 0x14) (by decide) hhash.symm [0x87]
    have hbuilt : [0xa9] ++ (pushBytes hash.toList ++ [0x87]) =
        [0xa9, 0x14] ++ hash.toList ++ [0x87] := by
      rw [pushBytes_short (by omega), hhash]
      rfl
    rw [guessName, if_neg (by simp), if_neg (by simp), if_neg (by simp), hlast, if_neg (by decide),
      if_pos rfl, guessWrapped, hparse]
    dsimp only
    rw [if_pos hbuilt]
    exact getD_hintName hint _ "p2sh"
  | p2pk key =>
    have hkey := key.toList_length
    have hlast : ([0x21] ++ key.toList ++ [0xac]).getLastD 0 = 0xac := last_append _ _ rfl
    rw [hplain rfl, guessName, if_neg (by simp), if_neg (by simp), if_neg (by simp), if_pos hlast,
      if_neg (by simp [hkey])]
    rw [guessKey_pushed (n := 0x21) (by decide) hkey.symm, if_pos hkey]
  | p2puk key =>
    have hkey := key.toList_length
    have hlast : ([0x41] ++ key.toList ++ [0xac]).getLastD 0 = 0xac := last_append _ _ rfl
    rw [hplain rfl, guessName, if_neg (by simp), if_neg (by simp), if_neg (by simp), if_pos hlast,
      if_neg (by simp [hkey])]
    rw [guessKey_pushed (n := 0x41) (by decide) hkey.symm, hkey, if_neg (by decide), if_pos rfl]
  | p2wpkh hash =>
    have hhash := hash.toList_length
    rw [hplain rfl, guessName, if_pos (by simp), if_pos (by simp [hhash])]
  | p2wsh hash =>
    have hhash := hash.toList_length
    rw [hplain rfl, guessName, if_pos (by simp), if_neg (by simp [hhash]), if_pos (by simp [hhash])]
  | p2tr key =>
    have hkey := key.toList_length
    rw [hplain rfl, guessName, if_neg (by simp), if_pos (by simp), if_pos (by simp [hkey])]

theorem guessOut_of_shape {name : String} {s : Bytes} (h : Shape name s)
    (hint : Option (PubKey K)) : guessOut s hint = .ok ⟨refined hint name s, [], s⟩ := by
  have hne : s ≠ [] := by cases h <;> simp
  rw [guessOut, if_neg hne, guessName_of_shape h hint]
  rfl

/-! ## What a key generates -/

/-- The formats of output scripts. -/
def bitcoinFormats : List String :=
  ["p2pkh", "p2pukh", "p2pk", "p2puk", "p2wpkh", "p2tr",
    "p2sh:p2pkh", "p2sh:p2pukh", "p2sh:p2pk", "p2sh:p2puk", "p2sh:p2wpkh",
    "p2wsh:p2pkh", "p2wsh:p2pukh", "p2wsh:p2pk", "p2wsh:p2puk", "p2wsh:p2wpkh"]

/-- What a format is without a key. -/
def bareName (name : String) : String := if name = "p2pukh" then "p2pkh" else baseOf name

/-- A format that is generated from one part has the shape of what is made of the part. -/
theorem shape_of {name bare : String} {α : Type} {x : Except Trap α} {parts : α → List Bytes}
    (hname : generateScript pk name = x >>= fun v => scriptOf (parts v))
    (hparts : ∀ v, x = .ok v → Shape bare (parts v).flatten ∧
      (parts v).flatten.length ≤ maxScriptLen) {s : Bytes} (h : scriptBytes pk name = .ok s) :
    Shape bare s := by
  rw [scriptBytes_of hname fun v hv => (hparts v hv).2] at h
  cases hx : x with
  | error e =>
    rw [hx] at h
    cases h
  | ok v =>
    rw [hx] at h
    cases h
    exact (hparts v hx).1

theorem shape_p2sh {name inner : String} (hname : generateScript pk name =
      generatePlain pk inner >>= fun r => scriptOf [[0xa9, 0x14], (K.hash160 r.bytes).toList, [0x87]])
    {s : Bytes} (h : scriptBytes pk name = .ok s) : Shape "p2sh" s := by
  refine shape_of pk hname (fun r _ => ⟨?_, ?_⟩) h
  · simpa using Shape.p2sh (K.hash160 r.bytes)
  · simp [maxScriptLen]

theorem shape_p2wsh {name inner : String} (hname : generateScript pk name =
      generatePlain pk inner >>= fun r => scriptOf [[0x00, 0x20], (K.sha256 r.bytes).toList])
    {s : Bytes} (h : scriptBytes pk name = .ok s) : Shape "p2wsh" s := by
  refine shape_of pk hname (fun r _ => ⟨?_, ?_⟩) h
  · simpa using Shape.p2wsh (K.sha256 r.bytes)
  · simp [maxScriptLen]

theorem shape_p2tr {s : Bytes} (h : scriptBytes pk "p2tr" = .ok s) : Shape "p2tr" s := by
  have hname : generateScript pk "p2tr" =
      (pk.comp >>= fun c => tweaked K.toPurecrypto c.tail) >>= fun q =>
        scriptOf [[0x51, 0x20], q] := by
    rw [bind_assoc]
    rfl
  refine shape_of pk hname (fun q hq => ?_) h
  obtain ⟨c, -, hq⟩ := bind_eq_ok.mp hq
  have hlen := tweaked_length hq
  refine ⟨?_, by simp [hlen, maxScriptLen]⟩
  simpa using Shape.p2tr ⟨q, hlen⟩

/-- What is generated has the shape that its format is without a key. -/
theorem shape_of_generated {name : String} (hname : name ∈ bitcoinFormats) {s : Bytes}
    (h : scriptBytes pk name = .ok s) : Shape (bareName name) s := by
  have hbare : ∀ name ∈ bitcoinFormats,
      (name, bareName name) ∈ [("p2pkh", "p2pkh"), ("p2pukh", "p2pkh"), ("p2pk", "p2pk"),
        ("p2puk", "p2puk"), ("p2wpkh", "p2wpkh"), ("p2tr", "p2tr")] ∨
      name ∈ innerFormats.map ("p2sh:" ++ ·) ∧ bareName name = "p2sh" ∨
      name ∈ innerFormats.map ("p2wsh:" ++ ·) ∧ bareName name = "p2wsh" := by decide
  rcases hbare name hname with hplain | ⟨hmem, hbase⟩ | ⟨hmem, hbase⟩
  · simp only [List.mem_cons, Prod.mk.injEq, List.not_mem_nil, or_false] at hplain
    rcases hplain with ⟨rfl, hb⟩ | ⟨rfl, hb⟩ | ⟨rfl, hb⟩ | ⟨rfl, hb⟩ | ⟨rfl, hb⟩ | ⟨rfl, hb⟩
    all_goals rw [hb]
    · refine shape_of pk (show generateScript pk "p2pkh" = pk.comp >>= _ from rfl)
        (fun v _ => ⟨?_, ?_⟩) h
      · simpa using Shape.p2pkh (K.hash160 v)
      · simp [maxScriptLen]
    · refine shape_of pk (show generateScript pk "p2pukh" = pk.uncomp >>= _ from rfl)
        (fun v _ => ⟨?_, ?_⟩) h
      · simpa using Shape.p2pkh (K.hash160 v)
      · simp [maxScriptLen]
    · refine shape_of pk (show generateScript pk "p2pk" = pk.comp >>= _ from rfl)
        (fun v hv => ⟨?_, ?_⟩) h
      · simpa using Shape.p2pk ⟨v, PubKey.comp_length hv⟩
      · simp [PubKey.comp_length hv, maxScriptLen]
    · refine shape_of pk (show generateScript pk "p2puk" = pk.uncomp >>= _ from rfl)
        (fun v hv => ⟨?_, ?_⟩) h
      · simpa using Shape.p2puk ⟨v, PubKey.uncomp_length hv⟩
      · simp [PubKey.uncomp_length hv, maxScriptLen]
    · refine shape_of pk (show generateScript pk "p2wpkh" = pk.comp >>= _ from rfl)
        (fun v _ => ⟨?_, ?_⟩) h
      · simpa using Shape.p2wpkh (K.hash160 v)
      · simp [maxScriptLen]
    · exact shape_p2tr pk h
  · rw [hbase]
    simp only [innerFormats, List.map_cons, List.map_nil, List.mem_cons, List.not_mem_nil,
      or_false] at hmem
    rcases hmem with rfl | rfl | rfl | rfl | rfl
    all_goals exact shape_p2sh pk rfl h
  · rw [hbase]
    simp only [innerFormats, List.map_cons, List.map_nil, List.mem_cons, List.not_mem_nil,
      or_false] at hmem
    rcases hmem with rfl | rfl | rfl | rfl | rfl
    all_goals exact shape_p2wsh pk rfl h

/-- A refinement is a format of the same shape, and one that generates the script. -/
theorem refined_cases (name : String) (script : Bytes) :
    refined (some pk) name script = name ∨
      refined (some pk) name script ∈ refinements name ∧
        scriptBytes pk (refined (some pk) name script) = .ok script := by
  cases hfind : (refinements name).find? (generates pk script) with
  | none =>
    refine .inl ?_
    rw [refined, hfind]
    rfl
  | some found =>
    refine .inr ?_
    rw [refined, hfind]
    exact ⟨List.mem_of_find?_eq_some hfind, (generates_iff pk).mp (List.find?_some hfind)⟩

/-- A format that generates the script is found, or one in front of it. -/
theorem refined_of_generated {name bare : String} (hmem : name ∈ refinements bare) {script : Bytes}
    (h : scriptBytes pk name = .ok script) :
    refined (some pk) bare script ∈ refinements bare ∧
      scriptBytes pk (refined (some pk) bare script) = .ok script := by
  cases hfind : (refinements bare).find? (generates pk script) with
  | none =>
    have hnot := List.find?_eq_none.mp hfind name hmem
    exact absurd ((generates_iff pk).mpr h) hnot
  | some found =>
    rw [refined, hfind]
    exact ⟨List.mem_of_find?_eq_some hfind, (generates_iff pk).mp (List.find?_some hfind)⟩

theorem mem_outs {outs : List Out} (houts : getOuts pk = .ok outs) {name : String} {s : Bytes} :
    (⟨name, [], s⟩ : Out) ∈ outs ↔ name ∈ allFormats ∧ scriptBytes pk name = .ok s := by
  rw [getOuts_eq] at houts
  cases houts
  rw [List.mem_filterMap]
  constructor
  · rintro ⟨format, hformat, h⟩
    obtain ⟨b, hb, heq⟩ := Option.map_eq_some_iff.mp h
    cases heq
    refine ⟨hformat, (generates_iff pk).mp ?_⟩
    rw [generates, hb]
    exact decide_eq_true rfl
  · rintro ⟨hformat, h⟩
    exact ⟨name, hformat, by rw [h]; rfl⟩

/-- The address depends on what a format is without a key, but on Zcash. -/
theorem encodeAddressToSlice_bareName (H : Hashes) (keccak256 : Bytes → ByteVec 32) (format : String)
    (script : Bytes) {network : String} (hnet : network.startsWith "zcash" = false) (out : Bytes) :
    encodeAddressToSlice H keccak256 format script network out =
      encodeAddressToSlice H keccak256 (bareName format) script network out := by
  by_cases hpukh : format = "p2pukh"
  · subst hpukh
    have hkey : encodeAddressToSlice H keccak256 "p2pkh" script network out =
        if network.startsWith "zcash" then zcashToSlice H script network out
        else hashToSlice H false script network out := rfl
    rw [show bareName "p2pukh" = "p2pkh" from rfl, hkey, hnet, if_neg Bool.false_ne_true]
    rfl
  · have hidem : baseOf (baseOf format) = baseOf format := by
      rw [baseOf, baseOf, String.toList_ofList, List.takeWhile_idem]
    rw [bareName, if_neg hpukh, encodeAddressToSlice, encodeAddressToSlice, hidem]

/-- Formats with one base have one address, and so do the two that hash a key. -/
theorem address_congr (H : Hashes) (keccak256 : Bytes → ByteVec 32) {u g : Out} {flags : List String}
    (hname : bareName u.name = bareName g.name) (hraw : u.raw = g.raw)
    (hflags : (flags.head? <|> u.flags.head?) = (flags.head? <|> g.flags.head?))
    (hnet : ((flags.head? <|> u.flags.head?).getD "").startsWith "zcash" = false) :
    u.address H keccak256 flags = g.address H keccak256 flags := by
  rw [Out.address, Out.address, ← hraw, ← hflags, encodeAddressToSlice_bareName _ _ _ _ hnet,
    hname, ← encodeAddressToSlice_bareName _ _ _ _ hnet]

/-- The formats that are guessed for the sake of a key. -/
def Keyed (name : String) : Prop := name = "p2pukh" ∨ name ∈ wrappedFormats

theorem not_keyed {name : String} (h : name ∉ "p2pukh" :: wrappedFormats) : ¬Keyed name := by
  rintro (rfl | hmem)
  · exact h (by decide)
  · exact h (List.mem_cons_of_mem _ hmem)

theorem hintName_keyed {formats : List String} {fallback name : String} (hfallback : ¬Keyed fallback)
    {script : Bytes} (h : (hintName (some pk) script formats >>= fun found =>
      .ok (found.getD fallback)) = .ok name) (hname : Keyed name) :
    scriptBytes pk name = .ok script := by
  rw [hintName_some, ok_bind] at h
  cases hfind : formats.find? (generates pk script) with
  | none =>
    rw [hfind] at h
    cases h
    exact absurd hname hfallback
  | some found =>
    rw [hfind] at h
    cases h
    exact (generates_iff pk).mp (List.find?_some hfind)

theorem guessKey_not_keyed (script : Bytes) : ¬Keyed (guessKey script) := by
  rw [guessKey]
  cases parsePushBytes script with
  | none =>
    change ¬Keyed "invalid"
    exact not_keyed (by decide)
  | some pushed =>
    dsimp only
    split_ifs
    all_goals exact not_keyed (by decide)

theorem guessWrapped_keyed {script : Bytes} {name : String}
    (h : guessWrapped script (some pk) = .ok name) (hname : Keyed name) :
    scriptBytes pk name = .ok script := by
  have hinvalid {name : String} (h : (.ok "invalid" : Except Trap String) = .ok name) :
      ¬Keyed name := by
    cases h
    exact not_keyed (by decide)
  rw [guessWrapped] at h
  cases hpush : parsePushBytes script.tail with
  | none =>
    rw [hpush] at h
    exact absurd hname (hinvalid h)
  | some pushed =>
    rw [hpush] at h
    dsimp only at h
    by_cases hbuilt : [0xa9] ++ (pushBytes pushed.1 ++ [0x87]) = script
    · rw [if_pos hbuilt] at h
      exact hintName_keyed pk (not_keyed (by decide)) h hname
    · rw [if_neg hbuilt] at h
      exact absurd hname (hinvalid h)

/-- A format that only a key tells apart is guessed for what the key generates. -/
theorem guessName_keyed {script : Bytes} {name : String} (h : guessName script (some pk) = .ok name)
    (hname : Keyed name) : scriptBytes pk name = .ok script := by
  have hplain {plain : String} (hplain : ¬Keyed plain)
      (h : (.ok plain : Except Trap String) = .ok name) : False := by
    cases h
    exact hplain hname
  rw [guessName] at h
  split_ifs at h with h0 h22 h34 h51 h32 hreturn hsig hhash hequal
  all_goals first
    | exact (hplain (not_keyed (by decide)) h).elim
    | skip
  · exact hintName_keyed pk (not_keyed (by decide)) h hname
  · exact (hplain (guessKey_not_keyed script) h).elim
  · exact guessWrapped_keyed pk h hname

theorem guessOut_keyed {outs : List Out} (houts : getOuts pk = .ok outs) {script : Bytes} {g : Out}
    (h : guessOut script (some pk) = .ok g) (hname : Keyed g.name) : g ∈ outs := by
  rw [guessOut] at h
  split_ifs at h with hempty
  · cases h
    change Keyed "empty" at hname
    exact absurd hname (not_keyed (by decide))
  · obtain ⟨name, hguess, hmade⟩ := bind_eq_ok.mp h
    cases hmade
    have hknown : name ∈ allFormats := by
      have hall : ∀ e ∈ "p2pukh" :: wrappedFormats, e ∈ allFormats := by decide
      exact hall name (List.mem_cons.mpr hname)
    exact (mem_outs pk houts).mpr ⟨hknown, guessName_keyed pk hguess hname⟩

/-- The outputs of a key are what its formats generate. What is guessed for the sake of a key is
one of them. Without the key an output of it is taken for the shape it has. With the key it is one
of the outputs again, or the bare `p2wsh`, and has the address of the output that it was. -/
theorem guess_recognizes (pk : PubKey K) : ∃ outs, getOuts pk = .ok outs ∧
    (∀ name s, (⟨name, [], s⟩ : Out) ∈ outs ↔ name ∈ allFormats ∧ scriptBytes pk name = .ok s) ∧
    (∀ s g, guessOut s (some pk) = .ok g → Keyed g.name → g ∈ outs) ∧
    ∀ u ∈ outs, u.name ∈ bitcoinFormats →
      guessOut u.raw (none : Option (PubKey K)) = .ok ⟨bareName u.name, [], u.raw⟩ ∧
      ∃ g, guessOut u.raw (some pk) = .ok g ∧ g.raw = u.raw ∧ bareName g.name = bareName u.name ∧
        (if bareName u.name = "p2wsh" then g.name = "p2wsh" else g ∈ outs) ∧
        ∀ (H : Hashes) (keccak256 : Bytes → ByteVec 32) (flags : List String),
          (flags.headD "").startsWith "zcash" = false →
          g.address H keccak256 flags = u.address H keccak256 flags := by
  have hformats : ∀ name ∈ bitcoinFormats, bareName (bareName name) = bareName name ∧
      (∀ e ∈ refinements (bareName name), bareName e = bareName name ∧ e ∈ allFormats) ∧
      (name ∈ refinements (bareName name) ∨ refinements (bareName name) = [] ∧
        (bareName name = "p2wsh" ∨ bareName name = name)) := by decide
  have hwitness : refinements "p2wsh" = [] := by decide
  refine ⟨_, getOuts_eq pk, fun name s => mem_outs pk (getOuts_eq pk),
    fun s g hg hkeyed => guessOut_keyed pk (getOuts_eq pk) hg hkeyed, ?_⟩
  intro u hu hname
  obtain ⟨name, hall, hmade⟩ := List.mem_filterMap.mp hu
  obtain ⟨s, hs, rfl⟩ := Option.map_eq_some_iff.mp hmade
  have hgen : scriptBytes pk name = .ok s := by
    refine (generates_iff pk).mp ?_
    rw [generates, hs]
    exact decide_eq_true rfl
  have hshape := shape_of_generated pk hname hgen
  obtain ⟨hbare, hrefinements, hkind⟩ := hformats name hname
  have hguessed : bareName (refined (some pk) (bareName name) s) = bareName name := by
    rcases refined_cases pk (bareName name) s with h | ⟨h, -⟩
    · rw [h, hbare]
    · exact (hrefinements _ h).1
  refine ⟨guessOut_of_shape hshape none, _, guessOut_of_shape hshape (some pk), rfl, hguessed, ?_, ?_⟩
  · split_ifs with hwsh
    · change bareName name = "p2wsh" at hwsh
      change refined (some pk) (bareName name) s = "p2wsh"
      rw [hwsh, refined, hwitness]
      rfl
    · refine (mem_outs pk (getOuts_eq pk)).mpr ?_
      rcases hkind with hmem | ⟨hnone, h | h⟩
      · obtain ⟨hin, hsame⟩ := refined_of_generated pk hmem hgen
        exact ⟨(hrefinements _ hin).2, hsame⟩
      · exact absurd h hwsh
      · rw [refined, hnone, List.find?_nil, Option.getD_none, h]
        exact ⟨hall, hgen⟩
  · intro H keccak256 flags hnet
    refine address_congr H keccak256 hguessed rfl rfl ?_
    cases flags with
    | nil => rfl
    | cons net flags => exact hnet

end Guess

end Outscript.Formats
