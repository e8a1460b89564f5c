import Outscript.Btc.Sign
import Outscript.Library.Memo
import Outscript.Psbt.Sign

/-!
# Script formats

Each format has a generator, and a definition that composes it of insertables.
A definition refers to other formats by name, through the cache of the script it
is evaluated for.
-/
namespace Outscript.Formats

open ByteString Fallible Secp256k1

/-- The hashes of all chains, and the curve. -/
structure Chains extends Purecrypto where
  keccak256 : Bytes → ByteVec 32
  blake3 : Bytes → ByteVec 32
  blake2b224 : Bytes → ByteVec 28

inductive PubKey (K : Chains) where
  | secp256k1 (k : SecpPublicKey K.toPurecrypto)
  | ed25519 (k : ByteVec 32)

/-! ## The generator -/

def maxScriptLen : ℕ := 67

/-- A generated output script or encoding of a key, stored inline. -/
abbrev ScriptBytes := Psbt.InlineBytes maxScriptLen

def scriptOf (parts : List Bytes) : Except Trap ScriptBytes :=
  parts.foldlM Psbt.InlineBytes.expectExtend .empty

/-- What is behind `front` in a name. -/
def stripPrefix (front name : String) : Option String :=
  if front.toList <+: name.toList then some (String.ofList (name.toList.drop front.length)) else none

/-- The formats that `p2sh:` and `p2wsh:` wrap. -/
def innerFormats : List String := ["p2pkh", "p2pukh", "p2pk", "p2puk", "p2wpkh"]

section Generator

variable {K : Chains}

namespace PubKey

def comp : PubKey K → Except Trap Bytes
  | secp256k1 k => .ok (K.toSec1Compressed k).toList
  | ed25519 _ => .error (.error .unsupportedKeyType)

def uncomp : PubKey K → Except Trap Bytes
  | secp256k1 k => .ok (K.toSec1Uncompressed k).toList
  | ed25519 _ => .error (.error .unsupportedKeyType)

def ed : PubKey K → Except Trap Bytes
  | ed25519 k => .ok k.toList
  | secp256k1 _ => .error (.error .unsupportedKeyType)

end PubKey

/-- The last 20 bytes of the hash of a key without its first byte. -/
def etherHash (K : Chains) (uncompressedPubkey : Bytes) : Bytes :=
  (K.keccak256 uncompressedPubkey.tail).toList.drop 12

def taprootTweak (C : Purecrypto) (internalXonly : ByteVec 32) : Except Error (ByteVec 32 × UInt8) :=
  taprootTweakWithRoot C internalXonly none

/-- The tweaked key of an x coordinate, which is taken as 32 bytes. -/
def tweaked (C : Purecrypto) (xOnly : Bytes) : Except Trap Bytes :=
  if h : xOnly.length = 32 then
    match taprootTweak C ⟨xOnly, h⟩ with
    | .ok (tweaked, _) => .ok tweaked.toList
    | .error _ => .error (.error .invalidKey)
  else .error .panic

/-- The formats without a wrapper. -/
def generatePlain (pubkey : PubKey K) (name : String) : Except Trap ScriptBytes :=
  match name with
  | "pubkey:comp" => do scriptOf [← pubkey.comp]
  | "pubkey:uncomp" => do scriptOf [← pubkey.uncomp]
  | "pubkey:ed25519" => do scriptOf [← pubkey.ed]
  | "p2pkh" => do scriptOf [[0x76, 0xa9, 0x14], (K.hash160 (← pubkey.comp)).toList, [0x88, 0xac]]
  | "p2pukh" => do scriptOf [[0x76, 0xa9, 0x14], (K.hash160 (← pubkey.uncomp)).toList, [0x88, 0xac]]
  | "p2pk" => do scriptOf [[0x21], ← pubkey.comp, [0xac]]
  | "p2puk" => do scriptOf [[0x41], ← pubkey.uncomp, [0xac]]
  | "p2wpkh" => do scriptOf [[0x00, 0x14], (K.hash160 (← pubkey.comp)).toList]
  | "p2tr" => do
    let c ← pubkey.comp
    scriptOf [[0x51, 0x20], ← tweaked K.toPurecrypto c.tail]
  | "eth" => do scriptOf [etherHash K (← pubkey.uncomp)]
  -- the same account hash as `eth` behind the address prefix
  | "tron" => do scriptOf [[0x41], etherHash K (← pubkey.uncomp)]
  | "massa_pubkey" => do scriptOf [[0x00], ← pubkey.ed]
  | "massa" => do scriptOf [[0x00, 0x00], (K.blake3 (0x00 :: (← pubkey.ed))).toList]
  | "solana" => do scriptOf [← pubkey.ed]
  | "cardano" => do scriptOf [[0x61], (K.blake2b224 (← pubkey.ed)).toList]
  | _ => .error (.error .unknownFormat)

/-- Generates the bytes of a built-in format, or of a key. An inner format has no wrapper of its
own. -/
def generateScript (pubkey : PubKey K) (name : String) : Except Trap ScriptBytes :=
  match stripPrefix "p2sh:" name, stripPrefix "p2wsh:" name with
  | some inner, _ =>
    if inner ∈ innerFormats then do
      let redeem ← generatePlain pubkey inner
      scriptOf [[0xa9, 0x14], (K.hash160 redeem.bytes).toList, [0x87]]
    else .error (.error .unknownFormat)
  | none, some inner =>
    if inner ∈ innerFormats then do
      let witnessScript ← generatePlain pubkey inner
      scriptOf [[0x00, 0x20], (K.sha256 witnessScript.bytes).toList]
    else .error (.error .unknownFormat)
  | none, none => generatePlain pubkey name

/-! ## Scripts with a cache -/

/-- The scripts of a key that were generated before. -/
abbrev Cache := List (String × Bytes)

abbrev ScriptCall := Call Cache Trap

/-- What is generated, as a list of bytes. -/
def scriptBytes (pubkey : PubKey K) (name : String) : Except Trap Bytes :=
  (generateScript pubkey name).map Psbt.InlineBytes.bytes

def Script.generate (pubkey : PubKey K) (name : String) : ScriptCall Bytes :=
  Memo.fetch (scriptBytes pubkey) name

/-- The bytes of a key in one of its own formats. -/
def PubKey.bytesFor (pubkey : PubKey K) (typ : String) : Except Trap Bytes :=
  if typ ∈ ["pubkey:ed25519", "pubkey:comp", "pubkey:uncomp"] then scriptBytes pubkey typ
  else .error (.error .unknownFormat)

/-! ## Insertables -/

/-- A component of an output script. -/
inductive Insertable where
  | bytes (b : Bytes)
  /-- A reference to another format. -/
  | lookup (name : String)
  | pushBytes (inner : Insertable)
  | hash (inner : Insertable) (fns : List (Bytes → Bytes))
  | taprootTweak (inner : Insertable)

/-- Each function consumes what the one before gave. -/
def hashChain (data : Bytes) (fns : List (Bytes → Bytes)) : Bytes := fns.foldl (fun cur f => f cur) data

/-- The tweak of what must be a compressed key. -/
def tweakKey (C : Purecrypto) (v : Bytes) : Except Trap Bytes :=
  if v.length = 33 then tweaked C v.tail else .error (.error .invalidKey)

namespace Insertable

def eval (pubkey : PubKey K) : Insertable → ScriptCall Bytes
  | bytes b => pure b
  | lookup name => Script.generate pubkey name
  | pushBytes inner => do
    let v ← inner.eval pubkey
    return Outscript.pushBytes v
  | hash inner fns => do
    let v ← inner.eval pubkey
    return hashChain v fns
  | taprootTweak inner => do
    let v ← inner.eval pubkey
    Call.lift (tweakKey K.toPurecrypto v)

variable (K) in
def ihash160 (inner : Insertable) : Insertable :=
  .hash inner [fun b => (K.sha256 b).toList, fun b => (K.ripemd160 b).toList]

end Insertable

/-- The definition of a format. -/
def formatDef (K : Chains) (name : String) : Option (List Insertable) :=
  let p2sh (inner : String) : List Insertable :=
    [.bytes [0xa9], .pushBytes (.ihash160 K (.lookup inner)), .bytes [0x87]]
  let p2wsh (inner : String) : List Insertable :=
    [.bytes [0x00], .pushBytes (.hash (.lookup inner) [fun b => (K.sha256 b).toList])]
  match name with
  | "p2pkh" =>
    some [.bytes [0x76, 0xa9], .pushBytes (.ihash160 K (.lookup "pubkey:comp")), .bytes [0x88, 0xac]]
  | "p2pukh" =>
    some [.bytes [0x76, 0xa9], .pushBytes (.ihash160 K (.lookup "pubkey:uncomp")), .bytes [0x88, 0xac]]
  | "p2pk" => some [.pushBytes (.lookup "pubkey:comp"), .bytes [0xac]]
  | "p2puk" => some [.pushBytes (.lookup "pubkey:uncomp"), .bytes [0xac]]
  | "p2wpkh" => some [.bytes [0x00], .pushBytes (.ihash160 K (.lookup "pubkey:comp"))]
  | "p2tr" => some [.bytes [0x51], .pushBytes (.taprootTweak (.lookup "pubkey:comp"))]
  | "p2sh:p2pkh" => some (p2sh "p2pkh")
  | "p2sh:p2pukh" => some (p2sh "p2pukh")
  | "p2sh:p2pk" => some (p2sh "p2pk")
  | "p2sh:p2puk" => some (p2sh "p2puk")
  | "p2sh:p2wpkh" => some (p2sh "p2wpkh")
  | "p2wsh:p2pkh" => some (p2wsh "p2pkh")
  | "p2wsh:p2pukh" => some (p2wsh "p2pukh")
  | "p2wsh:p2pk" => some (p2wsh "p2pk")
  | "p2wsh:p2puk" => some (p2wsh "p2puk")
  | "p2wsh:p2wpkh" => some (p2wsh "p2wpkh")
  | "eth" => some [.hash (.lookup "pubkey:uncomp") [etherHash K]]
  | "tron" => some [.bytes [0x41], .hash (.lookup "pubkey:uncomp") [etherHash K]]
  | "massa_pubkey" => some [.bytes [0x00], .lookup "pubkey:ed25519"]
  | "massa" => some [.bytes [0x00, 0x00], .hash (.lookup "massa_pubkey") [fun b => (K.blake3 b).toList]]
  | "solana" => some [.lookup "pubkey:ed25519"]
  | "cardano" =>
    some [.bytes [0x61], .hash (.lookup "pubkey:ed25519") [fun b => (K.blake2b224 b).toList]]
  | _ => none

/-- All built-in format names. -/
def allFormats : List String :=
  ["p2pkh", "p2pukh", "p2pk", "p2puk", "p2wpkh", "p2tr",
    "p2sh:p2pkh", "p2sh:p2pukh", "p2sh:p2pk", "p2sh:p2puk", "p2sh:p2wpkh",
    "p2wsh:p2pkh", "p2wsh:p2pukh", "p2wsh:p2pk", "p2wsh:p2puk", "p2wsh:p2wpkh",
    "eth", "tron", "massa_pubkey", "massa", "solana", "cardano"]

/-- The pieces of a definition in a row. -/
def evalFormat (pubkey : PubKey K) : List Insertable → ScriptCall Bytes
  | [] => pure []
  | piece :: pieces => do
    let v ← piece.eval pubkey
    let rest ← evalFormat pubkey pieces
    return v ++ rest

/-! ## What is generated -/

theorem expectExtend_eq {n : ℕ} (v : Psbt.InlineBytes n) {data : Bytes}
    (h : (v.bytes ++ data).length ≤ n) : v.expectExtend data = .ok ⟨v.bytes ++ data, h⟩ := by
  rw [Psbt.InlineBytes.expectExtend, Psbt.InlineBytes.extendFromSlice, dif_pos h]
  rfl

theorem foldlM_expectExtend {parts : List Bytes} {v : ScriptBytes}
    (h : (v.bytes ++ parts.flatten).length ≤ maxScriptLen) :
    (parts.foldlM Psbt.InlineBytes.expectExtend v).map Psbt.InlineBytes.bytes =
      .ok (v.bytes ++ parts.flatten) := by
  induction parts generalizing v with
  | nil => simp [Except.map, pure, Except.pure]
  | cons p parts ih =>
    rw [List.flatten_cons, ← List.append_assoc] at h
    have hp : (v.bytes ++ p).length ≤ maxScriptLen := by
      rw [List.length_append] at h
      omega
    rw [List.foldlM_cons, expectExtend_eq v hp, ok_bind, ih h, List.flatten_cons, List.append_assoc]

theorem scriptOf_bytes {parts : List Bytes} (h : parts.flatten.length ≤ maxScriptLen) :
    (scriptOf parts).map Psbt.InlineBytes.bytes = .ok parts.flatten :=
  foldlM_expectExtend (v := .empty) h

/-- The bytes of an insertable, where other formats are generated anew. -/
def Insertable.value (pubkey : PubKey K) : Insertable → Except Trap Bytes
  | bytes b => .ok b
  | lookup name => scriptBytes pubkey name
  | pushBytes inner => do
    let v ← inner.value pubkey
    return Outscript.pushBytes v
  | hash inner fns => do
    let v ← inner.value pubkey
    return hashChain v fns
  | taprootTweak inner => do
    let v ← inner.value pubkey
    tweakKey K.toPurecrypto v

def formatValue (pubkey : PubKey K) : List Insertable → Except Trap Bytes
  | [] => .ok []
  | piece :: pieces => do
    let v ← piece.value pubkey
    let rest ← formatValue pubkey pieces
    return v ++ rest

/-- No insertable depends on what is in the cache. -/
theorem Insertable.reads_eval (pubkey : PubKey K) (piece : Insertable)
    (view : Cache → Unit) :
    Call.Reads (Memo.Sound (scriptBytes pubkey)) view () (piece.eval pubkey) (piece.value pubkey) := by
  induction piece with
  | bytes b => exact Call.reads_pure b
  | lookup name => exact Memo.reads_fetch _ name view
  | pushBytes inner ih => exact ih.bind fun _ _ => Call.reads_pure _
  | hash inner fns ih => exact ih.bind fun _ _ => Call.reads_pure _
  | taprootTweak inner ih => exact ih.bind fun _ _ => Call.reads_lift _

theorem reads_evalFormat (pubkey : PubKey K) (pieces : List Insertable) (view : Cache → Unit) :
    Call.Reads (Memo.Sound (scriptBytes pubkey)) view () (evalFormat pubkey pieces)
      (formatValue pubkey pieces) := by
  induction pieces with
  | nil => exact Call.reads_pure []
  | cons piece pieces ih =>
    exact (piece.reads_eval pubkey view).bind fun _ _ => ih.bind fun _ _ => Call.reads_pure _

/-- Only the hash of a short string is pushed by one byte. -/
theorem pushBytes_short {v : Bytes} (h : v.length ≤ 75) :
    pushBytes v = UInt8.ofNat v.length :: v := by
  rw [pushBytes, pushHeader, if_pos h]
  rfl

theorem tweaked_length {C : Purecrypto} {xOnly q : Bytes} (h : tweaked C xOnly = .ok q) :
    q.length = 32 := by
  rw [tweaked] at h
  split_ifs at h with hlen
  cases htweak : taprootTweak C ⟨xOnly, hlen⟩ with
  | error e => rw [htweak] at h; cases h
  | ok q' =>
    rw [htweak] at h
    cases h
    exact q'.1.toList_length

/-- A format made of one part that may be missing. -/
theorem scriptBytes_of {pk : PubKey K} {name : String} {α : Type} {x : Except Trap α}
    {parts : α → List Bytes} (h : generateScript pk name = x >>= fun v => scriptOf (parts v))
    (hlen : ∀ v, x = .ok v → (parts v).flatten.length ≤ maxScriptLen) :
    scriptBytes pk name = x.map fun v => (parts v).flatten := by
  rw [scriptBytes, h]
  cases x with
  | error e => rfl
  | ok v => exact scriptOf_bytes (hlen v rfl)

theorem PubKey.comp_length {pk : PubKey K} {v : Bytes} (h : pk.comp = .ok v) : v.length = 33 := by
  cases pk with
  | secp256k1 k => cases h; exact (K.toSec1Compressed k).toList_length
  | ed25519 k => cases h

theorem PubKey.uncomp_length {pk : PubKey K} {v : Bytes} (h : pk.uncomp = .ok v) : v.length = 65 := by
  cases pk with
  | secp256k1 k => cases h; exact (K.toSec1Uncompressed k).toList_length
  | ed25519 k => cases h

theorem PubKey.ed_length {pk : PubKey K} {v : Bytes} (h : pk.ed = .ok v) : v.length = 32 := by
  cases pk with
  | secp256k1 k => cases h
  | ed25519 k => cases h; exact k.toList_length

theorem etherHash_length (K : Chains) (v : Bytes) : (etherHash K v).length = 20 := by
  simp [etherHash]

section Keys

variable (pk : PubKey K)

theorem scriptBytes_comp : scriptBytes pk "pubkey:comp" = pk.comp := by
  rw [scriptBytes_of (show generateScript pk "pubkey:comp" = pk.comp >>= fun v => scriptOf [v] from rfl)]
  · cases pk.comp <;> simp [Except.map]
  · intro v h
    simp [PubKey.comp_length h, maxScriptLen]

theorem scriptBytes_uncomp : scriptBytes pk "pubkey:uncomp" = pk.uncomp := by
  rw [scriptBytes_of
    (show generateScript pk "pubkey:uncomp" = pk.uncomp >>= fun v => scriptOf [v] from rfl)]
  · cases pk.uncomp <;> simp [Except.map]
  · intro v h
    simp [PubKey.uncomp_length h, maxScriptLen]

theorem scriptBytes_ed : scriptBytes pk "pubkey:ed25519" = pk.ed := by
  rw [scriptBytes_of (show generateScript pk "pubkey:ed25519" = pk.ed >>= fun v => scriptOf [v] from rfl)]
  · cases pk.ed <;> simp [Except.map]
  · intro v h
    simp [PubKey.ed_length h, maxScriptLen]

/-- A format that depends on one part. -/
theorem formatValue_of {name : String} {α : Type} {x : Except Trap α} {pieces : List Insertable}
    {parts : α → List Bytes} (hname : generateScript pk name = x >>= fun v => scriptOf (parts v))
    (hpieces : formatValue pk pieces = x >>= fun v => .ok (parts v).flatten)
    (hlen : ∀ v, x = .ok v → (parts v).flatten.length ≤ maxScriptLen) :
    formatValue pk pieces = scriptBytes pk name := by
  rw [scriptBytes_of hname hlen, hpieces]
  cases x <;> rfl

theorem formatValue_p2sh {name inner : String}
    (hname : generateScript pk name = generatePlain pk inner >>= fun r =>
      scriptOf [[0xa9, 0x14], (K.hash160 r.bytes).toList, [0x87]])
    (hinner : generateScript pk inner = generatePlain pk inner) :
    formatValue pk [.bytes [0xa9], .pushBytes (.ihash160 K (.lookup inner)), .bytes [0x87]] =
      scriptBytes pk name := by
  refine formatValue_of pk hname ?_ ?_
  · simp only [formatValue, Insertable.value, Insertable.ihash160, scriptBytes, hinner]
    cases generatePlain pk inner <;>
      simp [Except.map, hashChain, pushBytes_short, Hashes.hash160, pure, Except.pure]
  · intro r _
    simp [maxScriptLen]

theorem formatValue_p2wsh {name inner : String}
    (hname : generateScript pk name = generatePlain pk inner >>= fun r =>
      scriptOf [[0x00, 0x20], (K.sha256 r.bytes).toList])
    (hinner : generateScript pk inner = generatePlain pk inner) :
    formatValue pk
        [.bytes [0x00], .pushBytes (.hash (.lookup inner) [fun b => (K.sha256 b).toList])] =
      scriptBytes pk name := by
  refine formatValue_of pk hname ?_ ?_
  · simp only [formatValue, Insertable.value, scriptBytes, hinner]
    cases generatePlain pk inner <;>
      simp [Except.map, hashChain, pushBytes_short, pure, Except.pure]
  · intro r _
    simp [maxScriptLen]

/-- The pieces of a format that pushes the hash of an encoding of the key. -/
theorem formatValue_keyHash {name lookup : String} {x : Except Trap Bytes} {front pre back : Bytes}
    (hname : generateScript pk name = x >>= fun v => scriptOf [front, (K.hash160 v).toList, back])
    (hlookup : scriptBytes pk lookup = x) (hfront : front = pre ++ [0x14])
    (hlen : front.length + back.length ≤ 47) :
    formatValue pk [.bytes pre, .pushBytes (.ihash160 K (.lookup lookup)), .bytes back] =
      scriptBytes pk name := by
  refine formatValue_of pk hname ?_ ?_
  · simp only [formatValue, Insertable.value, Insertable.ihash160, hlookup]
    cases x <;> simp [hashChain, pushBytes_short, Hashes.hash160, pure, Except.pure, hfront]
  · intro v _
    simp only [List.flatten_cons, List.flatten_nil, List.length_append, List.Vector.toList_length,
      maxScriptLen, List.length_nil]
    omega

theorem tweakKey_comp {v : Bytes} (h : pk.comp = .ok v) :
    tweakKey K.toPurecrypto v = tweaked K.toPurecrypto v.tail :=
  if_pos (PubKey.comp_length h)

theorem formatValue_p2tr :
    formatValue pk [.bytes [0x51], .pushBytes (.taprootTweak (.lookup "pubkey:comp"))] =
      scriptBytes pk "p2tr" := by
  have hname : generateScript pk "p2tr" =
      (pk.comp >>= fun c => tweaked K.toPurecrypto c.tail) >>= fun q =>
        scriptOf [[0x51, 0x20], q] := by
    rw [bind_assoc]
    rfl
  have hlen (q : Bytes) (hq : (pk.comp >>= fun c => tweaked K.toPurecrypto c.tail) = .ok q) :
      q.length = 32 := by
    obtain ⟨c, -, hq⟩ := bind_eq_ok.mp hq
    exact tweaked_length hq
  refine formatValue_of pk hname ?_ ?_
  · simp only [formatValue, Insertable.value, scriptBytes_comp]
    cases hc : pk.comp with
    | error e => rfl
    | ok c =>
      simp only [ok_bind, tweakKey_comp pk hc]
      cases hq : tweaked K.toPurecrypto c.tail with
      | error e => rfl
      | ok q => simp [pushBytes_short, tweaked_length hq, pure, Except.pure]
  · intro q hq
    simp [hlen q hq, maxScriptLen]

theorem formatValue_massaPubkey :
    formatValue pk [.bytes [0x00], .lookup "pubkey:ed25519"] = scriptBytes pk "massa_pubkey" := by
  refine formatValue_of pk (show generateScript pk "massa_pubkey" = pk.ed >>= _ from rfl) ?_ ?_
  · simp only [formatValue, Insertable.value, scriptBytes_ed]
    cases pk.ed <;> simp [pure, Except.pure]
  · intro v hv
    simp [PubKey.ed_length hv, maxScriptLen]

/-- The pieces of a definition give what is generated, or the same error. -/
theorem formatValue_formatDef {name : String} {pieces : List Insertable}
    (h : formatDef K name = some pieces) : formatValue pk pieces = scriptBytes pk name := by
  unfold formatDef at h
  split at h <;> cases h
  · exact formatValue_keyHash pk (show generateScript pk "p2pkh" = pk.comp >>= _ from rfl)
      (scriptBytes_comp pk) rfl (by decide)
  · exact formatValue_keyHash pk (show generateScript pk "p2pukh" = pk.uncomp >>= _ from rfl)
      (scriptBytes_uncomp pk) rfl (by decide)
  · refine formatValue_of pk (show generateScript pk "p2pk" = pk.comp >>= _ from rfl) ?_ ?_
    · simp only [formatValue, Insertable.value, scriptBytes_comp]
      cases h : pk.comp with
      | error e => rfl
      | ok v => simp [pushBytes_short, PubKey.comp_length h, pure, Except.pure]
    · intro v hv
      simp [PubKey.comp_length hv, maxScriptLen]
  · refine formatValue_of pk (show generateScript pk "p2puk" = pk.uncomp >>= _ from rfl) ?_ ?_
    · simp only [formatValue, Insertable.value, scriptBytes_uncomp]
      cases h : pk.uncomp with
      | error e => rfl
      | ok v => simp [pushBytes_short, PubKey.uncomp_length h, pure, Except.pure]
    · intro v hv
      simp [PubKey.uncomp_length hv, maxScriptLen]
  · refine formatValue_of pk (show generateScript pk "p2wpkh" = pk.comp >>= _ from rfl) ?_ ?_
    · simp only [formatValue, Insertable.value, Insertable.ihash160, scriptBytes_comp]
      cases pk.comp <;> simp [hashChain, pushBytes_short, Hashes.hash160, pure, Except.pure]
    · intro v _
      simp [maxScriptLen]
  · exact formatValue_p2tr pk
  · exact formatValue_p2sh pk rfl rfl
  · exact formatValue_p2sh pk rfl rfl
  · exact formatValue_p2sh pk rfl rfl
  · exact formatValue_p2sh pk rfl rfl
  · exact formatValue_p2sh pk rfl rfl
  · exact formatValue_p2wsh pk rfl rfl
  · exact formatValue_p2wsh pk rfl rfl
  · exact formatValue_p2wsh pk rfl rfl
  · exact formatValue_p2wsh pk rfl rfl
  · exact formatValue_p2wsh pk rfl rfl
  · refine formatValue_of pk (show generateScript pk "eth" = pk.uncomp >>= _ from rfl) ?_ ?_
    · simp only [formatValue, Insertable.value, scriptBytes_uncomp]
      cases pk.uncomp <;> simp [hashChain, pure, Except.pure]
    · intro v _
      simp [etherHash_length, maxScriptLen]
  · refine formatValue_of pk (show generateScript pk "tron" = pk.uncomp >>= _ from rfl) ?_ ?_
    · simp only [formatValue, Insertable.value, scriptBytes_uncomp]
      cases pk.uncomp <;> simp [hashChain, pure, Except.pure]
    · intro v _
      simp [etherHash_length, maxScriptLen]
  · exact formatValue_massaPubkey pk
  · refine formatValue_of pk (show generateScript pk "massa" = pk.ed >>= _ from rfl) ?_ ?_
    · simp only [formatValue, Insertable.value, ← formatValue_massaPubkey, scriptBytes_ed]
      cases pk.ed <;> simp [hashChain, pure, Except.pure]
    · intro v _
      simp [maxScriptLen]
  · refine formatValue_of pk (show generateScript pk "solana" = pk.ed >>= _ from rfl) ?_ ?_
    · simp only [formatValue, Insertable.value, scriptBytes_ed]
      cases pk.ed <;> simp [pure, Except.pure]
    · intro v hv
      simp [PubKey.ed_length hv, maxScriptLen]
  · refine formatValue_of pk (show generateScript pk "cardano" = pk.ed >>= _ from rfl) ?_ ?_
    · simp only [formatValue, Insertable.value, scriptBytes_ed]
      cases pk.ed <;> simp [hashChain, pure, Except.pure]
    · intro v _
      simp [maxScriptLen]

end Keys

/-! ## Names -/

/-- The encodings of a key. -/
def keyFormats : List String := ["pubkey:comp", "pubkey:uncomp", "pubkey:ed25519"]

theorem formatDef_isSome (name : String) : (formatDef K name).isSome = true ↔ name ∈ allFormats := by
  unfold formatDef
  split
  case h_23 => simp_all [allFormats]
  all_goals exact iff_of_true rfl (by decide)

theorem stripPrefix_eq_some {front name inner : String} (h : stripPrefix front name = some inner) :
    name = front ++ inner := by
  rw [stripPrefix] at h
  split_ifs at h with hfront
  obtain ⟨rest, hrest⟩ := hfront
  cases h
  rw [← hrest, ← String.length_toList, List.drop_left]
  rw [← String.toList_inj, ← hrest, String.toList_append, String.toList_ofList]

theorem wrapped_mem {inner : String} (h : inner ∈ innerFormats) :
    "p2sh:" ++ inner ∈ allFormats ∧ "p2wsh:" ++ inner ∈ allFormats := by
  revert inner
  decide

theorem generatePlain_unknown (pk : PubKey K) {name : String} (hformat : name ∉ allFormats)
    (hkey : name ∉ keyFormats) : generatePlain pk name = .error (.error .unknownFormat) := by
  have hknown : name ∉ allFormats ++ keyFormats := by simp [hformat, hkey]
  unfold generatePlain
  split
  case h_16 => rfl
  all_goals exact absurd (by decide) hknown

theorem generateScript_unknown (pk : PubKey K) {name : String} (hformat : name ∉ allFormats)
    (hkey : name ∉ keyFormats) : generateScript pk name = .error (.error .unknownFormat) := by
  rw [generateScript]
  cases hsh : stripPrefix "p2sh:" name with
  | some inner =>
    refine if_neg fun hinner => hformat ?_
    rw [stripPrefix_eq_some hsh]
    exact (wrapped_mem hinner).1
  | none =>
    cases hwsh : stripPrefix "p2wsh:" name with
    | some inner =>
      refine if_neg fun hinner => hformat ?_
      rw [stripPrefix_eq_some hwsh]
      exact (wrapped_mem hinner).2
    | none => exact generatePlain_unknown pk hformat hkey

/-! ## Panics -/

/-- The formats that an insertable refers to. -/
def Insertable.names : Insertable → List String
  | bytes _ => []
  | lookup name => [name]
  | pushBytes inner | hash inner _ | taprootTweak inner => inner.names

theorem tweaked_ne_panic {C : Purecrypto} {xOnly : Bytes} (h : xOnly.length = 32) :
    tweaked C xOnly ≠ .error .panic := by
  rw [tweaked, dif_pos h]
  cases taprootTweak C ⟨xOnly, h⟩ with
  | error e => rintro ⟨⟩
  | ok q => rintro ⟨⟩

theorem tweakKey_ne_panic (C : Purecrypto) (v : Bytes) : tweakKey C v ≠ .error .panic := by
  rw [tweakKey]
  split_ifs with hlen
  · exact tweaked_ne_panic (by rw [List.length_tail, hlen])
  · rintro ⟨⟩

theorem bind_ne_panic {α β : Type} {x : Except Trap α} {f : α → Except Trap β}
    (hx : x ≠ .error .panic) (hf : ∀ a, f a ≠ .error .panic) : (x >>= f) ≠ .error .panic := by
  intro h
  rcases bind_eq_error.mp h with h | ⟨a, -, h⟩
  · exact hx h
  · exact hf a h

variable (pk : PubKey K)

theorem Insertable.value_ne_panic {piece : Insertable}
    (h : ∀ name ∈ piece.names, scriptBytes pk name ≠ .error .panic) :
    piece.value pk ≠ .error .panic := by
  induction piece with
  | bytes b => rintro ⟨⟩
  | lookup name => exact h name List.mem_cons_self
  | pushBytes inner ih => exact bind_ne_panic (ih h) (by rintro _ ⟨⟩)
  | hash inner fns ih => exact bind_ne_panic (ih h) (by rintro _ ⟨⟩)
  | taprootTweak inner ih => exact bind_ne_panic (ih h) (tweakKey_ne_panic _)

theorem formatValue_ne_panic {pieces : List Insertable}
    (h : ∀ piece ∈ pieces, ∀ name ∈ piece.names, scriptBytes pk name ≠ .error .panic) :
    formatValue pk pieces ≠ .error .panic := by
  induction pieces with
  | nil => rintro ⟨⟩
  | cons piece pieces ih =>
    obtain ⟨hpiece, hpieces⟩ := List.forall_mem_cons.mp h
    refine bind_ne_panic (Insertable.value_ne_panic pk hpiece) fun v => ?_
    exact bind_ne_panic (ih hpieces) (by rintro _ ⟨⟩)

/-- A definition refers to one other format. -/
theorem formatDef_names {name : String} {pieces : List Insertable}
    (h : formatDef K name = some pieces) : ∃ n ∈ keyFormats ++ innerFormats ++ ["massa_pubkey"],
      pieces.flatMap Insertable.names = [n] ∧
        (name ∈ innerFormats ++ ["massa_pubkey"] → n ∈ keyFormats) := by
  unfold formatDef at h
  split at h <;> cases h <;> exact ⟨_, by decide, rfl, by decide⟩

theorem encodings_ne_panic :
    pk.comp ≠ .error .panic ∧ pk.uncomp ≠ .error .panic ∧ pk.ed ≠ .error .panic := by
  cases pk <;> refine ⟨?_, ?_, ?_⟩ <;> rintro ⟨⟩

theorem keyBytes_ne_panic {name : String} (h : name ∈ keyFormats) :
    scriptBytes pk name ≠ .error .panic := by
  obtain ⟨hcomp, huncomp, hed⟩ := encodings_ne_panic pk
  simp only [keyFormats, List.mem_cons, List.not_mem_nil, or_false] at h
  rcases h with rfl | rfl | rfl
  · rwa [scriptBytes_comp]
  · rwa [scriptBytes_uncomp]
  · rwa [scriptBytes_ed]

/-- A defined format does not panic if what it refers to does not. -/
theorem scriptBytes_ne_panic_of {name n : String} {pieces : List Insertable}
    (h : formatDef K name = some pieces) (hnames : pieces.flatMap Insertable.names = [n])
    (hn : scriptBytes pk n ≠ .error .panic) : scriptBytes pk name ≠ .error .panic := by
  rw [← formatValue_formatDef pk h]
  refine formatValue_ne_panic pk fun piece hpiece n' hn' => ?_
  have hmem : n' ∈ pieces.flatMap Insertable.names := List.mem_flatMap.mpr ⟨piece, hpiece, hn'⟩
  rw [hnames, List.mem_singleton] at hmem
  rwa [hmem]

theorem scriptBytes_ne_panic (name : String) : scriptBytes pk name ≠ .error .panic := by
  by_cases hkey : name ∈ keyFormats
  · exact keyBytes_ne_panic pk hkey
  cases hdef : formatDef K name with
  | none =>
    have hformat : name ∉ allFormats := by
      rw [← formatDef_isSome (K := K), hdef]
      exact Bool.false_ne_true
    rw [scriptBytes, generateScript_unknown pk hformat hkey]
    rintro ⟨⟩
  | some pieces =>
    obtain ⟨n, hn, hnames, -⟩ := formatDef_names hdef
    refine scriptBytes_ne_panic_of pk hdef hnames ?_
    rw [List.append_assoc, List.mem_append] at hn
    rcases hn with hn | hinner
    · exact keyBytes_ne_panic pk hn
    · have hinnerFormat : ∀ n ∈ innerFormats ++ ["massa_pubkey"], n ∈ allFormats := by decide
      have hsome := (formatDef_isSome (K := K) n).mpr (hinnerFormat n hinner)
      obtain ⟨pieces', hdef'⟩ := Option.isSome_iff_exists.mp hsome
      obtain ⟨n', -, hnames', hkeys⟩ := formatDef_names hdef'
      exact scriptBytes_ne_panic_of pk hdef' hnames' (keyBytes_ne_panic pk (hkeys hinner))

/-! ## Sequences of calls -/

/-- A call on a script. -/
inductive Request where
  | generate (name : String)
  | insertable (piece : Insertable)
  | format (pieces : List Insertable)

def Request.call : Request → ScriptCall Bytes
  | generate name => Script.generate pk name
  | insertable piece => piece.eval pk
  | format pieces => evalFormat pk pieces

/-- What is cached after some calls on a new script. -/
def cacheAfter (requests : List Request) : Cache := Memo.after [] (requests.map (Request.call pk))

theorem sound_cacheAfter (requests : List Request) :
    Memo.Sound (scriptBytes pk) (cacheAfter pk requests) := by
  have hreads : ∀ x ∈ requests.map (Request.call pk),
      ∃ r, Call.Reads (Memo.Sound (scriptBytes pk)) (fun _ => ()) () x r := by
    intro x hx
    obtain ⟨request, -, rfl⟩ := List.mem_map.mp hx
    cases request with
    | generate name => exact ⟨_, Memo.reads_fetch _ name _⟩
    | insertable piece => exact ⟨_, piece.reads_eval pk _⟩
    | format pieces => exact ⟨_, reads_evalFormat pk pieces _⟩
  exact (Memo.after_keeps hreads (Memo.sound_nil _) rfl).1

/-- After any calls on a script, a format gives what the generator gives for the key, by name and
through its definition, and nothing panics. Other names are encodings of the key or unknown. -/
theorem formats_agree (requests : List Request) (name : String) :
    (Script.generate pk name (cacheAfter pk requests)).1 = scriptBytes pk name ∧
      (∀ pieces, formatDef K name = some pieces →
        (evalFormat pk pieces (cacheAfter pk requests)).1 = scriptBytes pk name) ∧
      (formatDef K name = none → name ∈ keyFormats ∨
        scriptBytes pk name = .error (.error .unknownFormat)) ∧
      ((formatDef K name).isSome = true ↔ name ∈ allFormats) ∧
      scriptBytes pk name ≠ .error .panic := by
  have hsound := sound_cacheAfter pk requests
  refine ⟨?_, ?_, ?_, formatDef_isSome name, scriptBytes_ne_panic pk name⟩
  · exact (Memo.reads_fetch _ name (fun _ => ()) _ hsound rfl).1
  · intro pieces h
    rw [← formatValue_formatDef pk h]
    exact (reads_evalFormat pk pieces (fun _ => ()) _ hsound rfl).1
  · intro hnone
    by_cases hkey : name ∈ keyFormats
    · exact Or.inl hkey
    · have hformat : name ∉ allFormats := by
        rw [← formatDef_isSome (K := K), hnone]
        exact Bool.false_ne_true
      exact Or.inr (by rw [scriptBytes, generateScript_unknown pk hformat hkey]; rfl)

/-! ## Formats of signing -/

def signingName : Format → String
  | .comp => "pubkey:comp"
  | .uncomp => "pubkey:uncomp"
  | .script .p2pkh => "p2pkh"
  | .script .p2pukh => "p2pukh"
  | .script .p2pk => "p2pk"
  | .script .p2puk => "p2puk"

/-- What signing generates for a key is what the generator does. -/
theorem scriptBytes_signing (k : SecpPublicKey K.toPurecrypto) (format : Format) :
    scriptBytes (.secp256k1 k : PubKey K) (signingName format) =
      .ok (Outscript.generateScript K.toPurecrypto k format) := by
  have hparts {name : String} {parts : List Bytes}
      (hname : generateScript (.secp256k1 k : PubKey K) name = scriptOf parts)
      (hlen : parts.flatten.length ≤ maxScriptLen) :
      scriptBytes (.secp256k1 k : PubKey K) name = .ok parts.flatten := by
    rw [scriptBytes, hname, scriptOf_bytes hlen]
  rcases format with _ | _ | _ | _ | _ | _
  · exact scriptBytes_comp _
  · exact scriptBytes_uncomp _
  all_goals
    refine (hparts rfl ?_).trans ?_
    · simp [maxScriptLen]
    · simp [Outscript.generateScript]

end Generator

end Outscript.Formats
