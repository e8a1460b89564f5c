import Outscript.ControlBlock
import Outscript.Psbt.Input
import Outscript.Psbt.Resolve

/-!
# The finalizer

An input with enough signatures gets its final scriptSig and witness, built on
stacks of a fixed size; overrunning one is a panic. What is not finalized is
copied.
-/
namespace Outscript.Psbt

open ByteString Fallible Taproot

/-- Up to 20 stack items (enough for a 16-of-16 multisig with its dummy and
script). -/
structure Stack where
  items : List Bytes
  fits : items.length ≤ 20
  deriving DecidableEq

namespace Stack

def empty : Stack := ⟨[], Nat.zero_le _⟩

def push (st : Stack) (item : Bytes) : Except Trap Stack :=
  if h : st.items.length < 20 then
    .ok ⟨st.items ++ [item], by rw [List.length_append]; exact Nat.succ_le_of_lt h⟩
  else .error .panic

def pushAll (st : Stack) (items : List Bytes) : Except Trap Stack := items.foldlM push st

end Stack

/-- A final scriptSig: pushes of `items`, then of `redeem`. -/
structure ScriptSigValue where
  items : Stack
  redeem : Option Bytes

/-- A header of `header` bytes, which `pushBytesLen` gave. -/
def writePushHeader (len header : Nat) : Bytes :=
  match header with
  | 1 => [UInt8.ofNat len]
  | 2 => [0x4c, UInt8.ofNat len]
  | 3 => 0x4d :: le 2 len
  | _ => 0x4e :: le 4 len

namespace ScriptSigValue

def isEmpty (v : ScriptSigValue) : Bool := decide (v.items.items.length = 0) && v.redeem.isNone

def writeValue (v : ScriptSigValue) : Bytes :=
  (v.items.items ++ v.redeem.toList).flatMap fun item =>
    writePushHeader item.length (pushBytesLen item.length - item.length) ++ item

end ScriptSigValue

/-! ## Script templates -/

/-- The standard single-key and multisig script templates. -/
inductive Template where
  | pkh (hash : ByteVec 20)
  | pk (key : Bytes)
  | multi (m : Nat) (keys : Stack)

/-- What stands between the threshold and `OP_CHECKMULTISIG`. -/
structure MultisigParts where
  m : UInt8
  body : Bytes
  n : UInt8

/-- Small integers, from `OP_1` to `OP_16`. -/
def isSmallInt (op : UInt8) : Bool := decide (0x51 ≤ op ∧ op ≤ 0x60)

def multisigParts (script : Bytes) : Option MultisigParts :=
  match script with
  | [] => none
  | m :: rest =>
    match rest.reverse with
    | last :: n :: body =>
      if last = 0xae ∧ isSmallInt m ∧ isSmallInt n then some ⟨m, body.reverse, n⟩ else none
    | _ => none

/-- The keys pushed so far, the bytes they took, and whether there were only keys. -/
structure KeyScan where
  keys : Stack
  used : Nat
  ok : Bool

namespace KeyScan

def visit (scan : KeyScan) (k : Bytes) : Except Trap KeyScan :=
  if (k.length = 33 ∨ k.length = 65) ∧ scan.keys.items.length < 16 then do
    let keys ← scan.keys.push k
    .ok { scan with keys, used := scan.used + (1 + k.length) }
  else .ok { scan with ok := false }

end KeyScan

def template (script : Bytes) : Except Trap (Option Template) :=
  match between [0x76, 0xa9, 0x14] [0x88, 0xac] 20 script with
  | some hash => .ok (some (.pkh hash))
  | none =>
    match between [0x21] [0xac] 33 script with
    | some key => .ok (some (.pk key.toList))
    | none =>
      match between [0x41] [0xac] 65 script with
      | some key => .ok (some (.pk key.toList))
      | none =>
        match multisigParts script with
        | none => .ok none
        | some parts => do
          let m := (parts.m - 0x50).toNat
          let n := (parts.n - 0x50).toNat
          let scan ← (forEachPush parts.body).foldlM KeyScan.visit ⟨.empty, 0, true⟩
          if scan.ok ∧ scan.used = parts.body.length ∧ scan.keys.items.length = n ∧ m ≤ n then
            .ok (some (.multi m scan.keys))
          else .ok none

/-- Pushes the signatures of `keys` until there are `m`. -/
def pushSigs (inp : Map) (m : Nat) : List Bytes → Stack → Except Trap Stack
  | [], st => .ok st
  | key :: keys, st =>
    if st.items.length - 1 = m then .ok st
    else
      match PsbtInput.partialSig inp key with
      | some sig => do
        let st ← st.push sig
        pushSigs inp m keys st
      | none => pushSigs inp m keys st

/-- The signature stack satisfying a template, if enough signatures exist. -/
def satisfy (H : Hashes) (inp : Map) : Template → Except Trap (Option Stack)
  | .pkh hash =>
    match (PsbtInput.partialSigs inp).find? fun s => H.hash160 s.1 = hash with
    | none => .ok none
    | some (pk, sig) => do
      let st ← Stack.empty.push sig
      let st ← st.push pk
      .ok (some st)
  | .pk key =>
    match PsbtInput.partialSig inp key with
    | none => .ok none
    | some sig => do
      let st ← Stack.empty.push sig
      .ok (some st)
  | .multi m keys => do
    let st ← Stack.empty.push [] -- CHECKMULTISIG dummy
    let st ← pushSigs inp m keys.items st
    if st.items.length - 1 < m then .ok none else .ok (some st)

/-! ## Tapscript templates -/

/-- The threshold that ends a template of `count` keys. -/
def thresholdOf (count : Nat) (rest : Bytes) : Option Nat :=
  match rest with
  | [] => if count = 1 then some 1 else none
  | [m, op] => if isSmallInt m ∧ op = 0x9c then some (m - 0x50).toNat else none
  | [push, m, op] =>
    if push = 0x01 ∧ 17 ≤ m ∧ m ≤ 0x7f ∧ op = 0x9c then some m.toNat else none
  | _ => none

/-- A 32-byte push and the opcode behind it. -/
def keyAndOp (rest : Bytes) : Option (Bytes × UInt8 × Bytes) :=
  match rest with
  | 0x20 :: tail =>
    if tail.length < 32 then none
    else
      match tail.drop 32 with
      | op :: after => some (tail.take 32, op, after)
      | [] => none
  | _ => none

/-- `OP_CHECKSIG` for the first key and `OP_CHECKSIGADD` after. -/
def checkOp (count : Nat) : UInt8 := if count = 0 then 0xac else 0xba

/-- The rest of a template behind `keys`. -/
def tapTemplateFrom : Nat → Stack → Bytes → Except Trap (Option (Nat × Stack))
  | 0, _, _ => .ok none
  | fuel + 1, keys, rest =>
    match keyAndOp rest with
    | none => .ok none
    | some (key, op, tail) =>
      if op ≠ checkOp keys.items.length then .ok none
      -- the witness also holds the script and the control block
      else if keys.items.length = 18 then .ok none
      else do
        let keys ← keys.push key
        match thresholdOf keys.items.length tail with
        | some m => .ok (if 1 ≤ m ∧ m ≤ keys.items.length then some (m, keys) else none)
        | none => tapTemplateFrom fuel keys tail

/-- The tapscript key templates: `<key> OP_CHECKSIG`, and
`<k1> OP_CHECKSIG <k2> OP_CHECKSIGADD ... <m> OP_NUMEQUAL`. The threshold and
the keys in script order. -/
def tapTemplate (script : Bytes) : Except Trap (Option (Nat × Stack)) :=
  tapTemplateFrom (script.length + 1) .empty script

/-- Which of the keys sign: the first `m` that have a signature. -/
def markUsed (sigOf : Bytes → Option Bytes) (m : Nat) : Nat → List Bytes → List Bool
  | _, [] => []
  | count, key :: keys =>
    if count < m ∧ (sigOf key).isSome then true :: markUsed sigOf m (count + 1) keys
    else false :: markUsed sigOf m count keys

/-- The item for a key; there is none for a key that signs without a signature. -/
def witnessItem (sigOf : Bytes → Option Bytes) (entry : Bytes × Bool) : Option Bytes :=
  if entry.2 then sigOf entry.1 else some []

section Model

variable (C : Purecrypto)

/-- The signature of `key` for a leaf. -/
def leafSig (inp : Map) (leafHash : ByteVec 32) (key : Bytes) : Option Bytes :=
  ((PsbtInput.tapScriptSigs inp).find? fun s => s.1 = key ∧ s.2.1 = leafHash.toList).map (·.2.2)

/-- The template of a leaf that its control block proves, and the leaf hash. -/
def provenLeaf (outputKey : ByteVec 32) (leaf : TapLeafScript) :
    Except Trap (Option (Nat × Stack × ByteVec 32)) := do
  match ← tapTemplate leaf.script with
  | none => .ok none
  | some (m, keys) =>
    match ControlBlock.parse leaf.controlBlock with
    | .error _ => .ok none
    | .ok cb =>
      if cb.leafVersion ≠ leaf.leafVersion ∨ cb.verify C leaf.script outputKey = false then .ok none
      else .ok (some (m, keys, cb.leafHash C leaf.script))

/-- The loop over the leaves; `best` is the shortest control block so far. -/
def tapLeafLoop (inp : Map) (outputKey : ByteVec 32) :
    List TapLeafScript → Option (Nat × Stack) → Except Trap (Option Stack)
  | [], best => .ok (best.map (·.2))
  | leaf :: leaves, best =>
    if leaf.leafVersion ≠ tapscriptLeafVersion ∨
        best.any (fun b => b.1 ≤ leaf.controlBlock.length) then
      tapLeafLoop inp outputKey leaves best
    else do
      match ← provenLeaf C outputKey leaf with
      | none => tapLeafLoop inp outputKey leaves best
      | some (m, keys, leafHash) =>
        let sigOf := leafSig inp leafHash
        let used := markUsed sigOf m 0 keys.items
        if used.count true < m then tapLeafLoop inp outputKey leaves best
        else
          -- the first key's signature is consumed first, so it sits on top
          match ((keys.items.zip used).reverse).mapM (witnessItem sigOf) with
          | none => .ok none
          | some items => do
            let st ← Stack.empty.pushAll items
            let st ← st.push leaf.script
            let st ← st.push leaf.controlBlock
            tapLeafLoop inp outputKey leaves (some (leaf.controlBlock.length, st))

/-- The witness spending a taproot input through the script path. -/
def tapScriptWitness (inp : Map) (outputKey : ByteVec 32) : Except Trap (Option Stack) :=
  tapLeafLoop C inp outputKey (PsbtInput.tapLeafScripts inp) none

/-! ## Finalizing -/

structure Final where
  scriptSig : ScriptSigValue
  witness : Stack

/-- The stack that satisfies a script, if it is of a known template. -/
def satisfyScript (inp : Map) (script : Bytes) : Except Trap (Option Stack) := do
  match ← template script with
  | none => .ok none
  | some t => satisfy C.toHashes inp t

def buildFinal (p : View) (index : Nat) : Except Trap (Option Final) := do
  let inp ← orTrap (okOr (p.input index) .inputIndex)
  let res ← orTrap (resolve C p index)
  let final (items witness : Stack) : Final := ⟨⟨items, res.redeem⟩, witness⟩
  match res.kind with
  | .legacy script =>
    match ← satisfyScript C inp script with
    | none => .ok none
    | some st => .ok (some (final st .empty))
  | .p2wpkh hash =>
    match ← satisfy C.toHashes inp (.pkh hash) with
    | none => .ok none
    | some st => .ok (some (final .empty st))
  | .p2wsh ws =>
    match ← satisfyScript C inp ws with
    | none => .ok none
    | some st => do
      let st ← st.push ws
      .ok (some (final .empty st))
  -- the key path is the cheapest spend; otherwise a signed leaf
  | .p2tr outputKey =>
    match PsbtInput.tapKeySig inp with
    | some sig => do
      let st ← Stack.empty.push sig
      .ok (some (final .empty st))
    | none =>
      match ← tapScriptWitness C inp outputKey with
      | none => .ok none
      | some st => .ok (some (final .empty st))

/-- The records a final input gains. -/
def Final.added (fin : Final) : List NewRecord :=
  let sigRec : NewRecord := ⟨[UInt8.ofNat Input.finalScriptsig], [], fin.scriptSig.writeValue⟩
  let witRec : NewRecord := ⟨[UInt8.ofNat Input.finalScriptwitness], [], encodeStack fin.witness.items⟩
  match fin.scriptSig.isEmpty, decide (fin.witness.items.length = 0) with
  | false, false => [sigRec, witRec]
  | false, true => [sigRec]
  | true, false => [witRec]
  | true, true => []

/-- UTXOs and unknown or proprietary data are kept. -/
def keptFinal (r : Record) : Bool := !decide (0x02 ≤ r.keyType ∧ r.keyType ≤ 0x18)

def Final.edit (fin : Final) : MapEdit := { MapEdit.none with keep := some keptFinal, added := fin.added }

/-- What is built for a map; nothing for one that is copied. -/
def finalOf (p : View) (loc : MapLoc) (map : Map) : Except Trap (Option Final) :=
  match loc with
  | .input i =>
    if PsbtInput.isFinalized map then .ok none
    else
      match buildFinal C p i with
      | .ok fin => .ok fin
      | .error (.error e) => if skippable e then .ok none else .error (.error e)
      | .error .panic => .error .panic
  | _ => .ok none

/-- Writes one map, and counts it if it is finalized. -/
def finalizeMap (p : View) (loc : MapLoc) (map : Map) : StateT Nat (Except Trap) Bytes := fun count =>
  match finalOf C p loc map with
  | .error e => .error e
  | .ok (some fin) => .ok (writeMap map fin.edit, count + 1)
  | .ok none => .ok (writeMap map .none, count)

def writeFinalized (p : View) : Except Trap (Bytes × Nat) := (p.write (finalizeMap C p)).run 0

/-- The bytes written, and the number of inputs finalized by this call. -/
def finalizeToSlice (p : View) (cap : Nat) : Except Trap (Bytes × Nat) := do
  let (bytes, count) ← writeFinalized C p
  let out ← orTrap (emit C cap (.ok bytes))
  .ok (out, count)

def finalizedLen (p : View) : Except Trap Nat := do
  let (bytes, _) ← writeFinalized C p
  .ok bytes.length

end Model

end Outscript.Psbt
