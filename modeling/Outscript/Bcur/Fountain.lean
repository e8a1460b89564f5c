import Outscript.Bcur.Ur
import Outscript.Cbor.Head
import Outscript.Library.Worklist
import Outscript.Library.XorSum

/-!
# Multi-part URs

A message is cut into fragments of equal length, the last one padded with
zeros. A part is the XOR of the fragments that its number picks: the one
fragment before the number up to the count, then a pseudo-random set. How that
set is drawn is a parameter here.
-/
namespace Outscript.Bcur

open ByteString Ascii Fallible XorSum Worklist

/-- The indexes drawn for a part number, a fragment count and a checksum. -/
abbrev PseudoRandom := Nat → Nat → Nat → List Nat

/-- The indexes of the fragments XORed into part `seqNum`, in ascending order. -/
def chooseFragments (random : PseudoRandom) (seqNum seqLen checksum : Nat) : List Nat :=
  if seqNum ≤ seqLen then [seqNum - 1] else random seqNum seqLen checksum

def divCeil (a b : Nat) : Nat := (a + (b - 1)) / b

/-- `message[start..start + len]`. -/
def slice (message : Bytes) (start len : Nat) : Except Stuck Bytes :=
  if start + len ≤ message.length then .ok ((message.drop start).take len) else .error .panic

/-! ## The encoder -/

structure Encoder where
  urType : Bytes
  /-- The message, padded with zeros to a whole number of fragments. -/
  message : Bytes
  messageLen : Nat
  fragmentLen : Nat
  seqLen : Nat
  seqNum : Nat
  checksum : Nat

namespace Encoder

def new (urType cbor : Bytes) (maxFragmentLen : Nat) : Except Error Encoder := do
  validateType urType false
  if cbor.isEmpty then .error .emptyMessage
  else if maxFragmentLen = 0 then .error .invalidFragmentLen
  else if 2 ^ 32 ≤ cbor.length then .error .tooLarge
  else
    let fragmentLen := divCeil cbor.length (divCeil cbor.length maxFragmentLen)
    let seqLen := divCeil cbor.length fragmentLen
    .ok { urType
          message := cbor ++ List.replicate (seqLen * fragmentLen - cbor.length) 0
          messageLen := cbor.length
          fragmentLen
          seqLen
          seqNum := 0
          checksum := (crc32 cbor).toNat }

def isSinglePart (e : Encoder) : Bool := e.seqLen == 1

def mixInto (e : Encoder) : Bytes → List Nat → Except Stuck Bytes
  | data, [] => .ok data
  | data, index :: indexes => do
    let fragment ← slice e.message (index * e.fragmentLen) e.fragmentLen
    e.mixInto (xorInto data fragment) indexes

/-- The CBOR of a part: `[seq_num, seq_len, message_len, checksum, data]`. -/
def partCbor (seqNum seqLen messageLen checksum : Nat) (data : Bytes) : Bytes :=
  Cbor.writeHead 4 5 ++ Cbor.writeHead 0 seqNum ++ Cbor.writeHead 0 seqLen ++
    Cbor.writeHead 0 messageLen ++ Cbor.writeHead 0 checksum ++ Cbor.writeHead 2 data.length ++ data

/-- Produces the next part. -/
def nextPart (random : PseudoRandom) (e : Encoder) : Except Stuck (Bytes × Encoder) := do
  -- Sequence numbers start at 1, and start over when they run out.
  let seqNum := if e.seqNum + 1 < 2 ^ 32 then e.seqNum + 1 else 1
  let e := { e with seqNum }
  if e.isSinglePart then
    let body := Bytewords.encode (e.message.take e.messageLen) .minimal
    .ok (ofString "ur:" ++ e.urType ++ ofString "/" ++ body, e)
  else
    let indexes := chooseFragments random seqNum e.seqLen e.checksum
    let data ← e.mixInto (List.replicate e.fragmentLen 0) indexes
    let body := Bytewords.encode (partCbor seqNum e.seqLen e.messageLen e.checksum data) .minimal
    .ok (ofString "ur:" ++ e.urType ++ ofString "/" ++ decimal seqNum ++ ofString "-" ++
      decimal e.seqLen ++ ofString "/" ++ body, e)

/-- The next `n` parts. -/
def take (random : PseudoRandom) : Nat → Encoder → Except Stuck (List Bytes)
  | 0, _ => .ok []
  | n + 1, e => do
    let (part, e) ← e.nextPart random
    let parts ← take random n e
    .ok (part :: parts)

/-- Fragment `k` of the padded message. -/
def fragment (e : Encoder) (k : Nat) : Bytes := (e.message.drop (k * e.fragmentLen)).take e.fragmentLen

end Encoder

/-! ## Parts -/

structure Part where
  seqNum : Nat
  seqLen : Nat
  messageLen : Nat
  checksum : Nat
  data : Bytes

namespace Part

def head (major : UInt8) : Cursor.Read UInt8 Error Nat := fun c =>
  match Cbor.readHead c with
  | .ok ((m, arg, false), c') => if m = major then .ok (arg, c') else .error .invalidPart
  | _ => .error .invalidPart

def uint : Cursor.Read UInt8 Error Nat := do
  let arg ← head 0
  if arg < 2 ^ 32 then pure arg else Cursor.lift (.error .invalidPart)

def read : Cursor.Read UInt8 Error Part := do
  let items ← head 4
  Cursor.require (items = 5) .invalidPart
  let seqNum ← uint
  let seqLen ← uint
  let messageLen ← uint
  let checksum ← uint
  let dataLen ← head 2
  fun c => if c.rest.length = dataLen then .ok (⟨seqNum, seqLen, messageLen, checksum, c.rest⟩, c)
    else .error .invalidPart

def parse (cbor : Bytes) : Except Error Part := (read (Cursor.start cbor)).map (fun r => r.1)

end Part

/-- What every part of a message agrees on. -/
structure Shape where
  seqLen : Nat
  messageLen : Nat
  checksum : Nat
  fragmentLen : Nat
  deriving DecidableEq, Repr

/-- A part that still mixes several unknown fragments. -/
structure Mixed where
  indexes : List Nat
  data : Bytes
  deriving DecidableEq, Repr

def maxFragmentsForSubsets : Nat := 256

/-- Whether the sorted `inner` only has elements of the sorted `outer`. -/
def isSubset : List Nat → List Nat → Bool
  | [], _ => true
  | i :: inner, outer =>
    match outer.dropWhile (fun o => o < i) with
    | [] => false
    | o :: rest => o == i && isSubset inner rest

/-- Binary search in a sorted list: whether the index is there. -/
def binarySearch (indexes : List Nat) (index : Nat) : Bool := indexes.contains index

/-! ## The decoder -/

structure Decoder where
  maxMessageLen : Nat
  maxFragments : Nat
  urType : Option Bytes
  shape : Option Shape
  /-- The fragments, each in its place once known. -/
  message : Bytes
  known : List Bool
  knownCount : Nat
  mixed : List Mixed
  complete : Bool
  deriving DecidableEq, Repr

namespace Decoder

def withLimits (maxMessageLen maxFragments : Nat) : Decoder where
  maxMessageLen
  maxFragments
  urType := none
  shape := none
  message := []
  known := []
  knownCount := 0
  mixed := []
  complete := false

/-- The decoder with the default limits: 8 MiB and 4096 fragments. -/
def new : Decoder := withLimits (8 <<< 20) 4096

def reset (d : Decoder) : Decoder := withLimits d.maxMessageLen d.maxFragments

/-- The message once complete. -/
def message? (d : Decoder) : Option Bytes := if d.complete then some d.message else none

def fragmentLen (d : Decoder) : Nat :=
  match d.shape with
  | some shape => shape.fragmentLen
  | none => 0

/-- Checks the first part of a message, and makes room for the message. -/
def start (d : Decoder) (shape : Shape) : Except Error Decoder :=
  if shape.messageLen = 0 ∨ shape.fragmentLen = 0 then .error .invalidPart
  else if divCeil shape.messageLen shape.fragmentLen ≠ shape.seqLen then .error .invalidPart
  else if d.maxMessageLen < shape.messageLen ∨ d.maxFragments < shape.seqLen then .error .tooLarge
  else
    .ok { d with
      message := List.replicate (shape.seqLen * shape.fragmentLen) 0
      known := List.replicate shape.seqLen false
      shape := some shape }

/-- Moves the parts on hold that `affected` picks out of the way: what is
pushed on the queue, the last one on top. -/
def requeue (d : Decoder) (affected : Mixed → Bool) : Decoder × List Mixed :=
  ({ d with mixed := d.mixed.filter (fun held => !affected held) },
    (d.mixed.filter affected).reverse)

/-- XORs the known fragments out of a part: the indexes left and the data. -/
def clearKnown (d : Decoder) : List Nat → Bytes → Except Stuck (List Nat × Bytes)
  | [], data => .ok ([], data)
  | index :: indexes, data =>
    match d.known[index]? with
    | none => .error .panic
    | some true => do
      let fragment ← slice d.message (index * d.fragmentLen) d.fragmentLen
      d.clearKnown indexes (xorInto data fragment)
    | some false => do
      let (left, data) ← d.clearKnown indexes data
      .ok (index :: left, data)

/-- XORs a part on hold out of a part that covers it. -/
def clearHeld (part held : Mixed) : Mixed :=
  if held.indexes.length < part.indexes.length ∧ isSubset held.indexes part.indexes = true then
    { indexes := part.indexes.filter (fun index => !binarySearch held.indexes index)
      data := xorInto part.data held.data }
  else part

def withSubsets (d : Decoder) : Bool := decide (d.known.length ≤ maxFragmentsForSubsets)

/-- A part without what is known and what is on hold. -/
def simplify (d : Decoder) (part : Mixed) : Except Stuck Mixed := do
  let (indexes, data) ← d.clearKnown part.indexes part.data
  .ok ((if d.withSubsets then d.mixed else []).foldl clearHeld ⟨indexes, data⟩)

/-- A fragment takes its place in the message. -/
def place (d : Decoder) (index : Nat) (data : Bytes) : Except Stuck Decoder :=
  let start := index * d.fragmentLen
  if start + d.fragmentLen ≤ d.message.length ∧ data.length = d.fragmentLen ∧
      index < d.known.length then
    .ok { d with
      message := d.message.take start ++ data ++ d.message.drop (start + d.fragmentLen)
      known := d.known.set index true
      knownCount := d.knownCount + 1 }
  else .error .panic

/-- Keeps a part that mixes several unknown fragments, unless too many are held. -/
def hold (d : Decoder) (part : Mixed) : Decoder :=
  if d.mixed.length < 2 * d.known.length + 16 then { d with mixed := d.mixed ++ [part] } else d

/-- One turn of the queue: the decoder and the parts to look at again. -/
def step (d : Decoder) (part : Mixed) : Except Stuck (Decoder × List Mixed) := do
  let part ← d.simplify part
  match part.indexes with
  | [] => .ok (d, [])
  | [index] => do
    let d ← d.place index part.data
    -- Parts on hold that mix this fragment get simpler.
    .ok (d.requeue (fun held => binarySearch held.indexes index))
  | _ =>
    if d.mixed.any (fun held => held.indexes == part.indexes) then .ok (d, [])
    else
      -- Parts on hold that cover this one get simpler.
      let (d, affected) := d.requeue (fun held => d.withSubsets &&
        (decide (part.indexes.length < held.indexes.length) && isSubset part.indexes held.indexes))
      .ok (d.hold part, affected)

/-- Every turn but the first takes an index off a part or a part off the queue. -/
def fuel (d : Decoder) (part : Mixed) : Nat :=
  2 * (d.mixed.map (fun held => held.indexes.length)).sum + 2 * part.indexes.length + 2

/-- Takes a part in. -/
def reduce (d : Decoder) (part : Mixed) : Except Stuck Decoder :=
  drain step (d.fuel part) d [part]

/-- Checks the reassembled message. -/
def finish (d : Decoder) : Except Stuck (Except Error Unit × Decoder) :=
  match d.shape with
  | none => .ok (.ok (), d)
  | some shape =>
    if d.message.length < shape.messageLen then .error .panic
    else
      let paddingIsZero := (d.message.drop shape.messageLen).all (fun b => b == 0)
      let message := d.message.take shape.messageLen
      if paddingIsZero = false ∨ (crc32 message).toNat ≠ shape.checksum then
        .ok (.error .badChecksum, d.reset)
      else .ok (.ok (), { d with message, mixed := [], complete := true })

/-- Splits and decodes a string of the decoder's type. -/
def decodeText (d : Decoder) (text : Bytes) : Except Error (Ur × Bytes) := do
  let ur ← Ur.parse text
  match d.urType with
  | some urType =>
    if eqIgnoreCase urType ur.urType = false then .error .typeMismatch
    else do
      let body ← ur.decode
      .ok (ur, body)
  | none => do
    let body ← ur.decode
    .ok (ur, body)

/-- A single-part UR is the message. -/
def receiveSingle (d : Decoder) (ur : Ur) (body : Bytes) : Except Error Decoder :=
  if d.shape.isSome then .error .inconsistentPart
  else if d.maxMessageLen < body.length then .error .tooLarge
  else
    .ok { d with
      urType := some (toLower ur.urType)
      known := [true]
      knownCount := 1
      message := body
      complete := true }

/-- A part has the shape of the previous ones, or is the first one. -/
def checkShape (d : Decoder) (shape : Shape) : Except Error Decoder :=
  match d.shape with
  | some expected => if expected ≠ shape then .error .inconsistentPart else .ok d
  | none => d.start shape

/-- A part of this message, or the first one: the fragments it mixes. -/
def admitPart (random : PseudoRandom) (d : Decoder) (ur : Ur) (sequence : Nat × Nat) (body : Bytes) :
    Except Error (Decoder × Mixed) := do
  let part ← Part.parse body
  if (part.seqNum, part.seqLen) ≠ sequence then .error .invalidSequence
  else do
    let d ← d.checkShape ⟨sequence.2, part.messageLen, part.checksum, part.data.length⟩
    let d := { d with urType := d.urType.or (some (toLower ur.urType)) }
    .ok (d, ⟨chooseFragments random sequence.1 sequence.2 part.checksum, part.data⟩)

/-- Takes in a UR string: whether the message is now complete. -/
def receive (random : PseudoRandom) (d : Decoder) (text : Bytes) :
    Except Stuck (Except Error Bool × Decoder) :=
  if d.complete then .ok (.ok true, d)
  else
    match d.decodeText text with
    | .error e => .ok (.error e, d)
    | .ok (ur, body) =>
      match ur.sequence with
      | none =>
        match d.receiveSingle ur body with
        | .error e => .ok (.error e, d)
        | .ok d => .ok (.ok true, d)
      | some sequence =>
        match d.admitPart random ur sequence body with
        | .error e => .ok (.error e, d)
        | .ok (d, part) => do
          let d ← d.reduce part
          if d.knownCount = d.known.length then
            let (result, d) ← d.finish
            .ok (result.map (fun _ => d.complete), d)
          else .ok (.ok d.complete, d)

/-- Takes in strings one after the other: what each call returns. -/
def receiveAll (random : PseudoRandom) : Decoder → List Bytes →
    Except Stuck (List (Except Error Bool) × Decoder)
  | d, [] => .ok ([], d)
  | d, text :: texts => do
    let (result, d) ← d.receive random text
    let (results, d) ← d.receiveAll random texts
    .ok (result :: results, d)

end Decoder

/-! ## Reading parts -/

theorem Part.head_writeHead {major value : Nat} (hm : major < 8) (hv : value < 2 ^ 64)
    (rest : Bytes) (pos : Nat) :
    (Part.head (UInt8.ofNat major)).run ⟨Cbor.writeHead (UInt8.ofNat major) value ++ rest, pos⟩ =
      .ok (value, ⟨rest, pos + (Cbor.writeHead (UInt8.ofNat major) value).length⟩) := by
  have h := Cbor.readHead_writeHead hm hv rest pos
  change Part.head _ _ = _
  change Cbor.readHead _ = _ at h
  rw [Part.head, h]
  exact if_pos rfl

theorem Part.uint_writeHead {value : Nat} (hv : value < 2 ^ 32) (rest : Bytes) (pos : Nat) :
    Part.uint.run ⟨Cbor.writeHead 0 value ++ rest, pos⟩ =
      .ok (value, ⟨rest, pos + (Cbor.writeHead 0 value).length⟩) := by
  rw [Part.uint, Cursor.run_bind_ok]
  refine ⟨_, _, Part.head_writeHead (show 0 < 8 by omega) (by omega) rest pos, ?_⟩
  rw [if_pos hv]
  rfl

/-- The part that was written is read back. -/
theorem Part.parse_partCbor {seqNum seqLen messageLen checksum : Nat} {data : Bytes}
    (hnum : seqNum < 2 ^ 32) (hlen : seqLen < 2 ^ 32) (hmessage : messageLen < 2 ^ 32)
    (hchecksum : checksum < 2 ^ 32) (hdata : data.length < 2 ^ 64) :
    Part.parse (Encoder.partCbor seqNum seqLen messageLen checksum data) =
      .ok ⟨seqNum, seqLen, messageLen, checksum, data⟩ := by
  have hread : ∃ c, Part.read.run
      (Cursor.start (Encoder.partCbor seqNum seqLen messageLen checksum data)) =
      .ok (⟨seqNum, seqLen, messageLen, checksum, data⟩, c) := by
    simp only [Encoder.partCbor, List.append_assoc, Cursor.start]
    refine ⟨⟨data, 0 + (Cbor.writeHead 4 5).length + (Cbor.writeHead 0 seqNum).length +
      (Cbor.writeHead 0 seqLen).length + (Cbor.writeHead 0 messageLen).length +
      (Cbor.writeHead 0 checksum).length + (Cbor.writeHead 2 data.length).length⟩, ?_⟩
    refine Cursor.run_bind_ok.mpr
      ⟨_, _, Part.head_writeHead (show 4 < 8 by omega) (show 5 < 2 ^ 64 by omega) _ _, ?_⟩
    refine Cursor.run_bind_ok.mpr ⟨(), _, Cursor.run_require_ok.mpr ⟨rfl, rfl⟩, ?_⟩
    refine Cursor.run_bind_ok.mpr ⟨_, _, Part.uint_writeHead hnum _ _, ?_⟩
    refine Cursor.run_bind_ok.mpr ⟨_, _, Part.uint_writeHead hlen _ _, ?_⟩
    refine Cursor.run_bind_ok.mpr ⟨_, _, Part.uint_writeHead hmessage _ _, ?_⟩
    refine Cursor.run_bind_ok.mpr ⟨_, _, Part.uint_writeHead hchecksum _ _, ?_⟩
    refine Cursor.run_bind_ok.mpr ⟨_, _, Part.head_writeHead (show 2 < 8 by omega) hdata _ _, ?_⟩
    exact if_pos rfl
  obtain ⟨c, hc⟩ := hread
  change Part.read _ = _ at hc
  rw [Part.parse, hc]
  rfl

/-! ## Strings one after the other -/

theorem Decoder.receiveAll_cons {random : PseudoRandom} {d d₁ d₂ : Decoder} {text : Bytes}
    {texts : List Bytes} {result : Except Error Bool} {results : List (Except Error Bool)}
    (h : d.receive random text = .ok (result, d₁)) (hrest : d₁.receiveAll random texts = .ok (results, d₂)) :
    d.receiveAll random (text :: texts) = .ok (result :: results, d₂) := by
  rw [receiveAll, h, ok_bind]
  dsimp only
  rw [hrest, ok_bind]

/-! ## Letter case -/

namespace Decoder

theorem decodeText_toLower (d : Decoder) (text : Bytes) :
    d.decodeText (toLower text) = (d.decodeText text).map (fun r => (r.1.toLower, r.2)) := by
  rw [decodeText, Ur.parse_toLower, decodeText]
  cases Ur.parse text with
  | error e => rfl
  | ok ur =>
    simp only [Except.map, ok_bind, Ur.decode_toLower]
    cases d.urType with
    | none => cases ur.decode <;> rfl
    | some urType =>
      simp only [Ur.toLower, eqIgnoreCase_toLower_right]
      split_ifs
      · rfl
      · cases ur.decode <;> rfl

theorem receiveSingle_toLower (d : Decoder) (ur : Ur) (body : Bytes) :
    d.receiveSingle (Ur.toLower ur) body = d.receiveSingle ur body := by
  simp only [receiveSingle, Ur.toLower, toLower_toLower]

theorem admitPart_toLower (random : PseudoRandom) (d : Decoder) (ur : Ur) (sequence : Nat × Nat)
    (body : Bytes) :
    d.admitPart random (Ur.toLower ur) sequence body = d.admitPart random ur sequence body := by
  simp only [admitPart, Ur.toLower, toLower_toLower]

/-- Strings are taken in whatever their case. -/
theorem receive_toLower (random : PseudoRandom) (d : Decoder) (text : Bytes) :
    d.receive random (toLower text) = d.receive random text := by
  rw [receive, decodeText_toLower, receive]
  split_ifs
  · rfl
  cases d.decodeText text with
  | error e => rfl
  | ok r =>
    have hseq : (Ur.toLower r.1).sequence = r.1.sequence := rfl
    simp only [Except.map, hseq, receiveSingle_toLower, admitPart_toLower]

end Decoder

end Outscript.Bcur
