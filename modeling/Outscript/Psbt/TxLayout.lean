import Outscript.Psbt.Reader

/-!
# The layout of a serialized transaction

The scanner walks over a transaction and keeps offsets and counts. It accepts
exactly the canonical encodings of transactions: a segwit marker is allowed
only with some witness data, and a transaction without inputs is ambiguous
with the marker unless it has no outputs either.
-/
namespace Outscript.Psbt

open ByteString Cursor

/-- Offsets of the parts of a serialized transaction. -/
structure TxLayout where
  inputsAt : Nat
  outputsAt : Nat
  outputsEnd : Nat
  inputCount : Nat
  outputCount : Nat
  unsigned : Bool
  deriving DecidableEq

namespace TxLayout

/-- What stands before the inputs. -/
structure Head where
  inputsAt : Nat
  inputCount : Nat
  segwit : Bool
  outputCount : Option Nat

def readHead (allowWitness : Bool) : Reader Head := do
  let inputsAt ← pos
  let inputCount ← Reader.varint
  if inputCount = 0 ∧ allowWitness then do
    let flag ← Reader.u8
    -- the "flag" was the output count of a 0-input transaction
    if flag = 0 then return ⟨inputsAt, inputCount, false, some 0⟩
    else if flag = 1 then do
      let inputsAt ← pos
      let inputCount ← Reader.varint
      return ⟨inputsAt, inputCount, true, none⟩
    else throw .invalidRecordValue
  else return ⟨inputsAt, inputCount, false, none⟩

def readInputs : Nat → Bool → Reader Bool
  | 0, unsigned => pure unsigned
  | n + 1, unsigned => do
    let _ ← Reader.take 36
    let scriptSig ← Reader.varBytes
    let _ ← Reader.u32
    readInputs n (if scriptSig = [] then unsigned else false)

def readOutputs : Nat → Reader Unit
  | 0 => pure ()
  | n + 1 => do
    let _ ← Reader.u64
    let _ ← Reader.varBytes
    readOutputs n

def readOutputCount : Option Nat → Reader Nat
  | some n => pure n
  | none => do
    let n ← Reader.varint
    readOutputs n
    return n

def readItems : Nat → Bool → Reader Bool
  | 0, any => pure any
  | n + 1, _ => do
    let _ ← Reader.varBytes
    readItems n true

def readWitnesses : Nat → Bool → Reader Bool
  | 0, any => pure any
  | n + 1, any => do
    let items ← Reader.varint
    let any ← readItems items any
    readWitnesses n (any || decide (0 < items))

/-- A witness marker with no witness data is not canonical. -/
def readWitnessSection (segwit : Bool) (inputCount : Nat) : Reader Unit :=
  if segwit then do
    let any ← readWitnesses inputCount false
    require any .invalidRecordValue
  else pure ()

def readBody (head : Head) : Reader TxLayout := do
  let unsigned ← readInputs head.inputCount (!head.segwit)
  let outputsAt ← pos
  let outputCount ← readOutputCount head.outputCount
  let outputsEnd ← pos
  readWitnessSection head.segwit head.inputCount
  let _ ← Reader.u32
  let left ← remaining
  require (left = 0) .invalidRecordValue
  return { inputsAt := head.inputsAt, outputsAt, outputsEnd,
           inputCount := head.inputCount, outputCount, unsigned }

def read (allowWitness : Bool) : Reader TxLayout := do
  let _ ← Reader.u32
  let head ← readHead allowWitness
  readBody head

/-- Parses a complete transaction. -/
def parse (bytes : Bytes) (allowWitness : Bool) : Except Error TxLayout :=
  match (read allowWitness).run (start bytes) with
  | .ok (layout, _) => .ok layout
  | .error e => .error e

end TxLayout

/-! ## Transactions as values -/

structure WireIn where
  outpoint : ByteVec 36
  scriptSig : Bytes
  sequence : Nat
  deriving DecidableEq

structure WireOut where
  amount : Nat
  script : Bytes
  deriving DecidableEq

structure WireTx where
  version : Nat
  segwit : Bool
  inputs : List WireIn
  outputs : List WireOut
  /-- One stack for each input of a segwit transaction. -/
  witnesses : List (List Bytes)
  locktime : Nat
  deriving DecidableEq

def WireIn.encode (i : WireIn) : Bytes :=
  i.outpoint.toList ++ (varBytesOf i.scriptSig ++ le 4 i.sequence)

def WireIn.Fits (i : WireIn) : Prop := i.scriptSig.length < 2 ^ 64 ∧ i.sequence < 256 ^ 4

def WireOut.encode (o : WireOut) : Bytes := le 8 o.amount ++ varBytesOf o.script

def WireOut.Fits (o : WireOut) : Prop := o.amount < 256 ^ 8 ∧ o.script.length < 2 ^ 64

/-- The number of items, then each behind its length. -/
def encodeStack (items : List Bytes) : Bytes :=
  putVarint items.length ++ items.flatMap varBytesOf

def StackFits (items : List Bytes) : Prop :=
  items.length < 2 ^ 64 ∧ ∀ s ∈ items, s.length < 2 ^ 64

namespace WireTx

variable (tx : WireTx)

def marker : Bytes := if tx.segwit then [0, 1] else []

def inputBytes : Bytes := putVarint tx.inputs.length ++ tx.inputs.flatMap WireIn.encode

def outputBytes : Bytes := putVarint tx.outputs.length ++ tx.outputs.flatMap WireOut.encode

def witnessBytes : Bytes := tx.witnesses.flatMap encodeStack

def encode : Bytes :=
  le 4 tx.version ++ (tx.marker ++ (tx.inputBytes ++ (tx.outputBytes ++
    (tx.witnessBytes ++ le 4 tx.locktime))))

/-- The scanner takes a lone zero for the output count of a transaction without
inputs, and so looks for the outputs behind it. -/
def layout (allowWitness : Bool) : TxLayout :=
  let inputsAt := 4 + tx.marker.length
  let outputsAt := inputsAt + tx.inputBytes.length
  { inputsAt
    outputsAt :=
      if allowWitness ∧ tx.segwit = false ∧ tx.inputs = [] then outputsAt + 1 else outputsAt
    outputsEnd := outputsAt + tx.outputBytes.length
    inputCount := tx.inputs.length
    outputCount := tx.outputs.length
    unsigned := !tx.segwit && tx.inputs.all (fun i => i.scriptSig = []) }

/-- Fields that fit their widths. -/
structure Fits : Prop where
  version : tx.version < 256 ^ 4
  locktime : tx.locktime < 256 ^ 4
  inputCount : tx.inputs.length < 2 ^ 64
  outputCount : tx.outputs.length < 2 ^ 64
  inputs : ∀ i ∈ tx.inputs, i.Fits
  outputs : ∀ o ∈ tx.outputs, o.Fits
  witnesses : ∀ w ∈ tx.witnesses, StackFits w

/-- The transactions that the scanner accepts. -/
structure Canonical (allowWitness : Bool) : Prop extends tx.Fits where
  marked : tx.segwit = true → allowWitness = true ∧ tx.witnesses.length = tx.inputs.length ∧
    ∃ w ∈ tx.witnesses, w ≠ []
  plain : tx.segwit = false → tx.witnesses = [] ∧
    (allowWitness = true → tx.inputs = [] → tx.outputs = [])

end WireTx

/-! ## The loops -/

namespace TxLayout

def readInput : Reader WireIn := do
  let outpoint ← takeVec .unexpectedEof 36
  let scriptSig ← Reader.varBytes
  let sequence ← Reader.u32
  return { outpoint, scriptSig, sequence }

def readOutput : Reader WireOut := do
  let amount ← Reader.u64
  let script ← Reader.varBytes
  return { amount, script }

def readStack : Reader (List Bytes) := do
  let items ← Reader.varint
  many Reader.varBytes items

theorem take_eq_takeVec (n : Nat) : Reader.take n =
    (do let v ← takeVec .unexpectedEof n; return v.toList : Reader Bytes) := by
  funext c
  by_cases h : n ≤ c.rest.length
  · simp [Reader.take, Cursor.take, takeVec, h, bind, StateT.bind, Except.bind, List.Vector.toList]
    rfl
  · simp [Reader.take, Cursor.take, takeVec, h, bind, StateT.bind, Except.bind]

theorem readInputs_eq (n : Nat) (unsigned : Bool) : readInputs n unsigned =
    (do
      let ins ← many readInput n
      return unsigned && ins.all (fun i => i.scriptSig = [])) := by
  induction n generalizing unsigned with
  | zero => simp [readInputs, many]
  | succ n ih =>
    simp only [readInputs, ih, many, readInput, take_eq_takeVec, bind_assoc, pure_bind,
      List.all_cons]
    refine bind_congr (fun outpoint => bind_congr (fun scriptSig => bind_congr (fun sequence =>
      bind_congr (fun ins => ?_))))
    by_cases h : scriptSig = [] <;> simp [h]

theorem readOutputs_eq (n : Nat) : readOutputs n =
    (do
      let _ ← many readOutput n
      return ()) := by
  induction n with
  | zero => simp [readOutputs, many]
  | succ n ih => simp only [readOutputs, ih, many, readOutput, bind_assoc, pure_bind]

theorem readItems_eq (n : Nat) (any : Bool) : readItems n any =
    (do
      let items ← many Reader.varBytes n
      return any || decide (items ≠ [])) := by
  induction n generalizing any with
  | zero => simp [readItems, many]
  | succ n ih => simp [readItems, ih, many]

theorem decodes_readStack : Decodes readStack StackFits encodeStack := by
  apply Decodes.intro
  · intro items r pos h
    have hmany := (decodes_varBytes.many items.length).run_append (a := items) ⟨rfl, h.2⟩ r
    rw [readStack, encodeStack, List.append_assoc, decodes_varint.run_bind h.1]
    refine (hmany _).trans ?_
    simp [Nat.add_assoc]
  · intro c items c' h
    obtain ⟨n, r, hn, hrest, h⟩ := decodes_varint.of_run_bind h
    obtain ⟨⟨rfl, hall⟩, hrest', -⟩ := (decodes_varBytes.many n _ _ _).mp h
    dsimp only at hrest'
    exact ⟨⟨hn, hall⟩, c'.rest, by rw [hrest, hrest', encodeStack, List.append_assoc]⟩

theorem decodes_readInput : Decodes readInput WireIn.Fits WireIn.encode := by
  apply Decodes.intro
  · rintro ⟨o, s, q⟩ r pos ⟨hs, hq⟩
    rw [readInput, WireIn.encode]
    simp only [List.append_assoc]
    rw [(decodes_takeVec _ 36).run_bind trivial, decodes_varBytes.run_bind hs,
      decodes_u32.run_bind hq]
    refine run_pure_ok.mpr ⟨rfl, ?_⟩
    simp only [List.length_append, State.mk.injEq, true_and]
    omega
  · rintro c i c' h
    obtain ⟨o, r₁, -, h₁, h⟩ := (decodes_takeVec _ 36).of_run_bind h
    obtain ⟨s, r₂, hs, h₂, h⟩ := decodes_varBytes.of_run_bind h
    obtain ⟨q, r₃, hq, h₃, h⟩ := decodes_u32.of_run_bind h
    cases h
    dsimp only at h₂ h₃
    exact ⟨⟨hs, hq⟩, r₃, by simp only [h₁, h₂, h₃, WireIn.encode, List.append_assoc]⟩

theorem decodes_readOutput : Decodes readOutput WireOut.Fits WireOut.encode := by
  apply Decodes.intro
  · rintro ⟨a, s⟩ r pos ⟨ha, hs⟩
    rw [readOutput, WireOut.encode]
    simp only [List.append_assoc]
    rw [decodes_u64.run_bind ha, decodes_varBytes.run_bind hs]
    refine run_pure_ok.mpr ⟨rfl, ?_⟩
    simp only [List.length_append, State.mk.injEq, true_and]
    omega
  · rintro c o c' h
    obtain ⟨a, r₁, ha, h₁, h⟩ := decodes_u64.of_run_bind h
    obtain ⟨s, r₂, hs, h₂, h⟩ := decodes_varBytes.of_run_bind h
    cases h
    dsimp only at h₂
    exact ⟨⟨ha, hs⟩, r₂, by simp only [h₁, h₂, WireOut.encode, List.append_assoc]⟩

/-- A stack read for its items only. -/
theorem readStack_any (any : Bool) {γ : Type} (q : Bool → Reader γ) :
    (do
      let items ← Reader.varint
      let any ← readItems items any
      q (any || decide (0 < items))) =
    (do
      let items ← readStack
      q (any || decide (items ≠ []))) := by
  simp only [readItems_eq, readStack, bind_assoc, pure_bind]
  funext c
  refine congrFun (congrArg _ (funext fun n => ?_)) c
  funext c₁
  simp only [bind, StateT.bind, Except.bind]
  cases hm : many Reader.varBytes n c₁ with
  | error e => rfl
  | ok r =>
    obtain ⟨items, c₂⟩ := r
    have hlen : items.length = n := ((decodes_varBytes.many n _ _ _).mp hm).1.1
    have hpos : 0 < n ↔ items ≠ [] := by rw [← hlen, List.length_pos_iff]
    have hany : (any || decide (items ≠ []) || decide (0 < n)) = (any || decide (items ≠ [])) := by
      rw [decide_eq_decide.mpr hpos, Bool.or_assoc, Bool.or_self]
    dsimp only
    rw [hany]

theorem readWitnesses_eq (n : Nat) (any : Bool) : readWitnesses n any =
    (do
      let ws ← many readStack n
      return any || ws.any (fun w => w ≠ [])) := by
  induction n generalizing any with
  | zero => simp [readWitnesses, many]
  | succ n ih =>
    rw [readWitnesses, readStack_any]
    simp only [ih, many, bind_assoc, pure_bind, List.any_cons, Bool.or_assoc]

/-! ## Accepted transactions -/

theorem decodes_readWitnessSection (segwit : Bool) (n : Nat) (c c' : State UInt8) :
    (readWitnessSection segwit n).run c = .ok ((), c') ↔
      ∃ ws : List (List Bytes), (∀ w ∈ ws, StackFits w) ∧
        (if segwit then ws.length = n ∧ ∃ w ∈ ws, w ≠ [] else ws = []) ∧
        c.rest = ws.flatMap encodeStack ++ c'.rest ∧
        c'.pos = c.pos + (ws.flatMap encodeStack).length := by
  cases segwit with
  | false =>
    simp only [readWitnessSection, Bool.false_eq_true, if_false, run_pure_ok, true_and]
    constructor
    · rintro rfl
      exact ⟨[], by simp, rfl, rfl, rfl⟩
    · rintro ⟨ws, -, rfl, hrest, hpos⟩
      obtain ⟨rest, p⟩ := c
      obtain ⟨rest', p'⟩ := c'
      dsimp only [List.flatMap_nil, List.nil_append] at hrest hpos
      rw [hrest, hpos]
      rfl
  | true =>
    simp only [readWitnessSection, if_true, readWitnesses_eq, bind_assoc, pure_bind,
      Bool.false_or]
    have hmany := decodes_readStack.many n
    have hany (ws : List (List Bytes)) :
        (ws.any (fun w => w ≠ [])) = true ↔ ∃ w ∈ ws, w ≠ [] := by simp
    constructor
    · intro h
      obtain ⟨ws, c₁, h₁, h₂⟩ := run_bind_ok.mp h
      obtain ⟨hws, rfl⟩ := run_require_ok.mp h₂
      obtain ⟨⟨hlen, hfit⟩, hrest, hpos⟩ := (hmany _ _ _).mp h₁
      exact ⟨ws, hfit, ⟨hlen, (hany ws).mp hws⟩, hrest, hpos⟩
    · rintro ⟨ws, hfit, ⟨hlen, hws⟩, hrest, hpos⟩
      exact run_bind_ok.mpr ⟨ws, c', (hmany _ _ _).mpr ⟨⟨hlen, hfit⟩, hrest, hpos⟩,
        run_require_ok.mpr ⟨(hany ws).mpr hws, rfl⟩⟩

/-- The bytes of the outputs: none when their count was read already. -/
def OutputsAs : Option Nat → List WireOut → Bytes → Prop
  | some _, outs, bytes => outs = [] ∧ bytes = []
  | none, outs, bytes => outs.length < 2 ^ 64 ∧ (∀ o ∈ outs, o.Fits) ∧
      bytes = putVarint outs.length ++ outs.flatMap WireOut.encode

theorem run_readOutputCount {count : Option Nat} (hz : ∀ n ∈ count, n = 0)
    {c c' : State UInt8} {n : Nat} :
    (readOutputCount count).run c = .ok (n, c') ↔
      ∃ outs bytes, OutputsAs count outs bytes ∧ n = outs.length ∧
        c.rest = bytes ++ c'.rest ∧ c'.pos = c.pos + bytes.length := by
  cases count with
  | some k =>
    have hk := hz k rfl
    subst hk
    rw [readOutputCount, run_pure_ok]
    constructor
    · rintro ⟨rfl, rfl⟩
      exact ⟨[], [], ⟨rfl, rfl⟩, rfl, rfl, rfl⟩
    · rintro ⟨outs, bytes, ⟨rfl, rfl⟩, rfl, hrest, hpos⟩
      obtain ⟨rest, p⟩ := c
      obtain ⟨rest', p'⟩ := c'
      dsimp only [List.nil_append, List.length_nil] at hrest hpos
      rw [hrest, hpos]
      exact ⟨rfl, rfl⟩
  | none =>
    simp only [readOutputCount, readOutputs_eq, bind_assoc, pure_bind]
    constructor
    · intro h
      obtain ⟨k, r, hk, hrest, h⟩ := decodes_varint.of_run_bind h
      obtain ⟨outs, r', ⟨rfl, hfit⟩, hrest', h⟩ := (decodes_readOutput.many k).of_run_bind h
      obtain ⟨rfl, rfl⟩ := run_pure_ok.mp h
      dsimp only at hrest'
      refine ⟨outs, _, ⟨hk, hfit, rfl⟩, rfl, ?_, ?_⟩
      · rw [hrest, hrest', List.append_assoc]
      · rw [List.length_append, Nat.add_assoc]
    · rintro ⟨outs, bytes, ⟨hlen, hfit, rfl⟩, rfl, hrest, hpos⟩
      obtain ⟨rest, p⟩ := c
      obtain ⟨rest', p'⟩ := c'
      dsimp only at hrest hpos
      rw [hrest, hpos, List.append_assoc, decodes_varint.run_bind hlen,
        (decodes_readOutput.many outs.length).run_bind ⟨rfl, hfit⟩]
      refine run_pure_ok.mpr ⟨rfl, ?_⟩
      rw [List.length_append, Nat.add_assoc]

/-- What stands behind the head. -/
structure Body where
  inputs : List WireIn
  outputs : List WireOut
  outputBytes : Bytes
  witnesses : List (List Bytes)
  locktime : Nat

structure Body.Follows (b : Body) (head : Head) : Prop where
  inputCount : b.inputs.length = head.inputCount
  inputs : ∀ i ∈ b.inputs, i.Fits
  outputs : OutputsAs head.outputCount b.outputs b.outputBytes
  stacksFit : ∀ w ∈ b.witnesses, StackFits w
  witnesses : if head.segwit then b.witnesses.length = head.inputCount ∧ ∃ w ∈ b.witnesses, w ≠ []
    else b.witnesses = []
  locktime : b.locktime < 256 ^ 4

def Body.encode (b : Body) : Bytes :=
  b.inputs.flatMap WireIn.encode ++ (b.outputBytes ++
    (b.witnesses.flatMap encodeStack ++ le 4 b.locktime))

def Body.layout (b : Body) (head : Head) (p : Nat) : TxLayout :=
  { inputsAt := head.inputsAt
    outputsAt := p + (b.inputs.flatMap WireIn.encode).length
    outputsEnd := p + (b.inputs.flatMap WireIn.encode).length + b.outputBytes.length
    inputCount := head.inputCount
    outputCount := b.outputs.length
    unsigned := !head.segwit && b.inputs.all (fun i => i.scriptSig = []) }

theorem readBody_sound {head : Head} (hz : ∀ n ∈ head.outputCount, n = 0)
    {c c' : State UInt8} {l : TxLayout} (h : (readBody head).run c = .ok (l, c')) :
    ∃ b : Body, b.Follows head ∧ c.rest = b.encode ∧ l = b.layout head c.pos := by
  simp only [readBody, readInputs_eq, bind_assoc, pure_bind] at h
  obtain ⟨ins, r₁, ⟨hlen, hins⟩, h₁, h⟩ := (decodes_readInput.many _).of_run_bind h
  rw [run_pos_bind] at h
  obtain ⟨n, c₂, h₂, h⟩ := run_bind_ok.mp h
  obtain ⟨outs, outBytes, houts, rfl, hrest₂, hpos₂⟩ := (run_readOutputCount hz).mp h₂
  rw [run_pos_bind] at h
  obtain ⟨u, c₃, h₃, h⟩ := run_bind_ok.mp h
  obtain ⟨ws, hfit, hws, hrest₃, -⟩ := (decodes_readWitnessSection _ _ _ _).mp h₃
  obtain ⟨locktime, r₄, hlock, h₄, h⟩ := decodes_u32.of_run_bind h
  rw [run_remaining_bind] at h
  obtain ⟨hnil, h⟩ := of_run_require_bind h
  obtain ⟨rfl, -⟩ := run_pure_ok.mp h
  obtain rfl := List.length_eq_zero_iff.mp hnil
  dsimp only at hrest₂ hpos₂
  refine ⟨⟨ins, outs, outBytes, ws, locktime⟩, ⟨hlen, hins, houts, hfit, hws, hlock⟩, ?_, ?_⟩
  · rw [h₁, hrest₂, hrest₃, h₄, List.append_nil]
    rfl
  · rw [Body.layout, hpos₂]

theorem readBody_complete {head : Head} (hz : ∀ n ∈ head.outputCount, n = 0) {b : Body}
    (hb : b.Follows head) (p : Nat) :
    ∃ c', (readBody head).run ⟨b.encode, p⟩ = .ok (b.layout head p, c') := by
  obtain ⟨ins, outs, outBytes, ws, locktime⟩ := b
  obtain ⟨hlen, hins, houts, hfit, hws, hlock⟩ := hb
  have hin := (decodes_readInput.many head.inputCount).run_append (a := ins) ⟨hlen, hins⟩
    (outBytes ++ (ws.flatMap encodeStack ++ le 4 locktime)) p
  have hout : (readOutputCount head.outputCount).run
      ⟨outBytes ++ (ws.flatMap encodeStack ++ le 4 locktime),
        p + (ins.flatMap WireIn.encode).length⟩ =
      .ok (outs.length, ⟨ws.flatMap encodeStack ++ le 4 locktime,
        p + (ins.flatMap WireIn.encode).length + outBytes.length⟩) :=
    (run_readOutputCount hz).mpr ⟨outs, outBytes, houts, rfl, rfl, rfl⟩
  have hwit := (decodes_readWitnessSection head.segwit head.inputCount
      ⟨ws.flatMap encodeStack ++ le 4 locktime,
        p + (ins.flatMap WireIn.encode).length + outBytes.length⟩
      ⟨le 4 locktime, p + (ins.flatMap WireIn.encode).length + outBytes.length +
        (ws.flatMap encodeStack).length⟩).mpr ⟨ws, hfit, hws, rfl, rfl⟩
  have hu := decodes_u32.run_append hlock [] (p + (ins.flatMap WireIn.encode).length +
    outBytes.length + (ws.flatMap encodeStack).length)
  rw [List.append_nil] at hu
  simp only [readBody, readInputs_eq, bind_assoc, pure_bind, Body.encode]
  refine ⟨⟨[], p + (ins.flatMap WireIn.encode).length + outBytes.length +
    (ws.flatMap encodeStack).length + (le 4 locktime).length⟩,
    run_bind_ok.mpr ⟨_, _, hin, ?_⟩⟩
  rw [run_pos_bind]
  refine run_bind_ok.mpr ⟨_, _, hout, ?_⟩
  rw [run_pos_bind]
  exact run_bind_ok.mpr ⟨_, _, hwit, run_bind_ok.mpr ⟨_, _, hu, rfl⟩⟩

/-- The three heads: plain, with a marker, and of a transaction without inputs
and outputs. -/
theorem readHead_sound {allowWitness : Bool} {c c' : State UInt8} {head : Head}
    (h : (readHead allowWitness).run c = .ok (head, c')) :
    head.inputCount < 2 ^ 64 ∧
    ((head.segwit = false ∧ head.outputCount = none ∧ head.inputsAt = c.pos ∧
        (allowWitness = true → head.inputCount ≠ 0) ∧
        c.rest = putVarint head.inputCount ++ c'.rest ∧
        c'.pos = c.pos + (putVarint head.inputCount).length) ∨
      (allowWitness = true ∧ head.segwit = true ∧ head.outputCount = none ∧
        head.inputsAt = c.pos + 2 ∧
        c.rest = [0, 1] ++ (putVarint head.inputCount ++ c'.rest) ∧
        c'.pos = c.pos + 2 + (putVarint head.inputCount).length) ∨
      (allowWitness = true ∧ head.segwit = false ∧ head.outputCount = some 0 ∧
        head.inputCount = 0 ∧ head.inputsAt = c.pos ∧ c.rest = [0, 0] ++ c'.rest ∧
        c'.pos = c.pos + 2)) := by
  rw [readHead, run_pos_bind] at h
  obtain ⟨n, r₁, hn, h₁, h⟩ := decodes_varint.of_run_bind h
  split_ifs at h with hcase
  · obtain ⟨rfl, hallow⟩ := hcase
    obtain ⟨flag, r₂, -, h₂, h⟩ := decodes_u8.of_run_bind h
    dsimp only at h₂
    split_ifs at h with h0 h1
    · cases h
      refine ⟨hn, Or.inr (Or.inr ⟨hallow, rfl, rfl, rfl, rfl, ?_, rfl⟩)⟩
      rw [h₁, h₂, h0]
      rfl
    · rw [run_pos_bind] at h
      obtain ⟨m, r₃, hm, h₃, h⟩ := decodes_varint.of_run_bind h
      cases h
      dsimp only at h₃
      refine ⟨hm, Or.inr (Or.inl ⟨hallow, rfl, rfl, rfl, ?_, rfl⟩)⟩
      rw [h₁, h₂, h1, h₃]
      rfl
    · cases h
  · cases h
    exact ⟨hn, Or.inl ⟨rfl, rfl, rfl, fun ha hz => hcase ⟨hz, ha⟩, h₁, rfl⟩⟩

theorem readHead_plain {allowWitness : Bool} {n : Nat} (hn : n < 2 ^ 64)
    (h : allowWitness = true → n ≠ 0) (r : Bytes) (p : Nat) :
    (readHead allowWitness).run ⟨putVarint n ++ r, p⟩ =
      .ok (⟨p, n, false, none⟩, ⟨r, p + (putVarint n).length⟩) := by
  rw [readHead, run_pos_bind, decodes_varint.run_bind hn,
    if_neg (fun hc => h hc.2 hc.1)]
  rfl

theorem readHead_marked {n : Nat} (hn : n < 2 ^ 64) (r : Bytes) (p : Nat) :
    (readHead true).run ⟨[0, 1] ++ (putVarint n ++ r), p⟩ =
      .ok (⟨p + 2, n, true, none⟩, ⟨r, p + 2 + (putVarint n).length⟩) := by
  have hzero := decodes_varint.run_append (a := 0) (by decide) ([1] ++ (putVarint n ++ r)) p
  have hflag := decodes_u8.run_append (a := 1) trivial (putVarint n ++ r) (p + 1)
  have hcount := decodes_varint.run_append hn r (p + 2)
  rw [readHead, run_pos_bind]
  refine run_bind_ok.mpr ⟨_, _, hzero, ?_⟩
  rw [if_pos ⟨rfl, rfl⟩]
  refine run_bind_ok.mpr ⟨_, _, hflag, ?_⟩
  rw [if_neg (by decide), if_pos rfl, run_pos_bind]
  exact run_bind_ok.mpr ⟨_, _, hcount, rfl⟩

theorem readHead_empty (r : Bytes) (p : Nat) :
    (readHead true).run ⟨[0, 0] ++ r, p⟩ = .ok (⟨p, 0, false, some 0⟩, ⟨r, p + 2⟩) := by
  have hzero := decodes_varint.run_append (a := 0) (by decide) ([0] ++ r) p
  have hflag := decodes_u8.run_append (a := 0) trivial r (p + 1)
  rw [readHead, run_pos_bind]
  refine run_bind_ok.mpr ⟨_, _, hzero, ?_⟩
  rw [if_pos ⟨rfl, rfl⟩]
  refine run_bind_ok.mpr ⟨_, _, hflag, ?_⟩
  rw [if_pos rfl]
  rfl

theorem parse_eq_ok_iff_run {bytes : Bytes} {allowWitness : Bool} {l : TxLayout} :
    parse bytes allowWitness = .ok l ↔
      ∃ c', (read allowWitness).run (start bytes) = .ok (l, c') := by
  rw [parse]
  cases (read allowWitness).run (start bytes) with
  | ok r =>
    obtain ⟨l', c'⟩ := r
    simp [eq_comm]
  | error e => simp

/-- The scanner accepts exactly the canonical encodings. -/
theorem parse_eq_ok {bytes : Bytes} {allowWitness : Bool} {l : TxLayout} :
    parse bytes allowWitness = .ok l ↔
      ∃ tx : WireTx, tx.Canonical allowWitness ∧ bytes = tx.encode ∧
        l = tx.layout allowWitness := by
  rw [parse_eq_ok_iff_run]
  constructor
  · rintro ⟨c', h⟩
    obtain ⟨version, r₁, hversion, h₁, h⟩ := decodes_u32.of_run_bind h
    obtain ⟨head, c₂, h₂, h⟩ := run_bind_ok.mp h
    obtain ⟨hcount, hhead⟩ := readHead_sound h₂
    dsimp only [start] at h₁ hhead
    rcases hhead with ⟨hseg, hout, hat, hne, hrest, hpos⟩ |
      ⟨hallow, hseg, hout, hat, hrest, hpos⟩ | ⟨hallow, hseg, hout, hzero, hat, hrest, hpos⟩
    all_goals
      obtain ⟨b, hb, hbrest, rfl⟩ := readBody_sound (by simp [hout]) h
      obtain ⟨hlen, hins, houts, hfit, hws, hlock⟩ := hb
      rw [hout] at houts
      rw [hseg] at hws
    · obtain ⟨houtlen, houtfit, houtbytes⟩ := houts
      refine ⟨⟨version, false, b.inputs, b.outputs, b.witnesses, b.locktime⟩,
        ⟨⟨hversion, hlock, hlen ▸ hcount, houtlen, hins, houtfit, hfit⟩, by simp,
          fun _ => ⟨hws, fun ha hnil => ?_⟩⟩, ?_, ?_⟩
      · dsimp only at hnil
        rw [hnil] at hlen
        exact absurd hlen.symm (hne ha)
      · have hws' : b.witnesses = [] := hws
        rw [h₁, hrest, hbrest, Body.encode, houtbytes, ← hlen]
        simp [WireTx.encode, WireTx.marker, WireTx.inputBytes, WireTx.outputBytes,
          WireTx.witnessBytes, hws']
      · have hnil : allowWitness = true → b.inputs ≠ [] := fun ha hnil => by
          rw [hnil] at hlen
          exact hne ha hlen.symm
        have hcond : ¬ (allowWitness = true ∧ b.inputs = []) := fun hc => hnil hc.1 hc.2
        simp [Body.layout, WireTx.layout, WireTx.marker, WireTx.inputBytes, WireTx.outputBytes,
          hseg, hat, hpos, hlen, houtbytes, hcond]
        omega
    · obtain ⟨houtlen, houtfit, houtbytes⟩ := houts
      refine ⟨⟨version, true, b.inputs, b.outputs, b.witnesses, b.locktime⟩,
        ⟨⟨hversion, hlock, hlen ▸ hcount, houtlen, hins, houtfit, hfit⟩,
          fun _ => ⟨hallow, hws.1.trans hlen.symm, hws.2⟩, by simp⟩, ?_, ?_⟩
      · rw [h₁, hrest, hbrest, Body.encode, houtbytes, ← hlen]
        simp [WireTx.encode, WireTx.marker, WireTx.inputBytes, WireTx.outputBytes,
          WireTx.witnessBytes]
      · simp [Body.layout, WireTx.layout, WireTx.marker, WireTx.inputBytes, WireTx.outputBytes,
          hseg, hat, hpos, hlen, houtbytes]
        omega
    · obtain ⟨houts, houtbytes⟩ := houts
      have hnil : b.inputs = [] := List.length_eq_zero_iff.mp (hlen.trans hzero)
      have hws' : b.witnesses = [] := hws
      refine ⟨⟨version, false, [], [], [], b.locktime⟩,
        ⟨⟨hversion, hlock, by simp, by simp, by simp, by simp, by simp⟩, by simp, by simp⟩,
        ?_, ?_⟩
      · rw [h₁, hrest, hbrest, Body.encode, houtbytes, hnil, hws']
        simp [WireTx.encode, WireTx.marker, WireTx.inputBytes, WireTx.outputBytes,
          WireTx.witnessBytes, putVarint_zero]
      · simp [Body.layout, WireTx.layout, WireTx.marker, WireTx.inputBytes, WireTx.outputBytes,
          hseg, hat, hpos, houts, houtbytes, hnil, hzero, hallow, putVarint_zero]
  · rintro ⟨tx, hc, rfl, rfl⟩
    have hread {head : Head} {b : Body} {r : Bytes} {p : Nat}
        (hhead : (readHead allowWitness).run ⟨r, 4⟩ = .ok (head, ⟨b.encode, p⟩))
        (hz : ∀ n ∈ head.outputCount, n = 0) (hb : b.Follows head) :
        ∃ c', (read allowWitness).run (start (le 4 tx.version ++ r)) =
          .ok (b.layout head p, c') := by
      obtain ⟨c', h⟩ := readBody_complete hz hb p
      refine ⟨c', ?_⟩
      rw [read, start, decodes_u32.run_bind hc.version, length_le]
      exact run_bind_ok.mpr ⟨_, _, hhead, h⟩
    obtain ⟨version, segwit, ins, outs, ws, locktime⟩ := tx
    obtain ⟨⟨hversion, hlock, hcount, houtlen, hins, houtfit, hfit⟩, hmarked, hplain⟩ := hc
    dsimp only at hversion hlock hcount houtlen hins houtfit hfit hmarked hplain hread
    by_cases hseg : segwit = true
    · obtain ⟨hallow, hlen, hany⟩ := hmarked hseg
      subst hseg hallow
      have hbody : Body.Follows ⟨ins, outs, putVarint outs.length ++ outs.flatMap WireOut.encode,
          ws, locktime⟩ ⟨6, ins.length, true, none⟩ :=
        ⟨rfl, hins, ⟨houtlen, houtfit, rfl⟩, hfit, ⟨hlen, hany⟩, hlock⟩
      obtain ⟨c', h⟩ := hread (readHead_marked hcount _ _) (by simp) hbody
      refine ⟨c', ?_⟩
      simp only [WireTx.encode, WireTx.layout, WireTx.marker, WireTx.inputBytes,
        WireTx.outputBytes, WireTx.witnessBytes, if_true, Bool.true_eq_false, false_and, and_false,
        if_false]
      simp only [Body.encode, Body.layout, start, List.append_assoc, List.length_append,
        Nat.add_assoc] at h ⊢
      exact h
    · obtain rfl : segwit = false := by simpa using hseg
      obtain ⟨rfl, hempty⟩ := hplain rfl
      by_cases hcond : allowWitness = true ∧ ins = []
      · obtain ⟨rfl, rfl⟩ := hcond
        obtain rfl := hempty rfl rfl
        have hbody : Body.Follows ⟨[], [], [], [], locktime⟩ ⟨4, 0, false, some 0⟩ :=
          ⟨rfl, by simp, ⟨rfl, rfl⟩, by simp, rfl, hlock⟩
        obtain ⟨c', h⟩ := hread (readHead_empty _ _) (by simp) hbody
        exact ⟨c', h⟩
      · have hbody : Body.Follows ⟨ins, outs,
            putVarint outs.length ++ outs.flatMap WireOut.encode, [], locktime⟩
            ⟨4, ins.length, false, none⟩ :=
          ⟨rfl, hins, ⟨houtlen, houtfit, rfl⟩, by simp, rfl, hlock⟩
        have hne : allowWitness = true → ins.length ≠ 0 := fun ha hz =>
          hcond ⟨ha, List.length_eq_zero_iff.mp hz⟩
        obtain ⟨c', h⟩ := hread (readHead_plain hcount hne _ _) (by simp) hbody
        refine ⟨c', ?_⟩
        simp only [WireTx.encode, WireTx.layout, WireTx.marker, WireTx.inputBytes,
          WireTx.outputBytes, WireTx.witnessBytes, Bool.false_eq_true, if_false, true_and, hcond,
          List.nil_append, List.flatMap_nil, List.length_nil, Nat.add_zero]
        simp only [Body.encode, Body.layout, start, List.append_assoc, List.length_append,
          Nat.add_assoc, List.flatMap_nil, List.nil_append] at h ⊢
        exact h

end TxLayout

end Outscript.Psbt
