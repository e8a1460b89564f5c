import Outscript.Psbt.Input

/-!
# Extracting the network transaction

The extractor copies the unsigned transaction and splices in the final scripts
and witnesses. It writes the segwit form when some input has a final witness,
even where every such witness is an empty stack, and then no parser takes the
result.
-/
namespace Outscript.Psbt

open ByteString Cursor Fallible

/-- One input of the final transaction, from the unsigned one. -/
def writeInput (inp : Map) : Reader Bytes := do
  let outpoint ← Reader.take 36
  let _ ← Reader.varBytes
  let scriptSig := (PsbtInput.finalScriptSig inp).getD []
  let sequence ← Reader.take 4
  return outpoint ++ (varBytesOf scriptSig ++ sequence)

def writeInputs (p : View) : Reader (List Bytes) := do
  let _ ← Reader.varint
  p.inputs.mapM writeInput

def hasWitness (p : View) : Bool := p.inputs.any fun inp => (PsbtInput.finalScriptWitness inp).isSome

def writeExtracted (p : View) : Except Error Bytes := do
  if p.isFinalized = false then .error .notFinalized
  else do
    let tx := p.tx.bytes
    let layout := p.tx.layout
    let (inputs, _) ← (writeInputs p).run (seek tx layout.inputsAt)
    let marker := if hasWitness p then [0x00, 0x01] else []
    let outputs := (tx.take layout.outputsEnd).drop layout.outputsAt
    let witnesses :=
      -- the record value is already a serialized witness stack
      if hasWitness p then
        p.inputs.flatMap fun inp => (PsbtInput.finalScriptWitness inp).getD [0x00]
      else []
    .ok (tx.take 4 ++ (marker ++ (putVarint layout.inputCount ++ (inputs.flatten ++
      (outputs ++ (witnesses ++ tx.drop (tx.length - 4)))))))

def extractTxToSlice (p : View) (cap : Nat) : Except Error Bytes := do
  let bytes ← writeExtracted p
  if cap < bytes.length then .error .bufferTooSmall else .ok bytes

def extractedTxLen (p : View) : Except Error Nat := do
  let bytes ← writeExtracted p
  .ok bytes.length

theorem not_hasWitness_iff {p : View} :
    ¬ hasWitness p = true ↔ ∀ inp ∈ p.inputs, PsbtInput.finalScriptWitness inp = none := by
  simp [hasWitness]

/-! ## Reading one transaction in one way -/

namespace WireTx

/-- Transactions whose encodings can be told apart. -/
structure Shaped (t : WireTx) : Prop extends t.Fits where
  marked : t.segwit = true → t.witnesses.length = t.inputs.length
  plain : t.segwit = false → t.witnesses = [] ∧ (t.inputs = [] → t.outputs = [])

theorem Canonical.shaped {t : WireTx} (h : t.Canonical true) : t.Shaped :=
  ⟨h.toFits, fun hs => (h.marked hs).2.1, fun hs => ⟨(h.plain hs).1, (h.plain hs).2 rfl⟩⟩

theorem Canonical.segwit_false {t : WireTx} (h : t.Canonical false) : t.segwit = false := by
  cases hs : t.segwit with
  | false => rfl
  | true => exact absurd (h.marked hs).1 Bool.false_ne_true

theorem encode_eq (t : WireTx) :
    t.encode = le 4 t.version ++ (t.marker ++ (putVarint t.inputs.length ++
      (t.inputs.flatMap WireIn.encode ++ (putVarint t.outputs.length ++
        (t.outputs.flatMap WireOut.encode ++ (t.witnessBytes ++ le 4 t.locktime)))))) := by
  simp only [encode, inputBytes, outputBytes, List.append_assoc]

/-- No encoding is that of a marked and of a plain transaction. -/
theorem not_marked_and_plain {t u : WireTx} (ht : t.Shaped) (hu : u.Shaped)
    (hs : t.segwit = true) (hp : u.segwit = false) : t.encode ≠ u.encode := by
  intro h
  obtain ⟨hwit, hempty⟩ := hu.plain hp
  rw [encode_eq, encode_eq, marker, marker, if_pos hs, hp] at h
  obtain ⟨-, h⟩ := decodes_u32.prefix_free ht.version hu.version h
  have hmark : putVarint 0 ++ (1 :: (putVarint t.inputs.length ++
      (t.inputs.flatMap WireIn.encode ++ (putVarint t.outputs.length ++
        (t.outputs.flatMap WireOut.encode ++ (t.witnessBytes ++ le 4 t.locktime)))))) =
      putVarint u.inputs.length ++ (u.inputs.flatMap WireIn.encode ++ (putVarint u.outputs.length ++
        (u.outputs.flatMap WireOut.encode ++ (u.witnessBytes ++ le 4 u.locktime)))) := h
  obtain ⟨hcount, h⟩ := decodes_varint.prefix_free (by decide) hu.inputCount hmark
  have hins : u.inputs = [] := List.length_eq_zero_iff.mp hcount.symm
  rw [hins, hempty hins] at h
  cases h

/-- An encoding determines its transaction. -/
theorem Shaped.encode_inj {t u : WireTx} (ht : t.Shaped) (hu : u.Shaped)
    (h : t.encode = u.encode) : t = u := by
  have hseg : t.segwit = u.segwit := by
    cases hs : t.segwit with
    | true =>
      cases hp : u.segwit with
      | true => rfl
      | false => exact absurd h (not_marked_and_plain ht hu hs hp)
    | false =>
      cases hp : u.segwit with
      | true => exact absurd h.symm (not_marked_and_plain hu ht hp hs)
      | false => rfl
  have hmarker : t.marker = u.marker := by rw [marker, marker, hseg]
  rw [encode_eq, encode_eq, hmarker] at h
  obtain ⟨hversion, h⟩ := decodes_u32.prefix_free ht.version hu.version h
  obtain ⟨hcount, h⟩ := decodes_varint.prefix_free ht.inputCount hu.inputCount
    (List.append_cancel_left h)
  obtain ⟨hins, h⟩ := (TxLayout.decodes_readInput.many t.inputs.length).prefix_free
    ⟨rfl, ht.inputs⟩ ⟨hcount.symm, hu.inputs⟩ h
  obtain ⟨hcount', h⟩ := decodes_varint.prefix_free ht.outputCount hu.outputCount h
  obtain ⟨houts, h⟩ := (TxLayout.decodes_readOutput.many t.outputs.length).prefix_free
    ⟨rfl, ht.outputs⟩ ⟨hcount'.symm, hu.outputs⟩ h
  have hlen : u.witnesses.length = t.witnesses.length := by
    cases hs : t.segwit with
    | true => rw [ht.marked hs, hu.marked (hseg ▸ hs), hcount]
    | false => rw [(ht.plain hs).1, (hu.plain (hseg ▸ hs)).1]
  obtain ⟨hwits, h⟩ := (TxLayout.decodes_readStack.many t.witnesses.length).prefix_free
    ⟨rfl, ht.witnesses⟩ ⟨hlen, hu.witnesses⟩ h
  have hlock := le_injective ht.locktime hu.locktime h
  cases t
  cases u
  simp_all

end WireTx

/-- The parser takes a shaped transaction exactly when a marker comes with some
witness data. -/
theorem WireTx.Shaped.parse_encode_iff {t : WireTx} (ht : t.Shaped) :
    (∃ l, TxLayout.parse t.encode true = .ok l) ↔ (t.segwit = true → ∃ w ∈ t.witnesses, w ≠ []) := by
  constructor
  · rintro ⟨l, hl⟩ hs
    obtain ⟨u, hu, henc, -⟩ := TxLayout.parse_eq_ok.mp hl
    obtain rfl := ht.encode_inj hu.shaped henc
    exact (hu.marked hs).2.2
  · intro h
    have hc : t.Canonical true :=
      ⟨ht.toFits, fun hs => ⟨rfl, ht.marked hs, h hs⟩,
        fun hs => ⟨(ht.plain hs).1, fun _ => (ht.plain hs).2⟩⟩
    exact ⟨_, TxLayout.parse_eq_ok.mpr ⟨t, hc, rfl, rfl⟩⟩

/-! ## The final transaction -/

/-- The stack encoded in an input's final witness, or none. -/
def HasStack (inp : Map) (stack : List Bytes) : Prop :=
  match PsbtInput.finalScriptWitness inp with
  | some value => value = encodeStack stack
  | none => stack = []

/-- The stack of each input, empty without a marker. -/
def WireTx.stacksOf (t : WireTx) : List (List Bytes) :=
  if t.segwit then t.witnesses else t.inputs.map fun _ => []

/-- `t` is `u` with the final scripts and witnesses of `inputs`. -/
structure Finalizes (inputs : List Map) (u t : WireTx) : Prop where
  version : t.version = u.version
  locktime : t.locktime = u.locktime
  outputs : t.outputs = u.outputs
  spends : List.Forall₂ (fun i j => j.outpoint = i.outpoint ∧ j.sequence = i.sequence) u.inputs
    t.inputs
  scriptSigs : List.Forall₂ (fun inp j => j.scriptSig = (PsbtInput.finalScriptSig inp).getD [])
    inputs t.inputs
  witnesses : List.Forall₂ HasStack inputs t.stacksOf

/-- Extraction succeeds, and the parser reads the intended transaction. -/
def Extracts (p : View) : Prop :=
  ∃ n out layout u t, extractedTxLen p = .ok n ∧ extractTxToSlice p n = .ok out ∧
    TxLayout.parse out true = .ok layout ∧
    (u.Canonical false ∧ p.tx.bytes = u.encode) ∧ (t.Canonical true ∧ out = t.encode) ∧
    Finalizes p.inputs u t

def finalInput (i : WireIn) (inp : Map) : WireIn :=
  { i with scriptSig := (PsbtInput.finalScriptSig inp).getD [] }

def stackOf (inp : Map) : List Bytes :=
  match PsbtInput.finalScriptWitness inp with
  | none => []
  | some value =>
    match TxLayout.readStack.run (start value) with
    | .ok (items, _) => items
    | .error _ => []

def finalTx (p : View) (u : WireTx) : WireTx :=
  { version := u.version
    segwit := hasWitness p
    inputs := List.zipWith finalInput u.inputs p.inputs
    outputs := u.outputs
    witnesses := if hasWitness p then p.inputs.map stackOf else []
    locktime := u.locktime }

section Correct

variable {C : Purecrypto} {doc : Doc} {tx : UnsignedTx}

/-- The unsigned transaction as a value. -/
theorem Doc.Valid.exists_unsigned (h : doc.Valid C tx) :
    ∃ u : WireTx, u.Canonical false ∧ tx.bytes = u.encode ∧ tx.layout = u.layout false := by
  have hlayout := h.layout
  rw [unsignedLayout] at hlayout
  cases hp : TxLayout.parse tx.bytes false with
  | error e => rw [hp] at hlayout; cases hlayout
  | ok l =>
    rw [hp] at hlayout
    dsimp only at hlayout
    split_ifs at hlayout
    cases hlayout
    exact TxLayout.parse_eq_ok.mp hp

/-- A final witness is a serialized stack. -/
theorem hasStack_stackOf {recs : List Record} (h : ValidRecords C .input recs) :
    HasStack (Map.ofRecords recs) (stackOf (Map.ofRecords recs)) ∧
      StackFits (stackOf (Map.ofRecords recs)) := by
  have hget : PsbtInput.finalScriptWitness (Map.ofRecords recs) = lookup recs [0x08] :=
    getType_ofRecords h.framed (by decide)
  rw [HasStack, stackOf, hget]
  cases hl : lookup recs [0x08] with
  | none => exact ⟨rfl, by simp [StackFits]⟩
  | some value =>
    have hvalid := h.valid _ ((lookup_eq_some h.nodup).mp hl)
    have hwhole : readWhole TxLayout.readStack value = .ok () := hvalid
    rw [readWhole] at hwhole
    dsimp only
    cases hrun : TxLayout.readStack.run (start value) with
    | error e => rw [hrun] at hwhole; cases hwhole
    | ok r =>
      obtain ⟨items, c⟩ := r
      rw [hrun] at hwhole
      obtain ⟨hfits, hrest, -⟩ := (TxLayout.decodes_readStack _ _ _).mp hrun
      dsimp only [start, check] at hwhole hrest
      split_ifs at hwhole with hnil
      rw [of_decide_eq_true hnil, List.append_nil] at hrest
      exact ⟨hrest, hfits⟩

/-- An input has witness items when its final witness is not the empty stack. -/
theorem stackOf_ne_nil_iff {recs : List Record} (h : ValidRecords C .input recs) :
    stackOf (Map.ofRecords recs) ≠ [] ↔
      ∃ value, PsbtInput.finalScriptWitness (Map.ofRecords recs) = some value ∧
        value ≠ [0x00] := by
  have hstack := (hasStack_stackOf h).1
  rw [HasStack] at hstack
  cases hw : PsbtInput.finalScriptWitness (Map.ofRecords recs) with
  | none =>
    rw [hw] at hstack
    simpa using hstack
  | some value =>
    rw [hw] at hstack
    have hempty : value = [0x00] ↔ stackOf (Map.ofRecords recs) = [] := by
      rw [hstack]
      constructor
      · intro henc
        have hfree := TxLayout.decodes_readStack.prefix_free (r := []) (s := [])
          (hasStack_stackOf h).2 (b := []) (by simp [StackFits]) (by rw [henc]; rfl)
        exact hfree.1
      · intro hnil
        rw [hnil]
        rfl
    simp [hempty]

theorem length_finalScriptSig {recs : List Record} (h : ValidRecords C .input recs) :
    ((PsbtInput.finalScriptSig (Map.ofRecords recs)).getD []).length < 2 ^ 64 := by
  have hget : PsbtInput.finalScriptSig (Map.ofRecords recs) = lookup recs [0x07] :=
    getType_ofRecords h.framed (by decide)
  rw [hget]
  cases hl : lookup recs [0x07] with
  | none => exact Nat.two_pow_pos 64
  | some value => exact (h.framed _ ((lookup_eq_some h.nodup).mp hl)).value_lt

theorem run_writeInput {i : WireIn} (hi : i.Fits) (inp : Map) (r : Bytes) (p : Nat) :
    (writeInput inp).run ⟨i.encode ++ r, p⟩ =
      .ok ((finalInput i inp).encode, ⟨r, p + i.encode.length⟩) := by
  have hseq := length_le 4 i.sequence
  rw [writeInput, WireIn.encode, List.append_assoc, List.append_assoc]
  have houtpoint := (decodes_readTake 36).run_append (a := i.outpoint.toList) i.outpoint.2
    (varBytesOf i.scriptSig ++ (le 4 i.sequence ++ r)) p
  have hscript := decodes_varBytes.run_append hi.1 (le 4 i.sequence ++ r)
    (p + i.outpoint.toList.length)
  have hsequence := (decodes_readTake 4).run_append hseq r
    (p + i.outpoint.toList.length + (varBytesOf i.scriptSig).length)
  refine run_bind_ok.mpr ⟨_, _, houtpoint, run_bind_ok.mpr ⟨_, _, hscript,
    run_bind_ok.mpr ⟨_, _, hsequence, run_pure_ok.mpr ⟨rfl, ?_⟩⟩⟩⟩
  simp only [List.length_append, id, Nat.add_assoc]

theorem run_mapM_writeInput {ins : List WireIn} (hins : ∀ i ∈ ins, i.Fits) {inps : List Map}
    (hlen : ins.length = inps.length) (r : Bytes) (p : Nat) :
    (inps.mapM writeInput).run ⟨ins.flatMap WireIn.encode ++ r, p⟩ =
      .ok ((List.zipWith finalInput ins inps).map WireIn.encode,
        ⟨r, p + (ins.flatMap WireIn.encode).length⟩) := by
  induction ins generalizing inps p with
  | nil =>
    obtain rfl := List.length_eq_zero_iff.mp hlen.symm
    rfl
  | cons i ins ih =>
    cases inps with
    | nil => cases hlen
    | cons inp inps =>
      obtain ⟨hi, hins⟩ := List.forall_mem_cons.mp hins
      rw [List.mapM_cons, List.flatMap_cons, List.append_assoc]
      refine run_bind_ok.mpr ⟨_, _, run_writeInput hi inp _ p, run_bind_ok.mpr
        ⟨_, _, ih hins (Nat.succ.inj hlen) _, run_pure_ok.mpr ⟨rfl, ?_⟩⟩⟩
      rw [List.length_append, Nat.add_assoc]

theorem Doc.Valid.flatMap_finalScriptWitness (h : doc.Valid C tx) :
    ((doc.view tx).inputs.flatMap fun inp => (PsbtInput.finalScriptWitness inp).getD [0x00]) =
      ((doc.view tx).inputs.map stackOf).flatMap encodeStack := by
  rw [List.flatMap_map]
  apply List.flatMap_congr
  intro inp hinp
  rw [h.inputs_view] at hinp
  obtain ⟨recs, hrecs, rfl⟩ := List.mem_map.mp hinp
  have hstack := (hasStack_stackOf (h.inputs recs hrecs)).1
  rw [HasStack] at hstack
  cases hw : PsbtInput.finalScriptWitness (Map.ofRecords recs) with
  | none =>
    rw [hw] at hstack
    rw [hstack]
    rfl
  | some value =>
    rw [hw] at hstack
    exact hstack

/-- What the extractor writes is an encoding of the final transaction. -/
theorem Doc.Valid.writeExtracted_view (h : doc.Valid C tx) {u : WireTx} (hu : u.Canonical false)
    (hbytes : tx.bytes = u.encode) (hlayout : tx.layout = u.layout false)
    (hfinal : (doc.view tx).isFinalized = true) :
    writeExtracted (doc.view tx) = .ok (finalTx (doc.view tx) u).encode := by
  have hseg := hu.segwit_false
  have hwit := (hu.plain hseg).1
  have hmark : u.marker = [] := by rw [WireTx.marker, hseg]; rfl
  have henc : u.encode = le 4 u.version ++ (u.inputBytes ++ (u.outputBytes ++ le 4 u.locktime)) := by
    rw [WireTx.encode, hmark, WireTx.witnessBytes, hwit]
    rfl
  have hcount : tx.layout.inputCount = u.inputs.length := by rw [hlayout]; rfl
  have hlen : u.inputs.length = (doc.view tx).inputs.length := by
    rw [h.inputs_view, List.length_map, h.inputCount, hcount]
  have hat : tx.layout.inputsAt = 4 := by
    rw [hlayout, WireTx.layout, hmark]
    rfl
  have houtAt : tx.layout.outputsAt = 4 + u.inputBytes.length := by
    simp [hlayout, WireTx.layout, hmark]
  have houtEnd : tx.layout.outputsEnd = 4 + u.inputBytes.length + u.outputBytes.length := by
    simp [hlayout, WireTx.layout, hmark]
  have hversion := length_le 4 u.version
  have hlock := length_le 4 u.locktime
  have hseek : seek tx.bytes tx.layout.inputsAt =
      ⟨putVarint u.inputs.length ++ (u.inputs.flatMap WireIn.encode ++
        (u.outputBytes ++ le 4 u.locktime)), 4⟩ := by
    rw [seek, hat, hbytes, henc, List.drop_left' hversion, WireTx.inputBytes, List.append_assoc]
  have hinputs : ∃ c, (writeInputs (doc.view tx)).run (seek tx.bytes tx.layout.inputsAt) =
      .ok ((finalTx (doc.view tx) u).inputs.map WireIn.encode, c) := by
    rw [hseek, writeInputs, decodes_varint.run_bind hu.inputCount,
      run_mapM_writeInput hu.inputs hlen]
    exact ⟨_, rfl⟩
  obtain ⟨c, hinputs⟩ := hinputs
  have houtputs : (tx.bytes.take tx.layout.outputsEnd).drop tx.layout.outputsAt =
      u.outputBytes := by
    have hfront : u.encode =
        ((le 4 u.version ++ u.inputBytes) ++ u.outputBytes) ++ le 4 u.locktime := by
      simp only [henc, List.append_assoc]
    rw [hbytes, hfront, houtEnd, houtAt, List.take_left' (by simp; omega), List.drop_left' (by simp)]
  have htail : tx.bytes.drop (tx.bytes.length - 4) = le 4 u.locktime := by
    have hback : u.encode = (le 4 u.version ++ (u.inputBytes ++ u.outputBytes)) ++ le 4 u.locktime := by
      simp only [henc, List.append_assoc]
    rw [hbytes, hback, List.drop_left' (by simp; omega)]
  have hhead : tx.bytes.take 4 = le 4 u.version := by
    rw [hbytes, henc, List.take_left' hversion]
  have hstacks := h.flatMap_finalScriptWitness
  have hview : (doc.view tx).tx = tx := rfl
  rw [writeExtracted, if_neg (by rw [hfinal]; exact Bool.noConfusion), hview]
  simp only [hinputs, ok_bind, houtputs, htail, hhead, hstacks, hcount]
  have hzip : (finalTx (doc.view tx) u).inputs.length = u.inputs.length := by
    rw [finalTx, List.length_zipWith, ← hlen, Nat.min_self]
  have hmarker : (finalTx (doc.view tx) u).marker =
      if hasWitness (doc.view tx) = true then [0x00, 0x01] else [] := rfl
  have hwitness : (finalTx (doc.view tx) u).witnessBytes = if hasWitness (doc.view tx) = true then
      ((doc.view tx).inputs.map stackOf).flatMap encodeStack else [] := by
    rw [WireTx.witnessBytes, finalTx]
    split_ifs <;> rfl
  rw [WireTx.encode_eq, hzip, hmarker, hwitness]
  simp only [WireTx.outputBytes, List.append_assoc, List.flatMap_def]
  rfl

theorem mem_zipWith {α β γ : Type} {f : α → β → γ} {as : List α} {bs : List β} {c : γ}
    (h : c ∈ List.zipWith f as bs) : ∃ a ∈ as, ∃ b ∈ bs, c = f a b := by
  obtain ⟨k, hk, rfl⟩ := List.mem_iff_getElem.mp h
  rw [List.getElem_zipWith]
  exact ⟨_, List.getElem_mem _, _, List.getElem_mem _, rfl⟩

theorem Doc.Valid.length_inputs_view (h : doc.Valid C tx) {u : WireTx}
    (hlayout : tx.layout = u.layout false) :
    u.inputs.length = (doc.view tx).inputs.length := by
  rw [h.inputs_view, List.length_map, h.inputCount, hlayout]
  rfl

theorem Doc.Valid.shaped_finalTx (h : doc.Valid C tx) {u : WireTx} (hu : u.Canonical false)
    (hlayout : tx.layout = u.layout false) (hne : (doc.view tx).inputs ≠ []) :
    (finalTx (doc.view tx) u).Shaped := by
  have hlen := h.length_inputs_view hlayout
  have hzip : (List.zipWith finalInput u.inputs (doc.view tx).inputs).length = u.inputs.length := by
    rw [List.length_zipWith, ← hlen, Nat.min_self]
  have hstack : ∀ inp ∈ (doc.view tx).inputs, ∃ recs ∈ doc.inputs, inp = Map.ofRecords recs := by
    rw [h.inputs_view]
    intro inp hinp
    obtain ⟨recs, hrecs, rfl⟩ := List.mem_map.mp hinp
    exact ⟨recs, hrecs, rfl⟩
  refine ⟨⟨hu.version, hu.locktime, hzip ▸ hu.inputCount, hu.outputCount, ?_, hu.outputs, ?_⟩,
    ?_, ?_⟩
  · intro j hj
    obtain ⟨i, hi, inp, hinp, rfl⟩ := mem_zipWith hj
    obtain ⟨recs, hrecs, rfl⟩ := hstack inp hinp
    exact ⟨length_finalScriptSig (h.inputs recs hrecs), (hu.inputs i hi).2⟩
  · intro w hw
    simp only [finalTx] at hw
    split_ifs at hw
    · obtain ⟨inp, hinp, rfl⟩ := List.mem_map.mp hw
      obtain ⟨recs, hrecs, rfl⟩ := hstack inp hinp
      exact (hasStack_stackOf (h.inputs recs hrecs)).2
    · cases hw
  · intro (hs : hasWitness (doc.view tx) = true)
    simp only [finalTx, if_pos hs]
    rw [List.length_map, hzip, hlen]
  · intro (hs : hasWitness (doc.view tx) = false)
    refine ⟨by simp [finalTx, hs], fun hnil => absurd ?_ hne⟩
    have hnil' : (List.zipWith finalInput u.inputs (doc.view tx).inputs).length = 0 :=
      List.length_eq_zero_iff.mpr hnil
    rw [hzip, hlen] at hnil'
    exact List.length_eq_zero_iff.mp hnil'

theorem forall₂_zipWith_left {α β γ : Type} {R : α → γ → Prop} {f : α → β → γ} {as : List α}
    {bs : List β} (hlen : as.length = bs.length) (h : ∀ a b, R a (f a b)) :
    List.Forall₂ R as (List.zipWith f as bs) := by
  induction as generalizing bs with
  | nil => exact List.Forall₂.nil
  | cons a as ih =>
    cases bs with
    | nil => cases hlen
    | cons b bs => exact List.Forall₂.cons (h a b) (ih (Nat.succ.inj hlen))

theorem forall₂_zipWith_right {α β γ : Type} {R : β → γ → Prop} {f : α → β → γ} {as : List α}
    {bs : List β} (hlen : as.length = bs.length) (h : ∀ a, ∀ b ∈ bs, R b (f a b)) :
    List.Forall₂ R bs (List.zipWith f as bs) := by
  induction bs generalizing as with
  | nil =>
    rw [List.zipWith_nil_right]
    exact List.Forall₂.nil
  | cons b bs ih =>
    cases as with
    | nil => cases hlen
    | cons a as =>
      obtain ⟨hb, hbs⟩ := forall_and.mp fun a => List.forall_mem_cons.mp (h a)
      exact List.Forall₂.cons (hb a) (ih (Nat.succ.inj hlen) hbs)

/-- The final transaction is the unsigned one with the final scripts and
witnesses. -/
theorem Doc.Valid.finalizes_finalTx (h : doc.Valid C tx) {u : WireTx}
    (hlayout : tx.layout = u.layout false) :
    Finalizes (doc.view tx).inputs u (finalTx (doc.view tx) u) := by
  have hlen := h.length_inputs_view hlayout
  refine ⟨rfl, rfl, rfl, forall₂_zipWith_left hlen fun i inp => ⟨rfl, rfl⟩,
    forall₂_zipWith_right hlen fun i inp _ => rfl, ?_⟩
  by_cases hw : hasWitness (doc.view tx) = true
  · have hstacks : (finalTx (doc.view tx) u).stacksOf = (doc.view tx).inputs.map stackOf := by
      rw [WireTx.stacksOf, finalTx, if_pos hw, if_pos hw]
    rw [hstacks, List.forall₂_map_right_iff, List.forall₂_same]
    intro inp hinp
    rw [h.inputs_view] at hinp
    obtain ⟨recs, hrecs, rfl⟩ := List.mem_map.mp hinp
    exact (hasStack_stackOf (h.inputs recs hrecs)).1
  · have hstacks : (finalTx (doc.view tx) u).stacksOf =
        (List.zipWith finalInput u.inputs (doc.view tx).inputs).map fun _ => [] := if_neg hw
    rw [hstacks, List.forall₂_map_right_iff]
    refine forall₂_zipWith_right hlen fun i inp hinp => ?_
    rw [HasStack, not_hasWitness_iff.mp hw inp hinp]

end Correct

/-- Extraction yields the intended transaction exactly when no input has a final
witness, or some input has one that is not an empty stack. -/
theorem extracts_iff {C : Purecrypto} {bytes : Bytes} {p : View} (h : parse C bytes = .ok p)
    (hne : p.inputs ≠ []) (hfinal : p.isFinalized = true) :
    Extracts p ↔
      (∀ inp ∈ p.inputs, PsbtInput.finalScriptWitness inp = none) ∨
        ∃ inp ∈ p.inputs, ∃ value, PsbtInput.finalScriptWitness inp = some value ∧
          value ≠ [0x00] := by
  obtain ⟨doc, hdoc, -, hp⟩ := parse_eq_ok.mp h
  obtain ⟨u, hu, hbytes, hlayout⟩ := hdoc.exists_unsigned
  rw [hp] at hne hfinal ⊢
  have hwritten := hdoc.writeExtracted_view hu hbytes hlayout hfinal
  have hshaped := hdoc.shaped_finalTx hu hlayout hne
  have hparses : Extracts (doc.view p.tx) ↔
      ∃ l, TxLayout.parse (finalTx (doc.view p.tx) u).encode true = .ok l := by
    constructor
    · rintro ⟨n, out, l, -, -, hlen, hout, hl, -⟩
      rw [extractTxToSlice, hwritten, ok_bind] at hout
      split_ifs at hout
      exact ⟨l, Except.ok.inj hout ▸ hl⟩
    · rintro ⟨l, hl⟩
      obtain ⟨t, ht, henc, -⟩ := TxLayout.parse_eq_ok.mp hl
      obtain rfl := hshaped.encode_inj ht.shaped henc
      refine ⟨_, _, l, u, _, by rw [extractedTxLen, hwritten]; rfl, ?_, hl, ⟨hu, hbytes⟩, ⟨ht, rfl⟩,
        hdoc.finalizes_finalTx hlayout⟩
      rw [extractTxToSlice, hwritten, ok_bind, if_neg (lt_irrefl _)]
  rw [hparses, hshaped.parse_encode_iff]
  by_cases hw : hasWitness (doc.view p.tx) = true
  · have hstacks : (finalTx (doc.view p.tx) u).witnesses = (doc.view p.tx).inputs.map stackOf :=
      if_pos hw
    have hitems : ∀ inp ∈ (doc.view p.tx).inputs, stackOf inp ≠ [] ↔
        ∃ value, PsbtInput.finalScriptWitness inp = some value ∧ value ≠ [0x00] := by
      rw [hdoc.inputs_view]
      intro inp hinp
      obtain ⟨recs, hrecs, rfl⟩ := List.mem_map.mp hinp
      exact stackOf_ne_nil_iff (hdoc.inputs recs hrecs)
    rw [hstacks]
    constructor
    · intro hex
      obtain ⟨w, hmem, hne⟩ := hex hw
      obtain ⟨inp, hinp, rfl⟩ := List.mem_map.mp hmem
      exact Or.inr ⟨inp, hinp, (hitems inp hinp).mp hne⟩
    · rintro (hnone | ⟨inp, hinp, hvalue⟩) -
      · exact absurd hw (not_hasWitness_iff.mpr hnone)
      · exact ⟨stackOf inp, List.mem_map_of_mem hinp, (hitems inp hinp).mpr hvalue⟩
  · exact iff_of_true (fun hs => absurd hs hw) (Or.inl (not_hasWitness_iff.mp hw))

/-- A final scriptSig and a final witness of one item. -/
theorem extracts_sample :
    ∃ p, parse .blank (sampleDoc [⟨[0x07], [0x51]⟩, ⟨[0x08], [0x01, 0x01, 0x2a]⟩] []).encode = .ok p ∧
      Extracts p := by
  have hrun : (do
      let p ← parse .blank (sampleDoc [⟨[0x07], [0x51]⟩, ⟨[0x08], [0x01, 0x01, 0x2a]⟩] []).encode
      .ok (p.isFinalized, p.inputs.map PsbtInput.finalScriptWitness)) =
        (.ok (true, [some [0x01, 0x01, 0x2a]]) : Except Error (Bool × List (Option Bytes))) := by
    decide +kernel
  obtain ⟨p, hp, hrun⟩ := bind_eq_ok.mp hrun
  obtain ⟨hfinal, hwitness⟩ := Prod.mk.inj (Except.ok.inj hrun)
  obtain ⟨inp, hinputs, hvalue⟩ := List.map_eq_singleton_iff.mp hwitness
  have hmem : inp ∈ p.inputs := by rw [hinputs]; exact List.mem_singleton_self inp
  exact ⟨p, hp, (extracts_iff hp (List.ne_nil_of_mem hmem) hfinal).mpr
    (Or.inr ⟨inp, hmem, _, hvalue, by decide⟩)⟩

/-- With an empty stack as the only final witness, the parser refuses what
extraction yields. -/
theorem not_extracts_emptyStack :
    ∃ p, parse .blank (sampleDoc [⟨[0x08], [0x00]⟩] []).encode = .ok p ∧ p.inputs ≠ [] ∧
      p.isFinalized = true ∧
      (∃ n out, extractedTxLen p = .ok n ∧ extractTxToSlice p n = .ok out ∧
        TxLayout.parse out true = .error .invalidRecordValue) ∧
      ¬ Extracts p := by
  have hrun : (do
      let p ← parse .blank (sampleDoc [⟨[0x08], [0x00]⟩] []).encode
      let n ← extractedTxLen p
      let out ← extractTxToSlice p n
      .ok (decide (p.inputs ≠ [] ∧ p.isFinalized = true ∧
        TxLayout.parse out true = .error .invalidRecordValue))) = (.ok true : Except Error Bool) := by
    decide +kernel
  obtain ⟨p, hp, hrun⟩ := bind_eq_ok.mp hrun
  obtain ⟨n, hn, hrun⟩ := bind_eq_ok.mp hrun
  obtain ⟨out, hout, hrun⟩ := bind_eq_ok.mp hrun
  obtain ⟨hne, hfinal, herror⟩ := of_decide_eq_true (Except.ok.inj hrun)
  refine ⟨p, hp, hne, hfinal, ⟨n, out, hn, hout, herror⟩, ?_⟩
  rintro ⟨n', out', l, -, -, hn', hout', hl, -⟩
  rw [hn] at hn'
  cases hn'
  rw [hout] at hout'
  cases hout'
  rw [herror] at hl
  cases hl

end Outscript.Psbt
