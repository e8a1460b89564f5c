import Outscript.Btc.Commitment
import Outscript.Btc.ReadBack

/-!
# Hash types of signed inputs

A network leaves parts of a transaction out of a digest as the hash type behind
the signature says. Signing puts the flag of an entry into the digest and leaves
nothing out.
-/
namespace Outscript

open ByteString Delimited Fallible Secp256k1

/-! ## What the network hashes -/

/-- The outputs that a hash type signs, where an earlier one is blank under SINGLE. -/
def signedOutputs (t : UInt8) (n : Nat) (outputs : List RawTxOut) : List RawTxOut :=
  if t &&& 0x1f = 2 then []
  else if t &&& 0x1f = 3 then
    (outputs.take (n + 1)).mapIdx fun m o => if m = n then o else ⟨0xffffffffffffffff, []⟩
  else outputs

/-- The inputs, where only the own sequence counts under NONE and SINGLE. -/
def signedInputs (t : UInt8) (n : Nat) (inputs : List RawTxIn) : List RawTxIn :=
  if t &&& 0x1f = 2 ∨ t &&& 0x1f = 3 then
    inputs.mapIdx fun m i => if m = n then i else { i with sequence := 0 }
  else inputs

/-- The transaction that a legacy digest of input `n` is of, and the place of the input there. -/
def legacyView (t : UInt8) (n : Nat) (src : TxSource) : TxSource × Nat :=
  let outputs := signedOutputs t n src.outputs
  if t &&& 0x80 ≠ 0 then
    ({ src with inputCount := 1, inputs := src.inputs[n]?.toList, outputs }, 0)
  else ({ src with inputs := signedInputs t n src.inputs, outputs }, n)

/-- What a legacy digest hashes. -/
def legacyMessage (src : TxSource) (n : Nat) (scriptCode : Bytes) (sighashType : UInt32) : Bytes :=
  le32 src.version ++ (BtcVarInt.toArray src.inputCount ++
    ((src.inputs.mapIdx (legacyInput n scriptCode)).flatten ++
      (BtcVarInt.toArray src.outputs.length ++ (src.outputs.flatMap RawTxOut.encode ++
        (le32 src.locktime ++ le32 sighashType)))))

def networkMessage (src : TxSource) (n : Nat) (scriptCode : Bytes) (t : UInt8) : Bytes :=
  legacyMessage (legacyView t n src).1 (legacyView t n src).2 scriptCode t.toUInt32

/-- The digest where SINGLE has no output to sign: the number one. -/
def digestOne : ByteVec 32 := 1 ::ᵥ List.Vector.replicate 31 0

def noDigest : ByteVec 32 := List.Vector.replicate 32 0

section Network

variable (H : Hashes)

def networkLegacy (src : TxSource) (n : Nat) (scriptCode : Bytes) (t : UInt8) :
    Except Error (ByteVec 32) :=
  if src.inputCount ≤ n then .error .inputIndex
  else if t &&& 0x1f = 3 ∧ src.outputs.length ≤ n then .ok digestOne
  else .ok (H.dsha256 (networkMessage src n scriptCode t))

/-- The BIP-143 hashes that a hash type signs. -/
def signedMidstate (src : TxSource) (n : Nat) (t : UInt8) : SegwitV0Midstate where
  version := src.version
  locktime := src.locktime
  hashPrevouts := if t &&& 0x80 ≠ 0 then noDigest else H.dsha256 (outpointBytes src.inputs)
  hashSequence :=
    if t &&& 0x80 ≠ 0 ∨ t &&& 0x1f = 2 ∨ t &&& 0x1f = 3 then noDigest
    else H.dsha256 (sequenceBytes src.inputs)
  hashOutputs :=
    if t &&& 0x1f = 2 then noDigest
    else if t &&& 0x1f = 3 then
      match src.outputs[n]? with
      | some o => H.dsha256 o.encode
      | none => noDigest
    else H.dsha256 (outputBytes src.outputs)

/-- What a BIP-143 digest hashes. -/
def segwitMessage (m : SegwitV0Midstate) (input : RawTxIn) (scriptCode : Bytes) (amount : UInt64)
    (sighashType : UInt32) : Bytes :=
  le32 m.version ++ (m.hashPrevouts.toList ++ (m.hashSequence.toList ++
    (input.outpoint ++ (varSlice scriptCode ++ (le64 amount ++ (le32 input.sequence ++
      (m.hashOutputs.toList ++ (le32 m.locktime ++ le32 sighashType))))))))

end Network

def Scheme.isSegwit : Scheme → Bool
  | .p2wpkh | .p2shP2wpkh | .p2wsh | .p2wshOf _ => true
  | _ => false

/-- The digest that the network checks a signature with hash type `t` on input `n` against. Under
Bitcoin Cash's fork id, 0x40, all schemes have the one of BIP-143. -/
def networkDigest {C : Purecrypto} (keys : List (BtcTxSign C)) (src : TxSource) (n : Nat)
    (k : BtcTxSign C) (i : BtcTxInput) (scheme : Scheme) (scriptCode : Bytes) (t : UInt8) :
    Except Error (ByteVec 32) :=
  if t &&& 0x20 ≠ 0 then
    unifiedDigestOf keys src n k t
      (if scheme.isSegwit then .segwitV0 scriptCode else .legacy scriptCode)
  else if scheme.isSegwit ∨ t &&& 0x40 ≠ 0 then
    .ok ((signedMidstate C.toHashes src n t).sighash C.toHashes i.raw scriptCode k.amount
      t.toUInt32)
  else networkLegacy C.toHashes src n scriptCode t

/-- What the script of a key executes: for a witness script that itself. -/
def executedScript {C : Purecrypto} (pk : SecpPublicKey C) (i : BtcTxInput) : Scheme → Bytes
  | .p2pk => generateScript C pk (.script .p2pk)
  | .p2pkh | .p2wpkh | .p2shP2wpkh => generateScript C pk (.script .p2pkh)
  | .p2pukh => generateScript C pk (.script .p2pukh)
  | .p2wsh | .p2wshOf _ => i.witnesses.getLast?.getD []
  | .p2tr => []

/-- The signature in an input: the first push of the scriptSig, or the first witness item. -/
def placedSignature (i : BtcTxInput) (scheme : Scheme) : Option Bytes :=
  if scheme.isSegwit then i.witnesses.head? else (parsePushBytes i.script).map Prod.fst

/-! ## Flags -/

/-- The flags for which a digest that leaves nothing out is the network's. -/
def Honoured (scheme : Scheme) (flag : UInt32) (n : Nat) (src : TxSource) : Prop :=
  flag &&& 0x20 ≠ 0 ∨ flag ≤ 0xff ∧
    if scheme.isSegwit ∨ flag &&& 0x40 ≠ 0 then
      scheme ≠ .p2pk ∧ flag &&& 0x80 = 0 ∧ flag &&& 0x1f ≠ 2 ∧ flag &&& 0x1f ≠ 3
    else
      (flag &&& 0x1f = 3 → n < src.outputs.length) ∧ legacyView flag.toUInt8 n src = (src, n)

theorem toUInt8_and_eq (flag : UInt32) (m c : UInt8) :
    flag.toUInt8 &&& m = c ↔ flag &&& m.toUInt32 = c.toUInt32 := by
  rw [← UInt8.toNat_inj, ← UInt32.toNat_inj, UInt8.toNat_and, UInt32.toNat_and, UInt32.toNat_toUInt8,
    UInt8.toNat_toUInt32, UInt8.toNat_toUInt32, ← Nat.and_two_pow_sub_one_eq_mod _ 8, Nat.and_assoc,
    Nat.and_comm (2 ^ 8 - 1), Nat.and_two_pow_sub_one_eq_mod, Nat.mod_eq_of_lt m.toNat_lt]

theorem toUInt32_toUInt8 {flag : UInt32} (h : flag ≤ 0xff) : flag.toUInt8.toUInt32 = flag := by
  rw [← UInt32.toNat_inj, UInt8.toNat_toUInt32, UInt32.toNat_toUInt8]
  have h := UInt32.le_iff_toNat_le.mp h
  exact Nat.mod_eq_of_lt (Nat.lt_succ_of_le h)

theorem toUInt32_le (t : UInt8) : t.toUInt32 ≤ 0xff := by
  rw [UInt32.le_iff_toNat_le, UInt8.toNat_toUInt32]
  exact Nat.le_of_lt_succ t.toNat_lt

/-- The counts and lengths that a digest has in front. -/
structure TxSource.Sized (src : TxSource) : Prop where
  lawful : src.Lawful
  inputs : src.inputs.length < 2 ^ 64
  outputs : src.outputs.length < 2 ^ 64
  scripts : ∀ o ∈ src.outputs, o.Sized

theorem delimits_count : Delimits BtcVarInt.toArray (fun v => v < 2 ^ 64) :=
  fun _ _ _ _ ha hb h => Psbt.decodes_varint.prefix_free ha hb h

/-- An outpoint, a script and a sequence in a row. -/
def executedInput (p : (ByteVec 32 × UInt32) × Bytes × UInt32) : Bytes :=
  (p.1.1.reverse.toList ++ le32 p.1.2) ++ (varSlice p.2.1 ++ le32 p.2.2)

theorem delimits_executedInput : Delimits executedInput (fun p => p.2.1.length < 2 ^ 64) := by
  rintro ⟨a, s, v⟩ ⟨b, t, w⟩ r r' hs ht h
  simp only [executedInput, List.append_assoc _ (varSlice _ ++ _)] at h
  obtain ⟨rfl, h₁⟩ := delimits_outpoint a b _ _ trivial trivial h
  simp only [List.append_assoc] at h₁
  obtain ⟨rfl, h₂⟩ := delimits_varSlice s t _ _ hs ht h₁
  obtain ⟨rfl, h₃⟩ := delimits_le32 v w _ _ trivial trivial h₂
  exact ⟨rfl, h₃⟩

/-- An input as it is hashed. -/
def executed (n : Nat) (scriptCode : Bytes) (m : Nat) (i : RawTxIn) :
    (ByteVec 32 × UInt32) × Bytes × UInt32 :=
  (i.spent, if m = n then scriptCode else [], i.sequence)

theorem flatten_legacyInput (n : Nat) (scriptCode : Bytes) (inputs : List RawTxIn) :
    (inputs.mapIdx (legacyInput n scriptCode)).flatten =
      (inputs.mapIdx (executed n scriptCode)).flatMap executedInput := by
  rw [List.flatMap_def, List.mapIdx_eq_zipIdx_map, List.mapIdx_eq_zipIdx_map, List.map_map]
  rfl

theorem executed_sized {n : Nat} {scriptCode : Bytes} (h : scriptCode.length < 2 ^ 64)
    (inputs : List RawTxIn) :
    ∀ p ∈ inputs.mapIdx (executed n scriptCode), p.2.1.length < 2 ^ 64 := by
  intro p hp
  obtain ⟨m, hm, rfl⟩ := List.mem_mapIdx.mp hp
  rw [executed]
  split_ifs
  · exact h
  · exact Nat.two_pow_pos 64

/-- The flag is at the end. -/
theorem legacyMessage_flag {src src' : TxSource} {n n' : Nat} {sc sc' : Bytes} {f f' : UInt32}
    (h : legacyMessage src n sc f = legacyMessage src' n' sc' f') : f = f' := by
  simp only [legacyMessage, ← List.append_assoc] at h
  obtain ⟨-, h⟩ := List.append_inj' h (by simp [le32])
  exact delimits_le32.injOn trivial trivial h

/-- A message shows the inputs that are hashed, and the outputs. -/
theorem legacyMessage_inj {src src' : TxSource} {n n' : Nat} {sc : Bytes} {f : UInt32}
    (hsrc : src.Sized) (hsrc' : src'.Sized) (hsc : sc.length < 2 ^ 64)
    (h : legacyMessage src n sc f = legacyMessage src' n' sc f) :
    src.inputs.mapIdx (executed n sc) = src'.inputs.mapIdx (executed n' sc) ∧
      src.outputs = src'.outputs := by
  have hcount {s : TxSource} (hs : s.Sized) : s.inputCount < 2 ^ 64 := hs.lawful ▸ hs.inputs
  rw [legacyMessage, legacyMessage, flatten_legacyInput, flatten_legacyInput] at h
  obtain ⟨-, h⟩ := delimits_le32 _ _ _ _ trivial trivial h
  obtain ⟨hn, h⟩ := delimits_count _ _ _ _ (hcount hsrc) (hcount hsrc') h
  have hlen : src.inputs.length = src'.inputs.length := by rw [← hsrc.lawful, hn, hsrc'.lawful]
  obtain ⟨hins, h⟩ := delimits_executedInput.flatMap_append_inj (executed_sized hsc _)
    (executed_sized hsc _) (by simpa using hlen) h
  obtain ⟨hlen, h⟩ := delimits_count _ _ _ _ hsrc.outputs hsrc'.outputs h
  exact ⟨hins, (delimits_output.flatMap_append_inj hsrc.scripts hsrc'.scripts hlen h).1⟩

/-- Where the parts are the same and in the same order, so are the messages. -/
theorem segwitMessage_inj {m m' : SegwitV0Midstate} {i : RawTxIn} {sc : Bytes} {amount : UInt64}
    {f f' : UInt32} (h : segwitMessage m i sc amount f = segwitMessage m' i sc amount f') :
    m.hashPrevouts = m'.hashPrevouts ∧ m.hashSequence = m'.hashSequence ∧
      m.hashOutputs = m'.hashOutputs ∧ f = f' := by
  rw [segwitMessage, segwitMessage] at h
  obtain ⟨-, h⟩ := delimits_le32 _ _ _ _ trivial trivial h
  obtain ⟨hprevouts, h⟩ := delimits_vec 32 _ _ _ _ trivial trivial h
  obtain ⟨hsequence, h⟩ := delimits_vec 32 _ _ _ _ trivial trivial h
  have h := List.append_cancel_left (List.append_cancel_left (List.append_cancel_left
    (List.append_cancel_left h)))
  obtain ⟨houtputs, h⟩ := delimits_vec 32 _ _ _ _ trivial trivial h
  obtain ⟨-, h⟩ := delimits_le32 _ _ _ _ trivial trivial h
  exact ⟨hprevouts, hsequence, houtputs, delimits_le32.injOn trivial trivial h⟩

/-- A message of either kind has the hash of the outpoints, or the number of inputs, behind the
version. -/
theorem hashPrevouts_prefix {src : TxSource} {n : Nat} {sc sc' : Bytes} {f f' : UInt32}
    {m : SegwitV0Midstate} {i : RawTxIn} {amount : UInt64}
    (h : legacyMessage src n sc f = segwitMessage m i sc' amount f') :
    m.hashPrevouts.toList <+: BtcVarInt.toArray src.inputCount ++
      (src.inputs.mapIdx (legacyInput n sc)).flatten ++ BtcVarInt.toArray src.outputs.length ++
      src.outputs.flatMap RawTxOut.encode ++ le32 src.locktime ++ le32 f := by
  rw [legacyMessage, segwitMessage] at h
  obtain ⟨-, h⟩ := delimits_le32 _ _ _ _ trivial trivial h
  simp only [List.append_assoc]
  rw [h]
  exact List.prefix_append _ _

theorem sized_signedOutputs {t : UInt8} {n : Nat} {outputs : List RawTxOut}
    (h : ∀ o ∈ outputs, o.Sized) : ∀ o ∈ signedOutputs t n outputs, o.Sized := by
  rw [signedOutputs]
  split_ifs
  · exact fun o ho => absurd ho List.not_mem_nil
  · intro o ho
    obtain ⟨m, hm, rfl⟩ := List.mem_mapIdx.mp ho
    split_ifs
    · exact h _ (List.mem_of_mem_take (List.getElem_mem hm))
    · exact Nat.two_pow_pos 64
  · exact h

theorem length_signedOutputs_le (t : UInt8) (n : Nat) (outputs : List RawTxOut) :
    (signedOutputs t n outputs).length ≤ outputs.length := by
  rw [signedOutputs]
  split_ifs
  · exact Nat.zero_le _
  · simp
  · exact le_rfl

theorem length_signedInputs (t : UInt8) (n : Nat) (inputs : List RawTxIn) :
    (signedInputs t n inputs).length = inputs.length := by
  rw [signedInputs]
  split_ifs <;> simp

theorem sized_legacyView {t : UInt8} {n : Nat} {src : TxSource} (h : src.Sized)
    (hn : n < src.inputs.length) : (legacyView t n src).1.Sized := by
  have houts := sized_signedOutputs (t := t) (n := n) h.scripts
  have hlen := (length_signedOutputs_le t n src.outputs).trans_lt h.outputs
  rw [legacyView]
  split_ifs
  · refine ⟨?_, ?_, hlen, houts⟩ <;> simp [TxSource.Lawful, List.getElem?_eq_getElem hn]
  · refine ⟨h.lawful.trans (length_signedInputs t n _).symm, ?_, hlen, houts⟩
    exact (length_signedInputs t n _).trans_lt h.inputs

/-- Only sequences are left out of the inputs. -/
theorem signedInputs_eq {t : UInt8} {n : Nat} {inputs : List RawTxIn}
    (h : (signedInputs t n inputs).map RawTxIn.sequence = inputs.map RawTxIn.sequence) :
    signedInputs t n inputs = inputs := by
  rw [signedInputs] at h ⊢
  split_ifs at h ⊢
  · refine List.ext_getElem? fun m => ?_
    have hm := congrArg (fun l => l[m]?) h
    simp only [List.getElem?_map, List.getElem?_mapIdx, Option.map_map] at hm ⊢
    cases hi : inputs[m]? with
    | none => rfl
    | some i =>
      rw [hi] at hm
      simp only [Option.map_some, Function.comp_apply, Option.some.injEq] at hm ⊢
      split_ifs at hm ⊢
      · rfl
      · exact congrArg (fun s => { i with sequence := s }) hm
  · rfl

theorem map_sequence_executed (n : Nat) (sc : Bytes) (inputs : List RawTxIn) :
    (inputs.mapIdx (executed n sc)).map (fun p => p.2.2) = inputs.map RawTxIn.sequence := by
  rw [List.mapIdx_eq_zipIdx_map, List.map_map]
  refine Eq.trans ?_ (congrArg (List.map RawTxIn.sequence) (List.zipIdx_map_fst 0 inputs))
  rw [List.map_map]
  rfl

/-- A digest that leaves nothing out is the network's where there is nothing to leave out. -/
theorem networkMessage_eq_iff {t : UInt8} {n : Nat} {src : TxSource} {sc : Bytes} (h : src.Sized)
    (hn : n < src.inputs.length) (hsc : sc.length < 2 ^ 64) :
    networkMessage src n sc t = legacyMessage src n sc t.toUInt32 ↔
      legacyView t n src = (src, n) := by
  constructor
  · intro heq
    obtain ⟨hins, houts⟩ := legacyMessage_inj (sized_legacyView h hn) h hsc heq
    obtain ⟨version, locktime, inputCount, inputs, outputs⟩ := src
    obtain rfl : inputCount = inputs.length := h.lawful
    rw [legacyView] at hins houts ⊢
    dsimp only at hins houts hn ⊢
    split_ifs at hins houts ⊢ with hacp
    · have hlen := congrArg List.length hins
      rw [List.length_mapIdx, List.length_mapIdx, List.getElem?_eq_getElem hn] at hlen
      obtain ⟨i, rfl⟩ := List.length_eq_one_iff.mp hlen.symm
      obtain rfl : n = 0 := Nat.lt_one_iff.mp hn
      rw [show signedOutputs t 0 outputs = outputs from houts]
      rfl
    · have hseq := congrArg (List.map fun p => p.2.2) hins
      rw [map_sequence_executed, map_sequence_executed] at hseq
      rw [signedInputs_eq hseq, show signedOutputs t n outputs = outputs from houts]
  · intro hview
    rw [networkMessage, hview]

/-- The digests of an input, where no two of the messages share one and none is a constant that
stands for a part that is left out. -/
structure DigestsApart (H : Hashes) (src : TxSource) (n : Nat) (own : RawTxIn) (amount : UInt64)
    (sc : Bytes) (flag : UInt32) : Prop where
  injOn : Set.InjOn H.dsha256 {legacyMessage src n sc flag, networkMessage src n sc flag.toUInt8,
    segwitMessage (segwitV0MidstateOf H src) own sc amount flag,
    segwitMessage (signedMidstate H src n flag.toUInt8) own sc amount flag.toUInt8.toUInt32}
  outpoints : H.dsha256 (outpointBytes src.inputs) ≠ noDigest
  sequences : H.dsha256 (sequenceBytes src.inputs) ≠ noDigest
  legacy : H.dsha256 (legacyMessage src n sc flag) ≠ digestOne
  inside : ¬ (H.dsha256 (outpointBytes src.inputs)).toList <:+: legacyMessage src n sc flag

section Digests

variable {H : Hashes} {src : TxSource} {n : Nat} {own : RawTxIn} {amount : UInt64} {sc : Bytes}
  {flag : UInt32}

theorem segwitDigest_eq_iff (hapart : DigestsApart H src n own amount sc flag) :
    (signedMidstate H src n flag.toUInt8).sighash H own sc amount flag.toUInt8.toUInt32 =
      (segwitV0MidstateOf H src).sighash H own sc amount flag ↔
    flag ≤ 0xff ∧ flag &&& 0x80 = 0 ∧ flag &&& 0x1f ≠ 2 ∧ flag &&& 0x1f ≠ 3 := by
  have hacp := toUInt8_and_eq flag 0x80 0
  have hnone := toUInt8_and_eq flag 0x1f 2
  have hsingle := toUInt8_and_eq flag 0x1f 3
  constructor
  · intro heq
    obtain ⟨hprevouts, hsequence, -, hflag⟩ := segwitMessage_inj
      (hapart.injOn (by simp) (by simp) heq)
    have hle : flag ≤ 0xff := hflag ▸ toUInt32_le _
    have hkeep : flag.toUInt8 &&& 0x80 = 0 := by
      by_contra h
      rw [signedMidstate] at hprevouts
      dsimp only at hprevouts
      rw [if_pos h] at hprevouts
      exact hapart.outpoints hprevouts.symm
    have hall (h : flag.toUInt8 &&& 0x1f = 2 ∨ flag.toUInt8 &&& 0x1f = 3) : False := by
      rw [signedMidstate] at hsequence
      dsimp only at hsequence
      rw [if_pos (Or.inr h)] at hsequence
      exact hapart.sequences hsequence.symm
    exact ⟨hle, hacp.mp hkeep, fun h => hall (Or.inl (hnone.mpr h)),
      fun h => hall (Or.inr (hsingle.mpr h))⟩
  · rintro ⟨hle, h80, h2, h3⟩
    have h80 := hacp.mpr h80
    have h2 := mt hnone.mp h2
    have h3 := mt hsingle.mp h3
    have hmid : signedMidstate H src n flag.toUInt8 = segwitV0MidstateOf H src := by
      rw [signedMidstate, segwitV0MidstateOf, if_neg (not_not.mpr h80),
        if_neg (by rintro (h | h | h) <;> contradiction), if_neg h2, if_neg h3]
    rw [hmid, toUInt32_toUInt8 hle]

theorem legacyDigest_eq_iff (hapart : DigestsApart H src n own amount sc flag) (hsrc : src.Sized)
    (hn : n < src.inputs.length) (hsc : sc.length < 2 ^ 64) :
    networkLegacy H src n sc flag.toUInt8 = .ok (H.dsha256 (legacyMessage src n sc flag)) ↔
      flag ≤ 0xff ∧ (flag &&& 0x1f = 3 → n < src.outputs.length) ∧
        legacyView flag.toUInt8 n src = (src, n) := by
  have hsingle := toUInt8_and_eq flag 0x1f 3
  rw [networkLegacy, if_neg (by rw [hsrc.lawful]; omega)]
  by_cases hnone : flag.toUInt8 &&& 0x1f = 3 ∧ src.outputs.length ≤ n
  · rw [if_pos hnone]
    refine iff_of_false ?_ fun h => absurd (h.2.1 (hsingle.mp hnone.1)) (Nat.not_lt.mpr hnone.2)
    exact fun h => hapart.legacy (Except.ok.inj h).symm
  · rw [if_neg hnone, Except.ok.injEq]
    constructor
    · intro heq
      have hmessage := hapart.injOn (by simp) (by simp) heq
      have hflag : flag.toUInt8.toUInt32 = flag := legacyMessage_flag hmessage
      refine ⟨hflag ▸ toUInt32_le _, fun h => ?_, ?_⟩
      · exact Nat.lt_of_not_le fun hle => hnone ⟨hsingle.mpr h, hle⟩
      · refine (networkMessage_eq_iff hsrc hn hsc).mp ?_
        rw [hmessage, hflag]
    · rintro ⟨hle, -, hview⟩
      rw [(networkMessage_eq_iff hsrc hn hsc).mpr hview, toUInt32_toUInt8 hle]

theorem head_toArray {v : Nat} (hpos : 0 < v) (hlt : v < 2 ^ 64) :
    (BtcVarInt.toArray v).head? ≠ some 0 := by
  rw [BtcVarInt.toArray]
  split_ifs with h
  · intro hz
    have hz := congrArg UInt8.toNat (Option.some.inj hz)
    rw [UInt8.toNat_ofNat', Nat.mod_eq_of_lt (by omega)] at hz
    exact hpos.ne' hz
  all_goals exact fun hz => absurd (Option.some.inj hz) (by decide)

/-- A digest of the one kind is none of the other. -/
theorem segwitDigest_ne_legacy (hapart : DigestsApart H src n own amount sc flag) (hsrc : src.Sized)
    (hn : n < src.inputs.length) :
    (signedMidstate H src n flag.toUInt8).sighash H own sc amount flag.toUInt8.toUInt32 ≠
      H.dsha256 (legacyMessage src n sc flag) := by
  intro heq
  have hmessage := hapart.injOn (Or.inr (Or.inr (Or.inr rfl))) (Or.inl rfl) heq
  have hprefix := hashPrevouts_prefix hmessage.symm
  rw [signedMidstate] at hprefix
  dsimp only at hprefix
  split_ifs at hprefix with hacp
  · have hhead := head_toArray (v := src.inputCount) (by rw [hsrc.lawful]; omega)
      (hsrc.lawful ▸ hsrc.inputs)
    obtain ⟨b, bs, hb⟩ := List.exists_cons_of_ne_nil (BtcVarInt.toArray_ne_nil src.inputCount)
    rw [hb] at hprefix hhead
    refine hhead ?_
    obtain ⟨rest, hrest⟩ := hprefix
    exact (congrArg List.head? hrest).symm
  · refine hapart.inside ((List.IsPrefix.isInfix hprefix).trans (List.IsSuffix.isInfix ⟨le32 src.version, ?_⟩))
    simp only [legacyMessage, List.append_assoc]

end Digests

section Signed

variable {C : Purecrypto} {keys : List (BtcTxSign C)} {tx tx' : BtcTx} {n : Nat}
  {k : BtcTxSign C} {i i' : BtcTxInput} {key : Signer C} {scheme : Scheme} {pk : SecpPublicKey C}

/-- The digest of the plan is the only one that is asked for. -/
theorem asked_iff (hsign : BtcTx.sign C keys tx = (.ok (), tx')) (hk : keys[n]? = some k)
    (hi : tx.inputs[n]? = some i) (hkey : k.key = some key) {p : Plan}
    (hp : plan keys tx.source n k i key = .ok p) (digest : ByteVec 32) :
    Asked keys tx tx' n k key digest ↔ digest = p.digest := by
  constructor
  · intro hasked
    have hk' : (keys.set n { k with key := some (key.only digest) })[n]? =
        some { k with key := some (key.only digest) } := by
      rw [List.getElem?_set_self (List.getElem?_eq_some_iff.mp hk).1]
    obtain ⟨i', -, hsigned⟩ := signed_at hasked hk' hi
    obtain ⟨key', q, sig, hkey', hq, hsig, -⟩ := signedInput_eq_ok.mp hsigned
    obtain rfl : key.only digest = key' := Option.some.inj hkey'
    have hsame : plan (keys.set n { k with key := some (key.only digest) }) tx.source n
        { k with key := some (key.only digest) } i (key.only digest) = .ok p :=
      (plan_congr (map_prevout_set hk _) rfl _).trans hp
    obtain rfl : p = q := Except.ok.inj (hsame.symm.trans hq)
    by_contra hne
    have hne : p.digest ≠ digest := fun h => hne h.symm
    cases hask : p.ask with
    | ecdsa sighash =>
      rw [hask, Ask.answer, ecdsaSignature] at hsig
      simp [Signer.only, hne, okOr] at hsig
    | p2tr hashType =>
      rw [hask, Ask.answer, p2trSignature] at hsig
      cases htap : k.tapLeaf <;> simp [htap, Signer.only, hne, okOr] at hsig
  · rintro rfl
    exact asked_of_plan hsign hk hi hkey hp

theorem length_keyScript (script : KeyScript) :
    (generateScript C pk (.script script)).length ≤ 67 := by
  cases script <;> simp [generateScript]

/-- Where the signature is, what is executed, and which digest it has. -/
structure Placed (pk : SecpPublicKey C) (scheme : Scheme) (flag : UInt32) (spend : EcdsaSpend)
    (sig : Bytes) (i : BtcTxInput) : Prop where
  signature : placedSignature (spend.place sig i) scheme = some sig
  executed : executedScript pk (spend.place sig i) scheme = spend.scriptCode
  short : spend.scriptCode.length ≤ 67
  segwit : spend.segwit = true ↔ scheme.isSegwit = true ∨ scheme ≠ .p2pk ∧ flag &&& 0x40 ≠ 0

theorem placedSignature_push {i : BtcTxInput} {sig rest : Bytes} (hsig : sig.length < 2 ^ 32)
    (hscheme : scheme.isSegwit = false) (hscript : i.script = pushBytes sig ++ rest) :
    placedSignature i scheme = some sig := by
  rw [placedSignature, hscheme, if_neg Bool.false_ne_true, hscript, parsePushBytes_pushBytes hsig]
  rfl

theorem forkId_iff (flag : UInt32) : flag &&& 0x40 = 0x40 ↔ flag &&& 0x40 ≠ 0 := by
  have hset : _ ↔ flag &&& 0x40 = 0x40 := toUInt8_and_eq flag 0x40 0x40
  have hclear : _ ↔ flag &&& 0x40 = 0 := toUInt8_and_eq flag 0x40 0
  rw [← hset, Ne, ← hclear]
  refine forall_byte (p := fun b => b &&& 0x40 = 0x40 ↔ ¬ b &&& 0x40 = 0) ?_ flag.toUInt8
  decide +kernel

theorem placed_pubkeyHash {sig : Bytes} (hsig : sig.length < 2 ^ 32) (flag : UInt32)
    (i : BtcTxInput) {script : KeyScript} {name : Format}
    (h : scheme = .p2pkh ∧ script = .p2pkh ∧ name = .comp ∨
      scheme = .p2pukh ∧ script = .p2pukh ∧ name = .uncomp) :
    Placed pk scheme flag (pubkeyHashSpend C pk scheme script name flag) sig i := by
  have hfork := forkId_iff flag
  rw [pubkeyHashSpend]
  split_ifs with hflag
  · have hsegwit : scheme ≠ .p2pk := by
      rcases h with ⟨rfl, -⟩ | ⟨rfl, -⟩ <;> decide
    rcases h with ⟨rfl, rfl, rfl⟩ | ⟨rfl, rfl, rfl⟩
    · exact ⟨placedSignature_push hsig rfl rfl, rfl, length_keyScript .p2pkh,
        iff_of_true rfl (Or.inr ⟨hsegwit, hfork.mp hflag⟩)⟩
    · exact ⟨placedSignature_push hsig rfl rfl, rfl, length_keyScript .p2pukh,
        iff_of_true rfl (Or.inr ⟨hsegwit, hfork.mp hflag⟩)⟩
  · have hlegacy : ¬ (scheme.isSegwit = true ∨ scheme ≠ .p2pk ∧ flag &&& 0x40 ≠ 0) := by
      rintro (hsegwit | ⟨-, hset⟩)
      · rcases h with ⟨rfl, -⟩ | ⟨rfl, -⟩ <;> cases hsegwit
      · exact hflag (hfork.mpr hset)
    rcases h with ⟨rfl, rfl, rfl⟩ | ⟨rfl, rfl, rfl⟩
    · exact ⟨placedSignature_push hsig rfl rfl, rfl, length_keyScript .p2pkh,
        iff_of_false Bool.false_ne_true hlegacy⟩
    · exact ⟨placedSignature_push hsig rfl rfl, rfl, length_keyScript .p2pukh,
        iff_of_false Bool.false_ne_true hlegacy⟩

theorem placed_witnessScript {sig : Bytes} (flag : UInt32) (i : BtcTxInput) (inner : KeyScript)
    (hscheme : scheme = .p2wsh ∨ ∃ inner, scheme = .p2wshOf inner) :
    Placed pk scheme flag (witnessScriptSpend C pk inner) sig i := by
  have hlast : (sig :: (innerItems C pk inner ++ [generateScript C pk (.script inner)])).getLast?.getD
      [] = generateScript C pk (.script inner) := by
    rw [← List.cons_append, List.getLast?_concat, Option.getD_some]
  rcases hscheme with rfl | ⟨_, rfl⟩ <;>
    exact ⟨rfl, hlast, length_keyScript inner, iff_of_true rfl (Or.inl rfl)⟩

theorem placed {spend : EcdsaSpend} {script sig : Bytes} {flag : UInt32}
    (h : ecdsaSpend C pk script flag scheme = .ok spend) (hsig : sig.length < 2 ^ 32)
    (i : BtcTxInput) : Placed pk scheme flag spend sig i := by
  cases scheme with
  | p2pk =>
    cases h
    refine ⟨placedSignature_push hsig rfl (List.append_nil _).symm, rfl, length_keyScript .p2pk, ?_⟩
    exact iff_of_false Bool.false_ne_true
      fun h => h.elim Bool.false_ne_true fun h => h.1 rfl
  | p2pkh => cases h; exact placed_pubkeyHash hsig flag i (Or.inl ⟨rfl, rfl, rfl⟩)
  | p2pukh => cases h; exact placed_pubkeyHash hsig flag i (Or.inr ⟨rfl, rfl, rfl⟩)
  | p2wpkh => cases h; exact ⟨rfl, rfl, length_keyScript .p2pkh, iff_of_true rfl (Or.inl rfl)⟩
  | p2shP2wpkh => cases h; exact ⟨rfl, rfl, length_keyScript .p2pkh, iff_of_true rfl (Or.inl rfl)⟩
  | p2wsh =>
    rw [ecdsaSpend] at h
    cases hinner : detectInner C script pk with
    | none => rw [hinner] at h; cases h
    | some inner =>
      rw [hinner] at h
      cases h
      exact placed_witnessScript flag i inner (Or.inl rfl)
  | p2wshOf inner => cases h; exact placed_witnessScript flag i inner (Or.inr ⟨inner, rfl⟩)
  | p2tr => cases h

/-- What is signed under a flag is the network's digest for its low byte exactly where the flag is
honoured. -/
theorem networkDigest_eq_iff {src : TxSource} {spend : EcdsaSpend} {sig : Bytes}
    {digest : ByteVec 32} (hsrc : src.Sized) (hn : n < src.inputs.length)
    (hplaced : Placed pk scheme k.flag spend sig i) (hraw : i'.raw = i.raw)
    (hapart : DigestsApart C.toHashes src n i.raw k.amount spend.scriptCode k.flag)
    (hdigest : ecdsaDigestOf keys src n k i spend.scriptCode spend.segwit k.flag = .ok digest) :
    networkDigest keys src n k i' scheme spend.scriptCode k.flag.toUInt8 = .ok digest ↔
      Honoured scheme k.flag n src := by
  have hunified : k.flag.toUInt8 &&& 0x20 = 0 ↔ k.flag &&& 0x20 = 0 := toUInt8_and_eq k.flag 0x20 0
  have hfork : k.flag.toUInt8 &&& 0x40 = 0 ↔ k.flag &&& 0x40 = 0 := toUInt8_and_eq k.flag 0x40 0
  have hsegwit := hplaced.segwit
  have hshort : spend.scriptCode.length < 2 ^ 64 := hplaced.short.trans_lt (by norm_num)
  rw [ecdsaDigestOf, optsUnified] at hdigest
  simp only [networkDigest, Honoured, ne_eq, hunified, hfork]
  by_cases h20 : k.flag &&& 0x20 = 0
  · rw [if_neg (by simpa using h20)] at hdigest
    rw [if_neg (not_not.mpr h20), or_iff_right (not_not.mpr h20)]
    by_cases hkind : scheme.isSegwit = true ∨ ¬ k.flag &&& 0x40 = 0
    · rw [if_pos hkind, if_pos hkind, Except.ok.injEq, hraw]
      by_cases hp2pk : scheme = .p2pk
      · have hlegacy : spend.segwit = false := by
          rw [← Bool.not_eq_true, hsegwit]
          rintro (h | h)
          · rw [hp2pk] at h
            cases h
          · exact h.1 hp2pk
        rw [hlegacy, if_neg Bool.false_ne_true, legacySighashOf, if_neg (by rw [hsrc.lawful]; omega)]
          at hdigest
        cases hdigest
        exact iff_of_false (segwitDigest_ne_legacy hapart hsrc hn) fun h => h.2.1 hp2pk
      · rw [if_pos (hsegwit.mpr (hkind.imp_right fun h => ⟨hp2pk, h⟩))] at hdigest
        cases hdigest
        refine (segwitDigest_eq_iff hapart).trans (and_congr_right fun _ => ?_)
        exact (and_iff_right hp2pk).symm
    · have hlegacy : spend.segwit = false := by
        rw [← Bool.not_eq_true, hsegwit]
        exact fun h => hkind (h.imp_right And.right)
      rw [hlegacy, if_neg Bool.false_ne_true, legacySighashOf, if_neg (by rw [hsrc.lawful]; omega)]
        at hdigest
      cases hdigest
      rw [if_neg hkind, if_neg hkind]
      exact legacyDigest_eq_iff hapart hsrc hn hshort
  · rw [if_pos (by simpa using h20)] at hdigest
    rw [if_pos h20]
    refine iff_of_true ?_ (Or.inl h20)
    by_cases hbyte : k.flag ≤ 0xff ∧ k.flag &&& 0x40 = 0
    · have hsame : spend.segwit = scheme.isSegwit := by
        rw [Bool.eq_iff_iff, hsegwit, or_iff_left]
        exact fun h => h.2 hbyte.2
      rwa [if_pos hbyte, hsame] at hdigest
    · rw [if_neg hbyte] at hdigest
      cases hdigest

/-- Each ECDSA signature that signing places is of the digest that the network computes for the
hash type behind it, exactly where the entry's flag is honoured. -/
theorem signs_network_digest_iff (hsign : BtcTx.sign C keys tx = (.ok (), tx'))
    (hk : keys[n]? = some k) (hi : tx.inputs[n]? = some i) (hi' : tx'.inputs[n]? = some i')
    (hkey : k.key = some key) (hscheme : Scheme.parse k.scheme = some scheme)
    (hne : scheme ≠ .p2tr) (hpk : key.ecdsaPublicKey = some pk) (hsrc : tx'.source.Sized)
    (hapart : DigestsApart C.toHashes tx'.source n i'.raw k.amount (executedScript pk i' scheme)
      k.flag) :
    (∃ sig t digest, placedSignature i' scheme = some (sig ++ [t]) ∧
        networkDigest keys tx'.source n k i' scheme (executedScript pk i' scheme) t = .ok digest ∧
        Asked keys tx tx' n k key digest) ↔
      Honoured scheme k.flag n tx'.source := by
  have hn : n < tx'.source.inputs.length := by
    have hn := (List.getElem?_eq_some_iff.mp hi').1
    exact hn.trans_eq (List.length_map _).symm
  have hsource := (sign_eq_ok.mp hsign).2.2.source
  obtain ⟨i₁, hi₁, hsigned⟩ := signed_at hsign hk hi
  obtain rfl : i' = i₁ := Option.some.inj (hi'.symm.trans hi₁)
  obtain ⟨key₁, p, sig, hkey₁, hp, hsig, hplace⟩ := signedInput_eq_ok.mp hsigned
  obtain rfl : key = key₁ := Option.some.inj (hkey.symm.trans hkey₁)
  have hasked := asked_iff hsign hk hi hkey hp
  have hraw : i'.raw = i.raw := hplace ▸ keepsRaw_plan hp sig i
  rcases plan_eq_ok.mp hp with ⟨scheme', pk', spend, digest, hs, -, hpk', hspend, hdigest, rfl⟩ |
    ⟨hashType, scriptPath, digest, hs, -⟩
  · obtain rfl : scheme = scheme' := Option.some.inj (hscheme.symm.trans hs)
    obtain rfl : pk = pk' := Option.some.inj (hpk.symm.trans hpk')
    obtain ⟨der, -, hsigEq⟩ := bind_eq_ok.mp hsig
    obtain rfl : der.bytes ++ [k.flag.toUInt8] = sig := Except.ok.inj hsigEq
    have hplaced : Placed pk scheme k.flag spend (der.bytes ++ [k.flag.toUInt8]) i := by
      refine placed hspend ?_ i
      have hlen := der.length_bytes
      rw [List.length_append, List.length_singleton]
      omega
    have hexecuted : executedScript pk i' scheme = spend.scriptCode := hplace ▸ hplaced.executed
    have hsignature := hplaced.signature
    rw [← show i' = spend.place _ i from hplace] at hsignature
    rw [← hsource] at hdigest
    rw [hexecuted, hraw] at hapart
    rw [hexecuted, ← networkDigest_eq_iff hsrc hn hplaced hraw hapart hdigest]
    constructor
    · rintro ⟨sig', t, d, hplaced', hd, hasks⟩
      obtain ⟨-, ht⟩ := List.append_inj' (Option.some.inj (hsignature.symm.trans hplaced')) rfl
      obtain rfl : k.flag.toUInt8 = t := List.singleton_inj.mp ht
      rw [hd, (hasked d).mp hasks]
    · intro hd
      exact ⟨der.bytes, k.flag.toUInt8, digest, hsignature, hd, (hasked digest).mpr rfl⟩
  · exact absurd (Option.some.inj (hscheme.symm.trans hs)) hne

end Signed

/-! ## A sample input -/

/-- A hash that tells the sums of the bytes apart. -/
def Purecrypto.bySum : Purecrypto :=
  { Purecrypto.blank with
    sha256 := fun b => (b.foldl (· + ·) 0 + UInt8.ofNat b.length) ::ᵥ List.Vector.replicate 31 5 }

def bySumSigner : Signer Purecrypto.bySum where
  ecdsaPublicKey := some (List.Vector.replicate 32 7, List.Vector.replicate 32 8)
  signEcdsaDer _ := some (derEncode (List.Vector.replicate 32 3) (List.Vector.replicate 32 4))
  signTaprootWithRoot _ _ := none
  signSchnorr _ := none

/-- One input with a witness for a key hash. -/
def keyHashTx : BtcTx where
  version := 2
  inputs := [⟨List.Vector.replicate 32 9, 1, [], 0xfffffffd, []⟩]
  outputs := [⟨900, 0, [0x51]⟩]
  locktime := 0

def keyHashEntry : BtcTxSign Purecrypto.bySum :=
  ⟨some bySumSigner, "p2wpkh", 1000, 0, [], none, none⟩

def keyHashSigned : BtcTx := (BtcTx.sign Purecrypto.bySum [keyHashEntry] keyHashTx).2

/-- What is hashed for the input. -/
def keyHashMessages : List Bytes :=
  let src := keyHashSigned.source
  let own := (keyHashSigned.input 0).raw
  let sc := executedScript (C := Purecrypto.bySum)
    (List.Vector.replicate 32 7, List.Vector.replicate 32 8) (keyHashSigned.input 0) .p2wpkh
  let H := Purecrypto.bySum.toHashes
  [legacyMessage src 0 sc 1, networkMessage src 0 sc 1,
    segwitMessage (segwitV0MidstateOf H src) own sc 1000 1,
    segwitMessage (signedMidstate H src 0 1) own sc 1000 1]

theorem digestsApart_sample :
    DigestsApart Purecrypto.bySum.toHashes keyHashSigned.source 0 (keyHashSigned.input 0).raw 1000
      (executedScript (C := Purecrypto.bySum) (List.Vector.replicate 32 7, List.Vector.replicate 32 8)
        (keyHashSigned.input 0) .p2wpkh) 1 := by
  refine ⟨?_, by decide +kernel, by decide +kernel, by decide +kernel, by decide +kernel⟩
  have hlist : ∀ a ∈ keyHashMessages, ∀ b ∈ keyHashMessages,
      Purecrypto.bySum.dsha256 a = Purecrypto.bySum.dsha256 b → a = b := by
    decide +kernel
  intro a ha b hb
  exact hlist a (by simpa [keyHashMessages] using ha) b (by simpa [keyHashMessages] using hb)

theorem signs_network_digest_sample : ∃ tx' sig t digest,
    BtcTx.sign Purecrypto.bySum [keyHashEntry] keyHashTx = (.ok (), tx') ∧
      placedSignature (tx'.input 0) .p2wpkh = some (sig ++ [t]) ∧
      Asked [keyHashEntry] keyHashTx tx' 0 keyHashEntry bySumSigner digest := by
  have hsign : BtcTx.sign Purecrypto.bySum [keyHashEntry] keyHashTx = (.ok (), keyHashSigned) :=
    Prod.ext (by decide) rfl
  have hscripts : keyHashSigned.source.outputs = [⟨900, [0x51]⟩] := by decide
  obtain ⟨sig, t, digest, hplaced, -, hasked⟩ := (signs_network_digest_iff hsign (n := 0) rfl rfl
    rfl rfl (show Scheme.parse "p2wpkh" = some .p2wpkh by decide) (by decide) rfl
    ⟨rfl, by decide, by decide, by simp [hscripts, RawTxOut.Sized]⟩ digestsApart_sample).mpr
    (Or.inr ⟨by decide, by decide, by decide, by decide, by decide⟩)
  exact ⟨keyHashSigned, sig, t, digest, hsign, hplaced, hasked⟩

end Outscript
