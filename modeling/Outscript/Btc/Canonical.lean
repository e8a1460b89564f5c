import Outscript.Btc.Tx
import Outscript.Library.Stricter

/-!
# Canonical transactions

A serialized transaction is canonical when its counts have their shortest form,
its flag is one, a marker announces a witness that is there, and nothing stands
behind it. These are the strings that the serializer writes again.
-/
namespace Outscript.BtcTx

open ByteString Cursor

/-! ## The reader over its counts and its flag -/

section With

variable (count : ByteSource Nat)

def varBufWith : ByteSource Bytes := do
  let ln ← count
  if ln = 0 then return []
  else if 100000 < ln then throw .tooLarge
  else take .eof ln

def txInputWith : ByteSource BtcTxInput := do
  let txid ← takeVec .eof 32
  let vout ← readU32le
  let script ← varBufWith count
  let sequence ← readU32le
  return { txid := txid.reverse, vout, script, sequence, witnesses := [] }

def txOutputWith (idx : Nat) : ByteSource BtcTxOutput := do
  let amount ← readU64le
  let script ← varBufWith count
  return { amount, n := idx, script }

def txOutputsWith (idx : Nat) : Nat → ByteSource (List BtcTxOutput)
  | 0 => pure []
  | cnt + 1 => do
    let o ← txOutputWith count idx
    let os ← txOutputsWith (idx + 1) cnt
    return o :: os

def witnessWith (inp : BtcTxInput) : ByteSource BtcTxInput := do
  let wc ← count
  let ws ← many (varBufWith count) wc
  return { inp with witnesses := ws }

def witnessesWith (segwit : Bool) (inputs : List BtcTxInput) : ByteSource (List BtcTxInput) :=
  if segwit then inputs.mapM (witnessWith count) else pure inputs

variable (flag : ByteSource UInt8)

def inCountWith : ByteSource (Nat × Bool) := do
  let inCnt ← count
  if inCnt = 0 then do
    let _ ← flag
    let inCnt ← count
    return (inCnt, true)
  else return (inCnt, false)

/-- Whether there was a marker, and the transaction. -/
def sourceWith : ByteSource (Bool × BtcTx) := do
  let version ← readU32le
  let (inCnt, segwit) ← inCountWith count flag
  require (inCnt ≤ 10000) .tooLarge
  let inputs ← many (txInputWith count) inCnt
  let outCnt ← count
  require (outCnt ≤ 65536) .tooLarge
  let outputs ← txOutputsWith count 0 outCnt
  let inputs ← witnessesWith count segwit inputs
  let locktime ← readU32le
  return (segwit, { version, inputs, outputs, locktime })

end With

theorem readTxOutputs_eq (idx n : Nat) : readTxOutputs idx n = txOutputsWith readVarint idx n := by
  induction n generalizing idx with
  | zero => rfl
  | succ n ih =>
    rw [readTxOutputs, txOutputsWith, ih]
    rfl

theorem readSource_eq : readSource = sourceWith readVarint readU8 >>= fun r => pure r.2 := by
  rw [readSource, sourceWith]
  simp only [bind_assoc, pure_bind, readTxOutputs_eq]
  rfl

/-! ## Canonical strings -/

/-- A count in its shortest form. -/
def canonicalCount : ByteSource Nat := do
  let t ← item .eof
  let wide ← take .eof (varintExtra t)
  let v := ((BtcVarInt.decode (varintBuf t wide)).map Prod.fst).getD 0
  require (BtcVarInt.len v = 1 + wide.length) .tooLarge
  return v

def canonicalFlag : ByteSource UInt8 := do
  let flag ← item .eof
  require (flag = 1) .tooLarge
  return flag

def readCanonical : ByteSource BtcTx := do
  let (segwit, tx) ← sourceWith canonicalCount canonicalFlag
  require (segwit = true → tx.hasWitness = true) .tooLarge
  return tx

/-- The strict reader takes the whole string. -/
def Canonical (buf : Bytes) : Prop :=
  ∃ r, readCanonical.run (start buf) = .ok r ∧ r.2.rest = []

/-! ## Parts -/

theorem tightens_u32le : Tightens readU32le readU32le fun v e => e = le32 v := by
  refine ((Tightens.of_decodes (decodes_take ReadError.eof 4)).bind fun b =>
    Tightens.pure (UInt32.ofNat (leVal b))).mono ?_
  rintro v e ⟨_, b, _, ⟨hlen, rfl⟩, ⟨rfl, rfl⟩, rfl⟩
  have hlt := leVal_lt b
  have hle := le_leVal b
  rw [hlen] at hlt hle
  rw [le32, UInt32.toNat_ofNat_of_lt' hlt, hle, List.append_nil]

theorem tightens_u64le : Tightens readU64le readU64le fun v e => e = le64 v := by
  refine ((Tightens.of_decodes (decodes_take ReadError.eof 8)).bind fun b =>
    Tightens.pure (UInt64.ofNat (leVal b))).mono ?_
  rintro v e ⟨_, b, _, ⟨hlen, rfl⟩, ⟨rfl, rfl⟩, rfl⟩
  have hlt := leVal_lt b
  have hle := le_leVal b
  rw [hlen] at hlt hle
  rw [le64, UInt64.toNat_ofNat_of_lt' hlt, hle, List.append_nil]

theorem tightens_flag : Tightens readU8 canonicalFlag fun _ e => e = [1] where
  agrees c r hrun := by
    obtain ⟨flag, c'⟩ := r
    obtain ⟨b, c₁, hitem, hrun⟩ := run_bind_ok.mp hrun
    obtain ⟨-, hrun⟩ := of_run_require_bind hrun
    obtain ⟨rfl, rfl⟩ := run_pure_ok.mp hrun
    exact hitem
  takes c b c' hrun := by
    obtain ⟨-, hrest, -⟩ := (decodes_item ReadError.eof _ _ _).mp hrun
    refine ⟨[b], [1], rfl, hrest, le_rfl, ?_⟩
    rw [List.singleton_inj, eq_comm (a := 1)]
    constructor
    · intro hstrict
      obtain ⟨b', c₁, hitem, hstrict⟩ := run_bind_ok.mp hstrict
      obtain ⟨hone, hstrict⟩ := of_run_require_bind hstrict
      obtain ⟨rfl, rfl⟩ := run_pure_ok.mp hstrict
      exact hone
    · intro hone
      exact run_bind_ok.mpr ⟨b, c', hrun, (run_require_bind hone _).trans (run_pure_ok.mpr ⟨rfl, rfl⟩)⟩

/-- A first byte and as many others as it tells are a count, whatever follows. -/
theorem decode_wide {t : UInt8} {wide : Bytes} (h : wide.length = varintExtra t) :
    ∃ v, ∀ r, BtcVarInt.decode (t :: (wide ++ r)) = some (v, 1 + wide.length) := by
  rw [varintExtra] at h
  split_ifs at h with h₁ h₂ h₃
  · subst h₁
    exact ⟨_, fun r => by rw [BtcVarInt.decode_two r wide h, h]⟩
  · subst h₂
    exact ⟨_, fun r => by rw [BtcVarInt.decode_four r wide h, h]⟩
  · subst h₃
    exact ⟨_, fun r => by rw [BtcVarInt.decode_eight r wide h, h]⟩
  · obtain rfl := List.eq_nil_of_length_eq_zero h
    exact ⟨t.toNat, fun r => by
      rw [BtcVarInt.decode, if_neg h₁, if_neg h₂, if_neg h₃]
      rfl⟩

theorem tightens_count :
    Tightens readVarint canonicalCount fun v e => e = BtcVarInt.toArray v where
  agrees c r hrun := by
    obtain ⟨v, c'⟩ := r
    obtain ⟨t, c₁, hitem, hrun⟩ := run_bind_ok.mp hrun
    obtain ⟨wide, c₂, htake, hrun⟩ := run_bind_ok.mp hrun
    obtain ⟨-, hrun⟩ := of_run_require_bind hrun
    exact run_bind_ok.mpr ⟨t, c₁, hitem, run_bind_ok.mpr ⟨wide, c₂, htake, hrun⟩⟩
  takes c v c' hrun := by
    obtain ⟨t, c₁, hitem, hrun⟩ := run_bind_ok.mp hrun
    obtain ⟨wide, c₂, htake, hrun⟩ := run_bind_ok.mp hrun
    obtain ⟨rfl, rfl⟩ := run_pure_ok.mp hrun
    obtain ⟨-, hrest, -⟩ := (decodes_item ReadError.eof _ _ _).mp hitem
    obtain ⟨hlen, hrest', -⟩ := (decodes_take ReadError.eof _ _ _ _).mp htake
    obtain ⟨v, hv⟩ := decode_wide hlen
    have hval : ((BtcVarInt.decode (varintBuf t wide)).map Prod.fst).getD 0 = v := by
      rw [varintBuf, hv]
      rfl
    have hdecode := hv []
    rw [List.append_nil] at hdecode
    rw [hval]
    refine ⟨t :: wide, BtcVarInt.toArray v, rfl, ?_, ?_, ?_⟩
    · rw [hrest, hrest']
      rfl
    · have hle := (BtcVarInt.len_le_of_decode hdecode).2.1
      rw [BtcVarInt.length_toArray, List.length_cons]
      omega
    constructor
    · intro hstrict
      obtain ⟨t', c₁', hitem', hstrict⟩ := run_bind_ok.mp hstrict
      cases hitem.symm.trans hitem'
      obtain ⟨wide', c₂', htake', hstrict⟩ := run_bind_ok.mp hstrict
      cases htake.symm.trans htake'
      obtain ⟨hshort, -⟩ := of_run_require_bind hstrict
      rw [hval] at hshort
      obtain ⟨-, r, heq⟩ := BtcVarInt.eq_toArray_of_decode hdecode hshort
      have hcount := congrArg List.length heq
      rw [List.length_append, BtcVarInt.length_toArray, List.length_cons] at hcount
      have hnil : r = [] := List.eq_nil_of_length_eq_zero (by omega)
      rw [heq, hnil, List.append_nil]
    · intro heq
      have hshort : BtcVarInt.len v = 1 + wide.length := by
        rw [← BtcVarInt.length_toArray, heq, List.length_cons, Nat.add_comm]
      refine run_bind_ok.mpr ⟨t, c₁, hitem, run_bind_ok.mpr ⟨wide, c₂, htake, ?_⟩⟩
      rw [run_require_bind (by rw [hval]; exact hshort), hval]
      exact run_pure_ok.mpr ⟨rfl, rfl⟩

section Parts

variable {count strict : ByteSource Nat} {flag strictFlag : ByteSource UInt8}
  (hcount : Tightens count strict fun v e => e = BtcVarInt.toArray v)
  (hflag : Tightens flag strictFlag fun _ e => e = [1])

include hcount

theorem tightens_varBuf : Tightens (varBufWith count) (varBufWith strict) fun s e => e = varSlice s := by
  refine (hcount.bind (S := fun ln s e => s.length = ln ∧ e = s) fun ln => ?_).mono ?_
  · refine Tightens.ite (fun hzero => ?_) fun _ => Tightens.ite (fun _ => Tightens.throw _ _) fun _ => ?_
    · refine (Tightens.pure []).mono ?_
      rintro s e ⟨rfl, rfl⟩
      exact ⟨hzero.symm, rfl⟩
    · exact (Tightens.of_decodes (decodes_take _ ln)).mono fun _ _ h => h
  · rintro s e ⟨ln, _, _, rfl, ⟨rfl, rfl⟩, rfl⟩
    rfl

theorem tightens_input : Tightens (txInputWith count) (txInputWith strict) fun i e =>
    i.witnesses = [] ∧ e = i.bytes := by
  refine ((Tightens.of_decodes (decodes_takeVec _ 32)).bind fun txid => tightens_u32le.bind fun vout =>
    (tightens_varBuf hcount).bind fun script => tightens_u32le.bind fun sequence =>
      Tightens.pure _).mono ?_
  rintro i e ⟨txid, _, _, ⟨-, rfl⟩, ⟨vout, _, _, rfl, ⟨script, _, _, rfl, ⟨sequence, _, _, rfl,
    ⟨rfl, rfl⟩, rfl⟩, rfl⟩, rfl⟩, rfl⟩
  refine ⟨rfl, ?_⟩
  rw [BtcTxInput.bytes, List.append_nil, List.Vector.reverse_reverse]

theorem tightens_output (idx : Nat) :
    Tightens (txOutputWith count idx) (txOutputWith strict idx) fun o e => e = o.bytes := by
  refine (tightens_u64le.bind fun amount => (tightens_varBuf hcount).bind fun script =>
    Tightens.pure _).mono ?_
  rintro o e ⟨amount, _, _, rfl, ⟨script, _, _, rfl, ⟨rfl, rfl⟩, rfl⟩, rfl⟩
  rw [BtcTxOutput.bytes, List.append_nil]

theorem tightens_outputs (idx n : Nat) :
    Tightens (txOutputsWith count idx n) (txOutputsWith strict idx n) fun os e =>
      os.length = n ∧ e = os.flatMap BtcTxOutput.bytes := by
  induction n generalizing idx with
  | zero =>
    refine (Tightens.pure []).mono ?_
    rintro os e ⟨rfl, rfl⟩
    exact ⟨rfl, rfl⟩
  | succ n ih =>
    refine ((tightens_output hcount idx).bind fun o => (ih (idx + 1)).bind fun os =>
      Tightens.pure (o :: os)).mono ?_
    rintro l e ⟨o, _, _, rfl, ⟨os, _, _, ⟨hlen, rfl⟩, ⟨rfl, rfl⟩, rfl⟩, rfl⟩
    exact ⟨congrArg Nat.succ hlen, by simp⟩

theorem tightens_witness (inp : BtcTxInput) :
    Tightens (witnessWith count inp) (witnessWith strict inp) fun i e =>
      i.bytes = inp.bytes ∧ e = i.witnessBytes := by
  have hbuf : Tightens (varBufWith count) (varBufWith strict) fun s e => True ∧ e = varSlice s :=
    (tightens_varBuf hcount).mono fun _ _ h => ⟨trivial, h⟩
  refine (hcount.bind fun wc => (hbuf.many wc).bind fun ws => Tightens.pure _).mono ?_
  rintro i e ⟨wc, _, _, rfl, ⟨ws, _, _, ⟨⟨rfl, -⟩, rfl⟩, ⟨rfl, rfl⟩, rfl⟩, rfl⟩
  refine ⟨rfl, ?_⟩
  rw [BtcTxInput.witnessBytes, List.append_nil]

/-- Inputs keep everything but their witnesses. -/
theorem tightens_witnesses (segwit : Bool) (inputs : List BtcTxInput) :
    Tightens (witnessesWith count segwit inputs) (witnessesWith strict segwit inputs) fun is e =>
      (is.length = inputs.length ∧ is.flatMap BtcTxInput.bytes = inputs.flatMap BtcTxInput.bytes ∧
        (segwit = false → is = inputs)) ∧
      e = if segwit then is.flatMap BtcTxInput.witnessBytes else [] := by
  cases segwit with
  | false =>
    refine (Tightens.pure inputs).mono ?_
    rintro is e ⟨rfl, rfl⟩
    exact ⟨⟨rfl, rfl, fun _ => rfl⟩, rfl⟩
  | true =>
    refine (Tightens.mapM (tightens_witness hcount) inputs).mono ?_
    rintro is e ⟨hall, rfl⟩
    refine ⟨⟨hall.length_eq.symm, ?_, fun h => nomatch h⟩, rfl⟩
    induction hall with
    | nil => rfl
    | cons hi _ ih => rw [List.flatMap_cons, List.flatMap_cons, hi, ih]

include hflag

theorem tightens_inCount :
    Tightens (inCountWith count flag) (inCountWith strict strictFlag) fun r e =>
      e = (if r.2 then [0, 1] else []) ++ BtcVarInt.toArray r.1 := by
  refine (hcount.bind (S := fun inCnt r e =>
    BtcVarInt.toArray inCnt ++ e = (if r.2 then [0, 1] else []) ++ BtcVarInt.toArray r.1)
      fun inCnt => ?_).mono ?_
  · refine Tightens.ite (fun hzero => ?_) fun _ => ?_
    · refine (hflag.bind fun _ => hcount.bind fun inCnt => Tightens.pure (inCnt, true)).mono ?_
      rintro r e ⟨_, _, _, rfl, ⟨n, _, _, rfl, ⟨rfl, rfl⟩, rfl⟩, rfl⟩
      rw [hzero, List.append_nil]
      rfl
    · refine (Tightens.pure (inCnt, false)).mono ?_
      rintro r e ⟨rfl, rfl⟩
      rw [List.append_nil]
      rfl
  · rintro r e ⟨inCnt, _, e₂, rfl, hall, rfl⟩
    exact hall

/-- The canonical string of what is read is what the serializer writes when it is told of the
marker. -/
theorem tightens_source :
    Tightens (sourceWith count flag) (sourceWith strict strictFlag) fun r e =>
      e = r.2.exportBytes r.1 ∧ (r.1 = false → r.2.hasWitness = false) := by
  refine (tightens_u32le.bind fun version => (tightens_inCount hcount hflag).bind fun r =>
    Tightens.require _ fun _ => ((tightens_input hcount).many r.1).bind fun inputs =>
      hcount.bind fun outCnt => Tightens.require _ fun _ =>
        (tightens_outputs hcount 0 outCnt).bind fun outputs =>
          (tightens_witnesses hcount r.2 inputs).bind fun inputs => tightens_u32le.bind fun locktime =>
            Tightens.pure _).mono ?_
  rintro r e ⟨version, _, _, rfl, ⟨⟨n, segwit⟩, _, _, rfl, ⟨-, inputs, _, _, ⟨⟨rfl, hblank⟩, rfl⟩,
    ⟨outCnt, _, _, rfl, ⟨-, outputs, _, _, ⟨rfl, rfl⟩, ⟨is, _, _, ⟨⟨hlen, hbytes, hkept⟩, rfl⟩,
      ⟨locktime, _, _, rfl, ⟨rfl, rfl⟩, rfl⟩, rfl⟩, rfl⟩, rfl⟩, rfl⟩, rfl⟩, rfl⟩
  constructor
  · simp [exportBytes, hlen, hbytes]
  · intro hsegwit
    obtain rfl := hkept hsegwit
    rw [hasWitness, List.any_eq_false]
    intro i hi
    simp [hblank i hi]

end Parts

/-! ## Whole strings -/

theorem exportBytes_lt (tx : BtcTx) : (tx.exportBytes false).length < (tx.exportBytes true).length := by
  simp [exportBytes]
  omega

/-- What is parsed is serialized as it was exactly when it was canonical. -/
theorem bytes_fromBytes_iff {buf : Bytes} {tx : BtcTx} (h : fromBytes buf = .ok tx) :
    tx.bytes = buf ↔ Canonical buf := by
  obtain ⟨c', hrun⟩ : ∃ c', readSource.run (start buf) = .ok (tx, c') := by
    rw [fromBytes] at h
    split at h
    · rename_i tx' c' hrun
      cases h
      exact ⟨c', hrun⟩
    · cases h
  rw [readSource_eq] at hrun
  obtain ⟨⟨segwit, tx'⟩, c₁, hsource, hpure⟩ := run_bind_ok.mp hrun
  obtain ⟨rfl, rfl⟩ := run_pure_ok.mp hpure
  clear hrun
  obtain ⟨e, ⟨rfl, hplain⟩, hle, hiff⟩ :=
    (tightens_source tightens_count tightens_flag).whole hsource
  dsimp only at hplain hle hiff
  -- the strict reader takes the string, and finds a witness behind a marker
  have hcanonical : Canonical buf ↔
      tx'.exportBytes segwit = buf ∧ (segwit = true → tx'.hasWitness = true) := by
    rw [hiff]
    constructor
    · rintro ⟨⟨tx'', c₂⟩, hrun, hnil⟩
      obtain ⟨⟨segwit', tx₃⟩, c₃, hstrict, hrun⟩ := run_bind_ok.mp hrun
      obtain ⟨hwit, hrun⟩ := of_run_require_bind hrun
      obtain ⟨rfl, rfl⟩ := run_pure_ok.mp hrun
      cases hsource.symm.trans ((tightens_source tightens_count tightens_flag).agrees _ _ hstrict)
      exact ⟨⟨_, hstrict, hnil⟩, hwit⟩
    · rintro ⟨⟨⟨⟨segwit', tx₃⟩, c₃⟩, hstrict, hnil⟩, hwit⟩
      cases hsource.symm.trans ((tightens_source tightens_count tightens_flag).agrees _ _ hstrict)
      refine ⟨(tx', c₁), run_bind_ok.mpr ⟨_, _, hstrict, ?_⟩, hnil⟩
      exact (run_require_bind hwit _).trans (run_pure_ok.mpr ⟨rfl, rfl⟩)
  rw [hcanonical, bytes]
  cases segwit with
  | false =>
    rw [hplain rfl]
    exact (and_iff_left (by rintro ⟨⟩)).symm
  | true =>
    cases hwit : tx'.hasWitness with
    | true => exact (and_iff_left fun _ => rfl).symm
    | false =>
      refine iff_of_false (fun heq => ?_) fun hall => Bool.false_ne_true (hall.2 rfl)
      have hlt := exportBytes_lt tx'
      rw [heq] at hlt
      omega

theorem bytes_fromBytes_iff_sample : Canonical sampleTx.bytes :=
  (bytes_fromBytes_iff sampleTx_withinLimits.fromBytes_bytes).mp rfl

/-- What stands behind a transaction is not seen. -/
theorem WithinLimits.fromBytes_append {tx : BtcTx} (h : tx.WithinLimits) (rest : Bytes) :
    fromBytes (tx.bytes ++ rest) = .ok tx.numbered := by
  rw [fromBytes, start, h.reads_source]

theorem fromBytes_drops_rest : fromBytes (sampleTx.bytes ++ [0]) = .ok sampleTx ∧
    sampleTx.bytes ≠ sampleTx.bytes ++ [0] :=
  ⟨sampleTx_withinLimits.fromBytes_append [0], fun h => nomatch List.self_eq_append_right.mp h⟩

/-- Neither an unknown flag nor a marker without a witness is written again. -/
example : fromBytes [1, 0, 0, 0, 0, 7, 0, 0, 0, 0, 0, 0] = .ok ⟨1, [], [], 0⟩ ∧
    BtcTx.bytes ⟨1, [], [], 0⟩ = [1, 0, 0, 0, 0, 0, 0, 0, 0, 0] := by decide

end Outscript.BtcTx
