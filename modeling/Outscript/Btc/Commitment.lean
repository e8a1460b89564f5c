import Outscript.Btc.Sighash
import Outscript.Library.Delimited
import Outscript.Psbt.Reader

/-!
# What the taproot and unified digests commit to

Two digests are equal exactly when the two calls agree on the fields that their
hash type signs. The index of an input is part of a digest as a 32-bit number,
so it is committed to up to multiples of 2^32.
-/
namespace Outscript

open ByteString Delimited Fallible

/-! ## The encodings that are hashed -/

theorem delimits_le32 : Delimits le32 (fun _ => True) :=
  Delimits.of_width (n := 4) (fun v => length_le 4 v.toNat) fun a b _ _ h =>
    UInt32.toNat_inj.mp (le_injective a.toNat_lt b.toNat_lt h)

theorem delimits_le64 : Delimits le64 (fun _ => True) :=
  Delimits.of_width (n := 8) (fun v => length_le 8 v.toNat) fun a b _ _ h =>
    UInt64.toNat_inj.mp (le_injective a.toNat_lt b.toNat_lt h)

theorem delimits_vec (n : ℕ) : Delimits (fun v : ByteVec n => v.toList) (fun _ => True) :=
  Delimits.of_width (fun v => v.2) fun _ _ _ _ h => Subtype.ext h

theorem delimits_varSlice : Delimits varSlice (fun s => s.length < 2 ^ 64) :=
  fun _ _ _ _ ha hb h => Psbt.decodes_varBytes.prefix_free ha hb h

/-- A txid and an index, as an outpoint. -/
def RawTxIn.spent (i : RawTxIn) : ByteVec 32 × UInt32 := (i.txid, i.vout)

theorem delimits_outpoint : Delimits (fun p : ByteVec 32 × UInt32 => p.1.reverse.toList ++ le32 p.2)
    (fun _ => True) := by
  rintro ⟨a, v⟩ ⟨b, w⟩ r s - - h
  simp only [List.append_assoc] at h
  obtain ⟨hrev, h₁⟩ := delimits_vec 32 _ _ _ _ trivial trivial h
  obtain ⟨rfl, h₂⟩ := delimits_le32 _ _ _ _ trivial trivial h₁
  have hab : a = b := by
    rw [← List.Vector.reverse_reverse (v := a), hrev, List.Vector.reverse_reverse]
  exact ⟨by rw [hab], h₂⟩

def RawTxOut.Sized (o : RawTxOut) : Prop := o.script.length < 2 ^ 64

theorem delimits_output : Delimits RawTxOut.encode RawTxOut.Sized := by
  rintro ⟨a, c⟩ ⟨b, d⟩ r s hc hd h
  simp only [RawTxOut.encode, List.append_assoc] at h
  obtain ⟨rfl, h₁⟩ := delimits_le64 _ _ _ _ trivial trivial h
  obtain ⟨rfl, h₂⟩ := delimits_varSlice _ _ _ _ hc hd h₁
  exact ⟨rfl, h₂⟩

theorem outpointBytes_eq (inputs : List RawTxIn) :
    outpointBytes inputs = (inputs.map RawTxIn.spent).flatMap fun p => p.1.reverse.toList ++ le32 p.2 := by
  rw [List.flatMap_map]
  rfl

theorem outpointBytes_inj {as bs : List RawTxIn} (h : outpointBytes as = outpointBytes bs) :
    as.map RawTxIn.spent = bs.map RawTxIn.spent := by
  rw [outpointBytes_eq, outpointBytes_eq] at h
  refine delimits_outpoint.flatMap_inj ?_ (fun _ _ => trivial) (fun _ _ => trivial) h
  intro p hnil
  have hlen := congrArg List.length hnil
  simp [le32] at hlen

theorem sequenceBytes_inj {as bs : List RawTxIn} (h : sequenceBytes as = sequenceBytes bs) :
    as.map RawTxIn.sequence = bs.map RawTxIn.sequence := by
  have hmap (l : List RawTxIn) : sequenceBytes l = (l.map RawTxIn.sequence).flatMap le32 := by
    rw [List.flatMap_map]
    rfl
  rw [hmap, hmap] at h
  refine delimits_le32.flatMap_inj ?_ (fun _ _ => trivial) (fun _ _ => trivial) h
  intro v hnil
  have hlen := congrArg List.length hnil
  simp [le32] at hlen

theorem outputBytes_inj {as bs : List RawTxOut} (ha : ∀ o ∈ as, o.Sized) (hb : ∀ o ∈ bs, o.Sized)
    (h : outputBytes as = outputBytes bs) : as = bs := by
  refine delimits_output.flatMap_inj ?_ ha hb h
  intro o hnil
  have hlen := congrArg List.length hnil
  simp [RawTxOut.encode, le64] at hlen

theorem amountBytes_inj {as bs : List PrevOut} (h : amountBytes as = amountBytes bs) :
    as.map RawTxOut.amount = bs.map RawTxOut.amount := by
  have hmap (l : List PrevOut) : amountBytes l = (l.map RawTxOut.amount).flatMap le64 := by
    rw [List.flatMap_map]
    rfl
  rw [hmap, hmap] at h
  refine delimits_le64.flatMap_inj ?_ (fun _ _ => trivial) (fun _ _ => trivial) h
  intro v hnil
  have hlen := congrArg List.length hnil
  simp [le64] at hlen

theorem scriptBytes_inj {as bs : List PrevOut} (ha : ∀ o ∈ as, o.Sized) (hb : ∀ o ∈ bs, o.Sized)
    (h : scriptBytes as = scriptBytes bs) : as.map RawTxOut.script = bs.map RawTxOut.script := by
  have hmap (l : List PrevOut) : scriptBytes l = (l.map RawTxOut.script).flatMap varSlice := by
    rw [List.flatMap_map]
    rfl
  rw [hmap, hmap] at h
  refine delimits_varSlice.flatMap_inj ?_ ?_ ?_ h
  · intro s hnil
    exact BtcVarInt.toArray_ne_nil _ (List.append_eq_nil_iff.mp hnil).1
  · rintro s hs
    obtain ⟨o, ho, rfl⟩ := List.mem_map.mp hs
    exact ha o ho
  · rintro s hs
    obtain ⟨o, ho, rfl⟩ := List.mem_map.mp hs
    exact hb o ho

/-- Outputs are their amounts and their scripts. -/
theorem outputs_ext {as bs : List RawTxOut} (hamount : as.map RawTxOut.amount = bs.map RawTxOut.amount)
    (hscript : as.map RawTxOut.script = bs.map RawTxOut.script) : as = bs := by
  induction as generalizing bs with
  | nil => simpa using hamount
  | cons a as ih =>
    cases bs with
    | nil => simp at hamount
    | cons b bs =>
      simp only [List.map_cons, List.cons.injEq] at hamount hscript
      obtain ⟨x, s⟩ := a
      obtain ⟨y, t⟩ := b
      simp only at hamount hscript
      rw [hamount.1, hscript.1, ih hamount.2 hscript.2]

/-! ## Calls -/

/-- The transaction, the outputs its inputs spend, and the input that is signed. -/
structure SpendContext where
  tx : TxSource
  prevouts : List PrevOut
  index : Nat

namespace SpendContext

/-- Counts and lengths that a source keeps. -/
structure WellFormed (c : SpendContext) : Prop where
  lawful : c.tx.Lawful
  prevouts : ∀ o ∈ c.prevouts, o.Sized
  outputs : ∀ o ∈ c.tx.outputs, o.Sized

/-- The strings that the midstate and the own output are hashes of. -/
inductive Hashed (c : SpendContext) : Bytes → Prop
  | outpoints : c.Hashed (outpointBytes c.tx.inputs)
  | amounts : c.Hashed (amountBytes c.prevouts)
  | scripts : c.Hashed (scriptBytes c.prevouts)
  | sequences : c.Hashed (sequenceBytes c.tx.inputs)
  | outputs : c.Hashed (outputBytes c.tx.outputs)
  | output {o : RawTxOut} : c.tx.outputs[c.index]? = some o → c.Hashed o.encode

/-- Two calls agree on what ANYONECANPAY, NONE and SINGLE leave signed. -/
structure Agree (anyoneCanPay none single : Bool) (a b : SpendContext) : Prop where
  version : a.tx.version = b.tx.version
  locktime : a.tx.locktime = b.tx.locktime
  all : anyoneCanPay = false →
    a.tx.inputs.map RawTxIn.spent = b.tx.inputs.map RawTxIn.spent ∧
      a.tx.inputs.map RawTxIn.sequence = b.tx.inputs.map RawTxIn.sequence ∧
      a.prevouts = b.prevouts ∧ UInt32.ofNat a.index = UInt32.ofNat b.index
  own : anyoneCanPay = true →
    a.tx.inputs[a.index]?.map RawTxIn.spent = b.tx.inputs[b.index]?.map RawTxIn.spent ∧
      a.tx.inputs[a.index]?.map RawTxIn.sequence = b.tx.inputs[b.index]?.map RawTxIn.sequence ∧
      a.prevouts[a.index]? = b.prevouts[b.index]?
  outputs : none = false → single = false → a.tx.outputs = b.tx.outputs
  output : single = true → a.tx.outputs[a.index]? = b.tx.outputs[b.index]?

end SpendContext

/-! ## The parts of a message -/

section Parts

variable {H : Hashes} {a b : SpendContext} {m n : TaprootMidstate}

theorem taprootMidstateOf_eq_ok {tx : TxSource} {prevouts : List PrevOut} :
    taprootMidstateOf H tx prevouts = .ok m ↔ prevouts.length = tx.inputCount ∧
      m = ⟨tx.version, tx.locktime, prevouts.length, H.sha256 (outpointBytes tx.inputs),
        H.sha256 (amountBytes prevouts), H.sha256 (scriptBytes prevouts),
        H.sha256 (sequenceBytes tx.inputs), H.sha256 (outputBytes tx.outputs)⟩ := by
  rw [taprootMidstateOf]
  split_ifs with hne
  · exact iff_of_false (fun h => nomatch h) fun h => hne h.1
  · rw [Except.ok.injEq]
    exact ⟨fun h => ⟨not_not.mp hne, h.symm⟩, fun h => h.2.symm⟩

theorem check_eq_ok {index : Nat} {index32 : UInt32} :
    m.check index = .ok index32 ↔ index < m.inputCount ∧ index32 = UInt32.ofNat index := by
  rw [TaprootMidstate.check]
  split_ifs with hle
  · exact iff_of_false (fun h => nomatch h) fun h => absurd h.1 (by omega)
  · rw [Except.ok.injEq]
    exact ⟨fun h => ⟨by omega, h.symm⟩, fun h => h.2.symm⟩

theorem singleOutput_eq_ok {tx : TxSource} {single : Bool} {index : Nat}
    {sha : Option (ByteVec 32)} :
    singleOutput H tx single index = .ok sha ↔
      (single = true → tx.outputs[index]?.isSome) ∧
        sha = if single then tx.outputs[index]?.map fun o => H.sha256 o.encode else none := by
  cases single with
  | false =>
    rw [singleOutput, if_neg Bool.false_ne_true]
    exact ⟨fun h => ⟨fun hf => (nomatch hf), (Except.ok.inj h).symm⟩, fun h => congrArg Except.ok h.2.symm⟩
  | true =>
    cases ho : tx.outputs[index]? with
    | none =>
      rw [singleOutput, if_pos rfl, ho]
      exact iff_of_false (fun h => nomatch h) fun h => Bool.false_ne_true (h.1 rfl)
    | some o =>
      rw [singleOutput, if_pos rfl, ho]
      exact ⟨fun h => ⟨fun _ => rfl, (Except.ok.inj h).symm⟩, fun h => congrArg Except.ok h.2.symm⟩

theorem toList_inj {n : ℕ} {v w : ByteVec n} : v.toList = w.toList ↔ v = w :=
  ⟨fun h => Subtype.ext h, fun h => by rw [h]⟩

/-- The parts of a message in a row. -/
def messageOf (t : UInt8) (v : UInt32) (lock agg outs : Bytes) (k : UInt8)
    (own body single leaf : Bytes) : Bytes :=
  [[0x00, t], le32 v, lock, agg, outs, [k], own, body, single, leaf].flatten

/-- A message is taken apart from the left. -/
theorem messageOf_inj {t t' : UInt8} {v v' : UInt32} {lock lock' agg agg' outs outs' : Bytes}
    {k k' : UInt8} {own own' body body' single single' leaf leaf' : Bytes}
    (hlock : lock.length = lock'.length)
    (hagg : t = t' → agg.length = agg'.length) (houts : t = t' → outs.length = outs'.length)
    (hown : t = t' → ∀ r s, own ++ r = own' ++ s → own = own' ∧ r = s)
    (hbody : k = k' → ∀ r s, body ++ r = body' ++ s → body = body' ∧ r = s)
    (hsingle : t = t' → single.length = single'.length)
    (h : messageOf t v lock agg outs k own body single leaf =
      messageOf t' v' lock' agg' outs' k' own' body' single' leaf') :
    t = t' ∧ v = v' ∧ lock = lock' ∧ agg = agg' ∧ outs = outs' ∧ k = k' ∧ own = own' ∧
      body = body' ∧ single = single' ∧ leaf = leaf' := by
  simp only [messageOf, List.flatten_cons, List.flatten_nil, List.append_nil] at h
  obtain ⟨htype, h₁⟩ := List.append_inj h rfl
  obtain rfl : t = t' := by simpa using htype
  obtain ⟨rfl, h₂⟩ := delimits_le32 _ _ _ _ trivial trivial h₁
  obtain ⟨rfl, h₃⟩ := List.append_inj h₂ hlock
  obtain ⟨rfl, h₄⟩ := List.append_inj h₃ (hagg rfl)
  obtain ⟨rfl, h₅⟩ := List.append_inj h₄ (houts rfl)
  obtain ⟨hkind, h₆⟩ := List.append_inj h₅ rfl
  obtain rfl : k = k' := by simpa using hkind
  obtain ⟨rfl, h₇⟩ := hown rfl _ _ h₆
  obtain ⟨rfl, h₈⟩ := hbody rfl _ _ h₇
  obtain ⟨rfl, h₉⟩ := List.append_inj h₈ (hsingle rfl)
  exact ⟨rfl, rfl, rfl, rfl, rfl, rfl, rfl, rfl, rfl, h₉⟩

theorem length_aggregates (m : TaprootMidstate) (acp : Bool) :
    (aggregates m acp).length = if acp then 0 else 128 := by
  rw [aggregates]
  cases acp <;> simp [List.Vector.toList_length]

theorem length_allOutputs (m : TaprootMidstate) (none single : Bool) :
    (allOutputs m none single).length = if !none && !single then 32 else 0 := by
  rw [allOutputs]
  split_ifs <;> simp [List.Vector.toList_length]

/-- A context whose call got past its checks, with its midstate and signed input. -/
structure Checked (H : Hashes) (c : SpendContext) (m : TaprootMidstate) (input : RawTxIn)
    (prevout : PrevOut) : Prop where
  midstate : m = ⟨c.tx.version, c.tx.locktime, c.prevouts.length, H.sha256 (outpointBytes c.tx.inputs),
    H.sha256 (amountBytes c.prevouts), H.sha256 (scriptBytes c.prevouts),
    H.sha256 (sequenceBytes c.tx.inputs), H.sha256 (outputBytes c.tx.outputs)⟩
  input : c.tx.inputs[c.index]? = some input
  prevout : c.prevouts[c.index]? = some prevout

theorem SpendContext.WellFormed.checked {c : SpendContext} (h : c.WellFormed) {prevout : PrevOut}
    (hm : taprootMidstateOf H c.tx c.prevouts = .ok m) (hp : c.prevouts[c.index]? = some prevout) :
    ∃ input, Checked H c m input prevout := by
  obtain ⟨hcount, hm⟩ := taprootMidstateOf_eq_ok.mp hm
  obtain ⟨hlt, -⟩ := List.getElem?_eq_some_iff.mp hp
  rw [hcount, h.lawful] at hlt
  exact ⟨_, hm, List.getElem?_eq_getElem hlt, hp⟩

/-- The bytes of the own output, if the hash type asks for it. -/
def singleBytes (H : Hashes) (c : SpendContext) (single : Bool) : Bytes :=
  ((if single then c.tx.outputs[c.index]?.map fun o => H.sha256 o.encode
    else none).map List.Vector.toList).getD []

def ownBytes (c : SpendContext) (prevout : PrevOut) (acp : Bool) : Bytes :=
  ownInput c.tx c.index (UInt32.ofNat c.index) prevout acp

variable {i j : RawTxIn} {p q : PrevOut} {acp none single : Bool}

theorem ownBytes_split (ha : Checked H a m i p) (hb : Checked H b n j q) (hp : p.Sized) (hq : q.Sized)
    (r s : Bytes) (h : ownBytes a p acp ++ r = ownBytes b q acp ++ s) :
    ((acp = true → i.spent = j.spent ∧ i.sequence = j.sequence ∧ p = q) ∧
      (acp = false → UInt32.ofNat a.index = UInt32.ofNat b.index)) ∧ r = s := by
  cases acp with
  | false =>
    obtain ⟨hindex, hrest⟩ := delimits_le32 _ _ _ _ trivial trivial h
    exact ⟨⟨fun hf => (nomatch hf), fun _ => hindex⟩, hrest⟩
  | true =>
    simp only [ownBytes, ownInput, ha.input, hb.input, if_true, List.append_assoc] at h
    obtain ⟨hspent, h₁⟩ := delimits_outpoint i.spent j.spent _ _ trivial trivial h
    obtain ⟨hpq, h₂⟩ := delimits_output _ _ _ _ hp hq h₁
    obtain ⟨hseq, h₃⟩ := delimits_le32 _ _ _ _ trivial trivial h₂
    exact ⟨⟨fun _ => ⟨hspent, hseq, hpq⟩, fun hf => nomatch hf⟩, h₃⟩

theorem ownBytes_congr (ha : Checked H a m i p) (hb : Checked H b n j q)
    (hown : acp = true → i.spent = j.spent ∧ i.sequence = j.sequence ∧ p = q)
    (hindex : acp = false → UInt32.ofNat a.index = UInt32.ofNat b.index) :
    ownBytes a p acp = ownBytes b q acp := by
  cases acp with
  | false => exact congrArg le32 (hindex rfl)
  | true =>
    obtain ⟨hspent, hseq, rfl⟩ := hown rfl
    have hout : i.outpoint = j.outpoint :=
      congrArg (fun s : ByteVec 32 × UInt32 => s.1.reverse.toList ++ le32 s.2) hspent
    simp only [ownBytes, ownInput, ha.input, hb.input, if_true, hout, hseq]

theorem ownBytes_delimits (ha : Checked H a m i p) (hb : Checked H b n j q) (hp : p.Sized)
    (hq : q.Sized) (r s : Bytes) (h : ownBytes a p acp ++ r = ownBytes b q acp ++ s) :
    ownBytes a p acp = ownBytes b q acp ∧ r = s := by
  obtain ⟨⟨hown, hindex⟩, hrest⟩ := ownBytes_split ha hb hp hq r s h
  exact ⟨ownBytes_congr ha hb hown hindex, hrest⟩

theorem length_singleBytes {c : SpendContext} (h : single = true → c.tx.outputs[c.index]?.isSome) :
    (singleBytes H c single).length = if single then 32 else 0 := by
  cases single with
  | false => rfl
  | true =>
    obtain ⟨o, ho⟩ := Option.isSome_iff_exists.mp (h rfl)
    simp [singleBytes, ho, List.Vector.toList_length]

section Agreement

variable {S : Set Bytes} (hfree : H.CollisionFree S) (hSa : ∀ s, a.Hashed s → s ∈ S)
  (hSb : ∀ s, b.Hashed s → s ∈ S) (wfa : a.WellFormed) (wfb : b.WellFormed)
include hfree hSa hSb wfa wfb

/-- The parts that depend on the transaction are equal exactly when the calls agree. -/
theorem parts_eq_iff_agree (ha : Checked H a m i p) (hb : Checked H b n j q)
    (hsa : single = true → a.tx.outputs[a.index]?.isSome)
    (hsb : single = true → b.tx.outputs[b.index]?.isSome) :
    (m.version = n.version ∧ m.locktime = n.locktime ∧ aggregates m acp = aggregates n acp ∧
      allOutputs m none single = allOutputs n none single ∧ ownBytes a p acp = ownBytes b q acp ∧
      singleBytes H a single = singleBytes H b single) ↔ a.Agree acp none single b := by
  have hinj {s t : Bytes} (hs : a.Hashed s) (ht : b.Hashed t)
      (heq : (H.sha256 s).toList = (H.sha256 t).toList) : s = t :=
    hfree (hSa s hs) (hSb t ht) (toList_inj.mp heq)
  have hpS : p.Sized := wfa.prevouts p (List.mem_of_getElem? ha.prevout)
  have hqS : q.Sized := wfb.prevouts q (List.mem_of_getElem? hb.prevout)
  have hm := ha.midstate
  have hn := hb.midstate
  constructor
  · rintro ⟨hversion, hlock, hagg, houts, hown, hsingle⟩
    have hsplit := (ownBytes_split ha hb hpS hqS [] [] (by rw [hown])).1
    constructor
    · rwa [hm, hn] at hversion
    · rwa [hm, hn] at hlock
    · rintro rfl
      simp only [aggregates, Bool.false_eq_true, if_false, hm, hn] at hagg
      obtain ⟨h₁, hagg⟩ := List.append_inj hagg (by simp [List.Vector.toList_length])
      obtain ⟨h₂, hagg⟩ := List.append_inj hagg (by simp [List.Vector.toList_length])
      obtain ⟨h₃, h₄⟩ := List.append_inj hagg (by simp [List.Vector.toList_length])
      have hamounts := amountBytes_inj (hinj .amounts .amounts h₂)
      have hscripts := scriptBytes_inj wfa.prevouts wfb.prevouts (hinj .scripts .scripts h₃)
      exact ⟨outpointBytes_inj (hinj .outpoints .outpoints h₁),
        sequenceBytes_inj (hinj .sequences .sequences h₄), outputs_ext hamounts hscripts,
        hsplit.2 rfl⟩
    · intro hacp
      obtain ⟨hspent, hseq, rfl⟩ := hsplit.1 hacp
      rw [ha.input, hb.input, ha.prevout, hb.prevout]
      exact ⟨congrArg some hspent, congrArg some hseq, rfl⟩
    · rintro rfl rfl
      simp only [allOutputs, Bool.not_false, Bool.and_self, if_true, hm, hn] at houts
      exact outputBytes_inj wfa.outputs wfb.outputs (hinj .outputs .outputs houts)
    · rintro rfl
      obtain ⟨o, ho⟩ := Option.isSome_iff_exists.mp (hsa rfl)
      obtain ⟨o', ho'⟩ := Option.isSome_iff_exists.mp (hsb rfl)
      simp only [singleBytes, ho, ho', if_true, Option.map_some, Option.getD_some] at hsingle
      have henc := hinj (.output ho) (.output ho') hsingle
      rw [ho, ho', delimits_output.injOn (wfa.outputs o (List.mem_of_getElem? ho))
        (wfb.outputs o' (List.mem_of_getElem? ho')) henc]
  · intro h
    have hall := h.all
    have hown := h.own
    rw [ha.input, hb.input, ha.prevout, hb.prevout] at hown
    refine ⟨?_, ?_, ?_, ?_, ?_, ?_⟩
    · rw [hm, hn]
      exact h.version
    · rw [hm, hn]
      exact h.locktime
    · cases acp with
      | true => rfl
      | false =>
        obtain ⟨hspent, hseq, hprev, -⟩ := hall rfl
        have hout : outpointBytes a.tx.inputs = outpointBytes b.tx.inputs := by
          rw [outpointBytes_eq, outpointBytes_eq, hspent]
        have hseqs : sequenceBytes a.tx.inputs = sequenceBytes b.tx.inputs := by
          have hmap (l : List RawTxIn) : sequenceBytes l = (l.map RawTxIn.sequence).flatMap le32 := by
            rw [List.flatMap_map]
            rfl
          rw [hmap, hmap, hseq]
        simp only [aggregates, hm, hn, hout, hseqs, hprev]
    · rw [allOutputs, allOutputs]
      split_ifs with hflags
      · have hflags' : none = false ∧ single = false := by simpa using hflags
        rw [hm, hn, h.outputs hflags'.1 hflags'.2]
      · rfl
    · refine ownBytes_congr ha hb (fun hacp => ?_) fun hacp => (hall hacp).2.2.2
      obtain ⟨hspent, hseq, hprev⟩ := hown hacp
      exact ⟨Option.some.inj hspent, Option.some.inj hseq, Option.some.inj hprev⟩
    · cases single with
      | false => rfl
      | true => rw [singleBytes, singleBytes, h.output rfl]

end Agreement

end Parts

/-! ## Taproot calls -/

structure TapCall extends SpendContext where
  opts : TapSighash

def TapSighash.Sized (opts : TapSighash) : Prop := ∀ annex ∈ opts.annex, annex.length < 2 ^ 64

namespace TapCall

variable (H : Hashes) (c : TapCall)

/-- A call over the midstate of the transaction's own prevouts. -/
def digest : Except Error (ByteVec 32) := do
  let mid ← taprootMidstateOf H c.tx c.prevouts
  let prevout ← okOr c.prevouts[c.index]? .inputIndex
  taprootSighashOf H c.tx mid c.index prevout c.opts

/-- What is hashed last, behind the tag. -/
def message (m : TaprootMidstate) (p : PrevOut) : Bytes :=
  (taprootParts H c.tx m c.index (UInt32.ofNat c.index) p c.opts
    (if decide (c.opts.hashType &&& 3 = 3) then
      c.tx.outputs[c.index]?.map fun o => H.sha256 o.encode else none)).flatten

/-- The strings that are hashed on the way to the digest. -/
inductive Hashed : Bytes → Prop
  | tag : Hashed (Hashes.tagBytes "TapSighash")
  | context {s : Bytes} : c.toSpendContext.Hashed s → Hashed s
  | annex {annex : Bytes} : c.opts.annex = some annex → Hashed (varSlice annex)
  | message {m : TaprootMidstate} {p : PrevOut} : taprootMidstateOf H c.tx c.prevouts = .ok m →
      c.prevouts[c.index]? = some p →
      Hashed ((H.sha256 (Hashes.tagBytes "TapSighash")).toList ++
        ((H.sha256 (Hashes.tagBytes "TapSighash")).toList ++ c.message H m p))

end TapCall

theorem taggedHash_flatten (H : Hashes) (tag : String) (parts : List Bytes) :
    H.taggedHash tag parts = H.sha256 ((H.sha256 (Hashes.tagBytes tag)).toList ++
      ((H.sha256 (Hashes.tagBytes tag)).toList ++ parts.flatten)) := rfl

variable {H : Hashes}

theorem TapCall.digest_eq_ok {c : TapCall} {d : ByteVec 32} (h : c.digest H = .ok d) :
    ∃ m p, taprootMidstateOf H c.tx c.prevouts = .ok m ∧ c.prevouts[c.index]? = some p ∧
      (decide (c.opts.hashType &&& 3 = 3) = true → c.tx.outputs[c.index]?.isSome) ∧
      d = H.sha256 ((H.sha256 (Hashes.tagBytes "TapSighash")).toList ++
        ((H.sha256 (Hashes.tagBytes "TapSighash")).toList ++ c.message H m p)) := by
  obtain ⟨m, hm, h⟩ := bind_eq_ok.mp h
  obtain ⟨p, hp, h⟩ := bind_eq_ok.mp h
  rw [taprootSighashOf] at h
  split_ifs at h
  obtain ⟨index32, hindex, h⟩ := bind_eq_ok.mp h
  obtain ⟨-, rfl⟩ := check_eq_ok.mp hindex
  obtain ⟨-, -, h⟩ := bind_eq_ok.mp h
  obtain ⟨sha, hsha, h⟩ := bind_eq_ok.mp h
  obtain ⟨hsome, rfl⟩ := singleOutput_eq_ok.mp hsha
  refine ⟨m, p, hm, okOr_eq_ok.mp hp, hsome, ?_⟩
  rw [← Except.ok.inj h, taggedHash_flatten]
  rfl

theorem spendType_inj {p p' q q' : Bool}
    (h : UInt8.ofNat (2 * p.toNat + q.toNat) = UInt8.ofNat (2 * p'.toNat + q'.toNat)) :
    p = p' ∧ q = q' := by
  revert h
  cases p <;> cases p' <;> cases q <;> cases q' <;> decide

theorem leafBytes_inj {p q : Option TapScriptPath} (hsome : p.isSome = q.isSome)
    (h : leafBytes p = leafBytes q) : p = q := by
  cases p with
  | none =>
    cases q with
    | none => rfl
    | some q => cases hsome
  | some p =>
    cases q with
    | none => cases hsome
    | some q =>
      obtain ⟨leaf, pos⟩ := p
      obtain ⟨leaf', pos'⟩ := q
      obtain ⟨hleaf, h₁⟩ := delimits_vec 32 leaf leaf' _ _ trivial trivial h
      obtain ⟨-, h₂⟩ := List.append_inj h₁ rfl
      have hpos : pos = pos' := delimits_le32.injOn trivial trivial h₂
      rw [hleaf, hpos]

theorem annexHash_inj {S : Set Bytes} (hfree : H.CollisionFree S) {p q : Option Bytes}
    (hp : ∀ annex ∈ p, annex.length < 2 ^ 64 ∧ varSlice annex ∈ S)
    (hq : ∀ annex ∈ q, annex.length < 2 ^ 64 ∧ varSlice annex ∈ S) (hsome : p.isSome = q.isSome)
    (h : (p.map (annexHash H)).getD [] = (q.map (annexHash H)).getD []) : p = q := by
  cases p with
  | none =>
    cases q with
    | none => rfl
    | some q => cases hsome
  | some p =>
    cases q with
    | none => cases hsome
    | some q =>
      obtain ⟨hp, hpS⟩ := hp p rfl
      obtain ⟨hq, hqS⟩ := hq q rfl
      rw [delimits_varSlice.injOn hp hq (hfree hpS hqS (toList_inj.mp h))]

theorem length_annexHash (p : Option Bytes) :
    ((p.map (annexHash H)).getD []).length = if p.isSome then 32 else 0 := by
  cases p with
  | none => rfl
  | some p => exact (H.sha256 (varSlice p)).2

/-- What two taproot calls agree on when they have one digest. -/
structure TapCall.Agree (a b : TapCall) : Prop where
  hashType : a.opts.hashType = b.opts.hashType
  annex : a.opts.annex = b.opts.annex
  scriptPath : a.opts.scriptPath = b.opts.scriptPath
  context : a.toSpendContext.Agree (a.opts.hashType &&& 0x80 ≠ 0) (a.opts.hashType &&& 3 = 2)
    (a.opts.hashType &&& 3 = 3) b.toSpendContext

theorem TapCall.message_eq (c : TapCall) (m : TaprootMidstate) (p : PrevOut) :
    c.message H m p = messageOf c.opts.hashType m.version (le32 m.locktime)
      (aggregates m (c.opts.hashType &&& 0x80 ≠ 0))
      (allOutputs m (c.opts.hashType &&& 3 = 2) (c.opts.hashType &&& 3 = 3))
      (UInt8.ofNat (2 * c.opts.scriptPath.isSome.toNat + c.opts.annex.isSome.toNat))
      (ownBytes c.toSpendContext p (c.opts.hashType &&& 0x80 ≠ 0))
      ((c.opts.annex.map (annexHash H)).getD [])
      (singleBytes H c.toSpendContext (c.opts.hashType &&& 3 = 3))
      (leafBytes c.opts.scriptPath) := rfl

theorem taproot_digest_eq_iff {a b : TapCall} {d e : ByteVec 32} {S : Set Bytes}
    (hfree : H.CollisionFree S) (hSa : ∀ s, a.Hashed H s → s ∈ S) (hSb : ∀ s, b.Hashed H s → s ∈ S)
    (wfa : a.WellFormed) (wfb : b.WellFormed) (hopta : a.opts.Sized) (hoptb : b.opts.Sized)
    (ha : a.digest H = .ok d) (hb : b.digest H = .ok e) : d = e ↔ a.Agree b := by
  obtain ⟨m, p, hm, hp, hsa, rfl⟩ := TapCall.digest_eq_ok ha
  obtain ⟨n, q, hn, hq, hsb, rfl⟩ := TapCall.digest_eq_ok hb
  obtain ⟨i, hca⟩ := wfa.checked hm hp
  obtain ⟨j, hcb⟩ := wfb.checked hn hq
  have hpS : p.Sized := wfa.prevouts p (List.mem_of_getElem? hp)
  have hqS : q.Sized := wfb.prevouts q (List.mem_of_getElem? hq)
  have hparts {x y z : Bool} := @parts_eq_iff_agree H _ _ m n i j p q x y z S hfree
    (fun s hs => hSa s (.context hs)) (fun s hs => hSb s (.context hs)) wfa wfb hca hcb
  constructor
  · intro heq
    have htagged := hfree (hSa _ (.message hm hp)) (hSb _ (.message hn hq)) heq
    have hmsg := List.append_cancel_left (List.append_cancel_left htagged)
    rw [TapCall.message_eq, TapCall.message_eq] at hmsg
    obtain ⟨ht, hversion, hlock, hagg, houts, hkind, hown, hbody, hsingle, hleaf⟩ :=
      messageOf_inj (by simp [le32])
        (fun ht => by rw [length_aggregates, length_aggregates, ht])
        (fun ht => by rw [length_allOutputs, length_allOutputs, ht])
        (fun ht r s => by
          rw [← ht]
          exact ownBytes_delimits hca hcb hpS hqS r s)
        (fun hkind r s h => List.append_inj h
          (by rw [length_annexHash, length_annexHash, (spendType_inj hkind).2]))
        (fun ht => by rw [length_singleBytes hsa, length_singleBytes hsb, ht])
        hmsg
    rw [← ht] at hagg houts hown hsingle hsb
    have hlock : m.locktime = n.locktime := delimits_le32.injOn trivial trivial hlock
    obtain ⟨hpath, hannex⟩ := spendType_inj hkind
    constructor
    · exact ht
    · exact annexHash_inj hfree (fun annex h => ⟨hopta annex h, hSa _ (.annex h)⟩)
        (fun annex h => ⟨hoptb annex h, hSb _ (.annex h)⟩) hannex hbody
    · exact leafBytes_inj hpath hleaf
    · exact (hparts hsa hsb).mp ⟨hversion, hlock, hagg, houts, hown, hsingle⟩
  · intro h
    rw [← h.hashType] at hsb
    obtain ⟨hversion, hlock, hagg, houts, hown, hsingle⟩ := (hparts hsa hsb).mpr h.context
    have hmsg : a.message H m p = b.message H n q := by
      rw [TapCall.message_eq, TapCall.message_eq, ← h.hashType, ← h.annex, ← h.scriptPath, hversion,
        hlock, hagg, houts, hown, hsingle]
    rw [hmsg]

/-! ## Unified calls -/

structure UnifiedCall extends SpendContext where
  hashType : UInt8
  spend : UnifiedSpend

/-- Script codes and annexes have lengths. -/
def UnifiedSpend.Sized : UnifiedSpend → Prop
  | legacy code => code.length < 2 ^ 64
  | segwitV0 code => code.length < 2 ^ 64
  | taproot annex _ => ∀ a ∈ annex, a.length < 2 ^ 64

namespace UnifiedCall

variable (H) (c : UnifiedCall)

/-- A call over the midstate of the transaction's own prevouts. -/
def digest : Except Error (ByteVec 32) := do
  let mid ← taprootMidstateOf H c.tx c.prevouts
  let prevout ← okOr c.prevouts[c.index]? .inputIndex
  unifiedSighashOf H c.tx mid c.index prevout c.hashType c.spend

/-- What is hashed last, behind the tag. -/
def message (m : TaprootMidstate) (p : PrevOut) : Bytes :=
  (unifiedParts H c.tx m c.index (UInt32.ofNat c.index) p c.hashType c.spend
    (if decide (c.hashType &&& 0x1f = 3) then
      c.tx.outputs[c.index]?.map fun o => H.sha256 o.encode else none)).flatten

/-- The strings that are hashed on the way to the digest. -/
inductive Hashed : Bytes → Prop
  | tag : Hashed (Hashes.tagBytes "UnifiedSighash")
  | context {s : Bytes} : c.toSpendContext.Hashed s → Hashed s
  | annex {annex : Bytes} : c.spend.annex = some annex → Hashed (varSlice annex)
  | message {m : TaprootMidstate} {p : PrevOut} : taprootMidstateOf H c.tx c.prevouts = .ok m →
      c.prevouts[c.index]? = some p →
      Hashed ((H.sha256 (Hashes.tagBytes "UnifiedSighash")).toList ++
        ((H.sha256 (Hashes.tagBytes "UnifiedSighash")).toList ++ c.message H m p))

variable {H} {c}

theorem digest_eq_ok {d : ByteVec 32} (h : c.digest H = .ok d) :
    ∃ m p, taprootMidstateOf H c.tx c.prevouts = .ok m ∧ c.prevouts[c.index]? = some p ∧
      (decide (c.hashType &&& 0x1f = 3) = true → c.tx.outputs[c.index]?.isSome) ∧
      d = H.sha256 ((H.sha256 (Hashes.tagBytes "UnifiedSighash")).toList ++
        ((H.sha256 (Hashes.tagBytes "UnifiedSighash")).toList ++ c.message H m p)) := by
  obtain ⟨m, hm, h⟩ := bind_eq_ok.mp h
  obtain ⟨p, hp, h⟩ := bind_eq_ok.mp h
  rw [unifiedSighashOf] at h
  split_ifs at h
  obtain ⟨index32, hindex, h⟩ := bind_eq_ok.mp h
  obtain ⟨-, rfl⟩ := check_eq_ok.mp hindex
  obtain ⟨-, -, h⟩ := bind_eq_ok.mp h
  obtain ⟨sha, hsha, h⟩ := bind_eq_ok.mp h
  obtain ⟨hsome, rfl⟩ := singleOutput_eq_ok.mp hsha
  refine ⟨m, p, hm, okOr_eq_ok.mp hp, hsome, ?_⟩
  rw [← Except.ok.inj h, taggedHash_flatten]
  rfl

theorem message_eq (m : TaprootMidstate) (p : PrevOut) :
    c.message H m p = messageOf c.hashType m.version (le32 m.locktime ++ [0x00])
      (aggregates m (c.hashType &&& 0x80 ≠ 0))
      (allOutputs m (c.hashType &&& 0x1f = 2) (c.hashType &&& 0x1f = 3)) c.spend.scriptType
      (ownBytes c.toSpendContext p (c.hashType &&& 0x80 ≠ 0)) (c.spend.body H)
      (singleBytes H c.toSpendContext (c.hashType &&& 0x1f = 3)) (leafBytes c.spend.scriptPath) := rfl

/-- What two unified calls agree on when they have one digest. -/
structure Agree (a b : UnifiedCall) : Prop where
  hashType : a.hashType = b.hashType
  spend : a.spend = b.spend
  context : a.toSpendContext.Agree (a.hashType &&& 0x80 ≠ 0) (a.hashType &&& 0x1f = 2)
    (a.hashType &&& 0x1f = 3) b.toSpendContext

end UnifiedCall

namespace UnifiedSpend

theorem scriptType_taproot_ne (code : Bytes) (annex : Option Bytes) (path : Option TapScriptPath) :
    (legacy code).scriptType ≠ (taproot annex path).scriptType ∧
      (segwitV0 code).scriptType ≠ (taproot annex path).scriptType := by
  cases path with
  | none =>
    exact ⟨(by decide : (0 : UInt8) ≠ 2 + UInt8.ofNat 0), (by decide : (1 : UInt8) ≠ 2 + UInt8.ofNat 0)⟩
  | some _ =>
    exact ⟨(by decide : (0 : UInt8) ≠ 2 + UInt8.ofNat 1), (by decide : (1 : UInt8) ≠ 2 + UInt8.ofNat 1)⟩

/-- The script type and the path of a leaf tell what kind of spend was hashed. -/
theorem isSome_of_scriptType {annex annex' : Option Bytes} {p q : Option TapScriptPath}
    (h : (taproot annex p).scriptType = (taproot annex' q).scriptType) : p.isSome = q.isSome := by
  have hne : (2 + UInt8.ofNat 0 : UInt8) ≠ 2 + UInt8.ofNat 1 := by decide
  cases p with
  | none =>
    cases q with
    | none => rfl
    | some _ => exact absurd h hne
  | some _ =>
    cases q with
    | none => exact absurd h.symm hne
    | some _ => rfl

/-- What is hashed of a spend, with its script type and leaf, determines it. -/
theorem body_delimits {S : Set Bytes} (hfree : H.CollisionFree S) {x y : UnifiedSpend}
    (hx : x.Sized) (hy : y.Sized) (hSx : ∀ annex, x.annex = some annex → varSlice annex ∈ S)
    (hSy : ∀ annex, y.annex = some annex → varSlice annex ∈ S) (htype : x.scriptType = y.scriptType)
    (r s : Bytes) (h : x.body H ++ r = y.body H ++ s) :
    (leafBytes x.scriptPath = leafBytes y.scriptPath → x = y) ∧ x.body H = y.body H ∧ r = s := by
  cases x with
  | legacy code =>
    cases y with
    | legacy code' =>
      obtain ⟨rfl, hrest⟩ := delimits_varSlice _ _ _ _ hx hy h
      exact ⟨fun _ => rfl, rfl, hrest⟩
    | segwitV0 code' => exact absurd htype (by decide : (0 : UInt8) ≠ 1)
    | taproot annex path => exact absurd htype (scriptType_taproot_ne code annex path).1
  | segwitV0 code =>
    cases y with
    | legacy code' => exact absurd htype (by decide : (1 : UInt8) ≠ 0)
    | segwitV0 code' =>
      obtain ⟨rfl, hrest⟩ := delimits_varSlice _ _ _ _ hx hy h
      exact ⟨fun _ => rfl, rfl, hrest⟩
    | taproot annex path => exact absurd htype (scriptType_taproot_ne code annex path).2
  | taproot annex path =>
    cases y with
    | legacy code' => exact absurd htype.symm (scriptType_taproot_ne code' annex path).1
    | segwitV0 code' => exact absurd htype.symm (scriptType_taproot_ne code' annex path).2
    | taproot annex' path' =>
      have hpath := isSome_of_scriptType htype
      cases annex with
      | none =>
        cases annex' with
        | none =>
          obtain ⟨-, hrest⟩ := List.append_inj h rfl
          exact ⟨fun hleaf => by rw [show path = path' from leafBytes_inj hpath hleaf], rfl, hrest⟩
        | some annex' => exact absurd (List.head_eq_of_cons_eq h) (by decide)
      | some annex =>
        cases annex' with
        | none => exact absurd (List.head_eq_of_cons_eq h) (by decide)
        | some annex' =>
          have hlen : ([0x01] ++ annexHash H annex : Bytes).length =
              ([0x01] ++ annexHash H annex' : Bytes).length := by
            simp [annexHash, List.Vector.toList_length]
          obtain ⟨hhash, hrest⟩ := List.append_inj h hlen
          obtain ⟨-, hhash'⟩ := List.append_inj hhash rfl
          obtain rfl := delimits_varSlice.injOn (hx annex rfl) (hy annex' rfl)
            (hfree (hSx annex rfl) (hSy annex' rfl) (toList_inj.mp hhash'))
          exact ⟨fun hleaf => by rw [show path = path' from leafBytes_inj hpath hleaf], rfl, hrest⟩

end UnifiedSpend

theorem unified_digest_eq_iff {a b : UnifiedCall} {d e : ByteVec 32} {S : Set Bytes}
    (hfree : H.CollisionFree S) (hSa : ∀ s, a.Hashed H s → s ∈ S) (hSb : ∀ s, b.Hashed H s → s ∈ S)
    (wfa : a.WellFormed) (wfb : b.WellFormed) (hspa : a.spend.Sized) (hspb : b.spend.Sized)
    (ha : a.digest H = .ok d) (hb : b.digest H = .ok e) : d = e ↔ a.Agree b := by
  obtain ⟨m, p, hm, hp, hsa, rfl⟩ := UnifiedCall.digest_eq_ok ha
  obtain ⟨n, q, hn, hq, hsb, rfl⟩ := UnifiedCall.digest_eq_ok hb
  obtain ⟨i, hca⟩ := wfa.checked hm hp
  obtain ⟨j, hcb⟩ := wfb.checked hn hq
  have hpS : p.Sized := wfa.prevouts p (List.mem_of_getElem? hp)
  have hqS : q.Sized := wfb.prevouts q (List.mem_of_getElem? hq)
  have hparts {x y z : Bool} := @parts_eq_iff_agree H _ _ m n i j p q x y z S hfree
    (fun s hs => hSa s (.context hs)) (fun s hs => hSb s (.context hs)) wfa wfb hca hcb
  have hbodies := UnifiedSpend.body_delimits hfree hspa hspb (fun _ h => hSa _ (.annex h))
    (fun _ h => hSb _ (.annex h))
  constructor
  · intro heq
    have htagged := hfree (hSa _ (.message hm hp)) (hSb _ (.message hn hq)) heq
    have hmsg := List.append_cancel_left (List.append_cancel_left htagged)
    rw [UnifiedCall.message_eq, UnifiedCall.message_eq] at hmsg
    obtain ⟨ht, hversion, hlock, hagg, houts, hkind, hown, hbody, hsingle, hleaf⟩ :=
      messageOf_inj (by simp [le32])
        (fun ht => by rw [length_aggregates, length_aggregates, ht])
        (fun ht => by rw [length_allOutputs, length_allOutputs, ht])
        (fun ht r s => by
          rw [← ht]
          exact ownBytes_delimits hca hcb hpS hqS r s)
        (fun hkind r s h => (hbodies hkind r s h).2)
        (fun ht => by rw [length_singleBytes hsa, length_singleBytes hsb, ht])
        hmsg
    rw [← ht] at hagg houts hown hsingle hsb
    have hlock : m.locktime = n.locktime :=
      delimits_le32.injOn trivial trivial (List.append_inj hlock (by simp [le32])).1
    constructor
    · exact ht
    · exact (hbodies hkind [] [] (by rw [hbody])).1 hleaf
    · exact (hparts hsa hsb).mp ⟨hversion, hlock, hagg, houts, hown, hsingle⟩
  · intro h
    rw [← h.hashType] at hsb
    obtain ⟨hversion, hlock, hagg, houts, hown, hsingle⟩ := (hparts hsa hsb).mpr h.context
    have hmsg : a.message H m p = b.message H n q := by
      rw [UnifiedCall.message_eq, UnifiedCall.message_eq, ← h.hashType, ← h.spend, hversion,
        hlock, hagg, houts, hown, hsingle]
    rw [hmsg]

/-- The tags keep the two kinds of digests apart. -/
theorem taproot_digest_ne_unified {a : TapCall} {b : UnifiedCall} {d e : ByteVec 32} {S : Set Bytes}
    (hfree : H.CollisionFree S) (hSa : ∀ s, a.Hashed H s → s ∈ S) (hSb : ∀ s, b.Hashed H s → s ∈ S)
    (ha : a.digest H = .ok d) (hb : b.digest H = .ok e) : d ≠ e := by
  obtain ⟨m, p, hm, hp, -, rfl⟩ := TapCall.digest_eq_ok ha
  obtain ⟨n, q, hn, hq, -, rfl⟩ := UnifiedCall.digest_eq_ok hb
  intro heq
  have htagged := hfree (hSa _ (.message hm hp)) (hSb _ (.message hn hq)) heq
  obtain ⟨htag, -⟩ := delimits_vec 32 _ _ _ _ trivial trivial htagged
  exact absurd (hfree (hSa _ .tag) (hSb _ .tag) htag) (by decide)

/-! ## Both kinds of digests -/

/-- A call whose lengths are those of slices, and whose strings are among `S`. -/
structure TapCall.Admissible (H : Hashes) (S : Set Bytes) (c : TapCall) : Prop where
  wellFormed : c.WellFormed
  sized : c.opts.Sized
  hashed : ∀ s, c.Hashed H s → s ∈ S

structure UnifiedCall.Admissible (H : Hashes) (S : Set Bytes) (c : UnifiedCall) : Prop where
  wellFormed : c.WellFormed
  sized : c.spend.Sized
  hashed : ∀ s, c.Hashed H s → s ∈ S

/-- Without collisions a digest commits to what its hash type signs, with the index
of the input as a 32-bit number, and to its kind. -/
theorem digests_commit {S : Set Bytes} (hfree : H.CollisionFree S) :
    (∀ a b : TapCall, a.Admissible H S → b.Admissible H S →
      ∀ d e, a.digest H = .ok d → b.digest H = .ok e → (d = e ↔ a.Agree b)) ∧
    (∀ a b : UnifiedCall, a.Admissible H S → b.Admissible H S →
      ∀ d e, a.digest H = .ok d → b.digest H = .ok e → (d = e ↔ a.Agree b)) ∧
    ∀ (a : TapCall) (b : UnifiedCall), a.Admissible H S → b.Admissible H S →
      ∀ d e, a.digest H = .ok d → b.digest H = .ok e → d ≠ e := by
  refine ⟨fun a b ha hb d e hd he => ?_, fun a b ha hb d e hd he => ?_, fun a b ha hb d e hd he => ?_⟩
  · exact taproot_digest_eq_iff hfree ha.hashed hb.hashed ha.wellFormed hb.wellFormed ha.sized
      hb.sized hd he
  · exact unified_digest_eq_iff hfree ha.hashed hb.hashed ha.wellFormed hb.wellFormed ha.sized
      hb.sized hd he
  · exact taproot_digest_ne_unified hfree ha.hashed hb.hashed hd he

/-! ## Indexes beyond 32 bits -/

/-- The call for one of `count` inputs that are all the same. -/
def manyInputs (count index : Nat) : TapCall where
  tx := RawTx.source ⟨2, List.replicate count ⟨List.Vector.replicate 32 1, 0, [], 0, []⟩, [], 0⟩
  prevouts := List.replicate count ⟨5000, []⟩
  index := index
  opts := ⟨0x00, none, none⟩

theorem taprootParts_index {tx : TxSource} {m : TaprootMidstate} {i j : Nat} {k : UInt32}
    {p : PrevOut} {opts : TapSighash} {sha : Option (ByteVec 32)} (h : opts.hashType &&& 0x80 = 0) :
    taprootParts H tx m i k p opts sha = taprootParts H tx m j k p opts sha := by
  simp [taprootParts, ownInput, h]

theorem digest_manyInputs (H : Hashes) {count index : Nat} (h : index < count) :
    (manyInputs count index).digest H = .ok (H.taggedHash "TapSighash"
      (taprootParts H (manyInputs count 0).tx
        ⟨2, 0, count, H.sha256 (outpointBytes (manyInputs count 0).tx.inputs),
          H.sha256 (amountBytes (manyInputs count 0).prevouts),
          H.sha256 (scriptBytes (manyInputs count 0).prevouts),
          H.sha256 (sequenceBytes (manyInputs count 0).tx.inputs), H.sha256 (outputBytes [])⟩
        0 (UInt32.ofNat index) ⟨5000, []⟩ ⟨0x00, none, none⟩ none)) := by
  have hcount : (manyInputs count index).prevouts.length = (manyInputs count index).tx.inputCount := by
    rw [manyInputs, RawTx.source, List.length_replicate, List.length_replicate]
  have hm := (taprootMidstateOf_eq_ok (H := H)).mpr ⟨hcount, rfl⟩
  have hp : (manyInputs count index).prevouts[index]? = some ⟨5000, []⟩ := by
    rw [manyInputs, List.getElem?_replicate, if_pos h]
  have hlen : (manyInputs count index).prevouts.length = count := List.length_replicate
  refine bind_eq_ok.mpr ⟨_, hm, bind_eq_ok.mpr ⟨_, okOr_eq_ok.mpr hp, ?_⟩⟩
  have htype : ¬ (0x00 : UInt8) ∉ [0x00, 0x01, 0x02, 0x03, 0x81, 0x82, 0x83] := by decide
  have hsingle : singleOutput H (manyInputs count index).tx (decide ((0x00 : UInt8) &&& 3 = 3)) index =
      .ok none := if_neg (by decide)
  refine (if_neg htype).trans (bind_eq_ok.mpr ⟨_, check_eq_ok.mpr ⟨?_, rfl⟩, ?_⟩)
  · exact hlen.ge.trans_lt' h
  · refine bind_eq_ok.mpr ⟨(), rfl, bind_eq_ok.mpr ⟨none, hsingle, ?_⟩⟩
    have hindex (m : TaprootMidstate) :
        taprootParts H (manyInputs count 0).tx m index (UInt32.ofNat index) ⟨5000, []⟩
            ⟨0x00, none, none⟩ none =
          taprootParts H (manyInputs count 0).tx m 0 (UInt32.ofNat index) ⟨5000, []⟩
            ⟨0x00, none, none⟩ none := taprootParts_index (by decide)
    rw [← hindex, hlen]
    rfl

/-- The index is cut to 32 bits, so a signature for an input serves the one 2^32
inputs behind it as well. -/
theorem index_truncated :
    (∀ H : Hashes, ∃ d, (manyInputs (2 ^ 32 + 1) 0).digest H = .ok d ∧
      (manyInputs (2 ^ 32 + 1) (2 ^ 32)).digest H = .ok d) ∧
    (manyInputs (2 ^ 32 + 1) 0).opts.hashType &&& 0x80 = 0 ∧
    (manyInputs (2 ^ 32 + 1) 0).index ≠ (manyInputs (2 ^ 32 + 1) (2 ^ 32)).index := by
  refine ⟨fun H => ?_, by decide, by decide⟩
  have hfirst := digest_manyInputs H (show 0 < 2 ^ 32 + 1 by decide)
  have hlast := digest_manyInputs H (show 2 ^ 32 < 2 ^ 32 + 1 by decide)
  have hindex : UInt32.ofNat (2 ^ 32) = UInt32.ofNat 0 := by decide
  rw [hindex] at hlast
  exact ⟨_, hfirst, hlast⟩

/-! ## Two transactions that one signature serves -/

/-- A stand-in for the hash that keeps the strings below apart. -/
def sampleHashes : Hashes where
  sha256 data := ⟨le 32 (leVal data % (2 ^ 255 - 19) + 2 ^ 240 * (data.length % 2 ^ 15)), length_le _ _⟩
  ripemd160 _ := List.Vector.replicate 20 0

/-- The second input is not the signed one; its sequence varies. -/
def sampleCall (sequence : UInt32) : TapCall where
  tx := RawTx.source ⟨2, [⟨List.Vector.replicate 32 1, 0, [], 0xfffffffd, []⟩,
    ⟨List.Vector.replicate 32 2, 3, [], sequence, []⟩], [⟨5000, [0x51]⟩], 0⟩
  prevouts := [⟨6000, [0x52]⟩, ⟨7000, [0x53]⟩]
  index := 0
  opts := ⟨0x81, none, none⟩

def sampleStrings (sequence : UInt32) : List Bytes :=
  let c := sampleCall sequence
  let tag := (sampleHashes.sha256 (Hashes.tagBytes "TapSighash")).toList
  [Hashes.tagBytes "TapSighash", outpointBytes c.tx.inputs, amountBytes c.prevouts,
    scriptBytes c.prevouts, sequenceBytes c.tx.inputs, outputBytes c.tx.outputs,
    RawTxOut.encode ⟨5000, [0x51]⟩] ++
  match taprootMidstateOf sampleHashes c.tx c.prevouts with
  | .ok m => [tag ++ (tag ++ c.message sampleHashes m ⟨6000, [0x52]⟩)]
  | .error _ => []

theorem sampleCall_admissible (sequence : UInt32) :
    (sampleCall sequence).Admissible sampleHashes {s | s ∈ sampleStrings sequence} := by
  constructor
  · constructor
    · rfl
    · show ∀ o ∈ ([⟨6000, [0x52]⟩, ⟨7000, [0x53]⟩] : List RawTxOut), o.script.length < 2 ^ 64
      decide
    · show ∀ o ∈ ([⟨5000, [0x51]⟩] : List RawTxOut), o.script.length < 2 ^ 64
      decide
  · intro annex h
    cases h
  · intro s hs
    change s ∈ sampleStrings sequence
    rw [sampleStrings]
    cases hs with
    | tag => simp
    | context h =>
      cases h with
      | output ho =>
        obtain rfl := Option.some.inj ho
        simp
      | _ => simp
    | annex h => cases h
    | message hm hp =>
      obtain rfl := Option.some.inj hp
      rw [hm]
      simp

theorem digests_commit_sample :
    ∃ d, (sampleCall 0).digest sampleHashes = .ok d ∧ (sampleCall 5).digest sampleHashes = .ok d := by
  have hfree : sampleHashes.CollisionFree {s | s ∈ sampleStrings 0 ++ sampleStrings 5} := by
    have hall : ∀ s ∈ sampleStrings 0 ++ sampleStrings 5, ∀ t ∈ sampleStrings 0 ++ sampleStrings 5,
        sampleHashes.sha256 s = sampleHashes.sha256 t → s = t := by decide +kernel
    exact fun s hs t ht h => hall s hs t ht h
  have hadmissible (sequence : UInt32)
      (hsub : ∀ s ∈ sampleStrings sequence, s ∈ sampleStrings 0 ++ sampleStrings 5) :
      (sampleCall sequence).Admissible sampleHashes {s | s ∈ sampleStrings 0 ++ sampleStrings 5} :=
    ⟨(sampleCall_admissible sequence).wellFormed, (sampleCall_admissible sequence).sized,
      fun s hs => hsub s ((sampleCall_admissible sequence).hashed s hs)⟩
  have hfirst : ((sampleCall 0).digest sampleHashes).isOk = true := by decide
  have hsecond : ((sampleCall 5).digest sampleHashes).isOk = true := by decide
  obtain ⟨d, hd⟩ := exists_ok_of_isOk hfirst
  obtain ⟨e, he⟩ := exists_ok_of_isOk hsecond
  have hagree : (sampleCall 0).Agree (sampleCall 5) := by
    constructor
    · rfl
    · rfl
    · rfl
    · constructor
      · rfl
      · rfl
      · intro h
        exact absurd h (by decide)
      · intro _
        exact ⟨rfl, rfl, rfl⟩
      · intro _ _
        rfl
      · intro _
        rfl
  have heq := ((digests_commit hfree).1 _ _ (hadmissible 0 fun s hs => List.mem_append_left _ hs)
    (hadmissible 5 fun s hs => List.mem_append_right _ hs) d e hd he).mpr hagree
  exact ⟨d, hd, by rw [heq]; exact he⟩

end Outscript
