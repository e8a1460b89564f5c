import Outscript.Zcash.Digest

/-!
# Zcash transactions are read back

The parser and the digests agree on where a bundle ends. What is parsed is
written as it was received when its compact sizes were in their shortest form,
and only then: a longer form is read as the same number.
-/
namespace Outscript.Zcash

open ByteString Cursor Fallible

/-! ## What is accepted -/

theorem accepts_word : Accepts word fun b v => b = le32 v := by
  refine ((accepts_take _ 4).bind fun bytes => accepts_pure _).congr fun b v => ?_
  constructor
  · rintro ⟨_, _, bytes, ⟨hlen, rfl⟩, ⟨rfl, rfl⟩, rfl⟩
    rw [List.append_nil, le32_leVal hlen]
  · rintro rfl
    refine ⟨le32 v, [], le32 v, ⟨length_le 4 _, rfl⟩, ⟨rfl, ?_⟩, (List.append_nil _).symm⟩
    rw [le32, leVal_le_of_lt v.toNat_lt, UInt32.ofNat_toNat]

theorem accepts_readAmount : Accepts readAmount fun b v => b = le64 v := by
  refine ((accepts_take _ 8).bind fun bytes => accepts_pure _).congr fun b v => ?_
  constructor
  · rintro ⟨_, _, bytes, ⟨hlen, rfl⟩, ⟨rfl, rfl⟩, rfl⟩
    rw [List.append_nil, le64_leVal hlen]
  · rintro rfl
    refine ⟨le64 v, [], le64 v, ⟨length_le 8 _, rfl⟩, ⟨rfl, ?_⟩, (List.append_nil _).symm⟩
    rw [le64, leVal_le_of_lt v.toNat_lt, UInt64.ofNat_toNat]

/-- A script between fixed fields, behind a form of its length. -/
def Framed (before script after b : Bytes) : Prop :=
  ∃ w, Form w script.length ∧ (w ++ script).length < 2 ^ 64 ∧ b = before ++ (w ++ (script ++ after))

def InputOf (b : Bytes) (i : ZcashTxIn) : Prop := Framed i.outpoint i.scriptSig (le32 i.sequence) b

def OutputOf (b : Bytes) (o : ZcashTxOut) : Prop := Framed (le64 o.amount) o.script [] b

theorem items_one {b items : Bytes} {n : Nat} :
    Items 1 b n items ↔ n = items.length ∧
      ∃ w, Form w items.length ∧ (w ++ items).length < 2 ^ 64 ∧ b = w ++ items := by
  constructor
  · rintro ⟨w, hw, rfl, hlen, hlt⟩
    rw [Nat.mul_one] at hlen
    subst hlen
    exact ⟨rfl, w, hw, hlt, rfl⟩
  · rintro ⟨rfl, w, hw, hlt, rfl⟩
    exact ⟨w, hw, rfl, (Nat.mul_one _).symm, hlt⟩

theorem accepts_readInput : Accepts readInput InputOf := by
  refine ((decodes_takeVec _ 32).accepts.bind fun txid => accepts_word.bind fun vout =>
    (accepts_takeItems 1).bind fun s => accepts_word.bind fun sequence =>
      accepts_pure (⟨txid.reverse, vout, s.2, sequence⟩ : ZcashTxIn)).congr ?_
  rintro b ⟨txid, vout, scriptSig, sequence⟩
  constructor
  · rintro ⟨_, _, id, ⟨-, rfl⟩, ⟨_, _, v, rfl, ⟨_, _, ⟨n, script⟩, hs, ⟨_, _, q, rfl,
      ⟨rfl, heq⟩, rfl⟩, rfl⟩, rfl⟩, rfl⟩
    cases heq
    obtain ⟨-, w, hw, hlt, rfl⟩ := items_one.mp hs
    refine ⟨w, hw, hlt, ?_⟩
    simp [ZcashTxIn.outpoint, List.Vector.reverse_reverse]
  · rintro ⟨w, hw, hlt, rfl⟩
    refine ⟨txid.reverse.toList, _, txid.reverse, ⟨trivial, rfl⟩, ⟨le32 vout, _, vout, rfl,
      ⟨w ++ scriptSig, le32 sequence, (scriptSig.length, scriptSig),
        items_one.mpr ⟨rfl, w, hw, hlt, rfl⟩, ⟨le32 sequence, [], sequence, rfl, ⟨rfl, ?_⟩, ?_⟩, rfl⟩,
      rfl⟩, ?_⟩
    · rw [List.Vector.reverse_reverse]
    · rw [List.append_nil]
    · simp [ZcashTxIn.outpoint]

theorem accepts_readOutput : Accepts readOutput OutputOf := by
  refine (accepts_readAmount.bind fun amount => (accepts_takeItems 1).bind fun s =>
      accepts_pure (⟨amount, s.2⟩ : ZcashTxOut)).congr ?_
  rintro b ⟨amount, script⟩
  constructor
  · rintro ⟨_, _, a, rfl, ⟨_, _, ⟨n, script⟩, hs, ⟨rfl, heq⟩, rfl⟩, rfl⟩
    cases heq
    obtain ⟨-, w, hw, hlt, rfl⟩ := items_one.mp hs
    exact ⟨w, hw, hlt, by simp⟩
  · rintro ⟨w, hw, hlt, rfl⟩
    exact ⟨_, _, amount, rfl, ⟨w ++ script, [], (script.length, script),
      items_one.mpr ⟨rfl, w, hw, hlt, rfl⟩, ⟨rfl, rfl⟩, rfl⟩, by simp⟩

theorem accepts_readHeader :
    Accepts readHeader fun b h => b = le32 versionV5 ++ (le32 versionGroupIdV5 ++
      (le32 h.1 ++ (le32 h.2.1 ++ le32 h.2.2))) := by
  refine (accepts_word.bind fun version => (accepts_word.bind fun group =>
    (accepts_word.bind fun branch => accepts_word.bind fun lock => accepts_word.bind fun expiry =>
      accepts_pure (branch, lock, expiry)).require _).require _).congr ?_
  rintro b ⟨branch, lock, expiry⟩
  constructor
  · rintro ⟨_, _, version, rfl, ⟨rfl, _, _, group, rfl, ⟨rfl, _, _, x, rfl, ⟨_, _, y, rfl,
      ⟨_, _, z, rfl, ⟨rfl, heq⟩, rfl⟩, rfl⟩, rfl⟩, rfl⟩, rfl⟩
    cases heq
    rw [List.append_nil]
  · rintro rfl
    exact ⟨_, _, versionV5, rfl, ⟨rfl, _, _, versionGroupIdV5, rfl, ⟨rfl, _, _, branch, rfl,
      ⟨_, _, lock, rfl, ⟨le32 expiry, [], expiry, rfl, ⟨rfl, rfl⟩, (List.append_nil _).symm⟩, rfl⟩,
      rfl⟩, rfl⟩, rfl⟩

theorem length_form {w : Bytes} {v : Nat} (h : Form w v) : 0 < w.length ∧ w.length ≤ 9 := by
  obtain ⟨-, hle, hlt⟩ := BtcVarInt.len_le_of_decode h
  exact ⟨(BtcVarInt.len_pos v).trans_le hle, hlt⟩

theorem items_zero {b items : Bytes} {n : Nat} : Items 0 b n items ↔ items = [] ∧ Form b n := by
  constructor
  · rintro ⟨w, hw, rfl, hlen, -⟩
    obtain rfl := List.eq_nil_of_length_eq_zero hlen
    exact ⟨rfl, by rwa [List.append_nil]⟩
  · rintro ⟨rfl, hb⟩
    exact ⟨b, hb, (List.append_nil b).symm, rfl, (length_form hb).2.trans_lt (by decide)⟩

/-- A list behind a form of its length. -/
def Counted {α : Type} (R : Bytes → α → Prop) (cap : Nat) (b : Bytes) (l : List α) : Prop :=
  l.length ≤ cap ∧ ∃ w bs, Form w l.length ∧ List.Forall₂ R bs l ∧ b = w ++ bs.flatten

theorem accepts_readCounted {α : Type} {p : Read UInt8 Trap α} {R : Bytes → α → Prop}
    (hp : Accepts p R) (cap : Nat) : Accepts (readCounted p cap) (Counted R cap) := by
  refine ((accepts_takeItems 0).bind fun s => (hp.many s.1).require _).congr fun b l => ?_
  constructor
  · rintro ⟨w, _, ⟨n, items⟩, hw, ⟨hcap, rfl, bs, hall, rfl⟩, rfl⟩
    exact ⟨hcap, w, bs, (items_zero.mp hw).2, hall, rfl⟩
  · rintro ⟨hcap, w, bs, hw, hall, rfl⟩
    exact ⟨w, _, (l.length, []), items_zero.mpr ⟨rfl, hw⟩, ⟨hcap, rfl, bs, hall, rfl⟩, rfl⟩

/-- A serialized transaction, whatever forms its compact sizes are in. -/
def TxOf (inputsCap outputsCap : Nat) (b : Bytes) (tx : ZcashTx) : Prop :=
  ∃ inputs outputs sapling orchard,
    b = tx.header ++ (inputs ++ (outputs ++ (sapling ++ orchard))) ∧
    Counted InputOf inputsCap inputs tx.inputs ∧ Counted OutputOf outputsCap outputs tx.outputs ∧
    (∃ s, SaplingOf sapling s) ∧ (∃ o, OrchardOf orchard o) ∧
    tx.sapling = (if sapling = noSapling then [] else sapling) ∧
    tx.orchard = (if orchard = noOrchard then [] else orchard)

theorem accepts_readTx (inputsCap outputsCap : Nat) :
    Accepts (readTx inputsCap outputsCap) (TxOf inputsCap outputsCap) := by
  refine (accepts_readHeader.bind fun h => (accepts_readCounted accepts_readInput inputsCap).bind fun i =>
    (accepts_readCounted accepts_readOutput outputsCap).bind fun o => accepts_skipSapling.span.bind
      fun s => accepts_skipOrchard.span.bind fun t => accepts_pure (⟨h.1, h.2.1, h.2.2, i, o,
        if s = noSapling then [] else s, if t = noOrchard then [] else t⟩ : ZcashTx)).congr ?_
  rintro b ⟨branch, lock, expiry, inputs, outputs, sapling, orchard⟩
  constructor
  · rintro ⟨_, _, h, rfl, ⟨ins, _, i, hi, ⟨outs, _, o, ho, ⟨sap, _, _, ⟨rfl, _, hs⟩, ⟨orch, _, _,
      ⟨rfl, _, ht⟩, ⟨rfl, heq⟩, rfl⟩, rfl⟩, rfl⟩, rfl⟩, rfl⟩
    cases heq
    rw [List.append_nil]
    exact ⟨ins, outs, _, _, rfl, hi, ho, hs, ht, rfl, rfl⟩
  · rintro ⟨ins, outs, sap, orch, rfl, hi, ho, hs, ht, hsap, horch⟩
    dsimp only at hi ho hsap horch
    subst hsap horch
    exact ⟨_, _, (branch, lock, expiry), rfl, ⟨ins, _, inputs, hi, ⟨outs, _, outputs, ho,
      ⟨sap, _, sap, ⟨rfl, (), hs⟩, ⟨orch, [], orch, ⟨rfl, (), ht⟩, ⟨rfl, rfl⟩,
        (List.append_nil _).symm⟩, rfl⟩, rfl⟩, rfl⟩, rfl⟩

theorem parseInto_eq_ok {data : Bytes} {inputsCap outputsCap : Nat} {tx : ZcashTx} :
    ZcashTx.parseInto data inputsCap outputsCap = .ok tx ↔ TxOf inputsCap outputsCap data tx :=
  whole_eq_ok (accepts_readTx inputsCap outputsCap)

/-! ## Parsing what was written -/

theorem form_toArray {v : Nat} (h : v < 2 ^ 64) : Form (BtcVarInt.toArray v) v := by
  have hdecode := BtcVarInt.decode_toArray h []
  rwa [List.append_nil] at hdecode

theorem ne_nil_of_items {itemLen count : Nat} {b items : Bytes} (h : Items itemLen b count items) :
    b ≠ [] := by
  obtain ⟨w, hw, rfl, -⟩ := h
  have hpos := (length_form hw).1
  exact fun hnil => by rw [(List.append_eq_nil_iff.mp hnil).1] at hpos; exact absurd hpos (by decide)

theorem ne_nil_of_sapling {b : Bytes} {s : Sapling} (h : SaplingOf b s) : b ≠ [] := by
  obtain ⟨_, _, _, _, _, rfl, hs, -⟩ := h
  exact fun hnil => ne_nil_of_items hs (List.append_eq_nil_iff.mp hnil).1

theorem ne_nil_of_orchard {b : Bytes} {o : Orchard} (h : OrchardOf b o) : b ≠ [] := by
  obtain ⟨_, _, _, rfl, ha, -⟩ := h
  exact fun hnil => ne_nil_of_items ha (List.append_eq_nil_iff.mp hnil).1

theorem framed_encode {before script after : Bytes} (h : (varSlice script).length < 2 ^ 64) :
    Framed before script after (before ++ (varSlice script ++ after)) := by
  have hlt : script.length < 2 ^ 64 := by
    rw [varSlice, List.length_append] at h
    omega
  exact ⟨_, form_toArray hlt, h, by rw [varSlice, List.append_assoc]⟩

theorem counted_encode {α : Type} {R : Bytes → α → Prop} {enc : α → Bytes} {cap : Nat} {l : List α}
    (h : ∀ a ∈ l, R (enc a) a) (hcap : l.length ≤ cap) (hlen : l.length < 2 ^ 64) :
    Counted R cap (BtcVarInt.toArray l.length ++ l.flatMap enc) l := by
  refine ⟨hcap, _, l.map enc, form_toArray hlen, ?_, rfl⟩
  rw [List.forall₂_map_left_iff]
  exact List.forall₂_same.mpr h

/-- Encodings that are not empty are at least as long as their number. -/
theorem length_le_flatMap {α : Type} {enc : α → Bytes} (hne : ∀ a, 0 < (enc a).length) (l : List α) :
    l.length ≤ (l.flatMap enc).length := by
  induction l with
  | nil => exact le_rfl
  | cons a l ih =>
    have hpos := hne a
    rw [List.flatMap_cons, List.length_append, List.length_cons]
    omega

theorem length_le_of_mem {α : Type} {enc : α → Bytes} {l : List α} {a : α} (h : a ∈ l) :
    (enc a).length ≤ (l.flatMap enc).length := by
  obtain ⟨s, t, rfl⟩ := List.append_of_mem h
  simp only [List.flatMap_append, List.flatMap_cons, List.length_append]
  omega

theorem length_encode_input (i : ZcashTxIn) : (varSlice i.scriptSig).length < i.encode.length := by
  simp only [ZcashTxIn.encode, List.length_append, le32, length_le]
  omega

theorem length_encode_output (o : ZcashTxOut) : (varSlice o.script).length < o.encode.length := by
  simp only [ZcashTxOut.encode, List.length_append, le64, length_le]
  omega

namespace ZcashTx

/-- The canonical empty bundles are read back as empty. -/
def readBack (tx : ZcashTx) : ZcashTx where
  consensusBranchId := tx.consensusBranchId
  lockTime := tx.lockTime
  expiryHeight := tx.expiryHeight
  inputs := tx.inputs
  outputs := tx.outputs
  sapling := if tx.sapling = noSapling then [] else tx.sapling
  orchard := if tx.orchard = noOrchard then [] else tx.orchard

variable {tx : ZcashTx}

theorem saplingOf_bytes (h : tx.sapling = [] ∨ ∃ s, parseSapling tx.sapling = .ok s) :
    (∃ s, SaplingOf tx.saplingBytes s) ∧
      (if tx.saplingBytes = noSapling then [] else tx.saplingBytes) = tx.readBack.sapling := by
  rw [saplingBytes, readBack]
  rcases h with hnil | ⟨s, hs⟩
  · rw [if_pos hnil, hnil]
    exact ⟨⟨⟨[], [], [], []⟩, parseSapling_eq_ok.mp (by decide)⟩, rfl⟩
  · rw [parseSapling_eq_ok] at hs
    rw [if_neg (ne_nil_of_sapling hs)]
    exact ⟨⟨s, hs⟩, rfl⟩

theorem orchardOf_bytes (h : tx.orchard = [] ∨ ∃ o, parseOrchard tx.orchard = .ok o) :
    (∃ o, OrchardOf tx.orchardBytes o) ∧
      (if tx.orchardBytes = noOrchard then [] else tx.orchardBytes) = tx.readBack.orchard := by
  rw [orchardBytes, readBack]
  rcases h with hnil | ⟨o, ho⟩
  · rw [if_pos hnil, hnil]
    exact ⟨⟨⟨[], []⟩, parseOrchard_eq_ok.mp (by decide)⟩, rfl⟩
  · rw [parseOrchard_eq_ok] at ho
    rw [if_neg (ne_nil_of_orchard ho)]
    exact ⟨⟨o, ho⟩, rfl⟩

theorem parse_encoding {inputsCap outputsCap : Nat}
    (hsapling : tx.sapling = [] ∨ ∃ s, parseSapling tx.sapling = .ok s)
    (horchard : tx.orchard = [] ∨ ∃ o, parseOrchard tx.orchard = .ok o)
    (hlen : tx.encoding.length < 2 ^ 64) (hinputs : tx.inputs.length ≤ inputsCap)
    (houtputs : tx.outputs.length ≤ outputsCap) :
    parseInto tx.encoding inputsCap outputsCap = .ok tx.readBack := by
  obtain ⟨hs, hsBack⟩ := saplingOf_bytes hsapling
  obtain ⟨ho, hoBack⟩ := orchardOf_bytes horchard
  have hi := length_le_flatMap (fun i => (Nat.zero_le _).trans_lt (length_encode_input i)) tx.inputs
  have hj := length_le_flatMap (fun o => (Nat.zero_le _).trans_lt (length_encode_output o)) tx.outputs
  simp only [encoding, List.length_append] at hlen
  refine parseInto_eq_ok.mpr ⟨_, _, tx.saplingBytes, tx.orchardBytes, rfl,
    counted_encode (fun i hmem => framed_encode ?_) hinputs (by omega),
    counted_encode (fun o hmem => ?_) houtputs (by omega), hs, ho, hsBack.symm, hoBack.symm⟩
  · have hlt := length_encode_input i
    have hle := @length_le_of_mem _ ZcashTxIn.encode _ _ hmem
    omega
  · have hlt := length_encode_output o
    have hle := @length_le_of_mem _ ZcashTxOut.encode _ _ hmem
    have hframed : OutputOf (le64 o.amount ++ (varSlice o.script ++ [])) o := framed_encode (by omega)
    rwa [List.append_nil] at hframed

theorem saplingBytes_eq {b : Bytes} (hs : ∃ s, SaplingOf b s)
    (h : tx.sapling = if b = noSapling then [] else b) : tx.saplingBytes = b := by
  obtain ⟨s, hs⟩ := hs
  have hne := ne_nil_of_sapling hs
  rw [saplingBytes, h]
  by_cases hempty : b = noSapling
  · rw [if_pos hempty, if_pos rfl, hempty]
  · rw [if_neg hempty, if_neg hne]

theorem orchardBytes_eq {b : Bytes} (ho : ∃ o, OrchardOf b o)
    (h : tx.orchard = if b = noOrchard then [] else b) : tx.orchardBytes = b := by
  obtain ⟨o, ho⟩ := ho
  have hne := ne_nil_of_orchard ho
  rw [orchardBytes, h]
  by_cases hempty : b = noOrchard
  · rw [if_pos hempty, if_pos rfl, hempty]
  · rw [if_neg hempty, if_neg hne]

/-- The bundles end the input, and were accepted. -/
theorem bundles_of_parse {data : Bytes} {inputsCap outputsCap : Nat}
    (h : parseInto data inputsCap outputsCap = .ok tx) :
    (∃ front, data = front ++ (tx.saplingBytes ++ tx.orchardBytes)) ∧
      (∃ s, parseSapling tx.saplingBytes = .ok s) ∧ ∃ o, parseOrchard tx.orchardBytes = .ok o := by
  obtain ⟨ins, outs, sap, orch, rfl, -, -, hs, ho, hsap, horch⟩ := parseInto_eq_ok.mp h
  have hsapBytes := saplingBytes_eq hs hsap
  have horchBytes := orchardBytes_eq ho horch
  obtain ⟨s, hs⟩ := hs
  obtain ⟨o, ho⟩ := ho
  rw [hsapBytes, horchBytes]
  refine ⟨⟨tx.header ++ (ins ++ outs), ?_⟩, ⟨s, parseSapling_eq_ok.mpr hs⟩, o, parseOrchard_eq_ok.mpr ho⟩
  simp only [List.append_assoc]

/-- The errors of a signature digest that come from its arguments. -/
def argumentErrors : List Trap :=
  [.error .unsupportedSighash, .error .inputIndex, .error .outputIndex, .error .prevOutCount]

theorem txDigest_ok {H : PersonalHash} (hs : ∃ s, parseSapling tx.saplingBytes = .ok s)
    (ho : ∃ o, parseOrchard tx.orchardBytes = .ok o) (transparent : ByteVec 32) :
    ∃ id, tx.txDigest H transparent = .ok id := by
  obtain ⟨s, hs⟩ := hs
  obtain ⟨o, ho⟩ := ho
  rw [txDigest, saplingDigest, hs, ok_bind, ok_bind, orchardDigest, ho, ok_bind, ok_bind]
  exact ⟨_, rfl⟩

theorem checkSighash_error {index : Option Nat} {hashType : UInt8} {e : Error}
    (h : tx.checkSighash index hashType = .error e) : .error e ∈ argumentErrors := by
  simp only [checkSighash] at h
  cases index with
  | none =>
    dsimp only at h
    split_ifs at h <;> cases h <;> decide
  | some i =>
    dsimp only at h
    split_ifs at h <;> cases h <;> decide

/-- With the bundles accepted, a signature digest fails on its arguments only. -/
theorem sighash_error {H : PersonalHash} (hs : ∃ s, parseSapling tx.saplingBytes = .ok s)
    (ho : ∃ o, parseOrchard tx.orchardBytes = .ok o) {index : Option Nat} {hashType : UInt8}
    {prevouts : List ZcashTxOut} {e : Trap} (h : tx.sighash H index hashType prevouts = .error e) :
    e ∈ argumentErrors := by
  have hnever : ∀ t, tx.txDigest H t ≠ .error e := by
    intro t hfail
    obtain ⟨id, hid⟩ := txDigest_ok hs ho t
    rw [hid] at hfail
    cases hfail
  rw [sighash] at h
  cases hcheck : tx.checkSighash index hashType with
  | error e' =>
    rw [hcheck] at h
    cases h
    exact checkSighash_error hcheck
  | ok =>
    rw [hcheck, orTrap_ok, ok_bind] at h
    split_ifs at h with hempty
    · exact absurd h (hnever _)
    cases hprevouts : tx.checkPrevouts index hashType prevouts with
    | error e' =>
      rw [hprevouts] at h
      cases h
      rw [checkPrevouts] at hprevouts
      split_ifs at hprevouts
      cases hprevouts
      decide
    | ok =>
      rw [hprevouts, orTrap_ok, ok_bind] at h
      have hready : ∃ outputs own, tx.signedOutputs index hashType = .ok outputs ∧
          tx.ownInput index prevouts = .ok own := by
        cases index with
        | none =>
          refine ⟨if baseType hashType = sighashNone then [] else tx.outputs, none, ?_, rfl⟩
          rw [signedOutputs]
          split_ifs <;> rfl
        | some i =>
          obtain ⟨outputs, input, prevout, -, hout, hown⟩ := signs_of_checks hcheck hprevouts
          exact ⟨outputs, _, hout, hown⟩
      obtain ⟨outputs, own, hout, hown⟩ := hready
      rw [hout, ok_bind, hown, ok_bind] at h
      exact absurd h (hnever _)

/-- Parsing and the digests agree on where a bundle ends. -/
theorem bundles_agree :
    (∀ (tx : ZcashTx) (inputsCap outputsCap : Nat),
      (tx.sapling = [] ∨ ∃ s, parseSapling tx.sapling = .ok s) →
      (tx.orchard = [] ∨ ∃ o, parseOrchard tx.orchard = .ok o) →
      tx.serializedLen < 2 ^ 63 → tx.inputs.length ≤ inputsCap → tx.outputs.length ≤ outputsCap →
      ∃ raw, tx.serialize = .ok raw ∧ parseInto raw inputsCap outputsCap = .ok tx.readBack) ∧
    ∀ (data : Bytes) (inputsCap outputsCap : Nat) (tx : ZcashTx),
      parseInto data inputsCap outputsCap = .ok tx →
      (∃ front, data = front ++ (tx.saplingBytes ++ tx.orchardBytes)) ∧
      (∃ s, parseSapling tx.saplingBytes = .ok s) ∧ (∃ o, parseOrchard tx.orchardBytes = .ok o) ∧
      ∀ H : PersonalHash, (∃ id, tx.txid H = .ok id) ∧
        ∀ index hashType prevouts e, tx.sighash H index hashType prevouts = .error e →
          e ∈ argumentErrors := by
  constructor
  · intro tx inputsCap outputsCap hs ho hlen hi hj
    rw [serializedLen_eq] at hlen
    exact ⟨tx.encoding, tx.serialize_eq, parse_encoding hs ho (hlen.trans (by decide)) hi hj⟩
  · intro data inputsCap outputsCap tx h
    obtain ⟨hfront, hs, ho⟩ := bundles_of_parse h
    refine ⟨hfront, hs, ho, fun H => ⟨?_, fun index hashType prevouts e => sighash_error hs ho⟩⟩
    obtain ⟨id, hid⟩ := @txDigest_ok tx H hs ho (tx.transparentDigest H)
    exact ⟨id.reverse, by rw [txid, hid, ok_bind]⟩

/-- One input, one output, one Sapling spend, and an explicit empty Orchard bundle. -/
def sampleTx : ZcashTx where
  consensusBranchId := 0x5437f330
  lockTime := 0
  expiryHeight := 3200000
  inputs := [{ txid := List.Vector.replicate 32 0x11, vout := 1, scriptSig := [0x51], sequence := 0 }]
  outputs := [{ amount := 90000, script := [0x6a, 0x00] }]
  sapling := [1] ++ (List.replicate 96 7 ++ ([0] ++ (List.replicate 40 1 ++ List.replicate 320 2)))
  orchard := [0]

theorem bundles_agree_sample :
    ∃ raw, sampleTx.serialize = .ok raw ∧ parseInto raw 1 1 = .ok sampleTx.readBack ∧
      sampleTx.readBack.orchard = [] ∧
      ∃ id, sampleTx.readBack.txid (fun _ _ => List.Vector.replicate 32 0) = .ok id := by
  obtain ⟨hwrite, hparse⟩ := bundles_agree
  have hsapling : ∃ s, parseSapling sampleTx.sapling = .ok s :=
    exists_ok_of_isOk (by decide +kernel)
  have horchard : ∃ o, parseOrchard sampleTx.orchard = .ok o :=
    exists_ok_of_isOk (by decide)
  obtain ⟨raw, hraw, hread⟩ :=
    hwrite sampleTx 1 1 (Or.inr hsapling) (Or.inr horchard) (by decide +kernel) le_rfl le_rfl
  obtain ⟨-, -, -, hdigest⟩ := hparse raw 1 1 _ hread
  exact ⟨raw, hraw, hread, rfl, (hdigest _).1⟩

end ZcashTx

/-! ## One encoding -/

/-- The size of a script that stands between fields of fixed lengths. -/
def sizeWithin (front back : Nat) : Read UInt8 Trap (Nat × Nat) := do
  let _ ← takeBytes front
  let s ← takeSize
  let _ ← takeBytes (s.1 + back)
  return s

/-- The compact sizes outside the bundles, each with the number of bytes it takes. -/
def compactSizes : Read UInt8 Trap (List (Nat × Nat)) := do
  let _ ← takeBytes 20
  let n ← takeSize
  let inputs ← many (sizeWithin 36 4) n.1
  let m ← takeSize
  let outputs ← many (sizeWithin 8 0) m.1
  return n :: (inputs ++ m :: outputs)

/-- A number in no more bytes than it needs. -/
def Short (s : Nat × Nat) : Prop := BtcVarInt.len s.1 = s.2

/-- Every compact size outside the bundles is in its shortest form. -/
def Shortest (data : Bytes) : Prop :=
  ∀ sizes c, compactSizes.run (start data) = .ok (sizes, c) → ∀ s ∈ sizes, Short s

def SizeIn (front back : Nat) (b : Bytes) (s : Nat × Nat) : Prop :=
  ∃ x w y, x.length = front ∧ Form w s.1 ∧ s.2 = w.length ∧ y.length = s.1 + back ∧ b = x ++ (w ++ y)

theorem accepts_sizeWithin (front back : Nat) : Accepts (sizeWithin front back) (SizeIn front back) := by
  refine ((accepts_take _ front).bind fun _ => accepts_takeSize.bind fun s =>
    (accepts_take _ (s.1 + back)).bind fun _ => accepts_pure s).congr ?_
  rintro b ⟨v, n⟩
  constructor
  · rintro ⟨_, _, x, ⟨hx, rfl⟩, ⟨w, _, ⟨v', n'⟩, ⟨hw, hn⟩, ⟨_, _, y, ⟨hy, rfl⟩, ⟨rfl, heq⟩, rfl⟩, rfl⟩, rfl⟩
    cases heq
    rw [List.append_nil]
    exact ⟨x, w, y, hx, hw, hn, hy, rfl⟩
  · rintro ⟨x, w, y, hx, hw, hn, hy, rfl⟩
    exact ⟨x, _, x, ⟨hx, rfl⟩, ⟨w, _, (v, n), ⟨hw, hn⟩, ⟨y, [], y, ⟨hy, rfl⟩, ⟨rfl, rfl⟩,
      (List.append_nil _).symm⟩, rfl⟩, rfl⟩

theorem reads_compactSizes {front wn wm : Bytes} {bi bo : List Bytes} {si so : List (Nat × Nat)}
    (hfront : front.length = 20) (hn : Form wn si.length) (hi : List.Forall₂ (SizeIn 36 4) bi si)
    (hm : Form wm so.length) (ho : List.Forall₂ (SizeIn 8 0) bo so) :
    Reads compactSizes (front ++ (wn ++ (bi.flatten ++ (wm ++ bo.flatten))))
      ((si.length, wn.length) :: (si ++ (so.length, wm.length) :: so)) := by
  have hinputs := ((accepts_sizeWithin 36 4).many si.length).reads ⟨rfl, bi, hi, rfl⟩
  have houtputs := ((accepts_sizeWithin 8 0).many so.length).reads ⟨rfl, bo, ho, rfl⟩
  have hsize : ∀ {w v}, Form w v → Reads takeSize w (v, w.length) := fun hw =>
    accepts_takeSize.reads ⟨hw, rfl⟩
  refine Reads.bind ((accepts_take _ 20).reads ⟨hfront, rfl⟩) ((hsize hn).bind (hinputs.bind
    ((hsize hm).bind ?_)))
  exact houtputs.bind_pure fun outputs => (si.length, wn.length) :: (si ++ (so.length, wm.length) :: outputs)

theorem form_eq_toArray {w : Bytes} {v : Nat} (h : Form w v) (hshort : Short (v, w.length)) :
    w = BtcVarInt.toArray v := by
  obtain ⟨-, r, hr⟩ := BtcVarInt.eq_toArray_of_decode h hshort
  have hlen := congrArg List.length hr
  rw [List.length_append, BtcVarInt.length_toArray, (show BtcVarInt.len v = w.length from hshort)] at hlen
  obtain rfl := List.eq_nil_of_length_eq_zero (show r.length = 0 by omega)
  rw [hr, List.append_nil]

section Framed

variable {before script after b : Bytes}

theorem sizeIn_of_framed (h : Framed before script after b) :
    ∃ s, SizeIn before.length after.length b s ∧
      (Short s → b = before ++ (varSlice script ++ after)) := by
  obtain ⟨w, hw, -, rfl⟩ := h
  refine ⟨(script.length, w.length), ⟨before, w, script ++ after, rfl, hw, rfl, ?_, rfl⟩, fun hshort => ?_⟩
  · rw [List.length_append]
  · rw [varSlice, List.append_assoc, ← form_eq_toArray hw hshort]

theorem short_of_framed (h : Framed before script after b) :
    ∃ s, SizeIn before.length after.length (before ++ (varSlice script ++ after)) s ∧ Short s := by
  obtain ⟨w, -, hlt, rfl⟩ := h
  rw [List.length_append] at hlt
  refine ⟨(script.length, BtcVarInt.len script.length), ⟨before, _, script ++ after, rfl,
    form_toArray (by omega), rfl, ?_, ?_⟩, rfl⟩
  · rw [List.length_append]
  · rw [varSlice, List.append_assoc]

end Framed

section Lists

variable {α : Type} {R : Bytes → α → Prop} {enc : α → Bytes} {front back : Nat} {bs : List Bytes}
  {l : List α}

/-- The sizes of a list, which tell whether its parts are as they are written. -/
theorem sizes_of_list (hR : ∀ b a, R b a → ∃ s, SizeIn front back b s ∧ (Short s → b = enc a))
    (h : List.Forall₂ R bs l) : ∃ sizes, List.Forall₂ (SizeIn front back) bs sizes ∧
      sizes.length = l.length ∧ ((∀ s ∈ sizes, Short s) → bs.flatten = l.flatMap enc) := by
  induction h with
  | nil => exact ⟨[], .nil, rfl, fun _ => rfl⟩
  | cons hhead _ ih =>
    obtain ⟨s, hs, hhead⟩ := hR _ _ hhead
    obtain ⟨sizes, hall, hlen, htail⟩ := ih
    refine ⟨s :: sizes, hall.cons hs, by rw [List.length_cons, List.length_cons, hlen], fun hshort => ?_⟩
    rw [List.forall_mem_cons] at hshort
    rw [List.flatten_cons, List.flatMap_cons, ← hhead hshort.1, htail hshort.2]

/-- What is written has short sizes. -/
theorem short_sizes (hR : ∀ b a, R b a → ∃ s, SizeIn front back (enc a) s ∧ Short s)
    (h : List.Forall₂ R bs l) : ∃ sizes, List.Forall₂ (SizeIn front back) (l.map enc) sizes ∧
      sizes.length = l.length ∧ ∀ s ∈ sizes, Short s := by
  induction h with
  | nil => exact ⟨[], .nil, rfl, fun _ hs => nomatch hs⟩
  | cons hhead _ ih =>
    obtain ⟨s, hs, hshort⟩ := hR _ _ hhead
    obtain ⟨sizes, hall, hlen, htail⟩ := ih
    exact ⟨s :: sizes, hall.cons hs, by rw [List.length_cons, List.length_cons, hlen],
      List.forall_mem_cons.mpr ⟨hshort, htail⟩⟩

end Lists

theorem length_outpoint (i : ZcashTxIn) : i.outpoint.length = 36 := by
  rw [ZcashTxIn.outpoint, List.length_append, i.txid.reverse.toList_length, le32, length_le]

theorem size_of_input {b : Bytes} {i : ZcashTxIn} (h : InputOf b i) :
    ∃ s, SizeIn 36 4 b s ∧ (Short s → b = i.encode) := by
  have hsize := sizeIn_of_framed h
  rwa [length_outpoint, le32, length_le] at hsize

theorem short_of_input {b : Bytes} {i : ZcashTxIn} (h : InputOf b i) :
    ∃ s, SizeIn 36 4 i.encode s ∧ Short s := by
  have hsize := short_of_framed h
  rwa [length_outpoint, le32, length_le] at hsize

theorem size_of_output {b : Bytes} {o : ZcashTxOut} (h : OutputOf b o) :
    ∃ s, SizeIn 8 0 b s ∧ (Short s → b = o.encode) := by
  have hsize := sizeIn_of_framed h
  rwa [le64, length_le, List.append_nil] at hsize

theorem short_of_output {b : Bytes} {o : ZcashTxOut} (h : OutputOf b o) :
    ∃ s, SizeIn 8 0 o.encode s ∧ Short s := by
  have hsize := short_of_framed h
  rwa [le64, length_le, List.append_nil] at hsize

namespace ZcashTx

variable {tx : ZcashTx}

theorem length_header (tx : ZcashTx) : tx.header.length = 20 := by
  simp only [header, List.length_append, le32, length_le]

/-- A parsed transaction is written as it was received exactly when its compact
sizes were in their shortest form. -/
theorem serialize_iff_shortest {data : Bytes} {inputsCap outputsCap : Nat}
    (h : parseInto data inputsCap outputsCap = .ok tx) :
    tx.serialize = .ok data ↔ Shortest data := by
  obtain ⟨_, _, sap, orch, rfl, ⟨-, wn, bi, hwn, hbi, rfl⟩, ⟨-, wm, bo, hwm, hbo, rfl⟩, hs, ho, hsap,
    horch⟩ := parseInto_eq_ok.mp h
  have hsapBytes := saplingBytes_eq hs hsap
  have horchBytes := orchardBytes_eq ho horch
  have hrun : ∀ {wn wm : Bytes} {bi bo : List Bytes} {si so : List (Nat × Nat)}, Form wn si.length →
      List.Forall₂ (SizeIn 36 4) bi si → Form wm so.length → List.Forall₂ (SizeIn 8 0) bo so →
      ∃ c, compactSizes.run (start (tx.header ++ ((wn ++ bi.flatten) ++ ((wm ++ bo.flatten) ++
        (sap ++ orch))))) = .ok ((si.length, wn.length) :: (si ++ (so.length, wm.length) :: so), c) := by
    intro wn wm bi bo si so hn hi hm ho
    have hread := reads_compactSizes tx.length_header hn hi hm ho (sap ++ orch) 0
    simp only [List.append_assoc] at hread ⊢
    exact ⟨_, hread⟩
  obtain ⟨si, hsi, hsiLen, hinputs⟩ := sizes_of_list (fun _ _ h => size_of_input h) hbi
  obtain ⟨so, hso, hsoLen, houtputs⟩ := sizes_of_list (fun _ _ h => size_of_output h) hbo
  have hencoding : tx.encoding = tx.header ++ ((BtcVarInt.toArray tx.inputs.length ++
      (tx.inputs.map ZcashTxIn.encode).flatten) ++ ((BtcVarInt.toArray tx.outputs.length ++
        (tx.outputs.map ZcashTxOut.encode).flatten) ++ (sap ++ orch))) := by
    rw [encoding, hsapBytes, horchBytes]
    rfl
  rw [serialize_eq, Except.ok.injEq]
  constructor
  · -- the same string has the sizes it was written with
    intro hsame
    obtain ⟨ti, hti, htiLen, hshortInputs⟩ := short_sizes (fun _ _ h => short_of_input h) hbi
    obtain ⟨ts, hts, htsLen, hshortOutputs⟩ := short_sizes (fun _ _ h => short_of_output h) hbo
    have hn := form_toArray (BtcVarInt.len_le_of_decode hwn).1
    have hm := form_toArray (BtcVarInt.len_le_of_decode hwm).1
    rw [← htiLen] at hn
    rw [← htsLen] at hm
    obtain ⟨c, hshort⟩ := hrun hn hti hm hts
    rw [htiLen, htsLen, ← hencoding, hsame] at hshort
    intro sizes c' hsizes s hs
    rw [hshort] at hsizes
    obtain ⟨rfl, -⟩ := Prod.ext_iff.mp (Except.ok.inj hsizes)
    rcases List.mem_cons.mp hs with rfl | hs
    · rfl
    rcases List.mem_append.mp hs with hs | hs
    · exact hshortInputs s hs
    rcases List.mem_cons.mp hs with rfl | hs
    · rfl
    · exact hshortOutputs s hs
  · intro hshortest
    obtain ⟨c, hsizes⟩ := hrun (by rw [hsiLen]; exact hwn) hsi (by rw [hsoLen]; exact hwm) hso
    have hall := hshortest _ _ hsizes
    simp only [List.forall_mem_cons, List.forall_mem_append] at hall
    obtain ⟨hn, hi, hm, ho⟩ := hall
    rw [hsiLen] at hn
    rw [hsoLen] at hm
    rw [hencoding, hinputs hi, houtputs ho, form_eq_toArray hwn hn, form_eq_toArray hwm hm]
    rfl

/-- One input, its count in three bytes. -/
def sampleLong : Bytes :=
  sampleTx.header ++ ([0xfd, 1, 0] ++ (List.replicate 36 0x11 ++ ([0] ++ ([0, 0, 0, 0] ++
    ([0] ++ ([0, 0] ++ [0]))))))

theorem parse_sampleLong : ∃ tx, parseInto sampleLong 1 1 = .ok tx ∧ tx.serializedLen = 66 :=
  ⟨{ sampleTx with
      inputs := [{ txid := List.Vector.replicate 32 0x11, vout := 0x11111111, scriptSig := []
                   sequence := 0 }]
      outputs := [], sapling := [], orchard := [] }, by decide, by decide⟩

theorem not_one_encoding :
    ∃ tx, parseInto sampleLong 1 1 = .ok tx ∧ sampleLong.length = 68 ∧ tx.serialize ≠ .ok sampleLong := by
  obtain ⟨tx, hparse, hlen⟩ := parse_sampleLong
  refine ⟨tx, hparse, by decide, fun hsame => ?_⟩
  rw [serialize_eq, Except.ok.injEq] at hsame
  rw [serializedLen_eq, hsame] at hlen
  exact absurd hlen (by decide)

theorem serialize_iff_shortest_sample : ¬ Shortest sampleLong := by
  obtain ⟨tx, hparse, hlen⟩ := parse_sampleLong
  intro hshortest
  have hsame := (serialize_iff_shortest hparse).mpr hshortest
  rw [serialize_eq, Except.ok.injEq] at hsame
  rw [serializedLen_eq, hsame] at hlen
  exact absurd hlen (by decide)

end ZcashTx

end Outscript.Zcash
