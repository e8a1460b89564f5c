import Outscript.Zcash.RoundTrip

/-!
# Sums that overflow

A count is multiplied with a check and read past without one: the end of the
counted items, their length plus the bytes of the count itself, may not fit 64
bits. Item sizes decide where it can. No other sum is within reach, but for a
bundle of several exabytes.
-/
namespace Outscript.Zcash

open ByteString Chunks Cursor Fallible

/-! ## Hostile lengths -/

/-- One of the nine greatest lengths, in the nine bytes that it takes. -/
def EndlessLength (rest : Bytes) : Prop :=
  ∃ v r, 2 ^ 64 - 9 ≤ v ∧ v < 2 ^ 64 ∧ rest = 0xff :: (le 8 v ++ r)

/-- An item whose script has no end, after a number of items of a list that fits. -/
def EndlessItem {α : Type} (R : Bytes → α → Prop) (front cap : Nat) (rest : Bytes) : Prop :=
  ∃ w n bs l before r, Form w n ∧ n ≤ cap ∧ bs.length < n ∧ List.Forall₂ R bs l ∧
    before.length = front ∧ rest = w ++ (bs.flatten ++ (before ++ r)) ∧ EndlessLength r

/-- Spends and outputs that are there, with more proofs and signatures than 64 bits count. -/
def EndlessProofs (rest : Bytes) : Prop :=
  ∃ nSpends nOutputs b₁ b₂ spends outputs front r, Items saplingSpendLen b₁ nSpends spends ∧
    Items saplingOutputLen b₂ nOutputs outputs ∧ front.length = 8 + (if 0 < nSpends then 32 else 0) ∧
    rest = b₁ ++ (b₂ ++ (front ++ r)) ∧ 2 ^ 64 ≤ saplingProofsLen nSpends nOutputs

/-- An Orchard proof without an end. -/
def EndlessProof (rest : Bytes) : Prop :=
  ∃ nActions b actions trailer r, Items orchardActionLen b nActions actions ∧ 0 < nActions ∧
    trailer.length = 1 + 8 + 32 ∧ rest = b ++ (trailer ++ r) ∧ EndlessLength r

/-- A v5 header, and a transaction behind it that is well formed up to a length without an end. -/
def EndlessTx (inputsCap outputsCap : Nat) (data : Bytes) : Prop :=
  ∃ (branch lock expiry : UInt32) (rest : Bytes),
    data = le32 versionV5 ++ (le32 versionGroupIdV5 ++ (le32 branch ++ (le32 lock ++ le32 expiry))) ++
      rest ∧
    (EndlessItem InputOf (32 + 4) inputsCap rest ∨
      Ahead (Counted InputOf inputsCap) (fun _ rest => EndlessItem OutputOf 8 outputsCap rest ∨
        Ahead (Counted OutputOf outputsCap) (fun _ rest => EndlessProofs rest ∨
          Ahead SaplingOf (fun _ => EndlessProof) rest) rest) rest)

/-! ## Counts -/

theorem fails_takeSize : Fails takeSize .panic fun _ => False := by
  intro c
  change takeSize c = .error .panic ↔ False
  rw [takeSize]
  split <;> simp

theorem fails_takeBytes (len : Nat) : Fails (takeBytes len) .panic fun _ => False :=
  fails_take (by simp) len

theorem fails_takeItems (itemLen : Nat) : Fails (takeItems itemLen) .panic fun rest =>
    ∃ w n r, Form w n ∧ rest = w ++ r ∧ n * itemLen < 2 ^ 64 ∧ 2 ^ 64 ≤ w.length + n * itemLen := by
  refine (fails_takeSize.after accepts_takeSize fun _ s _ =>
    (((fails_takeBytes _).bind_pure fun items => (s.1, items)).check).require (by simp)).congr
      fun rest => ?_
  constructor
  · rintro ⟨w, ⟨n, _⟩, r, ⟨hw, rfl⟩, rfl, hmul, hadd | hfalse⟩
    · exact ⟨w, n, r, hw, rfl, hmul, not_lt.mp hadd⟩
    · exact hfalse.elim
  · rintro ⟨w, n, r, hw, rfl, hmul, hadd⟩
    exact ⟨w, (n, w.length), r, ⟨hw, rfl⟩, rfl, hmul, Or.inl (not_lt.mpr hadd)⟩

/-- No multiple of the item size is so close to the end of the range. -/
theorem fails_takeItems_of_gap {itemLen : Nat} (hgap : ∀ n, n * itemLen < 2 ^ 64 → n * itemLen + 9 < 2 ^ 64) :
    Fails (takeItems itemLen) .panic fun _ => False := by
  refine (fails_takeItems itemLen).congr fun rest => iff_of_false ?_ id
  rintro ⟨w, n, r, hw, -, hmul, hadd⟩
  have hlen := (length_form hw).2
  have hlt := hgap n hmul
  omega

theorem fails_takeSpends : Fails (takeItems saplingSpendLen) .panic fun _ => False :=
  fails_takeItems_of_gap fun n => by unfold saplingSpendLen; omega

theorem fails_takeOutputs : Fails (takeItems saplingOutputLen) .panic fun _ => False :=
  fails_takeItems_of_gap fun n => by unfold saplingOutputLen; omega

theorem fails_takeActions : Fails (takeItems orchardActionLen) .panic fun _ => False :=
  fails_takeItems_of_gap fun n => by unfold orchardActionLen; omega

theorem fails_takeCount : Fails (takeItems 0) .panic fun _ => False :=
  fails_takeItems_of_gap fun n => by omega

theorem fails_takeScript : Fails (takeItems 1) .panic EndlessLength := by
  refine (fails_takeItems 1).congr fun rest => ?_
  constructor
  · rintro ⟨w, n, r, hw, rfl, -, hadd⟩
    rw [Nat.mul_one] at hadd
    rcases BtcVarInt.decode_shape hw with ⟨t, r', ht, -, rfl, hlen⟩ | ⟨s, r', hs, -, rfl, hlen⟩ |
      ⟨s, r', hs, -, rfl, hlen⟩ | ⟨s, r', hs, hbuf, rfl, hlen⟩
    · omega
    · have hlt := leVal_lt s
      rw [hs] at hlt
      omega
    · have hlt := leVal_lt s
      rw [hs] at hlt
      omega
    · have hlt := leVal_lt s
      have hle := le_leVal s
      rw [hs] at hlt hle
      obtain rfl : r' = [] := by
        rw [hbuf, List.length_cons, List.length_append, hs] at hlen
        exact List.eq_nil_of_length_eq_zero (by omega)
      refine ⟨leVal s, r, by omega, hlt.trans_eq (by decide), ?_⟩
      rw [hle, hbuf, List.append_nil, List.cons_append]
  · rintro ⟨v, r, hv, hlt, rfl⟩
    have hform : BtcVarInt.decode (0xff :: (le 8 v ++ [])) = some (leVal (le 8 v), 9) :=
      BtcVarInt.decode_eight [] (le 8 v) (length_le 8 v)
    rw [List.append_nil, leVal_le_of_lt hlt] at hform
    have hlen : (0xff :: le 8 v : Bytes).length = 9 := by rw [List.length_cons, length_le]
    refine ⟨0xff :: le 8 v, v, r, ?_, rfl, by omega, by omega⟩
    rw [Form, hform, hlen]

/-! ## Bundles -/

/-- The balance and the anchor of a bundle whose proofs and signatures 64 bits do not count. -/
def EndlessBalance (nSpends nOutputs : Nat) (rest : Bytes) : Prop :=
  ∃ front r, front.length = 8 + (if 0 < nSpends then 32 else 0) ∧ rest = front ++ r ∧
    2 ^ 64 ≤ saplingProofsLen nSpends nOutputs

theorem pos_of_endlessProofs {nSpends nOutputs : Nat} (h : 2 ^ 64 ≤ saplingProofsLen nSpends nOutputs) :
    0 < nSpends + nOutputs := by
  by_contra hzero
  obtain ⟨rfl, rfl⟩ : nSpends = 0 ∧ nOutputs = 0 := by omega
  exact absurd h (by decide)

theorem fails_skipBalance (nSpends nOutputs : Nat) :
    Fails (skipBalance nSpends nOutputs) .panic (EndlessBalance nSpends nOutputs) := by
  refine (((fails_takeBytes _).after (accepts_take _ _) fun _ _ _ =>
    ((fails_takeBytes _).bind_pure fun _ => ()).check).ite (fails_pure () _)).congr fun rest => ?_
  by_cases hany : 0 < nSpends + nOutputs
  · rw [if_pos hany]
    constructor
    · rintro ⟨_, front, r, ⟨hlen, rfl⟩, rfl, hlt | hfalse⟩
      · exact ⟨front, r, hlen, rfl, not_lt.mp hlt⟩
      · exact hfalse.elim
    · rintro ⟨front, r, hlen, rfl, hle⟩
      exact ⟨front, front, r, ⟨hlen, rfl⟩, rfl, Or.inl (not_lt.mpr hle)⟩
  · rw [if_neg hany]
    refine iff_of_false id ?_
    rintro ⟨front, r, -, -, hle⟩
    exact hany (pos_of_endlessProofs hle)

theorem fails_takeAnchor (nSpends : Nat) : Fails (takeAnchor nSpends) .panic fun _ => False :=
  ((fails_takeBytes 32).ite (fails_pure [] _)).congr fun _ => by split_ifs <;> rfl

/-- The digest cuts the balance and the anchor apart, and fails on the same bundles. -/
theorem fails_takeBalance (nSpends nOutputs : Nat) :
    Fails (takeBalance nSpends nOutputs) .panic (EndlessBalance nSpends nOutputs) := by
  refine (((fails_takeBytes 8).after (accepts_take _ _) fun _ v _ =>
    (fails_takeAnchor nSpends).after (accepts_takeAnchor nSpends) fun _ a _ =>
      ((fails_takeBytes _).bind_pure fun _ => (v, a)).check).ite (fails_pure ([], []) _)).congr
        fun rest => ?_
  by_cases hany : 0 < nSpends + nOutputs
  · rw [if_pos hany]
    constructor
    · rintro ⟨_, v, _, ⟨hv, rfl⟩, rfl, _, a, r, ⟨ha, rfl⟩, rfl, hlt | hfalse⟩
      · refine ⟨v ++ a, r, ?_, (List.append_assoc _ _ _).symm, not_lt.mp hlt⟩
        rw [List.length_append, hv, ha]
      · exact hfalse.elim
    · rintro ⟨front, r, hlen, rfl, hle⟩
      have hcut : front = front.take 8 ++ front.drop 8 := (List.take_append_drop 8 front).symm
      refine ⟨front.take 8, _, front.drop 8 ++ r, ⟨?_, rfl⟩, ?_, front.drop 8, _, r, ⟨?_, rfl⟩, rfl,
        Or.inl (not_lt.mpr hle)⟩
      · rw [List.length_take]
        omega
      · rw [← List.append_assoc, ← hcut]
      · rw [List.length_drop, hlen, Nat.add_sub_cancel_left]
  · rw [if_neg hany]
    refine iff_of_false id ?_
    rintro ⟨front, r, -, -, hle⟩
    exact hany (pos_of_endlessProofs hle)

theorem count_lt_of_items {itemLen n : Nat} {b items : Bytes} (h : Items itemLen b n items) :
    n * itemLen < 2 ^ 64 := by
  obtain ⟨w, -, rfl, hlen, hlt⟩ := h
  rw [List.length_append, hlen] at hlt
  omega

theorem counts_lt {nSpends nOutputs : Nat} {b₁ b₂ spends outputs : Bytes}
    (hs : Items saplingSpendLen b₁ nSpends spends) (ho : Items saplingOutputLen b₂ nOutputs outputs) :
    nSpends + nOutputs < 2 ^ 64 := by
  have hsLt := count_lt_of_items hs
  have hoLt := count_lt_of_items ho
  unfold saplingSpendLen at hsLt
  unfold saplingOutputLen at hoLt
  omega

theorem sigs_lt {nActions : Nat} {b actions : Bytes} (h : Items orchardActionLen b nActions actions) :
    orchardSigsLen nActions < 2 ^ 64 := by
  have hlt := count_lt_of_items h
  unfold orchardActionLen at hlt
  unfold orchardSigsLen sigLen
  omega

theorem endlessProofs_iff {rest : Bytes} :
    Ahead (fun b (s : Nat × Bytes) => Items saplingSpendLen b s.1 s.2) (fun s =>
      Ahead (fun b (o : Nat × Bytes) => Items saplingOutputLen b o.1 o.2) fun o =>
        EndlessBalance s.1 o.1) rest ↔ EndlessProofs rest := by
  constructor
  · rintro ⟨b₁, ⟨nS, spends⟩, _, hs, rfl, b₂, ⟨nO, outputs⟩, _, ho, rfl, front, r, hlen, rfl, hle⟩
    exact ⟨nS, nO, b₁, b₂, spends, outputs, front, r, hs, ho, hlen, rfl, hle⟩
  · rintro ⟨nS, nO, b₁, b₂, spends, outputs, front, r, hs, ho, hlen, rfl, hle⟩
    exact ⟨b₁, (nS, spends), _, hs, rfl, b₂, (nO, outputs), _, ho, rfl, front, r, hlen, rfl, hle⟩

theorem fails_skipSapling : Fails skipSapling .panic EndlessProofs :=
  (fails_takeSpends.after (accepts_takeItems _) fun _ s hs =>
    fails_takeOutputs.after (accepts_takeItems _) fun _ o ho =>
      (fails_skipBalance s.1 o.1).checked (counts_lt hs ho)).congr fun _ => endlessProofs_iff

theorem fails_readSapling : Fails readSapling .panic EndlessProofs :=
  (fails_takeSpends.after (accepts_takeItems _) fun _ s hs =>
    fails_takeOutputs.after (accepts_takeItems _) fun _ o ho =>
      ((fails_takeBalance s.1 o.1).bind_pure fun v =>
        (⟨s.2, o.2, v.1, v.2⟩ : Sapling)).checked (counts_lt hs ho)).congr
          fun _ => endlessProofs_iff

/-- The trailer of actions, and a proof without an end. -/
def EndlessTrailer (nActions : Nat) (rest : Bytes) : Prop :=
  0 < nActions ∧ Ahead (fun b (t : Bytes) => b.length = 1 + 8 + 32 ∧ t = b) (fun _ => EndlessLength) rest

/-- A proof whose end is counted is followed by signatures that are. -/
theorem fails_proof {α : Type} {nActions : Nat} {last : Read UInt8 Trap α}
    (hfits : orchardSigsLen nActions < 2 ^ 64) (hlast : Fails last .panic fun _ => False) :
    Fails (takeItems 1 >>= fun _ => require (orchardSigsLen nActions < 2 ^ 64) .panic >>= fun _ => last)
      .panic EndlessLength := by
  refine (fails_takeScript.bind (accepts_takeItems 1) fun _ _ _ => hlast.checked hfits).congr
    fun rest => or_iff_left ?_
  rintro ⟨_, _, _, -, -, hfalse⟩
  exact hfalse

theorem ite_false_iff {cond T : Prop} [Decidable cond] : (if cond then T else False) ↔ cond ∧ T := by
  split_ifs with h <;> simp [h]

theorem fails_skipTrailer {nActions : Nat} (hfits : orchardSigsLen nActions < 2 ^ 64) :
    Fails (skipTrailer nActions) .panic (EndlessTrailer nActions) :=
  (((fails_takeBytes _).after (accepts_take _ _) fun _ _ _ =>
    fails_proof hfits ((fails_takeBytes _).bind_pure fun _ => ())).ite (fails_pure () _)).congr
      fun _ => ite_false_iff

theorem fails_takeTrailer {nActions : Nat} (hfits : orchardSigsLen nActions < 2 ^ 64) :
    Fails (takeTrailer nActions) .panic (EndlessTrailer nActions) :=
  (((fails_takeBytes _).after (accepts_take _ _) fun _ t _ =>
    fails_proof hfits ((fails_takeBytes _).bind_pure fun _ => t)).ite (fails_pure [] _)).congr
      fun _ => ite_false_iff

theorem endlessProof_iff {rest : Bytes} :
    Ahead (fun b (s : Nat × Bytes) => Items orchardActionLen b s.1 s.2) (fun s => EndlessTrailer s.1)
      rest ↔ EndlessProof rest := by
  constructor
  · rintro ⟨b, ⟨n, actions⟩, _, ha, rfl, hpos, trailer, _, r, ⟨hlen, -⟩, rfl, hr⟩
    exact ⟨n, b, actions, trailer, r, ha, hpos, hlen, rfl, hr⟩
  · rintro ⟨n, b, actions, trailer, r, ha, hpos, hlen, rfl, hr⟩
    exact ⟨b, (n, actions), _, ha, rfl, hpos, trailer, trailer, r, ⟨hlen, rfl⟩, rfl, hr⟩

theorem fails_skipOrchard : Fails skipOrchard .panic EndlessProof :=
  (fails_takeActions.after (accepts_takeItems _) fun _ _ ha => fails_skipTrailer (sigs_lt ha)).congr
    fun _ => endlessProof_iff

theorem fails_readOrchard : Fails readOrchard .panic EndlessProof :=
  (fails_takeActions.after (accepts_takeItems _) fun _ s ha =>
    (fails_takeTrailer (sigs_lt ha)).bind_pure fun t => (⟨s.2, t⟩ : Orchard)).congr
      fun _ => endlessProof_iff

/-! ## Transactions -/

theorem fails_word : Fails word .panic fun _ => False := (fails_takeBytes 4).bind_pure _

theorem fails_readAmount : Fails readAmount .panic fun _ => False := (fails_takeBytes 8).bind_pure _

theorem fails_readHeader : Fails readHeader .panic fun _ => False := by
  refine (fails_word.after accepts_word fun _ _ _ => (fails_word.after accepts_word fun _ _ _ =>
    (fails_word.after accepts_word fun _ branch _ => fails_word.after accepts_word fun _ lock _ =>
      fails_word.bind_pure fun expiry => (branch, lock, expiry)).require (by simp)).require
        (by simp)).congr fun rest => iff_of_false ?_ id
  rintro ⟨_, _, _, -, -, -, _, _, _, -, -, -, _, _, _, -, -, _, _, _, -, -, hfalse⟩
  exact hfalse

/-- Fixed fields in front of a script without an end. -/
def EndlessScript (front : Nat) (rest : Bytes) : Prop :=
  ∃ before r, before.length = front ∧ rest = before ++ r ∧ EndlessLength r

theorem fails_readInput : Fails readInput .panic (EndlessScript (32 + 4)) := by
  refine ((fails_takeVec (by simp) 32).after (decodes_takeVec _ 32).accepts fun _ txid _ =>
    fails_word.after accepts_word fun _ vout _ => fails_takeScript.bind (accepts_takeItems 1)
      fun _ s _ => fails_word.bind_pure fun sequence =>
        (⟨txid.reverse, vout, s.2, sequence⟩ : ZcashTxIn)).congr fun rest => ?_
  constructor
  · rintro ⟨_, txid, _, ⟨-, rfl⟩, rfl, _, vout, r, rfl, rfl, hr | ⟨_, _, _, -, -, hfalse⟩⟩
    · refine ⟨txid.toList ++ le32 vout, r, ?_, (List.append_assoc _ _ _).symm, hr⟩
      rw [List.length_append, txid.toList_length, le32, length_le]
    · exact hfalse.elim
  · rintro ⟨before, r, hlen, rfl, hr⟩
    have hcut : before = before.take 32 ++ before.drop 32 := (List.take_append_drop 32 before).symm
    have hid : (before.take 32).length = 32 := by
      rw [List.length_take, hlen]
      rfl
    have hvout : (before.drop 32).length = 4 := by rw [List.length_drop, hlen]
    refine ⟨before.take 32, ⟨before.take 32, hid⟩, before.drop 32 ++ r, ⟨trivial, rfl⟩, ?_,
      before.drop 32, _, r, (le32_leVal hvout).symm, rfl, Or.inl hr⟩
    rw [← List.append_assoc, ← hcut]

theorem fails_readOutput : Fails readOutput .panic (EndlessScript 8) := by
  refine (fails_readAmount.after accepts_readAmount fun _ amount _ => fails_takeScript.bind_pure
    fun s => (⟨amount, s.2⟩ : ZcashTxOut)).congr fun rest => ?_
  constructor
  · rintro ⟨_, amount, r, rfl, rfl, hr⟩
    exact ⟨le64 amount, r, length_le 8 _, rfl, hr⟩
  · rintro ⟨before, r, hlen, rfl, hr⟩
    exact ⟨before, _, r, (le64_leVal hlen).symm, rfl, hr⟩

theorem fails_readCounted {α : Type} {p : Read UInt8 Trap α} {R : Bytes → α → Prop} {front : Nat}
    (hp : Fails p .panic (EndlessScript front)) (hR : Accepts p R) (cap : Nat) :
    Fails (readCounted p cap) .panic (EndlessItem R front cap) := by
  refine (fails_takeCount.after (accepts_takeItems 0) fun _ s _ =>
    (hp.many hR s.1).require (by simp)).congr fun rest => ?_
  constructor
  · rintro ⟨w, ⟨n, items⟩, _, hw, rfl, hcap, bs, l, _, hlen, hall, rfl, before, r, hbefore, rfl, hr⟩
    exact ⟨w, n, bs, l, before, r, (items_zero.mp hw).2, hcap, hlen, hall, hbefore, rfl, hr⟩
  · rintro ⟨w, n, bs, l, before, r, hw, hcap, hlen, hall, hbefore, rfl, hr⟩
    exact ⟨w, (n, []), _, items_zero.mpr ⟨rfl, hw⟩, rfl, hcap, bs, l, before ++ r, hlen, hall, rfl,
      before, r, hbefore, rfl, hr⟩

theorem fails_readTx (inputsCap outputsCap : Nat) :
    Fails (readTx inputsCap outputsCap) .panic (EndlessTx inputsCap outputsCap) := by
  refine (fails_readHeader.after accepts_readHeader fun _ h _ =>
    (fails_readCounted fails_readInput accepts_readInput inputsCap).bind
      (accepts_readCounted accepts_readInput inputsCap) fun _ i _ =>
    (fails_readCounted fails_readOutput accepts_readOutput outputsCap).bind
      (accepts_readCounted accepts_readOutput outputsCap) fun _ o _ =>
    fails_skipSapling.span.bind accepts_skipSapling.span fun _ s _ =>
    fails_skipOrchard.span.bind_pure fun t => (⟨h.1, h.2.1, h.2.2, i, o,
      if s = noSapling then [] else s, if t = noOrchard then [] else t⟩ : ZcashTx)).congr fun data => ?_
  have hspan (rest : Bytes) : Ahead (fun b (a : Bytes) => a = b ∧ ∃ _ : Unit, ∃ s, SaplingOf b s)
      (fun _ => EndlessProof) rest ↔ Ahead SaplingOf (fun _ => EndlessProof) rest :=
    ahead_iff fun b => ⟨fun ⟨_, _, _, h⟩ => h, fun h => ⟨b, rfl, (), h⟩⟩
  simp only [hspan]
  constructor
  · rintro ⟨_, ⟨branch, lock, expiry⟩, rest, rfl, rfl, h⟩
    exact ⟨branch, lock, expiry, rest, rfl, h⟩
  · rintro ⟨branch, lock, expiry, rest, rfl, h⟩
    exact ⟨_, (branch, lock, expiry), rest, rfl, rfl, h⟩

theorem whole_eq_panic {α : Type} {p : Read UInt8 Trap α} {T : Bytes → Prop} (h : Fails p .panic T)
    {b : Bytes} : whole p b = .error .panic ↔ T b := by
  have hrun := h (start b)
  change p.run (start b) = .error .panic ↔ T b at hrun
  rw [← hrun, whole]
  cases p.run (start b) with
  | error e => simp
  | ok s =>
    obtain ⟨a, c⟩ := s
    rw [ok_bind]
    dsimp only
    split_ifs <;> simp

theorem bind_ok_eq_panic {α β : Type} {x : Except Trap α} {f : α → β} :
    (x >>= fun a => .ok (f a)) = .error Trap.panic ↔ x = .error .panic := by
  cases x with
  | error e => simp
  | ok a => exact iff_of_false (fun h => nomatch h) fun h => nomatch h

/-- Every sum and every product of the parser and of the digests fits 64 bits, except in front of
a length without an end; and a chunk is as long as the ranges taken of it. -/
theorem sums_fit_iff (H : PersonalHash) (inputsCap outputsCap : Nat) (data : Bytes) :
    (ZcashTx.parseInto data inputsCap outputsCap ≠ .error .panic ↔
      ¬ EndlessTx inputsCap outputsCap data) ∧
    (saplingDigest H data ≠ .error .panic ↔ ¬ EndlessProofs data) ∧
    (orchardDigest H data ≠ .error .panic ↔ ¬ EndlessProof data) ∧
    ∀ n, ∀ chunk ∈ asChunks n data, chunk.length = n := by
  refine ⟨?_, ?_, ?_, fun n => ?_⟩
  · exact not_congr (whole_eq_panic (fails_readTx inputsCap outputsCap))
  · exact not_congr (bind_ok_eq_panic.trans (whole_eq_panic fails_readSapling))
  · exact not_congr (bind_ok_eq_panic.trans (whole_eq_panic fails_readOrchard))
  · exact length_of_mem_chunksFrom (Nat.div_mul_le_self data.length n)

/-- An input whose script would take 2^64 - 1 bytes. -/
def endlessInput : Bytes :=
  le32 versionV5 ++ (le32 versionGroupIdV5 ++ (le32 0xc2d6d0b4 ++ (le32 0 ++ le32 0))) ++
    (1 :: (List.replicate 36 0 ++ List.replicate 9 0xff))

theorem parse_overflows : ZcashTx.parseInto endlessInput 1 1 = .error .panic := by
  decide

end Outscript.Zcash
