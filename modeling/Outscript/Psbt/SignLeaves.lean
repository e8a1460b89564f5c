import Outscript.Psbt.SignRun

/-!
# Signing leaves call by call

A call adds the signatures of the first unsigned leaves to those an input has,
and leaves what it spends as it was. So calls with one key get through all
leaves that the key can sign.
-/
namespace Outscript.Psbt

open ByteString Cursor Fallible StableSort Taproot Secp256k1

/-! ## Records of a signed map -/

theorem keyType_of_key {r : Record} {t : Nat} {data : Bytes} (ht : t < 2 ^ 64)
    (h : r.key = putVarint t ++ data) : r.keyType = t := by
  rw [Record.keyType, h, keyTypeOf_append ht]

theorem keyData_of_key {r : Record} {t : Nat} {data : Bytes} (ht : t < 2 ^ 64)
    (h : r.key = putVarint t ++ data) : r.keyData = data := by
  obtain ⟨key, value⟩ := r
  obtain rfl : key = putVarint t ++ data := h
  exact keyData_append ht data value

theorem IsKeySig.keyType {signed : Signed} (h : IsKeySig signed) :
    signed.record.record.keyType = Input.tapKeySig :=
  keyType_of_key (by decide) ((key_record signed).trans h.1)

theorem IsLeafSig.keyType {xOnly leafHash : ByteVec 32} {signed : Signed}
    (h : IsLeafSig xOnly leafHash signed) :
    signed.record.record.keyType = Input.tapScriptSig :=
  keyType_of_key (by decide) ((key_record signed).trans h.1)

theorem IsPartialSig.keyType {key : Bytes} {signed : Signed} (h : IsPartialSig key signed) :
    signed.record.record.keyType = Input.partialSig :=
  keyType_of_key (by decide) ((key_record signed).trans h.1)

theorem recordsOf_sort {recs recs' : List Record} (hf : ∀ r ∈ recs, Framed r)
    (hf' : ∀ r ∈ sort Record.keyType recs', Framed r) {t : Nat} {added : List Record}
    (h : recs'.filter (fun r => r.keyType = t) = recs.filter (fun r => r.keyType = t) ++ added) :
    (Map.ofRecords (sort Record.keyType recs')).recordsOf t = (Map.ofRecords recs).recordsOf t ++ added := by
  rw [Map.recordsOf, Map.recordsOf, Map.records_ofRecords hf, Map.records_ofRecords hf',
    (sort_stablySorted _ _).stable, h]

/-- Putting records in the place of none of a type adds them to those of the type. -/
theorem filter_put (recs news : List Record) {t : Nat}
    (h : ∀ r ∈ recs, r.keyType = t → r.key ∉ news.map (·.key)) :
    (put recs news).filter (fun r => r.keyType = t) =
      recs.filter (fun r => r.keyType = t) ++ news.filter (fun r => r.keyType = t) := by
  rw [put, List.filter_append, List.filter_filter]
  congr 1
  refine List.filter_congr fun r hr => ?_
  by_cases ht : r.keyType = t
  · simp only [ht, decide_true, Bool.true_and, decide_eq_true_eq]
    exact h r hr ht
  · simp [ht]

section Put

variable {C : Purecrypto} {recs news : List Record} (hv : ValidRecords C .input recs)
  (hv' : ValidRecords C .input (sort Record.keyType (put recs news)))

include hv'

theorem lookup_sort_put (key : Bytes) :
    lookup (sort Record.keyType (put recs news)) key = (lookup news key).or (lookup recs key) := by
  have hnodup : ((put recs news).map (·.key)).Nodup :=
    ((sort_perm _).map _).nodup_iff.mp hv'.nodup
  rw [lookup_of_perm hnodup (sort_perm _), lookup_put]

include hv

theorem alikeUnsigned_put (h : ∀ r ∈ news, r.keyType ∈ Input.signatures) :
    (Map.ofRecords recs).AlikeUnsigned (Map.ofRecords (sort Record.keyType (put recs news))) := by
  intro t ht
  have hnone : news.filter (fun r => r.keyType = t) = [] := by
    refine List.filter_eq_nil_iff.mpr fun r hr htype => ht ?_
    rw [← of_decide_eq_true htype]
    exact h r hr
  have hput := filter_put recs news (t := t) (by
    rintro r - rfl hkey
    obtain ⟨r', hr', hsame⟩ := List.mem_map.mp hkey
    have htype : r'.keyType = r.keyType := congrArg keyTypeOf hsame
    exact ht (htype ▸ h r' hr'))
  rw [recordsOf_sort hv.framed hv'.framed hput, hnone, List.append_nil]

end Put

section Leaves

variable {C : Purecrypto} {recs : List Record} {xOnly : ByteVec 32} {hs : List (ByteVec 32)}
  {items others leafItems : List Signed} (hv : ValidRecords C .input recs)
  (hv' : ValidRecords C .input (sort Record.keyType (put recs (signedRecords items))))
  (hitems : items = others ++ leafItems)
  (hothers : ∀ signed ∈ others, signed.record.record.keyType ≠ Input.tapScriptSig)
  (hsigs : List.Forall₂ (IsLeafSig xOnly) hs leafItems)

theorem forall₂_mem_left {α β : Type} {R : α → β → Prop} {as : List α} {bs : List β}
    (h : List.Forall₂ R as bs) {b : β} (hb : b ∈ bs) : ∃ a ∈ as, R a b := by
  induction h with
  | nil => cases hb
  | cons head _ ih =>
    rcases List.mem_cons.mp hb with rfl | hb
    · exact ⟨_, List.mem_cons_self, head⟩
    · obtain ⟨a, ha, hR⟩ := ih hb
      exact ⟨a, List.mem_cons_of_mem _ ha, hR⟩

include hitems hothers hsigs

/-- Of the records, those of leaf signatures. -/
theorem filter_signedRecords :
    (signedRecords items).filter (fun r => r.keyType = Input.tapScriptSig) =
      signedRecords leafItems := by
  have hleft : (signedRecords others).filter (fun r => r.keyType = Input.tapScriptSig) = [] := by
    refine List.filter_eq_nil_iff.mpr fun r hr htype => ?_
    obtain ⟨signed, hsigned, rfl⟩ := List.mem_map.mp hr
    exact hothers signed hsigned (of_decide_eq_true htype)
  have hright : (signedRecords leafItems).filter (fun r => r.keyType = Input.tapScriptSig) =
      signedRecords leafItems := by
    refine List.filter_eq_self.mpr fun r hr => ?_
    obtain ⟨signed, hsigned, rfl⟩ := List.mem_map.mp hr
    obtain ⟨h, -, hsig⟩ := forall₂_mem_left hsigs hsigned
    exact decide_eq_true hsig.keyType
  rw [hitems, signedRecords, List.map_append, List.filter_append]
  exact (congrArg₂ _ hleft hright).trans (List.nil_append _)

/-- The keys of leaf signatures among the records are those of the leaves. -/
theorem lookup_signedRecords_isSome (h : ByteVec 32) :
    (lookup (signedRecords items) (0x14 :: (xOnly.toList ++ h.toList))).isSome ↔ h ∈ hs := by
  rw [Option.isSome_iff_ne_none, Ne, lookup_eq_none, not_not]
  constructor
  · intro hmem
    obtain ⟨r, hr, hkey⟩ := List.mem_map.mp hmem
    have htype : r.keyType = Input.tapScriptSig := keyType_of_key (by decide) hkey
    have hleaf : r ∈ signedRecords leafItems := by
      rw [← filter_signedRecords hitems hothers hsigs]
      exact List.mem_filter.mpr ⟨hr, decide_eq_true htype⟩
    obtain ⟨signed, hsigned, rfl⟩ := List.mem_map.mp hleaf
    obtain ⟨h', hh', hsig⟩ := forall₂_mem_left hsigs hsigned
    rw [key_record, hsig.1, List.cons.injEq] at hkey
    rwa [← List.Vector.toList_injective (List.append_cancel_left hkey.2)]
  · intro hh
    obtain ⟨signed, hsigned, hsig⟩ := forall₂_mem_left hsigs.flip hh
    refine List.mem_map.mpr ⟨signed.record.record, List.mem_map_of_mem ?_, ?_⟩
    · rw [hitems]
      exact List.mem_append_right _ hsigned
    · rw [key_record, hsig.1]

include hv hv'

theorem tapScriptSig_signed (h : ByteVec 32) :
    (PsbtInput.tapScriptSig
        (Map.ofRecords (sort Record.keyType (put recs (signedRecords items)))) xOnly h).isSome ↔
      h ∈ hs ∨ (PsbtInput.tapScriptSig (Map.ofRecords recs) xOnly h).isSome := by
  rw [tapScriptSig_ofRecords hv', tapScriptSig_ofRecords hv, lookup_sort_put hv', Option.isSome_or,
    Bool.or_eq_true, lookup_signedRecords_isSome hitems hothers hsigs]

/-- Signatures of unsigned leaves come after those that are there. -/
theorem tapScriptSigs_signed
    (hfresh : ∀ h ∈ hs, PsbtInput.tapScriptSig (Map.ofRecords recs) xOnly h = none) :
    ∃ new, PsbtInput.tapScriptSigs
        (Map.ofRecords (sort Record.keyType (put recs (signedRecords items)))) =
          PsbtInput.tapScriptSigs (Map.ofRecords recs) ++ new ∧ new.length = hs.length := by
  have hput := filter_put recs (signedRecords items) (t := Input.tapScriptSig) (by
    intro r hr htype hkey
    obtain ⟨r', hr', hsame⟩ := List.mem_map.mp hkey
    have hleaf : r' ∈ signedRecords leafItems := by
      rw [← filter_signedRecords hitems hothers hsigs]
      exact List.mem_filter.mpr ⟨hr', decide_eq_true ((congrArg keyTypeOf hsame).trans htype)⟩
    obtain ⟨signed, hsigned, rfl⟩ := List.mem_map.mp hleaf
    obtain ⟨h, hh, hsig⟩ := forall₂_mem_left hsigs hsigned
    have hnone := hfresh h hh
    rw [tapScriptSig_ofRecords hv, lookup_eq_none, ← hsig.1, ← key_record, hsame] at hnone
    exact hnone (List.mem_map_of_mem hr))
  refine ⟨(signedRecords leafItems).filterMap PsbtInput.scriptSigOf, ?_, ?_⟩
  · rw [PsbtInput.tapScriptSigs, recordsOf_sort hv.framed hv'.framed hput,
      filter_signedRecords hitems hothers hsigs, List.filterMap_append, PsbtInput.tapScriptSigs]
  · have hall : ∀ r ∈ signedRecords leafItems, (PsbtInput.scriptSigOf r).isSome := by
      intro r hr
      obtain ⟨signed, hsigned, rfl⟩ := List.mem_map.mp hr
      obtain ⟨h, -, hsig⟩ := forall₂_mem_left hsigs hsigned
      have hdata := keyData_of_key (t := Input.tapScriptSig) (by decide)
        ((key_record signed).trans hsig.1)
      rw [PsbtInput.scriptSigOf, if_pos (by rw [hdata]; simp)]
      rfl
    rw [List.length_filterMap_eq_countP, List.countP_eq_length.mpr hall, signedRecords,
      List.length_map, hsigs.length_eq]

end Leaves

/-! ## What one call adds to an input -/

/-- A tapscript leaf that pushes the key, with a control block of its version
that proves it. -/
structure Involves (C : Purecrypto) (xOnly outputKey : ByteVec 32) (leaf : TapLeafScript)
    (leafHash : ByteVec 32) : Prop where
  version : leaf.leafVersion = tapscriptLeafVersion
  pushes : xOnly.toList ∈ forEachPush leaf.script
  block : ∃ cb, ControlBlock.parse leaf.controlBlock = .ok cb ∧
    cb.leafVersion = leaf.leafVersion ∧ cb.verify C leaf.script outputKey = true ∧
    cb.leafHash C leaf.script = leafHash

/-- Every leaf that the key can sign is signed by it. -/
def LeavesSigned (C : Purecrypto) (inp : Map) (xOnly outputKey : ByteVec 32) : Prop :=
  ∀ leaf ∈ PsbtInput.tapLeafScripts inp, ∀ leafHash, Involves C xOnly outputKey leaf leafHash →
    (PsbtInput.tapScriptSig inp xOnly leafHash).isSome

/-- What a call with a key makes of an input map. -/
structure Gains (inp inp' : Map) (xOnly : ByteVec 32) (hs : List (ByteVec 32)) : Prop where
  alike : inp.AlikeUnsigned inp'
  sigs : ∃ new, PsbtInput.tapScriptSigs inp' = PsbtInput.tapScriptSigs inp ++ new ∧
    new.length = hs.length
  signed : ∀ h, (PsbtInput.tapScriptSig inp' xOnly h).isSome ↔
    h ∈ hs ∨ (PsbtInput.tapScriptSig inp xOnly h).isSome

/-- An input that spends a taproot output and can be signed for: it is not final,
and the UTXOs that its digests commit to are known. -/
structure Signable (C : Purecrypto) (p : View) (i : Nat) (inp : Map) (outputKey : ByteVec 32) :
    Prop where
  input : p.input i = some inp
  unfinalized : PsbtInput.isFinalized inp = false
  resolved : ∃ res, resolve C p i = .ok res ∧ res.kind = .p2tr outputKey
  utxos : ∀ j < p.inputs.length, ∃ u, p.utxo C.toHashes j = .ok u

/-- If input `i` spends a taproot output, then one call has room for its leaves:
there are no more than eight to sign, or the key path is signed as well. -/
def LeavesFit (C : Purecrypto) (p : View) (i : Nat) (inp : Map) (xOnly : ByteVec 32) : Prop :=
  ∀ res outputKey, resolve C p i = .ok res → res.kind = .p2tr outputKey →
    isInternalKey C inp xOnly outputKey = true ∨
      (freshLeaves C inp xOnly outputKey (PsbtInput.tapLeafScripts inp)).length ≤ maxLeafSigs

/-- The leaves that a call signs, which shares nine places with the key path. -/
def leavesOfCall (C : Purecrypto) (inp : Map) (xOnly outputKey : ByteVec 32) :
    List (ByteVec 32) :=
  (freshLeaves C inp xOnly outputKey (PsbtInput.tapLeafScripts inp)).take
    (1 + maxLeafSigs - (isInternalKey C inp xOnly outputKey).toNat)

section Input

variable {C : Purecrypto} {σ : Type} {p : View} {i : Nat} {inp inp' : Map} {hs : List (ByteVec 32)}
  {signer : PsbtSigner C σ} {xOnly outputKey : ByteVec 32}

theorem involvedLeaf_eq_some {leaf : TapLeafScript} {leafHash : ByteVec 32} :
    involvedLeaf C xOnly outputKey leaf = some leafHash ↔
      Involves C xOnly outputKey leaf leafHash := by
  rw [involvedLeaf]
  constructor
  · intro h
    split_ifs at h with hversion hpush
    split at h
    · cases h
    · rename_i cb hcb
      split_ifs at h with hbad
      rw [not_or, not_not, Bool.not_eq_false] at hbad
      exact ⟨not_not.mp hversion, hpush, cb, hcb, hbad.1, hbad.2, Option.some.inj h⟩
  · rintro ⟨hversion, hpush, cb, hcb, hsame, hverify, hhash⟩
    have hgood : ¬ (cb.leafVersion ≠ leaf.leafVersion ∨ cb.verify C leaf.script outputKey = false) := by
      rw [not_or, not_not, Bool.not_eq_false]
      exact ⟨hsame, hverify⟩
    rw [if_neg (not_not.mpr hversion), if_neg (not_not.mpr hpush), hcb]
    dsimp only
    rw [if_neg hgood, hhash]

theorem freshLeaves_eq_nil :
    freshLeaves C inp xOnly outputKey (PsbtInput.tapLeafScripts inp) = [] ↔
      LeavesSigned C inp xOnly outputKey := by
  rw [freshLeaves, List.filterMap_eq_nil_iff]
  refine forall₂_congr fun leaf _ => ?_
  rw [leafToSign]
  cases hleaf : involvedLeaf C xOnly outputKey leaf with
  | none =>
    refine iff_of_true rfl fun leafHash h => ?_
    rw [involvedLeaf_eq_some.mpr h] at hleaf
    cases hleaf
  | some leafHash =>
    dsimp only
    rw [ite_eq_left_iff]
    constructor
    · intro h leafHash' hinv
      rw [← involvedLeaf_eq_some, hleaf, Option.some.injEq] at hinv
      rw [← hinv]
      by_contra hnot
      cases h hnot
    · exact fun h hnot => absurd (h leafHash (involvedLeaf_eq_some.mp hleaf)) hnot

theorem tapScriptSig_of_mem_freshLeaves {leaves : List TapLeafScript} {h : ByteVec 32}
    (hmem : h ∈ freshLeaves C inp xOnly outputKey leaves) :
    PsbtInput.tapScriptSig inp xOnly h = none := by
  obtain ⟨leaf, -, hleaf⟩ := List.mem_filterMap.mp hmem
  rw [leafToSign] at hleaf
  split at hleaf
  · cases hleaf
  · split_ifs at hleaf with hsome
    rw [← Option.some.inj hleaf]
    exact Option.not_isSome_iff_eq_none.mp hsome

/-- The leaves left to sign are those that were not signed. -/
theorem Gains.freshLeaves_eq (h : Gains inp inp' xOnly hs) (leaves : List TapLeafScript) :
    freshLeaves C inp' xOnly outputKey leaves =
      (freshLeaves C inp xOnly outputKey leaves).filter fun leafHash => leafHash ∉ hs := by
  rw [freshLeaves, freshLeaves, List.filter_filterMap]
  refine List.filterMap_congr fun leaf _ => ?_
  rw [leafToSign, leafToSign]
  cases involvedLeaf C xOnly outputKey leaf with
  | none => rfl
  | some leafHash =>
    have hiff := h.signed leafHash
    dsimp only
    by_cases hmem : leafHash ∈ hs
    · rw [if_pos (hiff.mpr (Or.inl hmem))]
      split_ifs with hsome
      · rfl
      · simp [Option.filter, hmem]
    · rw [or_iff_right hmem] at hiff
      by_cases hsome : (PsbtInput.tapScriptSig inp xOnly leafHash).isSome
      · rw [if_pos (hiff.mpr hsome), if_pos hsome]
        rfl
      · rw [if_neg fun h' => hsome (hiff.mp h'), if_neg hsome]
        simp [Option.filter, hmem]

theorem length_filter_take_le {α : Type} [DecidableEq α] (l : List α) (n : Nat) :
    (l.filter fun a => a ∉ l.take n).length ≤ l.length - n := by
  have hsplit : l.filter (fun a => a ∉ l.take n) =
      (l.take n ++ l.drop n).filter fun a => a ∉ l.take n := by rw [List.take_append_drop]
  have hnil : (l.take n).filter (fun a => a ∉ l.take n) = [] :=
    List.filter_eq_nil_iff.mpr fun a ha => by simpa using ha
  rw [hsplit, List.filter_append, hnil, List.nil_append, ← List.length_drop]
  exact List.length_filter_le _ _

theorem Signable.not_blocked {bytes : Bytes} (hp : parse C bytes = .ok p)
    (h : Signable C p i inp outputKey) : ¬ Blocked C p i := by
  rintro (⟨e, he⟩ | ⟨e, he⟩)
  · obtain ⟨res, hres, -⟩ := h.resolved
    rw [hres] at he
    cases he
  · obtain ⟨doc, hdoc, -, hview⟩ := parse_eq_ok.mp hp
    have hcount : p.tx.layout.inputCount = p.inputs.length := by
      rw [hview, hdoc.inputs_view, List.length_map, hdoc.inputCount]
      rfl
    have hutxos := h.utxos
    have : Nonempty RawTxOut := ⟨⟨0, []⟩⟩
    choose! u hu using hutxos
    have hmapM : (List.range p.tx.layout.inputCount).mapM (p.utxo C.toHashes) =
        .ok ((List.range p.tx.layout.inputCount).map u) :=
      mapM_ok fun j hj => hu j (hcount ▸ List.mem_range.mp hj)
    have hlen : ((List.range p.tx.layout.inputCount).map u).length = p.tx.source.inputCount := by
      rw [List.length_map, List.length_range, UnsignedTx.source]
    rw [taprootMidstate, hmapM] at he
    dsimp only at he
    rw [taprootMidstateOf, if_neg (not_not.mpr hlen)] at he
    cases he

/-- The leaf signatures among those that a call gives for an input. -/
theorem InputRun.exists_leaves {key : SecpPublicKey C} {items : List Signed}
    (h : InputRun signer p i key items) (hinput : p.input i = some inp) :
    ∃ others leafItems hs, items = others ++ leafItems ∧
      (∀ signed ∈ others, signed.record.record.keyType ∈ Input.signatures ∧
        signed.record.record.keyType ≠ Input.tapScriptSig) ∧
      List.Forall₂ (IsLeafSig (xOnlyOf (C.toSec1Compressed key))) hs leafItems ∧
      (∀ h ∈ hs, PsbtInput.tapScriptSig inp (xOnlyOf (C.toSec1Compressed key)) h = none) ∧
      (signer.Succeeds → LeavesFit C p i inp (xOnlyOf (C.toSec1Compressed key)) →
        hs.length ≤ maxLeafSigs) ∧
      (signer.Succeeds → ∀ outputKey, Signable C p i inp outputKey →
        hs = leavesOfCall C inp (xOnlyOf (C.toSec1Compressed key)) outputKey) := by
  cases h with
  | finalized input done none =>
    cases input.symm.trans hinput
    refine ⟨[], [], [], none, fun _ h => (nomatch h), List.Forall₂.nil, fun _ h => (nomatch h),
      fun _ _ => Nat.zero_le _, fun _ outputKey hsignable => ?_⟩
    rw [hsignable.unfinalized] at done
    cases done
  | ecdsa input resolved kind sigs =>
    cases input.symm.trans hinput
    refine ⟨items, [], [], (List.append_nil _).symm, ?_, List.Forall₂.nil, fun _ h => (nomatch h),
      fun _ _ => Nat.zero_le _, fun _ outputKey hsignable => ?_⟩
    · rcases sigs with rfl | ⟨signed, pubkey, rfl, hsig, -⟩
      · exact fun _ h => nomatch h
      · intro signed' hmem
        rw [List.mem_singleton.mp hmem, hsig.keyType]
        decide
    · obtain ⟨res', hres', hkind⟩ := hsignable.resolved
      rw [resolved] at hres'
      cases hres'
      exact absurd hkind (kind outputKey)
  | @taproot inp' res outputKey keyItems leafItems hs input open' resolved kind run =>
    cases input.symm.trans hinput
    refine ⟨keyItems, leafItems, hs, run.items_eq, fun signed hmem => ?_, run.leafSigs,
      fun h hmem => tapScriptSig_of_mem_freshLeaves (run.fresh.subset hmem),
      fun hs' hfit => ?_, fun hs' outputKey' hsignable => ?_⟩
    · rw [(run.keySigs signed hmem).keyType]
      decide
    · obtain ⟨hcount, hhs⟩ := run.all hs'
      rw [hhs, List.length_take]
      rcases hfit res outputKey resolved kind with hkey | hfew
      · rw [hkey, Bool.toNat_true] at hcount
        omega
      · exact (Nat.min_le_right _ _).trans hfew
    · obtain ⟨res', hres', hkind⟩ := hsignable.resolved
      rw [resolved] at hres'
      cases hres'
      rw [kind] at hkind
      cases hkind
      obtain ⟨hcount, hhs⟩ := run.all hs'
      rw [hhs, hcount, leavesOfCall]

theorem gains_of_alike (h : inp.Alike inp') : Gains inp inp' xOnly [] where
  alike := h.unsigned
  sigs := ⟨[], by rw [PsbtInput.tapScriptSigs, h, PsbtInput.tapScriptSigs, List.append_nil], rfl⟩
  signed leafHash := by
    rw [PsbtInput.tapScriptSig, PsbtInput.tapScriptSigs, h]
    simp [PsbtInput.tapScriptSig, PsbtInput.tapScriptSigs]

end Input

/-! ## What one call makes of a PSBT -/

/-- What a call with a key makes of the inputs, having signed `count` of them. -/
structure Signs (C : Purecrypto) (xOnly : ByteVec 32) (p q : View) (count : Nat) : Prop where
  tx : q.tx = p.tx
  length : q.inputs.length = p.inputs.length
  inputs : ∀ i inp, p.input i = some inp → ∃ inp' hs, q.input i = some inp' ∧
    Gains inp inp' xOnly hs ∧ (LeavesFit C p i inp xOnly → hs.length ≤ maxLeafSigs) ∧
    (∀ outputKey, Signable C p i inp outputKey → hs = leavesOfCall C inp xOnly outputKey) ∧
    (count = 0 → hs = [])

section Call

variable {C : Purecrypto} {σ : Type} {p q : View} {i : Nat} {signer : PsbtSigner C σ}
  {key : SecpPublicKey C} {recs : List Record} {bytes out : Bytes} {cap count : Nat} {s s' : σ}

theorem alike_sort (hv : ValidRecords C .input recs) :
    (Map.ofRecords recs).Alike (Map.ofRecords (sort Record.keyType recs)) := by
  refine Map.alike_of_stablySorted ?_
  rw [Map.records_ofRecords hv.framed,
    Map.records_ofRecords (hv.of_perm (sort_perm recs)).framed]
  exact sort_stablySorted _ _

theorem InputRun.keyType_mem {inp : Map} {items : List Signed}
    (h : InputRun signer p i key items) (hinput : p.input i = some inp) :
    ∀ r ∈ signedRecords items, r.keyType ∈ Input.signatures := by
  obtain ⟨others, leafItems, hs, hitems, hothers, hsigs, -⟩ := h.exists_leaves hinput
  intro r hr
  obtain ⟨signed, hsigned, rfl⟩ := List.mem_map.mp hr
  rw [hitems] at hsigned
  rcases List.mem_append.mp hsigned with hmem | hmem
  · exact (hothers signed hmem).1
  · obtain ⟨_, -, hsig⟩ := forall₂_mem_left hsigs hmem
    rw [hsig.keyType]
    decide

theorem InputRun.exists_gains {items : List Signed} (h : InputRun signer p i key items)
    (hinput : p.input i = some (Map.ofRecords recs)) (hv : ValidRecords C .input recs)
    (hv' : ValidRecords C .input (sort Record.keyType (put recs (signedRecords items)))) :
    ∃ hs, Gains (Map.ofRecords recs)
        (Map.ofRecords (sort Record.keyType (put recs (signedRecords items))))
        (xOnlyOf (C.toSec1Compressed key)) hs ∧
      (signer.Succeeds → LeavesFit C p i (Map.ofRecords recs) (xOnlyOf (C.toSec1Compressed key)) →
        hs.length ≤ maxLeafSigs) ∧
      (signer.Succeeds → ∀ outputKey, Signable C p i (Map.ofRecords recs) outputKey →
        hs = leavesOfCall C (Map.ofRecords recs) (xOnlyOf (C.toSec1Compressed key)) outputKey) := by
  obtain ⟨others, leafItems, hs, hitems, hothers, hsigs, hfresh, hfit, htake⟩ :=
    h.exists_leaves hinput
  have hnot : ∀ signed ∈ others, signed.record.record.keyType ≠ Input.tapScriptSig :=
    fun signed hmem => (hothers signed hmem).2
  exact ⟨hs, ⟨alikeUnsigned_put hv hv' (h.keyType_mem hinput), tapScriptSigs_signed hv hv' hitems hnot hsigs hfresh,
    tapScriptSig_signed hv hv' hitems hnot hsigs⟩, hfit, htake⟩

theorem Gains.eq_nil {inp inp' : Map} {xOnly : ByteVec 32} {hs : List (ByteVec 32)}
    (h : Gains inp inp' xOnly hs)
    (hsame : PsbtInput.tapScriptSigs inp' = PsbtInput.tapScriptSigs inp) : hs = [] := by
  obtain ⟨new, hnew, hlen⟩ := h.sigs
  rw [hsame, List.self_eq_append_right] at hnew
  rw [hnew, List.length_nil, eq_comm, List.length_eq_zero_iff] at hlen
  exact hlen

theorem MapRun.eq_sort {loc : MapLoc} {recs' : List Record} (h : MapRun signer p loc recs recs')
    (hloc : ∀ i, loc ≠ .input i) : recs' = sort Record.keyType recs := by
  cases h with
  | copied => rfl
  | skipped input => exact absurd input (hloc _)
  | signed input => exact absurd input (hloc _)

theorem sized_signed {items : List Signed} {r : Record} (hr : r ∈ signedRecords items)
    (htype : r.keyType ∈ Input.signatures) : Sized r := by
  obtain ⟨signed, -, rfl⟩ := List.mem_map.mp hr
  refine ⟨fun hnil => ?_, ?_, signed.value.fits.trans_lt (by decide)⟩
  · rw [Record.keyType, hnil] at htype
    revert htype
    decide
  · rw [key_record]
    exact signed.key.fits.trans_lt (by decide)

theorem MapRun.sized {doc : Doc} {tx : UnsignedTx} (h : doc.Valid C tx) {loc : MapLoc}
    {recs' : List Record} (hrecs : doc.recordsAt loc = some recs)
    (hrun : MapRun signer (doc.view tx) loc recs recs') : ∀ r ∈ recs', Sized r := by
  have hold : ∀ r ∈ recs, Sized r := fun r hr => ((h.recordsAt hrecs).framed r hr).sized
  have hcopied : ∀ r ∈ sort Record.keyType recs, Sized r :=
    fun r hr => hold r ((sort_perm recs).mem_iff.mp hr)
  cases hrun with
  | copied => exact hcopied
  | skipped => exact hcopied
  | @signed i s set input run =>
    subst input
    intro r hr
    rw [(sort_perm _).mem_iff, put, List.mem_append, List.mem_filter] at hr
    rcases hr with hr | hr
    · exact hold r hr.1
    · exact sized_signed hr (run.keyType_mem (h.input_view hrecs) r hr)

/-- What a call makes of an input map. -/
theorem MapRun.exists_gains (hp : parse C bytes = .ok p) (hsucc : signer.Succeeds)
    (hkey : ∀ s, signer.publicKey s = key) {recs' : List Record}
    (h : MapRun signer p (.input i) recs recs') (hinput : p.input i = some (Map.ofRecords recs))
    (hv : ValidRecords C .input recs) (hv' : ValidRecords C .input recs') :
    ∃ hs, Gains (Map.ofRecords recs) (Map.ofRecords recs') (xOnlyOf (C.toSec1Compressed key)) hs ∧
      (LeavesFit C p i (Map.ofRecords recs) (xOnlyOf (C.toSec1Compressed key)) →
        hs.length ≤ maxLeafSigs) ∧
      ∀ outputKey, Signable C p i (Map.ofRecords recs) outputKey →
        hs = leavesOfCall C (Map.ofRecords recs) (xOnlyOf (C.toSec1Compressed key)) outputKey := by
  cases h with
  | copied none => exact absurd rfl (none i)
  | @skipped j input blocked =>
    cases input
    exact ⟨[], gains_of_alike (alike_sort hv), fun _ => Nat.zero_le _,
      fun outputKey hsignable => absurd blocked (hsignable.not_blocked hp)⟩
  | @signed j s set input run =>
    cases input
    rw [hkey] at run
    obtain ⟨hs, hgains, hfit, htake⟩ := run.exists_gains hinput hv hv'
    exact ⟨hs, hgains, hfit hsucc, htake hsucc⟩

theorem Doc.Valid.signs {doc : Doc} {tx : UnsignedTx} (h : doc.Valid C tx)
    (hsucc : signer.Succeeds) (hkey : ∀ s, signer.publicKey s = key)
    (hcall : signToSlice (doc.view tx) signer cap s = .ok (out, count, s'))
    (hq : parse C out = .ok q) :
    Signs C (xOnlyOf (C.toSec1Compressed key)) (doc.view tx) q count := by
  rw [signToSlice] at hcall
  obtain ⟨⟨written, s₁, count₁⟩, hwrite, hcall⟩ := bind_eq_ok.mp hcall
  obtain ⟨out', hemit, hcall⟩ := bind_eq_ok.mp hcall
  obtain ⟨hwritten, -, -⟩ := (emit_eq_ok C).mp (orTrap_eq_ok.mp hemit)
  cases hcall
  cases hwritten
  obtain ⟨g, rfl, hg⟩ := h.signed hwrite
  have hglobal := (hg .global doc.globals rfl).1.eq_sort (by rintro i ⟨⟩)
  obtain ⟨hd, rfl⟩ := h.parse_edit hglobal
    (fun loc recs hrecs => (hg loc recs hrecs).1.sized h hrecs) hq
  refine ⟨rfl, ?_, fun i inp hinput => ?_⟩
  · rw [hd.inputs_view, h.inputs_view, List.length_map, List.length_map, Doc.length_inputs_edit]
  · have hinp := hinput
    rw [View.input, h.inputs_view, List.getElem?_map, Option.map_eq_some_iff] at hinp
    obtain ⟨recs, hrecs, rfl⟩ := hinp
    obtain ⟨hrun, hnone⟩ := hg (.input i) recs hrecs
    have hin : (doc.edit g).recordsAt (.input i) = some (g (.input i) recs) := by
      rw [Doc.recordsAt_edit]
      exact congrArg (Option.map _) hrecs
    have hv := h.recordsAt (show doc.recordsAt (.input i) = some recs from hrecs)
    obtain ⟨hs, hgains, hfit, htake⟩ :=
      hrun.exists_gains h.parse_encode hsucc hkey hinput hv (hd.recordsAt hin)
    refine ⟨_, hs, hd.input_view hin, hgains, hfit, htake, fun hcount => hgains.eq_nil ?_⟩
    -- a call that signed no input has copied this one
    have halike := alike_sort hv
    rw [← hnone hcount] at halike
    rw [PsbtInput.tapScriptSigs, halike, PsbtInput.tapScriptSigs]

/-- A call on one input gives signatures for its leaves only. -/
theorem Doc.Valid.signs_input {doc : Doc} {tx : UnsignedTx} (h : doc.Valid C tx)
    (hsucc : signer.Succeeds) (hkey : ∀ s, signer.publicKey s = key) {index : Nat}
    (hcall : signInputToSlice (doc.view tx) index signer cap s = .ok out)
    (hq : parse C out = .ok q) {inp : Map} (hinput : (doc.view tx).input i = some inp) :
    ∃ inp' hs, q.input i = some inp' ∧
      Gains inp inp' (xOnlyOf (C.toSec1Compressed key)) hs ∧
      (LeavesFit C (doc.view tx) i inp (xOnlyOf (C.toSec1Compressed key)) →
        hs.length ≤ maxLeafSigs) := by
  unfold signInputToSlice at hcall
  rcases hres : signInput (doc.view tx) index signer s with ⟨e | set, s₁⟩
  · simp only [hres] at hcall
    cases hcall
  simp only [hres] at hcall
  split_ifs at hcall with hempty
  obtain ⟨s₀, hrun⟩ := (signInput_ends s).2 set (congrArg Prod.fst hres)
  rw [hkey] at hrun
  obtain ⟨hsome, rfl, -, -⟩ :=
    (h.editMap_add_eq_ok (typed_add_signed set)).mp (orTrap_eq_ok.mp hcall)
  rw [signedRecords_eq] at hq
  obtain ⟨recs₀, hrecs₀⟩ := Option.isSome_iff_exists.mp hsome
  have hsized : ∀ r ∈ signedRecords set.items, Sized r := fun r hr =>
    sized_signed hr (hrun.keyType_mem (h.input_view hrecs₀) r hr)
  have hloc : MapLoc.input index ≠ .global := fun h => nomatch h
  obtain ⟨hd, rfl⟩ := h.parse_put hloc hsized hq
  have hinp := hinput
  rw [View.input, h.inputs_view, List.getElem?_map, Option.map_eq_some_iff] at hinp
  obtain ⟨recs, hrecs, rfl⟩ := hinp
  have hv := h.recordsAt (show doc.recordsAt (.input i) = some recs from hrecs)
  have hin : (doc.put (.input index) (signedRecords set.items)).recordsAt (.input i) =
      some (sort Record.keyType (if MapLoc.input i = .input index then
        Psbt.put recs (signedRecords set.items) else recs)) := by
    rw [Doc.put, Doc.recordsAt_edit]
    exact congrArg (Option.map _) hrecs
  by_cases hi : i = index
  · subst hi
    rw [if_pos rfl] at hin
    obtain ⟨hs, hgains, hfit, -⟩ := hrun.exists_gains hinput hv (hd.recordsAt hin)
    exact ⟨_, hs, hd.input_view hin, hgains, hfit hsucc⟩
  · rw [if_neg fun heq => hi (MapLoc.input.inj heq)] at hin
    exact ⟨_, [], hd.input_view hin, gains_of_alike (alike_sort hv), fun _ => Nat.zero_le _⟩

end Call

/-! ## Call after call -/

/-- Successful calls in a row, each on what the one before wrote. -/
inductive SignRun {C : Purecrypto} {σ : Type} (signer : PsbtSigner C σ) :
    Nat → View → σ → View → σ → Prop
  | refl (p : View) (s : σ) : SignRun signer 0 p s p s
  | call {n cap count : Nat} {p q r : View} {s s₁ s₂ : σ} {out : Bytes}
      (before : SignRun signer n p s q s₁)
      (signed : signToSlice q signer cap s₁ = .ok (out, count, s₂)) (read : parse C out = .ok r) :
      SignRun signer (n + 1) p s r s₂

section Run

variable {C : Purecrypto} {σ : Type} {p q : View} {i : Nat} {inp inp' : Map}
  {xOnly outputKey : ByteVec 32} {count : Nat} {hs : List (ByteVec 32)}

theorem Signs.signable (h : Signs C xOnly p q count) (hsign : Signable C p i inp outputKey)
    (hinput : q.input i = some inp') (hgains : Gains inp inp' xOnly hs) :
    Signable C q i inp' outputKey where
  input := hinput
  unfinalized := by
    have hsig := hgains.alike.getType (t := Input.finalScriptsig) (by decide)
    have hwitness := hgains.alike.getType (t := Input.finalScriptwitness) (by decide)
    rw [← hsign.unfinalized, PsbtInput.isFinalized, PsbtInput.finalScriptSig,
      PsbtInput.finalScriptWitness, hsig, hwitness]
    rfl
  resolved := by
    rw [resolve_congr h.tx hsign.input hinput hgains.alike]
    exact hsign.resolved
  utxos := by
    intro j hj
    rw [h.length] at hj
    have hbefore : p.input j = some p.inputs[j] := List.getElem?_eq_getElem hj
    obtain ⟨m', hs', hafter, hgains', -⟩ := h.inputs j _ hbefore
    rw [utxo_congr C.toHashes h.tx hbefore hafter hgains'.alike]
    exact hsign.utxos j hj

/-- A call signs at least eight of the leaves that are left, or all of them. -/
theorem Signs.step (h : Signs C xOnly p q count) (hsign : Signable C p i inp outputKey) :
    ∃ inp', Signable C q i inp' outputKey ∧
      PsbtInput.tapLeafScripts inp' = PsbtInput.tapLeafScripts inp ∧
      (freshLeaves C inp' xOnly outputKey (PsbtInput.tapLeafScripts inp')).length ≤
        (freshLeaves C inp xOnly outputKey (PsbtInput.tapLeafScripts inp)).length - maxLeafSigs ∧
      (count = 0 ∨ PsbtInput.tapScriptSigs inp' = PsbtInput.tapScriptSigs inp →
        LeavesSigned C inp' xOnly outputKey) := by
  obtain ⟨inp', hs, hinput, hgains, -, htake, hcount⟩ := h.inputs i inp hsign.input
  have hhs := htake outputKey hsign
  have hinternal := Bool.toNat_le (isInternalKey C inp xOnly outputKey)
  have hleaves : PsbtInput.tapLeafScripts inp' = PsbtInput.tapLeafScripts inp := by
    rw [PsbtInput.tapLeafScripts, hgains.alike _ (by decide), PsbtInput.tapLeafScripts]
  have hfresh := @Gains.freshLeaves_eq C _ _ _ _ outputKey hgains (PsbtInput.tapLeafScripts inp)
  refine ⟨inp', h.signable hsign hinput hgains, hleaves, ?_, fun hquiet => ?_⟩
  · have hle := length_filter_take_le
      (freshLeaves C inp xOnly outputKey (PsbtInput.tapLeafScripts inp))
      (1 + maxLeafSigs - (isInternalKey C inp xOnly outputKey).toNat)
    rw [hleaves, hfresh, hhs, leavesOfCall]
    omega
  · have hnil : hs = [] := by
      rcases hquiet with hzero | hsame
      · exact hcount hzero
      · exact hgains.eq_nil hsame
    have hnone : freshLeaves C inp xOnly outputKey (PsbtInput.tapLeafScripts inp) = [] := by
      rw [hnil, leavesOfCall, eq_comm, List.take_eq_nil_iff] at hhs
      refine hhs.resolve_left fun hzero => ?_
      rw [maxLeafSigs] at hzero
      omega
    rw [← freshLeaves_eq_nil, hleaves, hfresh, hnone, List.filter_nil]

/-- The signatures that a call adds to an input are as many as the leaves it
signs: nine, if that many are left and the key path is not signed. -/
theorem Signs.length_sigs (h : Signs C xOnly p q count) (hsign : Signable C p i inp outputKey) :
    ∃ inp' new, q.input i = some inp' ∧
      PsbtInput.tapScriptSigs inp' = PsbtInput.tapScriptSigs inp ++ new ∧
      new.length = min (1 + maxLeafSigs - (isInternalKey C inp xOnly outputKey).toNat)
        (freshLeaves C inp xOnly outputKey (PsbtInput.tapLeafScripts inp)).length := by
  obtain ⟨inp', hs, hinput, hgains, -, htake, -⟩ := h.inputs i inp hsign.input
  obtain ⟨new, hnew, hlen⟩ := hgains.sigs
  exact ⟨inp', new, hinput, hnew, by rw [hlen, htake outputKey hsign, leavesOfCall, List.length_take]⟩

variable {signer : PsbtSigner C σ} {key : SecpPublicKey C} {bytes : Bytes} {n : Nat} {s s' : σ}

theorem signs_of_call (hp : parse C bytes = .ok p) (hsucc : signer.Succeeds)
    (hkey : ∀ s, signer.publicKey s = key) {cap : Nat} {out : Bytes}
    (hcall : signToSlice p signer cap s = .ok (out, count, s')) (hq : parse C out = .ok q) :
    Signs C (xOnlyOf (C.toSec1Compressed key)) p q count := by
  obtain ⟨doc, hdoc, -, hview⟩ := parse_eq_ok.mp hp
  generalize p.tx = tx at hdoc hview
  subst hview
  exact hdoc.signs hsucc hkey hcall hq

/-- What a run of calls leaves to sign. -/
theorem SignRun.steps (hp : parse C bytes = .ok p) (hsucc : signer.Succeeds)
    (hkey : ∀ s, signer.publicKey s = key) (hrun : SignRun signer n p s q s') :
    (∃ out, parse C out = .ok q) ∧ ∀ i inp outputKey, Signable C p i inp outputKey →
      ∃ inp', Signable C q i inp' outputKey ∧
        PsbtInput.tapLeafScripts inp' = PsbtInput.tapLeafScripts inp ∧
        (freshLeaves C inp' (xOnlyOf (C.toSec1Compressed key)) outputKey
          (PsbtInput.tapLeafScripts inp')).length ≤
            (PsbtInput.tapLeafScripts inp).length - maxLeafSigs * n := by
  induction hrun with
  | refl p s =>
    exact ⟨⟨bytes, hp⟩, fun i inp outputKey hsign =>
      ⟨inp, hsign, rfl, List.length_filterMap_le _ _⟩⟩
  | call before signed read ih =>
    obtain ⟨⟨out, hq⟩, hleft⟩ := ih hp
    have hsigns := signs_of_call hq hsucc hkey signed read
    refine ⟨⟨_, read⟩, fun i inp outputKey hsign => ?_⟩
    obtain ⟨inp', hsign', hleaves, hle⟩ := hleft i inp outputKey hsign
    obtain ⟨inp'', hsign'', hleaves', hle', -⟩ := hsigns.step hsign'
    refine ⟨inp'', hsign'', hleaves'.trans hleaves, hle'.trans ?_⟩
    rw [Nat.mul_succ]
    omega

end Run

/-- A call adds at most eight leaf signatures to an input that has room for its
leaves, and calls with one key sign every leaf that it can sign. -/
theorem leaf_signing_progress {C : Purecrypto} {bytes : Bytes} {p : View}
    (hp : parse C bytes = .ok p) {σ : Type} {signer : PsbtSigner C σ} (hsucc : signer.Succeeds)
    {key : SecpPublicKey C} (hkey : ∀ s, signer.publicKey s = key) {xOnly : ByteVec 32}
    (hx : xOnly = xOnlyOf (C.toSec1Compressed key)) :
    (∀ s cap out q, parse C out = .ok q →
      ((∃ count s', signToSlice p signer cap s = .ok (out, count, s')) ∨
        ∃ index, signInputToSlice p index signer cap s = .ok out) →
      ∀ i inp, p.input i = some inp → LeavesFit C p i inp xOnly →
        ∃ inp' new, q.input i = some inp' ∧
          PsbtInput.tapScriptSigs inp' = PsbtInput.tapScriptSigs inp ++ new ∧
          new.length ≤ maxLeafSigs) ∧
    ∀ n s q s', SignRun signer n p s q s' → ∀ i inp outputKey, Signable C p i inp outputKey →
      ∃ inp', q.input i = some inp' ∧
        PsbtInput.tapLeafScripts inp' = PsbtInput.tapLeafScripts inp ∧
        ((PsbtInput.tapLeafScripts inp).length ≤ maxLeafSigs * n →
          LeavesSigned C inp' xOnly outputKey) ∧
        ∀ cap out count s'' r, signToSlice q signer cap s' = .ok (out, count, s'') →
          parse C out = .ok r → ∃ inp'', r.input i = some inp'' ∧
            PsbtInput.tapLeafScripts inp'' = PsbtInput.tapLeafScripts inp ∧
            (count = 0 ∨ PsbtInput.tapScriptSigs inp'' = PsbtInput.tapScriptSigs inp' →
              LeavesSigned C inp'' xOnly outputKey) := by
  subst hx
  constructor
  · intro s cap out q hq hcall i inp hinput hfit
    have hgains : ∃ inp' hs, q.input i = some inp' ∧
        Gains inp inp' (xOnlyOf (C.toSec1Compressed key)) hs ∧ hs.length ≤ maxLeafSigs := by
      rcases hcall with ⟨count, s', hcall⟩ | ⟨index, hcall⟩
      · obtain ⟨inp', hs, hinput', hgains, hle, -⟩ :=
          (signs_of_call hp hsucc hkey hcall hq).inputs i inp hinput
        exact ⟨inp', hs, hinput', hgains, hle hfit⟩
      · obtain ⟨doc, hdoc, -, hview⟩ := parse_eq_ok.mp hp
        rw [hview] at hcall hinput hfit
        obtain ⟨inp', hs, hinput', hgains, hle⟩ := hdoc.signs_input hsucc hkey hcall hq hinput
        exact ⟨inp', hs, hinput', hgains, hle hfit⟩
    obtain ⟨inp', hs, hinput', hgains, hle⟩ := hgains
    obtain ⟨new, hnew, hlen⟩ := hgains.sigs
    exact ⟨inp', new, hinput', hnew, hlen.trans_le hle⟩
  · intro n s q s' hrun i inp outputKey hsign
    obtain ⟨⟨_, hq⟩, hleft⟩ := hrun.steps hp hsucc hkey
    obtain ⟨inp', hsign', hleaves, hle⟩ := hleft i inp outputKey hsign
    refine ⟨inp', hsign'.input, hleaves, fun hmany => ?_, ?_⟩
    · rw [← freshLeaves_eq_nil, ← List.length_eq_zero_iff]
      omega
    · intro cap out count s'' r hcall hr
      obtain ⟨inp'', hsign'', hleaves', -, hquiet⟩ :=
        (signs_of_call hq hsucc hkey hcall hr).step hsign'
      exact ⟨inp'', hsign''.input, hleaves'.trans hleaves, hquiet⟩

/-! ## An input with one leaf -/

section Sample

def leafScript : Bytes := 0x20 :: (pointG.1.toList ++ [0xac])
def leafScriptHash : ByteVec 32 :=
  beVec 32 0x763e9da064b9dc0471fb0f3c8fa2c84b4b84d2ca992497c12d2274386795aa8e
def leafTweak : ByteVec 32 :=
  beVec 32 0xf1028f19b59a9cf0e26b17002188b8c05a2217d12768af23c5539600a089fbff

/-- The multiple of the generator by the tweak. -/
def leafTweakPoint : ByteVec 32 × ByteVec 32 :=
  (beVec 32 0x31ed1a99d26cfac8e109265de0a6b573fbf74ff02a5447c97548216d10e8799a,
    beVec 32 0xc8438e865a39cab6716d88883c4b50217c1ad6651b3c94da088ab6e525dfeb3d)

/-- The sum of it and the generator. -/
def leafOutputPoint : ByteVec 32 × ByteVec 32 :=
  (beVec 32 0x2d2f7b2a700ab270dd515ef7a02f25c5a344066641fcac563e1b53eca4a456d3,
    beVec 32 0xd28d8ce44c2ee241df6fdca75761413a8e461e1972a31aea3cbaa3645d15b173)

/-- What the package computes for the control block of the leaf. -/
def leafCrypto : Purecrypto :=
  { Purecrypto.blank with
    sha256 := fun data =>
      if data = Hashes.tagBytes "TapLeaf" then leafTag
      else if data = Hashes.tagBytes "TapTweak" then tweakTag
      else if data = leafTag.toList ++ (leafTag.toList ++ (0xc0 :: 34 :: leafScript)) then
        leafScriptHash
      else if data = tweakTag.toList ++ (tweakTag.toList ++
        (pointG.1.toList ++ leafScriptHash.toList)) then leafTweak
      else List.Vector.replicate 32 0
    fromSec1 := fun data => if data = 0x02 :: pointG.1.toList then some pointG else none
    scalarFromBytesBe := fun data => if data = leafTweak then some data else none
    mulGenerator := fun (scalar : ByteVec 32) =>
      if scalar = leafTweak then some leafTweakPoint else none
    add := fun (a b : Option (ByteVec 32 × ByteVec 32)) =>
      if a = some pointG ∧ b = some leafTweakPoint then some leafOutputPoint else none }

/-- A signer with the generator as its key. -/
def leafSigner : PsbtSigner leafCrypto Unit where
  publicKey _ := pointG
  signEcdsa _ s := (some (derEncode (List.Vector.replicate 32 3) (List.Vector.replicate 32 4)), s)
  signTaprootWithRoot _ _ s := (some (List.Vector.replicate 64 5), s)
  signSchnorr _ s := (some (List.Vector.replicate 64 6), s)

theorem leafSigner_succeeds : leafSigner.Succeeds := ⟨fun _ _ => rfl, fun _ _ _ => rfl, fun _ _ => rfl⟩

/-- An input that spends the output with the leaf. -/
def leafInput : List Record :=
  [⟨[0x01], le 8 5000 ++ (34 :: 0x51 :: 0x20 :: leafOutputPoint.1.toList)⟩,
    ⟨0x15 :: 0xc1 :: pointG.1.toList, leafScript ++ [0xc0]⟩]

theorem leaf_signing_progress_sample :
    ∃ p inp, parse leafCrypto (sampleDoc leafInput []).encode = .ok p ∧
      Signable leafCrypto p 0 inp leafOutputPoint.1 ∧
      ∀ q s', SignRun leafSigner 1 p () q s' → ∃ inp', q.input 0 = some inp' ∧
        LeavesSigned leafCrypto inp' pointG.1 leafOutputPoint.1 := by
  obtain ⟨r, hr⟩ : ∃ r, (do
      let p ← parse leafCrypto (sampleDoc leafInput []).encode
      let inp ← okOr (p.input 0) .inputIndex
      let res ← resolve leafCrypto p 0
      let u ← p.utxo leafCrypto.toHashes 0
      if p.inputs.length = 1 ∧ PsbtInput.isFinalized inp = false ∧
        res.kind = .p2tr leafOutputPoint.1 ∧ (PsbtInput.tapLeafScripts inp).length ≤ 8 then
          .ok (p, inp, res, u) else .error .inputIndex : Except Error _) = .ok r :=
    exists_ok_of_isOk (by decide +kernel)
  obtain ⟨p, hp, hr⟩ := bind_eq_ok.mp hr
  obtain ⟨inp, hinp, hr⟩ := bind_eq_ok.mp hr
  obtain ⟨res, hres, hr⟩ := bind_eq_ok.mp hr
  obtain ⟨u, hu, hr⟩ := bind_eq_ok.mp hr
  split_ifs at hr with hall
  obtain ⟨hlen, hopen, hkind, hfew⟩ := hall
  have hsign : Signable leafCrypto p 0 inp leafOutputPoint.1 :=
    ⟨okOr_eq_ok.mp hinp, hopen, ⟨res, hres, hkind⟩, fun j hj => by
      obtain rfl : j = 0 := by omega
      exact ⟨u, hu⟩⟩
  refine ⟨p, inp, hp, hsign, fun q s' hrun => ?_⟩
  obtain ⟨inp', hinp', -, hsigned, -⟩ := (leaf_signing_progress hp leafSigner_succeeds
    (fun _ => rfl) (show pointG.1 = xOnlyOf (leafCrypto.toSec1Compressed pointG) by
      decide)).2 1 () q s' hrun 0 inp leafOutputPoint.1 hsign
  exact ⟨inp', hinp', hsigned hfew⟩

/-- An input that is final is left alone: the leaf is not signed. -/
theorem final_input_keeps_leaf :
    leafSigner.Succeeds ∧ (∀ s, leafSigner.publicKey s = pointG) ∧
    ∃ p out q inp leaf,
      parse leafCrypto (sampleDoc (leafInput ++ [⟨[0x08], [0x01, 0x01, 0x2a]⟩]) []).encode = .ok p ∧
      signToSlice p leafSigner 400 () = .ok (out, 0, ()) ∧ parse leafCrypto out = .ok q ∧
      q.input 0 = some inp ∧
      (∃ res, resolve leafCrypto q 0 = .ok res ∧ res.kind = .p2tr leafOutputPoint.1) ∧
      leaf ∈ PsbtInput.tapLeafScripts inp ∧
      Involves leafCrypto pointG.1 leafOutputPoint.1 leaf leafScriptHash ∧
      PsbtInput.tapScriptSig inp pointG.1 leafScriptHash = none := by
  refine ⟨leafSigner_succeeds, fun _ => rfl, ?_⟩
  have hok : (do
      let p ← orTrap (parse leafCrypto
        (sampleDoc (leafInput ++ [⟨[0x08], [0x01, 0x01, 0x2a]⟩]) []).encode)
      let r ← signToSlice p leafSigner 400 ()
      let q ← orTrap (parse leafCrypto r.1)
      let inp ← okOr (q.input 0) .panic
      let res ← orTrap (resolve leafCrypto q 0)
      let leaf ← okOr (PsbtInput.tapLeafScripts inp).head? .panic
      if r.2.1 = 0 ∧ res.kind = .p2tr leafOutputPoint.1 ∧
        involvedLeaf leafCrypto pointG.1 leafOutputPoint.1 leaf = some leafScriptHash ∧
        PsbtInput.tapScriptSig inp pointG.1 leafScriptHash = none then
          return (p, r, q, inp, res, leaf) else .error .panic : Except Trap _).isOk = true := by
    decide +kernel
  obtain ⟨r, hr⟩ := exists_ok_of_isOk hok
  obtain ⟨p, hp, hr⟩ := bind_eq_ok.mp hr
  obtain ⟨⟨out, count, s⟩, hcall, hr⟩ := bind_eq_ok.mp hr
  obtain ⟨q, hq, hr⟩ := bind_eq_ok.mp hr
  obtain ⟨inp, hinp, hr⟩ := bind_eq_ok.mp hr
  obtain ⟨res, hres, hr⟩ := bind_eq_ok.mp hr
  obtain ⟨leaf, hleaf, hr⟩ := bind_eq_ok.mp hr
  split_ifs at hr with hall
  obtain ⟨hcount, hkind, hinvolved, hnone⟩ := hall
  obtain rfl : count = 0 := hcount
  exact ⟨p, out, q, inp, leaf, orTrap_eq_ok.mp hp, hcall, orTrap_eq_ok.mp hq, okOr_eq_ok.mp hinp,
    ⟨res, orTrap_eq_ok.mp hres, hkind⟩, List.mem_of_mem_head? (okOr_eq_ok.mp hleaf),
    involvedLeaf_eq_some.mp hinvolved, hnone⟩

end Sample

end Outscript.Psbt
