import Outscript.Cardano.Tx
import Outscript.Library.Failures

/-!
# Bundles of assets

A body fails only where a sum of an output does not fit, and its bytes are a
function of the sums and of the pairs that occur. Neither the order of the
assets nor how a sum is spread over several entries matters.
-/
namespace Outscript.Cardano

open ByteString Fallible

/-! ## Bundles with the same sums -/

/-- The same pairs occur, with the same sums. -/
structure SameSums (assets assets' : List CardanoAsset) : Prop where
  mentions : ∀ policy name, Mentions assets' policy name ↔ Mentions assets policy name
  total : ∀ policy name, total assets' policy name = total assets policy name

/-- Entries that one entry is split into. -/
structure SplitsInto (a : CardanoAsset) (parts : List CardanoAsset) : Prop where
  nonempty : parts ≠ []
  key : ∀ b ∈ parts, b.policyId = a.policyId ∧ b.assetName = a.assetName
  sum : (parts.map fun b => b.amount.toNat).sum = a.amount.toNat

/-- Entries change places, and are split. -/
inductive Rearranges : List CardanoAsset → List CardanoAsset → Prop where
  | perm {assets assets' : List CardanoAsset} (h : assets.Perm assets') : Rearranges assets assets'
  | split {a : CardanoAsset} {parts : List CardanoAsset} (before after : List CardanoAsset)
    (h : SplitsInto a parts) : Rearranges (before ++ a :: after) (before ++ (parts ++ after))
  | trans {assets assets' assets'' : List CardanoAsset} (h : Rearranges assets assets')
    (h' : Rearranges assets' assets'') : Rearranges assets assets''

section Sums

variable {assets assets' : List CardanoAsset}

theorem mentions_append_iff {policy name : Bytes} : Mentions (assets ++ assets') policy name ↔
    Mentions assets policy name ∨ Mentions assets' policy name := by
  simp only [Mentions, List.mem_append, or_and_right, exists_or]

theorem SameSums.append {more more' : List CardanoAsset} (h : SameSums assets assets')
    (hmore : SameSums more more') : SameSums (assets ++ more) (assets' ++ more') where
  mentions policy name := by
    rw [mentions_append_iff, mentions_append_iff, h.mentions, hmore.mentions]
  total policy name := by
    rw [total_append, total_append, h.total, hmore.total]

theorem SameSums.refl (assets : List CardanoAsset) : SameSums assets assets :=
  ⟨fun _ _ => Iff.rfl, fun _ _ => rfl⟩

theorem SameSums.trans {assets'' : List CardanoAsset} (h : SameSums assets assets')
    (h' : SameSums assets' assets'') : SameSums assets assets'' :=
  ⟨fun policy name => (h'.mentions policy name).trans (h.mentions policy name),
    fun policy name => (h'.total policy name).trans (h.total policy name)⟩

theorem sameSums_of_perm (h : assets.Perm assets') : SameSums assets assets' where
  mentions policy name := by
    simp only [Mentions, h.mem_iff]
  total policy name := ((h.filter _).map _).sum_eq.symm

theorem SplitsInto.sameSums {a : CardanoAsset} {parts : List CardanoAsset} (h : SplitsInto a parts) :
    SameSums [a] parts where
  mentions policy name := by
    obtain ⟨b, hb⟩ := List.exists_mem_of_ne_nil parts h.nonempty
    constructor
    · rintro ⟨c, hc, rfl, rfl⟩
      exact ⟨a, List.mem_singleton_self a, (h.key c hc).1.symm, (h.key c hc).2.symm⟩
    · rintro ⟨c, hc, hpolicy, hname⟩
      obtain rfl := List.mem_singleton.mp hc
      exact ⟨b, hb, (h.key b hb).1.trans hpolicy, (h.key b hb).2.trans hname⟩
  total policy name := by
    -- the filter keeps all parts, or none
    have hkey : ∀ b ∈ parts, decide (b.policyId = policy ∧ b.assetName = name) =
        decide (a.policyId = policy ∧ a.assetName = name) := by
      intro b hb
      rw [(h.key b hb).1, (h.key b hb).2]
    rw [total_singleton, total, List.filter_congr hkey]
    by_cases hhere : a.policyId = policy ∧ a.assetName = name
    · rw [if_pos hhere, decide_eq_true hhere, List.filter_true, h.sum]
    · rw [if_neg hhere, decide_eq_false hhere, List.filter_false, List.map_nil, List.sum_nil]

theorem Rearranges.sameSums (h : Rearranges assets assets') : SameSums assets assets' := by
  induction h with
  | perm h => exact sameSums_of_perm h
  | split before after h =>
    exact (SameSums.refl before).append (h.sameSums.append (SameSums.refl after))
  | trans _ _ ih ih' => exact ih.trans ih'

/-- The tables of the two are the same. -/
theorem SameSums.held_eq (h : SameSums assets assets') : held assets' = held assets := by
  funext policy name
  rw [held, held, h.total]
  simp only [h.mentions]

theorem SameSums.sumsFit_iff (h : SameSums assets assets') : SumsFit assets' ↔ SumsFit assets := by
  simp only [SumsFit, h.total]

theorem SameSums.eq_nil_iff (h : SameSums assets assets') : assets' = [] ↔ assets = [] := by
  have hnil : ∀ assets : List CardanoAsset,
      assets = [] ↔ ∀ policy name, ¬ Mentions assets policy name := by
    intro assets
    constructor
    · rintro rfl policy name ⟨a, ha, -⟩
      cases ha
    · intro hnone
      refine List.eq_nil_iff_forall_not_mem.mpr fun a ha => ?_
      exact hnone a.policyId a.assetName ⟨a, ha, rfl, rfl⟩
  rw [hnil, hnil]
  simp only [h.mentions]

end Sums

/-! ## Outputs -/

theorem groupAssets_overflow {assets : List CardanoAsset} (h : ¬ SumsFit assets) :
    groupAssets assets = .error .overflow :=
  (holds_nil.foldlM sumsFit_nil).2 h

section Output

variable {out out' : CardanoOutput}

theorem outputItem_eq (haddress : out.address ≠ []) : outputItem out =
    outputValue out >>= fun value => .ok (.array [.bytes out.address, value]) := by
  rw [outputItem, if_neg fun hempty => haddress (List.isEmpty_iff.mp hempty)]

theorem outputValue_eq (hassets : out.assets ≠ []) : outputValue out =
    groupAssets out.assets >>= fun policies =>
      .ok (.array [.uint out.amount, policiesMap policies]) := by
  rw [outputValue, if_neg fun hempty => hassets (List.isEmpty_iff.mp hempty), multiassetMap]
  cases groupAssets out.assets <;> rfl

theorem outputItem_of_sumsFit (haddress : out.address ≠ []) (hfit : SumsFit out.assets) :
    ∃ c, outputItem out = .ok c := by
  rw [outputItem_eq haddress]
  by_cases hassets : out.assets = []
  · rw [outputValue, if_pos (List.isEmpty_iff.mpr hassets)]
    exact ⟨_, rfl⟩
  · obtain ⟨policies, hgroup, -⟩ := groupAssets_of_sumsFit hfit
    rw [outputValue_eq hassets, hgroup]
    exact ⟨_, rfl⟩

theorem outputItem_overflow (haddress : out.address ≠ []) (hfit : ¬ SumsFit out.assets) :
    outputItem out = .error .overflow := by
  have hassets : out.assets ≠ [] := by
    intro hnil
    rw [hnil] at hfit
    exact hfit sumsFit_nil
  rw [outputItem_eq haddress, outputValue_eq hassets, groupAssets_overflow hfit]
  rfl

/-- The address and the coins are the same, and the assets have the same sums. -/
structure SameBundle (out out' : CardanoOutput) : Prop where
  address : out'.address = out.address
  amount : out'.amount = out.amount
  assets : SameSums out.assets out'.assets

/-- Outputs with the same sums are encoded alike, or fail alike. -/
theorem SameBundle.encode_outputItem (h : SameBundle out out') :
    (outputItem out').map Cbor.encode = (outputItem out).map Cbor.encode := by
  by_cases haddress : out.address = []
  · have haddress' := h.address.trans haddress
    rw [outputItem, outputItem, if_pos (List.isEmpty_iff.mpr haddress),
      if_pos (List.isEmpty_iff.mpr haddress')]
  have haddress' : out'.address ≠ [] := h.address ▸ haddress
  by_cases hassets : out.assets = []
  · have hassets' := h.assets.eq_nil_iff.mpr hassets
    rw [outputItem_eq haddress, outputItem_eq haddress', outputValue, outputValue,
      if_pos (List.isEmpty_iff.mpr hassets), if_pos (List.isEmpty_iff.mpr hassets'), h.address,
      h.amount]
  have hassets' : out'.assets ≠ [] := mt h.assets.eq_nil_iff.mp hassets
  by_cases hfit : SumsFit out.assets
  · obtain ⟨policies, hgroup, hholds⟩ := groupAssets_of_sumsFit hfit
    obtain ⟨policies', hgroup', hholds'⟩ := groupAssets_of_sumsFit (h.assets.sumsFit_iff.mpr hfit)
    rw [h.assets.held_eq] at hholds'
    rw [outputItem_eq haddress, outputItem_eq haddress', outputValue_eq hassets,
      outputValue_eq hassets', hgroup, hgroup']
    refine congrArg Except.ok ?_
    rw [encode_pair, encode_pair, encode_pair, encode_pair, hholds'.encode_eq hholds, h.address,
      h.amount]
  · rw [outputItem_overflow haddress hfit,
      outputItem_overflow haddress' (mt h.assets.sumsFit_iff.mp hfit)]

end Output

/-! ## Bodies -/

namespace CardanoTx

variable {tx tx' : CardanoTx}

/-- What the encoder checks apart from the sums. -/
structure Valid (tx : CardanoTx) : Prop where
  inputs : tx.inputs ≠ []
  outputs : tx.outputs ≠ []
  txid : ∀ i ∈ tx.inputs, i.txid.length = 32
  address : ∀ o ∈ tx.outputs, o.address ≠ []

/-- The transactions agree but for how the sums of the outputs are spread. -/
structure SameBundles (tx tx' : CardanoTx) : Prop where
  inputs : tx'.inputs = tx.inputs
  outputs : List.Forall₂ SameBundle tx.outputs tx'.outputs
  fee : tx'.fee = tx.fee
  ttl : tx'.ttl = tx.ttl

theorem SameBundles.bodyBytes_eq (h : SameBundles tx tx') : tx'.bodyBytes = tx.bodyBytes := by
  have hitems := map_mapM_congr (h.outputs.imp fun _ _ hout => hout.encode_outputItem)
  have hempty : tx'.outputs.isEmpty = tx.outputs.isEmpty := by
    rw [Bool.eq_iff_iff, List.isEmpty_iff_length_eq_zero, List.isEmpty_iff_length_eq_zero,
      h.outputs.length_eq]
  rw [bodyBytes, bodyBytes, bodyMap, bodyMap, h.inputs, h.fee, h.ttl, hempty]
  split_ifs
  · rfl
  · rfl
  cases tx.inputs.mapM inputItem with
  | error e => rfl
  | ok inputs =>
    rw [ok_bind, ok_bind, bind_assoc, bind_assoc]
    exact bind_congr_of_map hitems fun _ _ h => congrArg Except.ok (encode_bodyEntries h)

theorem Valid.bodyBytes_eq (h : Valid tx) :
    ∃ inputs, tx.bodyBytes = tx.outputs.mapM outputItem >>= fun outputs =>
      .ok (Cbor.map (bodyEntries inputs outputs tx.fee tx.ttl)).encode := by
  obtain ⟨inputs, hinputs⟩ : ∃ inputs, tx.inputs.mapM inputItem = .ok inputs :=
    exists_mapM_ok_iff.mpr fun i hi => ⟨_, if_neg (not_not.mpr (h.txid i hi))⟩
  refine ⟨inputs, ?_⟩
  rw [bodyBytes, bodyMap, if_neg fun hnil => h.inputs (List.isEmpty_iff.mp hnil),
    if_neg fun hnil => h.outputs (List.isEmpty_iff.mp hnil), hinputs, ok_bind, bind_assoc]
  rfl

/-- A valid transaction fails with nothing but an overflow. -/
theorem Valid.fails (h : Valid tx) : Fails (· = .overflow) tx.bodyBytes := by
  obtain ⟨inputs, hbody⟩ := h.bodyBytes_eq
  rw [hbody]
  refine Fails.bind (Fails.mapM fun o ho => ?_) fun _ => fails_ok _
  by_cases hfit : SumsFit o.assets
  · obtain ⟨c, hc⟩ := outputItem_of_sumsFit (h.address o ho) hfit
    rw [hc]
    exact fails_ok c
  · rw [outputItem_overflow (h.address o ho) hfit]
    exact fails_error rfl

theorem Valid.bodyBytes_ok_iff (h : Valid tx) :
    (∃ body, tx.bodyBytes = .ok body) ↔ ∀ o ∈ tx.outputs, SumsFit o.assets := by
  obtain ⟨inputs, hbody⟩ := h.bodyBytes_eq
  rw [hbody]
  constructor
  · rintro ⟨body, hok⟩ o ho
    obtain ⟨items, hitems, -⟩ := bind_eq_ok.mp hok
    obtain ⟨c, hc⟩ := exists_mapM_ok_iff.mp ⟨items, hitems⟩ o ho
    by_contra hfit
    rw [outputItem_overflow (h.address o ho) hfit] at hc
    cases hc
  · intro hfit
    obtain ⟨items, hitems⟩ := exists_mapM_ok_iff.mpr fun o ho =>
      outputItem_of_sumsFit (h.address o ho) (hfit o ho)
    rw [hitems]
    exact ⟨_, rfl⟩

theorem Valid.bodyBytes_overflow_iff (h : Valid tx) : tx.bodyBytes = .error .overflow ↔
    ∃ o ∈ tx.outputs, ∃ policy name, 2 ^ 64 ≤ total o.assets policy name := by
  have hfit : (∃ o ∈ tx.outputs, ∃ policy name, 2 ^ 64 ≤ total o.assets policy name) ↔
      ¬ ∃ body, tx.bodyBytes = .ok body := by
    rw [h.bodyBytes_ok_iff]
    simp only [SumsFit, not_forall, not_lt, exists_prop]
  rw [hfit]
  constructor
  · rintro herror ⟨body, hok⟩
    rw [herror] at hok
    cases hok
  · intro hnot
    cases hbody : tx.bodyBytes with
    | error e => rw [h.fails e hbody]
    | ok body => exact absurd ⟨body, hbody⟩ hnot

/-- The inputs, the fee and the lifetime are the same, and the bundles are rearranged. -/
structure RearrangesBundles (tx tx' : CardanoTx) : Prop where
  inputs : tx'.inputs = tx.inputs
  outputs : List.Forall₂ (fun out out' => out'.address = out.address ∧ out'.amount = out.amount ∧
    Rearranges out.assets out'.assets) tx.outputs tx'.outputs
  fee : tx'.fee = tx.fee
  ttl : tx'.ttl = tx.ttl

theorem RearrangesBundles.sameBundles (h : RearrangesBundles tx tx') : SameBundles tx tx' where
  inputs := h.inputs
  outputs := h.outputs.imp fun _ _ hout => ⟨hout.1, hout.2.1, hout.2.2.sameSums⟩
  fee := h.fee
  ttl := h.ttl

end CardanoTx

/-- The body fails exactly with a sum that does not fit, and it and its hash depend on the sums
of the outputs and on the pairs that occur, which survive every rearrangement. -/
theorem bundles_order_independent (P : Primitives) {tx : CardanoTx} (hvalid : tx.Valid) :
    (tx.bodyBytes = .error .overflow ↔
      ∃ o ∈ tx.outputs, ∃ policy name, 2 ^ 64 ≤ total o.assets policy name) ∧
    ((¬ ∃ o ∈ tx.outputs, ∃ policy name, 2 ^ 64 ≤ total o.assets policy name) →
      ∃ body, tx.bodyBytes = .ok body) ∧
    (∀ tx', tx.SameBundles tx' → tx'.bodyBytes = tx.bodyBytes ∧ tx'.hash P = tx.hash P) ∧
    ∀ tx', tx.RearrangesBundles tx' → tx'.bodyBytes = tx.bodyBytes ∧ tx'.hash P = tx.hash P := by
  have hsame : ∀ tx', tx.SameBundles tx' →
      tx'.bodyBytes = tx.bodyBytes ∧ tx'.hash P = tx.hash P := by
    intro tx' h
    refine ⟨h.bodyBytes_eq, ?_⟩
    rw [CardanoTx.hash, CardanoTx.hash, CardanoTx.signBytes, CardanoTx.signBytes, h.bodyBytes_eq]
  refine ⟨hvalid.bodyBytes_overflow_iff, fun hnone => ?_, hsame,
    fun tx' h => hsame tx' h.sameBundles⟩
  cases hbody : tx.bodyBytes with
  | ok body => exact ⟨body, rfl⟩
  | error e =>
    rw [hvalid.fails e hbody] at hbody
    exact absurd (hvalid.bodyBytes_overflow_iff.mp hbody) hnone

/-- The sample with its assets in another order, and one of them split. -/
def rearrangedTx : CardanoTx :=
  { sampleTx with outputs :=
      [⟨[0x61], 5, [⟨[1], [], 1⟩, ⟨[2], [9], 1⟩, ⟨[2], [9], 2⟩, ⟨[2], [9], 4⟩]⟩] }

theorem bundles_order_independent_sample : rearrangedTx.bodyBytes = sampleTx.bodyBytes := by
  have hvalid : sampleTx.Valid :=
    ⟨by decide, by decide, by decide, by decide⟩
  refine ((bundles_order_independent (samplePrimitives sampleDigest) hvalid).2.2.2 rearrangedTx
    ⟨rfl, .cons ⟨rfl, rfl, ?_⟩ .nil, rfl, rfl⟩).1
  refine .trans (.perm (List.Perm.swap _ _ _)) ?_
  exact @Rearranges.split ⟨[2], [9], 3⟩ [⟨[2], [9], 1⟩, ⟨[2], [9], 2⟩] [⟨[1], [], 1⟩]
    [⟨[2], [9], 4⟩] ⟨by decide, by decide, by decide⟩

end Outscript.Cardano
