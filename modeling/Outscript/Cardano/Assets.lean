import Outscript.Cbor.Value
import Outscript.Library.AssocList

/-!
# Native assets

The assets of an output are grouped by policy and then by name, adding up what
has both in common. Grouping succeeds exactly when every sum fits, and a map of
assets is flattened to a list in the order of policies and names.
-/
namespace Outscript.Cardano

open ByteString Fallible AssocList

structure CardanoAsset where
  policyId : Bytes
  assetName : Bytes
  amount : UInt64
  deriving DecidableEq

def checkedAdd (x y : UInt64) : Option UInt64 :=
  if x.toNat + y.toNat < 2 ^ 64 then some (x + y) else none

/-- The amounts under each name, and the names under each policy, in the order of their
first occurrence. -/
abbrev Names := List (Bytes × UInt64)

abbrev Policies := List (Bytes × Names)

def addAmount (a : CardanoAsset) : Option UInt64 → Except Error UInt64
  | some amount => okOr (checkedAdd amount a.amount) .overflow
  | none => .ok a.amount

def addAsset (policies : Policies) (a : CardanoAsset) : Except Error Policies :=
  upsert a.policyId (fun names => upsert a.assetName (addAmount a) (names.getD [])) policies

def groupAssets (assets : List CardanoAsset) : Except Error Policies :=
  assets.foldlM addAsset []

def namesMap (names : Names) : Cbor := .map (names.map fun e => (.bytes e.1, .uint e.2))

def policiesMap (policies : Policies) : Cbor :=
  .map (policies.map fun e => (.bytes e.1, namesMap e.2))

/-- The map of assets by policy and name. -/
def multiassetMap (assets : List CardanoAsset) : Except Error Cbor := do
  let policies ← groupAssets assets
  .ok (policiesMap policies)

/-- Assets in the order of their policies, then of their names. -/
def assetKey (a : CardanoAsset) : List ℕ ×ₗ List ℕ :=
  toLex (a.policyId.map UInt8.toNat, a.assetName.map UInt8.toNat)

def assetLe (a b : CardanoAsset) : Prop := assetKey a ≤ assetKey b

instance : DecidableRel assetLe := fun _ _ => inferInstanceAs (Decidable (_ ≤ _))

def flattenNames (policyId : Bytes) (names : List (Cbor × Cbor)) :
    Except Error (List CardanoAsset) :=
  names.mapM fun e => do
    let assetName ← okOr e.1.asBytes .invalidData
    let amount ← okOr e.2.asUint .invalidData
    .ok ⟨policyId, assetName, amount⟩

/-- The list of a decoded map of assets. -/
def flattenAssets (multiasset : List (Cbor × Cbor)) : Except Error (List CardanoAsset) := do
  let assets ← multiasset.mapM fun e => do
    let policyId ← okOr e.1.asBytes .invalidData
    let names ← okOr e.2.asMap .invalidData
    flattenNames policyId names
  .ok (assets.flatten.insertionSort assetLe)

/-! ## What the groups hold -/

/-- The sum of the amounts with this policy and name. -/
def total (assets : List CardanoAsset) (policy name : Bytes) : ℕ :=
  ((assets.filter fun a => a.policyId = policy ∧ a.assetName = name).map
    fun a => a.amount.toNat).sum

def Mentions (assets : List CardanoAsset) (policy name : Bytes) : Prop :=
  ∃ a ∈ assets, a.policyId = policy ∧ a.assetName = name

instance (assets : List CardanoAsset) (policy name : Bytes) :
    Decidable (Mentions assets policy name) :=
  inferInstanceAs (Decidable (∃ a ∈ assets, _))

def held (assets : List CardanoAsset) (policy name : Bytes) : Option UInt64 :=
  if Mentions assets policy name then some (UInt64.ofNat (total assets policy name)) else none

def SumsFit (assets : List CardanoAsset) : Prop :=
  ∀ policy name, total assets policy name < 2 ^ 64

/-- The groups represent a table of amounts, and no policy is without a name. -/
structure Holds (policies : Policies) (table : Bytes → Bytes → Option UInt64) : Prop where
  nodup : (policies.map Prod.fst).Nodup
  names : ∀ policy, Represents ((lookup policies policy).getD []) (table policy)
  nonempty : ∀ policy, lookup policies policy ≠ some []

theorem total_append (assets more : List CardanoAsset) (policy name : Bytes) :
    total (assets ++ more) policy name = total assets policy name + total more policy name := by
  simp [total, List.filter_append]

theorem total_singleton (a : CardanoAsset) (policy name : Bytes) :
    total [a] policy name =
      if a.policyId = policy ∧ a.assetName = name then a.amount.toNat else 0 := by
  by_cases h : a.policyId = policy ∧ a.assetName = name
  · simp [total, h]
  · simp [total, h]

theorem total_of_not_mentions {assets : List CardanoAsset} {policy name : Bytes}
    (h : ¬ Mentions assets policy name) : total assets policy name = 0 := by
  have hnone : assets.filter (fun a => a.policyId = policy ∧ a.assetName = name) = [] := by
    refine List.filter_eq_nil_iff.mpr fun a ha hkey => h ⟨a, ha, ?_⟩
    simpa using hkey
  rw [total, hnone]
  rfl

theorem mentions_append {assets : List CardanoAsset} {a : CardanoAsset} {policy name : Bytes} :
    Mentions (assets ++ [a]) policy name ↔
      Mentions assets policy name ∨ (a.policyId = policy ∧ a.assetName = name) := by
  simp only [Mentions, List.mem_append, List.mem_singleton, or_and_right, exists_or,
    exists_eq_left]

theorem sumsFit_append {assets : List CardanoAsset} {a : CardanoAsset} :
    SumsFit (assets ++ [a]) ↔
      SumsFit assets ∧ total (assets ++ [a]) a.policyId a.assetName < 2 ^ 64 := by
  constructor
  · intro h
    refine ⟨fun policy name => ?_, h _ _⟩
    have hle := h policy name
    rw [total_append] at hle
    omega
  · rintro ⟨h, hlast⟩ policy name
    by_cases hkey : a.policyId = policy ∧ a.assetName = name
    · rw [← hkey.1, ← hkey.2]
      exact hlast
    · have hfit := h policy name
      rw [total_append, total_singleton, if_neg hkey]
      omega

section Step

variable {assets : List CardanoAsset} {a : CardanoAsset}

theorem addAmount_held (h : SumsFit assets) :
    addAmount a (held assets a.policyId a.assetName) =
      if total (assets ++ [a]) a.policyId a.assetName < 2 ^ 64 then
        .ok (UInt64.ofNat (total (assets ++ [a]) a.policyId a.assetName))
      else .error .overflow := by
  have hsum : total (assets ++ [a]) a.policyId a.assetName =
      total assets a.policyId a.assetName + a.amount.toNat := by
    rw [total_append, total_singleton, if_pos ⟨rfl, rfl⟩]
  rw [held, hsum]
  by_cases hmentions : Mentions assets a.policyId a.assetName
  · have hfit := h a.policyId a.assetName
    have hval : (UInt64.ofNat (total assets a.policyId a.assetName)).toNat =
        total assets a.policyId a.assetName := by
      rw [UInt64.toNat_ofNat']
      exact Nat.mod_eq_of_lt hfit
    rw [if_pos hmentions, addAmount, checkedAdd, hval]
    by_cases hlt : total assets a.policyId a.assetName + a.amount.toNat < 2 ^ 64
    · rw [if_pos hlt, if_pos hlt, UInt64.ofNat_add, UInt64.ofNat_toNat]
      rfl
    · rw [if_neg hlt, if_neg hlt]
      rfl
  · have hlt := a.amount.toNat_lt
    rw [if_neg hmentions, total_of_not_mentions hmentions, Nat.zero_add, if_pos hlt,
      UInt64.ofNat_toNat]
    rfl

theorem held_append (assets : List CardanoAsset) (a : CardanoAsset) :
    held (assets ++ [a]) = Function.update (held assets) a.policyId
      (Function.update (held assets a.policyId) a.assetName
        (some (UInt64.ofNat (total (assets ++ [a]) a.policyId a.assetName)))) := by
  funext policy name
  by_cases hkey : a.policyId = policy ∧ a.assetName = name
  · obtain ⟨rfl, rfl⟩ := hkey
    rw [Function.update_self, Function.update_self, held,
      if_pos (mentions_append.mpr (.inr ⟨rfl, rfl⟩))]
  · have hheld : held (assets ++ [a]) policy name = held assets policy name := by
      have hiff : Mentions (assets ++ [a]) policy name ↔ Mentions assets policy name := by
        rw [mentions_append, or_iff_left hkey]
      rw [held, held, total_append, total_singleton, if_neg hkey, Nat.add_zero]
      simp only [hiff]
    rw [hheld]
    by_cases hpolicy : policy = a.policyId
    · subst hpolicy
      rw [Function.update_self, Function.update_of_ne]
      exact fun hname => hkey ⟨rfl, hname.symm⟩
    · rw [Function.update_of_ne hpolicy]

/-- One more asset, as long as its sum fits. -/
theorem Holds.add {policies : Policies} (h : Holds policies (held assets)) (hfit : SumsFit assets)
    (hsum : total (assets ++ [a]) a.policyId a.assetName < 2 ^ 64) :
    ∃ policies', addAsset policies a = .ok policies' ∧ Holds policies' (held (assets ++ [a])) := by
  have hamount := addAmount_held (a := a) hfit
  rw [if_pos hsum] at hamount
  obtain ⟨names, hnames, hrep⟩ := (h.names a.policyId).upsert_ok hamount
  have hmem := (hrep.mem_iff a.assetName _).mpr (Function.update_self _ _ _)
  obtain ⟨policies', hpolicies, hrep'⟩ := (represents_lookup h.nodup).upsert_ok
    (f := fun names => upsert a.assetName (addAmount a) (names.getD [])) hnames
  refine ⟨policies', hpolicies, hrep'.nodup, fun policy => ?_, fun policy => ?_⟩
  · rw [hrep'.lookup_eq, held_append]
    by_cases hpolicy : policy = a.policyId
    · subst hpolicy
      rw [Function.update_self, Function.update_self]
      exact hrep
    · rw [Function.update_of_ne hpolicy, Function.update_of_ne hpolicy]
      exact h.names policy
  · rw [hrep'.lookup_eq]
    by_cases hpolicy : policy = a.policyId
    · subst hpolicy
      rw [Function.update_self]
      intro hnil
      cases hnil
      cases hmem
    · rw [Function.update_of_ne hpolicy]
      exact h.nonempty policy

theorem Holds.add_overflow {policies : Policies} (h : Holds policies (held assets))
    (hfit : SumsFit assets) (hsum : ¬ total (assets ++ [a]) a.policyId a.assetName < 2 ^ 64) :
    addAsset policies a = .error .overflow := by
  have hamount := addAmount_held (a := a) hfit
  rw [if_neg hsum] at hamount
  exact (represents_lookup h.nodup).upsert_error ((h.names a.policyId).upsert_error hamount)

end Step

theorem sumsFit_nil : SumsFit [] := fun _ _ => Nat.two_pow_pos 64

theorem holds_nil : Holds [] (held []) :=
  ⟨List.nodup_nil, fun _ => ⟨List.nodup_nil, by simp [held, Mentions, lookup]⟩,
    fun _ => by simp [lookup]⟩

/-- Going on with more assets. -/
theorem Holds.foldlM {policies : Policies} {assets more : List CardanoAsset}
    (h : Holds policies (held assets)) (hfit : SumsFit assets) :
    (SumsFit (assets ++ more) → ∃ policies', more.foldlM addAsset policies = .ok policies' ∧
      Holds policies' (held (assets ++ more))) ∧
    (¬ SumsFit (assets ++ more) → more.foldlM addAsset policies = .error .overflow) := by
  induction more generalizing policies assets with
  | nil =>
    rw [List.append_nil]
    exact ⟨fun _ => ⟨policies, rfl, h⟩, fun hnot => absurd hfit hnot⟩
  | cons a more ih =>
    rw [List.foldlM_cons, List.append_cons]
    by_cases hsum : total (assets ++ [a]) a.policyId a.assetName < 2 ^ 64
    · obtain ⟨policies', hadd, hholds⟩ := h.add hfit hsum
      rw [hadd, ok_bind]
      exact ih hholds (sumsFit_append.mpr ⟨hfit, hsum⟩)
    · rw [h.add_overflow hfit hsum]
      refine ⟨fun hall => absurd ?_ hsum, fun _ => rfl⟩
      have hlast := hall a.policyId a.assetName
      rw [total_append] at hlast
      omega

/-- Grouping succeeds exactly when every sum fits. -/
theorem groupAssets_of_sumsFit {assets : List CardanoAsset} (h : SumsFit assets) :
    ∃ policies, groupAssets assets = .ok policies ∧ Holds policies (held assets) :=
  (holds_nil.foldlM sumsFit_nil).1 h

theorem groupAssets_eq_ok {assets : List CardanoAsset} {policies : Policies}
    (h : groupAssets assets = .ok policies) : SumsFit assets ∧ Holds policies (held assets) := by
  have hfold := @Holds.foldlM [] [] assets holds_nil sumsFit_nil
  by_cases hfit : SumsFit assets
  · obtain ⟨policies', hok, hholds⟩ := hfold.1 hfit
    rw [groupAssets, hok] at h
    cases h
    exact ⟨hfit, hholds⟩
  · rw [groupAssets, hfold.2 hfit] at h
    cases h

/-! ## The list of a map -/

def flat (policies : Policies) : List CardanoAsset :=
  policies.flatMap fun e => e.2.map fun n => ⟨e.1, n.1, n.2⟩

theorem assetKey_inj {a b : CardanoAsset} :
    assetKey a = assetKey b ↔ a.policyId = b.policyId ∧ a.assetName = b.assetName := by
  have hinj := List.map_injective_iff.mpr fun _ _ => UInt8.toNat_inj.mp
  rw [assetKey, assetKey, toLex_inj, Prod.mk.injEq, hinj.eq_iff, hinj.eq_iff]

instance : Std.Total assetLe := ⟨fun a b => le_total (assetKey a) (assetKey b)⟩

instance : IsTrans CardanoAsset assetLe := ⟨fun _ _ _ => le_trans⟩

/-- Assets with distinct policies and names are sorted in one way. -/
theorem sortAssets_of_perm {xs ys : List CardanoAsset} (h : xs.Perm ys)
    (hkeys : (xs.map assetKey).Nodup) : xs.insertionSort assetLe = ys.insertionSort assetLe := by
  have hperm := (List.perm_insertionSort assetLe xs).trans
    (h.trans (List.perm_insertionSort assetLe ys).symm)
  refine hperm.eq_of_pairwise ?_ (List.pairwise_insertionSort assetLe xs)
    (List.pairwise_insertionSort assetLe ys)
  intro a b ha hb hle hge
  have ha : a ∈ xs := (List.mem_insertionSort assetLe).mp ha
  have hb : b ∈ xs := h.mem_iff.mpr ((List.mem_insertionSort assetLe).mp hb)
  exact List.inj_on_of_nodup_map hkeys ha hb (le_antisymm hle hge)

section Flat

variable {policies : Policies} {table : Bytes → Bytes → Option UInt64}

theorem Holds.mem_flat (h : Holds policies table) (a : CardanoAsset) :
    a ∈ flat policies ↔ table a.policyId a.assetName = some a.amount := by
  have hlookup := represents_lookup h.nodup
  rw [← (h.names a.policyId).mem_iff, flat, List.mem_flatMap]
  constructor
  · rintro ⟨⟨policy, names⟩, he, ha⟩
    obtain ⟨⟨name, amount⟩, hn, rfl⟩ := List.mem_map.mp ha
    rw [(hlookup.mem_iff policy names).mp he]
    exact hn
  · intro ha
    cases hnames : lookup policies a.policyId with
    | none =>
      rw [hnames] at ha
      cases ha
    | some names =>
      rw [hnames] at ha
      exact ⟨_, (hlookup.mem_iff _ _).mpr hnames, List.mem_map.mpr ⟨_, ha, rfl⟩⟩

theorem Holds.nodup_flat (h : Holds policies table) : ((flat policies).map assetKey).Nodup := by
  have hnodup : (flat policies).Nodup := by
    refine List.nodup_flatMap.mpr ⟨?_, ?_⟩
    · rintro ⟨policy, names⟩ he
      have hnames := (h.names policy).nodup
      rw [((represents_lookup h.nodup).mem_iff policy names).mp he] at hnames
      refine (List.Nodup.of_map _ hnames).map fun n n' heq => ?_
      exact Prod.ext (CardanoAsset.mk.inj heq).2.1 (CardanoAsset.mk.inj heq).2.2
    · refine (List.pairwise_map.mp h.nodup).imp fun {e e'} hne => ?_
      rintro a ha ha'
      obtain ⟨n, -, rfl⟩ := List.mem_map.mp ha
      obtain ⟨n', -, heq⟩ := List.mem_map.mp ha'
      exact hne (CardanoAsset.mk.inj heq).1.symm
  refine List.Nodup.map_on ?_ hnodup
  intro a ha b hb hkey
  obtain ⟨hpolicy, hname⟩ := assetKey_inj.mp hkey
  have hamount := (h.mem_flat a).mp ha
  rw [hpolicy, hname, (h.mem_flat b).mp hb] at hamount
  cases a
  cases b
  simp_all

end Flat

/-- Where no two assets agree on policy and name, each is a sum of its own. -/
theorem total_of_mem {assets : List CardanoAsset} (hkeys : (assets.map assetKey).Nodup)
    {a : CardanoAsset} (ha : a ∈ assets) :
    total assets a.policyId a.assetName = a.amount.toNat := by
  have hfilter : assets.filter (fun b => b.policyId = a.policyId ∧ b.assetName = a.assetName) =
      [a] := by
    have hmem : ∀ b ∈ assets, (b.policyId = a.policyId ∧ b.assetName = a.assetName) ↔ b = a := by
      intro b hb
      rw [← assetKey_inj]
      constructor
      · exact fun hkey => List.inj_on_of_nodup_map hkeys hb ha hkey
      · rintro rfl
        rfl
    have hcount := List.count_eq_one_of_mem (List.Nodup.of_map _ hkeys) ha
    rw [List.filter_congr fun b hb => decide_eq_decide.mpr (hmem b hb), List.filter_eq, hcount]
    rfl
  rw [total, hfilter]
  simp

theorem sumsFit_of_nodup {assets : List CardanoAsset} (hkeys : (assets.map assetKey).Nodup) :
    SumsFit assets := by
  intro policy name
  by_cases h : Mentions assets policy name
  · obtain ⟨a, ha, rfl, rfl⟩ := h
    rw [total_of_mem hkeys ha]
    exact a.amount.toNat_lt
  · rw [total_of_not_mentions h]
    decide

theorem held_of_nodup {assets : List CardanoAsset} (hkeys : (assets.map assetKey).Nodup)
    (a : CardanoAsset) : held assets a.policyId a.assetName = some a.amount ↔ a ∈ assets := by
  constructor
  · intro h
    rw [held] at h
    split_ifs at h with hmentions
    obtain ⟨b, hb, hpolicy, hname⟩ := hmentions
    have htotal := total_of_mem hkeys hb
    rw [hpolicy, hname] at htotal
    rw [htotal, UInt64.ofNat_toNat] at h
    obtain rfl : b = a := by
      cases a
      cases b
      simp_all
    exact hb
  · intro ha
    rw [held, if_pos ⟨a, ha, rfl, rfl⟩, total_of_mem hkeys ha, UInt64.ofNat_toNat]

/-- The list of a map is grouped to a map of the same table. -/
theorem Holds.regroup {policies : Policies} {table : Bytes → Bytes → Option UInt64}
    (h : Holds policies table) :
    ∃ policies', groupAssets ((flat policies).insertionSort assetLe) = .ok policies' ∧
      Holds policies' table := by
  have hperm := List.perm_insertionSort assetLe (flat policies)
  have hkeys := (hperm.map assetKey).nodup_iff.mpr h.nodup_flat
  have hheld : held ((flat policies).insertionSort assetLe) = table := by
    funext policy name
    apply Option.ext
    intro amount
    have hmem := held_of_nodup hkeys ⟨policy, name, amount⟩
    rw [hperm.mem_iff, h.mem_flat] at hmem
    exact hmem
  rw [← hheld]
  exact groupAssets_of_sumsFit (sumsFit_of_nodup hkeys)

/-! ## Encoded maps -/

/-- The encoded key gives the key back. -/
theorem encode_bytes_injective : Function.Injective fun b => (Cbor.bytes b).encode := by
  have hmono : ∀ n m : ℕ, n ≤ m → (Cbor.writeHead 2 n).length ≤ (Cbor.writeHead 2 m).length := by
    intro n m hle
    unfold Cbor.writeHead
    dsimp only
    split_ifs <;> simp only [List.length_cons, List.length_nil, length_be] <;> omega
  intro a b h
  dsimp only at h
  rw [Cbor.encode, Cbor.encode] at h
  have hlen := congrArg List.length h
  rw [List.length_append, List.length_append] at hlen
  have heq : a.length = b.length := by
    rcases le_total a.length b.length with hle | hle
    · have := hmono _ _ hle
      omega
    · have := hmono _ _ hle
      omega
  rw [heq] at h
  exact List.append_cancel_left h

/-- Entries are encoded in an order of their own. -/
theorem encode_map_of_perm {l l' : List (Bytes × Cbor)}
    (hperm : (l.map fun e => (e.1, e.2.encode)).Perm (l'.map fun e => (e.1, e.2.encode)))
    (hkeys : (l.map Prod.fst).Nodup) :
    (Cbor.map (l.map fun e => (.bytes e.1, e.2))).encode =
      (Cbor.map (l'.map fun e => (.bytes e.1, e.2))).encode := by
  have hencoded : ∀ l : List (Bytes × Cbor),
      Cbor.encodeEntries (l.map fun e => (.bytes e.1, e.2)) =
        (l.map fun e => (e.1, e.2.encode)).map fun e => ((Cbor.bytes e.1).encode, e.2) := by
    intro l
    rw [Cbor.encodeEntries_eq, List.map_map, List.map_map]
    rfl
  have hnodup : ((Cbor.encodeEntries (l.map fun e => (.bytes e.1, e.2))).map Prod.fst).Nodup := by
    rw [hencoded, List.map_map, List.map_map]
    have := hkeys.map encode_bytes_injective
    rwa [List.map_map] at this
  have hentries : (Cbor.encodeEntries (l.map fun e => (.bytes e.1, e.2))).Perm
      (Cbor.encodeEntries (l'.map fun e => (.bytes e.1, e.2))) := by
    rw [hencoded, hencoded]
    exact hperm.map _
  rw [Cbor.encode, Cbor.encode, Cbor.insertionSort_eq_of_perm hentries hnodup]

theorem encode_namesMap {names names' : Names} {m : Bytes → Option UInt64}
    (h : Represents names m) (h' : Represents names' m) :
    (namesMap names).encode = (namesMap names').encode := by
  have hmap : ∀ names : Names, namesMap names =
      .map ((names.map fun e => (e.1, Cbor.uint e.2)).map fun e => (.bytes e.1, e.2)) := by
    intro names
    rw [namesMap, List.map_map]
    rfl
  rw [hmap, hmap]
  refine encode_map_of_perm ?_ ?_
  · rw [List.map_map, List.map_map]
    exact (h.perm h').map _
  · rw [List.map_map]
    exact h.nodup

/-- Maps of one table are encoded alike. -/
theorem Holds.encode_eq {policies policies' : Policies} {table : Bytes → Bytes → Option UInt64}
    (h : Holds policies table) (h' : Holds policies' table) :
    (policiesMap policies).encode = (policiesMap policies').encode := by
  have hmap : ∀ policies : Policies, policiesMap policies =
      .map ((policies.map fun e => (e.1, namesMap e.2)).map fun e => (.bytes e.1, e.2)) := by
    intro policies
    rw [policiesMap, List.map_map]
    rfl
  -- both sides encode, for each policy, one map of names
  have hnames : (fun policy => (lookup policies policy).map fun names => (namesMap names).encode) =
      fun policy => (lookup policies' policy).map fun names => (namesMap names).encode := by
    funext policy
    have hrep := h.names policy
    have hrep' := h'.names policy
    have hne := h.nonempty policy
    have hne' := h'.nonempty policy
    cases hl : lookup policies policy with
    | none =>
      cases hl' : lookup policies' policy with
      | none => rfl
      | some names' =>
        rw [hl] at hrep
        rw [hl'] at hrep' hne'
        exact absurd (congrArg some (hrep'.perm hrep).eq_nil) hne'
    | some names =>
      cases hl' : lookup policies' policy with
      | none =>
        rw [hl] at hrep hne
        rw [hl'] at hrep'
        exact absurd (congrArg some (hrep.perm hrep').eq_nil) hne
      | some names' =>
        rw [hl] at hrep
        rw [hl'] at hrep'
        exact congrArg some (encode_namesMap hrep hrep')
  have hleft := (represents_lookup h.nodup).map_value fun names => (namesMap names).encode
  have hright := (represents_lookup h'.nodup).map_value fun names => (namesMap names).encode
  rw [hnames] at hleft
  rw [hmap, hmap]
  refine encode_map_of_perm ?_ ?_
  · rw [List.map_map, List.map_map]
    exact hleft.perm hright
  · rw [List.map_map]
    exact h.nodup

/-! ## Decoded maps -/

def keyBefore {β : Type} (e e' : Bytes × β) : Prop :=
  Cbor.keyOrder (Cbor.bytes e.1).encode ≤ Cbor.keyOrder (Cbor.bytes e'.1).encode

instance {β : Type} : DecidableRel (keyBefore (β := β)) :=
  fun _ _ => inferInstanceAs (Decidable (_ ≤ _))

/-- The groups in the order of their encoding. -/
def sortPolicies (policies : Policies) : Policies :=
  (policies.insertionSort keyBefore).map fun e => (e.1, e.2.insertionSort keyBefore)

theorem canon_namesMap (names : Names) :
    (namesMap names).canon = namesMap (names.insertionSort keyBefore) := by
  have hsort := List.map_insertionSort keyBefore Cbor.entryLe
    (fun e : Bytes × UInt64 => (Cbor.bytes e.1, Cbor.uint e.2)) names (fun _ _ _ _ => Iff.rfl)
  rw [namesMap, Cbor.canon_map, ← hsort, List.map_map]
  rfl

theorem canon_policiesMap (policies : Policies) :
    (policiesMap policies).canon = policiesMap (sortPolicies policies) := by
  have hsort := List.map_insertionSort keyBefore Cbor.entryLe
    (fun e : Bytes × Names => (Cbor.bytes e.1, namesMap e.2)) policies (fun _ _ _ _ => Iff.rfl)
  rw [policiesMap, Cbor.canon_map, ← hsort, List.map_map, policiesMap, sortPolicies, List.map_map]
  refine congrArg Cbor.map (List.map_congr_left fun e _ => ?_)
  exact congrArg (Prod.mk _) (canon_namesMap e.2)

theorem flat_sortPolicies (policies : Policies) :
    (flat (sortPolicies policies)).Perm (flat policies) := by
  have houter := (List.perm_insertionSort keyBefore policies).flatMap_right
    fun e => e.2.map fun n => (⟨e.1, n.1, n.2⟩ : CardanoAsset)
  refine List.Perm.trans ?_ houter
  rw [flat, sortPolicies, List.flatMap_map]
  exact List.Perm.flatMap_left _ fun e _ => (List.perm_insertionSort keyBefore e.2).map _

theorem flattenAssets_policies (policies : Policies) :
    flattenAssets (policies.map fun e => (.bytes e.1, namesMap e.2)) =
      .ok ((flat policies).insertionSort assetLe) := by
  have hnames : ∀ e ∈ policies, (do
      let policyId ← okOr (Cbor.bytes e.1).asBytes Error.invalidData
      let names ← okOr (namesMap e.2).asMap .invalidData
      flattenNames policyId names) = .ok (e.2.map fun n => ⟨e.1, n.1, n.2⟩) := by
    intro e _
    have hmap : flattenNames e.1 (e.2.map fun n => (.bytes n.1, .uint n.2)) =
        .ok (e.2.map fun n => ⟨e.1, n.1, n.2⟩) := by
      rw [flattenNames, List.mapM_map]
      exact mapM_ok fun _ _ => rfl
    exact hmap
  rw [flattenAssets, List.mapM_map]
  exact congrArg (fun r => r >>= fun assets => Except.ok (assets.flatten.insertionSort assetLe))
    (mapM_ok hnames)

/-- A map of assets is read back as its assets in order. -/
theorem Holds.flattenAssets_canon {policies : Policies}
    {table : Bytes → Bytes → Option UInt64} (h : Holds policies table) :
    ∃ entries, (policiesMap policies).canon = .map entries ∧
      flattenAssets entries = .ok ((flat policies).insertionSort assetLe) := by
  refine ⟨_, canon_policiesMap policies, ?_⟩
  rw [flattenAssets_policies]
  have hperm := flat_sortPolicies policies
  rw [sortAssets_of_perm hperm ((hperm.map assetKey).nodup_iff.mpr h.nodup_flat)]

end Outscript.Cardano
