import Outscript.Cardano.Assets
import Outscript.Cbor.Accepted

/-!
# Cardano transactions

A transaction is an array of its body, its witnesses, a flag and a null. What
is built is read back, with the assets of an output added up and in order, and
gives the same bytes again. A received body is reproduced exactly when it is
the canonical encoding of a body of the supported kind: every other body that
is accepted is signed as a different transaction.
-/
namespace Outscript.Cardano

open ByteString Fallible AssocList

structure CardanoInput where
  txid : Bytes
  index : UInt64
  deriving DecidableEq

structure CardanoOutput where
  address : Bytes
  amount : UInt64
  assets : List CardanoAsset
  deriving DecidableEq

structure CardanoVkeyWitness where
  vkey : Bytes
  signature : Bytes
  deriving DecidableEq

structure CardanoTx where
  inputs : List CardanoInput
  outputs : List CardanoOutput
  fee : UInt64
  ttl : UInt64
  witnesses : List CardanoVkeyWitness
  deriving DecidableEq

/-! ## Building -/

/-- A bare coin, or the coin with its native tokens. -/
def outputValue (out : CardanoOutput) : Except Error Cbor :=
  if out.assets.isEmpty then .ok (.uint out.amount)
  else do
    let multiasset ← multiassetMap out.assets
    .ok (.array [.uint out.amount, multiasset])

def inputItem (input : CardanoInput) : Except Error Cbor :=
  if input.txid.length ≠ 32 then .error .invalidLength
  else .ok (.array [.bytes input.txid, .uint input.index])

def outputItem (out : CardanoOutput) : Except Error Cbor :=
  if out.address.isEmpty then .error .emptyAddress
  else do
    let value ← outputValue out
    .ok (.array [.bytes out.address, value])

def bodyEntries (inputs outputs : List Cbor) (fee ttl : UInt64) : List (Cbor × Cbor) :=
  [(.uint 0, .array inputs), (.uint 1, .array outputs), (.uint 2, .uint fee)] ++
    if ttl ≠ 0 then [(.uint 3, .uint ttl)] else []

namespace CardanoTx

def bodyMap (tx : CardanoTx) : Except Error Cbor :=
  if tx.inputs.isEmpty then .error .noInputs
  else if tx.outputs.isEmpty then .error .noOutputs
  else do
    let inputs ← tx.inputs.mapM inputItem
    let outputs ← tx.outputs.mapM outputItem
    .ok (.map (bodyEntries inputs outputs tx.fee tx.ttl))

def bodyBytes (tx : CardanoTx) : Except Error Bytes := do
  let body ← tx.bodyMap
  .ok body.encode

def witnessSet (tx : CardanoTx) : Cbor :=
  if tx.witnesses.isEmpty then .map []
  else .map [(.uint 0, .array (tx.witnesses.map fun w =>
    .array [.bytes w.vkey, .bytes w.signature]))]

def toBytes (tx : CardanoTx) : Except Error Bytes := do
  let bodyBytes ← tx.bodyBytes
  .ok (Cbor.array [.raw bodyBytes, tx.witnessSet, .bool true, .null]).encode

end CardanoTx

/-! ## Parsing -/

/-- The value of the first entry with an integer key. -/
def get (entries : List (Cbor × Cbor)) (key : UInt64) : Option Cbor :=
  (entries.find? fun e => e.1.asUint = some key).map Prod.snd

def decodeInput (input : Cbor) : Except Error CardanoInput := do
  let fields ← okOr input.asArray .invalidData
  match fields with
  | [txid, index] => do
    let txid ← okOr txid.asBytes .invalidData
    let index ← okOr index.asUint .invalidData
    .ok ⟨txid, index⟩
  | _ => .error .invalidData

/-- `[address, value, ? datum_hash]`. What follows the value is not looked at. -/
def decodeOutput (raw : Cbor) : Except Error CardanoOutput := do
  let fields ← okOr raw.asArray .invalidData
  match fields with
  | address :: value :: _ => do
    let address ← okOr address.asBytes .invalidData
    match value.asUint with
    | some amount => .ok ⟨address, amount, []⟩
    | none => do
      let value ← okOr value.asArray .invalidData
      match value with
      | [amount, multiasset] => do
        let amount ← okOr amount.asUint .invalidData
        let multiasset ← okOr multiasset.asMap .invalidData
        let assets ← flattenAssets multiasset
        .ok ⟨address, amount, assets⟩
      | _ => .error .invalidData
  | _ => .error .invalidData

def decodeWitness (vk : Cbor) : Except Error CardanoVkeyWitness := do
  let fields ← okOr vk.asArray .invalidData
  match fields with
  | [vkey, signature] => do
    let vkey ← okOr vkey.asBytes .invalidData
    let signature ← okOr signature.asBytes .invalidData
    .ok ⟨vkey, signature⟩
  | _ => .error .invalidData

/-- The items of an array under a key, if there is one. -/
def getItems {α : Type} (entries : List (Cbor × Cbor)) (key : UInt64)
    (decode : Cbor → Except Error α) : Except Error (List α) :=
  match get entries key with
  | none => .ok []
  | some value => do
    let items ← okOr value.asArray .invalidData
    items.mapM decode

def getUint (entries : List (Cbor × Cbor)) (key : UInt64) : Except Error UInt64 :=
  match get entries key with
  | none => .ok 0
  | some value => okOr value.asUint .invalidData

/-- The fields of a body. -/
def readBody (body : Cbor) (witnesses : List CardanoVkeyWitness) : Except Error CardanoTx := do
  let body ← okOr body.asMap .invalidData
  let inputs ← getItems body 0 decodeInput
  let outputs ← getItems body 1 decodeOutput
  let fee ← getUint body 2
  let ttl ← getUint body 3
  .ok ⟨inputs, outputs, fee, ttl, witnesses⟩

def readWitnesses (ws : Cbor) : Except Error (List CardanoVkeyWitness) :=
  match ws.asMap with
  | none => .ok []
  | some entries => getItems entries 0 decodeWitness

def CardanoTx.fromBytes (data : Bytes) : Except Error CardanoTx := do
  let raw ← (Cbor.splitArrayItems data).mapError .cbor
  match raw with
  | body :: ws :: _ => do
    let (body, _) ← (Cbor.decode body).mapError .cbor
    let tx ← readBody body []
    let (ws, _) ← (Cbor.decode ws).mapError .cbor
    let witnesses ← readWitnesses ws
    .ok { tx with witnesses }
  | _ => .error .invalidData

/-! ## Signing -/

/-- The hash and the signatures that the cryptography package provides. -/
structure Primitives where
  blake2b256 : Bytes → ByteVec 32
  publicFromSeed : ByteVec 32 → ByteVec 32
  sign : ByteVec 32 → Bytes → ByteVec 64
  verify : ByteVec 32 → Bytes → ByteVec 64 → Bool

/-- A key, or an external signer that may fail. -/
structure CardanoSigner where
  publicKey : ByteVec 32
  signCardano : Bytes → Option (ByteVec 64)

/-- A standard seed as a signer. -/
def seedSigner (P : Primitives) (seed : ByteVec 32) : CardanoSigner :=
  ⟨P.publicFromSeed seed, fun message => some (P.sign seed message)⟩

/-- A witness for each signer up to the first that fails. -/
def signDigest (digest : ByteVec 32) : List CardanoSigner →
    List CardanoVkeyWitness → List CardanoVkeyWitness × Except Error Unit
  | [], witnesses => (witnesses, .ok ())
  | signer :: signers, witnesses =>
    match signer.signCardano digest.toList with
    | none => (witnesses, .error .signer)
    | some sig =>
      signDigest digest signers (witnesses ++ [⟨signer.publicKey.toList, sig.toList⟩])

def checkWitness (P : Primitives) (digest : ByteVec 32) (w : CardanoVkeyWitness × ℕ) :
    Except Error Unit :=
  if hkey : w.1.vkey.length = 32 then
    if hsig : w.1.signature.length = 64 then
      if P.verify ⟨w.1.vkey, hkey⟩ digest.toList ⟨w.1.signature, hsig⟩ then .ok ()
      else .error (.signatureVerification w.2)
    else .error .invalidLength
  else .error .invalidLength

def checkWitnesses (P : Primitives) (digest : ByteVec 32) (witnesses : List CardanoVkeyWitness) :
    Except Error Unit :=
  witnesses.zipIdx.forM (checkWitness P digest)

namespace CardanoTx

variable (P : Primitives)

def signBytes (tx : CardanoTx) : Except Error (ByteVec 32) := do
  let bodyBytes ← tx.bodyBytes
  .ok (P.blake2b256 bodyBytes)

def hash (tx : CardanoTx) : Except Error (ByteVec 32) := tx.signBytes P

/-- The transaction afterwards, also where a signer fails. -/
def signWith (tx : CardanoTx) (signers : List CardanoSigner) : CardanoTx × Except Error Unit :=
  match tx.signBytes P with
  | .error e => (tx, .error e)
  | .ok digest =>
    let (witnesses, result) := signDigest digest signers tx.witnesses
    ({ tx with witnesses }, result)

def sign (tx : CardanoTx) (seeds : List (ByteVec 32)) : CardanoTx × Except Error Unit :=
  tx.signWith P (seeds.map (seedSigner P))

def verify (tx : CardanoTx) : Except Error Unit := do
  let digest ← tx.signBytes P
  checkWitnesses P digest tx.witnesses

end CardanoTx

/-! ## Bodies of the supported kind -/

def IsInput (c : Cbor) : Prop :=
  ∃ txid index, txid.length = 32 ∧ c = .array [.bytes txid, .uint index]

/-- A map of assets: no policy and no name of a policy twice, none of them empty. -/
def IsAssets (c : Cbor) : Prop :=
  ∃ policies : Policies, policies ≠ [] ∧ (policies.map Prod.fst).Nodup ∧
    (∀ e ∈ policies, e.2 ≠ [] ∧ (e.2.map Prod.fst).Nodup) ∧ c = policiesMap policies

def IsValue (c : Cbor) : Prop :=
  ∃ amount, c = .uint amount ∨ ∃ assets, IsAssets assets ∧ c = .array [.uint amount, assets]

def IsOutput (c : Cbor) : Prop :=
  ∃ address value, address ≠ [] ∧ IsValue value ∧ c = .array [.bytes address, value]

/-- A map of the keys 0, 1 and 2, and of 3 for a lifetime that is not zero. -/
def IsBody (c : Cbor) : Prop :=
  ∃ inputs outputs fee ttl, inputs ≠ [] ∧ (∀ i ∈ inputs, IsInput i) ∧
    outputs ≠ [] ∧ (∀ o ∈ outputs, IsOutput o) ∧ c = .map (bodyEntries inputs outputs fee ttl)

/-- The canonical encoding of a supported body. -/
def SupportedBody (bytes : Bytes) : Prop := ∃ c, IsBody c ∧ bytes = c.encode

/-! ## Depth -/

structure Shallow (n : ℕ) (c : Cbor) : Prop where
  rawFree : c.RawFree
  depth_le : c.depth ≤ n

section Shallow

variable {n : ℕ}

theorem shallow_uint (v : UInt64) : Shallow n (.uint v) := ⟨trivial, Nat.zero_le n⟩

theorem shallow_bytes (b : Bytes) : Shallow n (.bytes b) := ⟨trivial, Nat.zero_le n⟩

theorem shallow_array {items : List Cbor} (h : ∀ c ∈ items, Shallow n c) :
    Shallow (n + 1) (.array items) :=
  ⟨(Cbor.rawFreeItems_iff items).mpr fun c hc => (h c hc).rawFree,
    Nat.succ_le_succ ((Cbor.depthItems_le_iff items n).mpr fun c hc => (h c hc).depth_le)⟩

theorem shallow_map {entries : List (Cbor × Cbor)}
    (h : ∀ e ∈ entries, Shallow n e.1 ∧ Shallow n e.2) : Shallow (n + 1) (.map entries) :=
  ⟨(Cbor.rawFreeEntries_iff entries).mpr fun e he => ⟨(h e he).1.rawFree, (h e he).2.rawFree⟩,
    Nat.succ_le_succ ((Cbor.depthEntries_le_iff entries n).mpr fun e he =>
      ⟨(h e he).1.depth_le, (h e he).2.depth_le⟩)⟩

theorem shallow_policiesMap (policies : Policies) : Shallow (n + 2) (policiesMap policies) := by
  refine shallow_map fun e he => ?_
  obtain ⟨p, -, rfl⟩ := List.mem_map.mp he
  refine ⟨shallow_bytes _, shallow_map fun e he => ?_⟩
  obtain ⟨a, -, rfl⟩ := List.mem_map.mp he
  exact ⟨shallow_bytes _, shallow_uint _⟩

theorem shallow_pair {a b : Cbor} (ha : Shallow n a) (hb : Shallow n b) :
    Shallow (n + 1) (.array [a, b]) := by
  apply shallow_array
  simp only [List.forall_mem_cons, List.not_mem_nil, false_imp_iff, implies_true, and_true]
  exact ⟨ha, hb⟩

theorem IsValue.shallow {c : Cbor} (h : IsValue c) : Shallow (n + 3) c := by
  obtain ⟨amount, rfl | ⟨assets, ⟨policies, -, -, -, rfl⟩, rfl⟩⟩ := h
  · exact shallow_uint amount
  · exact shallow_pair (shallow_uint amount) (shallow_policiesMap policies)

theorem IsBody.shallow {c : Cbor} (h : IsBody c) : Shallow (n + 6) c := by
  obtain ⟨inputs, outputs, fee, ttl, -, hin, -, hout, rfl⟩ := h
  have hinputs : Shallow (n + 5) (.array inputs) := by
    refine shallow_array fun c hc => ?_
    obtain ⟨txid, index, -, rfl⟩ := hin c hc
    exact shallow_pair (shallow_bytes txid) (shallow_uint index)
  have houtputs : Shallow (n + 5) (.array outputs) := by
    refine shallow_array fun c hc => ?_
    obtain ⟨address, value, -, hvalue, rfl⟩ := hout c hc
    exact shallow_pair (shallow_bytes address) hvalue.shallow
  refine shallow_map fun e he => ?_
  rcases List.mem_append.mp he with he | he
  · simp only [List.mem_cons, List.not_mem_nil, or_false] at he
    rcases he with rfl | rfl | rfl
    · exact ⟨shallow_uint 0, hinputs⟩
    · exact ⟨shallow_uint 1, houtputs⟩
    · exact ⟨shallow_uint 2, shallow_uint fee⟩
  · split_ifs at he with httl
    · obtain rfl := List.mem_singleton.mp he
      exact ⟨shallow_uint 3, shallow_uint ttl⟩
    · cases he

end Shallow

theorem IsBody.readable {c : Cbor} (h : IsBody c) (hfits : c.encode.length < 2 ^ 64) :
    Cbor.Readable Cbor.maxDepth c :=
  ⟨(h.shallow (n := 58)).rawFree, (h.shallow (n := 58)).depth_le, hfits⟩

/-! ## What the encoder builds -/

theorem holds_isAssets {policies : Policies} {table : Bytes → Bytes → Option UInt64}
    (h : Holds policies table) (hne : policies ≠ []) : IsAssets (policiesMap policies) := by
  refine ⟨policies, hne, h.nodup, fun e he => ?_, rfl⟩
  have hlookup := ((represents_lookup h.nodup).mem_iff e.1 e.2).mp he
  have hnonempty := h.nonempty e.1
  have hnames := (h.names e.1).nodup
  rw [hlookup] at hnonempty hnames
  exact ⟨fun hnil => hnonempty (congrArg some hnil), hnames⟩

/-- Every supported map of assets represents a table. -/
theorem IsAssets.holds {c : Cbor} (h : IsAssets c) :
    ∃ policies table, Holds policies table ∧ policies ≠ [] ∧ c = policiesMap policies := by
  obtain ⟨policies, hne, hnodup, hnames, rfl⟩ := h
  have hrep := represents_lookup hnodup
  refine ⟨policies, fun policy => lookup ((lookup policies policy).getD []),
    ⟨hnodup, fun policy => represents_lookup ?_, fun policy hnil => ?_⟩, hne, rfl⟩
  · cases hpolicy : lookup policies policy with
    | none => exact List.nodup_nil
    | some names => exact (hnames _ ((hrep.mem_iff policy names).mpr hpolicy)).2
  · exact (hnames _ ((hrep.mem_iff policy []).mpr hnil)).1 rfl

theorem groupAssets_ne_nil {assets : List CardanoAsset} {policies : Policies}
    (h : groupAssets assets = .ok policies) (hne : assets ≠ []) : policies ≠ [] := by
  obtain ⟨-, hholds⟩ := groupAssets_eq_ok h
  obtain ⟨a, ha⟩ := List.exists_mem_of_ne_nil assets hne
  have hheld : held assets a.policyId a.assetName ≠ none := by
    rw [held, if_pos ⟨a, ha, rfl, rfl⟩]
    exact Option.some_ne_none _
  rintro rfl
  have hnone := (hholds.names a.policyId).lookup_eq
  exact hheld (congrFun hnone a.assetName).symm

theorem inputItem_isInput {input : CardanoInput} {c : Cbor} (h : inputItem input = .ok c) :
    IsInput c := by
  rw [inputItem] at h
  split_ifs at h with hlen
  cases h
  exact ⟨_, _, not_not.mp hlen, rfl⟩

theorem outputValue_isValue {out : CardanoOutput} {c : Cbor} (h : outputValue out = .ok c) :
    IsValue c := by
  rw [outputValue] at h
  split_ifs at h with hempty
  · cases h
    exact ⟨out.amount, .inl rfl⟩
  · obtain ⟨multiasset, hmap, h⟩ := bind_eq_ok.mp h
    obtain ⟨policies, hgroup, hmap⟩ := bind_eq_ok.mp hmap
    cases h
    cases hmap
    have hne := groupAssets_ne_nil hgroup fun hnil => hempty (by rw [hnil]; rfl)
    exact ⟨out.amount, .inr ⟨_, holds_isAssets (groupAssets_eq_ok hgroup).2 hne, rfl⟩⟩

theorem outputItem_isOutput {out : CardanoOutput} {c : Cbor} (h : outputItem out = .ok c) :
    IsOutput c := by
  rw [outputItem] at h
  split_ifs at h with hempty
  obtain ⟨value, hvalue, h⟩ := bind_eq_ok.mp h
  cases h
  exact ⟨_, _, fun hnil => hempty (by rw [hnil]; rfl), outputValue_isValue hvalue, rfl⟩

theorem CardanoTx.bodyMap_eq_ok {tx : CardanoTx} {c : Cbor} :
    tx.bodyMap = .ok c ↔ ∃ inputs outputs, tx.inputs ≠ [] ∧ tx.outputs ≠ [] ∧
      tx.inputs.mapM inputItem = .ok inputs ∧ tx.outputs.mapM outputItem = .ok outputs ∧
      c = .map (bodyEntries inputs outputs tx.fee tx.ttl) := by
  rw [bodyMap]
  split_ifs with hin hout
  · simp [List.isEmpty_iff.mp hin]
  · simp [List.isEmpty_iff.mp hout]
  · have hin : tx.inputs ≠ [] := fun hnil => hin (by rw [hnil]; rfl)
    have hout : tx.outputs ≠ [] := fun hnil => hout (by rw [hnil]; rfl)
    simp only [bind_eq_ok, Except.ok.injEq]
    constructor
    · rintro ⟨inputs, hinputs, outputs, houtputs, rfl⟩
      exact ⟨inputs, outputs, hin, hout, hinputs, houtputs, rfl⟩
    · rintro ⟨inputs, outputs, -, -, hinputs, houtputs, rfl⟩
      exact ⟨inputs, hinputs, outputs, houtputs, rfl⟩

theorem CardanoTx.bodyMap_isBody {tx : CardanoTx} {c : Cbor} (h : tx.bodyMap = .ok c) :
    IsBody c := by
  obtain ⟨inputs, outputs, hin, hout, hinputs, houtputs, rfl⟩ := bodyMap_eq_ok.mp h
  refine ⟨inputs, outputs, tx.fee, tx.ttl, ne_nil_of_mapM hinputs hin, fun c hc => ?_,
    ne_nil_of_mapM houtputs hout, fun c hc => ?_, rfl⟩
  · obtain ⟨i, -, hi⟩ := exists_of_mem_mapM hinputs hc
    exact inputItem_isInput hi
  · obtain ⟨o, -, ho⟩ := exists_of_mem_mapM houtputs hc
    exact outputItem_isOutput ho

/-! ## Reading an output back -/

/-- The given assets added up per policy and name, in order. -/
structure Summed (given result : List CardanoAsset) : Prop where
  sorted : result.Pairwise fun a b => assetKey a < assetKey b
  mem_iff : ∀ a, a ∈ result ↔ Mentions given a.policyId a.assetName ∧
    a.amount.toNat = total given a.policyId a.assetName

theorem summed_of_groupAssets {assets : List CardanoAsset} {policies : Policies}
    (h : groupAssets assets = .ok policies) :
    Summed assets ((flat policies).insertionSort assetLe) := by
  obtain ⟨hfit, hholds⟩ := groupAssets_eq_ok h
  have hperm := List.perm_insertionSort assetLe (flat policies)
  have hnodup := (hperm.map assetKey).nodup_iff.mpr hholds.nodup_flat
  constructor
  · have hne := List.pairwise_map.mp hnodup
    refine (List.pairwise_insertionSort assetLe (flat policies)).imp₂ ?_ hne
    exact fun a b hle hne => lt_of_le_of_ne hle hne
  · intro a
    rw [hperm.mem_iff, hholds.mem_flat, held]
    by_cases hmentions : Mentions assets a.policyId a.assetName
    · have hlt := hfit a.policyId a.assetName
      rw [if_pos hmentions, Option.some.injEq, ← UInt64.toNat_inj, UInt64.toNat_ofNat',
        Nat.mod_eq_of_lt hlt, eq_comm]
      exact (and_iff_right hmentions).symm
    · rw [if_neg hmentions]
      exact iff_of_false (by simp) fun hand => hmentions hand.1

theorem summed_nil : Summed [] [] := ⟨.nil, fun a => by simp [Mentions]⟩

structure SameOutput (out out' : CardanoOutput) : Prop where
  address : out'.address = out.address
  amount : out'.amount = out.amount
  assets : Summed out.assets out'.assets

theorem canon_pair (a b : Cbor) : (Cbor.array [a, b]).canon = .array [a.canon, b.canon] := rfl

theorem encode_pair (a b : Cbor) :
    (Cbor.array [a, b]).encode = Cbor.writeHead 4 2 ++ (a.encode ++ b.encode) := by
  rw [Cbor.encode_array]
  simp

theorem flat_ne_nil {assets : List CardanoAsset} {policies : Policies}
    (h : groupAssets assets = .ok policies) (hne : assets ≠ []) :
    (flat policies).insertionSort assetLe ≠ [] := by
  obtain ⟨hfit, hholds⟩ := groupAssets_eq_ok h
  obtain ⟨a, ha⟩ := List.exists_mem_of_ne_nil assets hne
  have hmem : (⟨a.policyId, a.assetName, UInt64.ofNat (total assets a.policyId a.assetName)⟩ :
      CardanoAsset) ∈ flat policies := by
    rw [hholds.mem_flat, held, if_pos ⟨a, ha, rfl, rfl⟩]
  exact List.ne_nil_of_mem ((List.mem_insertionSort assetLe).mpr hmem)

/-- An output is read back with its assets added up, and gives the same bytes. -/
theorem decodeOutput_outputItem {out : CardanoOutput} {c : Cbor} (h : outputItem out = .ok c) :
    ∃ out', decodeOutput c.canon = .ok out' ∧ SameOutput out out' ∧
      ∃ c', outputItem out' = .ok c' ∧ c'.encode = c.encode := by
  have hitem := h
  rw [outputItem] at h
  split_ifs at h with haddress
  obtain ⟨value, hvalue, h⟩ := bind_eq_ok.mp h
  cases h
  rw [outputValue] at hvalue
  split_ifs at hvalue with hempty
  · cases hvalue
    have hnil := List.isEmpty_iff.mp hempty
    refine ⟨out, ?_, ⟨rfl, rfl, ?_⟩, _, hitem, rfl⟩
    · obtain ⟨address, amount, assets⟩ := out
      cases hnil
      rfl
    · rw [hnil]
      exact summed_nil
  · obtain ⟨multiasset, hmap, h⟩ := bind_eq_ok.mp hvalue
    obtain ⟨policies, hgroup, hmap⟩ := bind_eq_ok.mp hmap
    cases h
    cases hmap
    have hholds := (groupAssets_eq_ok hgroup).2
    obtain ⟨entries, hcanon, hflatten⟩ := hholds.flattenAssets_canon
    obtain ⟨policies', hregroup, hholds'⟩ := hholds.regroup
    have hne := flat_ne_nil hgroup fun hnil => hempty (by rw [hnil]; rfl)
    refine ⟨⟨out.address, out.amount, (flat policies).insertionSort assetLe⟩, ?_,
      ⟨rfl, rfl, summed_of_groupAssets hgroup⟩,
      .array [.bytes out.address, .array [.uint out.amount, policiesMap policies']], ?_, ?_⟩
    · rw [canon_pair, canon_pair, hcanon]
      change (flattenAssets entries >>= fun assets =>
        Except.ok (⟨out.address, out.amount, assets⟩ : CardanoOutput)) = _
      rw [hflatten]
      rfl
    · rw [outputItem, if_neg haddress, outputValue, if_neg (by simpa using hne), multiassetMap,
        hregroup]
      rfl
    · rw [encode_pair, encode_pair, encode_pair, encode_pair, hholds'.encode_eq hholds]

theorem decodeInput_inputItem {input : CardanoInput} {c : Cbor} (h : inputItem input = .ok c) :
    decodeInput c.canon = .ok input := by
  rw [inputItem] at h
  split_ifs at h
  cases h
  rfl

/-! ## Reading a body back -/

/-- The keys of a body stand in the order of their encoding. -/
theorem bodyKeys_sorted : ([0, 1, 2, 3] : List UInt64).Pairwise fun a b =>
    Cbor.keyOrder (Cbor.uint a).encode ≤ Cbor.keyOrder (Cbor.uint b).encode := by
  decide +kernel

theorem canon_bodyEntries (inputs outputs : List Cbor) (fee ttl : UInt64) :
    (Cbor.map (bodyEntries inputs outputs fee ttl)).canon =
      .map (bodyEntries (inputs.map Cbor.canon) (outputs.map Cbor.canon) fee ttl) := by
  have hkeys : ((bodyEntries inputs outputs fee ttl).map Prod.fst).Sublist
      (([0, 1, 2, 3] : List UInt64).map Cbor.uint) := by
    rw [bodyEntries]
    split_ifs
    · exact List.Sublist.refl _
    · exact List.sublist_append_left (([0, 1, 2] : List UInt64).map Cbor.uint) [.uint 3]
  have hall : (([0, 1, 2, 3] : List UInt64).map Cbor.uint).Pairwise fun k k' =>
      Cbor.keyOrder k.encode ≤ Cbor.keyOrder k'.encode := List.pairwise_map.mpr bodyKeys_sorted
  have hsublist := hall.sublist hkeys
  rw [List.pairwise_map] at hsublist
  have hsorted : (bodyEntries inputs outputs fee ttl).Pairwise Cbor.entryLe := hsublist
  rw [Cbor.canon_map, hsorted.insertionSort_eq, bodyEntries, bodyEntries, List.map_append]
  split_ifs
  · simp [Cbor.canon, Cbor.canonItems_eq]
  · simp [Cbor.canon, Cbor.canonItems_eq]

section Get

variable {inputs outputs : List Cbor} {fee ttl : UInt64}

theorem getItems_inputs {α : Type} (decode : Cbor → Except Error α) :
    getItems (bodyEntries inputs outputs fee ttl) 0 decode = inputs.mapM decode := rfl

theorem getItems_outputs {α : Type} (decode : Cbor → Except Error α) :
    getItems (bodyEntries inputs outputs fee ttl) 1 decode = outputs.mapM decode := rfl

theorem getUint_fee : getUint (bodyEntries inputs outputs fee ttl) 2 = .ok fee := rfl

theorem getUint_ttl : getUint (bodyEntries inputs outputs fee ttl) 3 = .ok ttl := by
  by_cases h : ttl = 0
  · subst h
    rfl
  · rw [bodyEntries, if_pos h]
    rfl

end Get

theorem encode_bodyEntries {inputs outputs outputs' : List Cbor} {fee ttl : UInt64}
    (h : outputs'.map Cbor.encode = outputs.map Cbor.encode) :
    (Cbor.map (bodyEntries inputs outputs' fee ttl)).encode =
      (Cbor.map (bodyEntries inputs outputs fee ttl)).encode := by
  have hlen : outputs'.length = outputs.length := by simpa using congrArg List.length h
  have houtputs : (Cbor.array outputs').encode = (Cbor.array outputs).encode := by
    rw [Cbor.encode_array, Cbor.encode_array, List.flatMap_def, List.flatMap_def, h, hlen]
  have hentries : Cbor.encodeEntries (bodyEntries inputs outputs' fee ttl) =
      Cbor.encodeEntries (bodyEntries inputs outputs fee ttl) := by
    rw [Cbor.encodeEntries_eq, Cbor.encodeEntries_eq]
    simp only [bodyEntries, List.map_append, List.map_cons, Cbor.encodeEntry, houtputs]
  rw [Cbor.encode, Cbor.encode, hentries]

/-- The same transaction, up to the order of assets and what is added up in them. -/
structure SameTx (tx tx' : CardanoTx) : Prop where
  inputs : tx'.inputs = tx.inputs
  outputs : List.Forall₂ SameOutput tx.outputs tx'.outputs
  fee : tx'.fee = tx.fee
  ttl : tx'.ttl = tx.ttl
  witnesses : tx'.witnesses = tx.witnesses

theorem outputs_read_back {outs : List CardanoOutput} {items : List Cbor}
    (h : outs.mapM outputItem = .ok items) :
    ∃ outs', (items.map Cbor.canon).mapM decodeOutput = .ok outs' ∧
      List.Forall₂ SameOutput outs outs' ∧
      ∃ items', outs'.mapM outputItem = .ok items' ∧
        items'.map Cbor.encode = items.map Cbor.encode := by
  induction mapM_eq_ok.mp h with
  | nil => exact ⟨[], rfl, .nil, [], rfl, rfl⟩
  | @cons out item outs items hitem hitems ih =>
    obtain ⟨out', hdecode, hsame, item', hitem', hencode⟩ := decodeOutput_outputItem hitem
    obtain ⟨outs', hdecodes, hsames, items', hitems', hencodes⟩ := ih (mapM_eq_ok.mpr hitems)
    refine ⟨out' :: outs', ?_, .cons hsame hsames, item' :: items', ?_, ?_⟩
    · rw [List.map_cons, List.mapM_cons, hdecode, ok_bind, hdecodes]
      rfl
    · rw [List.mapM_cons, hitem', ok_bind, hitems']
      rfl
    · rw [List.map_cons, List.map_cons, hencode, hencodes]

/-- A body is read back, and gives the same bytes. -/
theorem readBody_bodyMap {tx : CardanoTx} {c : Cbor} (h : tx.bodyMap = .ok c) :
    ∃ tx', readBody c.canon tx.witnesses = .ok tx' ∧ SameTx tx tx' ∧
      tx'.bodyBytes = .ok c.encode := by
  obtain ⟨inputs, outputs, hin, hout, hinputs, houtputs, rfl⟩ := CardanoTx.bodyMap_eq_ok.mp h
  have hreadInputs : (inputs.map Cbor.canon).mapM decodeInput = .ok tx.inputs := by
    rw [List.mapM_map, mapM_eq_ok]
    exact (mapM_eq_ok.mp hinputs).flip.imp fun _ _ hi => decodeInput_inputItem hi
  obtain ⟨outputs', hreadOutputs, hsame, items, hitems, hencode⟩ := outputs_read_back houtputs
  refine ⟨⟨tx.inputs, outputs', tx.fee, tx.ttl, tx.witnesses⟩, ?_, ⟨rfl, hsame, rfl, rfl, rfl⟩, ?_⟩
  · rw [canon_bodyEntries, readBody]
    change (do
      let inputs ← getItems _ 0 decodeInput
      _) = _
    rw [getItems_inputs, hreadInputs, ok_bind, getItems_outputs, hreadOutputs, ok_bind,
      getUint_fee, ok_bind, getUint_ttl, ok_bind]
  · have hne : outputs' ≠ [] := by
      rintro rfl
      exact hout (List.forall₂_nil_right_iff.mp hsame)
    have hbody := (@CardanoTx.bodyMap_eq_ok
      ⟨tx.inputs, outputs', tx.fee, tx.ttl, tx.witnesses⟩ _).mpr
      ⟨inputs, items, hin, hne, hinputs, hitems, rfl⟩
    rw [CardanoTx.bodyBytes, hbody]
    exact congrArg Except.ok (encode_bodyEntries hencode)

/-! ## Reading a transaction back -/

theorem decode_bodyMap {tx : CardanoTx} {c : Cbor} (h : tx.bodyMap = .ok c)
    (hfits : c.encode.length < 2 ^ 64) : Cbor.decode c.encode = .ok (c.canon, c.encode.length) :=
  Cbor.decode_encode ((CardanoTx.bodyMap_isBody h).readable hfits)

def witnessItem (w : CardanoVkeyWitness) : Cbor := .array [.bytes w.vkey, .bytes w.signature]

theorem witnessSet_eq (tx : CardanoTx) : tx.witnessSet =
    if tx.witnesses.isEmpty then .map []
    else .map [(.uint 0, .array (tx.witnesses.map witnessItem))] := rfl

theorem shallow_witnessSet {n : ℕ} (tx : CardanoTx) : Shallow (n + 3) tx.witnessSet := by
  rw [witnessSet_eq]
  split_ifs
  · exact shallow_map (by simp)
  · refine shallow_map fun e he => ?_
    obtain rfl := List.mem_singleton.mp he
    refine ⟨shallow_uint 0, shallow_array fun c hc => ?_⟩
    obtain ⟨w, -, rfl⟩ := List.mem_map.mp hc
    exact shallow_pair (shallow_bytes _) (shallow_bytes _)

theorem canon_witnessSet (tx : CardanoTx) : tx.witnessSet.canon = tx.witnessSet := by
  rw [witnessSet_eq]
  split_ifs
  · rfl
  · have hitems : (tx.witnesses.map witnessItem).map Cbor.canon = tx.witnesses.map witnessItem := by
      rw [List.map_map]
      rfl
    rw [Cbor.canon_map]
    simp [Cbor.canon, Cbor.canonItems_eq, hitems]

theorem readWitnesses_witnessSet (tx : CardanoTx) :
    readWitnesses tx.witnessSet = .ok tx.witnesses := by
  rw [witnessSet_eq]
  split_ifs with hempty
  · rw [List.isEmpty_iff.mp hempty]
    rfl
  · have hall : (tx.witnesses.map witnessItem).mapM decodeWitness = .ok tx.witnesses := by
      rw [List.mapM_map]
      have hok := mapM_ok (f := decodeWitness ∘ witnessItem) (g := id) (l := tx.witnesses)
        fun _ _ => rfl
      rwa [List.map_id] at hok
    exact hall

theorem bodyBytes_witnesses (tx : CardanoTx) (witnesses : List CardanoVkeyWitness) :
    CardanoTx.bodyBytes { tx with witnesses } = tx.bodyBytes := rfl

theorem encode_transaction (body : Bytes) (ws : Cbor) :
    (Cbor.array [.raw body, ws, .bool true, .null]).encode =
      Cbor.writeHead 4 4 ++ [body, ws.encode, [0xf5], [0xf6]].flatten := by
  rw [Cbor.encode_array]
  simp [Cbor.encode]

/-- What is built is cut into its body, its witnesses, the flag and the null. -/
theorem splitArrayItems_toBytes {tx : CardanoTx} {bytes : Bytes} (h : tx.toBytes = .ok bytes)
    (hfits : bytes.length < 2 ^ 64) :
    ∃ c, tx.bodyMap = .ok c ∧ c.encode.length < 2 ^ 64 ∧ tx.witnessSet.encode.length < 2 ^ 64 ∧
      Cbor.splitArrayItems bytes = .ok [c.encode, tx.witnessSet.encode, [0xf5], [0xf6]] := by
  obtain ⟨body, hbody, h⟩ := bind_eq_ok.mp h
  obtain ⟨c, hmap, hbody⟩ := bind_eq_ok.mp hbody
  cases hbody
  cases h
  rw [encode_transaction] at hfits ⊢
  have hlen := hfits
  simp only [List.length_append, List.flatten_cons, List.flatten_nil, List.length_nil,
    List.length_cons] at hlen
  have hreadable := (CardanoTx.bodyMap_isBody hmap).readable (by omega)
  have hws : Cbor.Readable Cbor.maxDepth tx.witnessSet :=
    ⟨(shallow_witnessSet (n := 61) tx).rawFree, (shallow_witnessSet (n := 61) tx).depth_le,
      by omega⟩
  have hitems : ∀ bs ∈ [c.encode, tx.witnessSet.encode, [0xf5], [0xf6]], Cbor.Scannable bs := by
    simp only [List.forall_mem_cons, List.not_mem_nil, false_imp_iff, implies_true, and_true]
    exact ⟨Cbor.scannable_encode hreadable, Cbor.scannable_encode hws,
      @Cbor.scannable_encode (.bool true) ⟨trivial, by decide, by decide⟩,
      @Cbor.scannable_encode .null ⟨trivial, by decide, by decide⟩⟩
  have hflatten : [c.encode, tx.witnessSet.encode, [0xf5], [0xf6]].flatten.length < 2 ^ 64 := by
    rw [List.length_append] at hfits
    omega
  have hsplit := Cbor.splitArrayItems_items (a := ⟨.inline, 4, by decide⟩) rfl hitems hflatten []
  rw [List.append_nil] at hsplit
  exact ⟨c, hmap, by omega, by omega, hsplit⟩

/-- What `fromBytes` makes of the first two items. -/
theorem fromBytes_of_split {data body ws : Bytes} {rest : List Bytes}
    (hsplit : Cbor.splitArrayItems data = .ok (body :: ws :: rest)) {c w : Cbor} {n m : ℕ}
    (hbody : Cbor.decode body = .ok (c, n)) (hws : Cbor.decode ws = .ok (w, m)) :
    CardanoTx.fromBytes data = (do
      let tx ← readBody c []
      let witnesses ← readWitnesses w
      .ok { tx with witnesses }) := by
  rw [CardanoTx.fromBytes, hsplit]
  change ((Cbor.decode body).mapError Error.cbor >>= fun _ => _) = _
  rw [hbody]
  change (readBody c [] >>= fun _ => (Cbor.decode ws).mapError Error.cbor >>= fun _ => _) = _
  rw [hws]
  rfl

/-- A built transaction survives the wire: its first item is the body, what is
read back is the same transaction with its assets added up and in order, and gives the same
bytes and id and accepts the same witnesses. -/
theorem cardano_tx_round_trip (P : Primitives) {tx : CardanoTx} {bytes : Bytes}
    (h : tx.toBytes = .ok bytes) (hfits : bytes.length < 2 ^ 64) :
    ∃ body ws tx', Cbor.splitArrayItems bytes = .ok [body, ws, [0xf5], [0xf6]] ∧
      tx.bodyBytes = .ok body ∧ tx.hash P = .ok (P.blake2b256 body) ∧
      CardanoTx.fromBytes bytes = .ok tx' ∧ SameTx tx tx' ∧ tx'.toBytes = .ok bytes ∧
      tx'.hash P = tx.hash P ∧ tx'.verify P = tx.verify P := by
  obtain ⟨c, hmap, hbodyFits, hwsFits, hsplit⟩ := splitArrayItems_toBytes h hfits
  have hbody : tx.bodyBytes = .ok c.encode := by
    rw [CardanoTx.bodyBytes, hmap]
    rfl
  have hws : Cbor.decode tx.witnessSet.encode =
      .ok (tx.witnessSet, tx.witnessSet.encode.length) := by
    have hreadable : Cbor.Readable Cbor.maxDepth tx.witnessSet :=
      ⟨(shallow_witnessSet (n := 61) tx).rawFree, (shallow_witnessSet (n := 61) tx).depth_le,
        hwsFits⟩
    have hdecode := Cbor.decode_encode hreadable
    rwa [canon_witnessSet] at hdecode
  have hmap' : CardanoTx.bodyMap { tx with witnesses := [] } = .ok c := hmap
  obtain ⟨tx', hread, hsame, hbody'⟩ := readBody_bodyMap hmap'
  have hparse := fromBytes_of_split hsplit (decode_bodyMap hmap hbodyFits) hws
  rw [hread, ok_bind, readWitnesses_witnessSet, ok_bind] at hparse
  have hbodyEq : CardanoTx.bodyBytes { tx' with witnesses := tx.witnesses } = tx.bodyBytes := by
    rw [bodyBytes_witnesses, hbody', hbody]
  have hsign : CardanoTx.signBytes P { tx' with witnesses := tx.witnesses } = tx.signBytes P := by
    rw [CardanoTx.signBytes, CardanoTx.signBytes, hbodyEq]
  refine ⟨c.encode, tx.witnessSet.encode, _, hsplit, hbody, ?_, hparse,
    ⟨hsame.inputs, hsame.outputs, hsame.fee, hsame.ttl, rfl⟩, ?_, hsign, ?_⟩
  · rw [CardanoTx.hash, CardanoTx.signBytes, hbody]
    rfl
  · rw [← h, CardanoTx.toBytes, CardanoTx.toBytes, hbodyEq]
    rfl
  · rw [CardanoTx.verify, CardanoTx.verify, hsign]

/-- Two policies out of order, and a name that is there twice. -/
def sampleTx : CardanoTx :=
  ⟨[⟨List.replicate 32 1, 0⟩],
    [⟨[0x61], 5, [⟨[2], [9], 3⟩, ⟨[1], [], 1⟩, ⟨[2], [9], 4⟩]⟩], 7, 300, []⟩

def sampleBytes : Bytes :=
  [0x84, 0xa4, 0x00, 0x81, 0x82, 0x58, 0x20] ++ List.replicate 32 1 ++
  [0x00, 0x01, 0x81, 0x82, 0x41, 0x61, 0x82, 0x05, 0xa2, 0x41, 0x01, 0xa1, 0x40, 0x01,
    0x41, 0x02, 0xa1, 0x41, 0x09, 0x07, 0x02, 0x07, 0x03, 0x19, 0x01, 0x2c, 0xa0, 0xf5, 0xf6]

/-- Primitives under which the digest is that of the one body hashed. -/
def samplePrimitives (digest : ByteVec 32) : Primitives where
  blake2b256 _ := digest
  publicFromSeed _ := List.Vector.replicate 32 0
  sign _ _ := List.Vector.replicate 64 0
  verify _ _ _ := false

def sampleDigest : ByteVec 32 :=
  ⟨[0x28, 0x95, 0x5b, 0xe2, 0x50, 0x58, 0x6a, 0xe6, 0x13, 0x2b, 0x2b, 0x63, 0x04, 0xd0, 0x4d, 0x87,
    0x0c, 0xbb, 0x7e, 0xcf, 0x6a, 0x24, 0x54, 0x40, 0xbf, 0x4c, 0x67, 0x4a, 0x60, 0xa1, 0x8c, 0x4b],
    rfl⟩

theorem cardano_tx_round_trip_sample :
    ∃ body ws tx', Cbor.splitArrayItems sampleBytes = .ok [body, ws, [0xf5], [0xf6]] ∧
      sampleTx.bodyBytes = .ok body ∧
      sampleTx.hash (samplePrimitives sampleDigest) = .ok sampleDigest ∧
      CardanoTx.fromBytes sampleBytes = .ok tx' ∧ SameTx sampleTx tx' ∧
      tx'.toBytes = .ok sampleBytes ∧
      tx'.hash (samplePrimitives sampleDigest) = sampleTx.hash (samplePrimitives sampleDigest) ∧
      tx'.verify (samplePrimitives sampleDigest) = sampleTx.verify (samplePrimitives sampleDigest) :=
  cardano_tx_round_trip (samplePrimitives sampleDigest)
    (by decide +kernel : sampleTx.toBytes = .ok sampleBytes) (by decide)

/-! ## Received bodies -/

theorem IsInput.of {c : Cbor} (h : IsInput c) : ∃ input, inputItem input = .ok c := by
  obtain ⟨txid, index, hlen, rfl⟩ := h
  exact ⟨⟨txid, index⟩, if_neg (not_not.mpr hlen)⟩

/-- A supported output is encoded as one of the builder's. -/
theorem IsOutput.of {c : Cbor} (h : IsOutput c) :
    ∃ out item, outputItem out = .ok item ∧ item.encode = c.encode := by
  obtain ⟨address, value, haddress, ⟨amount, rfl | ⟨assets, hassets, rfl⟩⟩, rfl⟩ := h
  · exact ⟨⟨address, amount, []⟩, _, if_neg (by simpa using haddress), rfl⟩
  · obtain ⟨policies, table, hholds, hne, rfl⟩ := hassets.holds
    obtain ⟨policies', hgroup, hholds'⟩ := hholds.regroup
    have hnil : (flat policies).insertionSort assetLe ≠ [] := by
      intro hnil
      rw [hnil] at hgroup
      cases hgroup
      obtain ⟨e, he⟩ := List.exists_mem_of_ne_nil policies hne
      have hlookup := ((represents_lookup hholds.nodup).mem_iff e.1 e.2).mp he
      have hnames := hholds.names e.1
      rw [hlookup] at hnames
      exact hholds.nonempty e.1
        (hlookup.trans (congrArg some (hnames.perm (hholds'.names e.1)).eq_nil))
    refine ⟨⟨address, amount, (flat policies).insertionSort assetLe⟩,
      .array [.bytes address, .array [.uint amount, policiesMap policies']], ?_, ?_⟩
    · rw [outputItem, if_neg (by simpa using haddress), outputValue,
        if_neg (by simpa using hnil), multiassetMap, hgroup]
      rfl
    · rw [encode_pair, encode_pair, encode_pair, encode_pair, hholds'.encode_eq hholds]

theorem exists_inputs {items : List Cbor} (h : ∀ c ∈ items, IsInput c) :
    ∃ inputs : List CardanoInput, inputs.mapM inputItem = .ok items := by
  induction items with
  | nil => exact ⟨[], rfl⟩
  | cons c items ih =>
    obtain ⟨input, hinput⟩ := (h c List.mem_cons_self).of
    obtain ⟨inputs, hinputs⟩ := ih fun c hc => h c (List.mem_cons_of_mem _ hc)
    exact ⟨input :: inputs, by rw [List.mapM_cons, hinput, ok_bind, hinputs]; rfl⟩

theorem exists_outputs {items : List Cbor} (h : ∀ c ∈ items, IsOutput c) :
    ∃ (outs : List CardanoOutput) (items' : List Cbor), outs.mapM outputItem = .ok items' ∧
      items'.map Cbor.encode = items.map Cbor.encode := by
  induction items with
  | nil => exact ⟨[], [], rfl, rfl⟩
  | cons c items ih =>
    obtain ⟨out, item, hitem, hencode⟩ := (h c List.mem_cons_self).of
    obtain ⟨outs, items', hitems, hencodes⟩ := ih fun c hc => h c (List.mem_cons_of_mem _ hc)
    refine ⟨out :: outs, item :: items', ?_, ?_⟩
    · rw [List.mapM_cons, hitem, ok_bind, hitems]
      rfl
    · rw [List.map_cons, List.map_cons, hencode, hencodes]

/-- A supported body is encoded as one of the builder's. -/
theorem SupportedBody.of {bytes : Bytes} (h : SupportedBody bytes) :
    ∃ (tx : CardanoTx) (c : Cbor), tx.witnesses = [] ∧ tx.bodyMap = .ok c ∧ c.encode = bytes := by
  obtain ⟨c, ⟨inputs, outputs, fee, ttl, hin, hinputs, hout, houtputs, rfl⟩, rfl⟩ := h
  obtain ⟨ins, hins⟩ := exists_inputs hinputs
  obtain ⟨outs, items, hitems, hencode⟩ := exists_outputs houtputs
  refine ⟨⟨ins, outs, fee, ttl, []⟩, .map (bodyEntries inputs items fee ttl), rfl, ?_,
    encode_bodyEntries hencode⟩
  refine CardanoTx.bodyMap_eq_ok.mpr ⟨inputs, items, ?_, ?_, hins, hitems, rfl⟩
  · rintro rfl
    cases hins
    exact hin rfl
  · rintro rfl
    cases hitems
    exact hout (List.map_eq_nil_iff.mp hencode.symm)

/-- What the methods of a transaction do when it stands for a body. -/
structure StandsFor (P : Primitives) (tx : CardanoTx) (body : Bytes) : Prop where
  bodyBytes : tx.bodyBytes = .ok body
  hash : tx.hash P = .ok (P.blake2b256 body)
  verify : tx.verify P = checkWitnesses P (P.blake2b256 body) tx.witnesses
  sign : ∀ seeds, tx.sign P seeds =
    ({ tx with witnesses :=
        (signDigest (P.blake2b256 body) (seeds.map (seedSigner P)) tx.witnesses).1 },
      (signDigest (P.blake2b256 body) (seeds.map (seedSigner P)) tx.witnesses).2)

theorem standsFor_iff {P : Primitives} {tx : CardanoTx} {body : Bytes} :
    StandsFor P tx body ↔ tx.bodyBytes = .ok body := by
  refine ⟨fun h => h.bodyBytes, fun h => ?_⟩
  have hsign : tx.signBytes P = .ok (P.blake2b256 body) := by
    rw [CardanoTx.signBytes, h]
    rfl
  refine ⟨h, hsign, ?_, fun seeds => ?_⟩
  · rw [CardanoTx.verify, hsign]
    rfl
  · rw [CardanoTx.sign, CardanoTx.signWith, hsign]

theorem CardanoTx.bodyBytes_supported {tx : CardanoTx} {body : Bytes}
    (h : tx.bodyBytes = .ok body) : SupportedBody body := by
  obtain ⟨c, hmap, h⟩ := bind_eq_ok.mp h
  cases h
  exact ⟨c, CardanoTx.bodyMap_isBody hmap, rfl⟩

/-- The first two items decide what a transaction is read as. -/
theorem fromBytes_eq_ok {data : Bytes} {tx : CardanoTx} (h : CardanoTx.fromBytes data = .ok tx) :
    ∃ body ws rest c n tx', Cbor.splitArrayItems data = .ok (body :: ws :: rest) ∧
      Cbor.decode body = .ok (c, n) ∧ readBody c [] = .ok tx' ∧
      tx.bodyBytes = tx'.bodyBytes := by
  obtain ⟨raw, hraw, h⟩ := bind_eq_ok.mp h
  have hsplit := mapError_eq_ok.mp hraw
  match raw, h with
  | [], h => cases h
  | [_], h => cases h
  | body :: ws :: rest, h =>
    obtain ⟨⟨c, n⟩, hbody, h⟩ := bind_eq_ok.mp h
    obtain ⟨tx', hread, h⟩ := bind_eq_ok.mp h
    obtain ⟨⟨w, m⟩, -, h⟩ := bind_eq_ok.mp h
    obtain ⟨witnesses, -, h⟩ := bind_eq_ok.mp h
    cases h
    exact ⟨body, ws, rest, c, n, tx', hsplit, mapError_eq_ok.mp hbody, hread, rfl⟩

/-- A transaction that is accepted stands for the body received exactly when this is
the canonical encoding of a supported body. -/
theorem stands_for_received_iff (P : Primitives) {data : Bytes} (hfits : data.length < 2 ^ 64)
    {tx : CardanoTx} (h : CardanoTx.fromBytes data = .ok tx) :
    ∃ body rest, Cbor.splitArrayItems data = .ok (body :: rest) ∧
      (StandsFor P tx body ↔ SupportedBody body) := by
  obtain ⟨body, ws, rest, c, n, tx', hsplit, hbody, hread, hbytes⟩ := fromBytes_eq_ok h
  refine ⟨body, ws :: rest, hsplit, standsFor_iff.trans ⟨CardanoTx.bodyBytes_supported, ?_⟩⟩
  intro hsupported
  obtain ⟨built, item, hnone, hmap, rfl⟩ := hsupported.of
  have hlen := Cbor.length_le_of_splitArrayItems hsplit List.mem_cons_self
  have hdecode := decode_bodyMap hmap (by omega)
  rw [hbody] at hdecode
  cases hdecode
  obtain ⟨tx'', hread', -, hbytes'⟩ := readBody_bodyMap hmap
  rw [hnone, hread] at hread'
  cases hread'
  rw [hbytes, hbytes']

/-- A body with an entry the parser does not know, under the key 4. -/
def receivedBody : Bytes :=
  [0xa4, 0x00, 0x81, 0x82, 0x58, 0x20] ++ List.replicate 32 1 ++
  [0x00, 0x01, 0x81, 0x82, 0x41, 0x61, 0x05, 0x02, 0x07, 0x04, 0x80]

def receivedBytes : Bytes := [0x84] ++ receivedBody ++ [0xa0, 0xf5, 0xf6]

/-- What is left of it. -/
def receivedTx : CardanoTx := ⟨[⟨List.replicate 32 1, 0⟩], [⟨[0x61], 5, []⟩], 7, 0, []⟩

def receivedDigest : ByteVec 32 :=
  ⟨[0xc8, 0x7b, 0x63, 0x35, 0x4c, 0x6a, 0xd6, 0x7f, 0x12, 0x61, 0x27, 0xac, 0x5a, 0x46, 0x96, 0xaa,
    0x2c, 0x80, 0x2c, 0xc7, 0xcb, 0x5a, 0xa7, 0x9f, 0xb6, 0xb4, 0x5a, 0x1f, 0x05, 0x3e, 0xde, 0xcf],
    rfl⟩

theorem stands_for_received_sample :
    ∃ body rest, Cbor.splitArrayItems receivedBytes = .ok (body :: rest) ∧
      (StandsFor (samplePrimitives receivedDigest) receivedTx body ↔ SupportedBody body) :=
  stands_for_received_iff (samplePrimitives receivedDigest) (by decide)
    (by decide +kernel : CardanoTx.fromBytes receivedBytes = .ok receivedTx)

/-- The entry is dropped: the transaction that is signed is another one. -/
theorem received_body_drops_entry :
    ∃ data tx body rest signed, CardanoTx.fromBytes data = .ok tx ∧
      Cbor.splitArrayItems data = .ok (body :: rest) ∧ tx.bodyBytes = .ok signed ∧
      signed ≠ body :=
  ⟨receivedBytes, receivedTx, receivedBody, [[0xa0], [0xf5], [0xf6]],
    [0xa3, 0x00, 0x81, 0x82, 0x58, 0x20] ++ List.replicate 32 1 ++
      [0x00, 0x01, 0x81, 0x82, 0x41, 0x61, 0x05, 0x02, 0x07],
    by decide +kernel, by decide +kernel, by decide +kernel, by decide⟩

end Outscript.Cardano
