import Outscript.Btc.Commitment
import Outscript.Library.DigestTree
import Outscript.Zcash.RoundTrip

/-!
# What a signature digest commits to

The digests that a call computes are a tree, which is equal for two calls
exactly when they agree on what their hash type signs.
-/
namespace Outscript.Zcash

open ByteString Chunks Cursor Delimited DigestTree Fallible

abbrev Tree := Body UInt8 Bytes

/-- A digest of plain bytes, before other digests. -/
def leaf (person : String) (bytes : Bytes) (rest : Tree) : Tree :=
  .digest (Hashes.tagBytes person) (.raw bytes) rest

def node (person : String) (body rest : Tree) : Tree := .digest (Hashes.tagBytes person) body rest

/-! ## The trees -/

/-- The same parts of each chunk. -/
def gather (chunks : List Bytes) (parts : List (Bytes → Bytes)) : Bytes :=
  chunks.flatMap fun chunk => parts.flatMap fun f => f chunk

namespace Sapling

variable (s : Sapling)

def spendsTree : Tree :=
  if s.spends = [] then .raw []
  else
    let spends := asChunks saplingSpendLen s.spends
    leaf "ZTxIdSSpendCHash" (gather spends [part 32 64])
      (leaf "ZTxIdSSpendNHash"
        (gather spends [part 0 32, fun _ => s.anchor, part 64 saplingSpendLen]) (.raw []))

def outputsTree : Tree :=
  if s.outputs = [] then .raw []
  else
    let outputs := asChunks saplingOutputLen s.outputs
    leaf "ZTxIdSOutC__Hash" (gather outputs [part 32 96, part 96 148])
      (leaf "ZTxIdSOutM__Hash" (gather outputs [part 148 660])
        (leaf "ZTxIdSOutN__Hash" (gather outputs [part 0 32, part 660 saplingOutputLen]) (.raw [])))

def tree : Tree :=
  if s.spends = [] ∧ s.outputs = [] then .raw []
  else
    node "ZTxIdSSpendsHash" s.spendsTree
      (node "ZTxIdSOutputHash" s.outputsTree (.raw s.valueBalance))

end Sapling

def Orchard.tree (o : Orchard) : Tree :=
  if o.actions = [] then .raw []
  else
    let actions := asChunks orchardActionLen o.actions
    leaf "ZTxIdOrcActCHash" (gather actions [part 32 64, part 96 160, part 160 212])
      (leaf "ZTxIdOrcActMHash" (gather actions [part 212 724])
        (leaf "ZTxIdOrcActNHash" (gather actions [part 0 32, part 64 96, part 724 orchardActionLen])
          (.raw o.trailer)))

def outpointBytes (inputs : List ZcashTxIn) : Bytes := inputs.flatMap ZcashTxIn.outpoint

def sequenceBytes (inputs : List ZcashTxIn) : Bytes := inputs.flatMap fun i => le32 i.sequence

def amountBytes (prevouts : List ZcashTxOut) : Bytes := prevouts.flatMap fun o => le64 o.amount

def scriptBytes (prevouts : List ZcashTxOut) : Bytes := prevouts.flatMap fun o => varSlice o.script

def outputBytes (outputs : List ZcashTxOut) : Bytes := outputs.flatMap ZcashTxOut.encode

def txInBytes : Option (ZcashTxIn × ZcashTxOut) → Bytes
  | none => []
  | some (input, prevout) => input.outpoint ++ (prevout.encode ++ le32 input.sequence)

namespace ZcashTx

variable (tx : ZcashTx)

/-- The transparent parts of a signature. -/
def sigTree (hashType : UInt8) (prevouts outputs : List ZcashTxOut)
    (own : Option (ZcashTxIn × ZcashTxOut)) : Tree :=
  let inputs := if anyoneCanPay hashType then [] else tx.inputs
  let prevouts := if anyoneCanPay hashType then [] else prevouts
  .item hashType
    (leaf "ZTxIdPrevoutHash" (outpointBytes inputs)
      (leaf "ZTxTrAmountsHash" (amountBytes prevouts)
        (leaf "ZTxTrScriptsHash" (scriptBytes prevouts)
          (leaf "ZTxIdSequencHash" (sequenceBytes inputs)
            (leaf "ZTxIdOutputsHash" (outputBytes outputs)
              (leaf "Zcash___TxInHash" (txInBytes own) (.raw [])))))))

/-- The whole tree, with the digest that is returned as its only item. -/
def tree (transparent : Tree) (sapling : Sapling) (orchard : Orchard) : Tree :=
  .digest (Hashes.tagBytes "ZcashTxHash_" ++ le32 tx.consensusBranchId)
    (leaf "ZTxIdHeadersHash" tx.header
      (node "ZTxIdTranspaHash" transparent
        (node "ZTxIdSaplingHash" sapling.tree
          (node "ZTxIdOrchardHash" orchard.tree (.raw []))))) (.raw [])

end ZcashTx

/-! ## The digests are those of the trees -/

section Writes

variable {H : PersonalHash}

theorem digest_of_writes {person : String} {f : HashSink → HashSink} {b : Bytes} (h : Writes f b) :
    digest H person f = H (Hashes.tagBytes person) b := by
  rw [digest, HashSink.fed_of_writes h]

theorem writes_digest (v : ByteVec 32) : Writes (fun d => putDigest d v) v.toList := Writes.put _

theorem writes_parts (chunks : List Bytes) (parts : List (Bytes → Bytes)) :
    Writes (putParts chunks parts) (gather chunks parts) := by
  have hpart : ∀ (chunk : Bytes) (f : Bytes → Bytes),
      Writes (fun d : HashSink => Sink.put d (f chunk)) (f chunk) := fun chunk f => Writes.put _
  have hchunk : ∀ chunk : Bytes, Writes (fun d : HashSink => parts.foldl (fun d f => Sink.put d (f chunk)) d)
      (parts.flatMap fun f => f chunk) := fun chunk => Writes.foldl (hpart chunk) parts
  exact Writes.foldl hchunk chunks

theorem content_leaf (person : String) (bytes : Bytes) (rest : Tree) :
    Body.content H (leaf person bytes rest) =
      (H (Hashes.tagBytes person) bytes).toList ++ Body.content H rest := rfl

theorem content_node (person : String) (body rest : Tree) : Body.content H (node person body rest) =
    (H (Hashes.tagBytes person) (Body.content H body)).toList ++ Body.content H rest := rfl

theorem Sapling.spendsDigest_eq (s : Sapling) :
    s.spendsDigest H = H (Hashes.tagBytes "ZTxIdSSpendsHash") (Body.content H s.spendsTree) := by
  refine (digest_of_writes (Writes.skip.ite ((writes_digest _).comp (writes_digest _)))).trans ?_
  rw [spendsTree]
  split_ifs
  · rfl
  · rw [digest_of_writes (writes_parts _ _), digest_of_writes (writes_parts _ _)]
    simp only [content_leaf, Body.content, List.append_nil]

theorem Sapling.outputsDigest_eq (s : Sapling) :
    s.outputsDigest H = H (Hashes.tagBytes "ZTxIdSOutputHash") (Body.content H s.outputsTree) := by
  refine (digest_of_writes (Writes.skip.ite ((writes_digest _).comp ((writes_digest _).comp
    (writes_digest _))))).trans ?_
  rw [outputsTree]
  split_ifs
  · rfl
  · rw [digest_of_writes (writes_parts _ _), digest_of_writes (writes_parts _ _),
      digest_of_writes (writes_parts _ _)]
    simp only [content_leaf, Body.content, List.append_nil]

theorem Sapling.bundleDigest_eq (s : Sapling) :
    s.bundleDigest H = H (Hashes.tagBytes "ZTxIdSaplingHash") (Body.content H s.tree) := by
  refine (digest_of_writes (Writes.skip.ite ((writes_digest _).comp ((writes_digest _).comp
    (Writes.put _))))).trans ?_
  rw [tree, spendsDigest_eq, outputsDigest_eq]
  split_ifs <;> rfl

theorem Orchard.bundleDigest_eq (o : Orchard) :
    o.bundleDigest H = H (Hashes.tagBytes "ZTxIdOrchardHash") (Body.content H o.tree) := by
  refine (digest_of_writes (Writes.skip.ite ((writes_digest _).comp ((writes_digest _).comp
    ((writes_digest _).comp (Writes.put _)))))).trans ?_
  rw [tree]
  split_ifs
  · rfl
  · rw [digest_of_writes (writes_parts _ _), digest_of_writes (writes_parts _ _),
      digest_of_writes (writes_parts _ _)]
    simp only [content_leaf, Body.content]

theorem outputsDigest_eq (outputs : List ZcashTxOut) :
    outputsDigest H outputs = H (Hashes.tagBytes "ZTxIdOutputsHash") (outputBytes outputs) :=
  digest_of_writes (Writes.foldl writes_output outputs)

theorem amountsDigest_eq (prevouts : List ZcashTxOut) :
    amountsDigest H prevouts = H (Hashes.tagBytes "ZTxTrAmountsHash") (amountBytes prevouts) :=
  digest_of_writes (Writes.foldl (fun o => Writes.put (le64 o.amount)) prevouts)

theorem scriptsDigest_eq (prevouts : List ZcashTxOut) :
    scriptsDigest H prevouts = H (Hashes.tagBytes "ZTxTrScriptsHash") (scriptBytes prevouts) :=
  digest_of_writes (Writes.foldl (fun o => RawTx.writes_slice o.script) prevouts)

theorem txInDigest_eq (own : Option (ZcashTxIn × ZcashTxOut)) :
    txInDigest H own = H (Hashes.tagBytes "Zcash___TxInHash") (txInBytes own) := by
  cases own with
  | none => rfl
  | some pair =>
    obtain ⟨input, prevout⟩ := pair
    have hwrites : Writes (fun d : HashSink =>
        Sink.put (putOutput (putOutpoint d input) prevout) (le32 input.sequence))
        (input.outpoint ++ (prevout.encode ++ le32 input.sequence)) := by
      have h := ((writes_outpoint (S := HashSink) input).comp (writes_output prevout)).comp
        (Writes.put (le32 input.sequence))
      rwa [List.append_assoc] at h
    exact digest_of_writes hwrites

namespace ZcashTx

variable (tx : ZcashTx)

theorem prevoutsDigest_eq :
    tx.prevoutsDigest H = H (Hashes.tagBytes "ZTxIdPrevoutHash") (outpointBytes tx.inputs) :=
  digest_of_writes (Writes.foldl writes_outpoint tx.inputs)

theorem sequenceDigest_eq :
    tx.sequenceDigest H = H (Hashes.tagBytes "ZTxIdSequencHash") (sequenceBytes tx.inputs) :=
  digest_of_writes (Writes.foldl (fun i => Writes.put (le32 i.sequence)) tx.inputs)

theorem headerDigest_eq : tx.headerDigest H = H (Hashes.tagBytes "ZTxIdHeadersHash") tx.header :=
  digest_of_writes tx.writes_header

theorem transparentSigDigest_eq (hashType : UInt8) (prevouts outputs : List ZcashTxOut)
    (own : Option (ZcashTxIn × ZcashTxOut)) :
    tx.transparentSigDigest H hashType prevouts outputs own =
      H (Hashes.tagBytes "ZTxIdTranspaHash")
        (Body.content H (tx.sigTree hashType prevouts outputs own)) := by
  refine (digest_of_writes ((Writes.put _).comp ((writes_digest _).comp ((writes_digest _).comp
    ((writes_digest _).comp ((writes_digest _).comp ((writes_digest _).comp (writes_digest _)))))))).trans ?_
  rw [sigTree, outputsDigest_eq, txInDigest_eq, amountsDigest_eq, scriptsDigest_eq, prevoutsDigest_eq,
    sequenceDigest_eq]
  simp only [content_leaf, Body.content, List.append_nil, List.singleton_append]
  split_ifs <;> rfl

/-- What is returned is the content of the tree. -/
theorem txDigest_eq {transparent : Tree} {sapling : Sapling} {orchard : Orchard} {d : ByteVec 32}
    (hs : parseSapling tx.saplingBytes = .ok sapling) (ho : parseOrchard tx.orchardBytes = .ok orchard)
    (h : tx.txDigest H (H (Hashes.tagBytes "ZTxIdTranspaHash") (Body.content H transparent)) = .ok d) :
    d.toList = Body.content H (tx.tree transparent sapling orchard) := by
  rw [txDigest, saplingDigest, hs, ok_bind, ok_bind, orchardDigest, ho, ok_bind, ok_bind,
    sapling.bundleDigest_eq, orchard.bundleDigest_eq, headerDigest_eq, Except.ok.injEq] at h
  have hfed := HashSink.fed_of_writes ((writes_digest (H (Hashes.tagBytes "ZTxIdHeadersHash") tx.header)).comp
    ((writes_digest (H (Hashes.tagBytes "ZTxIdTranspaHash") (Body.content H transparent))).comp
      ((writes_digest (H (Hashes.tagBytes "ZTxIdSaplingHash") (Body.content H sapling.tree))).comp
        (writes_digest (H (Hashes.tagBytes "ZTxIdOrchardHash") (Body.content H orchard.tree))))))
  rw [hfed] at h
  rw [← h, tree]
  simp only [content_leaf, content_node, Body.content, List.append_nil]

end ZcashTx

end Writes

/-! ## Chunks and their parts -/

theorem length_part {start stop : Nat} {c : Bytes} (h : stop ≤ c.length) :
    (part start stop c).length = stop - start := by
  rw [part, List.length_drop, List.length_take_of_le h]

/-- Adjacent parts make one. -/
theorem part_append {i j k : Nat} (hij : i ≤ j) (hjk : j ≤ k) (c : Bytes) :
    part i j c ++ part j k c = part i k c := by
  rw [part, part, part, List.drop_take, List.drop_take, List.drop_take,
    show k - i = (j - i) + (k - j) by omega, List.take_add, List.drop_drop, Nat.add_sub_cancel' hij]

theorem part_all {c : Bytes} {n : Nat} (h : c.length = n) : part 0 n c = c := by
  rw [part, List.drop_zero, ← h, List.take_length]

/-- Chunks that agree on some parts in a row agree on the whole row. -/
theorem glue {i j k : Nat} {c d : Bytes} (hij : i ≤ j) (hjk : j ≤ k) (h : part i j c = part i j d)
    (h' : part j k c = part j k d) : part i k c = part i k d := by
  rw [← part_append hij hjk, ← part_append hij hjk, h, h']

/-- Chunk for chunk, what a digest gathers from two bundles. -/
theorem gather_inj {n w : Nat} (hw : 0 < w) {l l' : List Bytes} {parts parts' : List (Bytes → Bytes)}
    (hl : ∀ c ∈ l, c.length = n) (hl' : ∀ c ∈ l', c.length = n)
    (hp : ∀ c : Bytes, c.length = n → (parts.flatMap fun f => f c).length = w)
    (hp' : ∀ c : Bytes, c.length = n → (parts'.flatMap fun f => f c).length = w)
    (h : gather l parts = gather l' parts') :
    l.length = l'.length ∧ ∀ i (hi : i < l.length) (hi' : i < l'.length),
      (parts.flatMap fun f => f l[i]) = parts'.flatMap fun f => f l'[i] := by
  have hmap := map_eq_of_flatMap_eq hw (fun c hc => hp c (hl c hc)) (fun c hc => hp' c (hl' c hc)) h
  refine ⟨by simpa using congrArg List.length hmap, fun i hi hi' => ?_⟩
  have hget := congrArg (fun m => m[i]?) hmap
  simpa [List.getElem?_map, List.getElem?_eq_getElem hi, List.getElem?_eq_getElem hi'] using hget

/-! ## Bundles -/

/-- The lengths of the fields of an accepted bundle. -/
structure Sapling.Shaped (s : Sapling) : Prop where
  spends : saplingSpendLen ∣ s.spends.length
  outputs : saplingOutputLen ∣ s.outputs.length
  anchor : s.anchor.length = if s.spends = [] then 0 else 32
  valueBalance : s.spends = [] → s.outputs = [] → s.valueBalance = []

structure Orchard.Shaped (o : Orchard) : Prop where
  actions : orchardActionLen ∣ o.actions.length
  trailer : o.actions = [] → o.trailer = []

theorem items_eq_nil {itemLen count : Nat} {b items : Bytes} (hpos : 0 < itemLen)
    (h : Items itemLen b count items) : items.length = count * itemLen ∧ (items = [] ↔ count = 0) := by
  obtain ⟨w, -, -, hlen, -⟩ := h
  refine ⟨hlen, ?_⟩
  rw [← List.length_eq_zero_iff, hlen, Nat.mul_eq_zero]
  exact or_iff_left hpos.ne'

theorem shaped_of_sapling {b : Bytes} {s : Sapling} (h : SaplingOf b s) : s.Shaped := by
  obtain ⟨nS, nO, b₁, b₂, b₃, -, hs, ho, -, hb⟩ := h
  obtain ⟨hsLen, hsNil⟩ := items_eq_nil (by decide) hs
  obtain ⟨hoLen, hoNil⟩ := items_eq_nil (by decide) ho
  refine ⟨⟨nS, by rw [hsLen, Nat.mul_comm]⟩, ⟨nO, by rw [hoLen, Nat.mul_comm]⟩, ?_, ?_⟩
  · rw [Balance] at hb
    simp only [hsNil]
    by_cases hany : 0 < nS + nO
    · rw [if_pos hany] at hb
      obtain ⟨-, -, -, hanchor, -⟩ := hb
      rw [hanchor]
      split_ifs <;> omega
    · rw [if_neg hany] at hb
      rw [hb.2.2, if_pos (by omega)]
      rfl
  · intro hspends houtputs
    rw [Balance, hsNil.mp hspends, hoNil.mp houtputs] at hb
    exact hb.2.1

theorem shaped_of_orchard {b : Bytes} {o : Orchard} (h : OrchardOf b o) : o.Shaped := by
  obtain ⟨n, b₁, b₂, -, ha, ht⟩ := h
  obtain ⟨haLen, haNil⟩ := items_eq_nil (by decide) ha
  refine ⟨⟨n, by rw [haLen, Nat.mul_comm]⟩, fun hactions => ?_⟩
  rw [Trailer, haNil.mp hactions] at ht
  exact ht.2

/-- Items are determined chunk for chunk. -/
theorem eq_of_chunks {n : Nat} {b b' : Bytes} (hb : n ∣ b.length) (hb' : n ∣ b'.length)
    (hlen : (asChunks n b).length = (asChunks n b').length)
    (h : ∀ i (hi : i < (asChunks n b).length) (hi' : i < (asChunks n b').length),
      (asChunks n b)[i] = (asChunks n b')[i]) : b = b' := by
  rw [← (asChunks_spec hb).2, ← (asChunks_spec hb').2, List.ext_getElem hlen h]

theorem length_chunk {n : Nat} {b : Bytes} (hb : n ∣ b.length) {i : Nat} (hi : i < (asChunks n b).length) :
    (asChunks n b)[i].length = n := (asChunks_spec hb).1 _ (List.getElem_mem hi)

namespace Sapling

variable {s t : Sapling}

theorem spendsTree_inj (hs : s.Shaped) (ht : t.Shaped) (h : s.spendsTree = t.spendsTree) :
    s.spends = t.spends ∧ s.anchor = t.anchor := by
  have hsAnchor := hs.anchor
  have htAnchor := ht.anchor
  rw [spendsTree, spendsTree] at h
  by_cases hsNil : s.spends = []
  · by_cases htNil : t.spends = []
    · rw [if_pos hsNil] at hsAnchor
      rw [if_pos htNil] at htAnchor
      rw [hsNil, htNil, List.eq_nil_of_length_eq_zero hsAnchor, List.eq_nil_of_length_eq_zero htAnchor]
      exact ⟨rfl, rfl⟩
    · rw [if_pos hsNil, if_neg htNil] at h
      cases h
  by_cases htNil : t.spends = []
  · rw [if_neg hsNil, if_pos htNil] at h
    cases h
  rw [if_neg hsNil] at h hsAnchor
  rw [if_neg htNil] at h htAnchor
  simp only [leaf, Body.digest.injEq, Body.raw.injEq, true_and, and_true] at h
  obtain ⟨hcompact, hrest⟩ := h
  obtain ⟨hlen, hcompact⟩ := gather_inj (by decide) (asChunks_spec hs.spends).1
    (asChunks_spec ht.spends).1 (w := 32) (fun c hc => by simp [length_part, hc, saplingSpendLen])
    (fun c hc => by simp [length_part, hc, saplingSpendLen]) hcompact
  obtain ⟨-, hrest⟩ := gather_inj (by decide) (asChunks_spec hs.spends).1
    (asChunks_spec ht.spends).1 (w := 96)
    (fun c hc => by simp [length_part, hc, hsAnchor, saplingSpendLen])
    (fun c hc => by simp [length_part, hc, htAnchor, saplingSpendLen]) hrest
  simp only [List.flatMap_cons, List.flatMap_nil, List.append_nil] at hcompact hrest
  have hparts : ∀ i (hi : i < (asChunks saplingSpendLen s.spends).length)
      (hi' : i < (asChunks saplingSpendLen t.spends).length),
      (asChunks saplingSpendLen s.spends)[i] = (asChunks saplingSpendLen t.spends)[i] ∧
        s.anchor = t.anchor := by
    intro i hi hi'
    have hc := length_chunk hs.spends hi
    have hd := length_chunk ht.spends hi'
    obtain ⟨hcv, hafter⟩ := List.append_inj (hrest i hi hi')
      (by rw [length_part (by rw [hc]; decide), length_part (by rw [hd]; decide)])
    obtain ⟨hanchor, hrk⟩ := List.append_inj hafter (hsAnchor.trans htAnchor.symm)
    have hall := glue (by decide) (by decide) (glue (by decide) (by decide) hcv (hcompact i hi hi')) hrk
    rw [part_all hc, part_all hd] at hall
    exact ⟨hall, hanchor⟩
  have hspends := eq_of_chunks hs.spends ht.spends hlen fun i hi hi' => (hparts i hi hi').1
  have hne : 0 < (asChunks saplingSpendLen s.spends).length := by
    rw [List.length_pos_iff]
    intro hnil
    have hflat := (asChunks_spec hs.spends).2
    rw [hnil] at hflat
    exact hsNil hflat.symm
  exact ⟨hspends, (hparts 0 hne (hlen ▸ hne)).2⟩

theorem outputsTree_inj (hs : s.Shaped) (ht : t.Shaped) (h : s.outputsTree = t.outputsTree) :
    s.outputs = t.outputs := by
  rw [outputsTree, outputsTree] at h
  by_cases hsNil : s.outputs = []
  · by_cases htNil : t.outputs = []
    · rw [hsNil, htNil]
    · rw [if_pos hsNil, if_neg htNil] at h
      cases h
  by_cases htNil : t.outputs = []
  · rw [if_neg hsNil, if_pos htNil] at h
    cases h
  rw [if_neg hsNil, if_neg htNil] at h
  simp only [leaf, Body.digest.injEq, Body.raw.injEq, true_and, and_true] at h
  obtain ⟨hcompact, hmemo, hrest⟩ := h
  have hsChunks := (asChunks_spec hs.outputs).1
  have htChunks := (asChunks_spec ht.outputs).1
  obtain ⟨hlen, hcompact⟩ := gather_inj (w := 116) (by decide) hsChunks htChunks
    (fun c hc => by simp [length_part, hc, saplingOutputLen])
    (fun c hc => by simp [length_part, hc, saplingOutputLen]) hcompact
  obtain ⟨-, hmemo⟩ := gather_inj (w := 512) (by decide) hsChunks htChunks
    (fun c hc => by simp [length_part, hc, saplingOutputLen])
    (fun c hc => by simp [length_part, hc, saplingOutputLen]) hmemo
  obtain ⟨-, hrest⟩ := gather_inj (w := 128) (by decide) hsChunks htChunks
    (fun c hc => by simp [length_part, hc, saplingOutputLen])
    (fun c hc => by simp [length_part, hc, saplingOutputLen]) hrest
  simp only [List.flatMap_cons, List.flatMap_nil, List.append_nil] at hcompact hmemo hrest
  refine eq_of_chunks hs.outputs ht.outputs hlen fun i hi hi' => ?_
  have hc := length_chunk hs.outputs hi
  have hd := length_chunk ht.outputs hi'
  have hpart : ∀ start stop, stop ≤ saplingOutputLen →
      (part start stop (asChunks saplingOutputLen s.outputs)[i]).length =
        (part start stop (asChunks saplingOutputLen t.outputs)[i]).length := by
    intro start stop hle
    rw [length_part (by rw [hc]; exact hle), length_part (by rw [hd]; exact hle)]
  obtain ⟨hkeys, hcipher⟩ := List.append_inj (hcompact i hi hi') (hpart 32 96 (by decide))
  obtain ⟨hcv, hout⟩ := List.append_inj (hrest i hi hi') (hpart 0 32 (by decide))
  have hall := glue (by decide) (by decide) (glue (by decide) (by decide) (glue (by decide) (by decide)
    (glue (by decide) (by decide) hcv hkeys) hcipher) (hmemo i hi hi')) hout
  rwa [part_all hc, part_all hd] at hall

theorem tree_inj (hs : s.Shaped) (ht : t.Shaped) (h : s.tree = t.tree) : s = t := by
  have hfields : s.spends = t.spends ∧ s.anchor = t.anchor ∧ s.outputs = t.outputs ∧
      s.valueBalance = t.valueBalance := by
    rw [tree, tree] at h
    by_cases hsNil : s.spends = [] ∧ s.outputs = []
    · by_cases htNil : t.spends = [] ∧ t.outputs = []
      · have hsAnchor := hs.anchor
        have htAnchor := ht.anchor
        rw [if_pos hsNil.1] at hsAnchor
        rw [if_pos htNil.1] at htAnchor
        rw [hsNil.1, hsNil.2, htNil.1, htNil.2, hs.valueBalance hsNil.1 hsNil.2,
          ht.valueBalance htNil.1 htNil.2, List.eq_nil_of_length_eq_zero hsAnchor,
          List.eq_nil_of_length_eq_zero htAnchor]
        exact ⟨rfl, rfl, rfl, rfl⟩
      · rw [if_pos hsNil, if_neg htNil] at h
        cases h
    by_cases htNil : t.spends = [] ∧ t.outputs = []
    · rw [if_neg hsNil, if_pos htNil] at h
      cases h
    rw [if_neg hsNil, if_neg htNil] at h
    simp only [node, Body.digest.injEq, Body.raw.injEq, true_and] at h
    obtain ⟨hspends, houtputs, hbalance⟩ := h
    obtain ⟨hspends, hanchor⟩ := spendsTree_inj hs ht hspends
    exact ⟨hspends, hanchor, outputsTree_inj hs ht houtputs, hbalance⟩
  obtain ⟨hspends, hanchor, houtputs, hbalance⟩ := hfields
  obtain ⟨_, _, _, _⟩ := s
  obtain ⟨_, _, _, _⟩ := t
  rw [Sapling.mk.injEq]
  exact ⟨hspends, houtputs, hbalance, hanchor⟩

end Sapling

theorem Orchard.tree_inj {o p : Orchard} (ho : o.Shaped) (hp : p.Shaped) (h : o.tree = p.tree) :
    o = p := by
  have hfields : o.actions = p.actions ∧ o.trailer = p.trailer := by
    rw [tree, tree] at h
    by_cases hoNil : o.actions = []
    · by_cases hpNil : p.actions = []
      · rw [hoNil, hpNil, ho.trailer hoNil, hp.trailer hpNil]
        exact ⟨rfl, rfl⟩
      · rw [if_pos hoNil, if_neg hpNil] at h
        cases h
    by_cases hpNil : p.actions = []
    · rw [if_neg hoNil, if_pos hpNil] at h
      cases h
    rw [if_neg hoNil, if_neg hpNil] at h
    simp only [leaf, Body.digest.injEq, Body.raw.injEq, true_and] at h
    obtain ⟨hcompact, hmemo, hrest, htrailer⟩ := h
    have hoChunks := (asChunks_spec ho.actions).1
    have hpChunks := (asChunks_spec hp.actions).1
    obtain ⟨hlen, hcompact⟩ := gather_inj (w := 148) (by decide) hoChunks hpChunks
      (fun c hc => by simp [length_part, hc, orchardActionLen])
      (fun c hc => by simp [length_part, hc, orchardActionLen]) hcompact
    obtain ⟨-, hmemo⟩ := gather_inj (w := 512) (by decide) hoChunks hpChunks
      (fun c hc => by simp [length_part, hc, orchardActionLen])
      (fun c hc => by simp [length_part, hc, orchardActionLen]) hmemo
    obtain ⟨-, hrest⟩ := gather_inj (w := 160) (by decide) hoChunks hpChunks
      (fun c hc => by simp [length_part, hc, orchardActionLen])
      (fun c hc => by simp [length_part, hc, orchardActionLen]) hrest
    simp only [List.flatMap_cons, List.flatMap_nil, List.append_nil] at hcompact hmemo hrest
    refine ⟨eq_of_chunks ho.actions hp.actions hlen fun i hi hi' => ?_, htrailer⟩
    have hc := length_chunk ho.actions hi
    have hd := length_chunk hp.actions hi'
    have hpart : ∀ start stop, stop ≤ orchardActionLen →
        (part start stop (asChunks orchardActionLen o.actions)[i]).length =
          (part start stop (asChunks orchardActionLen p.actions)[i]).length := by
      intro start stop hle
      rw [length_part (by rw [hc]; exact hle), length_part (by rw [hd]; exact hle)]
    obtain ⟨hnullifier, hafter⟩ := List.append_inj (hcompact i hi hi') (hpart 32 64 (by decide))
    obtain ⟨hkeys, hcipher⟩ := List.append_inj hafter (hpart 96 160 (by decide))
    obtain ⟨hcv, hafter⟩ := List.append_inj (hrest i hi hi') (hpart 0 32 (by decide))
    obtain ⟨hrk, hout⟩ := List.append_inj hafter (hpart 64 96 (by decide))
    have hall := glue (by decide) (by decide) (glue (by decide) (by decide) (glue (by decide) (by decide)
      (glue (by decide) (by decide) (glue (by decide) (by decide) (glue (by decide) (by decide)
        hcv hnullifier) hrk) hkeys) hcipher) (hmemo i hi hi')) hout
    rwa [part_all hc, part_all hd] at hall
  obtain ⟨hactions, htrailer⟩ := hfields
  obtain ⟨_, _⟩ := o
  obtain ⟨_, _⟩ := p
  rw [Orchard.mk.injEq]
  exact ⟨hactions, htrailer⟩

/-! ## Transparent parts -/

/-- The output that an input spends, as a txid and an index. -/
def ZcashTxIn.spent (i : ZcashTxIn) : ByteVec 32 × UInt32 := (i.txid, i.vout)

def ZcashTxOut.Sized (o : ZcashTxOut) : Prop := o.script.length < 2 ^ 64

theorem delimits_encode : Delimits ZcashTxOut.encode ZcashTxOut.Sized := by
  rintro ⟨a, c⟩ ⟨b, d⟩ r s hc hd h
  simp only [ZcashTxOut.encode, List.append_assoc] at h
  obtain ⟨rfl, h₁⟩ := delimits_le64 _ _ _ _ trivial trivial h
  obtain ⟨rfl, h₂⟩ := delimits_varSlice _ _ _ _ hc hd h₁
  exact ⟨rfl, h₂⟩

/-- An encoding of a field, in a row of them. -/
theorem rowInj {α γ : Type} {enc : γ → Bytes} {ok : γ → Prop} (henc : Delimits enc ok)
    (hne : ∀ c, enc c ≠ []) (f : α → γ) {as bs : List α} (ha : ∀ a ∈ as, ok (f a))
    (hb : ∀ b ∈ bs, ok (f b)) (h : (as.flatMap fun a => enc (f a)) = bs.flatMap fun b => enc (f b)) :
    as.map f = bs.map f := by
  rw [← List.flatMap_map f enc, ← List.flatMap_map f enc] at h
  exact henc.flatMap_inj hne (List.forall_mem_map.mpr ha) (List.forall_mem_map.mpr hb) h

theorem ne_nil_of_length {b : Bytes} {n : Nat} (h : b.length = n + 1) : b ≠ [] :=
  fun hnil => by rw [hnil] at h; cases h

theorem outpointBytes_inj {as bs : List ZcashTxIn} (h : outpointBytes as = outpointBytes bs) :
    as.map ZcashTxIn.spent = bs.map ZcashTxIn.spent :=
  rowInj delimits_outpoint (fun p => ne_nil_of_length (n := 35)
    (by rw [List.length_append, p.1.reverse.toList_length, le32, length_le])) ZcashTxIn.spent
    (fun _ _ => trivial) (fun _ _ => trivial) h

theorem sequenceBytes_inj {as bs : List ZcashTxIn} (h : sequenceBytes as = sequenceBytes bs) :
    as.map ZcashTxIn.sequence = bs.map ZcashTxIn.sequence :=
  rowInj delimits_le32 (fun _ => ne_nil_of_length (n := 3) (length_le 4 _)) ZcashTxIn.sequence
    (fun _ _ => trivial) (fun _ _ => trivial) h

theorem outputBytes_inj {as bs : List ZcashTxOut} (ha : ∀ o ∈ as, o.Sized) (hb : ∀ o ∈ bs, o.Sized)
    (h : outputBytes as = outputBytes bs) : as = bs := by
  refine delimits_encode.flatMap_inj (fun o hnil => ?_) ha hb h
  have hlen := length_encode_output o
  rw [hnil] at hlen
  exact absurd hlen (Nat.not_lt_zero _)

/-- Outputs are their amounts and their scripts. -/
theorem prevouts_inj {as bs : List ZcashTxOut} (ha : ∀ o ∈ as, o.Sized) (hb : ∀ o ∈ bs, o.Sized)
    (hamount : amountBytes as = amountBytes bs) (hscript : scriptBytes as = scriptBytes bs) : as = bs := by
  have hamounts := rowInj delimits_le64 (fun _ => ne_nil_of_length (n := 7) (length_le 8 _))
    ZcashTxOut.amount (fun _ _ => trivial) (fun _ _ => trivial) hamount
  have hscripts := rowInj delimits_varSlice
    (fun s hnil => BtcVarInt.toArray_ne_nil _ (List.append_eq_nil_iff.mp hnil).1) ZcashTxOut.script
    ha hb hscript
  have hpairs : Function.Injective fun o : ZcashTxOut => (o.amount, o.script) := by
    rintro ⟨a, c⟩ ⟨b, d⟩ hsame
    cases hsame
    rfl
  refine List.map_injective_iff.mpr hpairs ?_
  have hzip : ∀ l : List ZcashTxOut, l.map (fun o => (o.amount, o.script)) =
      (l.map ZcashTxOut.amount).zip (l.map ZcashTxOut.script) := fun l => (List.zip_map' ..).symm
  rw [hzip, hzip, hamounts, hscripts]

theorem txInBytes_inj {i j : ZcashTxIn} {o p : ZcashTxOut} (ho : o.Sized) (hp : p.Sized) :
    txInBytes (some (i, o)) = txInBytes (some (j, p)) ↔
      i.spent = j.spent ∧ i.sequence = j.sequence ∧ o = p := by
  constructor
  · intro h
    simp only [txInBytes] at h
    obtain ⟨hspent, hafter⟩ := delimits_outpoint i.spent j.spent _ _ trivial trivial h
    obtain ⟨rfl, hsequence⟩ := delimits_encode _ _ _ _ ho hp hafter
    exact ⟨hspent, delimits_le32.injOn trivial trivial hsequence, rfl⟩
  · rintro ⟨hspent, hsequence, rfl⟩
    obtain ⟨htxid, hvout⟩ := Prod.mk.inj hspent
    simp only [txInBytes, ZcashTxIn.outpoint, htxid, hvout, hsequence]

/-! ## Calls -/

/-- A call for the signature digest of a transparent input. -/
structure SighashCall where
  tx : ZcashTx
  index : Nat
  hashType : UInt8
  prevouts : List ZcashTxOut

namespace SighashCall

variable (H : PersonalHash)

def digest (c : SighashCall) : Except Trap (ByteVec 32) :=
  c.tx.sighash H (some c.index) c.hashType c.prevouts

/-- Something transparent is spent. -/
structure Spends (c : SighashCall) : Prop where
  inputs : c.tx.inputs ≠ []
  coinbase : c.tx.isCoinbase = false
  outputs : ∀ o ∈ c.tx.outputs, o.Sized
  prevouts : ∀ o ∈ c.prevouts, o.Sized

def tree (c : SighashCall) : Except Trap Tree := do
  let outputs ← c.tx.signedOutputs (some c.index) c.hashType
  let own ← c.tx.ownInput (some c.index) c.prevouts
  let sapling ← parseSapling c.tx.saplingBytes
  let orchard ← parseOrchard c.tx.orchardBytes
  .ok (c.tx.tree (c.tx.sigTree c.hashType c.prevouts outputs own) sapling orchard)

/-- All that a call hashes, with the personalizations. -/
def messages (c : SighashCall) : List (Bytes × Bytes) :=
  match c.tree with
  | .ok t => t.messages H
  | .error _ => []

/-- Two calls agree on what ANYONECANPAY, NONE and SINGLE leave signed. -/
structure Agree (a b : SighashCall) : Prop where
  hashType : a.hashType = b.hashType
  branch : a.tx.consensusBranchId = b.tx.consensusBranchId
  lockTime : a.tx.lockTime = b.tx.lockTime
  expiryHeight : a.tx.expiryHeight = b.tx.expiryHeight
  sapling : parseSapling a.tx.saplingBytes = parseSapling b.tx.saplingBytes
  orchard : parseOrchard a.tx.orchardBytes = parseOrchard b.tx.orchardBytes
  spent : a.tx.inputs[a.index]?.map ZcashTxIn.spent = b.tx.inputs[b.index]?.map ZcashTxIn.spent
  sequence : a.tx.inputs[a.index]?.map ZcashTxIn.sequence = b.tx.inputs[b.index]?.map ZcashTxIn.sequence
  prevout : a.prevouts[a.index]? = b.prevouts[b.index]?
  all : anyoneCanPay a.hashType = false →
    a.tx.inputs.map ZcashTxIn.spent = b.tx.inputs.map ZcashTxIn.spent ∧
      a.tx.inputs.map ZcashTxIn.sequence = b.tx.inputs.map ZcashTxIn.sequence ∧ a.prevouts = b.prevouts
  outputs : baseType a.hashType = sighashAll → a.tx.outputs = b.tx.outputs
  output : baseType a.hashType = sighashSingle → a.tx.outputs[a.index]? = b.tx.outputs[b.index]?

end SighashCall

/-! ## Equal trees -/

section Trees

variable {tx ty : ZcashTx} {t u : Tree} {s z : Sapling} {o p : Orchard}

theorem header_inj : tx.header = ty.header ↔ tx.consensusBranchId = ty.consensusBranchId ∧
    tx.lockTime = ty.lockTime ∧ tx.expiryHeight = ty.expiryHeight := by
  constructor
  · intro h
    simp only [ZcashTx.header, List.append_cancel_left_eq] at h
    obtain ⟨hbranch, hlock⟩ := delimits_le32 _ _ _ _ trivial trivial h
    obtain ⟨hlock, hexpiry⟩ := delimits_le32 _ _ _ _ trivial trivial hlock
    exact ⟨hbranch, hlock, delimits_le32.injOn trivial trivial hexpiry⟩
  · rintro ⟨hbranch, hlock, hexpiry⟩
    rw [ZcashTx.header, hbranch, hlock, hexpiry, ZcashTx.header]

theorem tree_inj : tx.tree t s o = ty.tree u z p ↔
    (tx.consensusBranchId = ty.consensusBranchId ∧ tx.lockTime = ty.lockTime ∧
      tx.expiryHeight = ty.expiryHeight) ∧ t = u ∧ s.tree = z.tree ∧ o.tree = p.tree := by
  simp only [ZcashTx.tree, leaf, node, Body.digest.injEq, Body.raw.injEq, header_inj, true_and, and_true,
    List.append_cancel_left_eq]
  constructor
  · rintro ⟨-, h⟩
    exact h
  · intro h
    exact ⟨by rw [h.1.1], h⟩

theorem alike_leaf {person person' : String} {b b' : Bytes} (h : Body.Alike t u) :
    Body.Alike (leaf person b t) (leaf person' b' u) := .digest _ _ (.raw _ _) h

theorem alike_sapling (s z : Sapling) : Body.Alike s.tree z.tree := by
  have hspends : Body.Alike s.spendsTree z.spendsTree := by
    rw [Sapling.spendsTree, Sapling.spendsTree]
    split_ifs
    · exact .raw _ _
    · exact .left _ _ _
    · exact .right _ _ _
    · exact alike_leaf (alike_leaf (.raw _ _))
  have houtputs : Body.Alike s.outputsTree z.outputsTree := by
    rw [Sapling.outputsTree, Sapling.outputsTree]
    split_ifs
    · exact .raw _ _
    · exact .left _ _ _
    · exact .right _ _ _
    · exact alike_leaf (alike_leaf (alike_leaf (.raw _ _)))
  rw [Sapling.tree, Sapling.tree]
  split_ifs
  · exact .raw _ _
  · exact .left _ _ _
  · exact .right _ _ _
  · exact .digest _ _ hspends (.digest _ _ houtputs (.raw _ _))

theorem alike_orchard (o p : Orchard) : Body.Alike o.tree p.tree := by
  rw [Orchard.tree, Orchard.tree]
  split_ifs
  · exact .raw _ _
  · exact .left _ _ _
  · exact .right _ _ _
  · exact alike_leaf (alike_leaf (alike_leaf (.raw _ _)))

theorem alike_sigTree {ht hu : UInt8} {ps qs outs outs' : List ZcashTxOut}
    {own own' : Option (ZcashTxIn × ZcashTxOut)} :
    Body.Alike (tx.sigTree ht ps outs own) (ty.sigTree hu qs outs' own') :=
  .item _ _ (alike_leaf (alike_leaf (alike_leaf (alike_leaf (alike_leaf (alike_leaf (.raw _ _)))))))

theorem alike_tree (h : Body.Alike t u) : Body.Alike (tx.tree t s o) (ty.tree u z p) :=
  .digest _ _ (alike_leaf (.digest _ _ h (.digest _ _ (alike_sapling s z)
    (.digest _ _ (alike_orchard o p) (.raw _ _))))) (.raw _ _)

theorem sigTree_inj {ht hu : UInt8} {ps qs outs outs' : List ZcashTxOut}
    {own own' : Option (ZcashTxIn × ZcashTxOut)} :
    tx.sigTree ht ps outs own = ty.sigTree hu qs outs' own' ↔
      ht = hu ∧ (anyoneCanPay ht = false →
        outpointBytes tx.inputs = outpointBytes ty.inputs ∧ amountBytes ps = amountBytes qs ∧
          scriptBytes ps = scriptBytes qs ∧ sequenceBytes tx.inputs = sequenceBytes ty.inputs) ∧
      outputBytes outs = outputBytes outs' ∧ txInBytes own = txInBytes own' := by
  simp only [ZcashTx.sigTree, leaf, Body.digest.injEq, Body.item.injEq, Body.raw.injEq, true_and, and_true]
  constructor
  · rintro ⟨rfl, hprevouts, hamounts, hscripts, hsequences, houtputs, hown⟩
    refine ⟨rfl, fun hall => ?_, houtputs, hown⟩
    simp only [hall, Bool.false_eq_true, if_false] at hprevouts hamounts hscripts hsequences
    exact ⟨hprevouts, hamounts, hscripts, hsequences⟩
  · rintro ⟨rfl, hall, houtputs, hown⟩
    cases hone : anyoneCanPay ht with
    | true => exact ⟨rfl, rfl, rfl, rfl, rfl, houtputs, hown⟩
    | false =>
      obtain ⟨hprevouts, hamounts, hscripts, hsequences⟩ := hall hone
      exact ⟨rfl, hprevouts, hamounts, hscripts, hsequences, houtputs, hown⟩

end Trees

/-! ## The commitment -/

namespace SighashCall

variable {H : PersonalHash} {a b : SighashCall} {d e : ByteVec 32}

/-- What a successful call hashes. -/
theorem tree_of_digest (hspends : a.Spends) (h : a.digest H = .ok d) :
    ∃ outputs input prevout s o, a.tx.Signs a.index a.hashType a.prevouts outputs input prevout ∧
      (parseSapling a.tx.saplingBytes = .ok s ∧ s.Shaped) ∧
      (parseOrchard a.tx.orchardBytes = .ok o ∧ o.Shaped) ∧
      a.tree = .ok (a.tx.tree (a.tx.sigTree a.hashType a.prevouts outputs (some (input, prevout))) s o) ∧
      d.toList = Body.content H
        (a.tx.tree (a.tx.sigTree a.hashType a.prevouts outputs (some (input, prevout))) s o) := by
  obtain ⟨outputs, input, prevout, hsigns, hout, hown, hdigest⟩ :=
    ZcashTx.sighash_eq_ok hspends.inputs hspends.coinbase h
  have hparse := hdigest
  rw [ZcashTx.txDigest, saplingDigest, orchardDigest] at hparse
  obtain ⟨_, hsapling, hparse⟩ := bind_eq_ok.mp hparse
  obtain ⟨s, hs, -⟩ := bind_eq_ok.mp hsapling
  obtain ⟨_, horchard, -⟩ := bind_eq_ok.mp hparse
  obtain ⟨o, ho, -⟩ := bind_eq_ok.mp horchard
  rw [ZcashTx.transparentSigDigest_eq] at hdigest
  refine ⟨outputs, input, prevout, s, o, hsigns, ⟨hs, shaped_of_sapling (parseSapling_eq_ok.mp hs)⟩,
    ⟨ho, shaped_of_orchard (parseOrchard_eq_ok.mp ho)⟩, ?_, a.tx.txDigest_eq hs ho hdigest⟩
  rw [tree, hout, ok_bind, hown, ok_bind, hs, ok_bind, ho, ok_bind]

theorem toList_inj {α : Type} {x y : Option α} : x.toList = y.toList ↔ x = y := by
  cases x <;> cases y <;> simp

/-- The outputs that are hashed are those that the base type signs. -/
theorem outputs_eq_iff {outs outs' : List ZcashTxOut} {i j : ZcashTxIn} {p q : ZcashTxOut}
    (ha : a.tx.Signs a.index a.hashType a.prevouts outs i p)
    (hb : b.tx.Signs b.index b.hashType b.prevouts outs' j q) (hhash : a.hashType = b.hashType) :
    outs = outs' ↔ (baseType a.hashType = sighashAll → a.tx.outputs = b.tx.outputs) ∧
      (baseType a.hashType = sighashSingle → a.tx.outputs[a.index]? = b.tx.outputs[b.index]?) := by
  have hna : sighashAll ≠ sighashNone := by decide
  have hsa : sighashAll ≠ sighashSingle := by decide
  have hsn : sighashSingle ≠ sighashNone := by decide
  rw [ha.outputs, hb.outputs, ← hhash]
  rcases ha.base with hbase | hbase | hbase
  · simp only [hbase, hna, hsa, if_false, false_imp_iff, and_true, true_imp_iff]
  · simp only [hbase, if_true, hna.symm, hsn.symm, false_imp_iff, and_true]
  · simp only [hbase, hsn, if_false, if_true, hsa.symm, false_imp_iff, true_and, true_imp_iff]
    exact toList_inj

theorem sized_outputs {outs : List ZcashTxOut} {i : ZcashTxIn} {p : ZcashTxOut} (hspends : a.Spends)
    (ha : a.tx.Signs a.index a.hashType a.prevouts outs i p) : (∀ o ∈ outs, o.Sized) ∧ p.Sized := by
  refine ⟨fun o ho => hspends.outputs o ?_, hspends.prevouts p (List.mem_of_getElem? ha.prevout)⟩
  rw [ha.outputs] at ho
  split_ifs at ho
  · cases ho
  · exact List.mem_of_getElem? (Option.mem_toList.mp ho)
  · exact ho

/-- Two digests are equal exactly when the calls agree on what is signed. -/
theorem sighash_commits {S : Set (Bytes × Bytes)} (hfree : CollisionFree H S) (hspendsA : a.Spends)
    (hspendsB : b.Spends) (ha : a.digest H = .ok d) (hb : b.digest H = .ok e)
    (hSa : ∀ m ∈ a.messages H, m ∈ S) (hSb : ∀ m ∈ b.messages H, m ∈ S) : d = e ↔ Agree a b := by
  obtain ⟨outs, i, p, s, o, hsignsA, ⟨hs, hsShaped⟩, ⟨ho, hoShaped⟩, htreeA, hd⟩ :=
    tree_of_digest hspendsA ha
  obtain ⟨outs', j, q, z, w, hsignsB, ⟨hz, hzShaped⟩, ⟨hw, hwShaped⟩, htreeB, he⟩ :=
    tree_of_digest hspendsB hb
  obtain ⟨houtsA, hpA⟩ := sized_outputs hspendsA hsignsA
  obtain ⟨houtsB, hqB⟩ := sized_outputs hspendsB hsignsB
  rw [messages, htreeA] at hSa
  rw [messages, htreeB] at hSb
  have htrees : d = e ↔ a.tx.tree (a.tx.sigTree a.hashType a.prevouts outs (some (i, p))) s o =
      b.tx.tree (b.tx.sigTree b.hashType b.prevouts outs' (some (j, q))) z w := by
    constructor
    · rintro rfl
      exact (alike_tree alike_sigTree).eq_of_content_eq (by decide) hfree hSa hSb (hd.symm.trans he)
    · intro htree
      rw [htree, ← he] at hd
      exact Subtype.ext hd
  rw [htrees, tree_inj, sigTree_inj, txInBytes_inj hpA hqB]
  constructor
  · rintro ⟨⟨hbranch, hlock, hexpiry⟩, ⟨hhash, hall, houts, hspent, hsequence, hprevout⟩, hst, hot⟩
    have houtputs := (outputs_eq_iff hsignsA hsignsB hhash).mp (outputBytes_inj houtsA houtsB houts)
    refine ⟨hhash, hbranch, hlock, hexpiry, ?_, ?_, ?_, ?_, ?_, fun hone => ?_, houtputs.1, houtputs.2⟩
    · rw [hs, hz, Sapling.tree_inj hsShaped hzShaped hst]
    · rw [ho, hw, Orchard.tree_inj hoShaped hwShaped hot]
    · rw [hsignsA.input, hsignsB.input, Option.map_some, Option.map_some, hspent]
    · rw [hsignsA.input, hsignsB.input, Option.map_some, Option.map_some, hsequence]
    · rw [hsignsA.prevout, hsignsB.prevout, hprevout]
    · obtain ⟨hprevouts, hamounts, hscripts, hsequences⟩ := hall hone
      exact ⟨outpointBytes_inj hprevouts, sequenceBytes_inj hsequences,
        prevouts_inj hspendsA.prevouts hspendsB.prevouts hamounts hscripts⟩
  · intro hagree
    have hspent := hagree.spent
    have hsequence := hagree.sequence
    have hprevout := hagree.prevout
    have hsapling := hagree.sapling
    have horchard := hagree.orchard
    rw [hsignsA.input, hsignsB.input, Option.map_some, Option.map_some, Option.some.injEq] at hspent
    rw [hsignsA.input, hsignsB.input, Option.map_some, Option.map_some, Option.some.injEq] at hsequence
    rw [hsignsA.prevout, hsignsB.prevout, Option.some.injEq] at hprevout
    rw [hs, hz, Except.ok.injEq] at hsapling
    rw [ho, hw, Except.ok.injEq] at horchard
    have houts := (outputs_eq_iff hsignsA hsignsB hagree.hashType).mpr ⟨hagree.outputs, hagree.output⟩
    refine ⟨⟨hagree.branch, hagree.lockTime, hagree.expiryHeight⟩, ⟨hagree.hashType, fun hone => ?_,
      by rw [houts], hspent, hsequence, hprevout⟩, by rw [hsapling], by rw [horchard]⟩
    obtain ⟨hspentAll, hsequenceAll, hprevouts⟩ := hagree.all hone
    have houtpoints : ∀ l : List ZcashTxIn, outpointBytes l =
        (l.map ZcashTxIn.spent).flatMap fun x => x.1.reverse.toList ++ le32 x.2 := fun l => by
      rw [List.flatMap_map]
      rfl
    have hsequences : ∀ l : List ZcashTxIn, sequenceBytes l = (l.map ZcashTxIn.sequence).flatMap le32 :=
      fun l => by
        rw [List.flatMap_map]
        rfl
    rw [hprevouts, houtpoints, houtpoints, hspentAll, hsequences, hsequences, hsequenceAll]
    exact ⟨rfl, rfl, rfl, rfl⟩

/-- A stand-in for the hash that keeps the messages below apart. -/
def sampleHash : PersonalHash := fun person message =>
  ⟨le 32 ((3 * leVal message + 5 * leVal person + 7 * message.length) % (2 ^ 255 - 19)), length_le _ _⟩

def sampleInput (scriptSig : Bytes) : ZcashTxIn where
  txid := List.Vector.replicate 32 0x11
  vout := 1
  scriptSig
  sequence := 0

/-- One input, with its output at index 0. -/
def sampleAlone : SighashCall where
  tx :=
    { consensusBranchId := 0x5437f330, lockTime := 0, expiryHeight := 3200000
      inputs := [sampleInput []], outputs := [⟨90000, [0x51]⟩, ⟨5, [0x52]⟩]
      sapling := [], orchard := [] }
  index := 0
  hashType := 0x83
  prevouts := [⟨100000, [0x53]⟩]

/-- The same input and output after others, the scriptSig filled in. -/
def sampleJoined : SighashCall where
  tx :=
    { consensusBranchId := 0x5437f330, lockTime := 0, expiryHeight := 3200000
      inputs := [⟨List.Vector.replicate 32 0x22, 0, [], 7⟩, sampleInput [0x51]]
      outputs := [⟨6, [0x54]⟩, ⟨90000, [0x51]⟩], sapling := [0, 0], orchard := [] }
  index := 1
  hashType := 0x83
  prevouts := [⟨8, [0x55]⟩, ⟨100000, [0x53]⟩]

/-- SINGLE with ANYONECANPAY: a signature that both transactions can carry. -/
theorem sighash_commits_sample :
    ∃ d, sampleAlone.digest sampleHash = .ok d ∧ sampleJoined.digest sampleHash = .ok d := by
  have hfree : CollisionFree sampleHash
      {m | m ∈ sampleAlone.messages sampleHash ++ sampleJoined.messages sampleHash} := by
    have hall : ∀ m ∈ sampleAlone.messages sampleHash ++ sampleJoined.messages sampleHash,
        ∀ m' ∈ sampleAlone.messages sampleHash ++ sampleJoined.messages sampleHash,
          sampleHash m.1 m.2 = sampleHash m'.1 m'.2 → m = m' := by decide +kernel
    exact fun m hm m' hm' h => hall m hm m' hm' h
  have hspendsAlone : sampleAlone.Spends :=
    ⟨by decide, by decide, by unfold ZcashTxOut.Sized; decide, by unfold ZcashTxOut.Sized; decide⟩
  have hspendsJoined : sampleJoined.Spends :=
    ⟨by decide, by decide, by unfold ZcashTxOut.Sized; decide, by unfold ZcashTxOut.Sized; decide⟩
  have halone : (sampleAlone.digest sampleHash).isOk = true := by decide
  have hjoined : (sampleJoined.digest sampleHash).isOk = true := by decide
  obtain ⟨d, hd⟩ := exists_ok_of_isOk halone
  obtain ⟨e, he⟩ := exists_ok_of_isOk hjoined
  have hagree : Agree sampleAlone sampleJoined := by
    constructor
    · rfl
    · rfl
    · rfl
    · rfl
    · rfl
    · rfl
    · rfl
    · rfl
    · rfl
    · intro hone
      exact absurd hone (by decide)
    · intro hbase
      exact absurd hbase (by decide)
    · intro _
      rfl
  have hsame := (sighash_commits hfree hspendsAlone hspendsJoined hd he
    (fun m hm => List.mem_append_left _ hm) (fun m hm => List.mem_append_right _ hm)).mpr hagree
  exact ⟨d, hd, by rw [hsame]; exact he⟩

end SighashCall

end Outscript.Zcash
