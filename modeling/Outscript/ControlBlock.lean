import Outscript.Crypto.Secp256k1
import Outscript.Taproot

/-!
# Control blocks

A control block proves that a script is in a script tree: a leaf version, the
parity of the output key, the internal key and a merkle path. As long as no two
messages that are hashed for the tree and the block collide, a block leads a
script to the root exactly when it carries the path of a leaf with that script.
-/
namespace Outscript.Taproot

open ByteString Fallible LeafListing Secp256k1

def maxControlBlockLen : Nat := 33 + 32 * maxTaprootDepth

structure ControlBlock where
  leafVersion : UInt8
  outputKeyParity : UInt8
  internalKey : ByteVec 32
  path : Bytes
  deriving DecidableEq

section Model

variable (C : Purecrypto)

/-- `OP_1` and the output key. -/
def p2trScriptPubkey (internalKey : ByteVec 32) (merkleRoot : Option (ByteVec 32)) :
    Except Error Bytes := do
  let (outputKey, _) ← taprootTweakWithRoot C internalKey merkleRoot
  .ok (0x51 :: 0x20 :: outputKey.toList)

/-- What is written to a buffer of `cap` bytes. -/
def controlBlockToSlice (internalKey : ByteVec 32) (leaves : List TapLeaf) (index cap : Nat) :
    Except Trap Bytes :=
  match leaves[index]? with
  | none => .error (.error .indexOutOfRange)
  | some leaf =>
    if cap < 33 then .error (.error .bufferTooSmall)
    else do
      let (root, path) ← walk C.toHashes leaves (some index) (cap - 33)
      let (_, parity) ← orTrap (taprootTweakWithRoot C internalKey (some root))
      .ok ((leaf.leafVersion ||| parity) :: (internalKey.toList ++ path))

namespace ControlBlock

def parse (data : Bytes) : Except Error ControlBlock :=
  match data with
  | [] => .error .invalidLength
  | head :: rest =>
    if h : 32 ≤ rest.length then do
      let _ ← pathNodes (rest.drop 32)
      checkLeafVersion (head &&& 0xfe)
      .ok ⟨head &&& 0xfe, head &&& 1, ⟨rest.take 32, List.length_take_of_le h⟩, rest.drop 32⟩
    else .error .invalidLength

def leafHash (block : ControlBlock) (script : Bytes) : ByteVec 32 :=
  tapleafHash C.toHashes block.leafVersion script

/-- The merkle root the block commits a script to. -/
def merkleRoot (block : ControlBlock) (script : Bytes) : Except Error (ByteVec 32) :=
  merkleRootFromPath C.toHashes (block.leafHash C script) block.path

/-- The script-path check of the output key. -/
def verify (block : ControlBlock) (script : Bytes) (outputKey : ByteVec 32) : Bool :=
  match block.merkleRoot C script with
  | .error _ => false
  | .ok root =>
    match taprootTweakWithRoot C block.internalKey (some root) with
    | .error _ => false
    | .ok (key, parity) => decide (key = outputKey ∧ parity = block.outputKeyParity)

end ControlBlock

end Model

/-! ## What is hashed -/

/-- A message and the tag it is hashed under. -/
abbrev Tagged := String × Bytes

def leafMessage (leafVersion : UInt8) (script : Bytes) : Tagged :=
  ("TapLeaf", leafVersion :: (BtcVarInt.toArray script.length ++ script))

def branchMessage (u : ByteVec 32 × ByteVec 32) : Tagged :=
  ("TapBranch", if u.1 ≤ u.2 then u.1.toList ++ u.2.toList else u.2.toList ++ u.1.toList)

section Messages

variable (H : Hashes)

/-- The messages that the root of a tree is computed from. -/
def treeMessages (t : FullTree TapScript) : List Tagged :=
  t.leaves.map (fun s => leafMessage s.leafVersion s.script) ++
    (t.pairs (fun s => tapleafHash H s.leafVersion s.script) (tapbranchHash H)).map branchMessage

/-- The messages that the root of a block is computed from. -/
def blockMessages (block : ControlBlock) (script : Bytes) : List Tagged :=
  leafMessage block.leafVersion script ::
    (FullTree.climbPairs (tapbranchHash H) (tapleafHash H block.leafVersion script)
      (asChunks 32 (block.path.length / 32) block.path)).map branchMessage

/-- No two of the messages have one hash, under the same tag or not. -/
def CollisionFree (messages : List Tagged) : Prop :=
  ∀ m ∈ messages, ∀ m' ∈ messages, H.taggedHash m.1 [m.2] = H.taggedHash m'.1 [m'.2] → m = m'

theorem tapleafHash_eq (leafVersion : UInt8) (script : Bytes) :
    tapleafHash H leafVersion script =
      H.taggedHash (leafMessage leafVersion script).1 [(leafMessage leafVersion script).2] := by
  simp [tapleafHash, leafMessage, Hashes.taggedHash]

theorem tapbranchHash_eq (a b : ByteVec 32) :
    tapbranchHash H a b =
      H.taggedHash (branchMessage (a, b)).1 [(branchMessage (a, b)).2] := by
  rw [tapbranchHash, branchMessage]
  split_ifs <;> simp [Hashes.taggedHash]

end Messages

/-- Longer scripts have longer messages. -/
theorem length_leafMessage_lt {v w : UInt8} {s t : Bytes} (h : s.length < t.length) :
    (leafMessage v s).2.length < (leafMessage w t).2.length := by
  simp only [leafMessage, List.length_cons, List.length_append, BtcVarInt.length_toArray,
    BtcVarInt.len_eq]
  split_ifs <;> omega

theorem leafMessage_inj {v w : UInt8} {s t : Bytes} (h : leafMessage v s = leafMessage w t) :
    v = w ∧ s = t := by
  have hbytes : (leafMessage v s).2 = (leafMessage w t).2 := by rw [h]
  have hsame := congrArg List.length hbytes
  have hlen : s.length = t.length := by
    rcases Nat.lt_trichotomy s.length t.length with hlt | heq | hgt
    · have := length_leafMessage_lt (v := v) (w := w) hlt
      omega
    · exact heq
    · have := length_leafMessage_lt (v := w) (w := v) hgt
      omega
  simp only [leafMessage, hlen, List.cons.injEq] at hbytes
  exact ⟨hbytes.1, List.append_cancel_left hbytes.2⟩

theorem branchMessage_inj {u v : ByteVec 32 × ByteVec 32} (h : branchMessage u = branchMessage v) :
    u = v ∨ u = v.swap := by
  have happend : ∀ a b c d : ByteVec 32, a.toList ++ b.toList = c.toList ++ d.toList →
      a = c ∧ b = d := by
    intro a b c d heq
    obtain ⟨hac, hbd⟩ := List.append_inj heq (by simp)
    exact ⟨Subtype.ext hac, Subtype.ext hbd⟩
  simp only [branchMessage, Prod.mk.injEq, true_and] at h
  split_ifs at h with hu hv hv
  · exact .inl (Prod.ext_iff.mpr (happend _ _ _ _ h))
  · exact .inr (Prod.ext_iff.mpr (happend _ _ _ _ h))
  · obtain ⟨h₂, h₁⟩ := happend _ _ _ _ h
    exact .inr (Prod.ext_iff.mpr ⟨h₁, h₂⟩)
  · obtain ⟨h₂, h₁⟩ := happend _ _ _ _ h
    exact .inl (Prod.ext_iff.mpr ⟨h₁, h₂⟩)

/-! ## Paths -/

theorem flatMap_asChunks {count : ℕ} {path : Bytes} (h : path.length = 32 * count) :
    (asChunks 32 count path).flatMap List.Vector.toList = path := by
  induction count generalizing path with
  | zero => rw [List.eq_nil_of_length_eq_zero h]; rfl
  | succ count ih =>
    obtain ⟨v, hv⟩ : ∃ v : ByteVec 32, v.toList = path.take 32 :=
      ⟨⟨path.take 32, List.length_take_of_le (by omega)⟩, rfl⟩
    have hpath : path = v.toList ++ path.drop 32 := by rw [hv, List.take_append_drop]
    have hrest : (path.drop 32).length = 32 * count := by
      rw [List.length_drop]
      omega
    rw [hpath, asChunks_cons, List.flatMap_cons, ih hrest]

theorem pathNodes_eq_ok {path : Bytes} {nodes : List (ByteVec 32)} :
    pathNodes path = .ok nodes ↔
      path = nodes.flatMap List.Vector.toList ∧ nodes.length ≤ maxTaprootDepth := by
  constructor
  · intro h
    rw [pathNodes] at h
    split_ifs at h with hmod hlen
    cases h
    exact ⟨(flatMap_asChunks (by omega)).symm, by omega⟩
  · rintro ⟨rfl, hlen⟩
    have hcount : 32 * nodes.length / 32 = nodes.length := Nat.mul_div_cancel_left _ (by decide)
    rw [pathNodes, length_flatMap_toList, hcount, asChunks_flatMap, if_neg (by simp),
      if_neg (not_lt.mpr hlen)]

theorem merkleRootFromPath_eq (H : Hashes) {leafHash : ByteVec 32} {path : Bytes}
    {nodes : List (ByteVec 32)} (h : pathNodes path = .ok nodes) :
    merkleRootFromPath H leafHash path = .ok (nodes.foldl (tapbranchHash H) leafHash) := by
  rw [merkleRootFromPath, h]
  rfl

namespace ControlBlock

theorem parse_eq_ok {data : Bytes} {block : ControlBlock} :
    ControlBlock.parse data = .ok block ↔
      ∃ head nodes, data = head :: (block.internalKey.toList ++ block.path) ∧
        pathNodes block.path = .ok nodes ∧ checkLeafVersion (head &&& 0xfe) = .ok () ∧
        block.leafVersion = head &&& 0xfe ∧ block.outputKeyParity = head &&& 1 := by
  constructor
  · intro h
    cases data with
    | nil => cases h
    | cons head rest =>
      rw [parse] at h
      split_ifs at h with hlen
      obtain ⟨nodes, hnodes, h⟩ := bind_eq_ok.mp h
      obtain ⟨u, hversion, h⟩ := bind_eq_ok.mp h
      cases h
      exact ⟨head, nodes, by simp [List.Vector.toList], hnodes, hversion, rfl, rfl⟩
  · rintro ⟨head, nodes, rfl, hnodes, hversion, hleaf, hparity⟩
    have hkey := block.internalKey.toList_length
    have hlen : 32 ≤ (block.internalKey.toList ++ block.path).length := by
      rw [List.length_append]
      omega
    have hdrop : (block.internalKey.toList ++ block.path).drop 32 = block.path :=
      List.drop_left' hkey
    have htake : (⟨(block.internalKey.toList ++ block.path).take 32,
        List.length_take_of_le hlen⟩ : ByteVec 32) = block.internalKey :=
      Subtype.ext (List.take_left' hkey)
    rw [parse, dif_pos hlen, hdrop, hnodes, ok_bind, hversion, ok_bind, htake, ← hleaf, ← hparity]

end ControlBlock

/-! ## Soundness and completeness -/

section Correctness

variable (C : Purecrypto)

/-- A block that leads a script to the root of a listing carries the path of a
leaf with that script. -/
theorem leaf_of_merkleRoot {leaves : List TapLeaf} {t : FullTree TapScript}
    (hd : Describes t leaves) (hv : ValidTree t) {block : ControlBlock}
    {nodes : List (ByteVec 32)} (hnodes : pathNodes block.path = .ok nodes) {script : Bytes}
    (hfree : CollisionFree C.toHashes
      (treeMessages C.toHashes t ++ blockMessages C.toHashes block script))
    (hroot : block.merkleRoot C script = .ok (treeRoot C.toHashes t)) {cap : ℕ}
    (hcap : 32 * maxTaprootDepth ≤ cap) :
    ∃ i leaf, leaves[i]? = some leaf ∧ leaf.leafVersion = block.leafVersion ∧
      leaf.script = script ∧ tapTreePath C.toHashes leaves i cap = .ok block.path := by
  obtain ⟨hpath, hlen⟩ := pathNodes_eq_ok.mp hnodes
  obtain ⟨t', hrun, hmap⟩ := describes_iff.mp hd
  have hlist := run_eq_root.mp hrun
  have hleaves : t'.leaves = (leaves.zipIdx.map placed).map Prod.snd := by
    rw [hlist, FullTree.map_snd_listing]
  let f : Placed → ByteVec 32 := fun x => tapleafHash C.toHashes x.1.leafVersion x.1.script
  have hchunks : asChunks 32 (block.path.length / 32) block.path = nodes := by
    rw [hpath, length_flatMap_toList, Nat.mul_div_cancel_left _ (by decide), asChunks_flatMap]
  have hfold : nodes.foldl (tapbranchHash C.toHashes) (tapleafHash C.toHashes block.leafVersion script) =
      t'.fold f (tapbranchHash C.toHashes) := by
    rw [ControlBlock.merkleRoot, merkleRootFromPath_eq C.toHashes hnodes] at hroot
    rw [← hmap, ← placedRoot_eq] at hroot
    exact Except.ok.inj hroot
  have hmessages : treeMessages C.toHashes t =
      t'.leaves.map (fun x => leafMessage x.1.leafVersion x.1.script) ++
        (t'.pairs f (tapbranchHash C.toHashes)).map branchMessage := by
    rw [treeMessages, ← hmap, FullTree.leaves_map, FullTree.pairs_map, List.map_map]
    rfl
  have hleafMem : ∀ x ∈ t'.leaves, leafMessage x.1.leafVersion x.1.script ∈
      treeMessages C.toHashes t ++ blockMessages C.toHashes block script := by
    intro x hx
    rw [hmessages]
    exact List.mem_append_left _ (List.mem_append_left _ (List.mem_map.mpr ⟨x, hx, rfl⟩))
  have hpairMem : ∀ u ∈ t'.pairs f (tapbranchHash C.toHashes), branchMessage u ∈
      treeMessages C.toHashes t ++ blockMessages C.toHashes block script := by
    intro u hu
    rw [hmessages]
    exact List.mem_append_left _ (List.mem_append_right _ (List.mem_map_of_mem hu))
  have hstartMem : leafMessage block.leafVersion script ∈
      treeMessages C.toHashes t ++ blockMessages C.toHashes block script :=
    List.mem_append_right _ List.mem_cons_self
  have hclimbMem : ∀ u ∈ FullTree.climbPairs (tapbranchHash C.toHashes)
      (tapleafHash C.toHashes block.leafVersion script) nodes, branchMessage u ∈
      treeMessages C.toHashes t ++ blockMessages C.toHashes block script := by
    intro u hu
    rw [blockMessages, hchunks]
    exact List.mem_append_right _ (List.mem_cons_of_mem _ (List.mem_map_of_mem hu))
  have htags : ∀ v s u, leafMessage v s ≠ branchMessage u := by
    intro v s u h
    exact absurd (congrArg Prod.fst h) (by decide : "TapLeaf" ≠ "TapBranch")
  have hnodup : t'.leaves.Nodup := by
    have hplaces : t'.leaves.map Prod.snd = leaves.zipIdx.map Prod.snd := by
      rw [hleaves, List.map_map, List.map_map]
      rfl
    refine List.Nodup.of_map Prod.snd ?_
    rw [hplaces, List.zipIdx_map_snd]
    exact List.nodup_range'
  obtain ⟨x, hx, hhash, hsiblings⟩ := FullTree.exists_leaf_of_climb hnodup
    (fun u hu heq => by
      rw [tapleafHash_eq, tapbranchHash_eq] at heq
      exact htags _ _ _ (hfree _ hstartMem _ (hpairMem u hu) heq))
    (fun u hu x hx heq => by
      dsimp only [f] at heq
      rw [tapleafHash_eq, tapbranchHash_eq] at heq
      exact htags _ _ _ (hfree _ (hleafMem x hx) _ (hclimbMem u hu) heq.symm))
    (fun u hu v hv heq => by
      rw [tapbranchHash_eq, tapbranchHash_eq] at heq
      exact branchMessage_inj (hfree _ (hclimbMem u hu) _ (hpairMem v hv) heq))
    hfold
  dsimp only [f] at hhash
  rw [tapleafHash_eq, tapleafHash_eq] at hhash
  obtain ⟨hversion, hscript⟩ := leafMessage_inj (hfree _ hstartMem _ (hleafMem x hx) hhash)
  have hplace := hx
  rw [hleaves, List.map_map, List.mem_map] at hplace
  obtain ⟨⟨leaf, i⟩, hi, rfl⟩ := hplace
  have hget : leaves[i]? = some leaf := List.mem_zipIdx_iff_getElem?.mp hi
  have hdepth : 32 * leaf.depth.toNat ≤ cap := by
    have hok := ((valid_iff hd).mp hv leaf (List.mem_of_getElem? hget)).2
    omega
  obtain ⟨t'', hrun', -, hwalk, -, -⟩ := leaf_path C.toHashes hd hv hget hdepth
  rw [hrun] at hrun'
  cases hrun'
  have hsame : nodes = siblingsOf C.toHashes (some i) t' := by
    refine hsiblings (isTarget (some i)) (decide_eq_true rfl) fun y hy hyi => ?_
    rw [hleaves, List.map_map, List.mem_map] at hy
    obtain ⟨⟨leaf', j⟩, hj, rfl⟩ := hy
    have hij : i = j := Option.some.inj (of_decide_eq_true hyi)
    subst hij
    rw [List.mem_zipIdx_iff_getElem?, hget] at hj
    cases hj
    rfl
  refine ⟨i, leaf, hget, hversion.symm, hscript.symm, ?_⟩
  rw [tapTreePath, hwalk, hpath, hsame]
  rfl

/-- The parity is the low bit of a coordinate. -/
theorem parity_of_tweak {internalKey q : ByteVec 32} {root : Option (ByteVec 32)} {parity : UInt8}
    (h : taprootTweakWithRoot C internalKey root = .ok (q, parity)) : parity &&& 1 = parity := by
  rw [taprootTweakWithRoot] at h
  cases hfull : taprootTweakFull C internalKey root with
  | error e => rw [hfull] at h; cases h
  | ok r =>
    rw [hfull] at h
    cases h
    unfold taprootTweakFull at hfull
    split at hfull
    · cases hfull
    · dsimp only at hfull
      split at hfull
      · cases hfull
      · split at hfull
        · cases hfull
        · cases hfull
          rw [UInt8.and_assoc]
          rfl

/-- The first byte of a block holds the version and the parity. -/
theorem head_of_version {v parity : UInt8} (hv : ValidLeafVersion v)
    (hparity : parity &&& 1 = parity) :
    (v ||| parity) &&& 0xfe = v ∧ (v ||| parity) &&& 1 = parity := by
  have hbit : v &&& 1 = 0 := by
    rw [← UInt8.toNat_inj, UInt8.toNat_and]
    simpa using hv.1
  have hcases : parity = 0 ∨ parity = 1 :=
    forall_byte (p := fun c => c &&& 1 = c → c = 0 ∨ c = 1) (by decide +kernel) parity hparity
  rcases hcases with rfl | rfl
  · exact forall_byte
      (p := fun c => c &&& 1 = 0 → (c ||| 0) &&& 0xfe = c ∧ (c ||| 0) &&& 1 = 0)
      (by decide +kernel) v hbit
  · exact forall_byte
      (p := fun c => c &&& 1 = 0 → (c ||| 1) &&& 0xfe = c ∧ (c ||| 1) &&& 1 = 1)
      (by decide +kernel) v hbit

/-- The block that is written for a leaf is read back, and proves the leaf. -/
theorem controlBlock_of_leaf {leaves : List TapLeaf} {t : FullTree TapScript}
    (hd : Describes t leaves) (hv : ValidTree t) {internalKey q : ByteVec 32} {parity : UInt8}
    (htweak : taprootTweakWithRoot C internalKey (some (treeRoot C.toHashes t)) = .ok (q, parity))
    {i : ℕ} {leaf : TapLeaf} (hleaf : leaves[i]? = some leaf) {cap : ℕ}
    (hcap : 33 + 32 * leaf.depth.toNat ≤ cap) :
    ∃ data path, controlBlockToSlice C internalKey leaves i cap = .ok data ∧
      tapTreePath C.toHashes leaves i (32 * maxTaprootDepth) = .ok path ∧
      ControlBlock.parse data = .ok ⟨leaf.leafVersion, parity, internalKey, path⟩ ∧
      ControlBlock.verify C ⟨leaf.leafVersion, parity, internalKey, path⟩ leaf.script q = true := by
  obtain ⟨hversion, hdepth⟩ := (valid_iff hd).mp hv leaf (List.mem_of_getElem? hleaf)
  obtain ⟨t', hrun, -, hwalk, hlen, hfold⟩ :=
    leaf_path C.toHashes hd hv hleaf (show 32 * leaf.depth.toNat ≤ cap - 33 by omega)
  obtain ⟨t'', hrun', -, hwalk', -, -⟩ :=
    leaf_path C.toHashes hd hv hleaf
      (show 32 * leaf.depth.toNat ≤ 32 * maxTaprootDepth by omega)
  rw [hrun] at hrun'
  cases hrun'
  have hnodes : (siblingsOf C.toHashes (some i) t').length ≤ maxTaprootDepth := hlen.le.trans hdepth
  let path := (siblingsOf C.toHashes (some i) t').flatMap List.Vector.toList
  have hpath : tapTreePath C.toHashes leaves i (32 * maxTaprootDepth) = .ok path := by
    rw [tapTreePath, hwalk']
    rfl
  refine ⟨(leaf.leafVersion ||| parity) :: (internalKey.toList ++ path), path, ?_, hpath, ?_, ?_⟩
  · rw [controlBlockToSlice, hleaf]
    dsimp only
    rw [if_neg (by omega), hwalk, ok_bind, htweak]
    rfl
  · obtain ⟨hmask, hbit⟩ := head_of_version hversion (parity_of_tweak C htweak)
    refine ControlBlock.parse_eq_ok.mpr ⟨leaf.leafVersion ||| parity, _, rfl,
      pathNodes_eq_ok.mpr ⟨rfl, hnodes⟩, ?_, hmask.symm, hbit.symm⟩
    rw [hmask]
    exact checkLeafVersion_eq_ok.mpr hversion
  · have hroot : ControlBlock.merkleRoot C ⟨leaf.leafVersion, parity, internalKey,
        (siblingsOf C.toHashes (some i) t').flatMap List.Vector.toList⟩ leaf.script =
        .ok (treeRoot C.toHashes t) := by
      rw [← hfold]
      exact merkleRootFromPath_flatMap C.toHashes _ hnodes
    rw [ControlBlock.verify, hroot]
    dsimp only
    rw [htweak]
    simp

/-- A control block leads a script to the root of a listing exactly when it is one
of a leaf, and the blocks that are written for the leaves are accepted. -/
theorem controlBlock_correct {leaves : List TapLeaf} {root : ByteVec 32}
    (hroot : tapTreeRoot C.toHashes leaves = .ok root) :
    (∀ data block script cap, ControlBlock.parse data = .ok block →
      (∀ t, Describes t leaves → CollisionFree C.toHashes
        (treeMessages C.toHashes t ++ blockMessages C.toHashes block script)) →
      32 * maxTaprootDepth ≤ cap →
      (block.merkleRoot C script = .ok root ↔
        ∃ i leaf, leaves[i]? = some leaf ∧ leaf.leafVersion = block.leafVersion ∧
          leaf.script = script ∧ tapTreePath C.toHashes leaves i cap = .ok block.path)) ∧
    (∀ internalKey q parity,
      taprootTweakWithRoot C internalKey (some root) = .ok (q, parity) →
      ∀ i leaf cap, leaves[i]? = some leaf → 33 + 32 * leaf.depth.toNat ≤ cap →
      ∃ data path, controlBlockToSlice C internalKey leaves i cap = .ok data ∧
        tapTreePath C.toHashes leaves i (32 * maxTaprootDepth) = .ok path ∧
        ControlBlock.parse data = .ok ⟨leaf.leafVersion, parity, internalKey, path⟩ ∧
        p2trScriptPubkey C internalKey (some root) = .ok (0x51 :: 0x20 :: q.toList) ∧
        ControlBlock.verify C ⟨leaf.leafVersion, parity, internalKey, path⟩ leaf.script q =
          true) := by
  obtain ⟨t, hd, hv, rfl⟩ := (tapTreeRoot_eq_ok C.toHashes).mp hroot
  constructor
  · intro data block script cap hparse hfree hcap
    obtain ⟨head, nodes, -, hnodes, -⟩ := ControlBlock.parse_eq_ok.mp hparse
    constructor
    · intro h
      exact leaf_of_merkleRoot C hd hv hnodes (hfree t hd) h hcap
    · rintro ⟨i, leaf, hleaf, hversion, rfl, hpath⟩
      have hdepth := ((valid_iff hd).mp hv leaf (List.mem_of_getElem? hleaf)).2
      obtain ⟨path, hpath', -, hleads⟩ :=
        path_leads_to_root C.toHashes hd hv hleaf (show 32 * leaf.depth.toNat ≤ cap by omega)
      rw [hpath] at hpath'
      obtain rfl : block.path = path := Except.ok.inj hpath'
      rw [ControlBlock.merkleRoot, ControlBlock.leafHash, ← hversion]
      exact hleads
  · intro internalKey q parity htweak i leaf cap hleaf hcap
    obtain ⟨data, path, hwrite, hpath, hparse, hverify⟩ :=
      controlBlock_of_leaf C hd hv htweak hleaf hcap
    refine ⟨data, path, hwrite, hpath, hparse, ?_, hverify⟩
    rw [p2trScriptPubkey, htweak]
    rfl

end Correctness

/-! ## A tree of two leaves -/

section Sample

def leafTag : ByteVec 32 :=
  beVec 32 0xaeea8fdc4208983105734b58081d1e2638d35f1cb54008d4d357ca03be78e9ee
def branchTag : ByteVec 32 :=
  beVec 32 0x1941a1f2e56eb95fa2a9f194be5c01f7216f33ed82b091463490d05bf516a015
def tweakTag : ByteVec 32 :=
  beVec 32 0xe80fe1639c9ca050e3af1b39c143c63e429cbceb15d940fbb5c5a1f4af57c5e9
def firstLeaf : ByteVec 32 :=
  beVec 32 0xa85b2107f791b26a84e7586c28cec7cb61202ed3d01944d832500f363782d675
def secondLeaf : ByteVec 32 :=
  beVec 32 0xc276fef1386890619b80e10a4a328572d97493add269df1a15a7f89f8ae8ec09
def sampleRoot : ByteVec 32 :=
  beVec 32 0x6496f0779f38b871013be71ee7dcce8fcdcc02afc4c688acb159fc5de2fba55e
def sampleTweak : ByteVec 32 :=
  beVec 32 0x99990d172d11760a049f5cedde0f23aabf4c0de9ac14d2b74794b2b64d31e6db

/-- The generator. -/
def pointG : ByteVec 32 × ByteVec 32 :=
  (beVec 32 0x79be667ef9dcbbac55a06295ce870b07029bfcdb2dce28d959f2815b16f81798,
    beVec 32 0x483ada7726a3c4655da4fbfc0e1108a8fd17b448a68554199c47d08ffb10d4b8)

/-- The multiple of the generator by the tweak. -/
def pointT : ByteVec 32 × ByteVec 32 :=
  (beVec 32 0x1a7474a119c2e5f97dcfb39373fb55c8dd5e3ad6f539f1d4c0875ba8e356754e,
    beVec 32 0xb1051f513f5fb75f2aa194144475bd981368745e7c517478471a0687fd5aef5d)

/-- The sum of the two. -/
def pointQ : ByteVec 32 × ByteVec 32 :=
  (beVec 32 0x375e6b86cf1e26279da2fcafb0c032ca313e2398d2e5a52e9ff316e3dafaee39,
    beVec 32 0x93a6790e77eddecb2f10aa3bf415d3cebbc50c891227156b3a69351755af30d)

/-- What the package computes on the inputs of this tree. -/
def sampleCrypto : Purecrypto :=
  { Purecrypto.blank with
    sha256 := fun data =>
      if data = Hashes.tagBytes "TapLeaf" then leafTag
      else if data = Hashes.tagBytes "TapBranch" then branchTag
      else if data = Hashes.tagBytes "TapTweak" then tweakTag
      else if data = leafTag.toList ++ (leafTag.toList ++ [0xc0, 0x01, 0x51]) then firstLeaf
      else if data = leafTag.toList ++ (leafTag.toList ++ [0xc0, 0x01, 0x52]) then secondLeaf
      else if data = branchTag.toList ++ (branchTag.toList ++
        (firstLeaf.toList ++ secondLeaf.toList)) then sampleRoot
      else if data = tweakTag.toList ++ (tweakTag.toList ++
        (pointG.1.toList ++ sampleRoot.toList)) then sampleTweak
      else List.Vector.replicate 32 0
    fromSec1 := fun data => if data = 0x02 :: pointG.1.toList then some pointG else none
    scalarFromBytesBe := fun data => if data = sampleTweak then some data else none
    mulGenerator := fun (scalar : ByteVec 32) => if scalar = sampleTweak then some pointT else none
    add := fun (a b : Option (ByteVec 32 × ByteVec 32)) =>
      if a = some pointG ∧ b = some pointT then some pointQ else none }

def sampleLeaves : List TapLeaf := [⟨1, 0xc0, [0x51]⟩, ⟨1, 0xc0, [0x52]⟩]

def sampleTree : FullTree TapScript := .node (.leaf ⟨0xc0, [0x51]⟩) (.leaf ⟨0xc0, [0x52]⟩)

/-- The block of the first leaf. -/
def sampleBlock : ControlBlock := ⟨0xc0, 1, pointG.1, secondLeaf.toList⟩

theorem describes_sampleTree {t : FullTree TapScript} (h : Describes t sampleLeaves) :
    t = sampleTree := by
  have hsample : Describes sampleTree sampleLeaves := rfl
  have hrun := run_eq_root.mpr h
  rw [run_eq_root.mpr hsample] at hrun
  cases hrun
  rfl

theorem controlBlock_correct_sample :
    (sampleBlock.merkleRoot sampleCrypto [0x51] = .ok sampleRoot ↔
      ∃ i leaf, sampleLeaves[i]? = some leaf ∧ leaf.leafVersion = 0xc0 ∧ leaf.script = [0x51] ∧
        tapTreePath sampleCrypto.toHashes sampleLeaves i 4096 = .ok secondLeaf.toList) ∧
    ∃ data path, controlBlockToSlice sampleCrypto pointG.1 sampleLeaves 0 65 = .ok data ∧
      tapTreePath sampleCrypto.toHashes sampleLeaves 0 4096 = .ok path ∧
      ControlBlock.parse data = .ok ⟨0xc0, 1, pointG.1, path⟩ ∧
      p2trScriptPubkey sampleCrypto pointG.1 (some sampleRoot) =
        .ok (0x51 :: 0x20 :: pointQ.1.toList) ∧
      ControlBlock.verify sampleCrypto ⟨0xc0, 1, pointG.1, path⟩ [0x51] pointQ.1 = true := by
  have hroot : tapTreeRoot sampleCrypto.toHashes sampleLeaves = .ok sampleRoot := by
    decide
  obtain ⟨hproof, hwrite⟩ := controlBlock_correct sampleCrypto hroot
  constructor
  · refine hproof (0xc1 :: (pointG.1.toList ++ secondLeaf.toList)) sampleBlock [0x51] 4096
      (by decide) (fun t ht => ?_) (by decide)
    rw [describes_sampleTree ht]
    unfold CollisionFree
    decide
  · exact hwrite pointG.1 pointQ.1 1 (by decide) 0 ⟨1, 0xc0, [0x51]⟩ 65 rfl (by decide)

end Sample

end Outscript.Taproot
