import Outscript.Error
import Outscript.Btc.VarInt
import Outscript.Crypto.Hash
import Outscript.Library.Fallible
import Outscript.Library.LeafListing

/-!
# Taproot script trees

A script tree is given as a depth-first leaf listing. The fold that computes
its merkle root keeps a stack of finished subtrees and writes down the siblings
met on the way up from one leaf. It accepts exactly the listings of full binary
trees of depth at most 128.
-/
namespace Outscript.Taproot

open ByteString Fallible LeafListing

def tapscriptLeafVersion : UInt8 := 0xc0
def maxTaprootDepth : Nat := 128

structure TapLeaf where
  depth : UInt8
  leafVersion : UInt8
  script : Bytes
  deriving DecidableEq

/-- A leaf version is even and is not the annex tag. -/
def checkLeafVersion (v : UInt8) : Except Error Unit :=
  if v &&& 1 ≠ 0 ∨ v = 0x50 then .error .invalidData else .ok ()

/-- As many whole arrays as asked for, or as there are. -/
def asChunks (n : Nat) : Nat → Bytes → List (ByteVec n)
  | 0, _ => []
  | count + 1, bytes =>
    if h : n ≤ bytes.length then
      ⟨bytes.take n, List.length_take_of_le h⟩ :: asChunks n count (bytes.drop n)
    else []

/-- Splits a merkle path into its 32-byte nodes. -/
def pathNodes (path : Bytes) : Except Error (List (ByteVec 32)) :=
  let nodes := asChunks 32 (path.length / 32) path
  if path.length % 32 ≠ 0 then .error .invalidLength
  else if nodes.length > maxTaprootDepth then .error .tooLarge
  else .ok nodes

/-- A stack entry of the fold. -/
structure Node where
  hash : ByteVec 32
  depth : UInt8
  holdsTarget : Bool

section Model

variable (H : Hashes)

def tapleafHash (leafVersion : UInt8) (script : Bytes) : ByteVec 32 :=
  H.taggedHash "TapLeaf" [[leafVersion], BtcVarInt.toArray script.length, script]

def TapLeaf.hash (leaf : TapLeaf) : ByteVec 32 := tapleafHash H leaf.leafVersion leaf.script

/-- Branches hash their children in lexicographic order. -/
def tapbranchHash (a b : ByteVec 32) : ByteVec 32 :=
  if a ≤ b then H.taggedHash "TapBranch" [a.toList, b.toList]
  else H.taggedHash "TapBranch" [b.toList, a.toList]

def merkleRootFromPath (leafHash : ByteVec 32) (path : Bytes) : Except Error (ByteVec 32) := do
  let nodes ← pathNodes path
  return nodes.foldl (tapbranchHash H) leafHash

/-- Two finished subtrees at the same depth become their parent; siblings of
the target go to a buffer of `cap` bytes. -/
def join (cap : Nat) (a b : Node) (path : Bytes) : Except Trap (Node × Bytes) :=
  let holdsTarget := a.holdsTarget || b.holdsTarget
  let sibling := if a.holdsTarget then b.hash else a.hash
  if a.depth = 0 then .error (.error .invalidData)
  else if holdsTarget ∧ cap < path.length + 32 then .error (.error .bufferTooSmall)
  else
    .ok (⟨tapbranchHash H a.hash b.hash, a.depth - 1, holdsTarget⟩,
      if holdsTarget then path ++ sibling.toList else path)

def collapse (cap : Nat) (top : Node) : List Node → Bytes → Except Trap (List Node × Bytes)
  | [], path => .ok ([top], path)
  | a :: rest, path =>
    if top.depth = a.depth then
      match join H cap a top path with
      | .ok (parent, path) => collapse cap parent rest path
      | .error e => .error e
    else .ok (top :: a :: rest, path)

def walkLeaf (target : Option Nat) (cap : Nat) (st : List Node × Bytes) (leaf : TapLeaf × Nat) :
    Except Trap (List Node × Bytes) :=
  match checkLeafVersion leaf.1.leafVersion with
  | .error e => .error (.error e)
  | .ok () =>
    if leaf.1.depth.toNat > maxTaprootDepth then .error (.error .tooLarge)
    -- a depth-first listing never steps back above an unfinished subtree
    else if st.1.head?.any (fun top => leaf.1.depth < top.depth) then .error (.error .invalidData)
    -- `stack[len]` on an array of `MAX_TAPROOT_DEPTH + 1` entries
    else if st.1.length > maxTaprootDepth then .error .panic
    else collapse H cap ⟨leaf.1.hash H, leaf.1.depth, target = some leaf.2⟩ st.1 st.2

/-- The root and the path written to a buffer of `cap` bytes. -/
def walk (leaves : List TapLeaf) (target : Option Nat) (cap : Nat) :
    Except Trap (ByteVec 32 × Bytes) :=
  if target.any (fun t => leaves.length ≤ t) then .error (.error .indexOutOfRange)
  else do
    let (stack, path) ← leaves.zipIdx.foldlM (walkLeaf H target cap) ([], [])
    match stack with
    | [n] => if n.depth = 0 then .ok (n.hash, path) else .error (.error .invalidData)
    | _ => .error (.error .invalidData)

def tapTreeRoot (leaves : List TapLeaf) : Except Trap (ByteVec 32) := do
  let (root, _) ← walk H leaves none 0
  return root

/-- What is written to `out`; the length that the code returns is its length. -/
def tapTreePath (leaves : List TapLeaf) (index cap : Nat) : Except Trap Bytes := do
  let (_, path) ← walk H leaves (some index) cap
  return path

end Model

/-! ## Script trees -/

structure TapScript where
  leafVersion : UInt8
  script : Bytes
  deriving DecidableEq

def ValidLeafVersion (v : UInt8) : Prop := v.toNat % 2 = 0 ∧ v ≠ 0x50

/-- A listing of the leaves of a tree, each with its depth. -/
def Describes (t : FullTree TapScript) (leaves : List TapLeaf) : Prop :=
  leaves.map (fun l => (l.depth.toNat, TapScript.mk l.leafVersion l.script)) = t.listing 0

structure ValidTree (t : FullTree TapScript) : Prop where
  versions : ∀ s ∈ t.leaves, ValidLeafVersion s.leafVersion
  depth : ∀ x ∈ t.listing 0, x.1 ≤ 128

section Root

variable (H : Hashes)

def treeRoot (t : FullTree TapScript) : ByteVec 32 :=
  t.fold (fun s => tapleafHash H s.leafVersion s.script) (tapbranchHash H)

theorem join_eq_ok {cap : Nat} {a b : Node} {path : Bytes} {r : Node × Bytes} :
    join H cap a b path = .ok r ↔
      a.depth ≠ 0 ∧ ((a.holdsTarget || b.holdsTarget) = true → path.length + 32 ≤ cap) ∧
      r = (⟨tapbranchHash H a.hash b.hash, a.depth - 1, a.holdsTarget || b.holdsTarget⟩,
        if a.holdsTarget || b.holdsTarget then
          path ++ (if a.holdsTarget then b.hash else a.hash).toList
        else path) := by
  unfold join
  by_cases hz : a.depth = 0
  · simp [hz]
  · by_cases hcap : (a.holdsTarget || b.holdsTarget) = true ∧ cap < path.length + 32
    · rw [if_neg hz, if_pos hcap]
      constructor
      · intro h
        cases h
      · rintro ⟨-, h, -⟩
        exact absurd hcap.2 (not_lt.mpr (h hcap.1))
    · rw [if_neg hz, if_neg hcap, Except.ok.injEq, eq_comm]
      simp only [not_and, not_lt] at hcap
      simp only [ne_eq, hz, not_false_eq_true, true_and]
      exact ⟨fun h => ⟨hcap, h⟩, And.right⟩

theorem tapbranchHash_comm (a b : ByteVec 32) : tapbranchHash H a b = tapbranchHash H b a := by
  unfold tapbranchHash
  rcases lt_trichotomy a b with h | h | h
  · rw [if_pos h.le, if_neg (not_le.mpr h)]
  · rw [h]
  · rw [if_neg (not_le.mpr h), if_pos h.le]

end Root

theorem checkLeafVersion_eq_ok {v : UInt8} :
    checkLeafVersion v = .ok () ↔ ValidLeafVersion v := by
  have hbit : v &&& 1 = 0 ↔ v.toNat % 2 = 0 := by
    rw [← UInt8.toNat_inj, UInt8.toNat_and]
    simp
  rw [checkLeafVersion, ValidLeafVersion, ← hbit]
  split_ifs with h
  · simp only [false_iff, not_and_or, not_not]
    exact h
  · simpa [not_or] using h

/-! ## The fold and the parser side by side -/

/-- A script and its place in the listing. -/
abbrev Placed := TapScript × ℕ

section Simulation

variable (H : Hashes) (target : Option ℕ)

def isTarget (x : Placed) : Bool := decide (target = some x.2)

def placedRoot (t : FullTree Placed) : ByteVec 32 :=
  t.fold (fun x => tapleafHash H x.1.leafVersion x.1.script) (tapbranchHash H)

def siblingsOf (t : FullTree Placed) : List (ByteVec 32) :=
  t.siblings (fun x => tapleafHash H x.1.leafVersion x.1.script) (tapbranchHash H)
    (isTarget target)

/-- The siblings met so far, in bytes. At most one entry has any. -/
def pathOf (stack : List (Entry Placed)) : Bytes :=
  stack.flatMap (fun e => (siblingsOf H target e.2).flatMap List.Vector.toList)

def Represents (n : Node) (e : Entry Placed) : Prop :=
  n.depth.toNat = e.1 ∧ n.hash = placedRoot H e.2 ∧
    n.holdsTarget = e.2.contains (isTarget target)

structure Tracks (st : List Node × Bytes) (stack : List (Entry Placed)) : Prop where
  nodes : List.Forall₂ (Represents H target) st.1 stack
  path : st.2 = pathOf H target stack
  exclusive : stack.Pairwise (fun a b =>
    ¬ (a.2.contains (isTarget target) = true ∧ b.2.contains (isTarget target) = true))

variable {H target}

theorem pathOf_eq_nil {stack : List (Entry Placed)}
    (h : ∀ e ∈ stack, e.2.contains (isTarget target) = false) : pathOf H target stack = [] := by
  rw [pathOf, List.flatMap_eq_nil_iff]
  intro e he
  rw [siblingsOf, FullTree.siblings_eq_nil (h e he)]
  rfl

/-- What one merge adds to the path. -/
theorem pathOf_merge {d f : ℕ} {a b : FullTree Placed} {rest : List (Entry Placed)} {k : ℕ}
    (hx : ((d, b) :: (f, a) :: rest).Pairwise (fun a b =>
      ¬ (a.2.contains (isTarget target) = true ∧ b.2.contains (isTarget target) = true))) :
    pathOf H target ((k, .node a b) :: rest) =
      pathOf H target ((d, b) :: (f, a) :: rest) ++
        (if a.contains (isTarget target) || b.contains (isTarget target) then
          (if a.contains (isTarget target) then placedRoot H b else placedRoot H a).toList
        else []) := by
  obtain ⟨hb, hrest⟩ := List.pairwise_cons.mp hx
  obtain ⟨ha, -⟩ := List.pairwise_cons.mp hrest
  have hnone {t : FullTree Placed} (ht : t.contains (isTarget target) = true)
      (h : ∀ e ∈ rest, ¬ (t.contains (isTarget target) = true ∧
        e.2.contains (isTarget target) = true)) : pathOf H target rest = [] :=
    pathOf_eq_nil (fun e he => by simpa using fun hc => h e he ⟨ht, hc⟩)
  have hcons (e : Entry Placed) (l : List (Entry Placed)) : pathOf H target (e :: l) =
      (siblingsOf H target e.2).flatMap List.Vector.toList ++ pathOf H target l := rfl
  rw [hcons, hcons, hcons]
  by_cases hca : a.contains (isTarget target) = true
  · have hcb : b.contains (isTarget target) = false := by
      simpa using fun hcb => hb (f, a) List.mem_cons_self ⟨hcb, hca⟩
    have hsb : siblingsOf H target b = [] := FullTree.siblings_eq_nil hcb
    have hnode : siblingsOf H target (.node a b) = siblingsOf H target a ++ [placedRoot H b] :=
      if_pos hca
    rw [hnone hca ha, hnode, hsb]
    simp [hca]
  · by_cases hcb : b.contains (isTarget target) = true
    · have hsa : siblingsOf H target a = [] := FullTree.siblings_eq_nil (by simpa using hca)
      have hnode : siblingsOf H target (.node a b) =
          siblingsOf H target b ++ [placedRoot H a] :=
        (if_neg hca).trans (if_pos hcb)
      rw [hnone hcb (fun e he => hb e (List.mem_cons_of_mem _ he)), hnode, hsa]
      simp [hca, hcb]
    · have hsa : siblingsOf H target a = [] := FullTree.siblings_eq_nil (by simpa using hca)
      have hsb : siblingsOf H target b = [] := FullTree.siblings_eq_nil (by simpa using hcb)
      have hnode : siblingsOf H target (.node a b) = [] := (if_neg hca).trans (if_neg hcb)
      rw [hnode, hsa, hsb]
      simp [hca, hcb]

/-- A merge keeps the two stacks in step. -/
theorem tracks_merge {top a : Node} {rest : List Node} {path : Bytes} {top' a' : Entry Placed}
    {rest' : List (Entry Placed)}
    (h : Tracks H target (top :: a :: rest, path) (top' :: a' :: rest'))
    (hz : a.depth ≠ 0) :
    Tracks H target
      (⟨tapbranchHash H a.hash top.hash, a.depth - 1, a.holdsTarget || top.holdsTarget⟩ :: rest,
        if a.holdsTarget || top.holdsTarget then
          path ++ (if a.holdsTarget then top.hash else a.hash).toList
        else path)
      ((a'.1 - 1, .node a'.2 top'.2) :: rest') := by
  obtain ⟨hnodes, hpath, hx⟩ := h
  obtain ⟨⟨hdt, hht, hct⟩, hnodes⟩ := List.forall₂_cons.mp hnodes
  obtain ⟨⟨hda, hha, hca⟩, hnodes⟩ := List.forall₂_cons.mp hnodes
  dsimp only at hpath
  refine ⟨List.Forall₂.cons ⟨?_, ?_, ?_⟩ hnodes, ?_, ?_⟩
  · have hpos : 0 < a.depth.toNat :=
      Nat.pos_of_ne_zero (fun h0 => hz (UInt8.toNat_inj.mp h0))
    have hle : (1 : UInt8) ≤ a.depth := by
      rw [UInt8.le_iff_toNat_le]
      exact hpos
    rw [UInt8.toNat_sub_of_le _ _ hle, hda]
    rfl
  · rw [hha, hht]
    rfl
  · rw [hca, hct]
    rfl
  · rw [pathOf_merge (d := top'.1) (f := a'.1) hx, ← hct, ← hca, ← hht, ← hha, hpath]
    dsimp only
    split_ifs <;> simp
  · obtain ⟨hb, hrest⟩ := List.pairwise_cons.mp hx
    obtain ⟨ha, hrest⟩ := List.pairwise_cons.mp hrest
    refine List.pairwise_cons.mpr ⟨fun e he => ?_, hrest⟩
    rintro ⟨hc, hce⟩
    rcases Bool.or_eq_true_iff.mp hc with hc | hc
    · exact ha e he ⟨hc, hce⟩
    · exact hb e (List.mem_cons_of_mem _ he) ⟨hc, hce⟩

theorem depth_eq_iff {n m : Node} {e f : Entry Placed} (hn : Represents H target n e)
    (hm : Represents H target m f) : n.depth = m.depth ↔ e.1 = f.1 := by
  rw [← hn.1, ← hm.1, UInt8.toNat_inj]

theorem depth_eq_zero_iff {n : Node} {e : Entry Placed} (hn : Represents H target n e) :
    n.depth = 0 ↔ e.1 = 0 := by
  rw [← hn.1, ← UInt8.toNat_inj]
  rfl

theorem collapse_sound {cap : ℕ} {top : Node} {rest : List Node} {path : Bytes}
    {r : List Node × Bytes} {top' : Entry Placed} {rest' : List (Entry Placed)}
    (ht : Tracks H target (top :: rest, path) (top' :: rest'))
    (h : collapse H cap top rest path = .ok r) :
    ∃ s, reduce top' rest' = some s ∧ Tracks H target r s := by
  induction rest generalizing top path top' rest' with
  | nil =>
    obtain ⟨-, hnil⟩ := List.forall₂_cons.mp ht.nodes
    cases hnil
    cases h
    exact ⟨_, rfl, ht⟩
  | cons a rest ih =>
    cases rest' with
    | nil => exact absurd ht.nodes.length_eq (by simp)
    | cons a' rest' =>
      obtain ⟨hrt, hnodes⟩ := List.forall₂_cons.mp ht.nodes
      obtain ⟨hra, -⟩ := List.forall₂_cons.mp hnodes
      rw [collapse] at h
      split_ifs at h with heq
      · cases hj : join H cap a top path with
        | error e => rw [hj] at h; cases h
        | ok r =>
        obtain ⟨hz, -, rfl⟩ := (join_eq_ok H).mp hj
        rw [hj] at h
        obtain ⟨s, hs, hr⟩ := ih (tracks_merge ht hz) h
        refine ⟨s, ?_, hr⟩
        rw [reduce, if_pos ((depth_eq_iff hrt hra).mp heq),
          if_neg (fun h0 => hz ((depth_eq_zero_iff hra).mpr h0)), hs]
      · cases h
        refine ⟨_, ?_, ht⟩
        rw [reduce, if_neg (fun h0 => heq ((depth_eq_iff hrt hra).mpr h0))]

/-- A path only grows. -/
theorem length_pathOf_reduce {top : Entry Placed} {rest s : List (Entry Placed)}
    (hx : (top :: rest).Pairwise (fun a b =>
      ¬ (a.2.contains (isTarget target) = true ∧ b.2.contains (isTarget target) = true)))
    (h : reduce top rest = some s) :
    (pathOf H target (top :: rest)).length ≤ (pathOf H target s).length := by
  induction rest generalizing top with
  | nil =>
    cases h
    exact le_rfl
  | cons a rest ih =>
    rw [reduce] at h
    split_ifs at h with heq hz
    · obtain ⟨hb, hrest⟩ := List.pairwise_cons.mp hx
      obtain ⟨ha, hrest⟩ := List.pairwise_cons.mp hrest
      refine le_trans ?_ (ih (List.pairwise_cons.mpr ⟨fun e he => ?_, hrest⟩) h)
      · rw [pathOf_merge (d := top.1) (f := a.1) hx, List.length_append]
        exact Nat.le_add_right _ _
      · rintro ⟨hc, hce⟩
        rcases Bool.or_eq_true_iff.mp hc with hc | hc
        · exact ha e he ⟨hc, hce⟩
        · exact hb e (List.mem_cons_of_mem _ he) ⟨hc, hce⟩
    · cases h
      exact le_rfl

theorem collapse_complete {cap : ℕ} {top : Node} {rest : List Node} {path : Bytes}
    {top' : Entry Placed} {rest' s : List (Entry Placed)}
    (ht : Tracks H target (top :: rest, path) (top' :: rest'))
    (h : reduce top' rest' = some s) (hcap : (pathOf H target s).length ≤ cap) :
    ∃ r, collapse H cap top rest path = .ok r ∧ Tracks H target r s := by
  induction rest generalizing top path top' rest' with
  | nil =>
    obtain ⟨-, hnil⟩ := List.forall₂_cons.mp ht.nodes
    cases hnil
    cases h
    exact ⟨_, rfl, ht⟩
  | cons a rest ih =>
    cases rest' with
    | nil => exact absurd ht.nodes.length_eq (by simp)
    | cons a' rest' =>
      obtain ⟨hrt, hnodes⟩ := List.forall₂_cons.mp ht.nodes
      obtain ⟨hra, -⟩ := List.forall₂_cons.mp hnodes
      rw [reduce] at h
      split_ifs at h with heq hz
      · have hz' : a.depth ≠ 0 := fun h0 => hz ((depth_eq_zero_iff hra).mp h0)
        have hmerge := tracks_merge ht hz'
        have hgrow := (length_pathOf_reduce (H := H) hmerge.exclusive h).trans hcap
        rw [← hmerge.path] at hgrow
        have hj : join H cap a top path = .ok _ := (join_eq_ok H).mpr
          ⟨hz', fun hholds => by
            rw [if_pos hholds, List.length_append, List.Vector.toList_length] at hgrow
            exact hgrow, rfl⟩
        obtain ⟨r, hr, htr⟩ := ih hmerge h
        refine ⟨r, ?_, htr⟩
        rw [collapse, if_pos ((depth_eq_iff hrt hra).mpr heq), hj]
        exact hr
      · cases h
        refine ⟨_, ?_, ht⟩
        rw [collapse, if_neg (fun h0 => heq ((depth_eq_iff hrt hra).mp h0))]

/-- One leaf of the listing, as the parser sees it. -/
def placed (leaf : TapLeaf × ℕ) : ℕ × Placed :=
  (leaf.1.depth.toNat, ⟨leaf.1.leafVersion, leaf.1.script⟩, leaf.2)

/-- No subtree on the stack has the leaf of index `i` yet. -/
def Fresh (i : ℕ) (stack : List (Entry Placed)) : Prop := ∀ x ∈ content stack, x.2.2 < i

theorem mem_content {stack : List (Entry Placed)} {x : ℕ × Placed} :
    x ∈ content stack ↔ ∃ e ∈ stack, x ∈ e.2.listing e.1 := by
  simp [content]

theorem not_contains_of_fresh {i : ℕ} {stack : List (Entry Placed)} (h : Fresh i stack)
    (ht : target = some i) : ∀ e ∈ stack, e.2.contains (isTarget target) = false := by
  intro e he
  rw [Bool.eq_false_iff, ne_eq, FullTree.contains_iff]
  rintro ⟨x, hx, hxt⟩
  rw [← FullTree.map_snd_listing e.1, List.mem_map] at hx
  obtain ⟨y, hy, rfl⟩ := hx
  have hlt := h y (mem_content.mpr ⟨e, he, hy⟩)
  have hxi : some i = some y.2.2 := ht ▸ of_decide_eq_true hxt
  have := Option.some.inj hxi
  omega

theorem fresh_step (leaf : TapLeaf × ℕ) {stack s : List (Entry Placed)}
    (hf : Fresh leaf.2 stack) (h : shift stack (placed leaf) = some s) :
    Fresh (leaf.2 + 1) s := by
  intro x hx
  rw [content_reduce (shift_eq_some h).2] at hx
  rcases List.mem_append.mp hx with hx | hx
  · exact (hf x hx).trans (Nat.lt_succ_self _)
  · rw [FullTree.listing, List.mem_singleton] at hx
    rw [hx]
    exact Nat.lt_succ_self _

/-- Both stacks take the next leaf. -/
theorem tracks_push (leaf : TapLeaf × ℕ) {st : List Node × Bytes} {stack : List (Entry Placed)}
    (ht : Tracks H target st stack) (hf : Fresh leaf.2 stack) :
    Tracks H target
      (⟨leaf.1.hash H, leaf.1.depth, target = some leaf.2⟩ :: st.1, st.2)
      (((placed leaf).1, .leaf (placed leaf).2) :: stack) := by
  refine ⟨List.Forall₂.cons ⟨rfl, rfl, rfl⟩ ht.nodes, ht.path,
    List.pairwise_cons.mpr ⟨fun e he => ?_, ht.exclusive⟩⟩
  rintro ⟨hc, hce⟩
  rw [not_contains_of_fresh hf (of_decide_eq_true hc) e he] at hce
  cases hce

theorem above_iff (leaf : TapLeaf × ℕ) {st : List Node × Bytes} {stack : List (Entry Placed)}
    (ht : Tracks H target st stack) :
    st.1.head?.any (fun top => leaf.1.depth < top.depth) = false ↔
      Below (placed leaf).1 stack := by
  obtain ⟨nodes, path⟩ := st
  cases ht.nodes with
  | nil => simp [Below]
  | cons hr _ =>
    simp only [List.head?_cons, Option.any_some, decide_eq_false_iff_not, Below,
      Option.mem_some_iff, forall_eq', UInt8.lt_iff_toNat_lt, hr.1, not_lt]
    rfl

/-- What the fold checks of a leaf by itself. -/
def LeafOk (leaf : TapLeaf) : Prop :=
  ValidLeafVersion leaf.leafVersion ∧ leaf.depth.toNat ≤ maxTaprootDepth

theorem walkLeaf_sound {cap : ℕ} {leaf : TapLeaf × ℕ} {st r : List Node × Bytes}
    {stack : List (Entry Placed)} (ht : Tracks H target st stack) (hf : Fresh leaf.2 stack)
    (h : walkLeaf H target cap st leaf = .ok r) :
    LeafOk leaf.1 ∧ ∃ s, shift stack (placed leaf) = some s ∧ Tracks H target r s := by
  rw [walkLeaf] at h
  cases hv : checkLeafVersion leaf.1.leafVersion with
  | error e => rw [hv] at h; cases h
  | ok u =>
    rw [hv] at h
    dsimp only at h
    split_ifs at h with hd ha hp
    obtain ⟨s, hs, hr⟩ := collapse_sound (tracks_push _ ht hf) h
    refine ⟨⟨checkLeafVersion_eq_ok.mp hv, not_lt.mp hd⟩, s, ?_, hr⟩
    rw [shift_eq ((above_iff _ ht).mp (by simpa using ha)), hs]

theorem walkLeaf_complete {cap : ℕ} {leaf : TapLeaf × ℕ} {st : List Node × Bytes}
    {stack s : List (Entry Placed)} (ht : Tracks H target st stack) (hf : Fresh leaf.2 stack)
    (hok : LeafOk leaf.1) (hlen : stack.length ≤ maxTaprootDepth)
    (h : shift stack (placed leaf) = some s) (hcap : (pathOf H target s).length ≤ cap) :
    ∃ r, walkLeaf H target cap st leaf = .ok r ∧ Tracks H target r s := by
  obtain ⟨hbelow, hreduce⟩ := shift_eq_some h
  obtain ⟨r, hr, htr⟩ := collapse_complete (tracks_push _ ht hf) hreduce hcap
  refine ⟨r, ?_, htr⟩
  have habove := (above_iff leaf ht).mpr hbelow
  rw [walkLeaf, checkLeafVersion_eq_ok.mpr hok.1]
  dsimp only
  rw [if_neg (not_lt.mpr hok.2), if_neg (by rw [habove]; exact Bool.false_ne_true),
    if_neg (not_lt.mpr (ht.nodes.length_eq ▸ hlen)), hr]

theorem walk_sound {cap : ℕ} {leaves : List TapLeaf} {i : ℕ} {st r : List Node × Bytes}
    {stack : List (Entry Placed)} (ht : Tracks H target st stack) (hf : Fresh i stack)
    (h : (leaves.zipIdx i).foldlM (walkLeaf H target cap) st = .ok r) :
    (∀ leaf ∈ leaves, LeafOk leaf) ∧
      ∃ s, run stack ((leaves.zipIdx i).map placed) = some s ∧ Tracks H target r s := by
  induction leaves generalizing i st stack with
  | nil =>
    cases h
    exact ⟨by simp, stack, rfl, ht⟩
  | cons leaf rest ih =>
    rw [List.zipIdx_cons, List.foldlM_cons] at h
    obtain ⟨st₁, h₁, h₂⟩ := bind_eq_ok.mp h
    obtain ⟨hok, s₁, hs₁, ht₁⟩ := walkLeaf_sound ht hf h₁
    obtain ⟨hall, s, hs, hts⟩ := ih ht₁ (fresh_step _ hf hs₁) h₂
    refine ⟨List.forall_mem_cons.mpr ⟨hok, hall⟩, s, ?_, hts⟩
    rw [List.zipIdx_cons, List.map_cons, run_cons, hs₁, Option.bind_some, hs]

theorem length_pathOf_run {leaves : List TapLeaf} {i : ℕ} {st : List Node × Bytes}
    {stack s : List (Entry Placed)} (ht : Tracks H target st stack) (hf : Fresh i stack)
    (h : run stack ((leaves.zipIdx i).map placed) = some s) :
    (pathOf H target stack).length ≤ (pathOf H target s).length := by
  induction leaves generalizing i st stack with
  | nil =>
    cases h
    exact le_rfl
  | cons leaf rest ih =>
    rw [List.zipIdx_cons, List.map_cons, run_cons] at h
    obtain ⟨s₁, hs₁, hs⟩ := Option.bind_eq_some_iff.mp h
    have hpush := tracks_push (leaf, i) ht hf
    have hgrow := length_pathOf_reduce (H := H) hpush.exclusive (shift_eq_some hs₁).2
    obtain ⟨r, -, ht₁⟩ := collapse_complete hpush (shift_eq_some hs₁).2 le_rfl
    exact hgrow.trans (ih ht₁ (fresh_step (leaf, i) hf hs₁) hs)

/-- A listing that the parser accepts never fills the stack. -/
theorem walk_complete {cap : ℕ} {leaves : List TapLeaf} {i : ℕ} {st : List Node × Bytes}
    {stack s : List (Entry Placed)} (ht : Tracks H target st stack) (hf : Fresh i stack)
    (hd : Descending stack) (hok : ∀ leaf ∈ leaves, LeafOk leaf)
    (h : run stack ((leaves.zipIdx i).map placed) = some s)
    (hcap : (pathOf H target s).length ≤ cap) :
    ∃ r, (leaves.zipIdx i).foldlM (walkLeaf H target cap) st = .ok r ∧ Tracks H target r s := by
  induction leaves generalizing i st stack with
  | nil =>
    cases h
    exact ⟨st, rfl, ht⟩
  | cons leaf rest ih =>
    rw [List.zipIdx_cons, List.map_cons] at h
    obtain ⟨s₁, hs₁, hs⟩ := Option.bind_eq_some_iff.mp h
    have hleaf := hok leaf List.mem_cons_self
    have hlen := (length_le_of_reduce hd (shift_eq_some hs₁).1 (shift_eq_some hs₁).2).trans hleaf.2
    have hfresh := fresh_step (leaf, i) hf hs₁
    obtain ⟨_, -, ht₁⟩ := collapse_complete (tracks_push (leaf, i) ht hf)
      (shift_eq_some hs₁).2 le_rfl
    have hgrow := (length_pathOf_run ht₁ hfresh hs).trans hcap
    obtain ⟨st₁, h₁, ht₁⟩ := walkLeaf_complete ht hf hleaf hlen hs₁ hgrow
    obtain ⟨r, hr, htr⟩ := ih ht₁ hfresh (descending_shift hd hs₁)
      (fun l hl => hok l (List.mem_cons_of_mem leaf hl)) hs
    refine ⟨r, ?_, htr⟩
    rw [List.zipIdx_cons, List.foldlM_cons, h₁]
    exact hr

end Simulation

/-! ## Roots and paths -/

section Correctness

variable (H : Hashes)

theorem tracks_start (target : Option ℕ) : Tracks H target ([], []) [] :=
  ⟨List.Forall₂.nil, rfl, List.Pairwise.nil⟩

theorem fresh_start : Fresh 0 [] := fun _ hx => by simp [content] at hx

/-- The listing and its leaves with their places have the same trees. -/
theorem describes_iff {t : FullTree TapScript} {leaves : List TapLeaf} :
    Describes t leaves ↔
      ∃ t', run [] (leaves.zipIdx.map placed) = some [(0, t')] ∧ t'.map Prod.fst = t := by
  have hlist : leaves.map (fun l => (l.depth.toNat, TapScript.mk l.leafVersion l.script)) =
      (leaves.zipIdx.map placed).map (fun x => (x.1, x.2.1)) := by
    have hfst : (leaves.zipIdx.map Prod.fst) = leaves := List.zipIdx_map_fst 0 leaves
    conv_lhs => rw [← hfst]
    rw [List.map_map, List.map_map]
    rfl
  rw [Describes, ← run_eq_root, hlist]
  have hmap := run_map (Prod.fst : Placed → TapScript) [] (leaves.zipIdx.map placed)
  rw [List.map_nil] at hmap
  rw [hmap]
  constructor
  · intro h
    obtain ⟨s, hs, heq⟩ := Option.map_eq_some_iff.mp h
    match s, heq with
    | [(d, t')], heq =>
      simp only [List.map_cons, List.map_nil, mapEntry, List.cons.injEq, Prod.mk.injEq,
        and_true] at heq
      obtain ⟨rfl, rfl⟩ := heq
      exact ⟨t', hs, rfl⟩
  · rintro ⟨t', h, rfl⟩
    rw [h]
    rfl

theorem valid_iff {t : FullTree TapScript} {leaves : List TapLeaf} (h : Describes t leaves) :
    ValidTree t ↔ ∀ leaf ∈ leaves, LeafOk leaf := by
  constructor
  · rintro ⟨hversions, hdepth⟩ leaf hleaf
    have hmem : (leaf.depth.toNat, TapScript.mk leaf.leafVersion leaf.script) ∈ t.listing 0 := by
      rw [← h]
      exact List.mem_map.mpr ⟨leaf, hleaf, rfl⟩
    refine ⟨hversions ⟨leaf.leafVersion, leaf.script⟩ ?_, hdepth _ hmem⟩
    rw [← FullTree.map_snd_listing 0]
    exact List.mem_map.mpr ⟨_, hmem, rfl⟩
  · intro hok
    constructor
    · intro s hs
      rw [← FullTree.map_snd_listing 0, ← h, List.map_map, List.mem_map] at hs
      obtain ⟨leaf, hleaf, rfl⟩ := hs
      exact (hok leaf hleaf).1
    · intro x hx
      rw [← h, List.mem_map] at hx
      obtain ⟨leaf, hleaf, rfl⟩ := hx
      exact (hok leaf hleaf).2

theorem placedRoot_eq (t : FullTree Placed) : placedRoot H t = treeRoot H (t.map Prod.fst) :=
  (FullTree.fold_map (Prod.fst : Placed → TapScript)
    (fun s => tapleafHash H s.leafVersion s.script) (tapbranchHash H) t).symm

/-- A result of the fold is the root of the tree that the listing describes. -/
theorem walk_eq_ok {leaves : List TapLeaf} {target : Option ℕ} {cap : ℕ} {root : ByteVec 32}
    {path : Bytes} (h : walk H leaves target cap = .ok (root, path)) :
    ∃ t, Describes t leaves ∧ ValidTree t ∧ root = treeRoot H t := by
  rw [walk] at h
  split_ifs at h
  obtain ⟨⟨stack, path'⟩, hrun, h⟩ := bind_eq_ok.mp h
  obtain ⟨hok, s, hs, ht⟩ := walk_sound (tracks_start H target) fresh_start hrun
  match stack, s, ht.nodes with
  | [n], [(d, t')], hnodes =>
    dsimp only at h
    split_ifs at h with hz
    cases h
    obtain ⟨⟨hdepth, hhash, -⟩, -⟩ := List.forall₂_cons.mp hnodes
    rw [hz] at hdepth
    obtain rfl : 0 = d := hdepth
    have hdesc := describes_iff.mpr ⟨t', hs, rfl⟩
    exact ⟨_, hdesc, (valid_iff hdesc).mpr hok, by rw [hhash, placedRoot_eq]⟩

/-- The fold of a listing, given room for the path. -/
theorem walk_of_describes {leaves : List TapLeaf} (target : Option ℕ) (cap : ℕ)
    {t : FullTree TapScript} (hd : Describes t leaves) (hv : ValidTree t)
    (htarget : ∀ i ∈ target, i < leaves.length) :
    ∃ t' : FullTree Placed, run [] (leaves.zipIdx.map placed) = some [(0, t')] ∧
      ((pathOf H target [(0, t')]).length ≤ cap →
        walk H leaves target cap = .ok (treeRoot H t, pathOf H target [(0, t')])) := by
  obtain ⟨t', hrun, rfl⟩ := describes_iff.mp hd
  refine ⟨t', hrun, fun hcap => ?_⟩
  obtain ⟨⟨stack, path⟩, hwalk, ht⟩ := walk_complete (tracks_start H target) fresh_start
    List.Pairwise.nil ((valid_iff hd).mp hv) hrun hcap
  have hnone : target.any (fun t => leaves.length ≤ t) = false := by
    cases target with
    | none => rfl
    | some i => simpa using htarget i rfl
  rw [walk, hnone, hwalk, ok_bind, if_neg Bool.false_ne_true]
  match stack, ht.nodes with
  | [n], hnodes =>
    obtain ⟨hrep, -⟩ := List.forall₂_cons.mp hnodes
    dsimp only
    rw [if_pos ((depth_eq_zero_iff hrep).mpr rfl), hrep.2.1, placedRoot_eq, ← ht.path]

theorem asChunks_cons (v : ByteVec 32) (count : ℕ) (r : Bytes) :
    asChunks 32 (count + 1) (v.toList ++ r) = v :: asChunks 32 count r := by
  have hv := v.toList_length
  have hlen : 32 ≤ (v.toList ++ r).length := by
    rw [List.length_append]
    omega
  rw [asChunks, dif_pos hlen]
  congr 1
  · exact Subtype.ext (List.take_left' hv)
  · rw [List.drop_left' hv]

theorem asChunks_flatMap (nodes : List (ByteVec 32)) :
    asChunks 32 nodes.length (nodes.flatMap List.Vector.toList) = nodes := by
  induction nodes with
  | nil => rfl
  | cons v nodes ih => rw [List.flatMap_cons, List.length_cons, asChunks_cons, ih]

theorem length_flatMap_toList (nodes : List (ByteVec 32)) :
    (nodes.flatMap List.Vector.toList).length = 32 * nodes.length := by
  induction nodes with
  | nil => rfl
  | cons v nodes ih =>
    rw [List.flatMap_cons, List.length_append, ih, List.Vector.toList_length, List.length_cons]
    omega

theorem merkleRootFromPath_flatMap (leafHash : ByteVec 32) {nodes : List (ByteVec 32)}
    (h : nodes.length ≤ maxTaprootDepth) :
    merkleRootFromPath H leafHash (nodes.flatMap List.Vector.toList) =
      .ok (nodes.foldl (tapbranchHash H) leafHash) := by
  have hcount : 32 * nodes.length / 32 = nodes.length := Nat.mul_div_cancel_left _ (by decide)
  rw [merkleRootFromPath, pathNodes, length_flatMap_toList, hcount, asChunks_flatMap,
    if_neg (by simp), if_neg (not_lt.mpr h)]
  rfl

/-- The path of a leaf is written from its siblings: as many as the leaf is deep,
and they lead to the root. -/
theorem leaf_path {leaves : List TapLeaf} {t : FullTree TapScript}
    (hd : Describes t leaves) (hv : ValidTree t) {i : ℕ} {leaf : TapLeaf}
    (hleaf : leaves[i]? = some leaf) {cap : ℕ} (hcap : 32 * leaf.depth.toNat ≤ cap) :
    ∃ t' : FullTree Placed, run [] (leaves.zipIdx.map placed) = some [(0, t')] ∧
      t'.map Prod.fst = t ∧
      walk H leaves (some i) cap =
        .ok (treeRoot H t, (siblingsOf H (some i) t').flatMap List.Vector.toList) ∧
      (siblingsOf H (some i) t').length = leaf.depth.toNat ∧
      (siblingsOf H (some i) t').foldl (tapbranchHash H) (leaf.hash H) = treeRoot H t := by
  obtain ⟨hi, -⟩ := List.getElem?_eq_some_iff.mp hleaf
  obtain ⟨t', hrun, hwalk⟩ := walk_of_describes H (some i) cap hd hv
    (fun j hj => by cases hj; exact hi)
  have hlist := run_eq_root.mp hrun
  have hmem : placed (leaf, i) ∈ t'.listing 0 := by
    rw [← hlist]
    exact List.mem_map_of_mem (List.mem_zipIdx_iff_getElem?.mpr hleaf)
  have hcontains : t'.contains (isTarget (some i)) = true := by
    rw [FullTree.contains_iff, ← FullTree.map_snd_listing 0]
    exact ⟨_, List.mem_map_of_mem hmem, decide_eq_true rfl⟩
  obtain ⟨x, hx, hxmem, hfold⟩ := FullTree.climb
    (f := fun x : Placed => tapleafHash H x.1.leafVersion x.1.script)
    (tapbranchHash_comm H) 0 hcontains
  -- the leaf that the climb starts from is the one at index `i`
  rw [← hlist, List.mem_map] at hxmem
  obtain ⟨⟨leaf', j⟩, hj, hplaced⟩ := hxmem
  obtain ⟨hdepth, rfl⟩ := Prod.ext_iff.mp hplaced
  have hij : i = j := Option.some.inj (of_decide_eq_true hx)
  subst hij
  rw [List.mem_zipIdx_iff_getElem?, hleaf] at hj
  obtain rfl : leaf = leaf' := Option.some.inj hj
  have hlen : (siblingsOf H (some i) t').length = leaf.depth.toNat := by
    have := hdepth
    dsimp only [placed] at this
    rw [Nat.zero_add] at this
    exact this.symm
  have hpath : pathOf H (some i) [(0, t')] =
      (siblingsOf H (some i) t').flatMap List.Vector.toList := List.append_nil _
  have hbytes : (pathOf H (some i) [(0, t')]).length = 32 * leaf.depth.toNat := by
    rw [hpath, length_flatMap_toList, hlen]
  obtain ⟨t'', hrun', hmap⟩ := describes_iff.mp hd
  rw [hrun] at hrun'
  cases hrun'
  refine ⟨t', hrun, hmap, ?_, hlen, ?_⟩
  · rw [hwalk (hbytes.le.trans hcap), hpath]
  · rw [← hmap, ← placedRoot_eq]
    exact hfold

/-- The path of a leaf is as long as the leaf is deep and leads to the root. -/
theorem path_leads_to_root {leaves : List TapLeaf} {t : FullTree TapScript}
    (hd : Describes t leaves) (hv : ValidTree t) {i : ℕ} {leaf : TapLeaf}
    (hleaf : leaves[i]? = some leaf) {cap : ℕ} (hcap : 32 * leaf.depth.toNat ≤ cap) :
    ∃ path, tapTreePath H leaves i cap = .ok path ∧ path.length = 32 * leaf.depth.toNat ∧
      merkleRootFromPath H (leaf.hash H) path = .ok (treeRoot H t) := by
  obtain ⟨t', -, -, hwalk, hlen, hfold⟩ := leaf_path H hd hv hleaf hcap
  have hok := (valid_iff hd).mp hv leaf (List.mem_of_getElem? hleaf)
  refine ⟨(siblingsOf H (some i) t').flatMap List.Vector.toList, ?_, ?_, ?_⟩
  · rw [tapTreePath, hwalk]
    rfl
  · rw [length_flatMap_toList, hlen]
  · rw [merkleRootFromPath_flatMap H _ (hlen.le.trans hok.2), hfold]

/-- Listings are accepted exactly when they describe a tree, with its root. -/
theorem tapTreeRoot_eq_ok {leaves : List TapLeaf} {root : ByteVec 32} :
    tapTreeRoot H leaves = .ok root ↔
      ∃ t, Describes t leaves ∧ ValidTree t ∧ root = treeRoot H t := by
  constructor
  · intro h
    obtain ⟨⟨root', path⟩, hwalk, h⟩ := bind_eq_ok.mp h
    cases h
    exact walk_eq_ok H hwalk
  · rintro ⟨t, hd, hv, rfl⟩
    obtain ⟨t', -, hwalk⟩ := walk_of_describes H none 0 hd hv (by simp)
    have hnil : pathOf H none [(0, t')] = [] :=
      pathOf_eq_nil (fun e _ => by
        rw [Bool.eq_false_iff, ne_eq, FullTree.contains_iff]
        rintro ⟨x, -, hx⟩
        exact absurd (of_decide_eq_true hx) (by simp))
    rw [tapTreeRoot, hwalk (by rw [hnil]; exact le_rfl)]
    rfl

/-- The listings that are accepted, their roots, and the paths of their leaves. -/
theorem tapTree_correct (leaves : List TapLeaf) :
    (∀ root, tapTreeRoot H leaves = .ok root ↔
      ∃ t, Describes t leaves ∧ ValidTree t ∧ root = treeRoot H t) ∧
    (∀ t, Describes t leaves → ValidTree t →
      ∀ (i : ℕ) (leaf : TapLeaf), leaves[i]? = some leaf →
      ∀ cap, 32 * leaf.depth.toNat ≤ cap →
        ∃ path, tapTreePath H leaves i cap = .ok path ∧
          path.length = 32 * leaf.depth.toNat ∧
          merkleRootFromPath H (leaf.hash H) path = .ok (treeRoot H t)) :=
  ⟨fun _ => tapTreeRoot_eq_ok H,
    fun _ hd hv _ _ hleaf _ hcap => path_leads_to_root H hd hv hleaf hcap⟩

end Correctness

/-- Three scripts, the second and third one level deeper. -/
example : Describes
    (.node (.leaf ⟨0xc0, [1]⟩) (.node (.leaf ⟨0xc0, [2]⟩) (.leaf ⟨0xc0, [3]⟩)))
    [⟨1, 0xc0, [1]⟩, ⟨2, 0xc0, [2]⟩, ⟨2, 0xc0, [3]⟩] := rfl

end Outscript.Taproot
