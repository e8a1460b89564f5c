import Outscript.ControlBlock

/-!
# The stack of the tree fold

The fold of a leaf listing keeps its finished subtrees in an array with one slot
for each depth. Depths strictly increase up the stack, but a leaf is pushed
before it is merged: one more leaf of the largest depth, on a stack that is
full, is written behind the array. No other listing does that.
-/
namespace Outscript.Taproot

open ByteString Fallible LeafListing

/-- Trees rooted at the depths from 0 to 128, in this order, and one more leaf of
depth 128. What was written of a target's path by then fits `cap` bytes. -/
structure Overfills (target : Option ℕ) (cap : ℕ) (front : List TapLeaf) (last : TapLeaf)
    (ts : List (FullTree Placed)) : Prop where
  listing : front.zipIdx.map placed = staircase 0 ts
  count : ts.length = maxTaprootDepth + 1
  deepest : last.depth.toNat = maxTaprootDepth
  accepted : ∀ leaf ∈ last :: front, LeafOk leaf
  room : 32 * (ts.map (FullTree.rise (isTarget target))).sum ≤ cap

/-- The listing starts with leaves that fill the stack. -/
def Overfull (target : Option ℕ) (cap : ℕ) (leaves : List TapLeaf) : Prop :=
  ∃ front last rest ts, leaves = front ++ last :: rest ∧ Overfills target cap front last ts

section Fold

variable (H : Hashes) {target : Option ℕ} {cap : ℕ}

theorem length_pathOf (stack : List (Entry Placed)) :
    (pathOf H target stack).length =
      32 * (stack.map fun e => e.2.rise (isTarget target)).sum := by
  induction stack with
  | nil => rfl
  | cons e stack ih =>
    have hcons : pathOf H target (e :: stack) =
        (siblingsOf H target e.2).flatMap List.Vector.toList ++ pathOf H target stack := rfl
    rw [hcons, List.length_append, ih, length_flatMap_toList, siblingsOf, FullTree.length_siblings,
      List.map_cons, List.sum_cons, Nat.mul_add]

theorem length_pathOf_stairs (d : ℕ) (ts : List (FullTree Placed)) :
    (pathOf H target (stairs d ts).reverse).length =
      32 * (ts.map (FullTree.rise (isTarget target))).sum := by
  rw [length_pathOf, List.map_reverse, List.sum_reverse, map_stairs]

/-- The path never outgrows its buffer. -/
theorem collapse_fits {top : Node} {rest : List Node} {path : Bytes} {r : List Node × Bytes}
    (hpath : path.length ≤ cap) (h : collapse H cap top rest path = .ok r) : r.2.length ≤ cap := by
  induction rest generalizing top path with
  | nil =>
    cases h
    exact hpath
  | cons a rest ih =>
    rw [collapse] at h
    split_ifs at h with heq
    · cases hj : join H cap a top path with
      | error e => rw [hj] at h; cases h
      | ok parent =>
        obtain ⟨-, hcap, rfl⟩ := (join_eq_ok H).mp hj
        rw [hj] at h
        refine ih ?_ h
        by_cases hholds : (a.holdsTarget || top.holdsTarget) = true
        · rw [if_pos hholds, List.length_append, List.Vector.toList_length]
          exact hcap hholds
        · rwa [if_neg hholds]
    · cases h
      exact hpath

theorem walkLeaf_fits {leaf : TapLeaf × ℕ} {st r : List Node × Bytes} (hpath : st.2.length ≤ cap)
    (h : walkLeaf H target cap st leaf = .ok r) : r.2.length ≤ cap := by
  rw [walkLeaf] at h
  cases hv : checkLeafVersion leaf.1.leafVersion with
  | error e => rw [hv] at h; cases h
  | ok u =>
    rw [hv] at h
    dsimp only at h
    split_ifs at h
    exact collapse_fits H hpath h

theorem fold_fits {leaves : List (TapLeaf × ℕ)} {st r : List Node × Bytes}
    (hpath : st.2.length ≤ cap) (h : leaves.foldlM (walkLeaf H target cap) st = .ok r) :
    r.2.length ≤ cap := by
  induction leaves generalizing st with
  | nil =>
    cases h
    exact hpath
  | cons leaf leaves ih =>
    obtain ⟨st₁, h₁, h₂⟩ := bind_eq_ok.mp h
    exact ih (walkLeaf_fits H hpath h₁) h₂

/-! ## The push -/

theorem join_ne_panic (a b : Node) (path : Bytes) : join H cap a b path ≠ .error .panic := by
  rw [join]
  intro h
  split_ifs at h <;> cases h

theorem collapse_ne_panic (top : Node) (rest : List Node) (path : Bytes) :
    collapse H cap top rest path ≠ .error .panic := by
  induction rest generalizing top path with
  | nil => rintro ⟨⟩
  | cons a rest ih =>
    rw [collapse]
    split_ifs with heq
    · cases hj : join H cap a top path with
      | error e =>
        intro h
        cases h
        exact join_ne_panic H a top path hj
      | ok parent => exact ih parent.1 parent.2
    · rintro ⟨⟩

/-- Nothing but the push panics, and only on a full stack. -/
theorem walkLeaf_panics_iff {leaf : TapLeaf × ℕ} {st : List Node × Bytes}
    {stack : List (Entry Placed)} (ht : Tracks H target st stack) :
    walkLeaf H target cap st leaf = .error .panic ↔
      LeafOk leaf.1 ∧ Below (placed leaf).1 stack ∧ maxTaprootDepth < stack.length := by
  have hlen : st.1.length = stack.length := ht.nodes.length_eq
  rw [← above_iff leaf ht, ← hlen, LeafOk, ← checkLeafVersion_eq_ok, walkLeaf]
  cases checkLeafVersion leaf.1.leafVersion with
  | error e => simp
  | ok u =>
    dsimp only
    split_ifs with hd ha hfull
    · exact iff_of_false (by rintro ⟨⟩) fun h => absurd h.1.2 (not_le.mpr hd)
    · exact iff_of_false (by rintro ⟨⟩) fun h => by rw [h.2.1] at ha; cases ha
    · exact iff_of_true rfl ⟨⟨rfl, not_lt.mp hd⟩, by simpa using ha, hfull⟩
    · exact iff_of_false (collapse_ne_panic H _ _ _) fun h => absurd h.2.2 hfull

/-- A stack that was reached by leaves no deeper than allowed and that a leaf does not fit
has an entry for every depth. -/
theorem overfills_of_full {front : List TapLeaf} {last : TapLeaf} {stack : List (Entry Placed)}
    (hrun : run [] (front.zipIdx.map placed) = some stack) (hfront : ∀ leaf ∈ front, LeafOk leaf)
    (hlast : LeafOk last) (hbelow : Below last.depth.toNat stack)
    (hfull : maxTaprootDepth < stack.length) (hroom : (pathOf H target stack).length ≤ cap) :
    ∃ ts, Overfills target cap front last ts := by
  have hdescending : Descending stack := descending_run List.Pairwise.nil hrun
  have hcontent : content stack = front.zipIdx.map placed := content_run hrun
  have hdepth : Below maxTaprootDepth stack := by
    refine below_of_content fun x hx => ?_
    rw [hcontent] at hx
    obtain ⟨⟨leaf, i⟩, hmem, rfl⟩ := List.mem_map.mp hx
    exact (hfront leaf (List.fst_mem_of_mem_zipIdx hmem)).2
  have hle := length_le_of_descending hdescending hdepth
  have hle' := length_le_of_descending hdescending hbelow
  obtain ⟨ts, hcount, rfl⟩ := exists_stairs hdescending hdepth (by omega)
  refine ⟨ts, ?_, hcount, le_antisymm hlast.2 (by omega), ?_, ?_⟩
  · rw [← hcontent, content_stairs]
  · exact List.forall_mem_cons.mpr ⟨hlast, hfront⟩
  · rwa [length_pathOf_stairs] at hroom

/-- What is left on the stack is looked at without a panic. -/
theorem walkEnd_ne_panic (st : List Node × Bytes) :
    (match st.1 with
      | [n] => if n.depth = 0 then Except.ok (n.hash, st.2) else .error (.error .invalidData)
      | _ => .error (.error .invalidData)) ≠
    (.error .panic : Except Trap (ByteVec 32 × Bytes)) := by
  intro h
  split at h
  · split_ifs at h
    cases h
  · cases h

/-- The fold panics exactly on the listings that fill the stack and go on. -/
theorem walk_panics_iff {leaves : List TapLeaf} :
    walk H leaves target cap = .error .panic ↔
      (∀ i ∈ target, i < leaves.length) ∧ Overfull target cap leaves := by
  have hstop : target.any (fun t => leaves.length ≤ t) = true ↔ ¬ ∀ i ∈ target, i < leaves.length := by
    cases target <;> simp
  rw [walk]
  split_ifs with hbad
  · exact iff_of_false (by rintro ⟨⟩) fun h => hstop.mp hbad h.1
  rw [hstop, not_not] at hbad
  rw [bind_eq_error]
  refine ⟨fun h => ⟨hbad, ?_⟩, fun h => Or.inl ?_⟩
  · have hfold : leaves.zipIdx.foldlM (walkLeaf H target cap) ([], []) = .error .panic :=
      h.resolve_right (by rintro ⟨st, -, hst⟩; exact walkEnd_ne_panic st hst)
    obtain ⟨front, a, rest, st, hsplit, hfront, ha⟩ := foldlM_eq_error.mp hfold
    obtain ⟨front, tail, rfl, rfl, htail⟩ := List.zipIdx_eq_append_iff.mp hsplit
    obtain ⟨last, rest, rfl, rfl, -⟩ := List.zipIdx_eq_cons_iff.mp htail.symm
    obtain ⟨hok, stack, hrun, ht⟩ := walk_sound (tracks_start H target) fresh_start hfront
    obtain ⟨hlast, hbelow, hfull⟩ := (walkLeaf_panics_iff H ht).mp ha
    have hfits := fold_fits H (Nat.zero_le cap) hfront
    rw [ht.path] at hfits
    obtain ⟨ts, hts⟩ := overfills_of_full H hrun hok hlast hbelow hfull hfits
    exact ⟨front, last, rest, ts, rfl, hts⟩
  · obtain ⟨-, front, last, rest, ts, rfl, hts⟩ := h
    obtain ⟨hlast, hfront⟩ := List.forall_mem_cons.mp hts.accepted
    have hrun := @run_staircase _ 0 [] ts (by simp)
    rw [List.append_nil, ← hts.listing] at hrun
    have hroom : (pathOf H target (stairs 0 ts).reverse).length ≤ cap := by
      rw [length_pathOf_stairs]
      exact hts.room
    obtain ⟨st, hst, ht⟩ := walk_complete (tracks_start H target) fresh_start List.Pairwise.nil
      hfront hrun hroom
    have hbelow : Below maxTaprootDepth (stairs 0 ts).reverse := by
      refine below_of_content fun x hx => ?_
      rw [content_stairs, ← hts.listing] at hx
      obtain ⟨⟨leaf, i⟩, hmem, rfl⟩ := List.mem_map.mp hx
      exact (hfront leaf (List.fst_mem_of_mem_zipIdx hmem)).2
    refine foldlM_eq_error.mpr ⟨front.zipIdx, (last, front.length), rest.zipIdx (front.length + 1),
      st, ?_, hst, ?_⟩
    · rw [List.zipIdx_append, List.zipIdx_cons, Nat.zero_add]
    · refine (walkLeaf_panics_iff H ht).mpr ⟨hlast, ?_, ?_⟩
      · change Below last.depth.toNat _
        rwa [hts.deepest]
      · rw [List.length_reverse, length_stairs, hts.count]
        exact Nat.lt_succ_self _

end Fold

/-! ## The calls -/

theorem tapTreeRoot_panics_iff (H : Hashes) {leaves : List TapLeaf} :
    tapTreeRoot H leaves = .error .panic ↔ Overfull none 0 leaves := by
  have hwalk := @walk_panics_iff H none 0 leaves
  rw [tapTreeRoot, bind_eq_error, hwalk]
  refine ⟨fun h => ?_, fun h => Or.inl ⟨by rintro i ⟨⟩, h⟩⟩
  rcases h with h | ⟨r, -, h⟩
  · exact h.2
  · cases h

theorem tapTreePath_panics_iff (H : Hashes) {leaves : List TapLeaf} {index cap : ℕ} :
    tapTreePath H leaves index cap = .error .panic ↔
      index < leaves.length ∧ Overfull (some index) cap leaves := by
  have hwalk := @walk_panics_iff H (some index) cap leaves
  rw [tapTreePath, bind_eq_error, hwalk]
  refine ⟨fun h => ?_, fun h => Or.inl ⟨by simpa using h.1, h.2⟩⟩
  rcases h with h | ⟨r, -, h⟩
  · exact ⟨h.1 index rfl, h.2⟩
  · cases h

theorem controlBlockToSlice_panics_iff (C : Purecrypto) {internalKey : ByteVec 32}
    {leaves : List TapLeaf} {index cap : ℕ} :
    controlBlockToSlice C internalKey leaves index cap = .error .panic ↔
      index < leaves.length ∧ 33 ≤ cap ∧ Overfull (some index) (cap - 33) leaves := by
  have hwalk := @walk_panics_iff C.toHashes (some index) (cap - 33) leaves
  rw [controlBlockToSlice]
  cases hleaf : leaves[index]? with
  | none =>
    have hle := List.getElem?_eq_none_iff.mp hleaf
    exact iff_of_false (by rintro ⟨⟩) fun h => absurd h.1 (not_lt.mpr hle)
  | some leaf =>
    obtain ⟨hlt, -⟩ := List.getElem?_eq_some_iff.mp hleaf
    dsimp only
    split_ifs with hcap
    · exact iff_of_false (by rintro ⟨⟩) fun h => absurd h.2.1 (not_le.mpr hcap)
    rw [bind_eq_error, hwalk]
    refine ⟨fun h => ?_, fun h => Or.inl ⟨by simpa using h.1, h.2.2⟩⟩
    rcases h with h | ⟨⟨root, path⟩, -, h⟩
    · exact ⟨hlt, not_lt.mp hcap, h.2⟩
    · rcases bind_eq_error.mp h with h | ⟨⟨q, parity⟩, -, h⟩
      · exact absurd h (orTrap_ne_panic _)
      · cases h

/-- The calls end without a panic except on listings that fill the stack and go on, if the
target is one of the leaves and the buffer is large enough to get there. -/
theorem tree_calls_return_iff (C : Purecrypto) (internalKey : ByteVec 32) (leaves : List TapLeaf)
    (index cap : ℕ) :
    (∀ target, walk C.toHashes leaves target cap ≠ .error .panic ↔
      ¬ ((∀ i ∈ target, i < leaves.length) ∧ Overfull target cap leaves)) ∧
    (tapTreeRoot C.toHashes leaves ≠ .error .panic ↔ ¬ Overfull none 0 leaves) ∧
    (tapTreePath C.toHashes leaves index cap ≠ .error .panic ↔
      ¬ (index < leaves.length ∧ Overfull (some index) cap leaves)) ∧
    (controlBlockToSlice C internalKey leaves index cap ≠ .error .panic ↔
      ¬ (index < leaves.length ∧ 33 ≤ cap ∧ Overfull (some index) (cap - 33) leaves)) :=
  ⟨fun _ => not_congr (walk_panics_iff C.toHashes), not_congr (tapTreeRoot_panics_iff C.toHashes),
    not_congr (tapTreePath_panics_iff C.toHashes), not_congr (controlBlockToSlice_panics_iff C)⟩

/-- A leaf for each depth, from the root down. -/
def deepeningLeaves : List TapLeaf := (List.range 129).map fun d => ⟨UInt8.ofNat d, 0xc0, []⟩

theorem leafOk_deepening : ∀ leaf ∈ ⟨128, 0xc0, []⟩ :: deepeningLeaves, LeafOk leaf := by
  have hversion : ValidLeafVersion 0xc0 := ⟨rfl, by decide⟩
  refine List.forall_mem_cons.mpr ⟨⟨hversion, le_rfl⟩, fun leaf hleaf => ?_⟩
  obtain ⟨d, hd, rfl⟩ := List.mem_map.mp hleaf
  have hlt := List.mem_range.mp hd
  refine ⟨hversion, ?_⟩
  rw [UInt8.toNat_ofNat', maxTaprootDepth]
  omega

theorem overfull_tree_panics :
    tapTreeRoot sampleCrypto.toHashes (deepeningLeaves ++ [⟨128, 0xc0, []⟩]) = .error .panic := by
  refine (tapTreeRoot_panics_iff _).mpr ⟨deepeningLeaves, ⟨128, 0xc0, []⟩, [],
    (List.range 129).map fun d => .leaf (⟨0xc0, []⟩, d), rfl, ?_⟩
  exact ⟨by decide +kernel, rfl, rfl, leafOk_deepening, by decide +kernel⟩

end Outscript.Taproot
