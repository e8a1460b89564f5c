import Mathlib.Tactic

/-!
# Full binary trees listed by their leaves

A full binary tree is listed from left to right, each leaf with its depth. A
shift-reduce parser with a stack of finished subtrees reads such listings back
and accepts nothing else. Along the way this module follows one leaf to the
root: the subtrees it meets are enough to compute the value of the whole tree.
-/
namespace LeafListing

variable {α β : Type}

inductive FullTree (α : Type) where
  | leaf (a : α)
  | node (l r : FullTree α)

namespace FullTree

def leaves : FullTree α → List α
  | leaf a => [a]
  | node l r => l.leaves ++ r.leaves

/-- The leaves of a subtree at depth `d`, each with its own depth. -/
def listing (d : ℕ) : FullTree α → List (ℕ × α)
  | leaf a => [(d, a)]
  | node l r => l.listing (d + 1) ++ r.listing (d + 1)

def fold (f : α → β) (g : β → β → β) : FullTree α → β
  | leaf a => f a
  | node l r => g (l.fold f g) (r.fold f g)

def contains (p : α → Bool) : FullTree α → Bool
  | leaf a => p a
  | node l r => l.contains p || r.contains p

/-- The values met beside the path from a chosen leaf up to the root. -/
def siblings (f : α → β) (g : β → β → β) (p : α → Bool) : FullTree α → List β
  | leaf _ => []
  | node l r =>
    if l.contains p then l.siblings f g p ++ [r.fold f g]
    else if r.contains p then r.siblings f g p ++ [l.fold f g]
    else []

def map (m : α → β) : FullTree α → FullTree β
  | leaf a => leaf (m a)
  | node l r => node (l.map m) (r.map m)

theorem fold_map {γ : Type} (m : α → β) (f : β → γ) (g : γ → γ → γ) (t : FullTree α) :
    (t.map m).fold f g = t.fold (fun a => f (m a)) g := by
  induction t with
  | leaf a => rfl
  | node l r ihl ihr => rw [map, fold, fold, ihl, ihr]

theorem siblings_eq_nil {f : α → β} {g : β → β → β} {p : α → Bool} {t : FullTree α}
    (h : t.contains p = false) : t.siblings f g p = [] := by
  cases t with
  | leaf a => rfl
  | node l r =>
    rw [contains, Bool.or_eq_false_iff] at h
    simp [siblings, h.1, h.2]

theorem map_snd_listing (d : ℕ) (t : FullTree α) : (t.listing d).map Prod.snd = t.leaves := by
  induction t generalizing d with
  | leaf a => rfl
  | node l r ihl ihr => rw [listing, List.map_append, ihl, ihr, leaves]

theorem le_of_mem_listing {d : ℕ} {t : FullTree α} {x : ℕ × α} (h : x ∈ t.listing d) :
    d ≤ x.1 := by
  induction t generalizing d with
  | leaf a =>
    rw [listing, List.mem_singleton] at h
    rw [h]
  | node l r ihl ihr =>
    rcases List.mem_append.mp h with h | h
    · exact (Nat.le_succ d).trans (ihl h)
    · exact (Nat.le_succ d).trans (ihr h)

theorem listing_ne_nil (d : ℕ) (t : FullTree α) : t.listing d ≠ [] := by
  induction t generalizing d with
  | leaf a => exact List.cons_ne_nil _ _
  | node l r ihl _ => exact fun h => ihl (d + 1) (List.append_eq_nil_iff.mp h).1

theorem contains_iff {p : α → Bool} {t : FullTree α} :
    t.contains p = true ↔ ∃ a ∈ t.leaves, p a = true := by
  induction t with
  | leaf a => simp [contains, leaves]
  | node l r ihl ihr =>
    simp only [contains, leaves, Bool.or_eq_true, ihl, ihr, List.mem_append]
    constructor
    · rintro (⟨a, ha, hp⟩ | ⟨a, ha, hp⟩)
      · exact ⟨a, Or.inl ha, hp⟩
      · exact ⟨a, Or.inr ha, hp⟩
    · rintro ⟨a, ha | ha, hp⟩
      · exact Or.inl ⟨a, ha, hp⟩
      · exact Or.inr ⟨a, ha, hp⟩

/-- Climbing from a leaf, one sibling at a time, gives the value of the tree,
and takes as many steps as the leaf is deep. -/
theorem climb {f : α → β} {g : β → β → β} (hcomm : ∀ x y, g x y = g y x) {p : α → Bool}
    {t : FullTree α} (d : ℕ) (h : t.contains p = true) :
    ∃ a, p a = true ∧ (d + (t.siblings f g p).length, a) ∈ t.listing d ∧
      (t.siblings f g p).foldl g (f a) = t.fold f g := by
  induction t generalizing d with
  | leaf a => exact ⟨a, h, List.mem_singleton.mpr rfl, rfl⟩
  | node l r ihl ihr =>
    by_cases hl : l.contains p = true
    · obtain ⟨a, hp, hmem, hfold⟩ := ihl (d + 1) hl
      refine ⟨a, hp, ?_, ?_⟩
      · rw [siblings, if_pos hl, List.length_append, List.length_singleton, listing]
        exact List.mem_append_left _ (by convert hmem using 2; omega)
      · rw [siblings, if_pos hl, List.foldl_append, hfold]
        rfl
    · have hr : r.contains p = true := by simpa [contains, hl] using h
      obtain ⟨a, hp, hmem, hfold⟩ := ihr (d + 1) hr
      refine ⟨a, hp, ?_, ?_⟩
      · rw [siblings, if_neg hl, if_pos hr, List.length_append, List.length_singleton, listing]
        exact List.mem_append_right _ (by convert hmem using 2; omega)
      · rw [siblings, if_neg hl, if_pos hr, List.foldl_append, hfold, List.foldl_cons,
          List.foldl_nil, hcomm]
        rfl

/-- How far below the root a chosen leaf is. -/
def rise (p : α → Bool) : FullTree α → ℕ
  | leaf _ => 0
  | node l r => if l.contains p then l.rise p + 1 else if r.contains p then r.rise p + 1 else 0

theorem length_siblings (f : α → β) (g : β → β → β) (p : α → Bool) (t : FullTree α) :
    (t.siblings f g p).length = t.rise p := by
  induction t with
  | leaf a => rfl
  | node l r ihl ihr =>
    rw [siblings, rise]
    split_ifs
    · rw [List.length_append, ihl, List.length_singleton]
    · rw [List.length_append, ihr, List.length_singleton]
    · rfl

/-- The pairs of values that are combined in a tree. -/
def pairs (f : α → β) (g : β → β → β) : FullTree α → List (β × β)
  | leaf _ => []
  | node l r => (l.fold f g, r.fold f g) :: (l.pairs f g ++ r.pairs f g)

theorem leaves_map (m : α → β) (t : FullTree α) : (t.map m).leaves = t.leaves.map m := by
  induction t with
  | leaf a => rfl
  | node l r ihl ihr => rw [map, leaves, leaves, ihl, ihr, List.map_append]

theorem pairs_map {γ : Type} (m : α → β) (f : β → γ) (g : γ → γ → γ) (t : FullTree α) :
    (t.map m).pairs f g = t.pairs (fun a => f (m a)) g := by
  induction t with
  | leaf a => rfl
  | node l r ihl ihr => rw [map, pairs, pairs, ihl, ihr, fold_map, fold_map]

/-- The pairs of values that are combined on a climb. -/
def climbPairs (g : β → β → β) (x : β) : List β → List (β × β)
  | [] => []
  | s :: path => (x, s) :: climbPairs g (g x s) path

theorem climbPairs_append (g : β → β → β) (x : β) (path path' : List β) :
    climbPairs g x (path ++ path') = climbPairs g x path ++ climbPairs g (path.foldl g x) path' := by
  induction path generalizing x with
  | nil => rfl
  | cons s path ih => simp [climbPairs, ih]

/-- A climb that ends in the value of a tree starts from one of its leaves and
goes by the leaf's siblings, if no two different combinations have one value. -/
theorem exists_leaf_of_climb {f : α → β} {g : β → β → β} {t : FullTree α} {x : β} {path : List β}
    (hnodup : t.leaves.Nodup)
    (hstart : ∀ u ∈ t.pairs f g, x ≠ g u.1 u.2)
    (hleaf : ∀ u ∈ climbPairs g x path, ∀ a ∈ t.leaves, g u.1 u.2 ≠ f a)
    (hpair : ∀ u ∈ climbPairs g x path, ∀ v ∈ t.pairs f g, g u.1 u.2 = g v.1 v.2 →
      u = v ∨ u = v.swap)
    (h : path.foldl g x = t.fold f g) :
    ∃ a ∈ t.leaves, x = f a ∧ ∀ p : α → Bool, p a = true →
      (∀ b ∈ t.leaves, p b = true → b = a) → path = t.siblings f g p := by
  induction t generalizing path with
  | leaf a =>
    rcases List.eq_nil_or_concat path with rfl | ⟨path', s, rfl⟩
    · exact ⟨a, by simp [leaves], h, fun _ _ _ => rfl⟩
    · rw [List.concat_eq_append, List.foldl_append] at h
      have hmem : (path'.foldl g x, s) ∈ climbPairs g x (path'.concat s) := by
        rw [List.concat_eq_append, climbPairs_append]
        exact List.mem_append_right _ (by simp [climbPairs])
      exact absurd h (hleaf _ hmem a (by simp [leaves]))
  | node l r ihl ihr =>
    rcases List.eq_nil_or_concat path with rfl | ⟨path', s, rfl⟩
    · exact absurd h (hstart (l.fold f g, r.fold f g) (by simp [pairs]))
    rw [leaves, List.nodup_append] at hnodup
    obtain ⟨hnodupl, hnodupr, hdisjoint⟩ := hnodup
    rw [List.concat_eq_append] at h hleaf hpair ⊢
    rw [List.foldl_append, List.foldl_cons, List.foldl_nil, fold] at h
    have hmem : (path'.foldl g x, s) ∈ climbPairs g x (path' ++ [s]) := by
      rw [climbPairs_append]
      exact List.mem_append_right _ (by simp [climbPairs])
    have hsub : ∀ u ∈ climbPairs g x path', u ∈ climbPairs g x (path' ++ [s]) := by
      intro u hu
      rw [climbPairs_append]
      exact List.mem_append_left _ hu
    have hl : ∀ v ∈ l.pairs f g, v ∈ (node l r).pairs f g := by
      intro v hv
      simp [pairs, hv]
    have hr : ∀ v ∈ r.pairs f g, v ∈ (node l r).pairs f g := by
      intro v hv
      simp [pairs, hv]
    have hlr : ∀ a, a ∈ l.leaves → a ∈ (node l r).leaves := fun a ha => by simp [leaves, ha]
    have hrr : ∀ a, a ∈ r.leaves → a ∈ (node l r).leaves := fun a ha => by simp [leaves, ha]
    rcases hpair _ hmem (l.fold f g, r.fold f g) (by simp [pairs]) h with heq | heq
    · -- the climb comes up from the left
      obtain ⟨hfold, hs⟩ := Prod.mk.injEq .. ▸ heq
      obtain ⟨a, ha, hx, hpath⟩ := ihl hnodupl (fun u hu => hstart u (hl u hu))
        (fun u hu a ha => hleaf u (hsub u hu) a (hlr a ha))
        (fun u hu v hv => hpair u (hsub u hu) v (hl v hv)) hfold
      refine ⟨a, hlr a ha, hx, fun p hp hunique => ?_⟩
      have hcontains : l.contains p = true := contains_iff.mpr ⟨a, ha, hp⟩
      rw [siblings, if_pos hcontains, hs, ← hpath p hp fun b hb => hunique b (hlr b hb)]
    · -- the climb comes up from the right
      obtain ⟨hfold, hs⟩ := Prod.mk.injEq .. ▸ heq
      obtain ⟨a, ha, hx, hpath⟩ := ihr hnodupr (fun u hu => hstart u (hr u hu))
        (fun u hu a ha => hleaf u (hsub u hu) a (hrr a ha))
        (fun u hu v hv => hpair u (hsub u hu) v (hr v hv)) hfold
      refine ⟨a, hrr a ha, hx, fun p hp hunique => ?_⟩
      have hcontains : r.contains p = true := contains_iff.mpr ⟨a, ha, hp⟩
      have hnot : ¬ l.contains p = true := by
        rw [contains_iff]
        rintro ⟨b, hb, hpb⟩
        exact hdisjoint b hb a ha (hunique b (hlr b hb) hpb)
      rw [siblings, if_neg hnot, if_pos hcontains, hs, ← hpath p hp fun b hb => hunique b (hrr b hb)]

end FullTree

open FullTree

/-- A finished subtree and its depth. -/
abbrev Entry (α : Type) := ℕ × FullTree α

/-- Two finished subtrees at one depth become their parent. A root has no
parent. -/
def reduce (top : Entry α) : List (Entry α) → Option (List (Entry α))
  | [] => some [top]
  | a :: rest =>
    if top.1 = a.1 then
      if a.1 = 0 then none else reduce (a.1 - 1, .node a.2 top.2) rest
    else some (top :: a :: rest)

/-- Read one more leaf, which never stands above an unfinished subtree. -/
def shift (stack : List (Entry α)) (x : ℕ × α) : Option (List (Entry α)) :=
  match stack with
  | [] => reduce (x.1, .leaf x.2) []
  | e :: rest => if x.1 < e.1 then none else reduce (x.1, .leaf x.2) (e :: rest)

/-- A stack of depth at most `d` on top takes a leaf of depth `d`. -/
def Below (d : ℕ) (stack : List (Entry α)) : Prop := ∀ e ∈ stack.head?, e.1 ≤ d

theorem shift_eq {stack : List (Entry α)} {x : ℕ × α} (h : Below x.1 stack) :
    shift stack x = reduce (x.1, .leaf x.2) stack := by
  cases stack with
  | nil => rfl
  | cons e rest => exact if_neg (not_lt.mpr (h e rfl))

theorem shift_eq_some {stack s : List (Entry α)} {x : ℕ × α} (h : shift stack x = some s) :
    Below x.1 stack ∧ reduce (x.1, .leaf x.2) stack = some s := by
  cases stack with
  | nil => exact ⟨by simp [Below], h⟩
  | cons e rest =>
    rw [shift] at h
    split_ifs at h with hlt
    exact ⟨by simpa [Below] using hlt, h⟩

def run (stack : List (Entry α)) (xs : List (ℕ × α)) : Option (List (Entry α)) :=
  xs.foldlM shift stack

theorem run_cons (stack : List (Entry α)) (x : ℕ × α) (xs : List (ℕ × α)) :
    run stack (x :: xs) = (shift stack x).bind (fun s => run s xs) := rfl

theorem run_append (stack : List (Entry α)) (xs ys : List (ℕ × α)) :
    run stack (xs ++ ys) = (run stack xs).bind (fun s => run s ys) :=
  List.foldlM_append

/-- The leaves on a stack, from the bottom up. -/
def content (stack : List (Entry α)) : List (ℕ × α) :=
  stack.reverse.flatMap (fun e => e.2.listing e.1)

theorem content_cons (e : Entry α) (stack : List (Entry α)) :
    content (e :: stack) = content stack ++ e.2.listing e.1 := by
  simp [content]

theorem content_reduce {top : Entry α} {stack s : List (Entry α)}
    (h : reduce top stack = some s) : content s = content stack ++ top.2.listing top.1 := by
  induction stack generalizing top with
  | nil =>
    cases h
    exact content_cons _ _
  | cons a rest ih =>
    rw [reduce] at h
    split_ifs at h with heq hz
    · have hsucc : a.1 - 1 + 1 = a.1 := Nat.succ_pred_eq_of_ne_zero hz
      rw [ih h, content_cons, FullTree.listing, heq, hsucc, List.append_assoc]
    · cases h
      exact content_cons _ _

/-- Nothing is lost and nothing is added. -/
theorem content_run {stack s : List (Entry α)} {xs : List (ℕ × α)}
    (h : run stack xs = some s) : content s = content stack ++ xs := by
  induction xs generalizing stack with
  | nil =>
    cases h
    exact (List.append_nil _).symm
  | cons x xs ih =>
    rw [run_cons] at h
    obtain ⟨s₁, h₁, h₂⟩ := Option.bind_eq_some_iff.mp h
    rw [ih h₂, content_reduce (shift_eq_some h₁).2, List.append_assoc]
    rfl

/-- Reading the listing of a subtree amounts to pushing it in one step. -/
theorem run_listing (t : FullTree α) {d : ℕ} {s : List (Entry α)} (h : Below d s) :
    run s (t.listing d) = reduce (d, t) s := by
  induction t generalizing d s with
  | leaf a =>
    rw [FullTree.listing, run_cons, shift_eq h]
    cases reduce (d, FullTree.leaf a) s <;> rfl
  | node l r ihl ihr =>
    have hpush : reduce (d + 1, l) s = some ((d + 1, l) :: s) := by
      cases s with
      | nil => rfl
      | cons e rest =>
        have hle : e.1 ≤ d := h e rfl
        rw [reduce, if_neg (by dsimp only; omega)]
    have hl := ihl (d := d + 1) (s := s) (fun e he => (h e he).trans (Nat.le_succ d))
    have hr := ihr (d := d + 1) (s := (d + 1, l) :: s) (by simp [Below])
    rw [FullTree.listing, run_append, hl, hpush, Option.bind_some, hr, reduce, if_pos rfl,
      if_neg (Nat.succ_ne_zero d)]
    rfl

/-- A listing is accepted exactly when it is one of a tree, and then the tree
is read back. -/
theorem run_eq_root {xs : List (ℕ × α)} {t : FullTree α} :
    run [] xs = some [(0, t)] ↔ xs = t.listing 0 := by
  constructor
  · intro h
    have hc := content_run h
    rw [content_cons] at hc
    simpa [content] using hc.symm
  · rintro rfl
    rw [run_listing t (by simp [Below])]
    rfl

/-- The shape of a tree is read from the depths alone. -/
def mapEntry (m : α → β) (e : Entry α) : Entry β := (e.1, e.2.map m)

theorem reduce_map (m : α → β) (top : Entry α) (stack : List (Entry α)) :
    reduce (mapEntry m top) (stack.map (mapEntry m)) =
      (reduce top stack).map (List.map (mapEntry m)) := by
  induction stack generalizing top with
  | nil => rfl
  | cons a rest ih =>
    simp only [reduce, List.map_cons, mapEntry]
    split_ifs with heq hz
    · rfl
    · exact ih (a.1 - 1, .node a.2 top.2)
    · rfl

theorem shift_map (m : α → β) (stack : List (Entry α)) (x : ℕ × α) :
    shift (stack.map (mapEntry m)) (x.1, m x.2) =
      (shift stack x).map (List.map (mapEntry m)) := by
  cases stack with
  | nil => rfl
  | cons e rest =>
    simp only [shift, List.map_cons, mapEntry]
    split_ifs with h
    · rfl
    · exact reduce_map m (x.1, .leaf x.2) (e :: rest)

theorem run_map (m : α → β) (stack : List (Entry α)) (xs : List (ℕ × α)) :
    run (stack.map (mapEntry m)) (xs.map (fun x => (x.1, m x.2))) =
      (run stack xs).map (List.map (mapEntry m)) := by
  induction xs generalizing stack with
  | nil => rfl
  | cons x xs ih =>
    rw [List.map_cons, run_cons, run_cons, shift_map]
    cases shift stack x with
    | none => rfl
    | some s => exact ih s

/-! ## The stack of a run -/

/-- Depths strictly increase up the stack. -/
def Descending (stack : List (Entry α)) : Prop := stack.Pairwise (fun a b => b.1 < a.1)

theorem descending_reduce {top : Entry α} {stack s : List (Entry α)}
    (hd : Descending stack) (hb : Below top.1 stack) (h : reduce top stack = some s) :
    Descending s := by
  induction stack generalizing top with
  | nil =>
    cases h
    exact List.pairwise_singleton _ _
  | cons a rest ih =>
    obtain ⟨ha, hrest⟩ := List.pairwise_cons.mp hd
    rw [reduce] at h
    split_ifs at h with heq hz
    · refine ih hrest (fun e he => ?_) h
      have := ha e (List.mem_of_mem_head? he)
      dsimp only
      omega
    · cases h
      have hlt : a.1 < top.1 := lt_of_le_of_ne (hb a rfl) (Ne.symm heq)
      refine List.pairwise_cons.mpr ⟨fun e he => ?_, hd⟩
      rcases List.mem_cons.mp he with rfl | he
      · exact hlt
      · exact (ha e he).trans hlt

theorem descending_shift {stack s : List (Entry α)} {x : ℕ × α} (hd : Descending stack)
    (h : shift stack x = some s) : Descending s :=
  descending_reduce hd (shift_eq_some h).1 (shift_eq_some h).2

theorem descending_run {stack s : List (Entry α)} {xs : List (ℕ × α)} (hd : Descending stack)
    (h : run stack xs = some s) : Descending s := by
  induction xs generalizing stack with
  | nil =>
    cases h
    exact hd
  | cons x xs ih =>
    rw [run_cons] at h
    obtain ⟨s₁, h₁, h₂⟩ := Option.bind_eq_some_iff.mp h
    exact ih (descending_shift hd h₁) h₂

/-- No subtree is rooted deeper than its leaves are. -/
theorem below_of_content {stack : List (Entry α)} {n : ℕ} (h : ∀ x ∈ content stack, x.1 ≤ n) :
    Below n stack := by
  intro e he
  obtain ⟨x, hx⟩ := List.exists_mem_of_ne_nil _ (FullTree.listing_ne_nil e.1 e.2)
  have hmem : x ∈ content stack := List.mem_flatMap.mpr
    ⟨e, List.mem_reverse.mpr (List.mem_of_mem_head? he), hx⟩
  exact (FullTree.le_of_mem_listing hx).trans (h x hmem)

/-- There is one entry at most for each depth. -/
theorem length_le_of_descending {stack : List (Entry α)} (hd : Descending stack) {n : ℕ}
    (hb : Below n stack) : stack.length ≤ n + 1 := by
  induction stack generalizing n with
  | nil => exact Nat.zero_le _
  | cons a rest ih =>
    obtain ⟨ha, hrest⟩ := List.pairwise_cons.mp hd
    have han : a.1 ≤ n := hb a rfl
    cases rest with
    | nil => simp
    | cons e rest =>
      have hea : e.1 < a.1 := ha e List.mem_cons_self
      have hbelow : Below (n - 1) (e :: rest) := by
        simp only [Below, List.head?_cons, Option.mem_some_iff, forall_eq']
        omega
      have hle := ih hrest hbelow
      rw [List.length_cons]
      omega

/-- A stack that takes a leaf has no entry for one of the depths down to that leaf's. -/
theorem length_le_of_reduce {top : Entry α} {stack s : List (Entry α)} (hd : Descending stack)
    (hb : Below top.1 stack) (h : reduce top stack = some s) : stack.length ≤ top.1 := by
  induction stack generalizing top with
  | nil => exact Nat.zero_le _
  | cons a rest ih =>
    obtain ⟨ha, hrest⟩ := List.pairwise_cons.mp hd
    have hbelow : Below (a.1 - 1) rest := fun e he =>
      Nat.le_sub_one_of_lt (ha e (List.mem_of_mem_head? he))
    have hle : a.1 ≤ top.1 := hb a rfl
    rw [reduce] at h
    split_ifs at h with heq hz
    · have hlen : rest.length ≤ a.1 - 1 := ih hrest hbelow h
      rw [List.length_cons]
      omega
    · have hlen := length_le_of_descending hd (n := a.1) (by simp [Below])
      omega

/-! ## Listings that fill a stack -/

/-- Listings of trees in a row, each one deeper than the one before. -/
def staircase (d : ℕ) : List (FullTree α) → List (ℕ × α)
  | [] => []
  | t :: ts => t.listing d ++ staircase (d + 1) ts

/-- The entries of trees in a row, each one deeper than the one before. -/
def stairs (d : ℕ) : List (FullTree α) → List (Entry α)
  | [] => []
  | t :: ts => (d, t) :: stairs (d + 1) ts

theorem map_stairs (f : FullTree α → β) (d : ℕ) (ts : List (FullTree α)) :
    (stairs d ts).map (fun e => f e.2) = ts.map f := by
  induction ts generalizing d with
  | nil => rfl
  | cons t ts ih => rw [stairs, List.map_cons, List.map_cons, ih]

theorem length_stairs (d : ℕ) (ts : List (FullTree α)) : (stairs d ts).length = ts.length := by
  induction ts generalizing d with
  | nil => rfl
  | cons t ts ih => rw [stairs, List.length_cons, List.length_cons, ih]

theorem content_stairs (d : ℕ) (ts : List (FullTree α)) :
    content (stairs d ts).reverse = staircase d ts := by
  induction ts generalizing d with
  | nil => rfl
  | cons t ts ih =>
    have h := ih (d + 1)
    rw [content, List.reverse_reverse] at h ⊢
    rw [stairs, staircase, List.flatMap_cons, h]

/-- Reading trees that stand ever deeper stacks them all. -/
theorem run_staircase {d : ℕ} {s : List (Entry α)} (ts : List (FullTree α))
    (h : ∀ e ∈ s.head?, e.1 < d) : run s (staircase d ts) = some ((stairs d ts).reverse ++ s) := by
  induction ts generalizing d s with
  | nil => rfl
  | cons t ts ih =>
    have hpush : reduce (d, t) s = some ((d, t) :: s) := by
      cases s with
      | nil => rfl
      | cons e rest =>
        have hlt : e.1 < d := h e rfl
        rw [reduce, if_neg (by dsimp only; omega)]
    rw [staircase, run_append, run_listing t (fun e he => (h e he).le), hpush, Option.bind_some,
      ih (by simp), stairs, List.reverse_cons, List.append_assoc]
    rfl

/-- A stack with an entry for each depth. -/
theorem exists_stairs {n : ℕ} {stack : List (Entry α)} (hd : Descending stack) (hb : Below n stack)
    (hlen : stack.length = n + 1) : ∃ ts, ts.length = n + 1 ∧ stack = (stairs 0 ts).reverse := by
  have hsnoc (d : ℕ) (ts : List (FullTree α)) (t : FullTree α) :
      stairs d (ts ++ [t]) = stairs d ts ++ [(d + ts.length, t)] := by
    induction ts generalizing d with
    | nil => rfl
    | cons u ts ih =>
      rw [List.cons_append, stairs, ih, stairs, List.length_cons, List.cons_append, Nat.add_assoc,
        Nat.add_comm 1]
  induction n generalizing stack with
  | zero =>
    obtain ⟨⟨d, t⟩, rfl⟩ := List.length_eq_one_iff.mp hlen
    obtain rfl : d = 0 := Nat.le_zero.mp (hb (d, t) rfl)
    exact ⟨[t], rfl, rfl⟩
  | succ n ih =>
    cases stack with
    | nil => cases hlen
    | cons a rest =>
      obtain ⟨ha, hrest⟩ := List.pairwise_cons.mp hd
      have han : a.1 ≤ n + 1 := hb a rfl
      have hbelow : Below (a.1 - 1) rest := fun e he =>
        Nat.le_sub_one_of_lt (ha e (List.mem_of_mem_head? he))
      have hrestlen : rest.length = n + 1 := Nat.succ.inj hlen
      have hbound := length_le_of_descending hrest hbelow
      have hpos : 0 < a.1 := (Nat.zero_le _).trans_lt
        (ha _ (List.getElem_mem (l := rest) (n := 0) (by omega)))
      obtain ⟨ts, hts, rfl⟩ := ih hrest (fun e he => (hbelow e he).trans (by omega)) hrestlen
      refine ⟨ts ++ [a.2], by rw [List.length_append, hts]; rfl, ?_⟩
      rw [hsnoc, List.reverse_append, hts, Nat.zero_add, show n + 1 = a.1 by omega]
      rfl

end LeafListing
