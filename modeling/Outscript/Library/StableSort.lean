import Mathlib.Data.List.Perm.Basic
import Mathlib.Tactic

/-!
# Stable sorting by repeated selection

A loop that finds the least key above the last one, and emits the items of that
key in the order in which they stand, sorts its items stably. A stably sorted
list is determined by the list it was made from.
-/
namespace StableSort

variable {α β κ : Type} [LinearOrder κ]

/-- `ys` is `xs` in ascending order of `key`, with the items of one key in the
order they had. -/
structure StablySorted (key : α → κ) (xs ys : List α) : Prop where
  sorted : ys.Pairwise (fun a b => key a ≤ key b)
  stable : ∀ k, ys.filter (fun a => key a = k) = xs.filter (fun a => key a = k)

/-- Keep the smaller of the candidates above `last`. -/
def consider (last next : Option κ) (k : κ) : Option κ :=
  if last.all (· < k) && next.all (k < ·) then some k else next

/-- The least of the keys above `last`. -/
def leastAbove (last : Option κ) (ks : List κ) : Option κ := ks.foldl (consider last) none

/-- Emit the group of every key, in ascending order. -/
def select (keys : List κ) (group : κ → List β) : Nat → Option κ → List β
  | 0, _ => []
  | fuel + 1, last =>
    match leastAbove last keys with
    | none => []
    | some k => group k ++ select keys group fuel (some k)

def sort (key : α → κ) (xs : List α) : List α :=
  select (xs.map key) (fun k => xs.filter (fun a => key a = k)) (xs.length + 1) none

namespace StablySorted

variable {key : α → κ} {xs ys zs : List α}

theorem mem_iff (h : StablySorted key xs ys) (a : α) : a ∈ ys ↔ a ∈ xs := by
  have hfilter : a ∈ ys.filter (fun b => key b = key a) ↔
      a ∈ xs.filter (fun b => key b = key a) := by rw [h.stable]
  simpa using hfilter

theorem perm (h : StablySorted key xs ys) : ys.Perm xs := by
  classical
  rw [List.perm_iff_count]
  intro a
  have hcount (l : List α) : (l.filter (fun b => key b = key a)).count a = l.count a :=
    List.count_filter (by simp)
  rw [← hcount ys, h.stable, hcount]

theorem refl_of_sorted (h : xs.Pairwise (fun a b => key a ≤ key b)) : StablySorted key xs xs :=
  ⟨h, fun _ => rfl⟩

theorem trans (h : StablySorted key xs ys) (h' : StablySorted key ys zs) :
    StablySorted key xs zs :=
  ⟨h'.sorted, fun k => (h'.stable k).trans (h.stable k)⟩

theorem head_le {a : α} (h : StablySorted key xs (a :: ys)) {b : α} (hb : b ∈ xs) :
    key a ≤ key b := by
  rcases List.mem_cons.mp ((h.mem_iff b).mpr hb) with rfl | hb
  · exact le_rfl
  · exact (List.pairwise_cons.mp h.sorted).1 b hb

/-- Two stably sorted forms of one list are the same. -/
theorem unique (h : StablySorted key xs ys) (h' : StablySorted key xs zs) : ys = zs := by
  induction ys generalizing xs zs with
  | nil =>
    have hxs : xs = [] := List.eq_nil_iff_forall_not_mem.mpr fun a ha => by
      simpa using (h.mem_iff a).mpr ha
    subst hxs
    exact (List.eq_nil_iff_forall_not_mem.mpr fun a ha => by simpa using (h'.mem_iff a).mp ha).symm
  | cons a ys ih =>
    cases zs with
    | nil => simpa using (h'.mem_iff a).mpr ((h.mem_iff a).mp List.mem_cons_self)
    | cons b zs =>
      have hab : key a ≤ key b := h.head_le ((h'.mem_iff b).mp List.mem_cons_self)
      have hba : key b ≤ key a := h'.head_le ((h.mem_iff a).mp List.mem_cons_self)
      have hkey : key b = key a := le_antisymm hba hab
      have hhead := (h.stable (key a)).trans (h'.stable (key a)).symm
      simp only [List.filter_cons, hkey, decide_true, if_true, List.cons.injEq] at hhead
      obtain ⟨rfl, -⟩ := hhead
      have htail : ∀ k, zs.filter (fun c => key c = k) = ys.filter (fun c => key c = k) := by
        intro k
        have hk := (h'.stable k).trans (h.stable k).symm
        simp only [List.filter_cons] at hk
        split_ifs at hk with hak
        · exact (List.cons.inj hk).2
        · exact hk
      rw [ih (refl_of_sorted (List.pairwise_cons.mp h.sorted).2)
        ⟨(List.pairwise_cons.mp h'.sorted).2, htail⟩]

end StablySorted

/-! ## The selection loop -/

/-- `k` comes after the keys already emitted. -/
def Above (last : Option κ) (k : κ) : Prop := ∀ l ∈ last, l < k

instance (last : Option κ) (k : κ) : Decidable (Above last k) :=
  decidable_of_iff (last.all (· < k) = true) (by cases last <;> simp [Above])

theorem consider_eq (last next : Option κ) (k : κ) :
    consider last next k = if Above last k ∧ ∀ n ∈ next, k < n then some k else next := by
  have hiff : (last.all (· < k) && next.all (k < ·)) = true ↔
      Above last k ∧ ∀ n ∈ next, k < n := by
    cases last <;> cases next <;> simp [Above]
  simp only [consider, hiff]

/-- What the search returns: the least key above `last`, if there is one. -/
def IsLeastAbove (last : Option κ) (ks : List κ) : Option κ → Prop
  | none => ∀ k ∈ ks, ¬ Above last k
  | some k => k ∈ ks ∧ Above last k ∧ ∀ j ∈ ks, Above last j → k ≤ j

theorem leastAbove_spec (last : Option κ) (ks : List κ) :
    IsLeastAbove last ks (leastAbove last ks) := by
  induction ks using List.reverseRecOn with
  | nil => simp [leastAbove, IsLeastAbove]
  | append_singleton ks k ih =>
    rw [leastAbove, List.foldl_append, List.foldl_cons, List.foldl_nil, ← leastAbove, consider_eq]
    cases hnext : leastAbove last ks with
    | none =>
      rw [hnext] at ih
      by_cases hk : Above last k
      · rw [if_pos ⟨hk, by simp⟩]
        refine ⟨by simp, hk, ?_⟩
        intro j hj hjl
        rcases List.mem_append.mp hj with hj | hj
        · exact absurd hjl (ih j hj)
        · exact (List.mem_singleton.mp hj).ge
      · rw [if_neg (fun h => hk h.1)]
        intro j hj
        rcases List.mem_append.mp hj with hj | hj
        · exact ih j hj
        · rw [List.mem_singleton.mp hj]
          exact hk
    | some n =>
      rw [hnext] at ih
      obtain ⟨hn, hnl, hmin⟩ := ih
      by_cases hk : Above last k ∧ k < n
      · rw [if_pos ⟨hk.1, by simpa using hk.2⟩]
        refine ⟨by simp, hk.1, ?_⟩
        intro j hj hjl
        rcases List.mem_append.mp hj with hj | hj
        · exact hk.2.le.trans (hmin j hj hjl)
        · exact (List.mem_singleton.mp hj).ge
      · rw [if_neg (by simpa using hk)]
        refine ⟨List.mem_append_left _ hn, hnl, ?_⟩
        intro j hj hjl
        rcases List.mem_append.mp hj with hj | hj
        · exact hmin j hj hjl
        · rw [List.mem_singleton.mp hj] at hjl ⊢
          exact not_lt.mp fun hlt => hk ⟨hjl, hlt⟩

/-- Emitting what each item of a group stands for. -/
theorem select_flatMap {γ : Type} (keys : List κ) (group : κ → List β) (f : β → List γ)
    (fuel : Nat) (last : Option κ) :
    select keys (fun k => (group k).flatMap f) fuel last =
      (select keys group fuel last).flatMap f := by
  induction fuel generalizing last with
  | zero => rfl
  | succ fuel ih =>
    rw [select, select]
    cases leastAbove last keys with
    | none => rfl
    | some k =>
      dsimp only
      rw [ih, List.flatMap_append]

/-- How many items are still to be emitted. -/
def pending (last : Option κ) (keys : List κ) : Nat :=
  (keys.filter (fun k => Above last k)).length

theorem pending_lt {last : Option κ} {keys : List κ} {k : κ} (hk : k ∈ keys)
    (hl : Above last k) : pending (some k) keys < pending last keys := by
  have hsub : (keys.filter (fun j => Above (some k) j)).Sublist
      (keys.filter (fun j => Above last j)) := by
    apply List.monotone_filter_right
    intro j hj
    simp only [decide_eq_true_eq] at hj ⊢
    exact fun l hlast => (hl l hlast).trans (hj k rfl)
  refine lt_of_le_of_ne hsub.length_le fun heq => ?_
  have hmem : k ∈ keys.filter (fun j => Above last j) := List.mem_filter.mpr ⟨hk, by simpa using hl⟩
  rw [← hsub.eq_of_length heq] at hmem
  have habove : Above (some k) k := by simpa using (List.mem_filter.mp hmem).2
  exact lt_irrefl k (habove k rfl)

variable {key : α → κ} {xs : List α}

theorem filter_key_eq_nil {l : List α} {k : κ} (h : ∀ a ∈ l, key a ≠ k) :
    l.filter (fun a => key a = k) = [] := by
  rw [List.filter_eq_nil_iff]
  intro a ha hak
  exact h a ha (by simpa using hak)

/-- The groups of the keys above `last`, each once, in ascending order. -/
theorem select_spec {fuel : Nat} {last : Option κ} (hfuel : pending last (xs.map key) < fuel) :
    let ys := select (xs.map key) (fun k => xs.filter (fun a => key a = k)) fuel last
    ys.Pairwise (fun a b => key a ≤ key b) ∧ (∀ a ∈ ys, Above last (key a)) ∧
      ∀ k, Above last k → ys.filter (fun a => key a = k) = xs.filter (fun a => key a = k) := by
  induction fuel generalizing last with
  | zero => exact absurd hfuel (Nat.not_lt_zero _)
  | succ fuel ih =>
    rw [select]
    have hspec := leastAbove_spec last (xs.map key)
    cases hleast : leastAbove last (xs.map key) with
    | none =>
      rw [hleast] at hspec
      refine ⟨List.Pairwise.nil, by simp, ?_⟩
      intro k hk
      rw [List.filter_nil, filter_key_eq_nil]
      intro a ha hak
      exact hspec k (List.mem_map.mpr ⟨a, ha, hak⟩) hk
    | some t =>
      rw [hleast] at hspec
      obtain ⟨ht, htl, hmin⟩ := hspec
      obtain ⟨hsorted, habove, hstable⟩ :=
        ih (Nat.lt_of_lt_of_le (pending_lt ht htl) (Nat.le_of_lt_succ hfuel))
      have hgroup : ∀ a ∈ xs.filter (fun a => key a = t), key a = t := by
        intro a ha
        simpa using (List.mem_filter.mp ha).2
      dsimp only
      refine ⟨List.pairwise_append.mpr ⟨?_, hsorted, ?_⟩, ?_, ?_⟩
      · exact List.pairwise_of_forall_mem_list fun a ha b hb => by rw [hgroup a ha, hgroup b hb]
      · intro a ha b hb
        rw [hgroup a ha]
        exact (habove b hb t rfl).le
      · intro a ha
        rcases List.mem_append.mp ha with ha | ha
        · rw [hgroup a ha]
          exact htl
        · exact fun l hlast => (htl l hlast).trans (habove a ha t rfl)
      · intro k hk
        rw [List.filter_append]
        rcases eq_or_ne k t with rfl | hkt
        · rw [filter_key_eq_nil fun a ha => (habove a ha k rfl).ne', List.append_nil,
            List.filter_eq_self.mpr fun a ha => by simpa using hgroup a ha]
        · rw [filter_key_eq_nil fun a ha hak => hkt (hak.symm.trans (hgroup a ha)),
            List.nil_append]
          by_cases hab : Above (some t) k
          · exact hstable k hab
          · have hleft : ∀ a ∈ select (xs.map key) (fun k => xs.filter (fun a => key a = k)) fuel
                (some t), key a ≠ k := fun a ha hak => hab (hak ▸ habove a ha)
            rw [filter_key_eq_nil hleft, filter_key_eq_nil]
            intro a ha hak
            have htk := hmin k (List.mem_map.mpr ⟨a, ha, hak⟩) hk
            exact hab fun l hlast => by
              rw [← Option.some.inj hlast]
              exact lt_of_le_of_ne htk hkt.symm

theorem sort_stablySorted (key : α → κ) (xs : List α) : StablySorted key xs (sort key xs) := by
  have hfuel : pending none (xs.map key) < xs.length + 1 := by
    have hle := List.length_filter_le (fun k => Above none k) (xs.map key)
    rw [List.length_map] at hle
    exact Nat.lt_succ_of_le hle
  obtain ⟨hsorted, -, hstable⟩ := select_spec hfuel
  exact ⟨hsorted, fun k => hstable k (by simp [Above])⟩

theorem sort_sort (key : α → κ) (xs : List α) : sort key (sort key xs) = sort key xs :=
  (sort_stablySorted key _).unique
    (StablySorted.refl_of_sorted (sort_stablySorted key xs).sorted)

end StableSort
