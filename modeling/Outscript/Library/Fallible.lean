import Mathlib.Data.List.Forall2
import Mathlib.Tactic

/-!
# Calls that may fail

Inversion of sequencing and of a loop that stops at the first failure.
-/
namespace Fallible

variable {ε α β : Type}

theorem bind_eq_ok {x : Except ε α} {f : α → Except ε β} {b : β} :
    (x >>= f) = .ok b ↔ ∃ a, x = .ok a ∧ f a = .ok b := by
  cases x <;> simp [bind, Except.bind]

theorem bind_eq_error {x : Except ε α} {f : α → Except ε β} {e : ε} :
    (x >>= f) = .error e ↔ x = .error e ∨ ∃ a, x = .ok a ∧ f a = .error e := by
  cases x <;> simp [bind, Except.bind]

@[simp] theorem ok_bind (a : α) (f : α → Except ε β) : (Except.ok a >>= f) = f a := rfl

@[simp] theorem error_bind (e : ε) (f : α → Except ε β) : (Except.error e >>= f) = .error e := rfl

theorem pure_eq_ok (a : α) : (pure a : Except ε α) = .ok a := rfl

def okOr (x : Option α) (e : ε) : Except ε α :=
  match x with
  | some a => .ok a
  | none => .error e

@[simp] theorem okOr_some (a : α) (e : ε) : okOr (some a) e = .ok a := rfl

theorem okOr_eq_ok {x : Option α} {e : ε} {a : α} : okOr x e = .ok a ↔ x = some a := by
  cases x <;> simp [okOr]

theorem mapError_eq_ok {ε' : Type} {f : ε → ε'} {x : Except ε α} {a : α} :
    x.mapError f = .ok a ↔ x = .ok a := by
  cases x <;> simp [Except.mapError]

theorem exists_ok_of_isOk {x : Except ε α} (h : x.isOk = true) : ∃ a, x = .ok a := by
  cases x with
  | error e => cases h
  | ok a => exact ⟨a, rfl⟩

section MapError

variable {ε' : Type} {g : ε → ε'}

theorem bind_mapError (x : Except ε α) (f : α → Except ε β) :
    (x >>= f).mapError g = x.mapError g >>= fun a => (f a).mapError g := by
  cases x <;> rfl

/-- A loop whose steps fail with the images of errors. -/
theorem foldlM_mapError {σ : Type} {f : σ → α → Except ε σ} {f' : σ → α → Except ε' σ} {l : List α}
    (h : ∀ s, ∀ a ∈ l, f' s a = (f s a).mapError g) (s : σ) :
    l.foldlM f' s = (l.foldlM f s).mapError g := by
  induction l generalizing s with
  | nil => rfl
  | cons a l ih =>
    rw [List.foldlM_cons, List.foldlM_cons, bind_mapError, h s a List.mem_cons_self]
    exact congrArg _ (funext fun s => ih (fun s b hb => h s b (List.mem_cons_of_mem a hb)) s)

end MapError

/-- A loop fails at the first step that does. -/
theorem foldlM_eq_error {σ : Type} {f : σ → α → Except ε σ} {l : List α} {s : σ} {e : ε} :
    l.foldlM f s = .error e ↔ ∃ front a rest s', l = front ++ a :: rest ∧
      front.foldlM f s = .ok s' ∧ f s' a = .error e := by
  induction l generalizing s with
  | nil =>
    refine iff_of_false (fun h => nomatch h) ?_
    rintro ⟨front, a, rest, s', h, -⟩
    cases front <;> cases h
  | cons b l ih =>
    rw [List.foldlM_cons, bind_eq_error]
    constructor
    · rintro (h | ⟨s₁, h₁, h⟩)
      · exact ⟨[], b, l, s, rfl, rfl, h⟩
      · obtain ⟨front, a, rest, s', rfl, hfront, ha⟩ := ih.mp h
        exact ⟨b :: front, a, rest, s', rfl, bind_eq_ok.mpr ⟨s₁, h₁, hfront⟩, ha⟩
    · rintro ⟨front, a, rest, s', h, hfront, ha⟩
      cases front with
      | nil =>
        cases h
        cases hfront
        exact Or.inl ha
      | cons c front =>
        cases h
        obtain ⟨s₁, h₁, hfront⟩ := bind_eq_ok.mp hfront
        exact Or.inr ⟨s₁, h₁, ih.mpr ⟨front, a, rest, s', rfl, hfront, ha⟩⟩

/-- A loop that collects its results succeeds exactly when each step does. -/
theorem mapM_eq_ok {f : α → Except ε β} {l : List α} {r : List β} :
    l.mapM f = .ok r ↔ List.Forall₂ (fun a b => f a = .ok b) l r := by
  induction l generalizing r with
  | nil => simp [pure_eq_ok, eq_comm]
  | cons a l ih =>
    rw [List.mapM_cons, bind_eq_ok]
    constructor
    · rintro ⟨b, hb, h⟩
      obtain ⟨bs, hbs, h⟩ := bind_eq_ok.mp h
      cases h
      exact List.Forall₂.cons hb (ih.mp hbs)
    · intro h
      cases h with
      | cons hb hbs => exact ⟨_, hb, bind_eq_ok.mpr ⟨_, ih.mpr hbs, rfl⟩⟩

theorem mapM_ok {f : α → Except ε β} {g : α → β} {l : List α}
    (h : ∀ a ∈ l, f a = .ok (g a)) : l.mapM f = .ok (l.map g) := by
  rw [mapM_eq_ok, List.forall₂_map_right_iff]
  exact List.forall₂_same.mpr h

theorem exists_of_mem_mapM {f : α → Except ε β} {l : List α} {r : List β}
    (h : l.mapM f = .ok r) {b : β} (hb : b ∈ r) : ∃ a ∈ l, f a = .ok b := by
  induction mapM_eq_ok.mp h with
  | nil => cases hb
  | cons ha _ ih =>
    rcases List.mem_cons.mp hb with rfl | hb
    · exact ⟨_, List.mem_cons_self, ha⟩
    · obtain ⟨a, hmem, ha⟩ := ih (mapM_eq_ok.mpr ‹_›) hb
      exact ⟨a, List.mem_cons_of_mem _ hmem, ha⟩

theorem ne_nil_of_mapM {f : α → Except ε β} {l : List α} {r : List β} (h : l.mapM f = .ok r)
    (hne : l ≠ []) : r ≠ [] := by
  have hlen := (mapM_eq_ok.mp h).length_eq
  rw [← List.length_pos_iff] at hne ⊢
  omega

/-- A loop of checks passes exactly when each check does. -/
theorem forM_eq_ok {f : α → Except ε Unit} {l : List α} :
    l.forM f = .ok () ↔ ∀ a ∈ l, f a = .ok () := by
  induction l with
  | nil => exact iff_of_true rfl (by simp)
  | cons a l ih =>
    rw [List.forall_mem_cons, ← ih]
    change (f a >>= fun _ => l.forM f) = _ ↔ _
    cases f a <;> simp

/-- A loop over a step that computes a function where it does not fail. -/
theorem mapM_eq_ok_map {f : α → Except ε β} {ok : α → Prop} {g : α → β}
    (h : ∀ a b, f a = .ok b ↔ ok a ∧ b = g a) {l : List α} {r : List β} :
    l.mapM f = .ok r ↔ (∀ a ∈ l, ok a) ∧ r = l.map g := by
  rw [mapM_eq_ok]
  induction l generalizing r with
  | nil => simp
  | cons a l ih =>
    cases r with
    | nil => simp
    | cons b r =>
      rw [List.forall₂_cons, ih, h]
      simp only [List.forall_mem_cons, List.map_cons, List.cons.injEq]
      tauto

/-- A loop passes exactly when each step does. -/
theorem exists_mapM_ok_iff {f : α → Except ε β} {l : List α} :
    (∃ r, l.mapM f = .ok r) ↔ ∀ a ∈ l, ∃ b, f a = .ok b := by
  induction l with
  | nil => exact iff_of_true ⟨[], rfl⟩ (by simp)
  | cons a l ih =>
    rw [List.forall_mem_cons, ← ih]
    simp only [mapM_eq_ok, List.forall₂_cons_left_iff]
    constructor
    · rintro ⟨_, b, r, hb, hr, rfl⟩
      exact ⟨⟨b, hb⟩, r, hr⟩
    · rintro ⟨⟨b, hb⟩, r, hr⟩
      exact ⟨_, b, r, hb, hr, rfl⟩

section Image

variable {γ : Type} {f : α → Except ε β} {g : β → γ}

theorem map_mapM (l : List α) : (l.mapM f).map (List.map g) = l.mapM fun a => (f a).map g := by
  induction l with
  | nil => rfl
  | cons a l ih =>
    rw [List.mapM_cons, List.mapM_cons, ← ih]
    cases f a with
    | error e => rfl
    | ok b => cases l.mapM f <;> rfl

/-- Two loops whose steps have the same images. -/
theorem map_mapM_congr {l l' : List α}
    (h : List.Forall₂ (fun a a' => (f a').map g = (f a).map g) l l') :
    (l'.mapM f).map (List.map g) = (l.mapM f).map (List.map g) := by
  rw [map_mapM, map_mapM]
  induction h with
  | nil => rfl
  | cons hhead _ ih => rw [List.mapM_cons, List.mapM_cons, hhead, ih]

/-- What comes next looks only at the image. -/
theorem bind_congr_of_map {x x' : Except ε β} {k : β → Except ε α} (h : x'.map g = x.map g)
    (hk : ∀ b b', g b' = g b → k b' = k b) : (x' >>= k) = (x >>= k) := by
  cases x with
  | error e =>
    cases x' with
    | error e' =>
      cases h
      rfl
    | ok b' => cases h
  | ok b =>
    cases x' with
    | error e' => cases h
    | ok b' => exact hk b b' (Except.ok.inj h)

end Image

end Fallible
