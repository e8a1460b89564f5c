import Outscript.Library.Fallible

/-!
# Loops that thread a state

A loop that collects the results of steps on a state: its runs, step by step,
and the steps at which it can fail. A call keeps what it did to the state also
when it fails.
-/
namespace StateLoop

open Fallible

variable {α β γ σ ε : Type}

/-- A run of steps, one for each element, from a state to a state. -/
inductive Runs (R : α → σ → β → σ → Prop) : List α → σ → List β → σ → Prop
  | nil (s : σ) : Runs R [] s [] s
  | cons {a : α} {as : List α} {b : β} {bs : List β} {s s₁ s₂ : σ} (head : R a s b s₁)
      (tail : Runs R as s₁ bs s₂) : Runs R (a :: as) s (b :: bs) s₂

/-- A step that succeeds. -/
def Step (f : α → StateT σ (Except ε) β) (a : α) (s : σ) (b : β) (s' : σ) : Prop :=
  (f a).run s = .ok (b, s')

theorem run_mapM_cons {f : α → StateT σ (Except ε) β} (a : α) (as : List α) (s : σ) :
    ((a :: as).mapM f).run s = (f a).run s >>= fun bs₁ =>
      (as.mapM f).run bs₁.2 >>= fun bss => .ok (bs₁.1 :: bss.1, bss.2) := by
  rw [List.mapM_cons, StateT.run_bind]
  rfl

theorem run_mapM_eq_ok {f : α → StateT σ (Except ε) β} {as : List α} {bs : List β} {s s' : σ} :
    (as.mapM f).run s = .ok (bs, s') ↔ Runs (Step f) as s bs s' := by
  induction as generalizing s bs with
  | nil =>
    constructor
    · intro h
      cases h
      exact Runs.nil _
    · rintro ⟨⟩
      rfl
  | cons a as ih =>
    rw [run_mapM_cons, bind_eq_ok]
    constructor
    · rintro ⟨⟨b, s₁⟩, hb, h⟩
      obtain ⟨⟨bs', s₂⟩, hbs, h⟩ := bind_eq_ok.mp h
      cases h
      exact Runs.cons hb (ih.mp hbs)
    · rintro (_ | ⟨hb, hbs⟩)
      exact ⟨_, hb, bind_eq_ok.mpr ⟨_, ih.mpr hbs, rfl⟩⟩

/-- What each step of a run gives, where all that it gives is of one form. -/
theorem Runs.exists_map {R : α → σ → β → σ → Prop} {Q : α → γ → Prop} {e : γ → β} {as : List α}
    {bs : List β} {s s' : σ} (hr : Runs R as s bs s')
    (h : ∀ a ∈ as, ∀ s b s', R a s b s' → ∃ c, b = e c ∧ Q a c) :
    ∃ cs, bs = cs.map e ∧ List.Forall₂ Q as cs := by
  induction hr with
  | nil s => exact ⟨[], rfl, List.Forall₂.nil⟩
  | cons head _ ih =>
    obtain ⟨ha, has⟩ := List.forall_mem_cons.mp h
    obtain ⟨c, rfl, hc⟩ := ha _ _ _ head
    obtain ⟨cs, rfl, hcs⟩ := ih has
    exact ⟨c :: cs, rfl, List.Forall₂.cons hc hcs⟩

/-- A measure that no step decreases. -/
theorem Runs.measure_le {R : α → σ → β → σ → Prop} {μ : σ → Nat} {as : List α} {bs : List β}
    {s s' : σ} (hr : Runs R as s bs s') (h : ∀ a ∈ as, ∀ t b t', R a t b t' → μ t ≤ μ t') :
    μ s ≤ μ s' := by
  induction hr with
  | nil s => exact le_rfl
  | cons head _ ih =>
    obtain ⟨ha, has⟩ := List.forall_mem_cons.mp h
    exact (ha _ _ _ head).trans (ih has)

/-- Along a run, such a measure stays below its value at the end. -/
theorem Runs.bounded {R : α → σ → β → σ → Prop} {μ : σ → Nat} {as : List α} {bs : List β}
    {s s' : σ} (hr : Runs R as s bs s') (h : ∀ a ∈ as, ∀ t b t', R a t b t' → μ t ≤ μ t') :
    Runs (fun a t b t' => R a t b t' ∧ μ t' ≤ μ s') as s bs s' := by
  induction hr with
  | nil s => exact Runs.nil s
  | cons head tail ih =>
    obtain ⟨-, has⟩ := List.forall_mem_cons.mp h
    exact Runs.cons ⟨head, tail.measure_le has⟩ (ih has)

/-- A loop fails in one of its steps. -/
theorem exists_of_run_mapM_eq_error {f : α → StateT σ (Except ε) β} {as : List α} {s : σ} {e : ε}
    (h : (as.mapM f).run s = .error e) : ∃ a ∈ as, ∃ s₁, (f a).run s₁ = .error e := by
  induction as generalizing s with
  | nil => cases h
  | cons a as ih =>
    rw [run_mapM_cons, bind_eq_error] at h
    rcases h with h | ⟨⟨b, s₁⟩, -, h⟩
    · exact ⟨a, List.mem_cons_self, s, h⟩
    · rcases bind_eq_error.mp h with h | ⟨bss, -, h⟩
      · obtain ⟨a', ha', s₂, h'⟩ := ih h
        exact ⟨a', List.mem_cons_of_mem _ ha', s₂, h'⟩
      · cases h

/-- A loop over steps that compute a function and count some of them. -/
theorem run_mapM_eq_ok_map {f : α → StateT Nat (Except ε) β} {ok : α → Prop} {g : α → β}
    {counted : α → Bool} {as : List α}
    (h : ∀ a ∈ as, ∀ s b s', (f a).run s = .ok (b, s') ↔
      ok a ∧ b = g a ∧ s' = s + (counted a).toNat)
    {bs : List β} {s s' : Nat} :
    (as.mapM f).run s = .ok (bs, s') ↔
      (∀ a ∈ as, ok a) ∧ bs = as.map g ∧ s' = s + as.countP counted := by
  induction as generalizing s bs with
  | nil =>
    have hnil : (([] : List α).mapM f).run s = .ok ([], s) := rfl
    rw [hnil, Except.ok.injEq, Prod.mk.injEq]
    simp [eq_comm]
  | cons a as ih =>
    obtain ⟨ha, has⟩ := List.forall_mem_cons.mp h
    have hcount : s + (a :: as).countP counted = s + (counted a).toNat + as.countP counted := by
      cases hc : counted a with
      | false => rw [List.countP_cons_of_neg (by simp [hc])]; rfl
      | true =>
        rw [List.countP_cons_of_pos hc, Bool.toNat_true]
        omega
    rw [run_mapM_cons, bind_eq_ok, List.forall_mem_cons, List.map_cons, hcount]
    constructor
    · rintro ⟨⟨b, s₁⟩, hb, h⟩
      obtain ⟨⟨bs', s₂⟩, hbs, h⟩ := bind_eq_ok.mp h
      cases h
      obtain ⟨hok, rfl, rfl⟩ := (ha s b s₁).mp hb
      obtain ⟨hoks, rfl, rfl⟩ := (ih has).mp hbs
      exact ⟨⟨hok, hoks⟩, rfl, rfl⟩
    · rintro ⟨⟨hok, hoks⟩, rfl, rfl⟩
      exact ⟨_, (ha s _ _).mpr ⟨hok, rfl, rfl⟩,
        bind_eq_ok.mpr ⟨_, (ih has).mpr ⟨hoks, rfl, rfl⟩, rfl⟩⟩

end StateLoop

/-- A call that leaves a state, whether it fails or not. -/
def Call (σ ε α : Type) := σ → Except ε α × σ

namespace Call

variable {σ ε α β : Type}

instance : Monad (Call σ ε) where
  pure a := fun s => (.ok a, s)
  bind x f := fun s =>
    match x s with
    | (.ok a, s') => f a s'
    | (.error e, s') => (.error e, s')

def lift (x : Except ε α) : Call σ ε α := fun s => (x, s)

/-- Acts on the state, and does not fail. -/
def act (f : σ → α × σ) : Call σ ε α := fun s => (.ok (f s).1, (f s).2)

theorem bind_eq_ok {x : Call σ ε α} {f : α → Call σ ε β} {s s' : σ} {b : β} :
    (x >>= f) s = (.ok b, s') ↔ ∃ a s₁, x s = (.ok a, s₁) ∧ f a s₁ = (.ok b, s') := by
  change (match x s with
    | (.ok a, s₁) => f a s₁
    | (.error e, s₁) => (.error e, s₁)) = _ ↔ _
  rcases x s with ⟨_ | a, s₁⟩ <;> simp

theorem bind_of_ok {x : Call σ ε α} {f : α → Call σ ε β} {s s' : σ} {a : α}
    (h : x s = (.ok a, s')) : (x >>= f) s = f a s' := by
  change (match x s with
    | (.ok a, s') => f a s'
    | (.error e, s') => (.error e, s')) = _
  rw [h]

theorem bind_of_error {x : Call σ ε α} {f : α → Call σ ε β} {s s' : σ} {e : ε}
    (h : x s = (.error e, s')) : (x >>= f) s = (.error e, s') := by
  change (match x s with
    | (.ok a, s') => f a s'
    | (.error e, s') => (.error e, s')) = _
  rw [h]

theorem pure_eq_ok {a b : α} {s s' : σ} :
    (pure a : Call σ ε α) s = (.ok b, s') ↔ a = b ∧ s = s' := by
  change (Except.ok a, s) = (Except.ok b, s') ↔ _
  simp

@[simp] theorem lift_ok (a : α) : (lift (.ok a) : Call σ ε α) = pure a := rfl

@[simp] theorem pure_bind' (a : α) (f : α → Call σ ε β) : ((pure a : Call σ ε α) >>= f) = f a := rfl

@[simp] theorem lift_error_bind (e : ε) (f : α → Call σ ε β) :
    ((lift (.error e) : Call σ ε α) >>= f) = lift (.error e) := rfl

/-- Every failure is of one kind, and every result as well. -/
def Ends (bad : ε → Prop) (good : α → Prop) (x : Call σ ε α) : Prop :=
  ∀ s, (∀ e, (x s).1 = .error e → bad e) ∧ ∀ a, (x s).1 = .ok a → good a

variable {bad : ε → Prop} {good : α → Prop} {good' : β → Prop}

theorem Ends.pure {a : α} (h : good a) : Ends bad good (pure a : Call σ ε α) :=
  fun _ => ⟨fun _ h => (nomatch h), by rintro _ ⟨⟩; exact h⟩

theorem Ends.lift {x : Except ε α} (he : ∀ e, x = .error e → bad e) (ha : ∀ a, x = .ok a → good a) :
    Ends bad good (lift x : Call σ ε α) :=
  fun _ => ⟨he, ha⟩

theorem Ends.act {f : σ → α × σ} (good : α → Prop) (h : ∀ s, good (f s).1) :
    Ends bad good (act f : Call σ ε α) :=
  fun s => ⟨fun _ h => (nomatch h), by rintro _ ⟨⟩; exact h s⟩

theorem Ends.bind {x : Call σ ε α} {f : α → Call σ ε β} (hx : Ends bad good x)
    (hf : ∀ a, good a → Ends bad good' (f a)) : Ends bad good' (x >>= f) := by
  intro s
  have hs := hx s
  change (∀ e, (match x s with
      | (.ok a, s') => f a s'
      | (.error e, s') => (.error e, s')).1 = .error e → bad e) ∧
    ∀ b, (match x s with
      | (.ok a, s') => f a s'
      | (.error e, s') => (.error e, s')).1 = .ok b → good' b
  rcases hxs : x s with ⟨_ | a, s'⟩
  · rw [hxs] at hs
    refine ⟨fun e h => hs.1 e ?_, fun _ h => nomatch h⟩
    cases h
    rfl
  · rw [hxs] at hs
    exact hf a (hs.2 a rfl) s'

theorem Ends.mono {good'' : α → Prop} {x : Call σ ε α} (hx : Ends bad good x)
    (h : ∀ a, good a → good'' a) : Ends bad good'' x :=
  fun s => ⟨(hx s).1, fun a ha => h a ((hx s).2 a ha)⟩

end Call
