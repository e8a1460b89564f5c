import Outscript.Library.Fallible

/-!
# Work stacks

A loop that pops an entry, works on it and pushes what has to be looked at
again. The loop runs on fuel; where an invariant makes every step decrease a
measure, fuel above the measure is enough.
-/
namespace Worklist

open Fallible

/-- Why a loop does not return: a step panics, or the fuel is out. -/
inductive Stuck where
  | panic
  | fuel
  deriving DecidableEq, Repr

variable {σ α : Type}

/-- Pops until the stack is empty. What a step returns is pushed, its head on top. -/
def drain (step : σ → α → Except Stuck (σ × List α)) : Nat → σ → List α → Except Stuck σ
  | _, s, [] => .ok s
  | 0, _, _ :: _ => .error .fuel
  | fuel + 1, s, a :: stack => do
    let (s', pushed) ← step s a
    drain step fuel s' (pushed ++ stack)

variable {step : σ → α → Except Stuck (σ × List α)}

@[simp] theorem drain_nil (fuel : Nat) (s : σ) : drain step fuel s [] = .ok s := by
  cases fuel <;> rfl

theorem drain_cons {fuel : Nat} {s s' : σ} {a : α} {stack pushed : List α}
    (h : step s a = .ok (s', pushed)) :
    drain step (fuel + 1) s (a :: stack) = drain step fuel s' (pushed ++ stack) := by
  rw [drain, h, ok_bind]

/-- An invariant whose steps decrease a measure holds when the loop ends, and it ends. -/
theorem drain_ok {Inv : σ → List α → Prop} {measure : σ → List α → Nat}
    (hstep : ∀ s a stack, Inv s (a :: stack) →
      ∃ s' pushed, step s a = .ok (s', pushed) ∧ Inv s' (pushed ++ stack) ∧
        measure s' (pushed ++ stack) < measure s (a :: stack)) :
    ∀ (fuel : Nat) (s : σ) (stack : List α), Inv s stack → measure s stack < fuel →
      ∃ s', drain step fuel s stack = .ok s' ∧ Inv s' [] := by
  intro fuel
  induction fuel with
  | zero => intro s stack _ hlt; omega
  | succ fuel ih =>
    intro s stack hinv hlt
    cases stack with
    | nil => exact ⟨s, drain_nil _ s, hinv⟩
    | cons a stack =>
      obtain ⟨s', pushed, hok, hinv', hdec⟩ := hstep s a stack hinv
      obtain ⟨s'', hdrain, hend⟩ := ih s' (pushed ++ stack) hinv' (by omega)
      exact ⟨s'', (drain_cons hok).trans hdrain, hend⟩

/-- One turn of the loop. -/
inductive Turn (step : σ → α → Except Stuck (σ × List α)) : σ × List α → σ × List α → Prop
  | pop {s s' : σ} {a : α} {stack pushed : List α} (h : step s a = .ok (s', pushed)) :
    Turn step (s, a :: stack) (s', pushed ++ stack)

/-- A loop that ends gets there turn by turn, and has no turns to go on with for ever. -/
theorem turns_of_drain {fuel : Nat} {s s' : σ} {stack : List α}
    (h : drain step fuel s stack = .ok s') :
    Relation.ReflTransGen (Turn step) (s, stack) (s', []) ∧
      Acc (fun after before => Turn step before after) (s, stack) := by
  induction fuel generalizing s stack with
  | zero =>
    cases stack with
    | nil =>
      cases h
      exact ⟨.refl, ⟨_, fun _ hturn => nomatch hturn⟩⟩
    | cons a stack => cases h
  | succ fuel ih =>
    cases stack with
    | nil =>
      cases h
      exact ⟨.refl, ⟨_, fun _ hturn => nomatch hturn⟩⟩
    | cons a stack =>
      rw [drain] at h
      obtain ⟨⟨s₁, pushed⟩, hok, hdrain⟩ := bind_eq_ok.mp h
      obtain ⟨hruns, hacc⟩ := ih hdrain
      refine ⟨.head (.pop hok) hruns, ⟨_, ?_⟩⟩
      rintro _ ⟨hok'⟩
      rw [hok] at hok'
      cases hok'
      exact hacc

/-- What every turn keeps holds after any number of turns. -/
theorem turns_keep {Inv : σ → List α → Prop}
    (hstep : ∀ s a stack s' pushed, Inv s (a :: stack) → step s a = .ok (s', pushed) →
      Inv s' (pushed ++ stack)) {start stop : σ × List α}
    (h : Relation.ReflTransGen (Turn step) start stop) (hinv : Inv start.1 start.2) :
    Inv stop.1 stop.2 := by
  induction h with
  | refl => exact hinv
  | tail _ hturn ih =>
    obtain ⟨hok⟩ := hturn
    exact hstep _ _ _ _ _ ih hok

/-- Whether some turn of the loop meets a condition. -/
def meets (step : σ → α → Except Stuck (σ × List α)) (p : σ → α → Bool) : Nat → σ → List α → Bool
  | _, _, [] => false
  | 0, _, _ :: _ => false
  | fuel + 1, s, a :: stack =>
    p s a || match step s a with
      | .ok (s', pushed) => meets step p fuel s' (pushed ++ stack)
      | .error _ => false

/-- What every turn that does not meet a condition keeps holds when the loop ends,
if no turn meets the condition. -/
theorem drain_keeps {Inv : σ → List α → Prop} {p : σ → α → Bool}
    (hstep : ∀ s a stack s' pushed, Inv s (a :: stack) → p s a = false →
      step s a = .ok (s', pushed) → Inv s' (pushed ++ stack)) :
    ∀ (fuel : Nat) (s : σ) (stack : List α) (s' : σ), meets step p fuel s stack = false →
      drain step fuel s stack = .ok s' → Inv s stack → Inv s' [] := by
  intro fuel
  induction fuel with
  | zero =>
    intro s stack s' _ hdrain hinv
    cases stack with
    | nil =>
      cases hdrain
      exact hinv
    | cons a stack => cases hdrain
  | succ fuel ih =>
    intro s stack s' hmeets hdrain hinv
    cases stack with
    | nil =>
      cases hdrain
      exact hinv
    | cons a stack =>
      rw [drain] at hdrain
      obtain ⟨⟨s₁, pushed⟩, hok, hdrain⟩ := bind_eq_ok.mp hdrain
      rw [meets, hok, Bool.or_eq_false_iff] at hmeets
      exact ih s₁ (pushed ++ stack) s' hmeets.2 hdrain (hstep s a stack s₁ pushed hinv hmeets.1 hok)

/-- No turn meets a condition that an invariant of the loop excludes. -/
theorem meets_eq_false {Inv : σ → List α → Prop} {p : σ → α → Bool}
    (hp : ∀ s a stack, Inv s (a :: stack) → p s a = false)
    (hstep : ∀ s a stack s' pushed, Inv s (a :: stack) → step s a = .ok (s', pushed) →
      Inv s' (pushed ++ stack)) :
    ∀ (fuel : Nat) (s : σ) (stack : List α), Inv s stack → meets step p fuel s stack = false := by
  intro fuel
  induction fuel with
  | zero =>
    intro s stack _
    cases stack <;> rfl
  | succ fuel ih =>
    intro s stack hinv
    cases stack with
    | nil => rfl
    | cons a stack =>
      rw [meets, hp s a stack hinv, Bool.false_or]
      cases hok : step s a with
      | error e => rfl
      | ok r => exact ih r.1 (r.2 ++ stack) (hstep s a stack r.1 r.2 hinv hok)

theorem meets_never (fuel : Nat) (s : σ) (stack : List α) :
    meets step (fun _ _ => false) fuel s stack = false :=
  @meets_eq_false _ _ step (fun _ _ => True) _ (fun _ _ _ _ => rfl) (fun _ _ _ _ _ _ _ => trivial) fuel s
    stack trivial

end Worklist
