import Outscript.Library.ByteString

/-!
# Parsers that move a cursor

A cursor is what is left to read, with the number of items already read. A
parser decodes an encoding when it accepts exactly the encodings of the values
that satisfy a predicate, and moves past what it accepted. This one
equivalence is both directions of a round trip: what is written is read back,
and what is read was written that way.
-/
namespace Cursor

universe u
variable {β ε α γ : Type}

structure State (β : Type u) where
  rest : List β
  pos : Nat

abbrev Read (β ε : Type) := StateT (State β) (Except ε)

def start (buf : List β) : State β := ⟨buf, 0⟩

/-- A cursor at offset `pos` of `buf`. -/
def seek (buf : List β) (pos : Nat) : State β := ⟨buf.drop pos, pos⟩

def take (eof : ε) (n : Nat) : Read β ε (List β) := fun c =>
  if n ≤ c.rest.length then .ok (c.rest.take n, ⟨c.rest.drop n, c.pos + n⟩) else .error eof

/-- An array of a fixed length. -/
def takeVec (eof : ε) (n : Nat) : Read β ε (List.Vector β n) := fun c =>
  if h : n ≤ c.rest.length then
    .ok (⟨c.rest.take n, List.length_take_of_le h⟩, ⟨c.rest.drop n, c.pos + n⟩)
  else .error eof

def item (eof : ε) : Read β ε β := fun c =>
  match c.rest with
  | [] => .error eof
  | b :: r => .ok (b, ⟨r, c.pos + 1⟩)

def require (p : Prop) [Decidable p] (e : ε) : Read β ε Unit :=
  if p then pure () else throw e

def lift (x : Except ε α) : Read β ε α := fun c =>
  match x with
  | .ok a => .ok (a, c)
  | .error e => .error e

/-- How many items are left. -/
def remaining : Read β ε Nat := fun c => .ok (c.rest.length, c)

/-- The next item, which stays where it is. -/
def peek : Read β ε (Option β) := fun c => .ok (c.rest.head?, c)

/-- Where the cursor is. -/
def pos : Read β ε Nat := fun c => .ok (c.pos, c)

/-- Run a parser `n` times. -/
def many (p : Read β ε α) : Nat → Read β ε (List α)
  | 0 => pure []
  | n + 1 => do
    let a ← p
    let as ← many p n
    pure (a :: as)

/-- What a parser reads until it first fails, at most `n` times. -/
def readWhile (p : Read β ε α) : Nat → State β → List α
  | 0, _ => []
  | n + 1, c =>
    match p.run c with
    | .ok (a, c') => a :: readWhile p n c'
    | .error _ => []

def Decodes (p : Read β ε α) (ok : α → Prop) (enc : α → List β) : Prop :=
  ∀ c a c', p.run c = .ok (a, c') ↔
    ok a ∧ c.rest = enc a ++ c'.rest ∧ c'.pos = c.pos + (enc a).length

/-- Reading back every encoding, and accepting nothing else. -/
theorem Decodes.intro {p : Read β ε α} {ok : α → Prop} {enc : α → List β}
    (complete : ∀ a r pos, ok a → p.run ⟨enc a ++ r, pos⟩ = .ok (a, ⟨r, pos + (enc a).length⟩))
    (sound : ∀ c a c', p.run c = .ok (a, c') → ok a ∧ ∃ r, c.rest = enc a ++ r) :
    Decodes p ok enc := by
  rintro ⟨rest, pos⟩ a ⟨rest', pos'⟩
  constructor
  · intro h
    obtain ⟨ha, r, hrest⟩ := sound _ _ _ h
    dsimp only at hrest
    subst hrest
    rw [complete a r pos ha] at h
    cases h
    exact ⟨ha, rfl, rfl⟩
  · rintro ⟨ha, hrest, hpos⟩
    dsimp only at hrest hpos
    subst hrest hpos
    exact complete a rest' pos ha

theorem run_bind_ok {p : Read β ε α} {q : α → Read β ε γ} {c c' : State β} {g : γ} :
    (p >>= q).run c = .ok (g, c') ↔
      ∃ a c₁, p.run c = .ok (a, c₁) ∧ (q a).run c₁ = .ok (g, c') := by
  rw [StateT.run_bind]
  cases hp : p.run c with
  | error e => simp [Bind.bind, Except.bind]
  | ok r => obtain ⟨a, c₁⟩ := r; simp [Bind.bind, Except.bind]

theorem run_require_ok {p : Prop} [Decidable p] {e : ε} {c c' : State β} {u : Unit} :
    (require p e : Read β ε Unit).run c = .ok (u, c') ↔ p ∧ c = c' := by
  by_cases hp : p
  · rw [require, if_pos hp, StateT.run_pure]
    simp [pure, Except.pure, hp]
  · simp only [require, hp, if_false, false_and, iff_false]
    intro h
    cases h

theorem run_lift_ok {x : Except ε α} {c c' : State β} {a : α} :
    (lift x : Read β ε α).run c = .ok (a, c') ↔ x = .ok a ∧ c = c' := by
  cases x <;> simp [lift, StateT.run]

theorem run_remaining_ok {n : Nat} {c c' : State β} :
    (remaining : Read β ε Nat).run c = .ok (n, c') ↔ c.rest.length = n ∧ c = c' := by
  simp [remaining, StateT.run]

theorem run_pure_ok {a b : α} {c c' : State β} :
    (pure a : Read β ε α).run c = .ok (b, c') ↔ a = b ∧ c = c' := by
  change Except.ok (a, c) = .ok (b, c') ↔ _
  simp

theorem decodes_pure (a : α) : Decodes (pure a : Read β ε α) (fun b => b = a) (fun _ => []) := by
  intro c b c'
  rw [run_pure_ok]
  obtain ⟨rest, pos⟩ := c
  obtain ⟨rest', pos'⟩ := c'
  simp only [State.mk.injEq, List.nil_append, List.length_nil, Nat.add_zero]
  constructor
  · rintro ⟨rfl, rfl, rfl⟩; exact ⟨rfl, rfl, rfl⟩
  · rintro ⟨rfl, rfl, rfl⟩; exact ⟨rfl, rfl, rfl⟩

theorem decodes_take (eof : ε) (n : Nat) :
    Decodes (take eof n : Read β ε (List β)) (fun s => s.length = n) id := by
  intro c s c'
  obtain ⟨rest, pos⟩ := c
  obtain ⟨rest', pos'⟩ := c'
  simp only [StateT.run, take, id]
  constructor
  · intro h
    split at h
    · rename_i hn
      cases h
      refine ⟨List.length_take_of_le hn, (List.take_append_drop n rest).symm, ?_⟩
      rw [List.length_take_of_le hn]
    · cases h
  · rintro ⟨hn, hrest, hpos⟩
    subst hrest hn hpos
    simp

theorem decodes_takeVec (eof : ε) (n : Nat) :
    Decodes (takeVec eof n : Read β ε (List.Vector β n)) (fun _ => True) List.Vector.toList := by
  apply Decodes.intro
  · rintro ⟨l, rfl⟩ r pos -
    simp [takeVec, StateT.run, List.Vector.toList]
  · rintro ⟨rest, pos⟩ v c' h
    simp only [StateT.run, takeVec] at h
    split at h
    · cases h
      exact ⟨trivial, rest.drop n, (List.take_append_drop n rest).symm⟩
    · cases h

theorem decodes_item (eof : ε) :
    Decodes (item eof : Read β ε β) (fun _ => True) (fun b => [b]) := by
  apply Decodes.intro
  · intro b r pos _
    rfl
  · rintro ⟨rest, pos⟩ b c' h
    cases rest with
    | nil => cases h
    | cons b' r =>
      cases h
      exact ⟨trivial, r, rfl⟩

/-- Sequencing: the second parser may depend on what the first one read, which
the final value determines. -/
theorem Decodes.bind {p : Read β ε α} {q : α → Read β ε γ} {okA : α → Prop}
    {encA : α → List β} {okG : γ → Prop} {encG : γ → List β} (proj : γ → α)
    (hp : Decodes p okA encA)
    (hq : ∀ a, okA a → Decodes (q a) (fun g => proj g = a ∧ okG g) encG) :
    Decodes (p >>= q) (fun g => okA (proj g) ∧ okG g)
      (fun g => encA (proj g) ++ encG g) := by
  intro c g c'
  rw [run_bind_ok]
  constructor
  · rintro ⟨a, c₁, h₁, h₂⟩
    obtain ⟨ha, hrest, hpos⟩ := (hp _ _ _).mp h₁
    obtain ⟨⟨rfl, hg⟩, hrest', hpos'⟩ := (hq a ha _ _ _).mp h₂
    refine ⟨⟨ha, hg⟩, ?_, ?_⟩
    · rw [hrest, hrest', List.append_assoc]
    · rw [hpos', hpos, List.length_append, Nat.add_assoc]
  · rintro ⟨⟨ha, hg⟩, hrest, hpos⟩
    refine ⟨proj g, ⟨encG g ++ c'.rest, c.pos + (encA (proj g)).length⟩, ?_, ?_⟩
    · exact (hp _ _ _).mpr ⟨ha, by rw [hrest, List.append_assoc], rfl⟩
    · refine (hq _ ha _ _ _).mpr ⟨⟨rfl, hg⟩, rfl, ?_⟩
      rw [hpos, List.length_append, Nat.add_assoc]

/-- Rewrite what a parser returns along a bijection between accepted values. -/
theorem Decodes.map {p : Read β ε α} {okA : α → Prop} {encA : α → List β}
    (f : α → γ) (g : γ → α) (hp : Decodes p okA encA)
    (left : ∀ a, okA a → g (f a) = a) :
    Decodes (p >>= fun a => pure (f a)) (fun b => okA (g b) ∧ f (g b) = b)
      (fun b => encA (g b)) := by
  intro c b c'
  rw [run_bind_ok]
  constructor
  · rintro ⟨a, c₁, h₁, h₂⟩
    obtain ⟨rfl, rfl⟩ := run_pure_ok.mp h₂
    have h := (hp _ _ _).mp h₁
    simp only [left a h.1, and_true]
    exact h
  · rintro ⟨⟨hok, hb⟩, h⟩
    exact ⟨g b, c', (hp _ _ _).mpr ⟨hok, h⟩, run_pure_ok.mpr ⟨hb, rfl⟩⟩

theorem Decodes.congr {p : Read β ε α} {ok ok' : α → Prop} {enc enc' : α → List β}
    (hp : Decodes p ok enc) (hok : ∀ a, ok a ↔ ok' a) (henc : ∀ a, ok a → enc a = enc' a) :
    Decodes p ok' enc' := by
  intro c a c'
  rw [hp c a c', ← hok a]
  constructor
  · rintro ⟨h, h'⟩; exact ⟨h, by rwa [← henc a h]⟩
  · rintro ⟨h, h'⟩; exact ⟨h, by rwa [henc a h]⟩

theorem Decodes.many {p : Read β ε α} {ok : α → Prop} {enc : α → List β}
    (hp : Decodes p ok enc) (n : Nat) :
    Decodes (many p n) (fun l => l.length = n ∧ ∀ a ∈ l, ok a) (fun l => l.flatMap enc) := by
  induction n with
  | zero =>
    exact (decodes_pure []).congr
      (fun l => ⟨fun h => by simp [h], fun h => List.length_eq_zero_iff.mp h.1⟩)
      (fun l h => by simp [h])
  | succ n ih =>
    intro c l c'
    rw [Cursor.many, run_bind_ok]
    constructor
    · rintro ⟨a, c₁, h₁, h₂⟩
      obtain ⟨as, c₂, h₃, h₄⟩ := run_bind_ok.mp h₂
      obtain ⟨rfl, rfl⟩ := run_pure_ok.mp h₄
      obtain ⟨ha, hrest, hpos⟩ := (hp _ _ _).mp h₁
      obtain ⟨⟨hlen, has⟩, hrest', hpos'⟩ := (ih _ _ _).mp h₃
      refine ⟨⟨by simp [hlen], ?_⟩, ?_, ?_⟩
      · intro b hb
        rcases List.mem_cons.mp hb with rfl | hb
        · exact ha
        · exact has b hb
      · simp only [hrest, hrest', List.flatMap_cons, List.append_assoc]
      · simp only [hpos', hpos, List.flatMap_cons, List.length_append, Nat.add_assoc]
    · rintro ⟨⟨hlen, hall⟩, hrest, hpos⟩
      cases l with
      | nil => simp at hlen
      | cons a as =>
        simp only [List.flatMap_cons] at hrest hpos
        refine ⟨a, ⟨as.flatMap enc ++ c'.rest, c.pos + (enc a).length⟩, ?_, ?_⟩
        · exact (hp _ _ _).mpr ⟨hall a List.mem_cons_self, by rw [hrest, List.append_assoc], rfl⟩
        · refine run_bind_ok.mpr ⟨as, c', (ih _ _ _).mpr ⟨⟨?_, ?_⟩, rfl, ?_⟩,
            run_pure_ok.mpr ⟨rfl, rfl⟩⟩
          · simpa using hlen
          · exact fun b hb => hall b (List.mem_cons_of_mem a hb)
          · rw [hpos, List.length_append, Nat.add_assoc]

/-- What was written is read back, leaving what follows it. -/
theorem Decodes.run_append {p : Read β ε α} {ok : α → Prop} {enc : α → List β}
    (hp : Decodes p ok enc) {a : α} (ha : ok a) (r : List β) (pos : Nat) :
    p.run ⟨enc a ++ r, pos⟩ = .ok (a, ⟨r, pos + (enc a).length⟩) :=
  (hp _ _ _).mpr ⟨ha, rfl, rfl⟩

section Steps

variable {p : Read β ε α} {q : α → Read β ε γ} {ok : α → Prop} {enc : α → List β}

/-- A step forward over an encoding. -/
theorem Decodes.run_bind (hp : Decodes p ok enc) {a : α} (ha : ok a) (r : List β) (pos : Nat) :
    (p >>= q).run ⟨enc a ++ r, pos⟩ = (q a).run ⟨r, pos + (enc a).length⟩ := by
  rw [StateT.run_bind, hp.run_append ha]
  rfl

/-- A step back to what was read. -/
theorem Decodes.of_run_bind (hp : Decodes p ok enc) {c c' : State β} {g : γ}
    (h : (p >>= q).run c = .ok (g, c')) :
    ∃ a r, ok a ∧ c.rest = enc a ++ r ∧
      (q a).run ⟨r, c.pos + (enc a).length⟩ = .ok (g, c') := by
  obtain ⟨a, ⟨r, pos⟩, h₁, h₂⟩ := run_bind_ok.mp h
  obtain ⟨ha, hrest, hpos⟩ := (hp _ _ _).mp h₁
  dsimp only at hrest hpos
  subst hpos
  exact ⟨a, r, ha, hrest, h₂⟩

theorem run_require_bind {cond : Prop} [Decidable cond] {e : ε} {q : Unit → Read β ε γ}
    (h : cond) (c : State β) : (require cond e >>= q).run c = (q ()).run c := by
  rw [require, if_pos h]
  rfl

theorem of_run_require_bind {cond : Prop} [Decidable cond] {e : ε} {q : Unit → Read β ε γ}
    {c c' : State β} {g : γ} (h : (require cond e >>= q).run c = .ok (g, c')) :
    cond ∧ (q ()).run c = .ok (g, c') := by
  obtain ⟨u, c₁, h₁, h₂⟩ := run_bind_ok.mp h
  obtain ⟨hc, rfl⟩ := run_require_ok.mp h₁
  exact ⟨hc, h₂⟩

theorem run_lift_bind {x : Except ε α} {a : α} (h : x = .ok a) (c : State β) :
    (lift x >>= q).run c = (q a).run c := by
  subst h
  rfl

theorem of_run_lift_bind {x : Except ε α} {c c' : State β} {g : γ}
    (h : (lift x >>= q).run c = .ok (g, c')) : ∃ a, x = .ok a ∧ (q a).run c = .ok (g, c') := by
  obtain ⟨a, c₁, h₁, h₂⟩ := run_bind_ok.mp h
  obtain ⟨hx, rfl⟩ := run_lift_ok.mp h₁
  exact ⟨a, hx, h₂⟩

theorem run_pos_bind {q : Nat → Read β ε γ} (c : State β) :
    (pos >>= q).run c = (q c.pos).run c := rfl

theorem run_remaining_bind {q : Nat → Read β ε γ} (c : State β) :
    (remaining >>= q).run c = (q c.rest.length).run c := rfl

theorem run_peek_bind {q : Option β → Read β ε γ} (c : State β) :
    (peek >>= q).run c = (q c.rest.head?).run c := rfl

end Steps

/-- A step over what a parser is known to read. -/
theorem run_bind_of {p : Read β ε α} {q : α → Read β ε γ} {c c' : State β} {a : α}
    (h : p.run c = .ok (a, c')) : (p >>= q).run c = (q a).run c' := by
  rw [StateT.run_bind, h]
  rfl

/-- Two ways on from what a parser reads. -/
theorem run_bind_congr {p : Read β ε α} {q q' : α → Read β ε γ} {c : State β}
    (h : ∀ a c', p.run c = .ok (a, c') → (q a).run c' = (q' a).run c') :
    (p >>= q).run c = (p >>= q').run c := by
  cases hp : p.run c with
  | error e => rw [StateT.run_bind, StateT.run_bind, hp]; rfl
  | ok r => rw [run_bind_of hp, run_bind_of hp, h _ _ hp]

/-- Reading back what was written, item by item, with what each is read as. -/
theorem run_many_append {p : Read β ε α} {enc : γ → List β} {f : γ → α} {l : List γ}
    (h : ∀ a ∈ l, ∀ r pos, p.run ⟨enc a ++ r, pos⟩ = .ok (f a, ⟨r, pos + (enc a).length⟩))
    (r : List β) (pos : Nat) :
    (many p l.length).run ⟨l.flatMap enc ++ r, pos⟩ =
      .ok (l.map f, ⟨r, pos + (l.flatMap enc).length⟩) := by
  induction l generalizing pos with
  | nil => rfl
  | cons a l ih =>
    have hhead := h a List.mem_cons_self (l.flatMap enc ++ r) pos
    have htail := ih (fun b hb => h b (List.mem_cons_of_mem a hb)) (pos + (enc a).length)
    rw [List.length_cons, many, List.flatMap_cons, List.append_assoc, run_bind_of hhead,
      run_bind_of htail, List.length_append, Nat.add_assoc]
    rfl

/-- Nothing is cut short where every read succeeds. -/
theorem readWhile_of_many {p : Read β ε α} {n : Nat} {c c' : State β} {l : List α}
    (h : (many p n).run c = .ok (l, c')) : readWhile p n c = l := by
  induction n generalizing c c' l with
  | zero =>
    obtain ⟨rfl, -⟩ := run_pure_ok.mp h
    rfl
  | succ n ih =>
    obtain ⟨a, c₁, h₁, h⟩ := run_bind_ok.mp h
    obtain ⟨as, c₂, h₂, h⟩ := run_bind_ok.mp h
    obtain ⟨rfl, -⟩ := run_pure_ok.mp h
    rw [readWhile, h₁]
    exact congrArg (fun l => a :: l) (ih h₂)

/-! ## Reading back one encoding -/

/-- A parser reads the item string `b` as `a`, whatever follows it. -/
def Reads (p : Read β ε α) (b : List β) (a : α) : Prop :=
  ∀ r pos, p.run ⟨b ++ r, pos⟩ = .ok (a, ⟨r, pos + b.length⟩)

theorem Decodes.reads {p : Read β ε α} {ok : α → Prop} {enc : α → List β}
    (hp : Decodes p ok enc) {a : α} (ha : ok a) : Reads p (enc a) a :=
  fun r pos => hp.run_append ha r pos

namespace Reads

variable {p : Read β ε α} {q : α → Read β ε γ} {b c : List β} {a : α} {g : γ}

theorem pure (a : α) : Reads (pure a : Read β ε α) [] a := fun _ _ => rfl

theorem bind (hp : Reads p b a) (hq : Reads (q a) c g) : Reads (p >>= q) (b ++ c) g := by
  intro r pos
  rw [List.append_assoc, run_bind_of (hp _ _), hq, List.length_append, Nat.add_assoc]

theorem bind_pure (hp : Reads p b a) (f : α → γ) : Reads (p >>= fun a => Pure.pure (f a)) b (f a) := by
  intro r pos
  rw [run_bind_of (hp _ _)]
  rfl

theorem require {cond : Prop} [Decidable cond] (h : cond) (e : ε) {q : Unit → Read β ε γ}
    (hq : Reads (q ()) c g) : Reads (Cursor.require cond e >>= q) c g := by
  intro r pos
  rw [run_require_bind h, hq]

theorem lift {x : Except ε α} (h : x = .ok a) (hq : Reads (q a) c g) :
    Reads (Cursor.lift x >>= q) c g := by
  intro r pos
  rw [run_lift_bind h, hq]

theorem take (eof : ε) (s : List β) : Reads (Cursor.take eof s.length) s s :=
  (decodes_take eof s.length).reads rfl

theorem takeVec (eof : ε) {n : Nat} (v : List.Vector β n) :
    Reads (Cursor.takeVec eof n) v.toList v := (decodes_takeVec eof n).reads trivial

theorem item (eof : ε) (x : β) : Reads (Cursor.item eof) [x] x := (decodes_item eof).reads trivial

theorem many {enc : γ → List β} {f : γ → α} {l : List γ}
    (h : ∀ x ∈ l, Reads p (enc x) (f x)) : Reads (Cursor.many p l.length) (l.flatMap enc) (l.map f) :=
  fun r pos => run_many_append h r pos

theorem mapM {δ : Type} {enc : γ → List β} {f : γ → Read β ε δ} {out : γ → δ} {l : List γ}
    (h : ∀ x ∈ l, Reads (f x) (enc x) (out x)) : Reads (l.mapM f) (l.flatMap enc) (l.map out) := by
  induction l with
  | nil => exact Reads.pure []
  | cons x l ih =>
    have htail := ih fun y hy => h y (List.mem_cons_of_mem x hy)
    rw [List.mapM_cons, List.flatMap_cons, List.map_cons]
    exact (h x List.mem_cons_self).bind (htail.bind_pure fun ys => out x :: ys)

end Reads

/-! ## What a parser takes at least -/

/-- On success at least `n` items fewer are left. -/
def Takes (p : Read β ε α) (n : Nat) : Prop :=
  ∀ c a c', p.run c = .ok (a, c') → c'.rest.length + n ≤ c.rest.length

namespace Takes

variable {n m : Nat}

theorem mono {p : Read β ε α} (h : Takes p n) (hle : m ≤ n) : Takes p m := by
  intro c a c' hrun
  have hn := h c a c' hrun
  omega

theorem pure (a : α) : Takes (pure a : Read β ε α) 0 := by
  intro c b c' hrun
  obtain ⟨-, rfl⟩ := run_pure_ok.mp hrun
  exact le_rfl

theorem throw (e : ε) : Takes (throw e : Read β ε α) n := by
  intro c a c' hrun
  cases hrun

theorem bind {p : Read β ε α} {q : α → Read β ε γ} (hp : Takes p n) (hq : ∀ a, Takes (q a) m) :
    Takes (p >>= q) (n + m) := by
  intro c b c' hrun
  obtain ⟨a, c₁, h₁, h₂⟩ := run_bind_ok.mp hrun
  have hn := hp _ _ _ h₁
  have hm := hq a _ _ _ h₂
  omega

theorem ite {cond : Prop} [Decidable cond] {p q : Read β ε α} (hp : Takes p n) (hq : Takes q n) :
    Takes (if cond then p else q) n := by
  split
  · exact hp
  · exact hq

theorem item (eof : ε) : Takes (Cursor.item eof : Read β ε β) 1 := by
  rintro ⟨rest, pos⟩ b c' hrun
  obtain ⟨-, hrest, -⟩ := (decodes_item eof _ _ _).mp hrun
  change rest = b :: c'.rest at hrest
  rw [hrest, List.length_cons]

theorem take (eof : ε) (k : Nat) : Takes (Cursor.take eof k : Read β ε (List β)) k := by
  rintro ⟨rest, pos⟩ b c' hrun
  obtain ⟨hlen, hrest, -⟩ := (decodes_take eof k _ _ _).mp hrun
  dsimp only at hrest
  simp only [hrest, List.length_append, id]
  omega

theorem require {cond : Prop} [Decidable cond] (e : ε) :
    Takes (Cursor.require cond e : Read β ε Unit) 0 := by
  intro c a c' hrun
  obtain ⟨-, rfl⟩ := run_require_ok.mp hrun
  exact le_rfl

theorem remaining : Takes (Cursor.remaining : Read β ε Nat) 0 := by
  intro c a c' hrun
  obtain ⟨-, rfl⟩ := run_remaining_ok.mp hrun
  exact le_rfl

theorem peek : Takes (Cursor.peek : Read β ε (Option β)) 0 := by
  intro c a c' hrun
  cases hrun
  exact le_rfl

end Takes

/-- An encoding that a parser decodes is prefix-free. -/
theorem Decodes.prefix_free {p : Read β ε α} {ok : α → Prop} {enc : α → List β}
    (hp : Decodes p ok enc) {a b : α} (ha : ok a) (hb : ok b) {r s : List β}
    (h : enc a ++ r = enc b ++ s) : a = b ∧ r = s := by
  have h₁ := hp.run_append ha r 0
  have h₂ := hp.run_append hb s 0
  rw [h, h₂] at h₁
  cases h₁
  exact ⟨rfl, rfl⟩

end Cursor
