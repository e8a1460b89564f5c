import Outscript.Library.Cursor

/-!
# What a parser accepts

A parser may read several strings as one value. What it accepts is then a
relation between strings and values: it takes such a string off the front of
its input and leaves the rest.
-/
namespace Cursor

variable {β ε α γ : Type}

/-- The strings a parser reads as a value, whatever follows them. -/
def Accepts (p : Read β ε α) (R : List β → α → Prop) : Prop :=
  ∀ c a c', p.run c = .ok (a, c') ↔ ∃ b, R b a ∧ c.rest = b ++ c'.rest ∧ c'.pos = c.pos + b.length

/-- The items that a parser went over. -/
def span (p : Read β ε α) : Read β ε (List β) := fun c =>
  match p.run c with
  | .ok (_, c') => .ok (c.rest.take (c.rest.length - c'.rest.length), c')
  | .error e => .error e

theorem Decodes.accepts {p : Read β ε α} {ok : α → Prop} {enc : α → List β} (h : Decodes p ok enc) :
    Accepts p fun b a => ok a ∧ b = enc a := by
  intro c a c'
  rw [h c a c']
  constructor
  · rintro ⟨hok, hrest, hpos⟩
    exact ⟨enc a, ⟨hok, rfl⟩, hrest, hpos⟩
  · rintro ⟨_, ⟨hok, rfl⟩, hrest, hpos⟩
    exact ⟨hok, hrest, hpos⟩

theorem accepts_pure (a : α) : Accepts (pure a : Read β ε α) fun b g => b = [] ∧ g = a := by
  intro c g c'
  rw [run_pure_ok]
  constructor
  · rintro ⟨rfl, rfl⟩
    exact ⟨[], ⟨rfl, rfl⟩, rfl, rfl⟩
  · rintro ⟨_, ⟨rfl, rfl⟩, hrest, hpos⟩
    obtain ⟨rest, pos⟩ := c
    obtain ⟨rest', pos'⟩ := c'
    dsimp only at hrest hpos
    subst hrest hpos
    exact ⟨rfl, rfl⟩

namespace Accepts

variable {p : Read β ε α} {q : α → Read β ε γ} {R R' : List β → α → Prop} {S : α → List β → γ → Prop}

theorem congr (h : Accepts p R) (heq : ∀ b a, R b a ↔ R' b a) : Accepts p R' := by
  intro c a c'
  rw [h c a c']
  simp only [heq]

theorem reads (h : Accepts p R) {b : List β} {a : α} (hb : R b a) : Reads p b a :=
  fun _ _ => (h _ _ _).mpr ⟨b, hb, rfl, rfl⟩

theorem bind (hp : Accepts p R) (hq : ∀ a, Accepts (q a) (S a)) :
    Accepts (p >>= q) fun b g => ∃ b₁ b₂ a, R b₁ a ∧ S a b₂ g ∧ b = b₁ ++ b₂ := by
  intro c g c'
  rw [run_bind_ok]
  constructor
  · rintro ⟨a, c₁, h₁, h₂⟩
    obtain ⟨b₁, hR, hrest, hpos⟩ := (hp _ _ _).mp h₁
    obtain ⟨b₂, hS, hrest', hpos'⟩ := (hq a _ _ _).mp h₂
    refine ⟨b₁ ++ b₂, ⟨b₁, b₂, a, hR, hS, rfl⟩, ?_, ?_⟩
    · rw [hrest, hrest', List.append_assoc]
    · rw [hpos', hpos, List.length_append, Nat.add_assoc]
  · rintro ⟨_, ⟨b₁, b₂, a, hR, hS, rfl⟩, hrest, hpos⟩
    refine ⟨a, ⟨b₂ ++ c'.rest, c.pos + b₁.length⟩, (hp _ _ _).mpr ⟨b₁, hR, ?_, rfl⟩,
      (hq a _ _ _).mpr ⟨b₂, hS, rfl, ?_⟩⟩
    · rw [hrest, List.append_assoc]
    · rw [hpos, List.length_append, Nat.add_assoc]

/-- A step back to the string that was taken. -/
theorem of_run_bind (hp : Accepts p R) {c c' : State β} {g : γ}
    (h : (p >>= q).run c = .ok (g, c')) :
    ∃ b a r, R b a ∧ c.rest = b ++ r ∧ (q a).run ⟨r, c.pos + b.length⟩ = .ok (g, c') := by
  obtain ⟨a, ⟨r, pos⟩, h₁, h₂⟩ := run_bind_ok.mp h
  obtain ⟨b, hR, hrest, hpos⟩ := (hp _ _ _).mp h₁
  dsimp only at hrest hpos
  subst hpos
  exact ⟨b, a, r, hR, hrest, h₂⟩

theorem require {cond : Prop} [Decidable cond] (e : ε) (hp : Accepts p R) :
    Accepts (Cursor.require cond e >>= fun _ => p) fun b a => cond ∧ R b a := by
  intro c a c'
  by_cases hc : cond
  · rw [run_require_bind hc, hp c a c']
    simp only [hc, true_and]
  · refine iff_of_false (fun h => hc (of_run_require_bind h).1) ?_
    rintro ⟨b, ⟨hcond, -⟩, -⟩
    exact hc hcond

theorem ite {cond : Prop} [Decidable cond] {p' : Read β ε α} (hp : Accepts p R) (hp' : Accepts p' R') :
    Accepts (if cond then p else p') fun b a => if cond then R b a else R' b a := by
  intro c a c'
  split_ifs
  · exact hp c a c'
  · exact hp' c a c'

theorem span (hp : Accepts p R) : Accepts (Cursor.span p) fun b a => a = b ∧ ∃ u, R b u := by
  intro c a c'
  have hrun : (Cursor.span p).run c = .ok (a, c') ↔
      ∃ u, p.run c = .ok (u, c') ∧ a = c.rest.take (c.rest.length - c'.rest.length) := by
    change (match p.run c with
      | .ok (_, c') => Except.ok (c.rest.take (c.rest.length - c'.rest.length), c')
      | .error e => .error e) = _ ↔ _
    cases p.run c with
    | error e => simp
    | ok r =>
      obtain ⟨u, c₁⟩ := r
      constructor
      · intro h
        cases h
        exact ⟨u, rfl, rfl⟩
      · rintro ⟨u', h, rfl⟩
        cases h
        rfl
  rw [hrun]
  constructor
  · rintro ⟨u, hu, rfl⟩
    obtain ⟨b, hR, hrest, hpos⟩ := (hp _ _ _).mp hu
    refine ⟨b, ⟨?_, u, hR⟩, hrest, hpos⟩
    rw [hrest, List.length_append, Nat.add_sub_cancel, List.take_left]
  · rintro ⟨_, ⟨rfl, u, hR⟩, hrest, hpos⟩
    refine ⟨u, (hp _ _ _).mpr ⟨a, hR, hrest, hpos⟩, ?_⟩
    rw [hrest, List.length_append, Nat.add_sub_cancel, List.take_left]

theorem many (hp : Accepts p R) (n : Nat) :
    Accepts (Cursor.many p n) fun b l => l.length = n ∧ ∃ bs, List.Forall₂ R bs l ∧ b = bs.flatten := by
  induction n with
  | zero =>
    refine (accepts_pure []).congr fun b l => ?_
    constructor
    · rintro ⟨rfl, rfl⟩
      exact ⟨rfl, [], List.Forall₂.nil, rfl⟩
    · rintro ⟨hlen, bs, hall, rfl⟩
      obtain rfl := List.eq_nil_of_length_eq_zero hlen
      cases hall
      exact ⟨rfl, rfl⟩
  | succ n ih =>
    refine (hp.bind fun a => ih.bind fun as => accepts_pure (a :: as)).congr fun b l => ?_
    constructor
    · rintro ⟨b₁, _, a, hR, ⟨b₂, _, as, ⟨hlen, bs, hall, rfl⟩, ⟨rfl, rfl⟩, rfl⟩, rfl⟩
      exact ⟨by rw [List.length_cons, hlen], b₁ :: bs, hall.cons hR, by simp⟩
    · rintro ⟨hlen, bs, hall, rfl⟩
      cases hall with
      | nil => cases hlen
      | cons hR hall =>
        rename_i b₁ a bs as
        exact ⟨b₁, bs.flatten, a, hR, ⟨bs.flatten, [], as,
          ⟨Nat.succ.inj hlen, bs, hall, rfl⟩, ⟨rfl, rfl⟩, (List.append_nil _).symm⟩, rfl⟩

/-- Each item with the string that it is read from. -/
theorem many_parts (hp : Accepts p R) (n : Nat) :
    Accepts (Cursor.many p n) fun b l => ∃ parts : List (List β × α), parts.length = n ∧
      (∀ x ∈ parts, R x.1 x.2) ∧ b = parts.flatMap Prod.fst ∧ l = parts.map Prod.snd := by
  refine (hp.many n).congr fun b l => ?_
  constructor
  · rintro ⟨hlen, bs, hall, rfl⟩
    induction hall generalizing n with
    | nil => exact ⟨[], hlen, fun x hx => (nomatch hx), rfl, rfl⟩
    | @cons b a bs l hR hall ih =>
      obtain ⟨n, rfl⟩ : ∃ m, n = m + 1 := ⟨l.length, hlen.symm⟩
      obtain ⟨parts, rfl, hparts, hb, hl⟩ := ih n (Nat.succ.inj hlen)
      refine ⟨(b, a) :: parts, rfl, List.forall_mem_cons.mpr ⟨hR, hparts⟩, ?_, ?_⟩
      · rw [List.flatten_cons, hb, List.flatMap_cons]
      · rw [hl, List.map_cons]
  · rintro ⟨parts, hlen, hparts, rfl, rfl⟩
    refine ⟨by rw [List.length_map, hlen], parts.map Prod.fst, ?_, rfl⟩
    rw [List.forall₂_map_left_iff, List.forall₂_map_right_iff]
    exact List.forall₂_same.mpr hparts

/-- A whole string. -/
theorem run_start (hp : Accepts p R) {b : List β} {a : α} :
    R b a ↔ p.run (start b) = .ok (a, ⟨[], b.length⟩) := by
  rw [hp]
  constructor
  · intro hR
    exact ⟨b, hR, (List.append_nil b).symm, (Nat.zero_add _).symm⟩
  · rintro ⟨b', hR, hrest, -⟩
    have heq : b = b' := hrest.trans (List.append_nil b')
    rwa [heq]

end Accepts

theorem accepts_throw (e : ε) : Accepts (throw e : Read β ε α) fun _ _ => False := by
  intro c a c'
  refine iff_of_false (fun h => nomatch h) ?_
  rintro ⟨_, hfalse, -⟩
  exact hfalse

theorem accepts_take (eof : ε) (n : Nat) :
    Accepts (take eof n : Read β ε (List β)) fun b a => b.length = n ∧ a = b := by
  refine (decodes_take eof n).accepts.congr fun b a => ?_
  constructor
  · rintro ⟨hlen, rfl⟩
    exact ⟨hlen, rfl⟩
  · rintro ⟨hlen, rfl⟩
    exact ⟨hlen, rfl⟩

/-! ## How a parser fails -/

/-- The inputs on which a parser fails with a given error. -/
def Fails (p : Read β ε α) (e : ε) (T : List β → Prop) : Prop :=
  ∀ c, p.run c = .error e ↔ T c.rest

/-- A string of a relation in front of what `T` says of the rest. -/
def Ahead (R : List β → α → Prop) (T : α → List β → Prop) (rest : List β) : Prop :=
  ∃ b a r, R b a ∧ rest = b ++ r ∧ T a r

/-- Relations that hold of the same strings are ahead of the same rests. -/
theorem ahead_iff {R : List β → α → Prop} {R' : List β → γ → Prop} {T : List β → Prop} {rest : List β}
    (h : ∀ b, (∃ a, R b a) ↔ ∃ a, R' b a) :
    Ahead R (fun _ => T) rest ↔ Ahead R' (fun _ => T) rest := by
  constructor
  · rintro ⟨b, a, r, hb, hrest, hT⟩
    obtain ⟨a', hb'⟩ := (h b).mp ⟨a, hb⟩
    exact ⟨b, a', r, hb', hrest, hT⟩
  · rintro ⟨b, a, r, hb, hrest, hT⟩
    obtain ⟨a', hb'⟩ := (h b).mpr ⟨a, hb⟩
    exact ⟨b, a', r, hb', hrest, hT⟩

theorem run_bind_error {p : Read β ε α} {q : α → Read β ε γ} {e : ε} {c : State β} :
    (p >>= q).run c = .error e ↔
      p.run c = .error e ∨ ∃ a c', p.run c = .ok (a, c') ∧ (q a).run c' = .error e := by
  rw [StateT.run_bind]
  cases hp : p.run c with
  | error e' => simp [Bind.bind, Except.bind]
  | ok r => obtain ⟨a, c'⟩ := r; simp [Bind.bind, Except.bind]

theorem fails_pure (a : α) (e : ε) : Fails (pure a : Read β ε α) e fun _ => False := by
  intro c
  change Except.ok (a, c) = .error e ↔ False
  simp

theorem fails_take {eof e : ε} (hne : eof ≠ e) (n : Nat) :
    Fails (take eof n : Read β ε (List β)) e fun _ => False := by
  intro c
  change take eof n c = .error e ↔ False
  rw [take]
  split_ifs <;> simp [hne]

theorem fails_takeVec {eof e : ε} (hne : eof ≠ e) (n : Nat) :
    Fails (takeVec eof n : Read β ε (List.Vector β n)) e fun _ => False := by
  intro c
  change takeVec eof n c = .error e ↔ False
  rw [takeVec]
  split_ifs <;> simp [hne]

namespace Fails

variable {p : Read β ε α} {q : α → Read β ε γ} {e : ε} {T T' : List β → Prop}
  {R : List β → α → Prop} {U : α → List β → Prop}

theorem congr (h : Fails p e T) (heq : ∀ rest, T rest ↔ T' rest) : Fails p e T' :=
  fun c => (h c).trans (heq c.rest)

/-- A parser fails in its first part, or after it. -/
theorem bind (hp : Fails p e T) (hR : Accepts p R) (hq : ∀ b a, R b a → Fails (q a) e (U a)) :
    Fails (p >>= q) e fun rest => T rest ∨ Ahead R U rest := by
  intro c
  rw [run_bind_error, hp c]
  refine or_congr_right ?_
  constructor
  · rintro ⟨a, ⟨r, pos⟩, hrun, herr⟩
    obtain ⟨b, hb, hrest, -⟩ := (hR _ _ _).mp hrun
    exact ⟨b, a, r, hb, hrest, (hq b a hb _).mp herr⟩
  · rintro ⟨b, a, r, hb, hrest, hU⟩
    exact ⟨a, ⟨r, c.pos + b.length⟩, (hR _ _ _).mpr ⟨b, hb, hrest, rfl⟩, (hq b a hb _).mpr hU⟩

/-- A parser whose first part does not fail so. -/
theorem after (hp : Fails p e fun _ => False) (hR : Accepts p R)
    (hq : ∀ b a, R b a → Fails (q a) e (U a)) :
    Fails (p >>= q) e (Ahead R U) :=
  (hp.bind hR hq).congr fun _ => iff_of_eq (false_or _)

theorem bind_pure (hp : Fails p e T) (f : α → γ) : Fails (p >>= fun a => Pure.pure (f a)) e T := by
  intro c
  rw [run_bind_error, hp c]
  refine or_iff_left ?_
  rintro ⟨a, c', -, h⟩
  exact ((fails_pure (f a) e) c').mp h

/-- A check with another error. -/
theorem require {cond : Prop} [Decidable cond] {e' : ε} (hne : e' ≠ e) (hp : Fails p e T) :
    Fails (Cursor.require cond e' >>= fun _ => p) e fun rest => cond ∧ T rest := by
  intro c
  by_cases hc : cond
  · rw [run_require_bind hc, hp c]
    exact (and_iff_right hc).symm
  · refine iff_of_false (fun h => ?_) fun h => hc h.1
    rw [Cursor.require, if_neg hc] at h
    cases h
    exact hne rfl

/-- A check that holds. -/
theorem checked {cond : Prop} [Decidable cond] {e' : ε} (h : cond) (hp : Fails p e T) :
    Fails (Cursor.require cond e' >>= fun _ => p) e T := by
  intro c
  rw [run_require_bind h, hp c]

/-- A check with this error. -/
theorem check {cond : Prop} [Decidable cond] (hp : Fails p e T) :
    Fails (Cursor.require cond e >>= fun _ => p) e fun rest => ¬ cond ∨ T rest := by
  intro c
  by_cases hc : cond
  · rw [run_require_bind hc, hp c]
    simp [hc]
  · refine iff_of_true ?_ (Or.inl hc)
    rw [Cursor.require, if_neg hc]
    rfl

theorem ite {cond : Prop} [Decidable cond] {p' : Read β ε α} (hp : Fails p e T) (hp' : Fails p' e T') :
    Fails (if cond then p else p') e fun rest => if cond then T rest else T' rest := by
  intro c
  split_ifs
  · exact hp c
  · exact hp' c

theorem span (hp : Fails p e T) : Fails (Cursor.span p) e T := by
  intro c
  rw [← hp c]
  change (match p.run c with
    | .ok (_, c') => Except.ok (c.rest.take (c.rest.length - c'.rest.length), c')
    | .error e => .error e) = _ ↔ _
  cases p.run c <;> simp

/-- One of a number of items fails, after those before it. -/
theorem many (hp : Fails p e T) (hR : Accepts p R) (n : Nat) :
    Fails (Cursor.many p n) e fun rest => ∃ bs l r, bs.length < n ∧ List.Forall₂ R bs l ∧
      rest = bs.flatten ++ r ∧ T r := by
  induction n with
  | zero =>
    refine (fails_pure _ e).congr fun rest => ?_
    exact iff_of_false id fun ⟨_, _, _, h, _⟩ => absurd h (Nat.not_lt_zero _)
  | succ n ih =>
    refine (hp.bind hR fun _ a _ => ih.bind_pure (a :: ·)).congr fun rest => ?_
    constructor
    · rintro (hT | ⟨b, a, r, hb, rfl, bs, l, r', hlen, hall, rfl, hT⟩)
      · exact ⟨[], [], rest, Nat.succ_pos n, .nil, rfl, hT⟩
      · exact ⟨b :: bs, a :: l, r', Nat.succ_lt_succ hlen, .cons hb hall, by simp, hT⟩
    · rintro ⟨bs, l, r, hlen, hall, rfl, hT⟩
      cases hall with
      | nil => exact Or.inl hT
      | @cons b a bs l hb hall =>
        exact Or.inr ⟨b, a, bs.flatten ++ r, hb, by simp, bs, l, r, Nat.lt_of_succ_lt_succ hlen,
          hall, rfl, hT⟩

end Fails

end Cursor
