import Outscript.Cbor.Item

/-!
# What the decoder accepts

The decoder forgets how wide a head was before it looks at the argument. What
it accepts is therefore what encodes a value with heads of any width, those of
simple values included. All of it is scanned to the same end.
-/
namespace Outscript.Cbor

open ByteString Cursor DataItem

/-! ## Encodings of a value -/

/-- The one-byte simple values: false, true, null and undefined. -/
inductive OneByte : Cbor → Bytes → Prop
  | false : OneByte (.bool false) [0xf4]
  | true : OneByte (.bool true) [0xf5]
  | null : OneByte .null [0xf6]
  | undefined : OneByte .null [0xf7]

/-- The same values behind a head of any width. -/
inductive AnyWidth : Cbor → Bytes → Prop
  | false (a : Arg) (h : a.value = 20) : AnyWidth (.bool false) (Head.bytes ⟨7, some a⟩)
  | true (a : Arg) (h : a.value = 21) : AnyWidth (.bool true) (Head.bytes ⟨7, some a⟩)
  | null (a : Arg) (h : a.value = 22 ∨ a.value = 23) : AnyWidth .null (Head.bytes ⟨7, some a⟩)

/-- The encodings of a value, with heads of any width, given those of simple values. The items of
a map are counted in 64 bits. -/
inductive Encodes (Simple : Cbor → Bytes → Prop) : Cbor → Bytes → Prop
  | uint (a : Arg) : Encodes Simple (.uint (UInt64.ofNat a.value)) (Head.bytes ⟨0, some a⟩)
  | bytes (s : Str) : Encodes Simple (.bytes s.content) (s.bytes false)
  | array (a : Arg) (parts : List (Bytes × Cbor)) (hlen : parts.length = a.value)
    (h : ∀ p ∈ parts, Encodes Simple p.2 p.1) :
    Encodes Simple (.array (parts.map Prod.snd)) (Head.bytes ⟨4, some a⟩ ++ parts.flatMap Prod.fst)
  | map (a : Arg) (entries : List ((Bytes × Cbor) × Bytes × Cbor)) (hlen : entries.length = a.value)
    (hcount : a.value * 2 < 2 ^ 64) (hkeys : ∀ e ∈ entries, Encodes Simple e.1.2 e.1.1)
    (hvalues : ∀ e ∈ entries, Encodes Simple e.2.2 e.2.1) :
    Encodes Simple (.map (entries.map fun e => (e.1.2, e.2.2)))
      (Head.bytes ⟨5, some a⟩ ++ entries.flatMap fun e => e.1.1 ++ e.2.1)
  | simple {v : Cbor} {b : Bytes} (h : Simple v b) : Encodes Simple v b

/-- What encodes a value is an item to the scanner. -/
theorem Encodes.scannable {v : Cbor} {b : Bytes} (h : Encodes AnyWidth v b) : Scannable b := by
  induction h with
  | uint a => exact .alone (.inl rfl)
  | bytes s => exact .string false s
  | array a parts hlen _ ih =>
    have hcount : (parts.map Prod.fst).length = a.value * perEntry false := by
      rw [List.length_map, hlen]
      exact (Nat.mul_one _).symm
    refine .counted false a (parts.map Prod.fst) hcount fun b hb => ?_
    obtain ⟨p, hp, rfl⟩ := List.mem_map.mp hb
    exact ih p hp
  | map a entries hlen hcount _ _ ihk ihv =>
    let items := entries.flatMap fun e => [e.1.1, e.2.1]
    have hflatten : items.flatten = entries.flatMap fun e => e.1.1 ++ e.2.1 := by
      rw [← List.flatMap_id, List.flatMap_assoc]
      simp
    have hcount : items.length = a.value * perEntry true := by
      simp [items, List.length_flatMap, hlen, perEntry]
    rw [← hflatten]
    refine .counted true a items hcount fun b hb => ?_
    obtain ⟨e, he, hb⟩ := List.mem_flatMap.mp hb
    rw [List.mem_cons, List.mem_singleton] at hb
    rcases hb with rfl | rfl
    · exact ihk e he
    · exact ihv e he
  | simple hs =>
    cases hs with
    | false a _ => exact .alone (.inr (.inr ⟨rfl, by simp⟩))
    | true a _ => exact .alone (.inr (.inr ⟨rfl, by simp⟩))
    | null a _ => exact .alone (.inr (.inr ⟨rfl, by simp⟩))

/-! ## What is decoded -/

/-- A count that the items behind it make good. -/
theorem accepts_checkCount_bind {α : Type} {n : ℕ} {q : ℕ → Read UInt8 Error α} {S : Bytes → α → Prop}
    (hq : Accepts (q n) S) (hlen : ∀ b a, S b a → n ≤ b.length) : Accepts (checkCount n >>= q) S := by
  intro c a c'
  by_cases hle : n ≤ c.rest.length
  · rw [run_bind_of (run_checkCount hle), hq]
  · refine iff_of_false (fun h => ?_) ?_
    · obtain ⟨m, c₁, hcheck, -⟩ := run_bind_ok.mp h
      exact hle (checkCount_eq_ok.mp hcheck).2.1
    · rintro ⟨b, hb, hrest, -⟩
      have hb := hlen b a hb
      rw [hrest, List.length_append] at hle
      omega

theorem mul_length_le_flatMap {α : Type} {parts : List (Bytes × α)} {k : ℕ}
    (h : ∀ p ∈ parts, k ≤ p.1.length) : parts.length * k ≤ (parts.flatMap Prod.fst).length := by
  induction parts with
  | nil => exact (Nat.zero_mul k).le
  | cons p parts ih =>
    obtain ⟨hp, hparts⟩ := List.forall_mem_cons.mp h
    have hle := ih hparts
    rw [List.flatMap_cons, List.length_append, List.length_cons, Nat.succ_mul]
    omega

/-- The items of an array behind its head, each with its string. -/
def ArrayOf (R : Bytes → Cbor → Prop) (arg : ℕ) (b : Bytes) (v : Cbor) : Prop :=
  ∃ parts : List (Bytes × Cbor), parts.length = arg ∧ (∀ p ∈ parts, R p.1 p.2) ∧
    b = parts.flatMap Prod.fst ∧ v = .array (parts.map Prod.snd)

def MapOf (R : Bytes → Cbor → Prop) (arg : ℕ) (b : Bytes) (v : Cbor) : Prop :=
  ∃ entries : List ((Bytes × Cbor) × Bytes × Cbor), entries.length = arg ∧ arg * 2 < 2 ^ 64 ∧
    (∀ e ∈ entries, R e.1.1 e.1.2) ∧ (∀ e ∈ entries, R e.2.1 e.2.2) ∧
    b = (entries.flatMap fun e => e.1.1 ++ e.2.1) ∧ v = .map (entries.map fun e => (e.1.2, e.2.2))

section Body

variable {inner : Read UInt8 Error Cbor} {R : Bytes → Cbor → Prop}

theorem accepts_array (hinner : Accepts inner R) (hne : ∀ b v, R b v → b ≠ []) (arg : ℕ) :
    Accepts (decodeArg (some inner) 4 arg) (ArrayOf R arg) := by
  refine (accepts_checkCount_bind ((hinner.many_parts arg).bind fun items =>
    accepts_pure (Cbor.array items)) ?_).congr fun b v => ?_
  · rintro b v ⟨_, _, items, ⟨parts, hlen, hparts, rfl, rfl⟩, ⟨rfl, rfl⟩, rfl⟩
    have hle := mul_length_le_flatMap (k := 1) fun p hp =>
      List.length_pos_iff.mpr (hne p.1 p.2 (hparts p hp))
    rw [List.append_nil, ← hlen]
    omega
  · constructor
    · rintro ⟨_, _, items, ⟨parts, hlen, hparts, rfl, rfl⟩, ⟨rfl, rfl⟩, rfl⟩
      exact ⟨parts, hlen, hparts, List.append_nil _, rfl⟩
    · rintro ⟨parts, hlen, hparts, rfl, rfl⟩
      exact ⟨_, [], _, ⟨parts, hlen, hparts, rfl, rfl⟩, ⟨rfl, rfl⟩, (List.append_nil _).symm⟩

/-- A key and its value, with the strings that they are read from. -/
theorem exists_entries {parts : List (Bytes × Cbor × Cbor)}
    (h : ∀ p ∈ parts, ∃ k v, R k p.2.1 ∧ R v p.2.2 ∧ p.1 = k ++ v) :
    ∃ entries : List ((Bytes × Cbor) × Bytes × Cbor),
      (∀ e ∈ entries, R e.1.1 e.1.2) ∧ (∀ e ∈ entries, R e.2.1 e.2.2) ∧
      parts = entries.map fun e => (e.1.1 ++ e.2.1, e.1.2, e.2.2) := by
  induction parts with
  | nil => exact ⟨[], fun e he => (nomatch he), fun e he => (nomatch he), rfl⟩
  | cons p parts ih =>
    obtain ⟨⟨k, v, hk, hv, hp⟩, hparts⟩ := List.forall_mem_cons.mp h
    obtain ⟨entries, hkeys, hvalues, rfl⟩ := ih hparts
    obtain ⟨b, key, value⟩ := p
    dsimp only at hp
    subst hp
    exact ⟨((k, key), v, value) :: entries, List.forall_mem_cons.mpr ⟨hk, hkeys⟩,
      List.forall_mem_cons.mpr ⟨hv, hvalues⟩, rfl⟩

theorem accepts_map (hinner : Accepts inner R) (hne : ∀ b v, R b v → b ≠ []) (arg : ℕ) :
    Accepts (decodeArg (some inner) 5 arg) (MapOf R arg) := by
  have hpair : Accepts (do
      let k ← inner
      let v ← inner
      pure (k, v)) fun b e => ∃ k v, R k e.1 ∧ R v e.2 ∧ b = k ++ v := by
    refine (hinner.bind fun k => hinner.bind fun v => accepts_pure (k, v)).congr fun b e => ?_
    constructor
    · rintro ⟨bk, _, k, hk, ⟨bv, _, v, hv, ⟨rfl, rfl⟩, rfl⟩, rfl⟩
      exact ⟨bk, bv, hk, hv, by rw [List.append_nil]⟩
    · rintro ⟨bk, bv, hk, hv, rfl⟩
      exact ⟨bk, bv, e.1, hk, ⟨bv, [], e.2, hv, ⟨rfl, rfl⟩, (List.append_nil _).symm⟩, rfl⟩
  have hdiv : arg * 2 / 2 = arg := Nat.mul_div_cancel _ (by decide)
  refine ((accepts_checkCount_bind ((hpair.many_parts (arg * 2 / 2)).bind fun entries =>
    accepts_pure (Cbor.map entries)) ?_).require _).congr fun b v => ?_
  · rintro b v ⟨_, _, items, ⟨parts, hlen, hparts, rfl, rfl⟩, ⟨rfl, rfl⟩, rfl⟩
    have hle := mul_length_le_flatMap (k := 2) fun p hp => by
      obtain ⟨k, v, hk, hv, heq⟩ := hparts p hp
      have hkpos := List.length_pos_iff.mpr (hne _ _ hk)
      have hvpos := List.length_pos_iff.mpr (hne _ _ hv)
      rw [heq, List.length_append]
      omega
    rwa [hlen, hdiv, ← List.append_nil (List.flatMap _ _)] at hle
  · constructor
    · rintro ⟨hlt, _, _, items, ⟨parts, hlen, hparts, rfl, rfl⟩, ⟨rfl, rfl⟩, rfl⟩
      obtain ⟨entries, hkeys, hvalues, rfl⟩ := exists_entries hparts
      rw [List.length_map, hdiv] at hlen
      refine ⟨entries, hlen, hlt, hkeys, hvalues, ?_, ?_⟩
      · rw [List.append_nil, List.flatMap_map]
      · rw [List.map_map]
        rfl
    · rintro ⟨entries, hlen, hlt, hkeys, hvalues, rfl, rfl⟩
      refine ⟨hlt, _, [], _, ⟨entries.map fun e => (e.1.1 ++ e.2.1, e.1.2, e.2.2), ?_, ?_, rfl, rfl⟩,
        ⟨rfl, ?_⟩, ?_⟩
      · rw [List.length_map, hlen, hdiv]
      · intro p hp
        obtain ⟨e, he, rfl⟩ := List.mem_map.mp hp
        exact ⟨e.1.1, e.2.1, hkeys e he, hvalues e he, rfl⟩
      · rw [List.map_map]
        rfl
      · rw [List.append_nil, List.flatMap_map]

end Body

theorem accepts_bytes (arg : ℕ) : Accepts (do
    let b ← take Error.unexpectedEof arg
    pure (Cbor.bytes b)) fun b v => b.length = arg ∧ v = .bytes b := by
  refine ((accepts_take _ _).bind fun b => accepts_pure (Cbor.bytes b)).congr fun b v => ?_
  constructor
  · rintro ⟨_, _, b, ⟨hlen, rfl⟩, ⟨rfl, rfl⟩, rfl⟩
    rw [List.append_nil]
    exact ⟨hlen, rfl⟩
  · rintro ⟨hlen, rfl⟩
    exact ⟨b, [], b, ⟨hlen, rfl⟩, ⟨rfl, rfl⟩, (List.append_nil b).symm⟩

def SimpleOf (arg : ℕ) (b : Bytes) (v : Cbor) : Prop :=
  b = [] ∧ (arg = 20 ∧ v = .bool false ∨ arg = 21 ∧ v = .bool true ∨ (arg = 22 ∨ arg = 23) ∧ v = .null)

theorem accepts_simple (inner : Option (Read UInt8 Error Cbor)) (arg : ℕ) :
    Accepts (decodeArg inner 7 arg) (SimpleOf arg) := by
  refine ((accepts_pure (Cbor.bool false)).ite ((accepts_pure (Cbor.bool true)).ite
    ((accepts_pure Cbor.null).ite (accepts_throw _)))).congr fun b v => ?_
  unfold SimpleOf
  split_ifs with h20 h21 h22
  · subst h20
    simp
  · subst h21
    simp
  · simp [h20, h21, h22]
  · simp [h20, h21, h22]

/-- What follows a head of a major type, with containers if any may be opened. -/
def BodyOf (deeper : Prop) (R : Bytes → Cbor → Prop) (major : UInt8) (arg : ℕ) (b : Bytes) (v : Cbor) :
    Prop :=
  (major = 0 ∧ b = [] ∧ v = .uint (UInt64.ofNat arg)) ∨ (major = 2 ∧ b.length = arg ∧ v = .bytes b) ∨
    (major = 4 ∧ deeper ∧ ArrayOf R arg b v) ∨ (major = 5 ∧ deeper ∧ MapOf R arg b v) ∨
    (major = 7 ∧ SimpleOf arg b v)

theorem accepts_decodeArg {inner : Option (Read UInt8 Error Cbor)} {R : Bytes → Cbor → Prop}
    (hinner : ∀ p, inner = some p → Accepts p R) (hne : ∀ b v, R b v → b ≠ []) (major : UInt8) (arg : ℕ) :
    Accepts (decodeArg inner major arg) (BodyOf (inner ≠ none) R major arg) := by
  by_cases h0 : major = 0
  · subst h0
    exact (accepts_pure _).congr fun b v => by simp [BodyOf]
  by_cases h2 : major = 2
  · subst h2
    exact (accepts_bytes arg).congr fun b v => by simp [BodyOf]
  by_cases h4 : major = 4
  · subst h4
    cases inner with
    | none => exact (accepts_throw _).congr fun b v => by simp [BodyOf]
    | some p => exact (accepts_array (hinner p rfl) hne arg).congr fun b v => by simp [BodyOf]
  by_cases h5 : major = 5
  · subst h5
    cases inner with
    | none => exact (accepts_throw _).congr fun b v => by simp [BodyOf]
    | some p => exact (accepts_map (hinner p rfl) hne arg).congr fun b v => by simp [BodyOf]
  by_cases h7 : major = 7
  · subst h7
    exact (accepts_simple inner arg).congr fun b v => by simp [BodyOf]
  · have hthrow : decodeArg inner major arg = throw (.unsupportedMajorType major) := by
      simp only [decodeArg, h0, h2, h4, h5, h7, if_false]
    rw [hthrow]
    exact (accepts_throw _).congr fun b v => by simp [BodyOf, h0, h2, h4, h5, h7]

/-- An encoding of a value that is nested at most so deep. -/
def Within (left : ℕ) (b : Bytes) (v : Cbor) : Prop := Encodes AnyWidth v b ∧ v.depth ≤ left

theorem Within.ne_nil {left : ℕ} {b : Bytes} {v : Cbor} (h : Within left b v) : b ≠ [] :=
  Item.ne_nil h.1.scannable

theorem ofNat_major {m m' : Fin 8} : UInt8.ofNat m = UInt8.ofNat m' ↔ m = m' := by
  revert m m'
  decide

theorem depth_array_le {items : List Cbor} {left : ℕ} :
    (array items).depth ≤ left ↔ 0 < left ∧ ∀ c ∈ items, c.depth ≤ left - 1 := by
  rw [← depthItems_le_iff, depth]
  omega

theorem depth_map_le {entries : List (Cbor × Cbor)} {left : ℕ} :
    (map entries).depth ≤ left ↔
      0 < left ∧ ∀ e ∈ entries, e.1.depth ≤ left - 1 ∧ e.2.depth ≤ left - 1 := by
  rw [← depthEntries_le_iff, depth]
  omega

/-- A head that the decoder does not refuse, and what follows it. -/
def HeadAndBody (left : ℕ) (b : Bytes) (v : Cbor) : Prop :=
  ∃ (h : Head) (b₂ : Bytes), b = h.bytes ++ b₂ ∧
    ¬ (h.arg = none ∧ (h.major = 0 ∨ h.major = 2 ∨ h.major = 4 ∨ h.major = 5)) ∧
    BodyOf (0 < left) (Within (left - 1)) (UInt8.ofNat h.major) (h.arg.elim 0 Arg.value) b₂ v

theorem within_of_headAndBody {left : ℕ} {b : Bytes} {v : Cbor} (h : HeadAndBody left b v) :
    Within left b v := by
  obtain ⟨⟨m, arg⟩, b₂, rfl, hdef, hbody⟩ := h
  rcases hbody with ⟨hm, rfl, rfl⟩ | ⟨hm, hlen, rfl⟩ | ⟨hm, hpos, parts, hlen, hparts, rfl, rfl⟩ |
    ⟨hm, hpos, entries, hlen, hcount, hkeys, hvalues, rfl, rfl⟩ | ⟨hm, rfl, hsimple⟩
  · obtain rfl : m = 0 := ofNat_major.mp hm
    cases arg with
    | none => exact absurd ⟨rfl, .inl rfl⟩ hdef
    | some a =>
      rw [List.append_nil]
      exact ⟨.uint a, Nat.zero_le _⟩
  · obtain rfl : m = 2 := ofNat_major.mp hm
    cases arg with
    | none => exact absurd ⟨rfl, .inr (.inl rfl)⟩ hdef
    | some a => exact ⟨.bytes ⟨a, b₂, hlen⟩, Nat.zero_le _⟩
  · obtain rfl : m = 4 := ofNat_major.mp hm
    cases arg with
    | none => exact absurd ⟨rfl, .inr (.inr (.inl rfl))⟩ hdef
    | some a =>
      refine ⟨.array a parts hlen fun p hp => (hparts p hp).1, depth_array_le.mpr ⟨hpos, fun c hc => ?_⟩⟩
      obtain ⟨p, hp, rfl⟩ := List.mem_map.mp hc
      exact (hparts p hp).2
  · obtain rfl : m = 5 := ofNat_major.mp hm
    cases arg with
    | none => exact absurd ⟨rfl, .inr (.inr (.inr rfl))⟩ hdef
    | some a =>
      refine ⟨.map a entries hlen hcount (fun e he => (hkeys e he).1) fun e he => (hvalues e he).1,
        depth_map_le.mpr ⟨hpos, fun e he => ?_⟩⟩
      obtain ⟨entry, hentry, rfl⟩ := List.mem_map.mp he
      exact ⟨(hkeys entry hentry).2, (hvalues entry hentry).2⟩
  · obtain rfl : m = 7 := ofNat_major.mp hm
    rw [List.append_nil]
    cases arg with
    | none =>
      rcases hsimple with ⟨h20, -⟩ | ⟨h21, -⟩ | ⟨h22 | h23, -⟩
      · cases h20
      · cases h21
      · cases h22
      · cases h23
    | some a =>
      rcases hsimple with ⟨h20, rfl⟩ | ⟨h21, rfl⟩ | ⟨h22, rfl⟩
      · exact ⟨.simple (.false a h20), Nat.zero_le _⟩
      · exact ⟨.simple (.true a h21), Nat.zero_le _⟩
      · exact ⟨.simple (.null a h22), Nat.zero_le _⟩

theorem headAndBody_of_within {left : ℕ} {b : Bytes} {v : Cbor} (h : Within left b v) :
    HeadAndBody left b v := by
  obtain ⟨henc, hdepth⟩ := h
  have hdef (m : Fin 8) (a : Arg) : ¬ ((⟨m, some a⟩ : Head).arg = none ∧
      ((⟨m, some a⟩ : Head).major = 0 ∨ (⟨m, some a⟩ : Head).major = 2 ∨
        (⟨m, some a⟩ : Head).major = 4 ∨ (⟨m, some a⟩ : Head).major = 5)) := by simp
  cases henc with
  | uint a => exact ⟨⟨0, some a⟩, [], (List.append_nil _).symm, hdef 0 a, .inl ⟨rfl, rfl, rfl⟩⟩
  | bytes s => exact ⟨⟨2, some s.arg⟩, s.content, rfl, hdef 2 s.arg, .inr (.inl ⟨rfl, s.length_eq, rfl⟩)⟩
  | array a parts hlen hparts =>
    obtain ⟨hpos, hitems⟩ := depth_array_le.mp hdepth
    have hwithin : ∀ p ∈ parts, Within (left - 1) p.1 p.2 := fun p hp =>
      ⟨hparts p hp, hitems _ (List.mem_map_of_mem hp)⟩
    exact ⟨⟨4, some a⟩, _, rfl, hdef 4 a,
      .inr (.inr (.inl ⟨rfl, hpos, parts, hlen, hwithin, rfl, rfl⟩))⟩
  | map a entries hlen hcount hkeys hvalues =>
    obtain ⟨hpos, hitems⟩ := depth_map_le.mp hdepth
    have hmem : ∀ e ∈ entries, (e.1.2, e.2.2) ∈ entries.map fun e => (e.1.2, e.2.2) := fun e he =>
      List.mem_map_of_mem (f := fun e : (Bytes × Cbor) × Bytes × Cbor => (e.1.2, e.2.2)) he
    exact ⟨⟨5, some a⟩, _, rfl, hdef 5 a, .inr (.inr (.inr (.inl ⟨rfl, hpos, entries, hlen, hcount,
      fun e he => ⟨hkeys e he, (hitems _ (hmem e he)).1⟩,
      fun e he => ⟨hvalues e he, (hitems _ (hmem e he)).2⟩, rfl, rfl⟩)))⟩
  | simple hs =>
    have hhead (a : Arg) (hs : SimpleOf a.value [] v) (hb : b = Head.bytes ⟨7, some a⟩) :
        HeadAndBody left b v :=
      ⟨⟨7, some a⟩, [], by rw [hb, List.append_nil], hdef 7 a, .inr (.inr (.inr (.inr ⟨rfl, hs⟩)))⟩
    cases hs with
    | false a h20 => exact hhead a ⟨rfl, .inl ⟨h20, rfl⟩⟩ rfl
    | true a h21 => exact hhead a ⟨rfl, .inr (.inl ⟨h21, rfl⟩)⟩ rfl
    | null a h22 => exact hhead a ⟨rfl, .inr (.inr ⟨h22, rfl⟩)⟩ rfl

theorem accepts_decodeBody {inner : Option (Read UInt8 Error Cbor)} {left : ℕ}
    (hdeep : inner ≠ none ↔ 0 < left) (hinner : ∀ p, inner = some p → Accepts p (Within (left - 1))) :
    Accepts (decodeBody inner) (Within left) := by
  have harg (r : UInt8 × ℕ × Bool) := @Accepts.require _ _ _ _ _
    (¬ (r.2.2 = true ∧ (r.1 = 0 ∨ r.1 = 2 ∨ r.1 = 4 ∨ r.1 = 5))) _ Error.unsupportedIndefiniteLength
    (accepts_decodeArg hinner (fun b v => Within.ne_nil) r.1 r.2.1)
  refine (accepts_readHead.bind harg).congr fun b v => ?_
  rw [hdeep]
  have hmajors (h : Head) : ¬ ((headFields h).2.2 = true ∧ ((headFields h).1 = 0 ∨
      (headFields h).1 = 2 ∨ (headFields h).1 = 4 ∨ (headFields h).1 = 5)) ↔
      ¬ (h.arg = none ∧ (h.major = 0 ∨ h.major = 2 ∨ h.major = 4 ∨ h.major = 5)) := by
    have h0 : (headFields h).1 = 0 ↔ h.major = 0 := @ofNat_major h.major 0
    have h2 : (headFields h).1 = 2 ↔ h.major = 2 := @ofNat_major h.major 2
    have h4 : (headFields h).1 = 4 ↔ h.major = 4 := @ofNat_major h.major 4
    have h5 : (headFields h).1 = 5 ↔ h.major = 5 := @ofNat_major h.major 5
    have hnone : (headFields h).2.2 = true ↔ h.arg = none := Option.isNone_iff_eq_none
    rw [h0, h2, h4, h5, hnone]
  constructor
  · rintro ⟨_, b₂, _, ⟨h, rfl, rfl⟩, ⟨hdef, hbody⟩, rfl⟩
    exact within_of_headAndBody ⟨h, b₂, rfl, (hmajors h).mp hdef, hbody⟩
  · intro hwithin
    obtain ⟨h, b₂, rfl, hdef, hbody⟩ := headAndBody_of_within hwithin
    exact ⟨h.bytes, b₂, headFields h, ⟨h, rfl, rfl⟩, ⟨(hmajors h).mpr hdef, hbody⟩, rfl⟩

/-- What is decoded is an encoding with heads of any width, that of the value returned. -/
theorem accepts_decodeValue (left : ℕ) : Accepts (decodeValue left) (Within left) := by
  induction left with
  | zero => exact accepts_decodeBody (by simp) fun p hp => nomatch hp
  | succ left ih =>
    refine accepts_decodeBody (by simp) fun p hp => ?_
    obtain rfl := Option.some.inj hp
    exact ih

theorem decode_eq_ok {data : Bytes} {v : Cbor} {n : ℕ} :
    decode data = .ok (v, n) ↔ ∃ b r, data = b ++ r ∧ Within maxDepth b v ∧ n = b.length := by
  rw [decode, Fallible.bind_eq_ok]
  constructor
  · rintro ⟨⟨v', c⟩, hrun, hok⟩
    obtain ⟨rfl, rfl⟩ := Prod.mk.inj (Except.ok.inj hok)
    obtain ⟨b, hb, hrest, hpos⟩ := (accepts_decodeValue _ _ _ _).mp hrun
    exact ⟨b, c.rest, hrest, hb, hpos.trans (Nat.zero_add _)⟩
  · rintro ⟨b, r, rfl, hb, rfl⟩
    exact ⟨(v, ⟨r, 0 + b.length⟩), (accepts_decodeValue _).reads hb r 0, by rw [Nat.zero_add]⟩

/-- Decoding accepts the documented subset only: heads of any width, and simple values of one byte. -/
def AcceptsSubset (data : Bytes) : Prop :=
  ∀ v n, decode data = .ok (v, n) → Encodes OneByte v (data.take n)

/-- The bytes begin with a value nested at most so deep that the decoder follows it, some simple
value in which is behind a head of more than a byte. -/
def BeginsWide (data : Bytes) : Prop :=
  ∃ b r v, data = b ++ r ∧ Encodes AnyWidth v b ∧ v.depth ≤ maxDepth ∧ ¬ Encodes OneByte v b

theorem accepts_subset_iff (data : Bytes) : AcceptsSubset data ↔ ¬ BeginsWide data := by
  constructor
  · rintro hsub ⟨b, r, v, rfl, henc, hdepth, hnot⟩
    have hdecode := hsub v b.length (decode_eq_ok.mpr ⟨b, r, rfl, ⟨henc, hdepth⟩, rfl⟩)
    rw [List.take_left] at hdecode
    exact hnot hdecode
  · intro hnot v n hdecode
    obtain ⟨b, r, rfl, ⟨henc, hdepth⟩, rfl⟩ := decode_eq_ok.mp hdecode
    rw [List.take_left]
    by_contra hbad
    exact hnot ⟨b, r, v, rfl, henc, hdepth, hbad⟩

/-- A half-precision float is decoded as false. -/
theorem accepts_float : decode [0xf9, 0x00, 0x14] = .ok (.bool false, 3) ∧
    ¬ AcceptsSubset [0xf9, 0x00, 0x14] := by
  have hdecode : decode [0xf9, 0x00, 0x14] = .ok (.bool false, 3) := rfl
  refine ⟨hdecode, fun hsub => ?_⟩
  cases hsub _ _ hdecode with
  | simple hs => cases hs

/-! ## The two readers -/

theorem reads_scanned {b : Bytes} (h : Scannable b) (hlen : b.length < 2 ^ 64) : Reads scanned b b := by
  intro rest pos
  have hslice : (b ++ rest).take (pos + b.length - pos) = b := by
    rw [Nat.add_sub_cancel_left, List.take_left]
  change (scanItem.run ⟨b ++ rest, pos⟩ >>= _) = _
  rw [reads_scanItem h hlen rest pos]
  exact congrArg (fun s => Except.ok (s, (⟨rest, pos + b.length⟩ : State UInt8))) hslice

/-- An array of items is cut into them. -/
theorem splitArrayItems_items {a : Arg} {items : List Bytes} (hcount : items.length = a.value)
    (h : ∀ b ∈ items, Scannable b) (hfits : items.flatten.length < 2 ^ 64) (r : Bytes) :
    splitArrayItems (Head.bytes ⟨4, some a⟩ ++ items.flatten ++ r) = .ok items := by
  have hle := Item.length_le_flatten h
  have hitem : ∀ b ∈ items, Reads scanned b b := fun b hb =>
    reads_scanned (h b hb) ((List.sublist_flatten_of_mem hb).length_le.trans_lt hfits)
  have hitems : Reads (many scanned items.length) (items.flatMap id) (items.map id) := Reads.many hitem
  rw [List.flatMap_id, List.map_id] at hitems
  have hroom : a.value ≤ (items.flatten ++ r).length := by
    rw [List.length_append]
    omega
  have hrun : readItems.run ⟨Head.bytes ⟨4, some a⟩ ++ (items.flatten ++ r), 0⟩ =
      .ok (items, ⟨r, 0 + (Head.bytes ⟨4, some a⟩).length + items.flatten.length⟩) := by
    rw [readItems, run_bind_of (reads_readHead _ _ _)]
    change StateT.run (require ((4 : UInt8) = 4 ∧ false = false) Error.expectedArray >>= fun _ =>
      checkCount a.value >>= fun count => many scanned count) _ = _
    rw [run_require_bind ⟨rfl, rfl⟩, run_bind_of (run_checkCount hroom), ← hcount]
    exact hitems r _
  rw [List.append_assoc]
  exact congrArg (fun r => r >>= fun p => Except.ok p.1) hrun

/-- An encoded value is one item. -/
theorem scannable_encode {c : Cbor} (h : Readable maxDepth c) : Scannable c.encode := by
  obtain ⟨b, r, hencode, ⟨hb, -⟩, hlen⟩ := decode_eq_ok.mp (decode_encode h)
  rw [hencode, List.length_append] at hlen
  have hnil : r = [] := List.length_eq_zero_iff.mp (by omega)
  rw [hencode, hnil, List.append_nil]
  exact hb.scannable

/-- What is decoded is scanned to the same end; an array that is decoded is cut into the encodings
of its items. -/
theorem readers_agree {data : Bytes} {v : Cbor} {n : ℕ} (hlen : data.length < 2 ^ 64)
    (h : decode data = .ok (v, n)) :
    scanItemAt data 0 = (.ok (), n) ∧
      ∀ items, v = .array items → ∃ (slices : List Bytes) (a : Arg),
        splitArrayItems data = .ok slices ∧ slices.length = items.length ∧
        List.Forall₂ (fun slice item => decode slice = .ok (item, slice.length)) slices items ∧
        a.value = items.length ∧ data.take n = Head.bytes ⟨4, some a⟩ ++ slices.flatten := by
  obtain ⟨b, r, rfl, hwithin, rfl⟩ := decode_eq_ok.mp h
  constructor
  · exact (scanItemAt_eq_ok hlen).mpr ⟨b, r, rfl, hwithin.1.scannable, (Nat.zero_add _).symm⟩
  · rintro items rfl
    obtain ⟨henc, hdepth⟩ := hwithin
    cases henc with
    | array a parts hcount hparts =>
      obtain ⟨-, hitems⟩ := depth_array_le.mp hdepth
      rw [List.length_append] at hlen
      have hscan : ∀ b ∈ parts.map Prod.fst, Scannable b :=
        List.forall_mem_map.mpr fun p hp => (hparts p hp).scannable
      have hfits : (parts.map Prod.fst).flatten.length < 2 ^ 64 := by
        rw [List.length_append, List.flatMap_def] at hlen
        omega
      have hsplit := splitArrayItems_items (by rw [List.length_map, hcount]) hscan hfits r
      refine ⟨parts.map Prod.fst, a, hsplit, by simp, ?_, by simp [hcount], ?_⟩
      · rw [List.forall₂_map_left_iff, List.forall₂_map_right_iff]
        refine List.forall₂_same.mpr fun p hp => ?_
        have hle := hitems _ (List.mem_map_of_mem hp)
        exact decode_eq_ok.mpr ⟨p.1, [], (List.append_nil _).symm,
          ⟨hparts p hp, hle.trans (Nat.sub_le _ _)⟩, rfl⟩
      · rw [List.take_left]
        rfl
    | simple hs => cases hs

/-- An array of two values, one of them behind a head that is wider than it needs. -/
theorem readers_agree_sample :
    scanItemAt [0x82, 0x01, 0x18, 0x02, 0xff] 0 = (.ok (), 4) ∧
      ∃ slices, splitArrayItems [0x82, 0x01, 0x18, 0x02, 0xff] = .ok slices ∧ slices.length = 2 := by
  have hdecode : decode [0x82, 0x01, 0x18, 0x02, 0xff] = .ok (.array [.uint 1, .uint 2], 4) := rfl
  obtain ⟨hscan, hsplit⟩ := readers_agree (by decide) hdecode
  obtain ⟨slices, -, hslices, hlen, -⟩ := hsplit _ rfl
  exact ⟨hscan, slices, hslices, hlen⟩

end Outscript.Cbor
