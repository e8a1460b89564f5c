import Outscript.Cbor.Scan
import Outscript.Library.Accepts
import Outscript.Library.DataItem

/-!
# What the scanner recognises

The scanner keeps the containers it is in on a stack, and each of them still
expects some items. What a stack expects is a string, so an accepting run has
an item behind it, and an item is scanned to its end from any stack. The heads
that the scanner takes are more than those of well-formed items.
-/
namespace Outscript.Cbor

open ByteString Cursor DataItem

/-! ## Heads -/

/-- What is read of a head. -/
def headFields (h : Head) : UInt8 × ℕ × Bool :=
  (UInt8.ofNat h.major, h.arg.elim 0 Arg.value, h.arg.isNone)

theorem reads_readHead (h : Head) : Reads readHead h.bytes (headFields h) := by
  intro rest pos
  obtain ⟨m, arg⟩ := h
  obtain ⟨hmajor, hinfo⟩ := initialByte_parts m.isLt (Head.info_lt ⟨m, arg⟩)
  change readHead.run ⟨initialByte m _ :: (arg.elim [] Arg.tail ++ rest), pos⟩ = _
  rw [readHead, run_bind_of (run_item _ _ _)]
  dsimp only
  rw [hmajor, hinfo]
  cases arg with
  | none => rfl
  | some a =>
    have hlen := Head.length_bytes_some m a
    rw [hlen, ← Nat.add_assoc]
    obtain ⟨w, v, hv⟩ := a
    cases w with
    | inline =>
      have hlt : v < 24 := hv
      have hval : (UInt8.ofNat v).toNat = v := by
        rw [UInt8.toNat_ofNat']
        omega
      have hle : UInt8.ofNat v ≤ 23 := by
        rw [UInt8.le_iff_toNat_le, hval]
        exact Nat.le_of_lt_succ hlt
      change StateT.run (if UInt8.ofNat v ≤ 23 then _ else _) _ = _
      rw [if_pos hle]
      exact congrArg (fun n => Except.ok ((UInt8.ofNat m, n, false), (⟨rest, pos + 1⟩ : State UInt8))) hval
    | one => exact run_bind_of (run_readUint (n := 1) hv rest (pos + 1))
    | two => exact run_bind_of (run_readUint (n := 2) hv rest (pos + 1))
    | four => exact run_bind_of (run_readUint (n := 4) hv rest (pos + 1))
    | eight => exact run_bind_of (run_readUint (n := 8) hv rest (pos + 1))

/-- What `readUint` reads is an argument of its width. -/
theorem exists_arg {w : Width} (hw : w ≠ .inline) {c c' : State UInt8} {v : ℕ}
    (h : (readUint w.size).run c = .ok (v, c')) :
    ∃ a : Arg, a.width = w ∧ a.value = v ∧ c.rest = a.tail ++ c'.rest ∧ c'.pos = c.pos + w.size := by
  obtain ⟨bytes, c₁, htake, h⟩ := run_bind_ok.mp h
  obtain ⟨rfl, rfl⟩ := run_pure_ok.mp h
  obtain ⟨b, ⟨hlen, rfl⟩, hrest, hpos⟩ := (accepts_take _ _ _ _ _).mp htake
  have hlt := beVal_lt bytes
  have hbe := be_beVal bytes
  rw [hlen] at hlt hbe hpos
  refine ⟨⟨w, beVal bytes, hlt.trans_le ?_⟩, rfl, rfl, ?_, hpos⟩
  · cases w with
    | inline => exact absurd rfl hw
    | one => exact le_rfl
    | two => exact le_rfl
    | four => exact le_rfl
    | eight => exact le_rfl
  · rw [Arg.tail, hbe, hrest]

theorem exists_head_of_readHead {c c' : State UInt8} {r : UInt8 × ℕ × Bool}
    (h : readHead.run c = .ok (r, c')) :
    ∃ hd : Head, headFields hd = r ∧ c.rest = hd.bytes ++ c'.rest ∧ c'.pos = c.pos + hd.bytes.length := by
  obtain ⟨ib, c₁, hitem, h⟩ := run_bind_ok.mp h
  obtain ⟨-, hrest, hpos⟩ := (decodes_item _ _ _ _).mp hitem
  obtain ⟨m, hm, i, hi, rfl, hmajor, hinfo⟩ := exists_initialByte ib
  have hval : (UInt8.ofNat i).toNat = i := by
    rw [UInt8.toNat_ofNat']
    omega
  dsimp only at h
  rw [hmajor, hinfo] at h
  -- an argument behind the initial byte
  have hwide : ∀ w : Width, w ≠ .inline → (∀ v hv, (⟨w, v, hv⟩ : Arg).info = i) →
      (readUint w.size >>= fun arg => pure (UInt8.ofNat m, arg, false)).run c₁ = .ok (r, c') →
      ∃ hd : Head, headFields hd = r ∧ c.rest = hd.bytes ++ c'.rest ∧
        c'.pos = c.pos + hd.bytes.length := by
    intro w hw hinfo h
    obtain ⟨v, c₂, hread, h⟩ := run_bind_ok.mp h
    obtain ⟨rfl, rfl⟩ := run_pure_ok.mp h
    obtain ⟨⟨w, v, hv⟩, rfl, rfl, hrest', hpos'⟩ := exists_arg hw hread
    refine ⟨⟨⟨m, hm⟩, some ⟨w, v, hv⟩⟩, rfl, ?_, ?_⟩
    · rw [hrest, hrest', ← hinfo v hv]
      rfl
    · rw [hpos', hpos, Head.length_bytes_some, List.length_singleton, Nat.add_assoc]
  have hne (k : UInt8) (hk : UInt8.ofNat i = k) : i = k.toNat := by rw [← hk, hval]
  split_ifs at h with h23 h24 h25 h26 h27 h31
  · obtain ⟨rfl, rfl⟩ := run_pure_ok.mp h
    have hlt : i < 24 := by
      have hle := UInt8.le_iff_toNat_le.mp h23
      rw [hval] at hle
      exact Nat.lt_succ_of_le hle
    refine ⟨⟨⟨m, hm⟩, some ⟨.inline, i, hlt⟩⟩, ?_, hrest, hpos⟩
    rw [hval]
    rfl
  · exact hwide .one (by decide) (fun _ _ => (hne _ h24).symm) h
  · exact hwide .two (by decide) (fun _ _ => (hne _ h25).symm) h
  · exact hwide .four (by decide) (fun _ _ => (hne _ h26).symm) h
  · exact hwide .eight (by decide) (fun _ _ => (hne _ h27).symm) h
  · obtain ⟨rfl, rfl⟩ := run_pure_ok.mp h
    obtain rfl : i = 31 := hne _ h31
    exact ⟨⟨⟨m, hm⟩, none⟩, rfl, hrest, hpos⟩
  · cases h

theorem accepts_readHead :
    Accepts readHead fun b r => ∃ h : Head, b = h.bytes ∧ r = headFields h := by
  intro c r c'
  constructor
  · intro hrun
    obtain ⟨h, hr, hrest, hpos⟩ := exists_head_of_readHead hrun
    exact ⟨h.bytes, ⟨h, rfl, hr.symm⟩, hrest, hpos⟩
  · rintro ⟨_, ⟨h, rfl, rfl⟩, hrest, hpos⟩
    obtain ⟨rest, pos⟩ := c
    obtain ⟨rest', pos'⟩ := c'
    dsimp only at hrest hpos
    subst hrest hpos
    exact reads_readHead h rest' pos

/-- The heads that the scanner takes for items and for tags. -/
def scannerDialect : Dialect where
  Alone h := h.major = 0 ∨ h.major = 1 ∨ h.major = 7 ∧ h.arg ≠ none
  Tag h := h.major = 6

/-- An item as the scanner takes it. -/
abbrev Scannable (b : Bytes) : Prop := Item scannerDialect b

theorem Scannable.of_wellFormed {b : Bytes} (h : Item rfc8949 b) : Scannable b := by
  refine Item.mono (fun hd hh => ?_) (fun hd hh => And.left hh) h
  obtain ⟨a, harg, hmajor⟩ := hh
  have hsome : hd.arg ≠ none := by simp [harg]
  rcases hmajor with h0 | h1 | ⟨h7, -⟩
  · exact .inl h0
  · exact .inr (.inl h1)
  · exact .inr (.inr ⟨h7, hsome⟩)

/-- The first byte of an item is not a break code. -/
theorem Scannable.head_ne {b : Bytes} (h : Scannable b) : ∃ x r, b = x :: r ∧ x ≠ breakCode := by
  obtain ⟨hd, r, rfl, hkind⟩ := h.exists_head
  refine ⟨_, _, rfl, fun hbreak => ?_⟩
  obtain ⟨hmajor, hinfo⟩ : hd.major.val = 7 ∧ hd.info = 31 :=
    @initialByte_inj _ 7 _ 31 hd.major.isLt (by decide) hd.info_lt (by decide) hbreak
  have harg := Head.arg_eq_none hinfo
  rcases hkind with (h0 | h1 | ⟨-, hsome⟩) | h6 | hrange
  · rw [h0] at hmajor
    cases hmajor
  · rw [h1] at hmajor
    cases hmajor
  · exact hsome harg
  · have h6' : hd.major = 6 := h6
    rw [h6'] at hmajor
    cases hmajor
  · omega

/-! ## Chunks -/

theorem ofNat_stringMajor (text : Bool) (m : Fin 8) :
    UInt8.ofNat m = UInt8.ofNat (stringMajor text) ↔ m = stringMajor text := by
  revert text m
  decide

theorem run_str {text : Bool} (s : Str) {α : Type} (f : UInt8 × ℕ × Bool → Read UInt8 Error α)
    (rest : Bytes) (pos : ℕ) :
    (readHead >>= f).run ⟨s.bytes text ++ rest, pos⟩ =
      (f (UInt8.ofNat (stringMajor text), s.arg.value, false)).run
        ⟨s.content ++ rest, pos + (Head.bytes ⟨stringMajor text, some s.arg⟩).length⟩ := by
  rw [Str.bytes, List.append_assoc]
  exact run_bind_of (reads_readHead _ _ _)

/-- Chunks are scanned to the break code behind them. -/
theorem run_scanIndefiniteChunks {text : Bool} {chunks : List Str} {left : ℕ}
    (h : (chunks.flatMap (Str.bytes text)).length < left) (rest : Bytes) (pos : ℕ) :
    (scanIndefiniteChunks (UInt8.ofNat (stringMajor text)) left).run
        ⟨chunks.flatMap (Str.bytes text) ++ breakCode :: rest, pos⟩ =
      .ok ((), ⟨rest, pos + ((chunks.flatMap (Str.bytes text)).length + 1)⟩) := by
  induction chunks generalizing left pos with
  | nil =>
    obtain ⟨left, rfl⟩ := Nat.exists_eq_add_one_of_ne_zero (Nat.ne_of_gt h)
    rw [scanIndefiniteChunks, run_peek_bind]
    rfl
  | cons s chunks ih =>
    obtain ⟨left, rfl⟩ := Nat.exists_eq_add_one_of_ne_zero (Nat.ne_of_gt (Nat.zero_lt_of_lt h))
    have hhead : s.bytes text = initialByte (stringMajor text) s.arg.info :: (s.arg.tail ++ s.content) := rfl
    have hne : initialByte (stringMajor text) s.arg.info ≠ 0xff :=
      initialByte_ne_breakCode (stringMajor text).isLt (s.arg.info_lt.trans (by decide))
    have hpos : 0 < (s.bytes text).length := by
      rw [hhead]
      exact Nat.succ_pos _
    rw [List.flatMap_cons, List.length_append] at h
    have hcontent := Reads.take Error.unexpectedEof s.content
    rw [s.length_eq] at hcontent
    rw [List.flatMap_cons, List.append_assoc, scanIndefiniteChunks, run_peek_bind]
    dsimp only
    rw [if_neg (by rw [hhead]; simpa using hne), run_str, run_require_bind ⟨rfl, rfl⟩,
      run_bind_of (hcontent _ _), ih (by omega)]
    congr 3
    rw [List.length_append, Str.bytes, List.length_append, s.length_eq]
    omega

/-- What is scanned up to a break code is chunks. -/
theorem exists_chunks {text : Bool} {left : ℕ} {c c' : State UInt8} {u : Unit}
    (h : (scanIndefiniteChunks (UInt8.ofNat (stringMajor text)) left).run c = .ok (u, c')) :
    ∃ chunks : List Str, c.rest = chunks.flatMap (Str.bytes text) ++ breakCode :: c'.rest ∧
      c'.pos = c.pos + ((chunks.flatMap (Str.bytes text)).length + 1) := by
  induction left generalizing c with
  | zero => cases h
  | succ left ih =>
    rw [scanIndefiniteChunks, run_peek_bind] at h
    split_ifs at h with hbreak
    · obtain ⟨x, c₁, hitem, h⟩ := run_bind_ok.mp h
      obtain ⟨-, rfl⟩ := run_pure_ok.mp h
      obtain ⟨-, hrest, hpos⟩ := (decodes_item _ _ _ _).mp hitem
      rw [hrest] at hbreak
      obtain rfl : x = breakCode := by simpa [breakCode] using hbreak
      exact ⟨[], hrest, hpos⟩
    · obtain ⟨_, r, rest, ⟨hd, rfl, rfl⟩, hrest, h⟩ := accepts_readHead.of_run_bind h
      obtain ⟨⟨hmajor, hdef⟩, h⟩ := of_run_require_bind h
      obtain ⟨b, content, rest', ⟨hlen, rfl⟩, hrest', h⟩ := (accepts_take _ _).of_run_bind h
      obtain ⟨m, _ | a⟩ := hd
      · cases hdef
      · obtain rfl : m = stringMajor text := (ofNat_stringMajor text m).mp hmajor
        obtain ⟨chunks, hchunks, hpos⟩ := ih h
        dsimp only at hrest' hchunks hpos
        refine ⟨⟨a, content, hlen⟩ :: chunks, ?_, ?_⟩
        · rw [hrest, hrest', hchunks, List.flatMap_cons, List.append_assoc, Str.bytes, List.append_assoc]
        · rw [hpos, List.flatMap_cons, List.length_append, Str.bytes, List.length_append]
          dsimp only
          omega

/-! ## One head and what belongs to it -/

/-- What a string is to the scanner: an item, or the head of a container and what that expects. -/
inductive Opens : Bytes → Option Open → Prop
  | item {b : Bytes} (h : Scannable b) : Opens b none
  | counted (map : Bool) (arg : Arg) (hpos : 0 < arg.value * perEntry map) :
    Opens (Head.bytes ⟨containerMajor map, some arg⟩) (some (.items (arg.value * perEntry map)))
  | untilBreak (map : Bool) :
    Opens (Head.bytes ⟨containerMajor map, none⟩) (some (.untilBreak map false))
  | tag {h : Head} (hh : scannerDialect.Tag h) : Opens h.bytes (some (.items 1))

theorem major_cases (m : Fin 8) : m = 0 ∨ m = 1 ∨ (∃ text, m = stringMajor text) ∨
    (∃ map, m = containerMajor map) ∨ m = 6 ∨ m = 7 := by
  revert m
  decide

theorem checkCount_eq_ok {count n : ℕ} {c c' : State UInt8} :
    (checkCount count).run c = .ok (n, c') ↔ n = count ∧ count ≤ c.rest.length ∧ c' = c := by
  constructor
  · intro h
    rw [checkCount, run_remaining_bind] at h
    obtain ⟨hle, h⟩ := of_run_require_bind h
    obtain ⟨rfl, rfl⟩ := run_pure_ok.mp h
    exact ⟨rfl, hle, rfl⟩
  · rintro ⟨rfl, hle, rfl⟩
    exact run_checkCount hle

/-- A head that opens nothing is an item, with its content if it is a string's. -/
theorem opens_of_scanHead {c c' : State UInt8} {container : Option Open}
    (h : scanHead.run c = .ok (container, c')) :
    ∃ b, Opens b container ∧ c.rest = b ++ c'.rest ∧ c'.pos = c.pos + b.length := by
  obtain ⟨_, _, rest, ⟨⟨m, arg⟩, rfl, rfl⟩, hrest, h⟩ := accepts_readHead.of_run_bind h
  rcases major_cases m with rfl | rfl | ⟨text, rfl⟩ | ⟨map, rfl⟩ | rfl | rfl
  · obtain ⟨rfl, rfl⟩ := run_pure_ok.mp h
    exact ⟨_, .item (.alone (.inl rfl)), hrest, rfl⟩
  · obtain ⟨rfl, rfl⟩ := run_pure_ok.mp h
    exact ⟨_, .item (.alone (.inr (.inl rfl))), hrest, rfl⟩
  · cases arg with
    | none =>
      have hrun : (scanIndefiniteChunks (UInt8.ofNat (stringMajor text)) rest.length >>= fun _ =>
          pure none).run ⟨rest, c.pos + 1⟩ = .ok (container, c') := by
        cases text <;> exact h
      obtain ⟨u, c₁, hchunks, hrun⟩ := run_bind_ok.mp hrun
      obtain ⟨rfl, rfl⟩ := run_pure_ok.mp hrun
      obtain ⟨chunks, hrest', hpos⟩ := exists_chunks hchunks
      dsimp only at hrest' hpos
      refine ⟨_, .item (.chunks text chunks), ?_, ?_⟩
      · rw [hrest, hrest']
        simp
      · rw [hpos]
        simp [Head.bytes]
        omega
    | some a =>
      have hrun : (take Error.unexpectedEof a.value >>= fun _ => pure none).run
          ⟨rest, c.pos + (Head.bytes ⟨stringMajor text, some a⟩).length⟩ = .ok (container, c') := by
        cases text <;> exact h
      obtain ⟨_, content, rest', ⟨hlen, rfl⟩, hrest', hrun⟩ := (accepts_take _ _).of_run_bind hrun
      obtain ⟨rfl, rfl⟩ := run_pure_ok.mp hrun
      dsimp only at hrest'
      refine ⟨_, .item (.string text ⟨a, content, hlen⟩), ?_, ?_⟩
      · rw [hrest, hrest', Str.bytes, List.append_assoc]
      · rw [Str.bytes, List.length_append, Nat.add_assoc]
  · cases arg with
    | none =>
      have hrun : (pure (some (.untilBreak map false)) : Read UInt8 Error (Option Open)).run
          ⟨rest, c.pos + 1⟩ = .ok (container, c') := by
        cases map <;> exact h
      obtain ⟨rfl, rfl⟩ := run_pure_ok.mp hrun
      exact ⟨_, .untilBreak map, hrest, rfl⟩
    | some a =>
      have hrun : (do
          require (a.value * perEntry map < 2 ^ 64) .unexpectedEof
          let _ ← checkCount (a.value * perEntry map)
          pure (if 0 < a.value * perEntry map then some (.items (a.value * perEntry map)) else none) :
          Read UInt8 Error (Option Open)).run
          ⟨rest, c.pos + (Head.bytes ⟨containerMajor map, some a⟩).length⟩ = .ok (container, c') := by
        cases map <;> exact h
      obtain ⟨-, hrun⟩ := of_run_require_bind hrun
      obtain ⟨_, c₁, hcheck, hrun⟩ := run_bind_ok.mp hrun
      obtain ⟨rfl, rfl⟩ := run_pure_ok.mp hrun
      obtain ⟨-, -, rfl⟩ := checkCount_eq_ok.mp hcheck
      split_ifs with hpos
      · exact ⟨_, .counted map a hpos, hrest, rfl⟩
      · have hempty : ([] : List Bytes).length = a.value * perEntry map := (Nat.eq_zero_of_not_pos hpos).symm
        have hitem : Scannable (Head.bytes ⟨containerMajor map, some a⟩) := by
          have hitem := Item.counted (D := scannerDialect) map a [] hempty fun b hb => nomatch hb
          rwa [List.flatten_nil, List.append_nil] at hitem
        exact ⟨_, .item hitem, hrest, rfl⟩
  · obtain ⟨rfl, rfl⟩ := run_pure_ok.mp h
    exact ⟨_, .tag (rfl : (⟨6, arg⟩ : Head).major = 6), hrest, rfl⟩
  · cases arg with
    | none => cases h
    | some a =>
      obtain ⟨rfl, rfl⟩ := run_pure_ok.mp h
      exact ⟨_, .item (.alone (.inr (.inr ⟨rfl, by simp⟩))), hrest, rfl⟩

/-! ## What a stack expects -/

/-- The items that an open container still lacks, the one being scanned left out. -/
def Open.Lacks : Open → ℕ → Prop
  | .items left, n => n = left - 1
  | .untilBreak pairs midPair, n => pairs = true → n % 2 = if midPair then 0 else 1

def Open.closing : Open → Bytes
  | .items _ => []
  | .untilBreak _ _ => [breakCode]

/-- What follows an item in the innermost of the containers. -/
inductive Completes : List Open → Bytes → Prop
  | nil : Completes [] []
  | cons {top : Open} {stack : List Open} {items : List Bytes} {b : Bytes}
    (hlacks : top.Lacks items.length) (hitems : ∀ i ∈ items, Scannable i) (hb : Completes stack b) :
    Completes (top :: stack) (items.flatten ++ (top.closing ++ b))

/-- What follows where an item of the innermost container may start. -/
inductive Continues : List Open → Bytes → Prop
  | item {stack : List Open} {i b : Bytes} (hi : Scannable i) (hb : Completes stack b) :
    Continues stack (i ++ b)
  | close {pairs : Bool} {stack : List Open} {b : Bytes} (hb : Completes stack b) :
    Continues (.untilBreak pairs false :: stack) (breakCode :: b)

/-- Once an item is complete, what is left of the containers goes on with the next. -/
theorem Completes.of_complete {stack : List Open} {b : Bytes}
    (h : match complete stack with
      | none => b = []
      | some stack' => Continues stack' b) : Completes stack b := by
  induction stack with
  | nil =>
    obtain rfl : b = [] := h
    exact .nil
  | cons top stack ih =>
    cases top with
    | items left =>
      rw [complete] at h
      split_ifs at h with hleft
      · cases h with
        | @item _ i b hi hb =>
          cases hb with
          | @cons _ _ items b hlacks hitems hb =>
            have hlen : (i :: items).length = left - 1 := by
              change items.length = left - 1 - 1 at hlacks
              rw [List.length_cons]
              omega
            have hall := @Completes.cons (.items left) _ _ _ hlen
              (List.forall_mem_cons.mpr ⟨hi, hitems⟩) hb
            rwa [List.flatten_cons, List.append_assoc] at hall
      · have hlen : ([] : List Bytes).length = left - 1 := by
          rw [List.length_nil]
          omega
        exact @Completes.cons (.items left) _ [] _ hlen (fun i hi => nomatch hi) (ih h)
    | untilBreak pairs midPair =>
      have hcontinues : Continues (.untilBreak pairs (pairs && !midPair) :: stack) b := h
      generalize hmid : (pairs && !midPair) = mid at hcontinues
      cases hcontinues with
      | @item _ i b hi hb =>
        cases hb with
        | @cons _ _ items b hlacks hitems hb =>
          have hparity : (Open.untilBreak pairs midPair).Lacks (i :: items).length := by
            intro hpairs
            have hrest := hlacks hpairs
            subst hmid hpairs
            rw [List.length_cons]
            cases midPair
            · change items.length % 2 = 0 at hrest
              change (items.length + 1) % 2 = 1
              omega
            · change items.length % 2 = 1 at hrest
              change (items.length + 1) % 2 = 0
              omega
          have hall := Completes.cons hparity (List.forall_mem_cons.mpr ⟨hi, hitems⟩) hb
          rwa [List.flatten_cons, List.append_assoc] at hall
      | close hb =>
        have hparity : (Open.untilBreak pairs midPair).Lacks ([] : List Bytes).length := by
          intro hpairs
          subst hpairs
          cases midPair
          · cases hmid
          · rfl
        exact .cons hparity (fun i hi => nomatch hi) hb

theorem perEntry_dvd {map : Bool} {n : ℕ} : perEntry map ∣ n ↔ (map = true → n % 2 = 0) := by
  cases map
  · simp [perEntry]
  · rw [perEntry, if_pos rfl, Nat.dvd_iff_mod_eq_zero]
    simp

/-- A container that was opened goes on to its end, and is an item then. -/
theorem Opens.item_of_continues {front : Bytes} {container : Open} {stack : List Open} {b : Bytes}
    (h : Opens front (some container)) (hb : Continues (container :: stack) b) :
    Continues stack (front ++ b) := by
  cases h with
  | counted map arg hpos =>
    cases hb with
    | @item _ i b hi hb =>
      cases hb with
      | @cons _ _ items b hlacks hitems hb =>
        have hlen : (i :: items).length = arg.value * perEntry map := by
          change items.length = arg.value * perEntry map - 1 at hlacks
          rw [List.length_cons]
          omega
        have hall := List.forall_mem_cons.mpr ⟨hi, hitems⟩
        have hitem := Continues.item (.counted map arg _ hlen hall) hb
        simpa [Open.closing] using hitem
  | untilBreak map =>
    cases hb with
    | @item _ i b hi hb =>
      cases hb with
      | @cons _ _ items b hlacks hitems hb =>
        have hlen : perEntry map ∣ (i :: items).length := by
          refine perEntry_dvd.mpr fun hmap => ?_
          have hodd : items.length % 2 = 1 := hlacks hmap
          rw [List.length_cons]
          omega
        have hall := List.forall_mem_cons.mpr ⟨hi, hitems⟩
        have hitem := Continues.item (.untilBreak map _ hlen hall) hb
        simpa [Open.closing] using hitem
    | close hb =>
      have hitem := Continues.item (.untilBreak map [] (dvd_zero _) fun i hi => nomatch hi) hb
      simpa using hitem
  | tag hh =>
    cases hb with
    | @item _ i b hi hb =>
      cases hb with
      | @cons _ _ items b hlacks hitems hb =>
        obtain rfl : items = [] := List.eq_nil_of_length_eq_zero hlacks
        have hitem := Continues.item (.tag hh hi) hb
        simpa [Open.closing] using hitem

theorem closes_iff {stack : List Open} {next : Option UInt8} :
    closes stack next = true ↔
      ∃ pairs stack', stack = .untilBreak pairs false :: stack' ∧ next = some breakCode := by
  constructor
  · intro h
    match stack, h with
    | .untilBreak pairs false :: stack', h =>
      exact ⟨pairs, stack', rfl, by simpa [closes, breakCode] using h⟩
  · rintro ⟨pairs, stack', rfl, rfl⟩
    rfl

/-- Going on with what a complete item leaves open. -/
theorem completes_of_resume {left : ℕ} {stack : List Open} {c c' : State UInt8} {u : Unit}
    (hloop : ∀ {stack : List Open} {c : State UInt8}, (scanLoop left stack).run c = .ok (u, c') →
      ∃ b, Continues stack b ∧ c.rest = b ++ c'.rest ∧ c'.pos = c.pos + b.length)
    (h : (resume left (complete stack)).run c = .ok (u, c')) :
    ∃ b, Completes stack b ∧ c.rest = b ++ c'.rest ∧ c'.pos = c.pos + b.length := by
  cases hcomplete : complete stack with
  | none =>
    rw [hcomplete] at h
    obtain ⟨-, rfl⟩ := run_pure_ok.mp h
    exact ⟨[], .of_complete (by rw [hcomplete]), rfl, rfl⟩
  | some stack' =>
    rw [hcomplete] at h
    obtain ⟨b, hb, hrest, hpos⟩ := hloop h
    exact ⟨b, .of_complete (by rw [hcomplete]; exact hb), hrest, hpos⟩

/-- An accepting run has gone over what the stack expects. -/
theorem continues_of_scanLoop {left : ℕ} {stack : List Open} {c c' : State UInt8} {u : Unit}
    (h : (scanLoop left stack).run c = .ok (u, c')) :
    ∃ b, Continues stack b ∧ c.rest = b ++ c'.rest ∧ c'.pos = c.pos + b.length := by
  induction left generalizing stack c with
  | zero => cases h
  | succ left ih =>
    obtain ⟨next, c₁, hstep, h⟩ := run_bind_ok.mp h
    have hresume : (resume left next).run c₁ = .ok (u, c') := by
      cases next <;> exact h
    rw [scanStep, run_peek_bind] at hstep
    split_ifs at hstep with hcloses
    · -- a break code
      obtain ⟨pairs, stack, rfl, hbreak⟩ := closes_iff.mp hcloses
      obtain ⟨x, c₂, hitem, hstep⟩ := run_bind_ok.mp hstep
      obtain ⟨rfl, rfl⟩ := run_pure_ok.mp hstep
      obtain ⟨-, hrest, hpos⟩ := (decodes_item _ _ _ _).mp hitem
      rw [hrest] at hbreak
      obtain rfl : x = breakCode := by simpa using hbreak
      obtain ⟨b, hb, hrest', hpos'⟩ := completes_of_resume ih hresume
      refine ⟨breakCode :: b, .close hb, ?_, ?_⟩
      · rw [hrest, hrest']
        rfl
      · rw [hpos', hpos, List.length_singleton, List.length_cons]
        omega
    · obtain ⟨container, c₂, hhead, hstep⟩ := run_bind_ok.mp hstep
      obtain ⟨rfl, rfl⟩ := run_pure_ok.mp hstep
      obtain ⟨front, hopens, hrest, hpos⟩ := opens_of_scanHead hhead
      suffices hsuff : ∃ b, Continues stack (front ++ b) ∧ c₂.rest = b ++ c'.rest ∧
          c'.pos = c₂.pos + b.length by
        obtain ⟨b, hb, hrest', hpos'⟩ := hsuff
        refine ⟨front ++ b, hb, ?_, ?_⟩
        · rw [hrest, hrest', List.append_assoc]
        · rw [hpos', hpos, List.length_append, Nat.add_assoc]
      cases container with
      | none =>
        obtain ⟨b, hb, hrest', hpos'⟩ := completes_of_resume ih hresume
        cases hopens with
        | item hi => exact ⟨b, .item hi hb, hrest', hpos'⟩
      | some container =>
        obtain ⟨b, hb, hrest', hpos'⟩ := ih hresume
        exact ⟨b, hopens.item_of_continues hb, hrest', hpos'⟩

/-- What is scanned is an item. -/
theorem scannable_of_scanItem {c c' : State UInt8} {u : Unit} (h : scanItem.run c = .ok (u, c')) :
    ∃ b, Scannable b ∧ c.rest = b ++ c'.rest ∧ c'.pos = c.pos + b.length := by
  rw [scanItem, run_remaining_bind] at h
  obtain ⟨b, hb, hrest, hpos⟩ := continues_of_scanLoop h
  cases hb with
  | item hi hb =>
    cases hb with
    | nil =>
      rw [List.append_nil] at hrest hpos
      exact ⟨_, hi, hrest, hpos⟩

/-! ## Items are scanned to their end -/

/-- The scanner moves past the bytes, in at most as many turns, from some containers to others. -/
def Goes (stack : List Open) (b : Bytes) (stack' : Option (List Open)) : Prop :=
  ∃ turns ≤ b.length, ∀ (left : ℕ) (rest : Bytes) (pos : ℕ),
    (scanLoop (turns + left) stack).run ⟨b ++ rest, pos⟩ =
      (resume left stack').run ⟨rest, pos + b.length⟩

theorem Goes.append {stack stack' : List Open} {final : Option (List Open)} {b b' : Bytes}
    (h : Goes stack b (some stack')) (h' : Goes stack' b' final) : Goes stack (b ++ b') final := by
  obtain ⟨turns, hle, hrun⟩ := h
  obtain ⟨turns', hle', hrun'⟩ := h'
  refine ⟨turns + turns', by rw [List.length_append]; omega, fun left rest pos => ?_⟩
  rw [List.append_assoc, Nat.add_assoc, hrun, List.length_append, ← Nat.add_assoc pos]
  exact hrun' left rest _

/-- A head in front of which no container is closed. -/
theorem run_scanLoop_head {left : ℕ} {stack : List Open} {x : UInt8} {r : Bytes} {pos : ℕ}
    {container : Option Open} {c' : State UInt8} (hx : x ≠ breakCode)
    (h : scanHead.run ⟨x :: r, pos⟩ = .ok (container, c')) :
    (scanLoop (left + 1) stack).run ⟨x :: r, pos⟩ = (resume left (enter stack container)).run c' := by
  have hcloses : ¬ closes stack (some x) = true := by
    intro hcloses
    obtain ⟨-, -, -, hbreak⟩ := closes_iff.mp hcloses
    exact hx (Option.some.inj hbreak)
  have hstep : (scanStep stack).run ⟨x :: r, pos⟩ = .ok (enter stack container, c') := by
    rw [scanStep, run_peek_bind]
    change StateT.run (if closes stack (some x) = true then _ else _) _ = _
    rw [if_neg hcloses, run_bind_of h]
    rfl
  exact run_scanLoop_succ hstep

theorem goes_of_head {stack : List Open} {b : Bytes} {container : Option Open}
    (hb : ∃ x r, b = x :: r ∧ x ≠ breakCode) (h : Reads scanHead b container) :
    Goes stack b (enter stack container) := by
  obtain ⟨x, r, rfl, hx⟩ := hb
  refine ⟨1, Nat.succ_pos _, fun left rest pos => ?_⟩
  rw [Nat.add_comm]
  exact run_scanLoop_head hx (h rest pos)

theorem goes_break {pairs : Bool} {stack : List Open} :
    Goes (.untilBreak pairs false :: stack) [breakCode] (complete stack) := by
  refine ⟨1, le_rfl, fun left rest pos => ?_⟩
  rw [Nat.add_comm]
  exact @run_scanLoop_succ _ (.untilBreak pairs false :: stack) _ _ _ rfl

/-- The items that a container counts, one after the other. -/
theorem goes_counted {items : List Bytes} {stack : List Open} (hne : items ≠ [])
    (h : ∀ b ∈ items, ∀ stack, Goes stack b (complete stack)) :
    Goes (.items items.length :: stack) items.flatten (complete stack) := by
  induction items with
  | nil => exact absurd rfl hne
  | cons b items ih =>
    obtain ⟨hb, hitems⟩ := List.forall_mem_cons.mp h
    have hfirst := hb (.items (b :: items).length :: stack)
    rw [List.flatten_cons]
    cases items with
    | nil => simpa [complete] using hfirst
    | cons b' items =>
      have hnext : complete (.items (b :: b' :: items).length :: stack) =
          some (.items (b' :: items).length :: stack) := by
        rw [complete, if_pos (by simp)]
        rfl
      rw [hnext] at hfirst
      exact hfirst.append (ih (by simp) hitems)

/-- The items in front of a break code, which stands behind whole entries. -/
theorem goes_untilBreak {items : List Bytes} {stack : List Open} {pairs midPair : Bool}
    (hlen : pairs = true → items.length % 2 = if midPair then 1 else 0) (hmid : midPair = true → pairs = true)
    (h : ∀ b ∈ items, ∀ stack, Goes stack b (complete stack)) :
    Goes (.untilBreak pairs midPair :: stack) (items.flatten ++ [breakCode]) (complete stack) := by
  induction items generalizing midPair with
  | nil =>
    obtain rfl : midPair = false := by
      cases midPair with
      | false => rfl
      | true => cases hlen (hmid rfl)
    exact goes_break
  | cons b items ih =>
    obtain ⟨hb, hitems⟩ := List.forall_mem_cons.mp h
    have hfirst := hb (.untilBreak pairs midPair :: stack)
    rw [List.flatten_cons, List.append_assoc]
    refine hfirst.append (ih ?_ ?_ hitems)
    · intro hpairs
      have hparity := hlen hpairs
      subst hpairs
      rw [List.length_cons] at hparity
      cases midPair
      · change (items.length + 1) % 2 = 0 at hparity
        change items.length % 2 = 1
        omega
      · change (items.length + 1) % 2 = 1 at hparity
        change items.length % 2 = 0
        omega
    · cases pairs
      · exact id
      · exact fun _ => rfl

/-- An item that opens nothing. -/
theorem scanHead_alone {h : Head} (hh : scannerDialect.Alone h) : Reads scanHead h.bytes none := by
  intro rest pos
  rw [scanHead, run_bind_of (reads_readHead h rest pos)]
  obtain ⟨m, arg⟩ := h
  rcases hh with rfl | rfl | ⟨rfl, hsome⟩
  · rfl
  · rfl
  · cases arg with
    | none => exact absurd rfl hsome
    | some a => rfl

theorem scanHead_string (text : Bool) (s : Str) : Reads scanHead (s.bytes text) none := by
  intro rest pos
  have hcontent := Reads.take Error.unexpectedEof s.content
  rw [s.length_eq] at hcontent
  have htake := hcontent.bind_pure fun _ => (none : Option Open)
  rw [scanHead, run_str, Str.bytes, List.length_append, ← Nat.add_assoc]
  cases text <;> exact htake rest _

theorem scanHead_chunks (text : Bool) (chunks : List Str) :
    Reads scanHead (Head.bytes ⟨stringMajor text, none⟩ ++
      (chunks.flatMap (Str.bytes text) ++ [breakCode])) none := by
  intro rest pos
  have hlen : (chunks.flatMap (Str.bytes text)).length <
      (chunks.flatMap (Str.bytes text) ++ breakCode :: rest).length := by simp
  have hchunks := run_scanIndefiniteChunks hlen rest (pos + 1)
  have hrun : (remaining >>= fun left => scanIndefiniteChunks (UInt8.ofNat (stringMajor text)) left >>=
      fun _ => pure (none : Option Open)).run
        ⟨chunks.flatMap (Str.bytes text) ++ breakCode :: rest, pos + 1⟩ =
      .ok (none, ⟨rest, pos + 1 + ((chunks.flatMap (Str.bytes text)).length + 1)⟩) := by
    rw [run_remaining_bind, run_bind_of hchunks]
    rfl
  have hbytes : Head.bytes ⟨stringMajor text, none⟩ ++
      (chunks.flatMap (Str.bytes text) ++ [breakCode]) ++ rest =
      Head.bytes ⟨stringMajor text, none⟩ ++ (chunks.flatMap (Str.bytes text) ++ breakCode :: rest) := by
    simp
  have hpos : pos + (Head.bytes ⟨stringMajor text, none⟩ ++
      (chunks.flatMap (Str.bytes text) ++ [breakCode])).length =
      pos + 1 + ((chunks.flatMap (Str.bytes text)).length + 1) := by
    simp [Head.bytes]
    omega
  rw [hbytes, hpos, scanHead, run_bind_of (reads_readHead _ _ _)]
  cases text <;> exact hrun

theorem scanHead_counted {map : Bool} {arg : Arg} {tail : Bytes}
    (hcount : arg.value * perEntry map < 2 ^ 64) (htail : arg.value * perEntry map ≤ tail.length)
    (pos : ℕ) :
    scanHead.run ⟨Head.bytes ⟨containerMajor map, some arg⟩ ++ tail, pos⟩ =
      .ok (if 0 < arg.value * perEntry map then some (.items (arg.value * perEntry map)) else none,
        ⟨tail, pos + (Head.bytes ⟨containerMajor map, some arg⟩).length⟩) := by
  have hrun : (do
      require (arg.value * perEntry map < 2 ^ 64) .unexpectedEof
      let _ ← checkCount (arg.value * perEntry map)
      pure (if 0 < arg.value * perEntry map then some (.items (arg.value * perEntry map)) else none) :
      Read UInt8 Error (Option Open)).run
        ⟨tail, pos + (Head.bytes ⟨containerMajor map, some arg⟩).length⟩ =
      .ok (if 0 < arg.value * perEntry map then some (.items (arg.value * perEntry map)) else none,
        ⟨tail, pos + (Head.bytes ⟨containerMajor map, some arg⟩).length⟩) := by
    rw [run_require_bind hcount, run_bind_of (run_checkCount htail)]
    rfl
  rw [scanHead, run_bind_of (reads_readHead _ _ _)]
  cases map <;> exact hrun

theorem scanHead_untilBreak (map : Bool) :
    Reads scanHead (Head.bytes ⟨containerMajor map, none⟩) (some (.untilBreak map false)) := by
  intro rest pos
  rw [scanHead, run_bind_of (reads_readHead _ _ _)]
  cases map <;> rfl

theorem scanHead_tag {h : Head} (hh : scannerDialect.Tag h) :
    Reads scanHead h.bytes (some (.items 1)) := by
  intro rest pos
  rw [scanHead, run_bind_of (reads_readHead _ _ _)]
  obtain ⟨m, arg⟩ := h
  obtain rfl : m = 6 := hh
  rfl

theorem head_ne_breakCode {h : Head} (hh : h.major.val < 7 ∨ h.arg ≠ none) :
    ∃ x r, h.bytes = x :: r ∧ x ≠ breakCode := by
  refine ⟨_, _, rfl, fun hbreak => ?_⟩
  obtain ⟨hmajor, hinfo⟩ := @initialByte_inj _ 7 _ 31 h.major.isLt (by decide) h.info_lt (by decide) hbreak
  rcases hh with hlt | hsome
  · omega
  · exact hsome (Head.arg_eq_none hinfo)

/-- An item is scanned to its end, in any containers. -/
theorem goes_of_scannable {b : Bytes} (h : Scannable b) (hlen : b.length < 2 ^ 64) (stack : List Open) :
    Goes stack b (complete stack) := by
  induction h generalizing stack with
  | @alone hd hh => exact goes_of_head (Scannable.head_ne (.alone hh)) (scanHead_alone hh)
  | string text s => exact goes_of_head (Scannable.head_ne (.string text s)) (scanHead_string text s)
  | chunks text chunks =>
    exact goes_of_head (Scannable.head_ne (.chunks text chunks)) (scanHead_chunks text chunks)
  | counted map arg items hcount hitems ih =>
    have hle := Item.length_le_flatten hitems
    rw [List.length_append] at hlen
    have hgoes : ∀ b ∈ items, ∀ stack, Goes stack b (complete stack) := fun b hb stack =>
      ih b hb ((List.sublist_flatten_of_mem hb).length_le.trans_lt (by omega)) stack
    obtain ⟨x, r, hhead, hx⟩ := @head_ne_breakCode ⟨containerMajor map, some arg⟩ (.inr (by simp))
    have hstep (left : ℕ) (rest : Bytes) (pos : ℕ) : (scanLoop (left + 1) stack).run
        ⟨Head.bytes ⟨containerMajor map, some arg⟩ ++ (items.flatten ++ rest), pos⟩ =
        (resume left (enter stack (if 0 < items.length then some (.items items.length) else none))).run
          ⟨items.flatten ++ rest, pos + (Head.bytes ⟨containerMajor map, some arg⟩).length⟩ := by
      have hrun := @scanHead_counted map arg (items.flatten ++ rest) (by omega)
        (by rw [List.length_append]; omega) pos
      rw [← hcount, hhead, List.cons_append] at hrun
      rw [hhead, List.cons_append]
      exact run_scanLoop_head hx hrun
    by_cases hne : items = []
    · subst hne
      refine ⟨1, ?_, fun left rest pos => ?_⟩
      · rw [hhead]
        exact Nat.succ_pos _
      · rw [Nat.add_comm, List.append_assoc, List.flatten_nil, List.append_nil]
        exact hstep left rest pos
    · obtain ⟨turns, hturns, hrun⟩ := @goes_counted items stack hne hgoes
      refine ⟨1 + turns, ?_, fun left rest pos => ?_⟩
      · rw [List.length_append, hhead, List.length_cons]
        omega
      · have hfirst := hstep (turns + left) rest pos
        rw [if_pos (List.length_pos_iff.mpr hne)] at hfirst
        rw [List.append_assoc, Nat.add_right_comm, Nat.add_comm 1, Nat.add_right_comm, Nat.add_comm left,
          List.length_append, ← Nat.add_assoc pos]
        exact hfirst.trans (hrun left rest _)
  | untilBreak map items hwhole hitems ih =>
    rw [List.length_append, List.length_append] at hlen
    have hgoes : ∀ b ∈ items, ∀ stack, Goes stack b (complete stack) := fun b hb stack =>
      ih b hb ((List.sublist_flatten_of_mem hb).length_le.trans_lt (by omega)) stack
    have hmajor : (containerMajor map).val < 7 := by cases map <;> decide
    have hopen := @goes_of_head stack _ _ (head_ne_breakCode (.inl hmajor)) (scanHead_untilBreak map)
    exact hopen.append (goes_untilBreak (perEntry_dvd.mp hwhole) (fun h => nomatch h) hgoes)
  | @tag hd hh b hb ih =>
    rw [List.length_append] at hlen
    have hmajor : hd.major.val < 7 := by
      rw [show hd.major = 6 from hh]
      decide
    have hopen := @goes_of_head stack _ _ (head_ne_breakCode (.inl hmajor)) (scanHead_tag hh)
    exact hopen.append (ih (by omega) (.items 1 :: stack))

/-! ## One item from a position -/

/-- Moves a position past one item. On an error it is left as it was. -/
def scanItemAt (data : Bytes) (pos : ℕ) : Except Error Unit × ℕ :=
  match scanItem.run (seek data pos) with
  | .ok (u, c) => (.ok u, c.pos)
  | .error e => (.error e, pos)

theorem reads_scanItem {b : Bytes} (h : Scannable b) (hlen : b.length < 2 ^ 64) : Reads scanItem b () := by
  intro rest pos
  obtain ⟨turns, hturns, hrun⟩ := goes_of_scannable h hlen []
  have hleft : (b ++ rest).length = turns + ((b ++ rest).length - turns) := by
    rw [List.length_append]
    omega
  rw [scanItem, run_remaining_bind]
  dsimp only
  rw [hleft]
  exact hrun _ rest pos

theorem scanItemAt_eq_ok {data : Bytes} {pos n : ℕ} (hlen : data.length < 2 ^ 64) :
    scanItemAt data pos = (.ok (), n) ↔
      ∃ b r, data.drop pos = b ++ r ∧ Scannable b ∧ n = pos + b.length := by
  constructor
  · intro h
    rw [scanItemAt] at h
    cases hrun : scanItem.run (seek data pos) with
    | error e =>
      rw [hrun] at h
      cases (Prod.mk.inj h).1
    | ok s =>
      obtain ⟨u, c⟩ := s
      rw [hrun] at h
      obtain ⟨b, hb, hrest, hpos⟩ := scannable_of_scanItem hrun
      exact ⟨b, c.rest, hrest, hb, (Prod.mk.inj h).2.symm.trans hpos⟩
  · rintro ⟨b, r, hdata, hb, rfl⟩
    have hle : b.length ≤ data.length := by
      have hcongr := congrArg List.length hdata
      rw [List.length_drop, List.length_append] at hcongr
      omega
    have hrun := reads_scanItem hb (hle.trans_lt hlen) r pos
    rw [← hdata] at hrun
    rw [scanItemAt, seek, hrun]

theorem scanItemAt_of_error {data : Bytes} {pos n : ℕ} {e : Error}
    (h : scanItemAt data pos = (.error e, n)) : n = pos := by
  rw [scanItemAt] at h
  cases hrun : scanItem.run (seek data pos) with
  | error e' =>
    rw [hrun] at h
    exact (Prod.mk.inj h).2.symm
  | ok s =>
    rw [hrun] at h
    cases (Prod.mk.inj h).1

theorem scanIndefiniteChunks_enough {major : UInt8} {left : ℕ} {c : State UInt8}
    (h : c.rest.length ≤ left) :
    (scanIndefiniteChunks major (left + 1)).run c = (scanIndefiniteChunks major left).run c := by
  induction left generalizing c with
  | zero =>
    obtain ⟨rest, pos⟩ := c
    obtain rfl : rest = [] := List.eq_nil_of_length_eq_zero (Nat.eq_zero_of_le_zero h)
    rfl
  | succ left ih =>
    rw [scanIndefiniteChunks, scanIndefiniteChunks, run_peek_bind, run_peek_bind]
    split_ifs
    · rfl
    · refine run_bind_congr fun head c₁ hhead => ?_
      have hhead := takes_readHead _ _ _ hhead
      refine run_bind_congr fun _ c₂ hrequire => ?_
      obtain ⟨-, rfl⟩ := run_require_ok.mp hrequire
      refine run_bind_congr fun _ c₃ htake => ?_
      have htake := Takes.take _ _ _ _ _ htake
      exact ih (by omega)

/-- Turns beyond the bytes that are left change nothing. -/
theorem scanLoop_fuel {left : ℕ} (extra : ℕ) {stack : List Open} {c : State UInt8}
    (h : c.rest.length ≤ left) :
    (scanLoop (left + extra) stack).run c = (scanLoop left stack).run c := by
  induction extra with
  | zero => rfl
  | succ extra ih => rw [← Nat.add_assoc, scanLoop_enough (by omega), ih]

theorem scanIndefiniteChunks_fuel {major : UInt8} {left : ℕ} (extra : ℕ) {c : State UInt8}
    (h : c.rest.length ≤ left) :
    (scanIndefiniteChunks major (left + extra)).run c = (scanIndefiniteChunks major left).run c := by
  induction extra with
  | zero => rfl
  | succ extra ih => rw [← Nat.add_assoc, scanIndefiniteChunks_enough (by omega), ih]

/-- The bytes begin with what would be an item if a simple value of two bytes could be any, and an
integer or a tag could do without its argument, and what is none. -/
def BeginsLoosely (data : Bytes) : Prop :=
  ∃ b r, data = b ++ r ∧ Scannable b ∧ ¬ Item rfc8949 b

/-- Scanning from a position succeeds exactly on well-formed items, and moves past them. -/
def ScansItems (data : Bytes) (pos : ℕ) : Prop :=
  (∀ n, scanItemAt data pos = (.ok (), n) ↔
    ∃ b r, data.drop pos = b ++ r ∧ Item rfc8949 b ∧ n = pos + b.length) ∧
  ∀ e n, scanItemAt data pos = (.error e, n) → n = pos

/-- Scanning recognises well-formed items, unless the bytes begin loosely; and both of its loops
end, in as many turns as there are bytes left. -/
theorem scans_items_iff {data : Bytes} (pos : ℕ) (hlen : data.length < 2 ^ 64) :
    (ScansItems data pos ↔ ¬ BeginsLoosely (data.drop pos)) ∧
      (∀ (stack : List Open) (c : State UInt8) (extra : ℕ),
        (scanLoop (c.rest.length + extra) stack).run c = (scanLoop c.rest.length stack).run c) ∧
      ∀ (major : UInt8) (c : State UInt8) (extra : ℕ),
        (scanIndefiniteChunks major (c.rest.length + extra)).run c =
          (scanIndefiniteChunks major c.rest.length).run c := by
  refine ⟨⟨?_, fun hnot => ⟨fun n => ?_, fun e n => scanItemAt_of_error⟩⟩,
    fun stack c extra => scanLoop_fuel extra le_rfl,
    fun major c extra => scanIndefiniteChunks_fuel extra le_rfl⟩
  · rintro ⟨hok, -⟩ ⟨b, r, hdata, hb, hnot⟩
    obtain ⟨b', r', hdata', hb', hn⟩ := (hok _).mp ((scanItemAt_eq_ok hlen).mpr ⟨b, r, hdata, hb, rfl⟩)
    have heq := List.append_inj (hdata.symm.trans hdata') (by omega)
    exact hnot (heq.1 ▸ hb')
  · rw [scanItemAt_eq_ok hlen]
    constructor
    · rintro ⟨b, r, hdata, hb, rfl⟩
      by_contra hbad
      exact hnot ⟨b, r, hdata, hb, fun hitem => hbad ⟨b, r, hdata, hitem, rfl⟩⟩
    · rintro ⟨b, r, hdata, hb, rfl⟩
      exact ⟨b, r, hdata, .of_wellFormed hb, rfl⟩

theorem scans_items_sample : ScansItems [0x00] 0 := by
  refine (scans_items_iff 0 (by decide)).1.mpr ?_
  rintro ⟨b, r, hdata, hb, hnot⟩
  obtain ⟨x, b', rfl, -⟩ := Scannable.head_ne hb
  obtain ⟨rfl, hnil⟩ := List.cons.inj hdata
  obtain ⟨rfl, rfl⟩ := List.append_eq_nil_iff.mp hnil.symm
  exact hnot (.alone (h := ⟨0, some ⟨.inline, 0, by decide⟩⟩) ⟨_, rfl, .inl rfl⟩)

/-- An integer without its argument is scanned, and is not an item. -/
theorem scans_misplaced_indefinite :
    scanItemAt [0x1f] 0 = (.ok (), 1) ∧ ¬ ScansItems [0x1f] 0 := by
  have hscan : scanItemAt [0x1f] 0 = (.ok (), 1) := rfl
  refine ⟨hscan, fun h => ?_⟩
  obtain ⟨b, r, hdata, hb, hlen⟩ := (h.1 1).mp hscan
  obtain ⟨hd, t, rfl, hkind⟩ := hb.exists_head
  have hbyte : initialByte hd.major hd.info = initialByte 0 31 := (List.cons.inj hdata).1.symm
  obtain ⟨hmajor, hinfo⟩ := initialByte_inj hd.major.isLt (by decide) hd.info_lt (by decide) hbyte
  rcases hkind with ⟨a, harg, -⟩ | ⟨h6, -⟩ | hrange
  · rw [Head.arg_eq_none hinfo] at harg
    cases harg
  · rw [h6] at hmajor
    cases hmajor
  · omega

end Outscript.Cbor
