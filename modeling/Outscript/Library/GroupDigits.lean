import Outscript.Library.ByteString
import Outscript.Library.Fallible

/-!
# Groups of bytes as digits

Up to `m` bytes, filled up with zeros, make one number, which `n` digits of `w`
bits spell from the top; fewer bytes need fewer digits. Digits that are read one
after the other give back the number, and the digits of that are the ones read.
-/
namespace GroupDigits

open ByteString Fallible

/-- The number that bytes filled up with zeros make. -/
def filled (m : ℕ) (bytes : Bytes) : ℕ := beVal (bytes ++ List.replicate (m - bytes.length) 0)

/-- A digit of a number of `n` digits, counted from the top. -/
def digit (w n bits i : ℕ) : ℕ := (bits >>> (w * (n - 1 - i))) &&& (2 ^ w - 1)

/-- Digits read one after the other. -/
def joined (w : ℕ) (vs : List ℕ) : ℕ := vs.foldl (fun acc v => (acc <<< w) ||| v) 0

section

variable {w n m : ℕ}

theorem digit_lt (bits i : ℕ) : digit w n bits i < 2 ^ w :=
  Nat.and_lt_two_pow _ (Nat.sub_lt (Nat.two_pow_pos w) Nat.one_pos)

theorem joined_append_singleton {v : ℕ} (hv : v < 2 ^ w) (vs : List ℕ) :
    joined w (vs ++ [v]) = joined w vs * 2 ^ w + v := by
  rw [joined, List.foldl_append, List.foldl_cons, List.foldl_nil, ← Nat.shiftLeft_add_eq_or_of_lt hv,
    Nat.shiftLeft_eq]
  rfl

theorem joined_lt {vs : List ℕ} (h : ∀ v ∈ vs, v < 2 ^ w) : joined w vs < 2 ^ (w * vs.length) := by
  induction vs using List.reverseRecOn with
  | nil => exact Nat.two_pow_pos _
  | append_singleton vs v ih =>
    obtain ⟨hvs, hv⟩ := List.forall_mem_append.mp h
    have hlt : v < 2 ^ w := hv v (List.mem_singleton_self v)
    rw [joined_append_singleton hlt, List.length_append, List.length_singleton, Nat.mul_add,
      Nat.mul_one, Nat.pow_add]
    calc joined w vs * 2 ^ w + v < joined w vs * 2 ^ w + 2 ^ w := Nat.add_lt_add_left hlt _
      _ = (joined w vs + 1) * 2 ^ w := (Nat.succ_mul _ _).symm
      _ ≤ 2 ^ (w * vs.length) * 2 ^ w := Nat.mul_le_mul_right _ (ih hvs)

/-- The digits of a number in front make its high-order bits. -/
theorem joined_digits {bits k : ℕ} (hbits : bits < 2 ^ (w * n)) (hk : k ≤ n) :
    joined w ((List.range k).map (digit w n bits)) = bits >>> (w * (n - k)) := by
  induction k with
  | zero =>
    rw [Nat.sub_zero, Nat.shiftRight_eq_div_pow, Nat.div_eq_of_lt hbits]
    rfl
  | succ k ih =>
    have hshift : w * (n - k) = w * (n - 1 - k) + w := by
      rw [← Nat.mul_succ]
      congr 1
      omega
    have hshift' : n - (k + 1) = n - 1 - k := by omega
    rw [List.range_succ, List.map_append, List.map_singleton, joined_append_singleton (digit_lt _ _),
      ih (by omega), hshift, hshift', Nat.shiftRight_add, digit, Nat.and_two_pow_sub_one_eq_mod,
      Nat.shiftRight_eq_div_pow _ w, Nat.div_add_mod']

/-- The digits of what digits make are these digits. -/
theorem digits_joined {vs : List ℕ} (h : ∀ v ∈ vs, v < 2 ^ w) :
    (List.range vs.length).map (digit w vs.length (joined w vs)) = vs := by
  induction vs using List.reverseRecOn with
  | nil => rfl
  | append_singleton vs v ih =>
    obtain ⟨hvs, hv⟩ := List.forall_mem_append.mp h
    have hlt : v < 2 ^ w := hv v (List.mem_singleton_self v)
    have hhead : (joined w vs * 2 ^ w + v) / 2 ^ w = joined w vs := by
      rw [Nat.mul_comm, Nat.mul_add_div (Nat.two_pow_pos w), Nat.div_eq_of_lt hlt, Nat.add_zero]
    rw [joined_append_singleton hlt, List.length_append, List.length_singleton, List.range_succ,
      List.map_append, List.map_singleton]
    refine congrArg₂ _ ((List.map_congr_left fun i hi => ?_).trans (ih hvs)) (congrArg (· :: []) ?_)
    · have hshift : vs.length + 1 - 1 - i = 1 + (vs.length - 1 - i) := by
        have hi := List.mem_range.mp hi
        omega
      rw [digit, digit, hshift, Nat.mul_add, Nat.mul_one, Nat.shiftRight_add,
        Nat.shiftRight_eq_div_pow _ w, hhead]
    · rw [digit, Nat.add_sub_cancel, Nat.sub_self, Nat.mul_zero, Nat.shiftRight_zero,
        Nat.and_two_pow_sub_one_eq_mod, Nat.mul_add_mod_self_right, Nat.mod_eq_of_lt hlt]

/-- Zeros behind a number move none of its digits. -/
theorem digit_shiftLeft {k i : ℕ} (hk : k ≤ n) (hi : i < k) (bits : ℕ) :
    digit w n (bits <<< (w * (n - k))) i = digit w k bits i := by
  have hshift : w * (n - 1 - i) = w * (n - k) + w * (k - 1 - i) := by
    rw [← Nat.mul_add]
    congr 1
    omega
  rw [digit, digit, hshift, Nat.shiftRight_add, Nat.shiftLeft_shiftRight]

/-! ## Filled groups -/

theorem be_filled {bytes : Bytes} (h : bytes.length ≤ m) :
    be m (filled m bytes) = bytes ++ List.replicate (m - bytes.length) 0 := by
  have hlen : (bytes ++ List.replicate (m - bytes.length) 0).length = m := by
    rw [List.length_append, List.length_replicate]
    omega
  have hbe := be_beVal (bytes ++ List.replicate (m - bytes.length) 0)
  rwa [hlen] at hbe

theorem filled_eq (bytes : Bytes) :
    filled m bytes = beVal bytes * 2 ^ (8 * (m - bytes.length)) := by
  have hzeros : beVal (List.replicate (m - bytes.length) 0) = 0 := by
    rw [beVal, List.reverse_replicate, leVal_replicate]
  rw [filled, beVal_append, hzeros, List.length_replicate, Nat.add_zero, Nat.pow_mul]

theorem filled_lt {bytes : Bytes} (h : bytes.length ≤ m) : filled m bytes < 2 ^ (8 * m) := by
  have hlt := beVal_lt (bytes ++ List.replicate (m - bytes.length) 0)
  have hlen : (bytes ++ List.replicate (m - bytes.length) 0).length = m := by
    rw [List.length_append, List.length_replicate]
    omega
  rw [Nat.pow_mul]
  rwa [hlen] at hlt

/-- The digits that bytes leave out are zeros. -/
theorem filled_restore {bytes : Bytes} {k : ℕ} (hfull : w * n = 8 * m)
    (hfit : 8 * bytes.length ≤ w * k) :
    (filled m bytes >>> (w * (n - k))) <<< (w * (n - k)) = filled m bytes := by
  have hle : w * (n - k) ≤ 8 * (m - bytes.length) := by
    rw [Nat.mul_sub, Nat.mul_sub, hfull]
    omega
  have hdvd : 2 ^ (w * (n - k)) ∣ filled m bytes := by
    rw [filled_eq]
    exact Dvd.dvd.mul_left (Nat.pow_dvd_pow 2 hle) _
  rw [Nat.shiftLeft_eq, Nat.shiftRight_eq_div_pow, Nat.div_mul_cancel hdvd]

/-- A number that ends in zeros is what its first bytes make. -/
theorem filled_take {bits count : ℕ} (hbits : bits < 2 ^ (8 * m))
    (hzeros : ((be m bits).drop count).any (fun b => b != 0) = false) :
    filled m ((be m bits).take count) = bits := by
  have hrest : (be m bits).drop count = List.replicate (m - ((be m bits).take count).length) 0 := by
    refine List.eq_replicate_iff.mpr ⟨?_, fun b hb => ?_⟩
    · rw [List.length_drop, List.length_take, length_be]
      omega
    · have hb := List.any_eq_false.mp hzeros b hb
      simpa using hb
  rw [Nat.pow_mul] at hbits
  rw [filled, ← hrest, List.take_append_drop, beVal_be_of_lt hbits]

/-! ## Reading characters -/

section

variable {ε : Type} {value : UInt8 → Option ℕ} {e : ε} {chars : Bytes}

/-- A run over characters is one over the values they stand for. -/
theorem foldlM_joined {bits : ℕ} :
    chars.foldlM (fun bits c => do
      let value ← okOr (value c) e
      return (bits <<< w) ||| value) 0 = .ok bits ↔
        ∃ vs : List ℕ, chars.map value = vs.map some ∧ bits = joined w vs := by
  suffices hall : ∀ acc, chars.foldlM (fun bits c => do
      let value ← okOr (value c) e
      return (bits <<< w) ||| value) acc = .ok bits ↔
        ∃ vs : List ℕ, chars.map value = vs.map some ∧ bits = vs.foldl (fun acc v => (acc <<< w) ||| v) acc from
    hall 0
  induction chars with
  | nil =>
    intro acc
    constructor
    · intro h
      cases h
      exact ⟨[], rfl, rfl⟩
    · rintro ⟨vs, hvs, rfl⟩
      rw [List.map_eq_nil_iff.mp hvs.symm]
      rfl
  | cons c chars ih =>
    intro acc
    rw [List.foldlM_cons, List.map_cons]
    cases hc : value c with
    | none =>
      refine iff_of_false (fun h => nomatch h) ?_
      rintro ⟨vs, hvs, -⟩
      cases vs <;> cases hvs
    | some v =>
      refine (ih ((acc <<< w) ||| v)).trans ⟨?_, ?_⟩
      · rintro ⟨vs, hvs, hbits⟩
        exact ⟨v :: vs, congrArg (some v :: ·) hvs, hbits⟩
      · rintro ⟨vs, hvs, hbits⟩
        cases vs with
        | nil => cases hvs
        | cons v' vs =>
          rw [List.map_cons, List.cons.injEq, Option.some.injEq] at hvs
          obtain ⟨rfl, hvs⟩ := hvs
          exact ⟨vs, hvs, hbits⟩

end

/-! ## Letters -/

/-- The first letters of a group of bytes. -/
def letters (charAt : ℕ → UInt8) (w n m k : ℕ) (bytes : Bytes) : Bytes :=
  (List.range k).map fun i => charAt (digit w n (filled m bytes) i)

section

variable {ε : Type} {charAt : ℕ → UInt8} {value : UInt8 → Option ℕ} {norm : UInt8 → UInt8} {e : ε}
  {chars : Bytes}

@[simp] theorem length_letters (k : ℕ) (bytes : Bytes) : (letters charAt w n m k bytes).length = k := by
  rw [letters, List.length_map, List.length_range]

/-- What stands for the letters of a group is read as the group. -/
theorem read_letters (hwrite : ∀ v < 2 ^ w, value (charAt v) = some v) (hfull : w * n = 8 * m)
    {bytes : Bytes} (hbytes : bytes.length ≤ m) {k : ℕ} (hk : k ≤ n) (hfit : 8 * bytes.length ≤ w * k)
    (hchars : chars.map value = (letters charAt w n m k bytes).map value) :
    ∃ bits, chars.foldlM (fun bits c => do
        let value ← okOr (value c) e
        return (bits <<< w) ||| value) 0 = .ok bits ∧
      bits <<< (w * (n - k)) = filled m bytes := by
  have hlt : filled m bytes < 2 ^ (w * n) := hfull ▸ filled_lt hbytes
  have hvalues : chars.map value = ((List.range k).map (digit w n (filled m bytes))).map some := by
    rw [hchars, letters, List.map_map, List.map_map]
    exact List.map_congr_left fun i _ => hwrite _ (digit_lt _ i)
  refine ⟨_, foldlM_joined.mpr ⟨_, hvalues, rfl⟩, ?_⟩
  rw [joined_digits hlt hk]
  exact filled_restore hfull hfit

theorem charAt_of_values (hread : ∀ c v, value c = some v → v < 2 ^ w ∧ charAt v = norm c) {vs : List ℕ}
    (h : chars.map value = vs.map some) : (∀ v ∈ vs, v < 2 ^ w) ∧ chars.map norm = vs.map charAt := by
  induction chars generalizing vs with
  | nil =>
    rw [List.map_eq_nil_iff.mp h.symm]
    exact ⟨fun _ hv => (nomatch hv), rfl⟩
  | cons c chars ih =>
    cases vs with
    | nil => cases h
    | cons v vs =>
      rw [List.map_cons, List.map_cons, List.cons.injEq] at h
      obtain ⟨hlt, hchar⟩ := hread c v h.1
      obtain ⟨hall, hrest⟩ := ih h.2
      refine ⟨List.forall_mem_cons.mpr ⟨hlt, hall⟩, ?_⟩
      rw [List.map_cons, List.map_cons, hchar, hrest]

/-- A group that is read leaves no other letters for it. -/
theorem letters_of_read (hread : ∀ c v, value c = some v → v < 2 ^ w ∧ charAt v = norm c)
    (hfull : w * n = 8 * m) (hk : chars.length ≤ n) {bits : ℕ}
    (hbits : chars.foldlM (fun bits c => do
      let value ← okOr (value c) e
      return (bits <<< w) ||| value) 0 = .ok bits) {count : ℕ}
    (hzeros : ((be m (bits <<< (w * (n - chars.length)))).drop count).any (fun b => b != 0) = false) :
    chars.map norm = letters charAt w n m chars.length
      ((be m (bits <<< (w * (n - chars.length)))).take count) := by
  obtain ⟨vs, hvs, rfl⟩ := foldlM_joined.mp hbits
  have hlen : chars.length = vs.length := by
    have hlen := congrArg List.length hvs
    rwa [List.length_map, List.length_map] at hlen
  obtain ⟨hlt, hnorm⟩ := charAt_of_values hread hvs
  have hshift : joined w vs <<< (w * (n - vs.length)) < 2 ^ (8 * m) := by
    have hpow : 2 ^ (w * n) = 2 ^ (w * vs.length) * 2 ^ (w * (n - vs.length)) := by
      rw [← Nat.pow_add, ← Nat.mul_add, Nat.add_sub_cancel' (hlen ▸ hk)]
    rw [Nat.shiftLeft_eq, ← hfull, hpow]
    exact Nat.mul_lt_mul_of_pos_right (joined_lt hlt) (Nat.two_pow_pos _)
  rw [hlen] at hzeros ⊢
  rw [letters, filled_take hshift hzeros, hnorm]
  conv_lhs => rw [← digits_joined hlt, List.map_map]
  refine List.map_congr_left fun i hi => ?_
  rw [digit_shiftLeft (hlen ▸ hk) (List.mem_range.mp hi), Function.comp_apply]

end

end

end GroupDigits
