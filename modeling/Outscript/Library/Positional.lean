import Mathlib.Data.Nat.Digits.Lemmas
import Mathlib.Tactic

/-!
# Changing the base of a number

Digits in one base are taken up one after the other, the most significant first,
by an accumulator in another base, whose digits stand the least significant
first. What it holds is always the number read so far, without zeros in front.
Digits that start with no zero come back when the base is changed twice.
-/
namespace Positional

/-- The number that digits stand for, the most significant first. -/
def number (base : ℕ) (ds : List ℕ) : ℕ := Nat.ofDigits base ds.reverse

/-- The accumulator times a number, plus another. -/
def mulAdd (base mul : ℕ) : List ℕ → ℕ → List ℕ
  | [], carry => Nat.digits base carry
  | d :: ds, carry => (carry + d * mul) % base :: mulAdd base mul ds ((carry + d * mul) / base)

/-- The digits in another base. -/
def recode (base mul : ℕ) (ds : List ℕ) : List ℕ := (Nat.digits base (number mul ds)).reverse

/-- How many zeros stand in front. -/
def zeros : List ℕ → ℕ
  | [] => 0
  | d :: ds => if d = 0 then zeros ds + 1 else 0

/-- The digits in another base, behind as many zeros as there were. -/
def convert (base mul : ℕ) (ds : List ℕ) : List ℕ :=
  List.replicate (zeros ds) 0 ++ recode base mul (ds.drop (zeros ds))

/-- Digits of a base, the first of which is no zero. -/
structure Canonical (base : ℕ) (ds : List ℕ) : Prop where
  lt : ∀ d ∈ ds, d < base
  head : ds.head? ≠ some 0

section

variable {base mul : ℕ}

@[simp] theorem number_nil : number base [] = 0 := rfl

theorem number_append_singleton (ds : List ℕ) (d : ℕ) :
    number base (ds ++ [d]) = number base ds * base + d := by
  rw [number, List.reverse_append, List.reverse_singleton, List.singleton_append, Nat.ofDigits_cons,
    number, Nat.mul_comm, Nat.add_comm]

theorem mulAdd_digits (hbase : 1 < base) (hmul : 0 < mul) (v c : ℕ) :
    mulAdd base mul (Nat.digits base v) c = Nat.digits base (v * mul + c) := by
  induction v using Nat.strongRecOn generalizing c with
  | ind v ih =>
    rcases Nat.eq_zero_or_pos v with rfl | hv
    · rw [Nat.digits_zero, mulAdd, Nat.zero_mul, Nat.zero_add]
    · have hpos : 0 < v * mul + c := Nat.add_pos_left (Nat.mul_pos hv hmul) c
      have hsplit : v * mul + c = (c + v % base * mul) + base * (v / base * mul) := by
        conv_lhs => rw [← Nat.div_add_mod v base]
        ring
      have hmod : (v * mul + c) % base = (c + v % base * mul) % base := by
        rw [hsplit, Nat.add_mul_mod_self_left]
      have hdiv : (v * mul + c) / base = v / base * mul + (c + v % base * mul) / base := by
        rw [hsplit, Nat.add_mul_div_left _ _ (Nat.zero_lt_of_lt hbase), Nat.add_comm]
      rw [Nat.digits_def' hbase hv, mulAdd, ih _ (Nat.div_lt_self hv hbase), ← hdiv, ← hmod,
        ← Nat.digits_def' hbase hpos]

theorem number_recode (ds : List ℕ) : number base (recode base mul ds) = number mul ds := by
  rw [recode, number, List.reverse_reverse, Nat.ofDigits_digits]

/-- Digits without a zero in front are those of their number. -/
theorem Canonical.digits_number {ds : List ℕ} (hbase : 1 < base) (h : Canonical base ds) :
    Nat.digits base (number base ds) = ds.reverse := by
  refine Nat.digits_ofDigits base hbase _ (fun d hd => h.lt d (List.mem_reverse.mp hd)) ?_
  intro hne hzero
  rw [List.getLast_reverse] at hzero
  refine h.head ?_
  rw [← hzero, List.head?_eq_some_head]

theorem canonical_recode (hbase : 1 < base) (ds : List ℕ) : Canonical base (recode base mul ds) where
  lt := fun d hd => Nat.digits_lt_base hbase (List.mem_reverse.mp hd)
  head := by
    rw [recode, List.head?_reverse]
    by_cases hzero : number mul ds = 0
    · rw [hzero, Nat.digits_zero]
      exact Option.some_ne_none 0 ∘ Eq.symm
    · rw [List.getLast?_eq_some_getLast (Nat.digits_ne_nil_iff_ne_zero.mpr hzero)]
      exact fun h => Nat.getLast_digit_ne_zero base hzero (Option.some.inj h)

/-- Changing the base and changing it back gives the digits that one began with. -/
theorem recode_recode {ds : List ℕ} (hmul : 1 < mul) (h : Canonical mul ds) :
    recode mul base (recode base mul ds) = ds := by
  rw [recode, number_recode, h.digits_number hmul, List.reverse_reverse]

theorem number_lt {ds : List ℕ} (hmul : 1 < mul) (h : ∀ d ∈ ds, d < mul) :
    number mul ds < mul ^ ds.length := by
  have hlt := Nat.ofDigits_lt_base_pow_length hmul fun d hd => h d (List.mem_reverse.mp hd)
  rwa [List.length_reverse] at hlt

/-- The digits of a number that is below a power of the base. -/
theorem length_recode_le {ds : List ℕ} (hbase : 1 < base) {n : ℕ} (h : number mul ds < base ^ n) :
    (recode base mul ds).length ≤ n := by
  rw [recode, List.length_reverse]
  exact Nat.digits_length_le_iff hbase _ |>.mpr h

/-- More digits make no shorter number. -/
theorem length_recode_append_le (hmul : 0 < mul) (front back : List ℕ) :
    (recode base mul front).length ≤ (recode base mul (front ++ back)).length := by
  have hsplit : number mul (front ++ back) = number mul back + mul ^ back.length * number mul front := by
    rw [number, List.reverse_append, Nat.ofDigits_append, List.length_reverse, number, number]
  have hle : number mul front ≤ number mul (front ++ back) := by
    rw [hsplit]
    exact (Nat.le_mul_of_pos_left _ (Nat.pow_pos hmul)).trans (Nat.le_add_left _ _)
  rw [recode, recode, List.length_reverse, List.length_reverse]
  exact Nat.le_length_digits_le base _ _ hle

/-! ## Zeros in front -/

theorem zeros_le (ds : List ℕ) : zeros ds ≤ ds.length := by
  induction ds with
  | nil => exact le_rfl
  | cons d ds ih =>
    rw [zeros, List.length_cons]
    split_ifs <;> omega

theorem replicate_zeros (ds : List ℕ) :
    List.replicate (zeros ds) 0 ++ ds.drop (zeros ds) = ds := by
  induction ds with
  | nil => rfl
  | cons d ds ih =>
    rw [zeros]
    split_ifs with hd
    · rw [List.replicate_succ, List.drop_succ_cons, List.cons_append, ih, hd]
    · rfl

theorem head?_drop_zeros (ds : List ℕ) : (ds.drop (zeros ds)).head? ≠ some 0 := by
  induction ds with
  | nil => exact Option.some_ne_none 0 ∘ Eq.symm
  | cons d ds ih =>
    rw [zeros]
    split_ifs with hd
    · rwa [List.drop_succ_cons]
    · exact fun h => hd (Option.some.inj h)

theorem zeros_append {r : List ℕ} (h : r.head? ≠ some 0) (n : ℕ) :
    zeros (List.replicate n 0 ++ r) = n := by
  induction n with
  | zero =>
    cases r with
    | nil => rfl
    | cons d r => exact if_neg fun hd => h (congrArg some hd)
  | succ n ih => rw [List.replicate_succ, List.cons_append, zeros, if_pos rfl, ih]

/-- Changing the base and changing it back gives all the digits again. -/
theorem convert_convert {ds : List ℕ} (hbase : 1 < base) (hmul : 1 < mul) (h : ∀ d ∈ ds, d < mul) :
    convert mul base (convert base mul ds) = ds := by
  have hrest : Canonical mul (ds.drop (zeros ds)) :=
    ⟨fun d hd => h d (List.mem_of_mem_drop hd), head?_drop_zeros ds⟩
  have hhead := (@canonical_recode base mul hbase (ds.drop (zeros ds))).head
  have hzeros := zeros_append hhead (zeros ds)
  rw [convert, convert, hzeros, List.drop_left' List.length_replicate, recode_recode hmul hrest,
    replicate_zeros]

theorem mem_convert_lt (hbase : 1 < base) (ds : List ℕ) : ∀ d ∈ convert base mul ds, d < base := by
  refine List.forall_mem_append.mpr ⟨fun d hd => ?_, (canonical_recode hbase _).lt⟩
  rw [List.eq_of_mem_replicate hd]
  exact Nat.zero_lt_of_lt hbase

end

end Positional
