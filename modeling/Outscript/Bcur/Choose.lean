import Outscript.Bcur.Transport
import Outscript.Crypto.Hash

/-!
# The draw of fragments

Past the first parts, the fragments of a part are drawn from a generator seeded
with its number and the checksum. The arithmetic on doubles is a parameter of
which only one thing matters: a number in `[0, 1)` times a count, truncated,
indexes below the count. The draw then never fails, and is a non-empty
ascending list of fragments.
-/
namespace Outscript.Bcur

open ByteString Fallible Worklist

/-- The double-precision arithmetic of the platform. -/
structure Doubles where
  Double : Type
  ofNat : Nat → Double
  add : Double → Double → Double
  sub : Double → Double → Double
  mul : Double → Double → Double
  div : Double → Double → Double
  lt : Double → Double → Bool
  /-- Truncates. -/
  toNat : Double → Nat

/-- The Xoshiro256** generator. -/
structure Xoshiro256 where
  s0 : UInt64
  s1 : UInt64
  s2 : UInt64
  s3 : UInt64

namespace Xoshiro256

def rotateLeft (x : UInt64) (n : UInt64) : UInt64 := (x <<< n) ||| (x >>> (64 - n))

/-- Seeded from a digest. -/
def new (digest : ByteVec 32) : Xoshiro256 :=
  let word := fun i => UInt64.ofNat (beVal ((digest.toList.drop (8 * i)).take 8))
  ⟨word 0, word 1, word 2, word 3⟩

def next (s : Xoshiro256) : UInt64 × Xoshiro256 :=
  let result := rotateLeft (s.s1 * 5) 7 * 9
  let t := s.s1 <<< 17
  let s2 := s.s2 ^^^ s.s0
  let s3 := s.s3 ^^^ s.s1
  let s1 := s.s1 ^^^ s2
  let s0 := s.s0 ^^^ s3
  (result, ⟨s0, s1, s2 ^^^ t, rotateLeft s3 45⟩)

end Xoshiro256

namespace Doubles

variable (fl : Doubles)

/-- A number in `[0, 1)`, from the 53 high bits of a word. -/
def fraction (word : UInt64) : fl.Double :=
  fl.mul (fl.ofNat (word >>> 11).toNat) (fl.div (fl.ofNat 1) (fl.ofNat (2 ^ 53)))

/-- What is relied on: a fraction of a 32-bit count, on either side of the
product, truncates below the count. -/
structure Scales : Prop where
  left : ∀ word count, 0 < count → count < 2 ^ 32 →
    fl.toNat (fl.mul (fl.fraction word) (fl.ofNat count)) < count
  right : ∀ word count, 0 < count → count < 2 ^ 32 →
    fl.toNat (fl.mul (fl.ofNat count) (fl.fraction word)) < count

/-- A number in `0..count`. -/
def nextIndex (rng : Xoshiro256) (count : Nat) : Nat × Xoshiro256 :=
  let (word, rng) := rng.next
  (fl.toNat (fl.mul (fl.fraction word) (fl.ofNat count)), rng)

end Doubles

/-- An element of a vector, whose index has to be in bounds. -/
def elem {α : Type} (l : List α) (i : Nat) : Except Stuck α :=
  match l[i]? with
  | some a => .ok a
  | none => .error .panic

/-- Assigns to an element of a vector. -/
def assign {α : Type} (l : List α) (i : Nat) (a : α) : Except Stuck (List α) :=
  if i < l.length then .ok (l.set i a) else .error .panic

/-- Picks how many fragments a part mixes, with Vose's alias method. -/
structure DegreeSampler (fl : Doubles) where
  probs : List fl.Double
  aliases : List Nat

namespace DegreeSampler

variable (fl : Doubles)

/-- The indexes of weights below one and of the others, the lowest on top. -/
def divide (weights : List fl.Double) : List Nat × List Nat :=
  (List.range weights.length).partition fun i =>
    match weights[i]? with
    | some w => fl.lt w (fl.ofNat 1)
    | none => false

/-- Fills up what is small from what is large. -/
def pair (weights : List fl.Double) (s : DegreeSampler fl) :
    List Nat → List Nat → Except Stuck (DegreeSampler fl × List Nat × List Nat)
  | a :: small, g :: large => do
    let wa ← elem weights a
    let probs ← assign s.probs a wa
    let aliases ← assign s.aliases a g
    let wg ← elem weights g
    let w := fl.add wg (fl.sub wa (fl.ofNat 1))
    let weights ← assign weights g w
    if fl.lt w (fl.ofNat 1) then pair weights ⟨probs, aliases⟩ (g :: small) large
    else pair weights ⟨probs, aliases⟩ small (g :: large)
  | small, large => .ok (s, small, large)
  termination_by small large => small.length + large.length

/-- What is left over is certain. -/
def settle (s : DegreeSampler fl) : List Nat → Except Stuck (DegreeSampler fl)
  | [] => .ok s
  | i :: rest => do
    let probs ← assign s.probs i (fl.ofNat 1)
    settle { s with probs } rest

def new (seqLen : Nat) : Except Stuck (DegreeSampler fl) := do
  let degrees := (List.range seqLen).map (fun i => i + 1)
  let sum := degrees.foldl (fun sum degree => fl.add sum (fl.div (fl.ofNat 1) (fl.ofNat degree)))
    (fl.ofNat 0)
  let weights := degrees.map fun degree =>
    fl.div (fl.mul (fl.div (fl.ofNat 1) (fl.ofNat degree)) (fl.ofNat seqLen)) sum
  let (small, large) := divide fl weights
  let start : DegreeSampler fl := ⟨List.replicate seqLen (fl.ofNat 0), List.replicate seqLen 0⟩
  let (s, small, large) ← pair fl weights start small large
  settle fl s (large.reverse ++ small.reverse)

/-- A degree, from two numbers of the generator. -/
def next (s : DegreeSampler fl) (rng : Xoshiro256) : Except Stuck (Nat × Xoshiro256) := do
  let (r1, rng) := rng.next
  let (r2, rng) := rng.next
  let i := fl.toNat (fl.mul (fl.ofNat s.probs.length) (fl.fraction r1))
  let prob ← elem s.probs i
  if fl.lt (fl.fraction r2) prob then .ok (i + 1, rng)
  else do
    let other ← elem s.aliases i
    .ok (other + 1, rng)

end DegreeSampler

/-- Takes indexes out of those that remain. -/
def drawIndexes (fl : Doubles) : Nat → Xoshiro256 → List Nat → Except Stuck (List Nat)
  | 0, _, _ => .ok []
  | degree + 1, rng, remaining => do
    let (i, rng) := fl.nextIndex rng remaining.length
    let index ← elem remaining i
    let chosen ← drawIndexes fl degree rng (remaining.eraseIdx i)
    .ok (index :: chosen)

/-- The fragments XORed into a part that mixes several. -/
def drawFragments (fl : Doubles) (H : Hashes) (seqNum seqLen checksum : Nat) :
    Except Stuck (List Nat) := do
  let rng := Xoshiro256.new (H.sha256 (be 4 seqNum ++ be 4 checksum))
  let sampler ← DegreeSampler.new fl seqLen
  let (degree, rng) ← sampler.next fl rng
  let chosen ← drawIndexes fl degree rng (List.range seqLen)
  .ok (chosen.mergeSort (fun a b => decide (a ≤ b)))

/-! ## The draw never fails -/

theorem elem_ok {α : Type} {l : List α} {i : Nat} (h : i < l.length) : elem l i = .ok l[i] := by
  rw [elem, List.getElem?_eq_getElem h]

theorem assign_ok {α : Type} {l : List α} {i : Nat} (h : i < l.length) (a : α) :
    assign l i a = .ok (l.set i a) := if_pos h

namespace DegreeSampler

variable {fl : Doubles} {n : Nat}

/-- The tables of a sampler of degrees up to `n`. -/
structure Covers (s : DegreeSampler fl) (n : Nat) : Prop where
  probs : s.probs.length = n
  aliases : s.aliases.length = n
  bound : ∀ a ∈ s.aliases, a < n

theorem divide_bound (weights : List fl.Double) :
    (∀ i ∈ (divide fl weights).1, i < weights.length) ∧
      ∀ i ∈ (divide fl weights).2, i < weights.length := by
  rw [divide, List.partition_eq_filter_filter]
  constructor
  · exact fun i hi => List.mem_range.mp (List.mem_of_mem_filter hi)
  · exact fun i hi => List.mem_range.mp (List.mem_of_mem_filter hi)

theorem Covers.assign {s : DegreeSampler fl} (h : s.Covers n) {i g : Nat} (hg : g < n) (p : fl.Double) :
    Covers (⟨s.probs.set i p, s.aliases.set i g⟩ : DegreeSampler fl) n := by
  refine ⟨(List.length_set ..).trans h.probs, (List.length_set ..).trans h.aliases, fun a ha => ?_⟩
  rcases List.mem_or_eq_of_mem_set ha with ha | rfl
  · exact h.bound a ha
  · exact hg

theorem pair_ok {weights : List fl.Double} {s : DegreeSampler fl} {small large : List Nat}
    (hw : weights.length = n) (hs : s.Covers n) (hsmall : ∀ i ∈ small, i < n)
    (hlarge : ∀ i ∈ large, i < n) :
    ∃ s' small' large', pair fl weights s small large = .ok (s', small', large') ∧ s'.Covers n ∧
      (∀ i ∈ small', i < n) ∧ ∀ i ∈ large', i < n := by
  induction hk : small.length + large.length generalizing weights s small large with
  | zero =>
    obtain rfl : small = [] := List.eq_nil_of_length_eq_zero (by omega)
    exact ⟨s, [], large, by rw [pair]; simp, hs, hsmall, hlarge⟩
  | succ k ih =>
    match small, large with
    | [], large => exact ⟨s, [], large, by rw [pair]; simp, hs, hsmall, hlarge⟩
    | a :: small, [] => exact ⟨s, a :: small, [], by rw [pair]; simp, hs, hsmall, hlarge⟩
    | a :: small, g :: large =>
      rw [List.forall_mem_cons] at hsmall hlarge
      have ha : a < weights.length := by omega
      have hg : g < weights.length := by omega
      have hpa : a < s.probs.length := by rw [hs.probs]; exact hsmall.1
      have haa : a < s.aliases.length := by rw [hs.aliases]; exact hsmall.1
      rw [List.length_cons, List.length_cons] at hk
      rw [pair, elem_ok ha, ok_bind, assign_ok hpa, ok_bind, assign_ok haa, ok_bind, elem_ok hg,
        ok_bind]
      dsimp only
      rw [assign_ok hg, ok_bind]
      have hweights : (weights.set g (fl.add weights[g] (fl.sub weights[a] (fl.ofNat 1)))).length = n :=
        (List.length_set ..).trans hw
      have hassigned := hs.assign (i := a) hlarge.1 weights[a]
      split_ifs
      · exact ih hweights hassigned (List.forall_mem_cons.mpr ⟨hlarge.1, hsmall.2⟩) hlarge.2
          (by rw [List.length_cons]; omega)
      · exact ih hweights hassigned hsmall.2 (List.forall_mem_cons.mpr hlarge)
          (by rw [List.length_cons]; omega)

theorem settle_ok {s : DegreeSampler fl} (hs : s.Covers n) {left : List Nat}
    (hleft : ∀ i ∈ left, i < n) : ∃ s', settle fl s left = .ok s' ∧ s'.Covers n := by
  induction left generalizing s with
  | nil => exact ⟨s, rfl, hs⟩
  | cons i left ih =>
    rw [List.forall_mem_cons] at hleft
    have hi : i < s.probs.length := by rw [hs.probs]; exact hleft.1
    rw [settle, assign_ok hi, ok_bind]
    exact ih ⟨(List.length_set ..).trans hs.probs, hs.aliases, hs.bound⟩ hleft.2

theorem new_ok (fl : Doubles) (n : Nat) : ∃ s, new fl n = .ok s ∧ s.Covers n := by
  rw [new]
  dsimp only
  generalize hweights : List.map _ _ = weights
  have hlen : weights.length = n := by
    rw [← hweights]
    simp
  have hdivide := divide_bound weights
  rw [hlen] at hdivide
  have hstart : Covers (⟨List.replicate n (fl.ofNat 0), List.replicate n 0⟩ : DegreeSampler fl) n := by
    refine ⟨List.length_replicate, List.length_replicate, fun a ha => ?_⟩
    obtain ⟨hn, rfl⟩ := List.mem_replicate.mp ha
    exact Nat.pos_of_ne_zero hn
  obtain ⟨s, small, large, hpair, hs, hsmall, hlarge⟩ :=
    pair_ok hlen hstart hdivide.1 hdivide.2
  rw [hpair, ok_bind]
  refine settle_ok hs fun i hi => ?_
  rcases List.mem_append.mp hi with hi | hi
  · exact hlarge i (List.mem_reverse.mp hi)
  · exact hsmall i (List.mem_reverse.mp hi)

theorem next_ok (hfl : fl.Scales) {s : DegreeSampler fl} (hs : s.Covers n) (hpos : 0 < n)
    (hlt : n < 2 ^ 32) (rng : Xoshiro256) :
    ∃ degree rng', s.next fl rng = .ok (degree, rng') ∧ 0 < degree ∧ degree ≤ n := by
  have hi := hfl.right rng.next.1 n hpos hlt
  rw [next]
  dsimp only
  rw [hs.probs, elem_ok (by rw [hs.probs]; exact hi), ok_bind]
  split_ifs
  · exact ⟨_, _, rfl, Nat.succ_pos _, hi⟩
  · have ha : fl.toNat (fl.mul (fl.ofNat n) (fl.fraction rng.next.1)) < s.aliases.length := by
      rw [hs.aliases]
      exact hi
    rw [elem_ok ha, ok_bind]
    exact ⟨_, _, rfl, Nat.succ_pos _, hs.bound _ (List.getElem_mem ha)⟩

end DegreeSampler

theorem drawIndexes_ok {fl : Doubles} (hfl : fl.Scales) {degree : Nat} {remaining : List Nat}
    (hnodup : remaining.Nodup) (hle : degree ≤ remaining.length) (hlt : remaining.length < 2 ^ 32)
    (rng : Xoshiro256) :
    ∃ chosen, drawIndexes fl degree rng remaining = .ok chosen ∧ chosen.length = degree ∧
      chosen.Nodup ∧ ∀ i ∈ chosen, i ∈ remaining := by
  induction degree generalizing remaining rng with
  | zero => exact ⟨[], rfl, rfl, List.nodup_nil, by simp⟩
  | succ degree ih =>
    have hi := hfl.left rng.next.1 remaining.length (by omega) hlt
    have hlen := List.length_eraseIdx_of_lt hi
    obtain ⟨chosen, hdraw, hcount, hchosen, hsub⟩ := ih (hnodup.eraseIdx _)
      (by rw [hlen]; omega) (by rw [hlen]; omega) rng.next.2
    refine ⟨remaining[fl.toNat (fl.mul (fl.fraction rng.next.1) (fl.ofNat remaining.length))] ::
      chosen, ?_, congrArg (fun n => n + 1) hcount, ?_, ?_⟩
    · rw [drawIndexes]
      dsimp only [Doubles.nextIndex]
      rw [elem_ok hi, ok_bind, hdraw, ok_bind]
    · have htaken := List.nodup_cons.mp ((List.getElem_cons_eraseIdx_perm hi).nodup_iff.mpr hnodup)
      exact List.nodup_cons.mpr ⟨fun hmem => htaken.1 (hsub _ hmem), hchosen⟩
    · rw [List.forall_mem_cons]
      exact ⟨List.getElem_mem hi, fun i hi' => List.mem_of_mem_eraseIdx (hsub i hi')⟩

/-- The draw returns a non-empty ascending list of fragments. -/
theorem drawFragments_ok {fl : Doubles} (hfl : fl.Scales) (H : Hashes) (seqNum checksum : Nat)
    {seqLen : Nat} (hpos : 0 < seqLen) (hlt : seqLen < 2 ^ 32) :
    ∃ indexes, drawFragments fl H seqNum seqLen checksum = .ok indexes ∧ indexes ≠ [] ∧
      indexes.Pairwise (· < ·) ∧ ∀ i ∈ indexes, i < seqLen := by
  obtain ⟨sampler, hnew, hcovers⟩ := DegreeSampler.new_ok fl seqLen
  obtain ⟨degree, rng, hnext, hdegree, hdegree'⟩ := DegreeSampler.next_ok hfl hcovers hpos hlt
    (Xoshiro256.new (H.sha256 (be 4 seqNum ++ be 4 checksum)))
  obtain ⟨chosen, hdraw, hcount, hnodup, hsub⟩ := drawIndexes_ok
    hfl (List.nodup_range (n := seqLen)) (by simpa using hdegree') (by simpa using hlt) rng
  have hperm := List.mergeSort_perm chosen (fun a b => decide (a ≤ b))
  refine ⟨chosen.mergeSort (fun a b => decide (a ≤ b)), ?_, ?_, ?_, ?_⟩
  · rw [drawFragments, hnew, ok_bind, hnext, ok_bind]
    dsimp only
    rw [hdraw, ok_bind]
  · intro hnil
    have hlen := hperm.length_eq
    rw [hnil, List.length_nil] at hlen
    omega
  · have hsorted : (chosen.mergeSort (fun a b => decide (a ≤ b))).Pairwise (· ≤ ·) := by
      have htotal : ∀ a b : Nat, (decide (a ≤ b) || decide (b ≤ a)) = true := by
        intro a b
        simpa using Nat.le_total a b
      have htrans : ∀ a b c : Nat, decide (a ≤ b) = true → decide (b ≤ c) = true →
          decide (a ≤ c) = true := by
        intro a b c hab hbc
        simp only [decide_eq_true_eq] at hab hbc ⊢
        omega
      simpa using List.pairwise_mergeSort htrans htotal chosen
    exact (hsorted.and (hperm.nodup_iff.mpr hnodup)).imp fun h => Nat.lt_of_le_of_ne h.1 h.2
  · exact fun i hi => List.mem_range.mp (hsub i (hperm.mem_iff.mp hi))

/-- The draw as a function of its arguments, for counts of 32 bits. -/
def pseudoRandom (fl : Doubles) (H : Hashes) : PseudoRandom := fun seqNum seqLen checksum =>
  if seqLen < 2 ^ 32 then
    match drawFragments fl H seqNum seqLen checksum with
    | .ok indexes => indexes
    | .error _ => []
  else [0]

theorem pseudoRandom_eq {fl : Doubles} (hfl : fl.Scales) (H : Hashes) (seqNum checksum : Nat)
    {seqLen : Nat} (hpos : 0 < seqLen) (hlt : seqLen < 2 ^ 32) :
    drawFragments fl H seqNum seqLen checksum = .ok (pseudoRandom fl H seqNum seqLen checksum) := by
  obtain ⟨indexes, hdraw, -⟩ := drawFragments_ok hfl H seqNum checksum hpos hlt
  rw [pseudoRandom, if_pos hlt, hdraw]

theorem pseudoRandom_draws {fl : Doubles} (hfl : fl.Scales) (H : Hashes) : (pseudoRandom fl H).Draws := by
  intro seqNum seqLen checksum hpos _
  by_cases hlt : seqLen < 2 ^ 32
  · obtain ⟨indexes, hdraw, hdraws⟩ := drawFragments_ok hfl H seqNum checksum hpos hlt
    rw [pseudoRandom, if_pos hlt, hdraw]
    exact hdraws
  · rw [pseudoRandom, if_neg hlt]
    simpa using hpos

/-- Doubles without rounding. -/
def exactDoubles : Doubles where
  Double := ℚ
  ofNat := fun n => n
  add := fun a b => a + b
  sub := fun a b => a - b
  mul := fun a b => a * b
  div := fun a b => a / b
  lt := fun a b => decide (a < b)
  toNat := fun a => ⌊a⌋₊

def exactFraction (word : UInt64) : ℚ := exactDoubles.fraction word

theorem exactFraction_bounds (word : UInt64) : 0 ≤ exactFraction word ∧ exactFraction word < 1 := by
  have hlt : (word >>> 11).toNat < 2 ^ 53 := by
    have hword := word.toNat_lt
    have hshift : (11 : UInt64).toNat % 64 = 11 := rfl
    rw [UInt64.toNat_shiftRight, Nat.shiftRight_eq_div_pow, hshift]
    omega
  have hlt' : ((word >>> 11).toNat : ℚ) < (2 ^ 53 : ℕ) := by exact_mod_cast hlt
  have heq : exactFraction word = (word >>> 11).toNat * ((1 : ℕ) / (2 ^ 53 : ℕ)) := rfl
  rw [heq, Nat.cast_one, mul_one_div]
  exact ⟨by positivity, (div_lt_one (by positivity)).mpr hlt'⟩

theorem exactDoubles_scales : exactDoubles.Scales := by
  have hscale : ∀ (word : UInt64) (count : Nat), 0 < count → ⌊exactFraction word * (count : ℚ)⌋₊ < count := by
    intro word count hpos
    obtain ⟨hnonneg, hlt⟩ := exactFraction_bounds word
    have hcount : (0 : ℚ) < count := by exact_mod_cast hpos
    rw [Nat.floor_lt (by positivity)]
    calc exactFraction word * count < 1 * count := mul_lt_mul_of_pos_right hlt hcount
      _ = count := one_mul _
  constructor
  · exact fun word count hpos _ => hscale word count hpos
  · intro word count hpos _
    have h := hscale word count hpos
    rw [mul_comm] at h
    exact h

end Outscript.Bcur
