import Mathlib

/-!
# Bits of a number

The `n` lowest bits of a number as a list, the lowest one first: how lists are put together when
numbers are shifted. A negative number of `n` bits with ones in front of it, up to `m` bits.
-/

namespace TcfAgent.Lib

/-- The `n` lowest bits, the lowest one first. -/
def lowBits (n x : Nat) : List Bool := (List.range n).map x.testBit

section

variable {n m x y : Nat}

@[simp] theorem length_lowBits : (lowBits n x).length = n := by simp [lowBits]

theorem lowBits_add : lowBits (n + m) x = lowBits n x ++ lowBits m (x >>> n) := by
  unfold lowBits
  rw [List.range_add, List.map_append, List.map_map]
  congr 1
  refine List.map_congr_left fun i _ => ?_
  rw [Function.comp_apply, Nat.testBit_shiftRight]

theorem lowBits_congr (h : x % 2 ^ n = y % 2 ^ n) : lowBits n x = lowBits n y := by
  refine List.map_congr_left fun i hi => ?_
  have hBit := congrArg (fun z => z.testBit i) h
  simpa [Nat.testBit_mod_two_pow, List.mem_range.1 hi] using hBit

theorem lowBits_inj : lowBits n x = lowBits n y ↔ x % 2 ^ n = y % 2 ^ n := by
  refine ⟨fun h => Nat.eq_of_testBit_eq fun i => ?_, lowBits_congr⟩
  rw [Nat.testBit_mod_two_pow, Nat.testBit_mod_two_pow]
  by_cases hi : i < n
  · have hBit := congrArg (fun t : List Bool => t[i]?) h
    simp [lowBits, hi] at hBit
    rw [hBit]
  · simp [hi]

/-- What is above the bits of a number. -/
theorem lowBits_or (hx : x < 2 ^ n) :
    lowBits (n + m) (x ||| y <<< n) = lowBits n x ++ lowBits m y := by
  rw [lowBits_add]
  congr 1
  · refine lowBits_congr ?_
    refine Nat.eq_of_testBit_eq fun i => ?_
    by_cases hi : i < n
    · simp [Nat.testBit_mod_two_pow, hi]
    · simp [Nat.testBit_mod_two_pow, hi]
  · congr 1
    rw [Nat.shiftRight_or_distrib, Nat.shiftLeft_shiftRight, Nat.shiftRight_eq_div_pow,
      Nat.div_eq_of_lt hx, Nat.zero_or]

end

section

variable {n m x z : Nat}

/-- The bits from `n` to `m` are ones. -/
def onesAbove (n m z : Nat) : Nat := z + (2 ^ m - 2 ^ n)

theorem testBit_onesAbove (hz : z < 2 ^ n) (hm : n ≤ m) (i : Nat) :
    (onesAbove n m z).testBit i = if i < n then z.testBit i else decide (i < m) := by
  have hOnes : onesAbove n m z = 2 ^ n * (2 ^ (m - n) - 1) + z := by
    unfold onesAbove
    rw [Nat.mul_sub, ← Nat.pow_add, Nat.add_sub_cancel' hm, Nat.mul_one, Nat.add_comm]
  rw [hOnes, Nat.testBit_two_pow_mul_add _ hz, Nat.testBit_two_pow_sub_one]
  by_cases hi : i < n
  · rw [if_pos hi, if_pos hi]
  · rw [if_neg hi, if_neg hi]
    exact decide_eq_decide.2 (by omega)

theorem testBit_above (hz : z < 2 ^ n) {i : Nat} (hi : ¬ i < n) : z.testBit i = false :=
  Nat.testBit_lt_two_pow (Nat.lt_of_lt_of_le hz (Nat.pow_le_pow_right (by decide) (by omega)))

theorem lt_two_pow_iff : x < 2 ^ n ↔ ∀ i, n ≤ i → x.testBit i = false := by
  refine ⟨fun hx i hi => testBit_above hx (by omega), fun h => Nat.lt_pow_two_of_testBit x h⟩

/-- Ones in front of a number are not seen where the other number has none. -/
theorem onesAbove_and (hz : z < 2 ^ n) (hm : n ≤ m) (hx : x < 2 ^ m) :
    onesAbove n m z &&& x = z &&& x ↔ x < 2 ^ n := by
  rw [lt_two_pow_iff]
  constructor
  · intro h i hi
    have hBit := congrArg (fun y => y.testBit i) h
    simp only [Nat.testBit_and, testBit_onesAbove hz hm, testBit_above hz (by omega : ¬ i < n),
      if_neg (by omega : ¬ i < n), Bool.false_and, Bool.and_eq_false_iff,
      decide_eq_false_iff_not] at hBit
    rcases hBit with hOut | hBit
    · exact testBit_above hx hOut
    · exact hBit
  · intro h
    refine Nat.eq_of_testBit_eq fun i => ?_
    rw [Nat.testBit_and, Nat.testBit_and, testBit_onesAbove hz hm]
    by_cases hi : i < n
    · rw [if_pos hi]
    · rw [h i (by omega), Bool.and_false, Bool.and_false]

/-- Nor where the other number has ones in front. -/
theorem onesAbove_or (hz : z < 2 ^ n) (hm : n ≤ m) (hx : x < 2 ^ m) :
    onesAbove n m z ||| x = z ||| x ↔ 2 ^ m - 2 ^ n ≤ x := by
  have hPow : 2 ^ n ≤ 2 ^ m := Nat.pow_le_pow_right (by decide) hm
  have hSame : 2 ^ m - 2 ^ n ≤ x ↔ 2 ^ m - (x + 1) < 2 ^ n := by omega
  rw [hSame, lt_two_pow_iff]
  simp only [Nat.testBit_two_pow_sub_succ hx]
  constructor
  · intro h i hi
    have hBit := congrArg (fun y => y.testBit i) h
    simp only [Nat.testBit_or, testBit_onesAbove hz hm, testBit_above hz (by omega : ¬ i < n),
      if_neg (by omega : ¬ i < n), Bool.false_or] at hBit
    by_cases hOut : i < m
    · rw [decide_eq_true hOut, Bool.true_or] at hBit
      rw [← hBit, Bool.not_true, Bool.and_false]
    · rw [decide_eq_false hOut, Bool.false_and]
  · intro h
    refine Nat.eq_of_testBit_eq fun i => ?_
    rw [Nat.testBit_or, Nat.testBit_or, testBit_onesAbove hz hm]
    by_cases hi : i < n
    · rw [if_pos hi]
    · have hOne := h i (by omega)
      rw [if_neg hi, testBit_above hz hi, Bool.false_or]
      by_cases hOut : i < m
      · rw [decide_eq_true hOut, Bool.true_and, Bool.not_eq_false'] at hOne
        rw [hOne, Bool.or_true]
      · rw [decide_eq_false hOut, Bool.false_or]

/-- An exclusive or always shows them. -/
theorem onesAbove_xor (hz : z < 2 ^ n) (hm : n ≤ m) :
    onesAbove n m z ^^^ x = z ^^^ x ↔ n = m := by
  constructor
  · intro h
    by_contra hLess
    have hBit := congrArg (fun y => y.testBit n) h
    simp only [Nat.testBit_xor, testBit_onesAbove hz hm,
      testBit_above hz (Nat.lt_irrefl n), if_neg (Nat.lt_irrefl n),
      decide_eq_true (by omega : n < m)] at hBit
    cases hx : x.testBit n with
    | false =>
      rw [hx] at hBit
      cases hBit
    | true =>
      rw [hx] at hBit
      cases hBit
  · intro h
    subst h
    unfold onesAbove
    rw [Nat.sub_self, Nat.add_zero]

end

end TcfAgent.Lib
