import Mathlib
import TcfAgent.Lib.Bits

/-!
# Canonical prefix codes

A list of sizes gives every index of a size that is not 0 a code of that many bits: the codes of one
size are numbers one after the other, and those of the next size go on behind them. The first bit of
a code is the last one of its number; in a stream of bits, whose first bit is the lowest one of a
number, a code stands mirrored.

`Fits` says that there are not too many codes, `Complete` that no more fit. Then no bits begin with
two codes (`begins_unique`), and all bits begin with one when the codes are complete
(`exists_begins`).
-/

namespace TcfAgent.Lib

/-! ## Mirrored numbers -/

/-- The number with the lowest `n` bits of `c` the other way round. -/
def mirror : (n c : Nat) → Nat
  | 0, _ => 0
  | n + 1, c => (c % 2) * 2 ^ n + mirror n (c / 2)

section

variable {n m c x : Nat}

theorem mirror_lt (n c : Nat) : mirror n c < 2 ^ n := by
  induction n generalizing c with
  | zero => exact Nat.one_pos
  | succ n ih =>
    have hRest := ih (c / 2)
    have hBit : c % 2 < 2 := Nat.mod_lt _ (by decide)
    have hPow : 2 ^ (n + 1) = 2 * 2 ^ n := by ring
    rw [mirror, hPow]
    have hMul : c % 2 * 2 ^ n ≤ 1 * 2 ^ n := Nat.mul_le_mul_right _ (by omega)
    omega

theorem testBit_mirror (n c i : Nat) :
    (mirror n c).testBit i = (decide (i < n) && c.testBit (n - 1 - i)) := by
  induction n generalizing c with
  | zero => simp [mirror]
  | succ n ih =>
    have hLt := mirror_lt n (c / 2)
    rw [mirror, Nat.mul_comm, Nat.two_pow_add_eq_or_of_lt hLt, Nat.testBit_or, ih,
      Nat.testBit_two_pow_mul]
    rcases Nat.lt_trichotomy i n with hBelow | rfl | hAbove
    · have hIndex : n - 1 - i + 1 = n + 1 - 1 - i := by omega
      simp [hBelow, Nat.not_le_of_lt hBelow, Nat.lt_succ_of_lt hBelow, Nat.testBit_div_two, hIndex]
    · simp [Nat.testBit_zero]
    · have hNot : ¬ i < n + 1 := by omega
      have hZero : (c % 2).testBit (i - n) = false := by
        refine Nat.testBit_lt_two_pow ?_
        calc c % 2 < 2 ^ 1 := Nat.mod_lt _ (by decide)
          _ ≤ 2 ^ (i - n) := Nat.pow_le_pow_right (by decide) (by omega)
      simp [hNot, hZero, Nat.not_lt_of_gt hAbove]

theorem lowBits_mirror : lowBits n (mirror n c) = (lowBits n c).reverse := by
  refine List.ext_getElem (by simp) fun i hi _ => ?_
  rw [length_lowBits] at hi
  simp [lowBits, testBit_mirror, hi]

theorem mirror_mirror (h : c < 2 ^ n) : mirror n (mirror n c) = c := by
  refine Nat.eq_of_testBit_eq fun i => ?_
  rw [testBit_mirror, testBit_mirror]
  by_cases hi : i < n
  · have hIndex : n - 1 - (n - 1 - i) = i := by omega
    have hOther : n - 1 - i < n := by omega
    simp [hi, hOther, hIndex]
  · have hZero : c.testBit i = false :=
      Nat.testBit_lt_two_pow (h.trans_le (Nat.pow_le_pow_right (by decide) (by omega)))
    simp [hi, hZero]

/-- The first bits, seen from the other end. -/
theorem mirror_div (hLe : n ≤ m) : mirror n (mirror m x / 2 ^ (m - n)) = x % 2 ^ n := by
  refine Nat.eq_of_testBit_eq fun i => ?_
  rw [testBit_mirror, Nat.testBit_div_two_pow, testBit_mirror, Nat.testBit_mod_two_pow]
  by_cases hi : i < n
  · have hIndex : m - 1 - (n - 1 - i + (m - n)) = i := by omega
    have hOther : n - 1 - i + (m - n) < m := by omega
    simp [hi, hOther, hIndex]
  · simp [hi]

end

/-! ## Codes -/

/-- The first code of a size; `count` is how many codes of a size there are. -/
def firstCode (count : Nat → Nat) : Nat → Nat
  | 0 => 0
  | 1 => 0
  | n + 2 => (firstCode count (n + 1) + count (n + 1)) * 2

section

variable {count : Nat → Nat} {m s s' r r' y : Nat}

/-- Where the codes of a size begin among the numbers of `m` bits. -/
def origin (count : Nat → Nat) (m s : Nat) : Nat := firstCode count s * 2 ^ (m - s)

theorem origin_succ (hs : 1 ≤ s) (hm : s < m) :
    origin count m (s + 1) = origin count m s + count s * 2 ^ (m - s) := by
  obtain ⟨s, rfl⟩ : ∃ k, s = k + 1 := ⟨s - 1, by omega⟩
  have hPow : 2 ^ (m - (s + 1)) = 2 * 2 ^ (m - (s + 1 + 1)) := by
    rw [← pow_succ']
    congr 1
    omega
  rw [origin, origin, firstCode, hPow]
  ring

theorem origin_le (hs : 1 ≤ s) (hLt : s < s') (hm : s' ≤ m) :
    origin count m s + count s * 2 ^ (m - s) ≤ origin count m s' := by
  induction s' with
  | zero => omega
  | succ t ih =>
    rcases Nat.lt_or_eq_of_le (Nat.le_of_lt_succ hLt) with hLess | rfl
    · rw [origin_succ (by omega) (by omega)]
      exact (ih hLess (by omega)).trans (Nat.le_add_right _ _)
    · rw [origin_succ hs (by omega)]

/-- Two numbers between which a number is, of one size, are the same. -/
theorem between_unique {a b k : Nat} (ha : a * k ≤ y ∧ y < (a + 1) * k)
    (hb : b * k ≤ y ∧ y < (b + 1) * k) : a = b := by
  have hFirst : a < b + 1 := Nat.lt_of_mul_lt_mul_right (ha.1.trans_lt hb.2)
  have hSecond : b < a + 1 := Nat.lt_of_mul_lt_mul_right (hb.1.trans_lt ha.2)
  omega

/-- The numbers that begin with a code. -/
def Covers (count : Nat → Nat) (m s r y : Nat) : Prop :=
  (firstCode count s + r) * 2 ^ (m - s) ≤ y ∧ y < (firstCode count s + r + 1) * 2 ^ (m - s)

theorem covers_bounds (hr : r < count s) (h : Covers count m s r y) :
    origin count m s ≤ y ∧ y < origin count m s + count s * 2 ^ (m - s) := by
  obtain ⟨hLow, hHigh⟩ := h
  rw [origin]
  constructor
  · exact (Nat.mul_le_mul_right _ (Nat.le_add_right _ _)).trans hLow
  · refine hHigh.trans_le ?_
    rw [← Nat.add_mul]
    exact Nat.mul_le_mul_right _ (by omega)

/-- No number begins with two codes. -/
theorem covers_unique (hs : 1 ≤ s) (hs' : 1 ≤ s') (hm : s ≤ m) (hm' : s' ≤ m) (hr : r < count s)
    (hr' : r' < count s') (h : Covers count m s r y) (h' : Covers count m s' r' y) :
    s = s' ∧ r = r' := by
  have hBounds := covers_bounds hr h
  have hBounds' := covers_bounds hr' h'
  rcases Nat.lt_trichotomy s s' with hLt | rfl | hGt
  · have hApart : origin count m s + count s * 2 ^ (m - s) ≤ origin count m s' :=
      origin_le hs hLt hm'
    omega
  · have hSame := between_unique h h'
    omega
  · have hApart : origin count m s' + count s' * 2 ^ (m - s') ≤ origin count m s :=
      origin_le hs' hGt hm
    omega

/-- Every number below the end of the codes begins with one. -/
theorem exists_covers (hm : 1 ≤ m) (hy : y < origin count m m + count m) :
    ∃ s r, 1 ≤ s ∧ s ≤ m ∧ r < count s ∧ Covers count m s r y := by
  have hFind : ∀ t, 1 ≤ t → t ≤ m → y < origin count m t + count t * 2 ^ (m - t) →
      ∃ s, 1 ≤ s ∧ s ≤ m ∧ origin count m s ≤ y ∧
        y < origin count m s + count s * 2 ^ (m - s) := by
    intro t
    induction t with
    | zero => omega
    | succ t ih =>
      intro ht htm hBelow
      by_cases hLow : origin count m (t + 1) ≤ y
      · exact ⟨t + 1, ht, htm, hLow, hBelow⟩
      · rcases Nat.eq_zero_or_pos t with rfl | hPos
        · have hZero : origin count m (0 + 1) = 0 := by simp [origin, firstCode]
          omega
        · refine ih hPos (by omega) ?_
          rw [← origin_succ hPos (by omega)]
          omega
  obtain ⟨s, hs, hsm, hLow, hHigh⟩ := hFind m hm (Nat.le_refl m) (by simpa using hy)
  have hPow : 0 < 2 ^ (m - s) := Nat.two_pow_pos _
  rw [origin] at hLow hHigh
  have hDiv : firstCode count s ≤ y / 2 ^ (m - s) := (Nat.le_div_iff_mul_le hPow).2 hLow
  refine ⟨s, y / 2 ^ (m - s) - firstCode count s, hs, hsm, ?_, ?_⟩
  · have hTop : y / 2 ^ (m - s) < firstCode count s + count s := by
      rw [Nat.div_lt_iff_lt_mul hPow, Nat.add_mul]
      exact hHigh
    omega
  · have hSum : firstCode count s + (y / 2 ^ (m - s) - firstCode count s) = y / 2 ^ (m - s) := by
      omega
    unfold Covers
    rw [hSum]
    refine ⟨Nat.div_mul_le_self _ _, ?_⟩
    rw [Nat.mul_comm]
    exact Nat.lt_mul_div_succ y hPow

end

/-! ## The codes of a list of sizes -/

/-- The code of an index. -/
def codeAt (sizes : List Nat) (j : Nat) : Nat :=
  firstCode sizes.count (sizes.getD j 0) + (sizes.take j).count (sizes.getD j 0)

/-- The code of an index as it stands in a stream of bits. -/
def codeword (sizes : List Nat) (j : Nat) : Nat := mirror (sizes.getD j 0) (codeAt sizes j)

/-- The code of an index, the highest bit first. -/
def codeBits (sizes : List Nat) (j : Nat) : List Bool :=
  (lowBits (sizes.getD j 0) (codeAt sizes j)).reverse

/-- The bits of `x`, the lowest first, begin with the code of an index. -/
def Begins (sizes : List Nat) (j x : Nat) : Prop :=
  sizes.getD j 0 ≠ 0 ∧ x % 2 ^ sizes.getD j 0 = codeword sizes j

instance (sizes : List Nat) (j x : Nat) : Decidable (Begins sizes j x) :=
  inferInstanceAs (Decidable (_ ∧ _))

/-- There are codes of at most `m` bits, and not more than there can be. -/
structure Fits (m : Nat) (sizes : List Nat) : Prop where
  le    : ∀ s ∈ sizes, s ≤ m
  total : firstCode sizes.count (m + 1) ≤ 2 ^ (m + 1)

/-- No more codes fit. -/
structure Complete (m : Nat) (sizes : List Nat) : Prop where
  le    : ∀ s ∈ sizes, s ≤ m
  total : firstCode sizes.count (m + 1) = 2 ^ (m + 1)

section

variable {sizes : List Nat} {m n j k x s : Nat}

theorem Complete.fits (h : Complete m sizes) : Fits m sizes := ⟨h.le, h.total.le⟩

theorem lt_of_size (h : sizes.getD j 0 ≠ 0) : j < sizes.length := by
  by_contra hNot
  exact h (List.getD_eq_default _ _ (Nat.not_lt.1 hNot))

theorem size_mem (h : sizes.getD j 0 ≠ 0) : sizes.getD j 0 ∈ sizes := by
  have hLt := lt_of_size h
  rw [List.getD_eq_getElem _ _ hLt]
  exact List.getElem_mem hLt

theorem codeword_lt : codeword sizes j < 2 ^ sizes.getD j 0 := mirror_lt _ _

theorem begins_codeword (h : sizes.getD j 0 ≠ 0) : Begins sizes j (codeword sizes j) :=
  ⟨h, Nat.mod_eq_of_lt codeword_lt⟩

theorem length_codeBits : (codeBits sizes j).length = sizes.getD j 0 := by simp [codeBits]

theorem lowBits_begins (h : Begins sizes j x) : lowBits (sizes.getD j 0) x = codeBits sizes j := by
  rw [codeBits, ← lowBits_mirror]
  refine lowBits_congr ?_
  rw [h.2, Nat.mod_eq_of_lt (mirror_lt _ _)]
  rfl

theorem begins_iff_mem (hn : sizes.getD j 0 ≤ n) :
    Begins sizes j x ↔ sizes.getD j 0 ≠ 0 ∧ codeBits sizes j <+: lowBits n x := by
  obtain ⟨k, rfl⟩ := Nat.exists_eq_add_of_le hn
  rw [lowBits_add]
  refine ⟨fun h => ⟨h.1, ?_⟩, ?_⟩
  · rw [lowBits_begins h]
    exact List.prefix_append _ _
  · rintro ⟨hUsed, hPrefix⟩
    refine ⟨hUsed, ?_⟩
    have hSame : codeBits sizes j = lowBits (sizes.getD j 0) x :=
      (List.prefix_of_prefix_length_le hPrefix (List.prefix_append _ _)
        (by simp [codeBits])).eq_of_length
        (by simp [codeBits])
    rw [codeBits, ← lowBits_mirror, lowBits_inj, Nat.mod_eq_of_lt (mirror_lt _ _)] at hSame
    exact hSame.symm

/-- A code is read off as many bits as it has. -/
theorem Begins.congr {y : Nat} (h : Begins sizes j y) (hSize : sizes.getD j 0 ≤ k)
    (hMod : x % 2 ^ k = y % 2 ^ k) : Begins sizes j x := by
  refine ⟨h.1, ?_⟩
  have hDvd := pow_dvd_pow 2 hSize
  rw [← h.2, ← Nat.mod_mod_of_dvd x hDvd, hMod, Nat.mod_mod_of_dvd y hDvd]

theorem take_count_lt (hLt : j < k) (hk : k ≤ sizes.length) :
    (sizes.take j).count (sizes.getD j 0) < (sizes.take k).count (sizes.getD j 0) := by
  have hIn : j < sizes.length := by omega
  have hSucc : sizes.take (j + 1) = sizes.take j ++ [sizes.getD j 0] := by
    rw [List.getD_eq_getElem _ _ hIn, List.take_succ_eq_append_getElem hIn]
  calc (sizes.take j).count (sizes.getD j 0)
      < (sizes.take (j + 1)).count (sizes.getD j 0) := by
        rw [hSucc, List.count_append, List.count_singleton_self]
        omega
    _ ≤ (sizes.take k).count (sizes.getD j 0) :=
        (List.take_sublist_take_left hLt).count_le _

theorem rank_lt (h : sizes.getD j 0 ≠ 0) :
    (sizes.take j).count (sizes.getD j 0) < sizes.count (sizes.getD j 0) := by
  have hCount := take_count_lt (lt_of_size h) (Nat.le_refl _)
  rwa [List.take_length] at hCount

theorem rank_inj (hj : sizes.getD j 0 ≠ 0) (hSize : sizes.getD j 0 = sizes.getD k 0)
    (hRank : (sizes.take j).count (sizes.getD j 0) = (sizes.take k).count (sizes.getD k 0)) :
    j = k := by
  have hk : sizes.getD k 0 ≠ 0 := hSize ▸ hj
  rcases Nat.lt_trichotomy j k with hLt | hEq | hGt
  · have hCount := take_count_lt hLt (lt_of_size hk).le
    rw [hRank, hSize] at hCount
    omega
  · exact hEq
  · have hCount := take_count_lt hGt (lt_of_size hj).le
    rw [← hRank, hSize] at hCount
    omega

theorem exists_rank {r : Nat} (hs : s ≠ 0) (hr : r < sizes.count s) :
    ∃ j, sizes.getD j 0 = s ∧ (sizes.take j).count s = r := by
  induction sizes generalizing r with
  | nil => simp at hr
  | cons t sizes ih =>
    by_cases ht : t = s
    · subst ht
      cases r with
      | zero => exact ⟨0, by simp, by simp⟩
      | succ r =>
        rw [List.count_cons_self] at hr
        obtain ⟨j, hSize, hRank⟩ := ih (by omega : r < sizes.count t)
        exact ⟨j + 1, by simpa using hSize, by simpa using hRank⟩
    · rw [List.count_cons_of_ne ht] at hr
      obtain ⟨j, hSize, hRank⟩ := ih hr
      exact ⟨j + 1, by simpa using hSize, by simpa [ht] using hRank⟩

theorem firstCode_succ (hs : s ≠ 0) :
    firstCode sizes.count (s + 1) = (firstCode sizes.count s + sizes.count s) * 2 := by
  obtain ⟨s, rfl⟩ := Nat.exists_eq_succ_of_ne_zero hs
  rfl

/-- The codes of a size end where there are no more numbers, at the latest. -/
theorem Fits.end_le (h : Fits m sizes) (hs : s ≠ 0) (hm : s ≤ m) :
    (firstCode sizes.count s + sizes.count s) * 2 ^ (m - s) ≤ 2 ^ m := by
  have hTop : origin sizes.count m m + sizes.count m ≤ 2 ^ m := by
    have hTotal := h.total
    rw [firstCode_succ (by omega), pow_succ] at hTotal
    have hOrigin : origin sizes.count m m = firstCode sizes.count m := by simp [origin]
    omega
  rcases Nat.lt_or_eq_of_le hm with hLt | rfl
  · have hBefore : origin sizes.count m s + sizes.count s * 2 ^ (m - s) ≤ origin sizes.count m m :=
      origin_le (by omega) hLt (Nat.le_refl m)
    rw [Nat.add_mul]
    unfold origin at hBefore hTop
    omega
  · simpa [origin] using hTop

theorem Fits.code_lt (h : Fits m sizes) (hj : sizes.getD j 0 ≠ 0) :
    codeAt sizes j < 2 ^ sizes.getD j 0 := by
  have hm : sizes.getD j 0 ≤ m := h.le _ (size_mem hj)
  have hEnd := h.end_le hj hm
  have hPow : 2 ^ m = 2 ^ sizes.getD j 0 * 2 ^ (m - sizes.getD j 0) := by
    rw [← pow_add]
    congr 1
    omega
  rw [hPow] at hEnd
  have hLe := Nat.le_of_mul_le_mul_right hEnd (Nat.two_pow_pos _)
  have hRank := rank_lt hj
  unfold codeAt
  omega

/-- Bits begin with a code when their number, mirrored, is one of those that the code covers. -/
theorem Fits.begins_iff (h : Fits m sizes) (hj : sizes.getD j 0 ≠ 0) :
    Begins sizes j x ↔ Covers sizes.count m (sizes.getD j 0)
      ((sizes.take j).count (sizes.getD j 0)) (mirror m x) := by
  have hm : sizes.getD j 0 ≤ m := h.le _ (size_mem hj)
  have hPow : 0 < 2 ^ (m - sizes.getD j 0) := Nat.two_pow_pos _
  have hCode := h.code_lt hj
  have hDivLt : mirror m x / 2 ^ (m - sizes.getD j 0) < 2 ^ sizes.getD j 0 := by
    rw [Nat.div_lt_iff_lt_mul hPow, ← pow_add]
    have hSum : sizes.getD j 0 + (m - sizes.getD j 0) = m := by omega
    rw [hSum]
    exact mirror_lt m x
  have hCovers : Covers sizes.count m (sizes.getD j 0)
      ((sizes.take j).count (sizes.getD j 0)) (mirror m x) ↔
        mirror m x / 2 ^ (m - sizes.getD j 0) = codeAt sizes j := by
    unfold Covers
    rw [Nat.div_eq_iff hPow, codeAt, Nat.add_mul _ 1]
    omega
  rw [hCovers]
  constructor
  · rintro ⟨-, hBits⟩
    rw [← mirror_div hm] at hBits
    have hBoth := congrArg (mirror (sizes.getD j 0)) hBits
    rwa [mirror_mirror hDivLt, codeword, mirror_mirror hCode] at hBoth
  · intro hDiv
    exact ⟨hj, by rw [← mirror_div hm, hDiv, codeword]⟩

/-- No bits begin with two codes. -/
theorem Fits.begins_unique (h : Fits m sizes) (hj : Begins sizes j x) (hk : Begins sizes k x) :
    j = k := by
  have hm : sizes.getD j 0 ≤ m := h.le _ (size_mem hj.1)
  have hm' : sizes.getD k 0 ≤ m := h.le _ (size_mem hk.1)
  obtain ⟨hSize, hRank⟩ := covers_unique (by have := hj.1; omega) (by have := hk.1; omega) hm hm'
    (rank_lt hj.1) (rank_lt hk.1) ((h.begins_iff hj.1).1 hj) ((h.begins_iff hk.1).1 hk)
  exact rank_inj hj.1 hSize hRank

/-- All bits begin with a code when the codes are complete. -/
theorem Complete.exists_begins (h : Complete m sizes) (hm : 1 ≤ m) (x : Nat) :
    ∃ j, Begins sizes j x := by
  have hTop : mirror m x < origin sizes.count m m + sizes.count m := by
    have hTotal := h.total
    rw [firstCode_succ (by omega), pow_succ] at hTotal
    have hLt := mirror_lt m x
    have hOrigin : origin sizes.count m m = firstCode sizes.count m := by simp [origin]
    omega
  obtain ⟨s, r, hs, -, hr, hCovers⟩ := exists_covers hm hTop
  obtain ⟨j, rfl, rfl⟩ := exists_rank (by omega) hr
  exact ⟨j, (h.fits.begins_iff (by omega)).2 hCovers⟩

end

/-! ## One code -/

/-- There is one code, or none. -/
structure Single (m : Nat) (sizes : List Nat) : Prop where
  le  : ∀ s ∈ sizes, s ≤ m
  one : sizes.countP (· ≠ 0) ≤ 1

section

variable {sizes : List Nat} {m j k : Nat}

theorem firstCode_le (count : Nat → Nat) (m : Nat) :
    firstCode count (m + 1) ≤ (∑ i ∈ Finset.range m, count (i + 1)) * 2 ^ m := by
  induction m with
  | zero => simp [firstCode]
  | succ m ih =>
    have hPow : 1 ≤ 2 ^ m := Nat.one_le_two_pow
    have hCount : count (m + 1) ≤ count (m + 1) * 2 ^ m := Nat.le_mul_of_pos_right _ hPow
    have hSplit := Nat.add_mul (∑ i ∈ Finset.range m, count (i + 1)) (count (m + 1)) (2 ^ m)
    rw [firstCode, Finset.sum_range_succ, pow_succ, ← Nat.mul_assoc]
    omega

theorem sum_count (h : ∀ s ∈ sizes, s ≤ m) :
    ∑ i ∈ Finset.range m, sizes.count (i + 1) = sizes.countP (· ≠ 0) := by
  induction sizes with
  | nil => simp
  | cons s sizes ih =>
    have hRest := ih fun s hs => h s (List.mem_cons_of_mem _ hs)
    have hs : s ≤ m := h s List.mem_cons_self
    simp only [List.count_cons, List.countP_cons, Finset.sum_add_distrib, hRest]
    congr 1
    cases s with
    | zero => simp
    | succ s =>
      have hMem : s < m := hs
      simp [hMem]

theorem Single.unique (h : Single m sizes) (hj : sizes.getD j 0 ≠ 0) (hk : sizes.getD k 0 ≠ 0) :
    j = k := by
  have hOne := h.one
  clear h
  induction sizes generalizing j k with
  | nil => simp at hj
  | cons s sizes ih =>
    have hNone : ∀ i, s ≠ 0 → sizes.getD i 0 = 0 := by
      intro i hs
      by_contra hi
      have hRest := List.countP_pos_iff (p := fun s => decide (s ≠ 0)).2
        ⟨_, size_mem hi, by simpa using hi⟩
      rw [List.countP_cons_of_pos (by simpa using hs)] at hOne
      omega
    rcases j with - | j <;> rcases k with - | k
    · rfl
    · exact absurd (hNone k hj) hk
    · exact absurd (hNone j hk) hj
    · rw [ih hj hk (by rw [List.countP_cons] at hOne; omega)]

theorem Single.fits (h : Single m sizes) : Fits m sizes := by
  refine ⟨h.le, ?_⟩
  calc firstCode sizes.count (m + 1)
      ≤ (∑ i ∈ Finset.range m, sizes.count (i + 1)) * 2 ^ m := firstCode_le _ m
    _ = sizes.countP (· ≠ 0) * 2 ^ m := by rw [sum_count h.le]
    _ ≤ 1 * 2 ^ m := Nat.mul_le_mul_right _ h.one
    _ ≤ 2 ^ (m + 1) := by rw [pow_succ]; omega

end

end TcfAgent.Lib
