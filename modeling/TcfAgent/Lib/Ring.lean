import Mathlib.Data.List.Basic
import Mathlib.Data.Nat.ModEq
import Mathlib.Tactic.SplitIfs

/-!
# Circular memory

A memory of `n` cells read in a circle: `Holds mem n start xs` says that the list `xs`
lies in it from the cell `start` on, modulo `n`. Storing a block behind what is held
extends the list (`holds_store`, and `holds_store_wrap` where the block goes around),
reading it (`load_eq_of_holds`, `load_wrap_of_holds`) gives its elements, dropping what
was read moves the start (`Holds.drop`), and copying the two halves of the circle one
after the other straightens it (`holds_straighten`).
-/

namespace TcfAgent.Lib.Ring

variable {α : Type*}

/-- The list lies in the circle from `start` on. -/
def Holds (mem : Nat → α) (n start : Nat) (xs : List α) : Prop :=
  ∀ i (hi : i < xs.length), mem ((start + i) % n) = xs[i]

/-- `memcpy(mem + p, xs, length)`. -/
def store (mem : Nat → α) (p : Nat) (xs : List α) : Nat → α := fun j =>
  if h : p ≤ j ∧ j - p < xs.length then xs.get ⟨j - p, h.2⟩ else mem j

variable {mem : Nat → α} {n start : Nat} {x : α} {xs ys : List α}

@[simp] theorem holds_nil : Holds mem n start [] := by
  intro i hi
  exact absurd hi (Nat.not_lt_zero i)

/-- The circle does not see how often `start` went around it. -/
theorem holds_congr {start' : Nat} (h : start % n = start' % n) :
    Holds mem n start xs ↔ Holds mem n start' xs := by
  have hMod (i : Nat) : (start + i) % n = (start' + i) % n := Nat.ModEq.add_right i h
  simp only [Holds, hMod]

theorem holds_cons :
    Holds mem n start (x :: xs) ↔ mem (start % n) = x ∧ Holds mem n (start + 1) xs := by
  constructor
  · intro h
    refine ⟨h 0 (Nat.succ_pos _), ?_⟩
    intro i hi
    have hCell : start + 1 + i = start + (i + 1) := by omega
    rw [hCell]
    exact h (i + 1) (Nat.succ_lt_succ hi)
  · rintro ⟨hHead, hTail⟩ i hi
    cases i with
    | zero => exact hHead
    | succ i =>
      have hCell : start + (i + 1) = start + 1 + i := by omega
      rw [hCell]
      exact hTail i (Nat.lt_of_succ_lt_succ hi)

theorem holds_append :
    Holds mem n start (xs ++ ys) ↔ Holds mem n start xs ∧ Holds mem n (start + xs.length) ys := by
  induction xs generalizing start with
  | nil => simp
  | cons x xs ih =>
    rw [List.cons_append, holds_cons, holds_cons, ih, List.length_cons, and_assoc,
      Nat.add_assoc, Nat.add_comm 1]

theorem store_of_mem {p j : Nat} (hj : p ≤ j) (hlt : j - p < xs.length) :
    store mem p xs j = xs[j - p] := dif_pos ⟨hj, hlt⟩

theorem store_of_not_mem {p j : Nat} (h : ¬ (p ≤ j ∧ j - p < xs.length)) :
    store mem p xs j = mem j := dif_neg h

/-- A block stored behind what is held extends it, as long as it meets neither the end
of the memory nor the first cell held. -/
theorem holds_store {p : Nat} (h : Holds mem n start xs) (hp : p = (start + xs.length) % n)
    (hEnd : p + ys.length ≤ n) (hRoom : xs.length + ys.length ≤ n) :
    Holds (store mem p ys) n start (xs ++ ys) := by
  rw [holds_append]
  constructor
  · intro i hi
    rw [← h i hi]
    apply store_of_not_mem
    rintro ⟨hLe, hLt⟩
    -- the cell would be held twice, once as number `i` and once as number `xs.length + d`
    obtain ⟨d, hd⟩ := Nat.exists_eq_add_of_le hLe
    have hMod : (start + i) % n = (start + (xs.length + d)) % n := by
      have hSmall : (start + i) % n < n := Nat.mod_lt _ (by omega)
      rw [← Nat.mod_eq_of_lt hSmall, hd, hp, Nat.mod_add_mod, Nat.add_assoc]
    have hCancel : i % n = (xs.length + d) % n := Nat.ModEq.add_left_cancel' start hMod
    rw [Nat.mod_eq_of_lt (by omega), Nat.mod_eq_of_lt (by omega)] at hCancel
    omega
  · intro i hi
    have hCell : (start + xs.length + i) % n = p + i := by
      rw [← Nat.mod_add_mod, ← hp, Nat.mod_eq_of_lt (by omega)]
    rw [hCell, store_of_mem (Nat.le_add_right ..) (by omega)]
    congr 1
    omega

/-- A block that meets the end of the memory goes on at cell 0. -/
theorem holds_store_wrap {p : Nat} (hn : 0 < n) (h : Holds mem n start xs)
    (hp : p = (start + xs.length) % n) (hWrap : n < p + ys.length)
    (hRoom : xs.length + ys.length ≤ n) :
    Holds (store (store mem p (ys.take (n - p))) 0 (ys.drop (n - p))) n start (xs ++ ys) := by
  have hp' : p < n := by
    rw [hp]
    exact Nat.mod_lt _ hn
  have hTake : (ys.take (n - p)).length = n - p := by
    rw [List.length_take]
    omega
  have hFirst : Holds (store mem p (ys.take (n - p))) n start (xs ++ ys.take (n - p)) :=
    holds_store h hp (by omega) (by omega)
  have hZero : 0 = (start + (xs ++ ys.take (n - p)).length) % n := by
    rw [List.length_append, hTake, ← Nat.add_assoc, ← Nat.mod_add_mod, ← hp,
      Nat.add_sub_cancel' (Nat.le_of_lt hp'), Nat.mod_self]
  have hBoth : Holds (store (store mem p (ys.take (n - p))) 0 (ys.drop (n - p))) n start
      ((xs ++ ys.take (n - p)) ++ ys.drop (n - p)) := by
    refine holds_store hFirst hZero ?_ ?_
    · rw [List.length_drop]
      omega
    · rw [List.length_append, hTake, List.length_drop]
      omega
  rwa [List.append_assoc, List.take_append_drop] at hBoth

/-- The bytes of `memcpy(dst, mem + p, k)`. -/
def load (mem : Nat → α) (p k : Nat) : List α :=
  (List.range k).map fun i => mem (p + i)

@[simp] theorem length_load (p k : Nat) : (load mem p k).length = k := by
  simp [load]

theorem load_eq_of_holds {k : Nat} (h : Holds mem n start xs) (hEnd : start + k ≤ n)
    (hk : k ≤ xs.length) : load mem start k = xs.take k := by
  apply List.ext_getElem
  · rw [length_load, List.length_take]
    omega
  · intro i hi hi'
    rw [length_load] at hi
    rw [List.getElem_take, ← h i (by omega), Nat.mod_eq_of_lt (by omega)]
    simp [load]

/-- Up to the end of the memory, then from cell 0. -/
theorem load_wrap_of_holds {k : Nat} (h : Holds mem n start xs) (hStart : start < n)
    (hWrap : n < start + k) (hk : k ≤ xs.length) (hLen : xs.length ≤ n) :
    load mem start (n - start) ++ load mem 0 (k - (n - start)) = xs.take k := by
  have hSplit : Holds mem n start (xs.take (n - start) ++ xs.drop (n - start)) := by
    rwa [List.take_append_drop]
  have hTake : (xs.take (n - start)).length = n - start := by
    rw [List.length_take]
    omega
  have hSecond : Holds mem n 0 (xs.drop (n - start)) := by
    refine (holds_congr ?_).mp (holds_append.mp hSplit).2
    rw [hTake, Nat.add_sub_cancel' (Nat.le_of_lt hStart), Nat.mod_self, Nat.zero_mod]
  rw [load_eq_of_holds h (by omega) (by omega),
    load_eq_of_holds hSecond (by omega) (by rw [List.length_drop]; omega)]
  have hk' : k = n - start + (k - (n - start)) := by omega
  conv_rhs => rw [hk', List.take_add]

/-- Dropping what was read moves the start. -/
theorem Holds.drop (h : Holds mem n start xs) {k : Nat} (hk : k ≤ xs.length) :
    Holds mem n (start + k) (xs.drop k) := by
  rw [← List.take_append_drop k xs, holds_append, List.length_take, Nat.min_eq_left hk] at h
  exact h.2

/-- The two halves of the circle copied one after the other to a memory of `m` cells. -/
def straighten (mem fresh : Nat → α) (n start : Nat) : Nat → α := fun i =>
  if i < n - start then mem (start + i)
  else if i < n then mem (i - (n - start))
  else fresh i

theorem holds_straighten {fresh : Nat → α} {m : Nat} (h : Holds mem n start xs)
    (hStart : start < n) (hLen : xs.length ≤ n) (hBig : n ≤ m) :
    Holds (straighten mem fresh n start) m 0 xs := by
  intro i hi
  rw [← h i hi, Nat.zero_add, Nat.mod_eq_of_lt (by omega), straighten]
  split_ifs with hFirst hSecond
  · rw [Nat.mod_eq_of_lt (by omega)]
  · have hWrap : start + i = (i - (n - start)) + n := by omega
    rw [hWrap, Nat.add_mod_right, Nat.mod_eq_of_lt (by omega)]
  · omega

end TcfAgent.Lib.Ring
