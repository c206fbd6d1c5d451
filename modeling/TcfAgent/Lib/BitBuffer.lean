import Mathlib.Tactic

/-!
# Bits in a buffer

The bits of a sequence of bytes in order, when either the highest or the lowest bit of a byte is
its first one.

Main results:

* `bitAt_putAt`      — a bit that is put is read back, and the others are as they were;
* `bytes_ext`        — bytes with the same bits are the same.
-/

namespace TcfAgent.Lib

/-- Where the bit stands in its byte. -/
def bitNumber (big : Bool) (i : Nat) : Nat := if big then 7 - i % 8 else i % 8

/-- A byte with this bit only. -/
def bitMask (n : Nat) : UInt8 := ⟨BitVec.twoPow 8 n⟩

/-- The bit; behind the end there are none. -/
def bitAt (big : Bool) (bytes : List UInt8) (i : Nat) : Bool :=
  (bytes.getD (i / 8) 0).toBitVec.getLsbD (bitNumber big i)

def withBit (n : Nat) (v : Bool) (b : UInt8) : UInt8 :=
  if v then b ||| bitMask n else b &&& ~~~bitMask n

def putAt (big : Bool) (bytes : List UInt8) (i : Nat) (v : Bool) : List UInt8 :=
  bytes.modify (i / 8) (withBit (bitNumber big i) v)

section

variable {big : Bool} {bytes bytes' : List UInt8} {i j n m : Nat} {v : Bool} {b : UInt8}

theorem bitNumber_lt (big : Bool) (i : Nat) : bitNumber big i < 8 := by
  unfold bitNumber
  split <;> omega

theorem bitNumber_inj (hByte : i / 8 = j / 8) (h : bitNumber big i = bitNumber big j) : i = j := by
  unfold bitNumber at h
  split at h <;> omega

theorem getLsbD_withBit (hn : n < 8) :
    (withBit n v b).toBitVec.getLsbD m = if m = n then v else b.toBitVec.getLsbD m := by
  unfold withBit bitMask
  cases v with
  | true =>
    simp only [if_true, UInt8.toBitVec_or, BitVec.getLsbD_or, BitVec.getLsbD_twoPow]
    by_cases hEq : m = n
    · simp [hEq, hn]
    · simp [hEq, Ne.symm hEq]
  | false =>
    simp only [Bool.false_eq_true, if_false, UInt8.toBitVec_and, UInt8.toBitVec_not,
      BitVec.getLsbD_and, BitVec.getLsbD_not, BitVec.getLsbD_twoPow]
    by_cases hEq : m = n
    · simp [hEq, hn]
    · by_cases hm : m < 8
      · simp [hEq, Ne.symm hEq, hm]
      · simp [hEq, BitVec.getLsbD_of_ge _ _ (Nat.le_of_not_lt hm)]

@[simp] theorem length_putAt : (putAt big bytes i v).length = bytes.length :=
  List.length_modify _ _ _

theorem getD_putAt (h : i / 8 < bytes.length) :
    (putAt big bytes i v).getD (j / 8) 0 =
      if i / 8 = j / 8 then withBit (bitNumber big i) v (bytes.getD (j / 8) 0)
      else bytes.getD (j / 8) 0 := by
  unfold putAt
  rw [List.getD_eq_getElem?_getD, List.getD_eq_getElem?_getD, List.getElem?_modify]
  by_cases hEq : i / 8 = j / 8
  · rw [hEq] at h ⊢
    simp [List.getElem?_eq_getElem h]
  · simp [hEq]

/-- A bit that is put is read back, and the others are as they were. -/
theorem bitAt_putAt (h : i / 8 < bytes.length) :
    bitAt big (putAt big bytes i v) j = if j = i then v else bitAt big bytes j := by
  unfold bitAt
  rw [getD_putAt h]
  by_cases hByte : i / 8 = j / 8
  · rw [if_pos hByte, getLsbD_withBit (bitNumber_lt big i)]
    by_cases hEq : j = i
    · rw [if_pos (by rw [hEq]), if_pos hEq]
    · rw [if_neg fun hNumber => hEq (bitNumber_inj hByte.symm hNumber), if_neg hEq]
  · rw [if_neg hByte, if_neg fun hEq => hByte (by rw [hEq])]

theorem bitAt_of_ge (h : bytes.length ≤ i / 8) : bitAt big bytes i = false := by
  unfold bitAt
  rw [List.getD_eq_getElem?_getD, List.getElem?_eq_none h]
  simp

@[simp] theorem bitAt_replicate (k : Nat) : bitAt big (List.replicate k 0) i = false := by
  unfold bitAt
  rw [List.getD_eq_getElem?_getD, List.getElem?_replicate]
  split <;> simp

/-- The bit with this number in this byte. -/
theorem exists_bitNumber (big : Bool) (k : Nat) (hn : n < 8) :
    ∃ i, i / 8 = k ∧ bitNumber big i = n := by
  cases big with
  | true => exact ⟨8 * k + (7 - n), by omega, by simp only [bitNumber, if_true]; omega⟩
  | false =>
    exact ⟨8 * k + n, by omega, by simp only [bitNumber, Bool.false_eq_true, if_false]; omega⟩

/-- Bytes with the same bits are the same. -/
theorem bytes_ext (hLength : bytes.length = bytes'.length)
    (h : ∀ i, bitAt big bytes i = bitAt big bytes' i) : bytes = bytes' := by
  refine List.ext_getElem hLength fun k hk hk' => ?_
  refine UInt8.toBitVec_inj.1 (BitVec.eq_of_getLsbD_eq fun n hn => ?_)
  obtain ⟨i, rfl, rfl⟩ := exists_bitNumber big k hn
  have hBit := h i
  simpa only [bitAt, List.getD_eq_getElem?_getD, List.getElem?_eq_getElem hk,
    List.getElem?_eq_getElem hk', Option.getD_some] using hBit

end

end TcfAgent.Lib
