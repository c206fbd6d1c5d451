import TcfAgent.Services.ExpressionOperators

/-!
# Comparisons

`relational_expression` and `equality_expression` for whole numbers and pointers. The first converts
both operands to unsigned numbers where one of them is CARDINAL and to signed ones otherwise, the
second always to signed ones.

Main results

* `relationalValue_eq`   — which numbers the relational operators compare
* `test_compared`        — every operator compares two keys, by one order
* `comparisons_consistent_iff` — where this is the order of the numbers and of the addresses
-/

namespace TcfAgent.Expressions

/-! ## Operands -/

inductive OperandClass where
  | integer | cardinal | pointer
deriving DecidableEq, Repr

/-- A value of class INTEGER, CARDINAL or POINTER: its bytes, in the byte order of the host, are a
number. -/
structure Operand where
  typeClass : OperandClass
  size      : Size
  bits      : Nat
  small     : bits < 2 ^ size.bits
deriving DecidableEq

/-- `to_int`, where `to_int_fixed_point` reads a pointer as an unsigned number. -/
def Operand.toInt (v : Operand) : Int :=
  match v.typeClass with
  | .pointer | .cardinal => Int.bmod v.bits (2 ^ 64)
  | .integer => Int.bmod v.bits (2 ^ v.size.bits)

/-- `to_uns` -/
def Operand.toUns (v : Operand) : Nat :=
  match v.typeClass with
  | .pointer | .cardinal => v.bits
  | .integer => (Int.bmod v.bits (2 ^ v.size.bits) % 2 ^ 64).toNat

def Operand.isCardinal (v : Operand) : Bool := v.typeClass = .cardinal

/-- `relational_expression` -/
def relationalValue (sy : Sy) (v x : Operand) : Bool :=
  if v.isCardinal || x.isCardinal then compare sy v.toUns x.toUns else compare sy v.toInt x.toInt

/-- `equality_expression` -/
def equalityValue (sy : Sy) (v x : Operand) : Bool :=
  let value : Bool := v.toInt = x.toInt
  if sy = .neq then !value else value

/-- What an operator that compares gives. -/
def BinOp.test (op : BinOp) (v x : Operand) : Bool :=
  if op.level = 4 then equalityValue op.sy v x else relationalValue op.sy v x

/-! ## What comparisons should give -/

/-- The signed number of an INTEGER. -/
def Operand.signed (v : Operand) : Int := Int.bmod v.bits (2 ^ v.size.bits)

/-- The number as `uint64_t`: that of a CARDINAL or a POINTER is the number itself. -/
def Operand.unsigned (v : Operand) : Int :=
  if v.typeClass = .integer then v.signed % 2 ^ 64 else v.bits

/-- `<` and `==` are those of the keys. -/
def OrderedBy (key : Operand → Int) (v x : Operand) : Prop :=
  BinOp.lt.test v x = decide (key v < key x) ∧ BinOp.eq.test v x = decide (key v = key x)

/-- One consistent order, which is the one of the numbers and of the addresses. -/
structure Consistent (v x : Operand) : Prop where
  one      : [BinOp.lt.test v x, BinOp.eq.test v x, BinOp.gt.test v x].count true = 1
  le       : BinOp.le.test v x = !BinOp.gt.test v x
  ne       : BinOp.ne.test v x = !BinOp.eq.test v x
  swap     : BinOp.lt.test v x = BinOp.gt.test x v
  integer  : v.typeClass = .integer → x.typeClass = .integer → OrderedBy Operand.signed v x
  pointer  : v.typeClass = .pointer → x.typeClass = .pointer → OrderedBy Operand.unsigned v x
  cardinal : v.typeClass = .cardinal ∨ x.typeClass = .cardinal → OrderedBy Operand.unsigned v x

/-- Two addresses in different halves of the address space. -/
def Apart64 (v x : Operand) : Prop :=
  v.typeClass = .pointer ∧ x.typeClass = .pointer ∧ (v.bits < 2 ^ 63 ↔ ¬ x.bits < 2 ^ 63)

/-! ## The order -/

section

variable {v x : Operand} {k l : Int}

theorem Operand.lt (v : Operand) : v.bits < 2 ^ 64 :=
  Nat.lt_of_lt_of_le v.small (Nat.pow_le_pow_right (by decide) (bits_le v.size))

theorem Operand.signed_bounds (v : Operand) : -2 ^ 63 ≤ v.signed ∧ v.signed < 2 ^ 63 := by
  have hSmall := v.small
  unfold Operand.signed
  cases hSize : v.size
  all_goals
    rw [hSize] at hSmall
    simp only [Size.bits] at hSmall ⊢
    rw [Int.bmod_def]
    omega

/-- Signed and unsigned, a number is the same modulo 2^64. -/
theorem Operand.toInt_eq (v : Operand) : v.toInt = Int.bmod v.unsigned (2 ^ 64) := by
  unfold Operand.toInt Operand.unsigned
  cases hClass : v.typeClass with
  | pointer => rfl
  | cardinal => rfl
  | integer =>
    have hBounds := v.signed_bounds
    rw [if_pos rfl]
    show v.signed = _
    rw [Int.bmod_def]
    omega

theorem Operand.toUns_eq (v : Operand) : (v.toUns : Int) = v.unsigned := by
  unfold Operand.toUns Operand.unsigned
  cases v.typeClass with
  | pointer => rfl
  | cardinal => rfl
  | integer => exact Int.toNat_of_nonneg (Int.emod_nonneg _ (by decide))

theorem Operand.unsigned_bounds (v : Operand) : 0 ≤ v.unsigned ∧ v.unsigned < 2 ^ 64 := by
  have hLt := v.lt
  unfold Operand.unsigned
  split
  · omega
  · omega

theorem Operand.toInt_inj : v.toInt = x.toInt ↔ v.unsigned = x.unsigned := by
  have hv := v.unsigned_bounds
  have hx := x.unsigned_bounds
  rw [v.toInt_eq, x.toInt_eq, Int.bmod_def, Int.bmod_def]
  omega

/-- The number by which the operators compare an operand of these two. -/
def comparedBy (v x : Operand) : Operand → Int :=
  if v.isCardinal || x.isCardinal then Operand.unsigned else Operand.toInt

theorem comparedBy_comm (v x : Operand) : comparedBy v x = comparedBy x v := by
  unfold comparedBy
  rw [Bool.or_comm]

theorem relationalValue_eq (sy : Sy) (v x : Operand) :
    relationalValue sy v x = compare sy (comparedBy v x v) (comparedBy v x x) := by
  unfold relationalValue comparedBy
  split
  · rw [v.toUns_eq, x.toUns_eq]
  · rfl

theorem equal_iff (v x : Operand) : v.toInt = x.toInt ↔ comparedBy v x v = comparedBy v x x := by
  unfold comparedBy
  split
  · exact Operand.toInt_inj
  · rfl

/-- Every operator compares the keys. -/
theorem test_compared (v x : Operand) :
    BinOp.lt.test v x = decide (comparedBy v x v < comparedBy v x x) ∧
    BinOp.gt.test v x = decide (comparedBy v x x < comparedBy v x v) ∧
    BinOp.le.test v x = decide (comparedBy v x v ≤ comparedBy v x x) ∧
    BinOp.eq.test v x = decide (comparedBy v x v = comparedBy v x x) ∧
    BinOp.ne.test v x = !decide (comparedBy v x v = comparedBy v x x) :=
  ⟨relationalValue_eq _ v x, relationalValue_eq _ v x, relationalValue_eq _ v x,
    decide_eq_decide.2 (equal_iff v x), congrArg not (decide_eq_decide.2 (equal_iff v x))⟩

theorem orderedBy_iff {key : Operand → Int} :
    OrderedBy key v x ↔ (comparedBy v x v < comparedBy v x x ↔ key v < key x) ∧
      (comparedBy v x v = comparedBy v x x ↔ key v = key x) := by
  obtain ⟨hLt, -, -, hEq, -⟩ := test_compared v x
  unfold OrderedBy
  rw [hLt, hEq, decide_eq_decide, decide_eq_decide]

/-- Of three relations between two numbers one holds. -/
theorem count_trichotomy (k l : Int) :
    [decide (k < l), decide (k = l), decide (l < k)].count true = 1 := by
  rcases Int.lt_trichotomy k l with h | h | h
  · rw [decide_eq_true h, decide_eq_false (by omega), decide_eq_false (by omega)]
    rfl
  · rw [decide_eq_false (by omega), decide_eq_true h, decide_eq_false (by omega)]
    rfl
  · rw [decide_eq_false (by omega), decide_eq_false (by omega), decide_eq_true h]
    rfl

end

/-! ## Consistency -/

theorem pointer_orderedBy {v x : Operand} (hv : v.typeClass = .pointer)
    (hx : x.typeClass = .pointer) :
    OrderedBy Operand.unsigned v x ↔ (v.bits < 2 ^ 63 ↔ x.bits < 2 ^ 63) := by
  have hvLt := v.lt
  have hxLt := x.lt
  have hKey : comparedBy v x = Operand.toInt := by
    unfold comparedBy Operand.isCardinal
    rw [hv, hx]
    rfl
  have hUnsigned : ∀ y : Operand, y.typeClass = .pointer → y.unsigned = y.bits := by
    intro y hy
    unfold Operand.unsigned
    rw [hy]
    rfl
  rw [orderedBy_iff, hKey, v.toInt_eq, x.toInt_eq, hUnsigned v hv, hUnsigned x hx, Int.bmod_def,
    Int.bmod_def]
  omega

/-- The comparisons are one order, but that of addresses is not the one of unsigned numbers across
the middle of the address space. -/
theorem comparisons_consistent_iff (v x : Operand) : Consistent v x ↔ ¬ Apart64 v x := by
  obtain ⟨hLt, hGt, hLe, hEq, hNe⟩ := test_compared v x
  constructor
  · rintro ⟨-, -, -, -, -, hPointer, -⟩ ⟨hv, hx, hApart⟩
    have hSame := (pointer_orderedBy hv hx).1 (hPointer hv hx)
    rw [hSame] at hApart
    exact not_iff_self hApart.symm
  · intro hNear
    refine ⟨?_, ?_, ?_, ?_, ?_, ?_, ?_⟩
    · rw [hLt, hEq, hGt]
      exact count_trichotomy _ _
    · rw [hLe, hGt, ← decide_not, decide_eq_decide]
      exact Int.not_lt.symm
    · rw [hNe, hEq]
    · rw [hLt, (test_compared x v).2.1, comparedBy_comm]
    · intro hv hx
      rw [orderedBy_iff]
      have hKey : comparedBy v x = Operand.toInt := by
        unfold comparedBy Operand.isCardinal
        rw [hv, hx]
        rfl
      have hSigned : ∀ y : Operand, y.typeClass = .integer → y.toInt = y.signed := by
        intro y hy
        unfold Operand.toInt
        rw [hy]
        rfl
      rw [hKey, hSigned v hv, hSigned x hx]
      exact ⟨Iff.rfl, Iff.rfl⟩
    · intro hv hx
      rw [pointer_orderedBy hv hx]
      by_contra hDiffer
      exact hNear ⟨hv, hx, by tauto⟩
    · intro hEither
      rw [orderedBy_iff]
      have hKey : comparedBy v x = Operand.unsigned := by
        unfold comparedBy Operand.isCardinal
        rcases hEither with h | h
        · rw [h]
          rfl
        · rw [h, Bool.or_comm]
          rfl
      rw [hKey]
      exact ⟨Iff.rfl, Iff.rfl⟩

/-- An address in the upper half is less than one in the lower half. -/
theorem not_comparisons_consistent : ¬ ∀ v x : Operand, Consistent v x := by
  intro hAll
  have hHigh : (2 ^ 63 : Nat) < 2 ^ Size.s8.bits := by decide
  have hLow : (0 : Nat) < 2 ^ Size.s8.bits := by decide
  have hApart : Apart64 ⟨.pointer, .s8, 2 ^ 63, hHigh⟩ ⟨.pointer, .s8, 0, hLow⟩ :=
    ⟨rfl, rfl, iff_of_false (Nat.lt_irrefl _) (not_not_intro (Nat.two_pow_pos 63))⟩
  exact (comparisons_consistent_iff _ _).1 (hAll _ _) hApart

end TcfAgent.Expressions
