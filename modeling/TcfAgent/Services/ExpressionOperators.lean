import TcfAgent.Services.ExpressionTrees
import TcfAgent.Lib.Bits

/-!
# Operators on whole numbers

What the operators on operands of class INTEGER and CARDINAL should give, by the numbers that the
operands stand for. An operation that C leaves undefined gives no value, and no message of the
evaluator either.

Main results

* `hidesSign_iff`       — when bits that are missing from a sign do not matter;
* `operator_meets_iff`  — which operands each operator is right for.
-/

namespace TcfAgent.Expressions

open TcfAgent.Lib

/-! ## Numbers -/

/-- The number that the bits of a value stand for. -/
def Value.number (v : Value) : Int :=
  if isCardinal v then v.bits else Int.bmod v.bits (2 ^ v.size.bits)

/-- A value of class INTEGER or CARDINAL. -/
structure Value.Whole (v : Value) : Prop where
  plain : v.typeClass ≠ .enumeration
  small : v.bits < 2 ^ v.size.bits

/-- The left operand has the class of a shift; a CARDINAL operand makes any other result one. -/
def resultClass (op : BinOp) (v x : Value) : TypeClass :=
  if isCardinal v || (op.level ≠ 2 && isCardinal x) then .cardinal else .integer

/-- The operand, as an unsigned or a signed number of 64 bits. -/
def Value.wide (v : Value) (typeClass : TypeClass) : Int :=
  if typeClass = .cardinal then v.number % 2 ^ 64 else v.number

def shifted (a count : Int) : Int :=
  if 0 ≤ count then a * 2 ^ count.toNat else a / 2 ^ (-count).toNat

/-- An operation on the bits of two numbers. -/
def onBits (f : Nat → Nat → Nat) (a b : Int) : Int := f (a % 2 ^ 64).toNat (b % 2 ^ 64).toNat

/-- The result of an operator; a division by zero has none. -/
def BinOp.meaning (op : BinOp) (a b : Int) : Option Int :=
  match op with
  | .mul => some (a * b)
  | .div => if b = 0 then none else some (Int.tdiv a b)
  | .rem => if b = 0 then none else some (Int.tmod a b)
  | .add => some (a + b)
  | .sub => some (a - b)
  | .shl => some (shifted a b)
  | .shr => some (shifted a (-b))
  | .band => some (onBits (· &&& ·) a b)
  | .bxor => some (onBits (· ^^^ ·) a b)
  | .bor => some (onBits (· ||| ·) a b)
  | _ => none

/-- The value is the number, as far as it fits. -/
structure Value.Is (w : Value) (c : TypeClass) (s : Size) (n : Int) : Prop where
  typeClass : w.typeClass = c
  size      : w.size = s
  bits      : (w.bits : Int) = n % 2 ^ s.bits

/-! ## Operations -/

/-- The operators that take whole numbers and give one. -/
def BinOp.IsArithmetic (op : BinOp) : Prop := op.level ≤ 2 ∨ 5 ≤ op.level ∧ op.level ≤ 7

/-- An operator with the values of its operands. -/
inductive Operation where
  | binary (op : BinOp) (v x : Value)
  | minus (v : Value)
  | complement (v : Value)

def Operation.Valid : Operation → Prop
  | .binary op v x => op.IsArithmetic ∧ v.Whole ∧ x.Whole
  | .minus v | .complement v => v.Whole

def Operation.run (env : Env) : Operation → Except Message Value
  | .binary op v x => op.apply env v x
  | .minus v => .ok (UnOp.minus.apply env v)
  | .complement v => .ok (UnOp.complement.apply env v)

/-- The result is the one of the numbers. -/
def Operation.Meets (r : Except Message Value) : Operation → Prop
  | .binary op v x =>
    let typeClass := resultClass op v x
    let count := if op.level = 2 then x.number else x.wide typeClass
    match op.meaning (v.wide typeClass) count with
    | none => r = .error .dividingByZero
    | some n => ∃ w, r = .ok w ∧ w.Is typeClass .s8 n
  | .minus v => ∃ w, r = .ok w ∧ w.Is v.typeClass v.size (-v.number)
  | .complement v => ∃ w, r = .ok w ∧ w.Is v.typeClass v.size (-v.number - 1)

/-- What the bits of the other operand are where the sign of a smaller one would be. -/
def BinOp.HidesSign (op : BinOp) (size : Size) (bits : Nat) : Prop :=
  size = .s8 ∨ op = .band ∧ bits < 2 ^ size.bits ∨ op = .bor ∧ 2 ^ 64 - 2 ^ size.bits ≤ bits

/-- The operands that the operator is right for. -/
def Operation.Defined : Operation → Prop
  | .binary op v x =>
    match op with
    | .div | .rem =>
      ¬ (isCardinal v = false ∧ isCardinal x = false ∧ v.number = -2 ^ 63 ∧ x.number = -1)
    | .shl | .shr => -63 ≤ x.number ∧ x.number ≤ 63
    | .band | .bxor | .bor =>
      isCardinal v = false → isCardinal x = true → v.number < 0 → op.HidesSign v.size x.bits
    | _ => True
  | .minus v => isCardinal v = true → 2 * v.bits % 2 ^ v.size.bits = 0
  | .complement _ => True

/-! ## Conversions -/

section

variable {v x w : Value} {c : TypeClass} {size : Size} {n m : Int}

theorem bits_le (size : Size) : size.bits ≤ 64 := by
  cases size
  all_goals decide

theorem Value.Whole.lt (h : v.Whole) : v.bits < 2 ^ 64 :=
  Nat.lt_of_lt_of_le h.small (Nat.pow_le_pow_right (by decide) (bits_le v.size))

theorem number_cardinal (h : isCardinal v = true) : v.number = v.bits := by
  unfold Value.number
  rw [if_pos h]

theorem number_integer (h : isCardinal v = false) :
    v.number = Int.bmod v.bits (2 ^ v.size.bits) := by
  unfold Value.number
  rw [if_neg (by rw [h]; exact Bool.false_ne_true)]

/-- A signed number is the bits, or negative with the same bits. -/
theorem number_cases (hv : v.Whole) (h : isCardinal v = false) :
    v.number = v.bits ∧ 2 * v.bits < 2 ^ v.size.bits ∨
      v.number = (v.bits : Int) - 2 ^ v.size.bits ∧ 2 ^ v.size.bits ≤ 2 * v.bits := by
  have hSmall := hv.small
  rw [number_integer h]
  cases hSize : v.size
  all_goals
    rw [hSize] at hSmall
    simp only [Size.bits] at hSmall ⊢
    rw [Int.bmod_def]
    omega

theorem number_bounds (hv : v.Whole) (h : isCardinal v = false) :
    -2 ^ 63 ≤ v.number ∧ v.number < 2 ^ 63 := by
  have hSmall := hv.small
  have hCases := number_cases hv h
  cases hSize : v.size
  all_goals
    rw [hSize] at hSmall hCases
    simp only [Size.bits] at hSmall hCases
    omega

theorem toInt_integer (h : isCardinal v = false) : toInt .normal v = v.number := by
  rw [number_integer h]
  unfold toInt
  rw [if_neg (not_not_intro rfl)]
  cases hClass : v.typeClass with
  | cardinal =>
    unfold isCardinal at h
    rw [hClass] at h
    cases h
  | integer => rfl
  | enumeration => rfl

theorem toInt_cardinal (h : isCardinal v = true) : toInt .normal v = Int.bmod v.bits (2 ^ 64) := by
  have hClass : v.typeClass = .cardinal := of_decide_eq_true h
  unfold toInt
  rw [if_neg (not_not_intro rfl), hClass]

theorem toUns_cardinal (h : isCardinal v = true) : toUns .normal v = v.bits := by
  have hClass : v.typeClass = .cardinal := of_decide_eq_true h
  unfold toUns
  rw [if_neg (not_not_intro rfl), hClass]

theorem toUns_integer (h : isCardinal v = false) :
    toUns .normal v = (v.number % 2 ^ 64).toNat := by
  rw [number_integer h]
  unfold toUns
  rw [if_neg (not_not_intro rfl)]
  cases hClass : v.typeClass with
  | cardinal =>
    unfold isCardinal at h
    rw [hClass] at h
    cases h
  | integer => rfl
  | enumeration => rfl

theorem toUns_eq (hv : v.Whole) : (toUns .normal v : Int) = v.number % 2 ^ 64 := by
  cases h : isCardinal v with
  | true =>
    have hLt := hv.lt
    rw [toUns_cardinal h, number_cardinal h, Int.emod_eq_of_lt (by omega) (by omega)]
  | false =>
    rw [toUns_integer h]
    exact Int.toNat_of_nonneg (Int.emod_nonneg _ (by decide))

theorem toUns_lt (hv : v.Whole) : toUns .normal v < 2 ^ 64 := by
  have hEq := toUns_eq hv
  omega

theorem wide_cardinal (hv : v.Whole) : v.wide .cardinal = toUns .normal v := by
  rw [toUns_eq hv]
  exact if_pos rfl

theorem wide_integer (h : isCardinal v = false) : v.wide .integer = toInt .normal v := by
  rw [toInt_integer h]
  exact if_neg (by decide)

theorem setInt_is (v : Value) (size : Size) (n : Int) :
    (v.setInt size n).Is v.typeClass size n := by
  have hPos : (0 : Int) < 2 ^ size.bits := Int.pow_pos (by decide)
  exact ⟨rfl, rfl, Int.toNat_of_nonneg (Int.emod_nonneg _ (Int.ne_of_gt hPos))⟩

theorem setResult_is (v x : Value) (c : TypeClass) (n : Int) : (setResult v x c n).Is c .s8 n := by
  obtain ⟨-, hSize, hBits⟩ := setInt_is v .s8 n
  exact ⟨rfl, hSize, hBits⟩

theorem Value.Is.congr (h : w.Is c size n) (hSame : n % 2 ^ size.bits = m % 2 ^ size.bits) :
    w.Is c size m :=
  ⟨h.typeClass, h.size, h.bits.trans hSame⟩

theorem Value.Is.inj (h : w.Is c size n) (h' : w.Is c size m) :
    n % 2 ^ size.bits = m % 2 ^ size.bits :=
  h.bits.symm.trans h'.bits

/-- A result is the one that was meant where it is the same number. -/
theorem setResult_iff :
    (∃ w, Except.ok (setResult v x c n) = (.ok w : Except Message Value) ∧ w.Is c .s8 m) ↔
      n % 2 ^ 64 = m % 2 ^ 64 := by
  constructor
  · rintro ⟨w, hEq, hIs⟩
    cases hEq
    exact (setResult_is v x c n).inj hIs
  · intro hSame
    exact ⟨_, rfl, (setResult_is v x c n).congr hSame⟩

end

/-! ## Operators -/

section

variable {v x : Value} {op : BinOp}

theorem cardinal_class (hOp : op.level ≠ 2) (h : (isCardinal v || isCardinal x) = true) :
    resultClass op v x = .cardinal := by
  unfold resultClass
  rw [decide_eq_true hOp, Bool.true_and]
  exact if_pos h

theorem integer_class (h : (isCardinal v || isCardinal x) = false) :
    resultClass op v x = .integer ∧ isCardinal v = false ∧ isCardinal x = false := by
  obtain ⟨hv, hx⟩ := Bool.or_eq_false_iff.1 h
  refine ⟨?_, hv, hx⟩
  unfold resultClass
  rw [hv, hx, Bool.and_false]
  rfl

/-- The two ways in which an operator converts its operands. -/
theorem wide_operands (hv : v.Whole) (hx : x.Whole) (hOp : op.level ≠ 2) :
    ((isCardinal v || isCardinal x) = true ∧ resultClass op v x = .cardinal ∧
      v.wide .cardinal = toUns .normal v ∧ x.wide .cardinal = toUns .normal x) ∨
    ((isCardinal v || isCardinal x) = false ∧ resultClass op v x = .integer ∧
      v.wide .integer = toInt .normal v ∧ x.wide .integer = toInt .normal x) := by
  cases h : isCardinal v || isCardinal x with
  | true => exact .inl ⟨rfl, cardinal_class hOp h, wide_cardinal hv, wide_cardinal hx⟩
  | false =>
    obtain ⟨hClass, hvInt, hxInt⟩ := @integer_class v x op h
    exact .inr ⟨rfl, hClass, wide_integer hvInt, wide_integer hxInt⟩

variable (env : Env)

theorem meets_add (hv : v.Whole) (hx : x.Whole) :
    (Operation.binary .add v x).Meets ((Operation.binary .add v x).run env) := by
  show ∃ w, opAdditive .normal (.char 43) v x = .ok w ∧
    w.Is (resultClass .add v x) .s8 (v.wide (resultClass .add v x) + x.wide (resultClass .add v x))
  unfold opAdditive
  rcases @wide_operands v x .add hv hx (by decide) with ⟨h, hClass, hWide⟩ | ⟨h, hClass, hWide⟩
  · rw [hClass, hWide.1, hWide.2, if_pos h]
    exact setResult_iff.2 rfl
  · rw [hClass, hWide.1, hWide.2, if_neg (Bool.eq_false_iff.1 h)]
    exact setResult_iff.2 rfl

theorem meets_sub (hv : v.Whole) (hx : x.Whole) :
    (Operation.binary .sub v x).Meets ((Operation.binary .sub v x).run env) := by
  show ∃ w, opAdditive .normal (.char 45) v x = .ok w ∧
    w.Is (resultClass .sub v x) .s8 (v.wide (resultClass .sub v x) - x.wide (resultClass .sub v x))
  unfold opAdditive
  rcases @wide_operands v x .sub hv hx (by decide) with ⟨h, hClass, hWide⟩ | ⟨h, hClass, hWide⟩
  · rw [hClass, hWide.1, hWide.2, if_pos h]
    exact setResult_iff.2 rfl
  · rw [hClass, hWide.1, hWide.2, if_neg (Bool.eq_false_iff.1 h)]
    exact setResult_iff.2 rfl

theorem meets_mul (hv : v.Whole) (hx : x.Whole) :
    (Operation.binary .mul v x).Meets ((Operation.binary .mul v x).run env) := by
  show ∃ w, opMultiplicative .normal (.char 42) v x = .ok w ∧
    w.Is (resultClass .mul v x) .s8 (v.wide (resultClass .mul v x) * x.wide (resultClass .mul v x))
  unfold opMultiplicative
  rcases @wide_operands v x .mul hv hx (by decide) with ⟨h, hClass, hWide⟩ | ⟨h, hClass, hWide⟩
  · rw [hClass, hWide.1, hWide.2, if_pos h]
    exact setResult_iff.2 (by push_cast; rfl)
  · rw [hClass, hWide.1, hWide.2, if_neg (Bool.eq_false_iff.1 h)]
    exact setResult_iff.2 rfl

/-- The quotient and the remainder of the least number and -1 are the ones that C does not define.
-/
def Wraps (v x : Value) : Prop :=
  isCardinal v = false ∧ isCardinal x = false ∧ v.number = -2 ^ 63 ∧ x.number = -1

theorem opMultiplicative_cardinal (sy : Sy)
    (h : (isCardinal v || isCardinal x) = true) :
    opMultiplicative .normal sy v x =
      if sy ≠ .char 42 ∧ toUns .normal x = 0 then .error .dividingByZero
      else .ok (setResult v x .cardinal (if sy = .char 42 then toUns .normal v * toUns .normal x
        else if sy = .char 47 then toUns .normal v / toUns .normal x
        else toUns .normal v % toUns .normal x : Nat)) := by
  unfold opMultiplicative
  rw [if_pos h, if_pos rfl]

theorem opMultiplicative_integer (sy : Sy) (hv : isCardinal v = false)
    (hx : isCardinal x = false) :
    opMultiplicative .normal sy v x =
      if sy ≠ .char 42 ∧ x.number = 0 then .error .dividingByZero
      else if sy ≠ .char 42 ∧ v.number = -2 ^ 63 ∧ x.number = -1 then .error .undefined
      else .ok (setResult v x .integer (if sy = .char 42 then v.number * x.number
        else if sy = .char 47 then Int.tdiv v.number x.number
        else Int.tmod v.number x.number)) := by
  unfold opMultiplicative
  rw [hv, hx, Bool.or_false, if_neg Bool.false_ne_true, if_pos rfl, toInt_integer hv,
    toInt_integer hx]

/-- A quotient or a remainder of unsigned numbers. -/
theorem meets_unsigned {f : Int → Int → Int} {g : Nat → Nat → Nat} (hv : v.Whole) (hx : x.Whole)
    (hOp : op.level ≠ 2) (h : (isCardinal v || isCardinal x) = true)
    (hMeaning : ∀ a b, op.meaning a b = if b = 0 then none else some (f a b))
    (hSame : ∀ a b : Nat, f a b = (g a b : Nat)) :
    (Operation.binary op v x).Meets (if toUns .normal x = 0 then .error .dividingByZero
      else .ok (setResult v x .cardinal (g (toUns .normal v) (toUns .normal x) : Nat))) := by
  unfold Operation.Meets
  dsimp only
  rw [if_neg hOp, cardinal_class hOp h, wide_cardinal hv, wide_cardinal hx, hMeaning]
  by_cases hZero : toUns .normal x = 0
  · rw [if_pos hZero, if_pos (by exact_mod_cast hZero)]
  · rw [if_neg hZero, if_neg (by exact_mod_cast hZero)]
    exact setResult_iff.2 (by rw [hSame])

/-- Of signed ones: the least number and -1 have none. -/
theorem meets_signed {f : Int → Int → Int} (hOp : op.level ≠ 2)
    (hvInt : isCardinal v = false) (hxInt : isCardinal x = false)
    (hMeaning : ∀ a b, op.meaning a b = if b = 0 then none else some (f a b)) :
    (Operation.binary op v x).Meets (if x.number = 0 then .error .dividingByZero
      else if v.number = -2 ^ 63 ∧ x.number = -1 then .error .undefined
      else .ok (setResult v x .integer (f v.number x.number))) ↔ ¬ Wraps v x := by
  have hBoth : (isCardinal v || isCardinal x) = false := by
    rw [hvInt, hxInt]
    rfl
  unfold Operation.Meets
  dsimp only
  rw [if_neg hOp, (@integer_class v x op hBoth).1, wide_integer hvInt, wide_integer hxInt,
    toInt_integer hvInt, toInt_integer hxInt, hMeaning]
  by_cases hZero : x.number = 0
  · rw [if_pos hZero, if_pos hZero]
    refine iff_of_true rfl ?_
    rintro ⟨-, -, -, hOne⟩
    omega
  · rw [if_neg hZero, if_neg hZero]
    by_cases hWraps : v.number = -2 ^ 63 ∧ x.number = -1
    · rw [if_pos hWraps]
      refine iff_of_false ?_ (not_not_intro ⟨hvInt, hxInt, hWraps⟩)
      rintro ⟨w, hEq, -⟩
      cases hEq
    · rw [if_neg hWraps]
      exact iff_of_true (setResult_iff.2 rfl) fun h => hWraps h.2.2

/-- `/` and `%` -/
theorem run_quotient {f : Int → Int → Int} {g : Nat → Nat → Nat} (hv : v.Whole) (hx : x.Whole)
    (hOp : op = .div ∧ f = Int.tdiv ∧ g = (· / ·) ∨ op = .rem ∧ f = Int.tmod ∧ g = (· % ·))
    (hSame : ∀ a b : Nat, f a b = (g a b : Nat)) :
    (Operation.binary op v x).Meets ((Operation.binary op v x).run env) ↔ ¬ Wraps v x := by
  have hLevel : op.level ≠ 2 := by
    rcases hOp with ⟨rfl, -⟩ | ⟨rfl, -⟩ <;> decide
  have hMeaning (a b : Int) : op.meaning a b = if b = 0 then none else some (f a b) := by
    rcases hOp with ⟨rfl, rfl, -⟩ | ⟨rfl, rfl, -⟩ <;> rfl
  have hRun : (Operation.binary op v x).run env = opMultiplicative .normal op.sy v x := by
    rcases hOp with ⟨rfl, -⟩ | ⟨rfl, -⟩ <;> rfl
  rw [hRun]
  cases h : isCardinal v || isCardinal x with
  | true =>
    have hMeets := meets_unsigned hv hx hLevel h hMeaning hSame
    rw [opMultiplicative_cardinal _ h]
    refine iff_of_true ?_ fun hWraps => ?_
    · rcases hOp with ⟨rfl, -, rfl⟩ | ⟨rfl, -, rfl⟩ <;> simpa [BinOp.sy] using hMeets
    · rw [hWraps.1, hWraps.2.1] at h
      cases h
  | false =>
    obtain ⟨-, hvInt, hxInt⟩ := @integer_class v x op h
    have hMeets := meets_signed hLevel hvInt hxInt hMeaning
    rw [opMultiplicative_integer _ hvInt hxInt, ← hMeets]
    rcases hOp with ⟨rfl, rfl, -⟩ | ⟨rfl, rfl, -⟩ <;> simp [BinOp.sy]

theorem shift_small (left : Bool) (a : Int) {n : Int} (hPos : 0 ≤ n) (hn : n ≤ 63) :
    shift left a n = .ok (shifted a (if left then n else -n)) := by
  unfold shift shifted
  rw [if_neg (by omega)]
  cases left with
  | true => rw [if_pos rfl, if_pos rfl, if_pos hPos]
  | false =>
    rw [if_neg Bool.false_ne_true, if_neg Bool.false_ne_true, Int.neg_neg]
    by_cases hZero : n = 0
    · subst hZero
      simp
    · rw [if_neg (by omega)]

/-- The count of a shift, which goes the other way where it is negative. -/
theorem shift_count (left : Bool) (a : Int) (hx : x.Whole) :
    (if ¬ isCardinal x ∧ toInt .normal x < 0 then shift (!left) a (-toInt .normal x)
      else shift left a (toUns .normal x)) =
    if x.number < 0 then shift (!left) a (-x.number) else shift left a x.number := by
  cases hCard : isCardinal x with
  | true =>
    have hNumber : x.number = toUns .normal x := by
      rw [toUns_cardinal hCard, number_cardinal hCard]
    rw [if_neg (by simp), if_neg (by omega), hNumber]
  | false =>
    have hBounds := number_bounds hx hCard
    rw [toInt_integer hCard]
    by_cases hNeg : x.number < 0
    · rw [if_pos hNeg, if_pos ⟨Bool.false_ne_true, hNeg⟩]
    · rw [if_neg hNeg, if_neg fun h => hNeg h.2, toUns_eq hx,
        Int.emod_eq_of_lt (by omega) (by omega)]

theorem run_shift (left : Bool) (hv : v.Whole) (hx : x.Whole) :
    (Operation.binary (if left then .shl else .shr) v x).Meets
      ((Operation.binary (if left then .shl else .shr) v x).run env) ↔
    (-63 ≤ x.number ∧ x.number ≤ 63) := by
  have hClass : ∀ op : BinOp, op.level = 2 → resultClass op v x =
      if isCardinal v then .cardinal else .integer := by
    intro op hOp
    unfold resultClass
    rw [hOp]
    simp
  have hWide : (if isCardinal v then (toUns .normal v : Int) else toInt .normal v) =
      v.wide (if isCardinal v then .cardinal else .integer) := by
    cases hCard : isCardinal v with
    | true => exact (wide_cardinal hv).symm
    | false => exact (wide_integer hCard).symm
  have hRun : (Operation.binary (if left then .shl else .shr) v x).run env =
      (if x.number < 0 then
        shift (!left) (v.wide (if isCardinal v then .cardinal else .integer)) (-x.number)
      else shift left (v.wide (if isCardinal v then .cardinal else .integer)) x.number).map
        (setResult v x (if isCardinal v then .cardinal else .integer)) := by
    rw [← shift_count left _ hx, ← hWide]
    cases left
    all_goals rfl
  have hMeets : ∀ r, (Operation.binary (if left then .shl else .shr) v x).Meets r ↔
      ∃ w, r = .ok w ∧ w.Is (if isCardinal v then .cardinal else .integer) .s8
        (shifted (v.wide (if isCardinal v then .cardinal else .integer))
          (if left then x.number else -x.number)) := by
    intro r
    cases left with
    | true =>
      show (∃ w, r = .ok w ∧ w.Is (resultClass .shl v x) .s8
        (shifted (v.wide (resultClass .shl v x)) x.number)) ↔ _
      rw [hClass .shl rfl]
      rfl
    | false =>
      show (∃ w, r = .ok w ∧ w.Is (resultClass .shr v x) .s8
        (shifted (v.wide (resultClass .shr v x)) (-x.number))) ↔ _
      rw [hClass .shr rfl]
      rfl
  rw [hRun, hMeets]
  generalize v.wide (if isCardinal v then .cardinal else .integer) = a
  by_cases hOut : x.number < -63 ∨ 63 < x.number
  · have hOver : (if x.number < 0 then shift (!left) a (-x.number)
        else shift left a x.number) = .error .undefined := by
      unfold shift
      split <;> exact if_pos (by omega)
    rw [hOver]
    refine iff_of_false ?_ (by omega)
    rintro ⟨w, hEq, -⟩
    cases hEq
  · refine iff_of_true ?_ (by omega)
    by_cases hNeg : x.number < 0
    · rw [if_pos hNeg, shift_small (!left) a (by omega) (by omega), Int.neg_neg]
      cases left
      all_goals exact setResult_iff.2 rfl
    · rw [if_neg hNeg, shift_small left a (by omega) (by omega)]
      exact setResult_iff.2 rfl

/-- The operand of a bitwise operator, as the code reads it when the other one is CARDINAL. -/
theorem toUns_as_cardinal (v : Value) : toUns .normal
    { v with typeClass := .cardinal } = v.bits := rfl

theorem toUns_negative (hv : v.Whole) (h : isCardinal v = false) (hNeg : v.number < 0) :
    toUns .normal v = onesAbove v.size.bits 64 v.bits := by
  have hSmall := hv.small
  rw [toUns_integer h]
  rcases number_cases hv h with ⟨hNumber, -⟩ | ⟨hNumber, -⟩
  · omega
  · unfold onesAbove
    rw [hNumber]
    cases hSize : v.size
    all_goals
      rw [hSize] at hSmall
      simp only [Size.bits] at hSmall ⊢
      omega

theorem run_bits {f : Nat → Nat → Nat} (hv : v.Whole) (hx : x.Whole)
    (hOp : op.level ≠ 2) (hCode : op.apply env v x = opBits f .normal op.sy v x)
    (hMeaning : ∀ a b, op.meaning a b = some (onBits f a b))
    (hf : ∀ a b, a < 2 ^ 64 → b < 2 ^ 64 → f a b < 2 ^ 64) :
    (Operation.binary op v x).Meets ((Operation.binary op v x).run env) ↔
      (isCardinal v = false → isCardinal x = true → v.number < 0 →
        f v.bits x.bits = f (onesAbove v.size.bits 64 v.bits) x.bits) := by
  have hMeets : ∀ r, (Operation.binary op v x).Meets r ↔ ∃ w, r = .ok w ∧
      w.Is (resultClass op v x) .s8
        (onBits f (v.wide (resultClass op v x)) (x.wide (resultClass op v x))) := by
    intro r
    unfold Operation.Meets
    dsimp only
    rw [if_neg hOp, hMeaning]
  have hEmod : ∀ n : Nat, n < 2 ^ 64 → ((n : Int) % 2 ^ 64).toNat = n := by
    intro n hn
    omega
  rw [hMeets]
  show (∃ w, op.apply env v x = .ok w ∧ _) ↔ _
  rw [hCode]
  unfold opBits
  -- the result is a cardinal, or both operands are integers
  rcases @wide_operands v x op hv hx hOp with ⟨h, hClass, hWide⟩ | ⟨h, hClass, hWide⟩
  · rw [if_pos h, hClass, hWide.1, hWide.2]
    refine setResult_iff.trans ?_
    unfold onBits
    rw [if_pos rfl, toUns_as_cardinal, hEmod _ (toUns_lt hv), hEmod _ (toUns_lt hx)]
    have hLeft := hf _ _ hv.lt (toUns_lt hx)
    have hRight := hf _ _ (toUns_lt hv) (toUns_lt hx)
    have hIff : ((f v.bits (toUns .normal x) : Nat) : Int) % 2 ^ 64 =
        ((f (toUns .normal v) (toUns .normal x) : Nat) : Int) % 2 ^ 64 ↔
        f v.bits (toUns .normal x) = f (toUns .normal v) (toUns .normal x) := by
      omega
    refine hIff.trans ?_
    cases hCard : isCardinal v with
    | true =>
      rw [toUns_cardinal hCard]
      exact iff_of_true rfl fun hFalse => by cases hFalse
    | false =>
      have hxCard : isCardinal x = true := by
        rw [hCard] at h
        exact h
      rw [toUns_cardinal hxCard]
      -- only a negative integer of less than 64 bits is extended differently
      by_cases hNeg : v.number < 0
      · rw [toUns_negative hv hCard hNeg]
        exact ⟨fun hSame _ _ _ => hSame, fun hSame => hSame rfl hxCard hNeg⟩
      · have hSame : toUns .normal v = v.bits := by
          have hLt := hv.lt
          rw [toUns_integer hCard]
          rcases number_cases hv hCard with ⟨hNumber, -⟩ | ⟨hNumber, hTop⟩
          · omega
          · have hSmall := hv.small
            exact absurd hNumber (by
              have : (v.bits : Int) < 2 ^ v.size.bits := by exact_mod_cast hSmall
              omega)
        rw [hSame]
        exact iff_of_true rfl fun _ _ hFalse => absurd hFalse hNeg
  · obtain ⟨-, hvInt, hxInt⟩ := @integer_class v x op h
    rw [if_neg (Bool.eq_false_iff.1 h), hClass, hWide.1, hWide.2]
    refine iff_of_true (setResult_iff.2 ?_) fun _ hFalse => by rw [hxInt] at hFalse; cases hFalse
    rw [if_pos rfl]
    unfold onBits
    have hAs : toInt .normal { v with typeClass := .integer } = toInt .normal v := by
      rw [toInt_integer hvInt, number_integer hvInt]
      rfl
    rw [hAs]

theorem s8_of_bits {size : Size} (h : size.bits = 64) : size = .s8 := by
  cases size
  all_goals first | rfl | cases h

theorem hidesSign_iff (hv : v.Whole) (hx : x.Whole) :
    (v.bits &&& x.bits = onesAbove v.size.bits 64 v.bits &&& x.bits ↔
      BinOp.HidesSign .band v.size x.bits) ∧
    (v.bits ||| x.bits = onesAbove v.size.bits 64 v.bits ||| x.bits ↔
      BinOp.HidesSign .bor v.size x.bits) ∧
    (v.bits ^^^ x.bits = onesAbove v.size.bits 64 v.bits ^^^ x.bits ↔
      BinOp.HidesSign .bxor v.size x.bits) := by
  have hLe := bits_le v.size
  have hLt := hx.lt
  refine ⟨?_, ?_, ?_⟩
  · rw [eq_comm, onesAbove_and hv.small hLe hLt]
    refine ⟨fun h => .inr (.inl ⟨rfl, h⟩), ?_⟩
    rintro (hSize | ⟨-, h⟩ | ⟨hFalse, -⟩)
    · rw [hSize]
      exact hLt
    · exact h
    · cases hFalse
  · rw [eq_comm, onesAbove_or hv.small hLe hLt]
    refine ⟨fun h => .inr (.inr ⟨rfl, h⟩), ?_⟩
    rintro (hSize | ⟨hFalse, -⟩ | ⟨-, h⟩)
    · rw [hSize]
      exact Nat.zero_le _
    · cases hFalse
    · exact h
  · rw [eq_comm, onesAbove_xor hv.small hLe]
    refine ⟨fun h => .inl (s8_of_bits h), ?_⟩
    rintro (hSize | ⟨hFalse, -⟩ | ⟨hFalse, -⟩)
    · rw [hSize]
      rfl
    · cases hFalse
    · cases hFalse

theorem run_minus (hv : v.Whole) :
    (Operation.minus v).Meets ((Operation.minus v).run env) ↔
      (isCardinal v = true → 2 * v.bits % 2 ^ v.size.bits = 0) := by
  show (∃ w, Except.ok (opMinus env .normal v) = (.ok w : Except Message Value) ∧
    w.Is v.typeClass v.size (-v.number)) ↔ _
  unfold opMinus
  cases hClass : v.typeClass with
  | cardinal =>
    have hCard : isCardinal v = true := decide_eq_true hClass
    rw [number_cardinal hCard]
    constructor
    · rintro ⟨w, hEq, hIs⟩ -
      cases hEq
      have hBits := hIs.bits
      cases hSize : v.size
      all_goals
        rw [hSize] at hBits
        simp only [Size.bits] at hBits ⊢
        omega
    · intro h
      refine ⟨v, rfl, hClass, rfl, ?_⟩
      have hTwice := h hCard
      have hSmall := hv.small
      cases hSize : v.size
      all_goals
        rw [hSize] at hTwice hSmall
        simp only [Size.bits] at hTwice hSmall ⊢
        omega
  | integer =>
    have hInt : isCardinal v = false := decide_eq_false (by rw [hClass]; decide)
    refine iff_of_true ⟨_, rfl, ?_⟩ fun hFalse => by rw [hInt] at hFalse; cases hFalse
    have hIs := setInt_is v v.size (-v.number)
    rw [hClass] at hIs
    rw [toInt_integer hInt]
    exact hIs
  | enumeration => exact absurd hClass hv.plain

theorem run_complement :
    (Operation.complement v).Meets ((Operation.complement v).run env) := by
  refine ⟨_, rfl, (setInt_is v v.size _).congr ?_⟩
  cases hCard : isCardinal v with
  | true =>
    rw [toInt_cardinal hCard, number_cardinal hCard, Int.bmod_def]
    cases v.size
    all_goals
      simp only [Size.bits]
      omega
  | false => rw [toInt_integer hCard]

end

/-- Which operands an operator gives the right result for, without an undefined operation. -/
theorem operator_meets_iff (o : Operation) (h : o.Valid) :
    (∀ env, o.Meets (o.run env)) ↔ o.Defined := by
  suffices hMeets : ∀ env, o.Meets (o.run env) ↔ o.Defined from
    ⟨fun hAll => (hMeets noSymbols).1 (hAll _), fun hDef env => (hMeets env).2 hDef⟩
  intro env
  rcases o with ⟨op, v, x⟩ | v | v
  · obtain ⟨hOp, hv, hx⟩ := h
    have hSign := @hidesSign_iff v x hv hx
    cases op with
    | mul => exact iff_of_true (meets_mul env hv hx) trivial
    | add => exact iff_of_true (meets_add env hv hx) trivial
    | sub => exact iff_of_true (meets_sub env hv hx) trivial
    | div =>
      exact run_quotient env hv hx (.inl ⟨rfl, rfl, rfl⟩) fun a b => (Int.ofNat_tdiv a b).symm
    | rem =>
      exact run_quotient env hv hx (.inr ⟨rfl, rfl, rfl⟩) fun a b => (Int.ofNat_tmod a b).symm
    | shl => exact run_shift env true hv hx
    | shr => exact run_shift env false hv hx
    | band =>
      have hBits := @run_bits v x .band env (· &&& ·) hv hx (by decide) rfl
        (fun _ _ => rfl) fun _ _ _ hb => Nat.and_lt_two_pow _ hb
      rwa [hSign.1] at hBits
    | bor =>
      have hBits := @run_bits v x .bor env (· ||| ·) hv hx (by decide) rfl
        (fun _ _ => rfl) fun _ _ ha hb => Nat.or_lt_two_pow ha hb
      rwa [hSign.2.1] at hBits
    | bxor =>
      have hBits := @run_bits v x .bxor env (· ^^^ ·) hv hx (by decide) rfl
        (fun _ _ => rfl) fun _ _ ha hb => Nat.xor_lt_two_pow ha hb
      rwa [hSign.2.2] at hBits
    | lt | gt | le | ge | eq | ne | land | lor =>
      unfold BinOp.IsArithmetic at hOp
      exact absurd hOp (by decide)
  · exact run_minus env h
  · exact iff_of_true (run_complement env) trivial

/-- -1 in one byte and an unsigned number: only one byte of the sign is there. -/
theorem operator_meets_iff_example :
    (Operation.binary .band ⟨.integer, none, .s1, 255, false⟩
      ⟨.cardinal, none, .s8, 200, false⟩).Valid ∧
    ∀ env, (Operation.binary .band ⟨.integer, none, .s1, 255, false⟩
      ⟨.cardinal, none, .s8, 200, false⟩).Meets ((Operation.binary .band
        ⟨.integer, none, .s1, 255, false⟩ ⟨.cardinal, none, .s8, 200, false⟩).run env) := by
  have hLeft : Value.Whole ⟨.integer, none, .s1, 255, false⟩ := ⟨by decide, by decide⟩
  have hRight : Value.Whole ⟨.cardinal, none, .s8, 200, false⟩ := ⟨by decide, by decide⟩
  have hOp : BinOp.IsArithmetic .band := .inr (by decide)
  refine ⟨⟨hOp, hLeft, hRight⟩, ?_⟩
  refine (operator_meets_iff (.binary .band _ _) ⟨hOp, hLeft, hRight⟩).2 ?_
  intro _ _ _
  exact .inr (.inl ⟨rfl, by decide⟩)

/-- `-5u` is 5. -/
theorem not_operators_meet : ¬ ∀ (o : Operation), o.Valid → ∀ env, o.Meets (o.run env) := by
  intro hAll
  have hFive : Value.Whole ⟨.cardinal, none, .s4, 5, false⟩ := ⟨by decide, by decide⟩
  have hDef := (run_minus noSymbols hFive).1 (hAll (.minus _) hFive _) rfl
  exact absurd hDef (by decide)

end TcfAgent.Expressions
