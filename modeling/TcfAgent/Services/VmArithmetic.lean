import TcfAgent.Services.Vm

/-!
# The arithmetic of the DWARF virtual machine

What DWARF prescribes for the arithmetic, logical and relational operations, in terms of the
numbers that 64-bit values stand for, and where `evaluate_expression` of `services/vm.c` does
that. It divides and compares values without their sign, and shifts by any count.

Main results:

* `udiv_agrees`          — where a division without sign gives the signed quotient;
* `arithmetic_semantics` — where the operations leave what is prescribed.
-/

namespace TcfAgent.Vm

open TcfAgent.Lib TcfAgent.Location TcfAgent.Dwarf

/-! ## What is prescribed -/

/-- The operations with two operands on the stack. -/
inductive Binary where
  | and | div | minus | mod | mul | or | plus | shl | shr | shra | xor
  | eq | ge | gt | le | lt | ne
deriving DecidableEq, Repr

def Binary.op : Binary → UInt8
  | .and => Op.and
  | .div => Op.div
  | .minus => Op.minus
  | .mod => Op.mod
  | .mul => Op.mul
  | .or => Op.or
  | .plus => Op.plus
  | .shl => Op.shl
  | .shr => Op.shr
  | .shra => Op.shra
  | .xor => Op.xor
  | .eq => Op.eq
  | .ge => Op.ge
  | .gt => Op.gt
  | .le => Op.le
  | .lt => Op.lt
  | .ne => Op.ne

/-- The value for the former second entry and the former top of the stack; there is none when
something is divided by zero. -/
def Binary.value : Binary → Word → Word → Option Word
  | .and, a, b => some (a &&& b)
  | .div, a, b => if b = 0 then none else some (BitVec.ofInt 64 (a.toInt.tdiv b.toInt))
  | .minus, a, b => some (BitVec.ofInt 64 (a.toInt - b.toInt))
  | .mod, a, b => if b = 0 then none else some (BitVec.ofNat 64 (a.toNat % b.toNat))
  | .mul, a, b => some (BitVec.ofNat 64 (a.toNat * b.toNat))
  | .or, a, b => some (a ||| b)
  | .plus, a, b => some (BitVec.ofNat 64 (a.toNat + b.toNat))
  | .shl, a, b => some (BitVec.ofNat 64 (a.toNat * 2 ^ b.toNat))
  | .shr, a, b => some (BitVec.ofNat 64 (a.toNat / 2 ^ b.toNat))
  | .shra, a, b => some (BitVec.ofInt 64 (a.toInt / 2 ^ b.toNat))
  | .xor, a, b => some (a ^^^ b)
  | .eq, a, b => some (flag (a = b))
  | .ge, a, b => some (flag (b.toInt ≤ a.toInt))
  | .gt, a, b => some (flag (b.toInt < a.toInt))
  | .le, a, b => some (flag (a.toInt ≤ b.toInt))
  | .lt, a, b => some (flag (a.toInt < b.toInt))
  | .ne, a, b => some (flag (a ≠ b))

/-- The operations with one operand. -/
inductive Unary where
  | abs | neg | not
deriving DecidableEq, Repr

def Unary.op : Unary → UInt8
  | .abs => Op.abs
  | .neg => Op.neg
  | .not => Op.not

def Unary.value : Unary → Word → Word
  | .abs, a => BitVec.ofInt 64 |a.toInt|
  | .neg, a => BitVec.ofInt 64 (-a.toInt)
  | .not, a => BitVec.ofNat 64 (2 ^ 64 - 1 - a.toNat)

/-- The division without sign gives the signed quotient: none of the operands is negative,
the divisor is 1, or negative and larger than the dividend, or both are the same. -/
def UdivAgrees (a b : Word) : Prop :=
  b = 0 ∨ b = 1 ∨ (a.msb = false ∧ (b.msb = false ∨ a.toNat < (-b).toNat)) ∨
    (a.msb = true ∧ a = b)

/-- Where an operation does what is prescribed. -/
def Binary.Agrees : Binary → Word → Word → Prop
  | .div, a, b => UdivAgrees a b
  | .shl, _, b => b.toNat < 64
  | .shr, _, b => b.toNat < 64
  | .ge, a, b => a.msb = b.msb
  | .gt, a, b => a.msb = b.msb
  | .le, a, b => a.msb = b.msb
  | .lt, a, b => a.msb = b.msb
  | _, _, _ => True

/-! ## Words -/

theorem ofInt_tdiv (a b : Word) : BitVec.ofInt 64 (a.toInt.tdiv b.toInt) = a.sdiv b := by
  refine BitVec.eq_of_toInt_eq ?_
  rw [BitVec.toInt_sdiv, BitVec.toInt_ofInt]

theorem msb_eq_true {a : Word} : a.msb = true ↔ 2 ^ 63 ≤ a.toNat := by
  rw [BitVec.msb_eq_decide]
  simp

theorem msb_eq_false {a : Word} : a.msb = false ↔ a.toNat < 2 ^ 63 := by
  rw [BitVec.msb_eq_decide]
  simp

theorem toNat_neg_of_msb {b : Word} (hMsb : b.msb = true) :
    (-b).toNat + b.toNat = 2 ^ 64 ∧ 0 < (-b).toNat := by
  rw [msb_eq_true] at hMsb
  rw [BitVec.toNat_neg]
  omega

/-- The quotient of negative numbers, in 64 bits. -/
theorem toNat_neg_div (x y : Word) (hx : (x / y).toNat ≠ 0) :
    (-(x / y)).toNat + x.toNat / y.toNat = 2 ^ 64 := by
  have hLt := (x / y).isLt
  rw [BitVec.toNat_neg, ← BitVec.toNat_udiv]
  omega

variable {a b : Word}

/-- A negative dividend: only the divisor 1 leaves it as it is. -/
theorem udiv_agrees_of_neg_pos (hMsbA : a.msb = true) (hMsbB : b.msb = false)
    (hb : b.toNat ≠ 0) : (a / b).toNat = (-((-a) / b)).toNat ↔ b.toNat = 1 := by
  obtain ⟨hSum, hPos⟩ := toNat_neg_of_msb hMsbA
  have hLarge := msb_eq_true.1 hMsbA
  have hSmall := msb_eq_false.1 hMsbB
  refine ⟨fun h => ?_, fun h => ?_⟩
  · by_contra hOne
    have hTwo : 2 ≤ b.toNat := by omega
    have hSome : 0 < a.toNat / b.toNat := Nat.div_pos (by omega) (by omega)
    have hHalf : a.toNat / b.toNat ≤ a.toNat / 2 := Nat.div_le_div_left hTwo (by decide)
    have hQuarter : (-a).toNat / b.toNat ≤ (-a).toNat / 2 := Nat.div_le_div_left hTwo (by decide)
    rw [BitVec.toNat_udiv] at h
    by_cases hNone : ((-a) / b).toNat = 0
    · rw [BitVec.toNat_neg, hNone] at h
      omega
    · have := toNat_neg_div (-a) b hNone
      omega
  · have hb : b = 1 := BitVec.eq_of_toNat_eq h
    subst hb
    simp

/-- A negative divisor: the quotient has to be zero. -/
theorem udiv_agrees_of_pos_neg (hMsbA : a.msb = false) (hMsbB : b.msb = true) :
    (a / b).toNat = (-(a / (-b))).toNat ↔ a.toNat < (-b).toNat := by
  obtain ⟨hSum, hPos⟩ := toNat_neg_of_msb hMsbB
  have hLarge := msb_eq_true.1 hMsbB
  have hSmall := msb_eq_false.1 hMsbA
  have hZero : (a / b).toNat = 0 := by
    rw [BitVec.toNat_udiv]
    exact Nat.div_eq_of_lt (by omega)
  have hLess : (a / (-b)).toNat = 0 ↔ a.toNat < (-b).toNat := by
    rw [BitVec.toNat_udiv]
    exact Nat.div_eq_zero_iff_lt hPos
  rw [hZero, ← hLess]
  refine ⟨fun h => ?_, fun h => ?_⟩
  · by_contra hSome
    have hSumQ := toNat_neg_div a (-b) hSome
    have hLe : a.toNat / (-b).toNat ≤ a.toNat := Nat.div_le_self _ _
    omega
  · rw [BitVec.toNat_neg, h]

/-- Two negative operands have to be the same. -/
theorem udiv_agrees_of_neg_neg (hMsbA : a.msb = true) (hMsbB : b.msb = true) :
    (a / b).toNat = ((-a) / (-b)).toNat ↔ a.toNat = b.toNat := by
  obtain ⟨hSumA, hPosA⟩ := toNat_neg_of_msb hMsbA
  obtain ⟨hSumB, hPosB⟩ := toNat_neg_of_msb hMsbB
  have hB := msb_eq_true.1 hMsbB
  rw [BitVec.toNat_udiv, BitVec.toNat_udiv]
  refine ⟨fun h => ?_, fun h => ?_⟩
  · rcases Nat.lt_trichotomy a.toNat b.toNat with hLt | hEq | hGt
    · have hNone : a.toNat / b.toNat = 0 := Nat.div_eq_of_lt hLt
      have hSome : 0 < (-a).toNat / (-b).toNat := Nat.div_pos (by omega) hPosB
      omega
    · exact hEq
    · have hSome : 0 < a.toNat / b.toNat := Nat.div_pos (by omega) (by omega)
      have hNone : (-a).toNat / (-b).toNat = 0 := Nat.div_eq_of_lt (by omega)
      omega
  · have hNeg : (-a).toNat = (-b).toNat := by omega
    rw [h, hNeg, Nat.div_self (by omega), Nat.div_self hPosB]

theorem udiv_agrees (hb : b ≠ 0) : a / b = a.sdiv b ↔ UdivAgrees a b := by
  have hZero : b.toNat ≠ 0 := fun h => hb (BitVec.eq_of_toNat_eq h)
  have hOne : b = 1 ↔ b.toNat = 1 := by rw [← BitVec.toNat_inj]; rfl
  have hSame : a = b ↔ a.toNat = b.toNat := BitVec.toNat_inj.symm
  unfold UdivAgrees
  rw [← BitVec.toNat_inj, BitVec.sdiv_eq, hOne, hSame]
  cases hMsbA : a.msb with
  | false =>
    cases hMsbB : b.msb with
    | false => simp
    | true =>
      have hAgrees := udiv_agrees_of_pos_neg hMsbA hMsbB
      have hLarge := msb_eq_true.1 hMsbB
      simp only [BitVec.udiv_eq, hAgrees, hb, false_or, true_and, Bool.true_eq_false,
        Bool.false_eq_true, false_and, or_false]
      omega
  | true =>
    cases hMsbB : b.msb with
    | false =>
      have hAgrees := udiv_agrees_of_neg_pos hMsbA hMsbB hZero
      have hLarge := msb_eq_true.1 hMsbA
      have hSmall := msb_eq_false.1 hMsbB
      simp only [BitVec.udiv_eq, hAgrees, hb, false_or, true_and, Bool.true_eq_false, false_and]
      omega
    | true =>
      have hAgrees := udiv_agrees_of_neg_neg hMsbA hMsbB
      have hLarge := msb_eq_true.1 hMsbB
      simp only [BitVec.udiv_eq, hAgrees, hb, false_or, true_and, Bool.true_eq_false, false_and]
      omega

theorem le_agrees (a b : Word) : decide (a ≤ b) = decide (a.toInt ≤ b.toInt) ↔ a.msb = b.msb := by
  have hA := a.isLt
  have hB := b.isLt
  rw [decide_eq_decide, BitVec.le_def, BitVec.toInt_eq_toNat_cond, BitVec.toInt_eq_toNat_cond,
    BitVec.msb_eq_decide, BitVec.msb_eq_decide, decide_eq_decide]
  split <;> split <;> omega

theorem lt_agrees (a b : Word) : decide (a < b) = decide (a.toInt < b.toInt) ↔ a.msb = b.msb := by
  have hA := a.isLt
  have hB := b.isLt
  rw [decide_eq_decide, BitVec.lt_def, BitVec.toInt_eq_toNat_cond, BitVec.toInt_eq_toNat_cond,
    BitVec.msb_eq_decide, BitVec.msb_eq_decide, decide_eq_decide]
  split <;> split <;> omega

theorem flag_inj {p q : Bool} : flag p = flag q ↔ p = q := by
  cases p <;> cases q <;> simp [flag]

theorem shl_eq (a : Word) (n : Nat) : a <<< n = BitVec.ofNat 64 (a.toNat * 2 ^ n) := by
  refine BitVec.eq_of_toNat_eq ?_
  rw [BitVec.toNat_shiftLeft, BitVec.toNat_ofNat, Nat.shiftLeft_eq]

theorem shr_eq (a : Word) (n : Nat) : a >>> n = BitVec.ofNat 64 (a.toNat / 2 ^ n) := by
  refine BitVec.eq_of_toNat_eq ?_
  have hLe : a.toNat / 2 ^ n ≤ a.toNat := Nat.div_le_self _ _
  rw [BitVec.toNat_ushiftRight, BitVec.toNat_ofNat, Nat.shiftRight_eq_div_pow,
    Nat.mod_eq_of_lt (by omega)]

theorem shra_eq (a b : Word) : shra a b = BitVec.ofInt 64 (a.toInt / 2 ^ b.toNat) := by
  have hShift : BitVec.ofInt 64 (a.toInt / 2 ^ b.toNat) = a.sshiftRight b.toNat := by
    rw [← BitVec.ofInt_toInt (x := a.sshiftRight b.toNat), BitVec.toInt_sshiftRight,
      Int.shiftRight_eq_div_pow]
    norm_cast
  rw [hShift]
  unfold shra
  split
  · rename_i hLarge
    ext i hi
    rw [BitVec.getElem_sshiftRight, dif_neg (by omega)]
    split
    · rename_i hMsb
      rw [BitVec.getElem_allOnes, hMsb]
    · rename_i hMsb
      simp [hMsb]
  · rfl

theorem add_eq (a b : Word) : a + b = BitVec.ofNat 64 (a.toNat + b.toNat) :=
  BitVec.eq_of_toNat_eq (by rw [BitVec.toNat_add, BitVec.toNat_ofNat])

theorem mul_eq (a b : Word) : a * b = BitVec.ofNat 64 (a.toNat * b.toNat) :=
  BitVec.eq_of_toNat_eq (by rw [BitVec.toNat_mul, BitVec.toNat_ofNat])

theorem sub_eq (a b : Word) : a - b = BitVec.ofInt 64 (a.toInt - b.toInt) :=
  BitVec.eq_of_toInt_eq (by rw [BitVec.toInt_sub, BitVec.toInt_ofInt])

theorem umod_eq (a b : Word) : a % b = BitVec.ofNat 64 (a.toNat % b.toNat) := by
  refine BitVec.eq_of_toNat_eq ?_
  have hLe : a.toNat % b.toNat ≤ a.toNat := Nat.mod_le _ _
  have hMod : a.toNat % b.toNat % 2 ^ 64 = a.toNat % b.toNat := Nat.mod_eq_of_lt (by omega)
  rw [BitVec.toNat_umod, BitVec.toNat_ofNat, hMod]

theorem neg_eq (a : Word) : ~~~a + 1 = BitVec.ofInt 64 (-a.toInt) := by
  have hNeg : ~~~a + 1 = -a := (BitVec.neg_eq_not_add a).symm
  rw [hNeg]
  exact BitVec.eq_of_toInt_eq (by rw [BitVec.toInt_neg, BitVec.toInt_ofInt])

theorem abs_eq (a : Word) : (if a.msb then ~~~a + 1 else a) = BitVec.ofInt 64 |a.toInt| := by
  have hLt := a.isLt
  split
  · rename_i hMsb
    rw [neg_eq, abs_of_nonpos]
    rw [BitVec.toInt_eq_msb_cond, if_pos hMsb]
    omega
  · rename_i hMsb
    rw [abs_of_nonneg, BitVec.ofInt_toInt]
    rw [BitVec.toInt_eq_msb_cond, if_neg hMsb]
    omega

theorem not_eq (a : Word) : ~~~a = BitVec.ofNat 64 (2 ^ 64 - 1 - a.toNat) := by
  refine BitVec.eq_of_toNat_eq ?_
  have hLt := a.isLt
  rw [BitVec.toNat_not, BitVec.toNat_ofNat, Nat.mod_eq_of_lt (by omega)]

/-! ## Operations -/

variable {Reg : Type}

/-- The operation takes its operands and leaves the value on the rest of the stack, or fails
when there is none. -/
def Leaves (m : Machine Reg) (op : UInt8) (s : State) (stk : List Cell) : Option Word → Prop
  | some v => ∃ type, evaluateOp m op s = .ok { s with stk := ⟨v, type⟩ :: stk }
  | none => ∃ f, evaluateOp m op s = .error f

/-- What an operation of two operands computes. -/
def Binary.run (m : Machine Reg) : Binary → Word → Word → Except Failure Word
  | .and, a, b => .ok (a &&& b)
  | .div, a, b =>
    if b = 0 then .error (invDwarf "Division by zero in location expression") else .ok (a / b)
  | .minus, a, b => .ok (a - b)
  | .mod, a, b =>
    if b = 0 then .error (invDwarf "Division by zero in location expression") else .ok (a % b)
  | .mul, a, b => .ok (a * b)
  | .or, a, b => .ok (a ||| b)
  | .plus, a, b => .ok (a + b)
  | .shl, a, b => .ok (m.shl a b)
  | .shr, a, b => .ok (m.shr a b)
  | .shra, a, b => .ok (Vm.shra a b)
  | .xor, a, b => .ok (a ^^^ b)
  | .eq, a, b => .ok (flag (a = b))
  | .ge, a, b => .ok (flag (b ≤ a))
  | .gt, a, b => .ok (flag (b < a))
  | .le, a, b => .ok (flag (a ≤ b))
  | .lt, a, b => .ok (flag (a < b))
  | .ne, a, b => .ok (flag (a ≠ b))

variable {s : State} {stk : List Cell} {op : UInt8} {a b : Cell} (m : Machine Reg)

theorem evaluateOp_arithmetic {f : Word → Word → Except Failure Word}
    (hConstant : constant m op = none) (hOp : arithmetic m op = some f)
    (hStk : s.stk = b :: a :: stk) :
    evaluateOp m op s = (f a.value b.value).map fun v => { s with stk := ⟨v, a.type⟩ :: stk } := by
  have hCheck : check2 s = .ok (a, b, stk) := by
    unfold check2
    rw [hStk]
  unfold evaluateOp
  rw [hConstant, hOp, hCheck]
  cases hValue : f a.value b.value with
  | error e => simp [bind, Except.bind, hValue, Except.map]
  | ok v => simp [bind, Except.bind, hValue, Except.map, pure, Except.pure]

theorem evaluateOp_comparison {p : Word → Word → Bool}
    (hConstant : constant m op = none) (hArithmetic : arithmetic m op = none)
    (hOp : comparison op = some p)
    (hStk : s.stk = b :: a :: stk) :
    evaluateOp m op s = (Except.ok (flag (p a.value b.value))).map fun v =>
      { s with stk := ⟨v, .cardinal⟩ :: stk } := by
  have hCheck : check2 s = .ok (a, b, stk) := by
    unfold check2
    rw [hStk]
  unfold evaluateOp
  rw [hConstant, hArithmetic, hOp, hCheck]
  rfl

theorem evaluateOp_unary {f : Word → Word}
    (hConstant : constant m op = none) (hArithmetic : arithmetic m op = none)
    (hComparison : comparison op = none) (hOp : unary op = some f) {a : Cell}
    (hStk : s.stk = a :: stk) :
    evaluateOp m op s = .ok { s with stk := ⟨f a.value, a.type⟩ :: stk } := by
  have hCheck : check1 s = .ok (a, stk) := by
    unfold check1
    rw [hStk]
  unfold evaluateOp
  rw [hConstant, hArithmetic, hComparison, hOp, hCheck]
  rfl

theorem evaluateOp_binary (o : Binary)
    (hStk : s.stk = b :: a :: stk) :
    ∃ type, evaluateOp m o.op s =
      (o.run m a.value b.value).map fun v => { s with stk := ⟨v, type⟩ :: stk } := by
  cases o with
  | eq => exact ⟨_, evaluateOp_comparison m (p := fun a b => a = b) rfl rfl rfl hStk⟩
  | ge => exact ⟨_, evaluateOp_comparison m (p := fun a b => b ≤ a) rfl rfl rfl hStk⟩
  | gt => exact ⟨_, evaluateOp_comparison m (p := fun a b => b < a) rfl rfl rfl hStk⟩
  | le => exact ⟨_, evaluateOp_comparison m (p := fun a b => a ≤ b) rfl rfl rfl hStk⟩
  | lt => exact ⟨_, evaluateOp_comparison m (p := fun a b => a < b) rfl rfl rfl hStk⟩
  | ne => exact ⟨_, evaluateOp_comparison m (p := fun a b => a ≠ b) rfl rfl rfl hStk⟩
  | _ => exact ⟨_, evaluateOp_arithmetic m rfl rfl hStk⟩

/-- An operation leaves what is prescribed exactly when that is what it computes. -/
theorem leaves_iff (o : Binary)
    (hStk : s.stk = b :: a :: stk) :
    Leaves m o.op s stk (o.value a.value b.value) ↔
      (o.run m a.value b.value).toOption = o.value a.value b.value := by
  obtain ⟨type, hEq⟩ := evaluateOp_binary m o hStk
  cases hRun : o.run m a.value b.value with
  | error f =>
    rw [hRun] at hEq
    cases hValue : o.value a.value b.value with
    | none => simp [Leaves, hEq, Except.map, Except.toOption]
    | some v => simp [Leaves, hEq, Except.map, Except.toOption]
  | ok v =>
    rw [hRun] at hEq
    cases hValue : o.value a.value b.value with
    | none => simp [Leaves, hEq, Except.map, Except.toOption]
    | some v' => simp [Leaves, hEq, Except.map, Except.toOption]

/-- A target in which nothing can be read; what a shift by 64 or more gives is left open. -/
def emptyMachine (Reg : Type) (large : Word → Word → Word) : Machine Reg where
  readRegValue _ := .error 0
  contextReadMem _ _ := .error 0
  frame := none
  shlOver := large
  shrOver := large
  bigEndian := false
  addrSize := 8
  getRegById _ := .error 0
  objects := []
  clientOp := none
  otherOp _ _ := .error invStack

/-- A shift is what is prescribed, whatever the target does with large counts, when the count
is not large. -/
theorem shift_agrees {o : Binary} (hLarge : ∀ large a b, 64 ≤ b.toNat →
      (o.run (emptyMachine Reg large) a b).toOption = some (large a b))
    (hSmall : ∀ (m : Machine Reg) a b, b.toNat < 64 → (o.run m a b).toOption = o.value a b)
    {v : Word → Word → Word} (hValue : ∀ a b, o.value a b = some (v a b)) (a b : Word) :
    (∀ m : Machine Reg, (o.run m a b).toOption = o.value a b) ↔ b.toNat < 64 := by
  refine ⟨fun h => ?_, fun hCount m => hSmall m a b hCount⟩
  by_contra hCount
  -- a target that gives another value
  have hOther := h (emptyMachine Reg fun a b => v a b + 1)
  rw [hLarge _ a b (Nat.le_of_not_lt hCount), hValue, Option.some.injEq] at hOther
  have hNat := congrArg BitVec.toNat hOther
  rw [BitVec.toNat_add] at hNat
  have hOne : (1 : Word).toNat = 1 := rfl
  rw [hOne] at hNat
  omega

/-- Where an operation computes what is prescribed, whatever undefined shifts give. -/
theorem run_agrees (o : Binary) (a b : Word) :
    (∀ m : Machine Reg, (o.run m a b).toOption = o.value a b) ↔ o.Agrees a b := by
  have hMachine {p : Prop} : (∀ _ : Machine Reg, p) ↔ p :=
    ⟨fun h => h (emptyMachine Reg fun a _ => a), fun h _ => h⟩
  cases o with
  | and => simp [Binary.run, Binary.value, Binary.Agrees, Except.toOption]
  | div =>
    by_cases hb : b = 0
    · subst hb
      simp [Binary.run, Binary.value, Binary.Agrees, Except.toOption, UdivAgrees]
    · simp only [Binary.run, Binary.value, Binary.Agrees, if_neg hb, Except.toOption,
        Option.some.injEq, ofInt_tdiv, hMachine]
      exact udiv_agrees hb
  | minus => simp [Binary.run, Binary.value, Binary.Agrees, Except.toOption, sub_eq]
  | mod =>
    by_cases hb : b = 0
    · subst hb
      simp [Binary.run, Binary.value, Binary.Agrees, Except.toOption]
    · simp only [Binary.run, Binary.value, Binary.Agrees, if_neg hb, Except.toOption, umod_eq,
        implies_true]
  | mul => simp only [Binary.run, Binary.value, Binary.Agrees, Except.toOption, mul_eq,
      implies_true]
  | or => simp [Binary.run, Binary.value, Binary.Agrees, Except.toOption]
  | plus => simp only [Binary.run, Binary.value, Binary.Agrees, Except.toOption, add_eq,
      implies_true]
  -- a shift by 64 or more is undefined in the code, so the machines differ
  | shl =>
    refine shift_agrees (fun large a b hLarge => ?_) (fun m a b hSmall => ?_) (fun _ _ => rfl) a b
    · simp [Binary.run, Except.toOption, Target.shl, Nat.not_lt.2 hLarge, emptyMachine]
    · simp [Binary.run, Binary.value, Except.toOption, Target.shl, hSmall, shl_eq]
  | shr =>
    refine shift_agrees (fun large a b hLarge => ?_) (fun m a b hSmall => ?_) (fun _ _ => rfl) a b
    · simp [Binary.run, Except.toOption, Target.shr, Nat.not_lt.2 hLarge, emptyMachine]
    · simp [Binary.run, Binary.value, Except.toOption, Target.shr, hSmall, shr_eq]
  | shra => simp only [Binary.run, Binary.value, Binary.Agrees, Except.toOption, shra_eq,
      implies_true]
  | xor => simp [Binary.run, Binary.value, Binary.Agrees, Except.toOption]
  | eq => simp [Binary.run, Binary.value, Binary.Agrees, Except.toOption]
  | ge =>
    simp only [Binary.run, Binary.value, Binary.Agrees, Except.toOption, Option.some.injEq,
      flag_inj, hMachine]
    exact (le_agrees b a).trans eq_comm
  | gt =>
    simp only [Binary.run, Binary.value, Binary.Agrees, Except.toOption, Option.some.injEq,
      flag_inj, hMachine]
    exact (lt_agrees b a).trans eq_comm
  | le =>
    simp only [Binary.run, Binary.value, Binary.Agrees, Except.toOption, Option.some.injEq,
      flag_inj, hMachine]
    exact le_agrees a b
  | lt =>
    simp only [Binary.run, Binary.value, Binary.Agrees, Except.toOption, Option.some.injEq,
      flag_inj, hMachine]
    exact lt_agrees a b
  | ne => simp [Binary.run, Binary.value, Binary.Agrees, Except.toOption]

/-! ## Operands in the code -/

/-- No byte of an operand is shifted by the width of a word or more, which has no defined
result. -/
def LebDefined (raw : List UInt8) : Prop := ∀ k < raw.length, 7 * k < 64

theorem lebDefined_iff (raw : List UInt8) : LebDefined raw ↔ raw.length ≤ 10 := by
  refine ⟨fun h => ?_, fun h k hk => by omega⟩
  by_contra hLong
  have := h 10 (by omega)
  omega

theorem evaluateOp_plusUconst {a : Cell}
    (hStk : s.stk = a :: stk) {raw after : List UInt8} (hRaw : Leb128.Ends raw)
    (hRest : s.code.rest = raw ++ after) :
    evaluateOp m Op.plusUconst s = .ok
      { stk := ⟨BitVec.ofNat 64 (a.value.toNat + Leb128.value raw), a.type⟩ :: stk,
        code := s.code.skip raw.length } := by
  have hRead : readU8leb128 s.code = _ := reads_uleb _ 64 hRaw _ _ hRest
  have hCheck : check1 s = .ok (a, stk) := by
    unfold check1
    rw [hStk]
  have hSum : a.value + ulebWord 64 raw = BitVec.ofNat 64 (a.value.toNat + Leb128.value raw) := by
    rw [ulebWord_eq, BitVec.ofNat_add, BitVec.ofNat_toNat, BitVec.setWidth_eq]
  show specialOp m Op.plusUconst s = _
  unfold specialOp
  rw [if_pos rfl, hCheck]
  show (readU8leb128 s.code >>= fun p => _) = _
  rw [hRead, ← hSum]
  rfl

/-- Every operation leaves what is prescribed, with no undefined shift, exactly when: a quotient
is that of `UdivAgrees`, the operands of a relation of order have one sign, a shift to the left
or a logical shift to the right is by less than 64, an operand in the code has at most ten
bytes. -/
theorem arithmetic_semantics (Reg : Type) :
    (∀ (o : Binary) (s : State) (a b : Cell) (stk : List Cell), s.stk = b :: a :: stk →
      ((∀ m : Machine Reg, Leaves m o.op s stk (o.value a.value b.value)) ↔
        o.Agrees a.value b.value)) ∧
    (∀ (o : Unary) (s : State) (a : Cell) (stk : List Cell), s.stk = a :: stk →
      ∀ m : Machine Reg, Leaves m o.op s stk (some (o.value a.value))) ∧
    (∀ (s : State) (a : Cell) (stk : List Cell) (raw after : List UInt8), s.stk = a :: stk →
      Leb128.Ends raw → s.code.rest = raw ++ after →
      ((∀ m : Machine Reg, evaluateOp m Op.plusUconst s = .ok
          { stk := ⟨BitVec.ofNat 64 (a.value.toNat + Leb128.value raw), a.type⟩ :: stk,
            code := s.code.skip raw.length }) ∧ LebDefined raw ↔ raw.length ≤ 10)) := by
  refine ⟨fun o s a b stk hStk => ?_, fun o s a stk hStk m => ?_,
    fun s a stk raw after hStk hRaw hRest => ?_⟩
  · exact (forall_congr' fun m => leaves_iff m o hStk).trans (run_agrees o _ _)
  · cases o with
    | abs => exact ⟨_, (evaluateOp_unary m rfl rfl rfl rfl hStk).trans (by rw [abs_eq]; rfl)⟩
    | neg => exact ⟨_, (evaluateOp_unary m rfl rfl rfl rfl hStk).trans (by rw [neg_eq]; rfl)⟩
    | not => exact ⟨_, (evaluateOp_unary m rfl rfl rfl rfl hStk).trans (by rw [not_eq]; rfl)⟩
  · rw [lebDefined_iff]
    exact and_iff_right fun m => evaluateOp_plusUconst m hStk hRaw hRest

/-- The operands of an operation, the second one on top. -/
def operands (a b : Word) : State where
  stk := [⟨b, .integer⟩, ⟨a, .integer⟩]
  code := { data := [0x81, 0x01], pos := 0 }

theorem leaves_operands (o : Binary) (a b : Word) :
    Leaves m o.op (operands a b) [] (o.value a b) ↔ (o.run m a b).toOption = o.value a b :=
  leaves_iff m o (a := ⟨a, .integer⟩) (b := ⟨b, .integer⟩) rfl

/-- A division of `-2` by `-2`, the complement of 5, and 5 plus the operand 129. -/
theorem arithmetic_semantics_samples :
    Leaves (emptyMachine Unit fun a _ => a) Op.div (operands (-2) (-2)) [] (some 1) ∧
    Leaves (emptyMachine Unit fun a _ => a) Op.not (operands 7 5) [⟨7, .integer⟩]
      (some 0xfffffffffffffffa) ∧
    evaluateOp (emptyMachine Unit fun a _ => a) Op.plusUconst (operands 7 5) = .ok
      { stk := [⟨134, .integer⟩, ⟨7, .integer⟩],
        code := { data := [0x81, 0x01], pos := 2 } } := by
  refine ⟨?_, ?_, ?_⟩
  · exact ((arithmetic_semantics Unit).1 .div (operands (-2) (-2)) _ _ [] rfl).2
      (.inr (.inr (.inr ⟨rfl, rfl⟩))) _
  · exact (arithmetic_semantics Unit).2.1 .not (operands 7 5) _ _ rfl _
  · exact (((arithmetic_semantics Unit).2.2 (operands 7 5) _ _ [0x81, 0x01] [] rfl (by decide)
      rfl).2 (by decide)).1 _

/-- `-4 / 2` is `0x7ffffffffffffffe` and `-1` is not less than 1; on a target that shifts by the
count modulo 64, a shift of 1 by 64 leaves 1. -/
theorem semantics_differ :
    ¬ Leaves (emptyMachine Unit fun a _ => a) Op.div (operands (-4) 2) []
      (Binary.div.value (-4) 2) ∧
    ¬ Leaves (emptyMachine Unit fun a _ => a) Op.lt (operands (-1) 1) []
      (Binary.lt.value (-1) 1) ∧
    ¬ Leaves (emptyMachine Unit fun a b => a <<< (b.toNat % 64)) Op.shl (operands 1 64) []
      (Binary.shl.value 1 64) := by
  refine ⟨fun h => ?_, fun h => ?_, fun h => ?_⟩
  · exact absurd ((leaves_operands _ .div (-4) 2).1 h) (by decide)
  · exact absurd ((leaves_operands _ .lt (-1) 1).1 h) (by decide)
  · exact absurd ((leaves_operands _ .shl 1 64).1 h) (by decide)

end TcfAgent.Vm
