import TcfAgent.Services.DwarfFrameExpr
import TcfAgent.Lib.Fallible

/-!
# The two evaluators of DWARF expressions

The operations that `add_dwarf_expression_commands` and `evaluate_expression` both know, and
what they mean, as an `Action` on a stack of words. The virtual machine does the action of
an operation; the commands that the operation is translated to do it as well.

Main results:

* `evaluateLoop_ops`     — the virtual machine does what the operations mean;
* `addLoop_ops`          — the operations are translated one after another;
* `runCommands_compile`  — the commands do what the operations mean;
* `evaluators_agree`     — the two end with the same value, or both fail.
-/

namespace TcfAgent.DwarfFrame

open TcfAgent.Lib TcfAgent.Location TcfAgent.Dwarf TcfAgent.Vm

/-! ## Operations -/

/-- A LEB128 number, as its bytes. -/
structure Leb where
  raw : List UInt8
  ends : Leb128.Ends raw

inductive BinOp where
  | and | minus | or | plus | ge | gt | le | lt | shl
deriving DecidableEq, Repr

/-- An operation that both evaluators know, with its operands. `OP_addr` is not among them:
the virtual machine does not know it. -/
inductive FrameOp where
  | deref
  | derefSize (size : Fin 9)
  | const1 (signed : Bool) (b₀ : UInt8)
  | const2 (signed : Bool) (b₀ b₁ : UInt8)
  | const4 (signed : Bool) (b₀ b₁ b₂ b₃ : UInt8)
  | const8 (signed : Bool) (b₀ b₁ b₂ b₃ b₄ b₅ b₆ b₇ : UInt8)
  | constu (n : Leb)
  | consts (n : Leb)
  | lit (n : Fin 32)
  | binary (o : BinOp)
  | plusUconst (n : Leb)
  | breg (reg : Fin 32) (offs : Leb)
  | bregx (reg offs : Leb)
  | nop

def BinOp.opcode : BinOp → UInt8
  | .and => Op.and
  | .minus => Op.minus
  | .or => Op.or
  | .plus => Op.plus
  | .ge => Op.ge
  | .gt => Op.gt
  | .le => Op.le
  | .lt => Op.lt
  | .shl => Op.shl

def FrameOp.opcode : FrameOp → UInt8
  | .deref => Op.deref
  | .derefSize _ => Op.derefSize
  | .const1 signed _ => if signed then Op.const1s else Op.const1u
  | .const2 signed _ _ => if signed then Op.const2s else Op.const2u
  | .const4 signed _ _ _ _ => if signed then Op.const4s else Op.const4u
  | .const8 signed _ _ _ _ _ _ _ _ => if signed then Op.const8s else Op.const8u
  | .constu _ => Op.constu
  | .consts _ => Op.consts
  | .lit n => Op.lit0 + UInt8.ofNat n
  | .binary o => o.opcode
  | .plusUconst _ => Op.plusUconst
  | .breg reg _ => Op.breg0 + UInt8.ofNat reg
  | .bregx _ _ => Op.bregx
  | .nop => Op.nop

def FrameOp.operands : FrameOp → List UInt8
  | .derefSize size => [UInt8.ofNat size]
  | .const1 _ b₀ => [b₀]
  | .const2 _ b₀ b₁ => [b₀, b₁]
  | .const4 _ b₀ b₁ b₂ b₃ => [b₀, b₁, b₂, b₃]
  | .const8 _ b₀ b₁ b₂ b₃ b₄ b₅ b₆ b₇ => [b₀, b₁, b₂, b₃, b₄, b₅, b₆, b₇]
  | .constu n => n.raw
  | .consts n => n.raw
  | .plusUconst n => n.raw
  | .breg _ offs => offs.raw
  | .bregx reg offs => reg.raw ++ offs.raw
  | .deref | .lit _ | .binary _ | .nop => []

def FrameOp.bytes (o : FrameOp) : List UInt8 := o.opcode :: o.operands

/-! ## Meaning -/

/-- Why an evaluation ends early: too few values, an unknown register, or what the target
answers. -/
inductive Fault where
  | stack
  | noRegister (errno : Nat)
  | target (errno : Nat)
deriving DecidableEq, Repr

/-- What an operation does to the stack. -/
inductive Action where
  | push (v : Word)
  | mem (size : Nat)
  | binary (o : BinOp)
  | plus (v : Word)
  | base (id : Nat) (offs : Word)
  | nop

variable {Reg : Type}

def word16 (big : Bool) (b₀ b₁ : UInt8) : BitVec 16 :=
  if big then b₀.toBitVec ++ b₁.toBitVec else b₁.toBitVec ++ b₀.toBitVec

def word32 (big : Bool) (b₀ b₁ b₂ b₃ : UInt8) : BitVec 32 :=
  if big then b₀.toBitVec ++ b₁.toBitVec ++ b₂.toBitVec ++ b₃.toBitVec
  else b₃.toBitVec ++ b₂.toBitVec ++ b₁.toBitVec ++ b₀.toBitVec

def word64 (big : Bool) (b₀ b₁ b₂ b₃ b₄ b₅ b₆ b₇ : UInt8) : BitVec 64 :=
  if big then
    b₀.toBitVec ++ b₁.toBitVec ++ b₂.toBitVec ++ b₃.toBitVec ++
      b₄.toBitVec ++ b₅.toBitVec ++ b₆.toBitVec ++ b₇.toBitVec
  else
    b₇.toBitVec ++ b₆.toBitVec ++ b₅.toBitVec ++ b₄.toBitVec ++
      b₃.toBitVec ++ b₂.toBitVec ++ b₁.toBitVec ++ b₀.toBitVec

/-- A constant fills a word of the stack. -/
def extend (signed : Bool) {w : Nat} (v : BitVec w) : Word :=
  if signed then v.signExtend 64 else v.setWidth 64

def FrameOp.action (sc : Scope Reg) : FrameOp → Action
  | .deref => .mem sc.addrSize
  | .derefSize size => .mem size
  | .const1 signed b₀ => .push (extend signed b₀.toBitVec)
  | .const2 signed b₀ b₁ => .push (extend signed (word16 sc.bigEndian b₀ b₁))
  | .const4 signed b₀ b₁ b₂ b₃ => .push (extend signed (word32 sc.bigEndian b₀ b₁ b₂ b₃))
  | .const8 _ b₀ b₁ b₂ b₃ b₄ b₅ b₆ b₇ =>
    .push (word64 sc.bigEndian b₀ b₁ b₂ b₃ b₄ b₅ b₆ b₇)
  | .constu n => .push (ulebWord 64 n.raw)
  | .consts n => .push (slebWord 64 n.raw)
  | .lit n => .push (BitVec.ofNat 64 n)
  | .binary o => .binary o
  | .plusUconst n => .plus (ulebWord 64 n.raw)
  | .breg reg offs => .base reg (slebWord 64 offs.raw)
  | .bregx reg offs => .base (ulebWord 32 reg.raw).toNat (slebWord 64 offs.raw)
  | .nop => .nop

def BinOp.apply (t : Target Reg) : BinOp → Word → Word → Word
  | .and, a, b => a &&& b
  | .minus, a, b => a - b
  | .or, a, b => a ||| b
  | .plus, a, b => a + b
  | .ge, a, b => flag (b ≤ a)
  | .gt, a, b => flag (b < a)
  | .le, a, b => flag (a ≤ b)
  | .lt, a, b => flag (a < b)
  | .shl, a, b => t.shl a b

def Action.run (t : Target Reg) (sc : Scope Reg) : Action → List Word → Except Fault (List Word)
  | .push v, stk => .ok (v :: stk)
  | .mem size, addr :: stk =>
    match t.contextReadMem addr size with
    | .ok buf => .ok (bufWord sc.bigEndian buf.toList :: stk)
    | .error errno => .error (.target errno)
  | .binary o, b :: a :: stk => .ok (o.apply t a b :: stk)
  | .plus v, a :: stk => .ok ((a + v) :: stk)
  | .base id offs, stk =>
    match sc.getRegById id with
    | .ok reg =>
      match t.readRegValue reg with
      | .ok v => .ok ((v + offs) :: stk)
      | .error errno => .error (.target errno)
    | .error errno => .error (.noRegister errno)
  | .nop, stk => .ok stk
  | _, _ => .error .stack

def actions (sc : Scope Reg) (ops : List FrameOp) : List Action := ops.map fun o => o.action sc

/-- Actions one after another. -/
def runActions (t : Target Reg) (sc : Scope Reg) :
    List Action → List Word → Except Fault (List Word)
  | [], stk => .ok stk
  | a :: as, stk => a.run t sc stk >>= runActions t sc as

/-! ## Words -/

/-- Two words that are put side by side by shifting the first one. -/
theorem shift_append {v w : Nat} (x : BitVec v) (y : BitVec w) :
    (x.setWidth (v + w) <<< w) ||| y.setWidth (v + w) = x ++ y := by
  ext i hi
  simp only [BitVec.getElem_or, BitVec.getElem_shiftLeft, BitVec.getElem_setWidth,
    BitVec.getElem_append]
  by_cases h : i < w
  · simp [h]
  · have hAbove : w ≤ i := Nat.le_of_not_lt h
    simp [h, BitVec.getLsbD_of_ge y i hAbove, BitVec.getLsbD_eq_getElem (show i - w < v by omega)]

theorem shift_append_swap {w : Nat} (x y : BitVec w) :
    x.setWidth (w + w) ||| (y.setWidth (w + w) <<< w) = y ++ x := by
  rw [BitVec.or_comm, shift_append]

theorem append_four (x : BitVec 32) (a b c d : BitVec 8) :
    x ++ (a ++ b ++ c ++ d) = x ++ a ++ b ++ c ++ d := by
  have h₁ : x ++ (a ++ b ++ c ++ d) = x ++ (a ++ b ++ c) ++ d :=
    (@BitVec.append_assoc 32 24 8 x (a ++ b ++ c) d).symm
  have h₂ : x ++ (a ++ b ++ c) = x ++ (a ++ b) ++ c :=
    (@BitVec.append_assoc 32 16 8 x (a ++ b) c).symm
  have h₃ : x ++ (a ++ b) = x ++ a ++ b := (@BitVec.append_assoc 32 8 8 x a b).symm
  rw [h₁, h₂, h₃]

theorem reads_readU1 (b : UInt8) : Reads readU1 [b] b := reads_byte _ b

theorem word16_eq (bigEndian : Bool) (b₀ b₁ : UInt8) :
    word16 bigEndian b₀ b₁ =
      if bigEndian then (b₀.toBitVec.setWidth 16 <<< 8) ||| b₁.toBitVec.setWidth 16
      else b₀.toBitVec.setWidth 16 ||| (b₁.toBitVec.setWidth 16 <<< 8) := by
  unfold word16
  split
  · exact (shift_append b₀.toBitVec b₁.toBitVec).symm
  · exact (shift_append_swap b₀.toBitVec b₁.toBitVec).symm

theorem reads_readU2 (m : Machine Reg) (b₀ b₁ : UInt8) :
    Reads (readU2 m) [b₀, b₁] (word16 m.bigEndian b₀ b₁) := by
  rw [word16_eq]
  show Reads _ ([b₀] ++ [b₁]) _
  exact (reads_readU1 b₀).bind ((reads_readU1 b₁).map _)

theorem reads_readU4 (m : Machine Reg) (b₀ b₁ b₂ b₃ : UInt8) :
    Reads (readU4 m) [b₀, b₁, b₂, b₃] (word32 m.bigEndian b₀ b₁ b₂ b₃) := by
  have hWord : word32 m.bigEndian b₀ b₁ b₂ b₃ =
      if m.bigEndian then
        ((word16 m.bigEndian b₀ b₁).setWidth 32 <<< 16) ||| (word16 m.bigEndian b₂ b₃).setWidth 32
      else
        (word16 m.bigEndian b₀ b₁).setWidth 32 |||
          ((word16 m.bigEndian b₂ b₃).setWidth 32 <<< 16) := by
    unfold word32 word16
    split
    · rw [shift_append (b₀.toBitVec ++ b₁.toBitVec) (b₂.toBitVec ++ b₃.toBitVec)]
      exact BitVec.append_assoc
    · rw [shift_append_swap (b₁.toBitVec ++ b₀.toBitVec) (b₃.toBitVec ++ b₂.toBitVec)]
      exact BitVec.append_assoc
  rw [hWord]
  show Reads _ ([b₀, b₁] ++ [b₂, b₃]) _
  exact (reads_readU2 m b₀ b₁).bind ((reads_readU2 m b₂ b₃).map _)

theorem reads_readU8 (m : Machine Reg) (b₀ b₁ b₂ b₃ b₄ b₅ b₆ b₇ : UInt8) :
    Reads (readU8 m) [b₀, b₁, b₂, b₃, b₄, b₅, b₆, b₇]
      (word64 m.bigEndian b₀ b₁ b₂ b₃ b₄ b₅ b₆ b₇) := by
  have hWord : word64 m.bigEndian b₀ b₁ b₂ b₃ b₄ b₅ b₆ b₇ =
      if m.bigEndian then
        ((word32 m.bigEndian b₀ b₁ b₂ b₃).setWidth 64 <<< 32) |||
          (word32 m.bigEndian b₄ b₅ b₆ b₇).setWidth 64
      else
        (word32 m.bigEndian b₀ b₁ b₂ b₃).setWidth 64 |||
          ((word32 m.bigEndian b₄ b₅ b₆ b₇).setWidth 64 <<< 32) := by
    unfold word64 word32
    split
    · rw [shift_append (b₀.toBitVec ++ b₁.toBitVec ++ b₂.toBitVec ++ b₃.toBitVec)
        (b₄.toBitVec ++ b₅.toBitVec ++ b₆.toBitVec ++ b₇.toBitVec)]
      exact (append_four _ _ _ _ _).symm
    · rw [shift_append_swap (b₃.toBitVec ++ b₂.toBitVec ++ b₁.toBitVec ++ b₀.toBitVec)
        (b₇.toBitVec ++ b₆.toBitVec ++ b₅.toBitVec ++ b₄.toBitVec)]
      exact (append_four _ _ _ _ _).symm
  rw [hWord]
  show Reads _ ([b₀, b₁, b₂, b₃] ++ [b₄, b₅, b₆, b₇]) _
  exact (reads_readU4 m b₀ b₁ b₂ b₃).bind ((reads_readU4 m b₄ b₅ b₆ b₇).map _)

/-! ## The virtual machine -/

/-- What the virtual machine raises. -/
def vmFailure : Fault → Failure
  | .stack => invStack
  | .noRegister errno => exception errno
  | .target errno => exception errno

def values (s : Vm.State) : List Word := s.stk.map Cell.value

/-- The virtual machine ends as the action does, and then goes on at `code`. -/
def Does (code : Cursor) (act : Except Fault (List Word)) (res : Except Failure Vm.State) :
    Prop :=
  match act with
  | .ok stk => ∃ s', res = .ok s' ∧ values s' = stk ∧ s'.code = code
  | .error f => res = .error (vmFailure f)

variable {m : Machine Reg} {op : UInt8} {s : Vm.State}

theorem does_constant {read : Reader Failure Word}
    {type : TypeClass} (hOp : constant m op = some (read, type)) {bytes after : List UInt8}
    {v : Word} (hRead : Reads read bytes v) (hRest : s.code.rest = bytes ++ after) :
    Does (s.code.skip bytes.length) ((Action.push v).run m.toTarget m.toScope (values s))
      (evaluateOp m op s) := by
  refine ⟨{ stk := ⟨v, type⟩ :: s.stk, code := s.code.skip bytes.length }, ?_, rfl, rfl⟩
  unfold evaluateOp
  rw [hOp]
  show (read s.code >>= fun p => _) = _
  rw [hRead _ _ hRest]
  rfl

theorem does_binary (m : Machine Reg) (o : BinOp) (s : Vm.State) :
    Does s.code ((Action.binary o).run m.toTarget m.toScope (values s))
      (evaluateOp m o.opcode s) := by
  obtain ⟨stk, code⟩ := s
  match stk with
  | [] => cases o <;> rfl
  | [a] => cases o <;> rfl
  | b :: a :: stk => cases o <;> exact ⟨_, rfl, rfl, rfl⟩

theorem does_mem {size : Nat} {code : Cursor}
    (hOp : evaluateOp m op s = do
      let (a, stk) ← check1 s
      let v ← readMemory m a.value size
      return { stk := ⟨v, .cardinal⟩ :: stk, code }) :
    Does code ((Action.mem size).run m.toTarget m.toScope (values s)) (evaluateOp m op s) := by
  rw [hOp]
  obtain ⟨stk, pc⟩ := s
  cases stk with
  | nil => rfl
  | cons a stk =>
    simp only [values, List.map_cons, Action.run, check1, bind, Except.bind, readMemory,
      Target.readMem]
    cases h : m.contextReadMem a.value size with
    | error errno => rfl
    | ok buf => exact ⟨_, rfl, rfl, rfl⟩

variable {after : List UInt8}

theorem does_base {id : Nat} {code : Cursor}
    (hOp : evaluateOp m op s = baseRegister m id { s with code }) {offs : Leb}
    (hRest : code.rest = offs.raw ++ after) :
    Does (code.skip offs.raw.length)
      ((Action.base id (slebWord 64 offs.raw)).run m.toTarget m.toScope (values s))
      (evaluateOp m op s) := by
  have hRead : readI8leb128 code = .ok (slebWord 64 offs.raw, code.skip offs.raw.length) :=
    reads_sleb _ 64 offs.ends _ _ hRest
  rw [hOp]
  simp only [baseRegister, Action.run]
  cases hReg : m.getRegById id with
  | error errno => rfl
  | ok reg =>
    cases hValue : m.readRegValue reg with
    | error errno =>
      simp only [hValue]
      show (orException (m.readRegValue reg) >>= fun v => _) = _
      rw [hValue]
      rfl
    | ok v =>
      simp only [hValue]
      refine ⟨{ stk := ⟨v + slebWord 64 offs.raw, .cardinal⟩ :: s.stk, code := _ }, ?_, rfl, rfl⟩
      show (orException (m.readRegValue reg) >>= fun v => readI8leb128 code >>= fun p => _) = _
      rw [hValue, hRead]
      rfl

theorem evaluateOp_breg (m : Machine Reg) (n : Fin 32) (s : Vm.State) :
    evaluateOp m (Op.breg0 + UInt8.ofNat n) s = baseRegister m n s := by
  fin_cases n <;> rfl

theorem constant_lit (m : Machine Reg) (n : Fin 32) :
    constant m (Op.lit0 + UInt8.ofNat n) = some (pure (BitVec.ofNat 64 n), .cardinal) := by
  fin_cases n <;> rfl

/-- The virtual machine does what the operation means. -/
theorem evaluateOp_does (m : Machine Reg) (o : FrameOp)
    (hRest : s.code.rest = o.operands ++ after) :
    Does (s.code.skip o.operands.length)
      ((o.action m.toScope).run m.toTarget m.toScope (values s))
      (evaluateOp m o.opcode s) := by
  cases o with
  | deref => exact does_mem rfl
  | derefSize size =>
    have hRead := reads_readU1 (UInt8.ofNat size) _ _ hRest
    have hSize : (UInt8.ofNat size).toNat = size := by
      have := size.isLt
      simp
      omega
    refine does_mem ?_
    show (check1 s >>= fun p => readU1 s.code >>= fun q => _) = _
    rw [hRead]
    show (check1 s >>= fun p => readMemory m p.1.value (UInt8.ofNat size).toNat >>= fun v => _) = _
    rw [hSize]
    rfl
  | const1 signed b₀ =>
    have hOp : constant m (if signed then Op.const1s else Op.const1u) =
        some (do return extend signed (← readU1).toBitVec,
          if signed then .integer else .cardinal) := by
      cases signed <;> rfl
    exact does_constant hOp ((reads_readU1 b₀).map _) hRest
  | const2 signed b₀ b₁ =>
    have hOp : constant m (if signed then Op.const2s else Op.const2u) =
        some (do return extend signed (← readU2 m), if signed then .integer else .cardinal) := by
      cases signed <;> rfl
    exact does_constant hOp ((reads_readU2 m b₀ b₁).map _) hRest
  | const4 signed b₀ b₁ b₂ b₃ =>
    have hOp : constant m (if signed then Op.const4s else Op.const4u) =
        some (do return extend signed (← readU4 m), if signed then .integer else .cardinal) := by
      cases signed <;> rfl
    exact does_constant hOp ((reads_readU4 m b₀ b₁ b₂ b₃).map _) hRest
  | const8 signed b₀ b₁ b₂ b₃ b₄ b₅ b₆ b₇ =>
    have hOp : constant m (if signed then Op.const8s else Op.const8u) =
        some (readU8 m, if signed then .integer else .cardinal) := by
      cases signed <;> rfl
    exact does_constant hOp (reads_readU8 m b₀ b₁ b₂ b₃ b₄ b₅ b₆ b₇) hRest
  | constu n => exact does_constant (by rfl) (reads_uleb _ 64 n.ends) hRest
  | consts n => exact does_constant (by rfl) (reads_sleb _ 64 n.ends) hRest
  | lit n => exact does_constant (constant_lit m n) (Reads.pure _) hRest
  | binary o => exact does_binary m o s
  | plusUconst n =>
    have hRead : readU8leb128 s.code = _ := reads_uleb _ 64 n.ends _ _ hRest
    obtain ⟨stk, code⟩ := s
    cases stk with
    | nil => rfl
    | cons a stk =>
      refine ⟨{ stk := ⟨a.value + ulebWord 64 n.raw, a.type⟩ :: stk, code := _ }, ?_, rfl, rfl⟩
      show (readU8leb128 code >>= fun p => _) = _
      rw [hRead]
      rfl
  | breg reg offs => exact does_base (evaluateOp_breg m reg s) hRest
  -- the register is an operand, the offset follows it
  | bregx reg offs =>
    rw [FrameOp.operands, List.append_assoc] at hRest
    have hRead : readU4leb128 s.code = _ := reads_uleb _ 32 reg.ends _ _ hRest
    have hOp : evaluateOp m Op.bregx s =
        baseRegister m (ulebWord 32 reg.raw).toNat
          { s with code := s.code.skip reg.raw.length } := by
      show (readU4leb128 s.code >>= fun p => _) = _
      rw [hRead]
      rfl
    have hOffs : (s.code.skip reg.raw.length).rest = offs.raw ++ after := by
      rw [Cursor.rest_skip, hRest, List.drop_left]
    have h := does_base hOp hOffs
    rw [Cursor.skip_skip, ← List.length_append] at h
    exact h
  | nop => exact ⟨s, rfl, rfl, rfl⟩

def codeOf (ops : List FrameOp) : List UInt8 := ops.flatMap FrameOp.bytes

theorem length_le_codeOf (ops : List FrameOp) : ops.length ≤ (codeOf ops).length := by
  induction ops with
  | nil => exact Nat.zero_le _
  | cons o ops ih =>
    simp only [codeOf, List.flatMap_cons, List.length_append, List.length_cons, FrameOp.bytes]
      at ih ⊢
    omega

theorem evaluateLoop_end (m : Machine Reg) (fuel : Nat) (h : s.code.rest = []) :
    evaluateLoop m fuel s = some (.ok s) := by
  have hPos : s.code.data.length ≤ s.code.pos := List.drop_eq_nil_iff.1 h
  cases fuel with
  | zero => simp [evaluateLoop, Nat.not_lt.2 hPos]
  | succ fuel => simp [evaluateLoop, List.getElem?_eq_none hPos]

/-- One operation of the loop. -/
theorem evaluateLoop_succ (m : Machine Reg) (fuel : Nat)
    (hByte : s.code.data[s.code.pos]? = some op) :
    evaluateLoop m (fuel + 1) s =
      match evaluateOp m op { s with code := s.code.skip 1 } with
      | .error f => some (.error f)
      | .ok s' => evaluateLoop m fuel s' := by
  rw [evaluateLoop]
  generalize s.code.data[s.code.pos]? = next at hByte
  subst hByte
  rfl

variable {fuel : Nat}

/-- The virtual machine does what the operations mean. -/
theorem evaluateLoop_ops (m : Machine Reg) (ops : List FrameOp)
    (hFuel : ops.length ≤ fuel) (hRest : s.code.rest = codeOf ops) :
    ∃ res, evaluateLoop m fuel s = some res ∧
      Does (s.code.skip (codeOf ops).length)
        (runActions m.toTarget m.toScope (actions m.toScope ops) (values s)) res := by
  induction ops generalizing fuel s with
  | nil => exact ⟨.ok s, evaluateLoop_end m fuel hRest, s, rfl, rfl, rfl⟩
  | cons o ops ih =>
    obtain ⟨fuel, rfl⟩ : ∃ n, fuel = n + 1 := Nat.exists_eq_add_one.2 (by simp at hFuel; omega)
    have hByte : s.code.data[s.code.pos]? = some o.opcode := by
      have : s.code.rest[0]? = some o.opcode := by rw [hRest]; rfl
      simpa [Cursor.rest] using this
    have hOperands : (s.code.skip 1).rest = o.operands ++ codeOf ops := by
      rw [Cursor.rest_skip, hRest]
      rfl
    have hStep := evaluateOp_does m o (s := { s with code := s.code.skip 1 }) hOperands
    have hActions : runActions m.toTarget m.toScope (actions m.toScope (o :: ops)) (values s) =
        (o.action m.toScope).run m.toTarget m.toScope (values s) >>=
          runActions m.toTarget m.toScope (actions m.toScope ops) := rfl
    rw [evaluateLoop_succ m fuel hByte, hActions]
    change Does _ ((o.action m.toScope).run m.toTarget m.toScope (values s)) _ at hStep
    cases hAct : (o.action m.toScope).run m.toTarget m.toScope (values s) with
    | error f =>
      rw [hAct] at hStep
      have hStep : evaluateOp m o.opcode _ = .error (vmFailure f) := hStep
      rw [hStep]
      exact ⟨_, rfl, rfl⟩
    | ok stk =>
      rw [hAct] at hStep
      obtain ⟨s', hEq, rfl, hCode⟩ := hStep
      rw [hEq]
      have hRest' : s'.code.rest = codeOf ops := by
        rw [hCode, Cursor.rest_skip, hOperands, List.drop_left]
      obtain ⟨res, hRes, hDoes⟩ := ih (by simpa using hFuel) hRest'
      refine ⟨res, hRes, ?_⟩
      have hLength : s'.code.skip (codeOf ops).length =
          s.code.skip (codeOf (o :: ops)).length := by
        rw [hCode, Cursor.skip_skip, Cursor.skip_skip]
        congr 1
        simp [codeOf, FrameOp.bytes]
        omega
      rw [← hLength]
      exact hDoes

/-! ## The translation -/

def BinOp.command : BinOp → Command Reg
  | .and => .and
  | .minus => .sub
  | .or => .or
  | .plus => .add
  | .ge => .ge
  | .gt => .gt
  | .le => .le
  | .lt => .lt
  | .shl => .shl

/-- The commands for an action; `errno` when the register is not known. -/
def Action.commands (sc : Scope Reg) : Action → Except Nat (List (Command Reg))
  | .push v => .ok [.number v]
  | .mem size => .ok [.rdMem size sc.bigEndian]
  | .binary o => .ok [o.command]
  | .plus v => .ok [.number v, .add]
  | .base id offs =>
    (sc.getRegById id).map fun reg =>
      if offs = 0 then [.rdReg reg] else [.rdReg reg, .number offs, .add]
  | .nop => .ok []

def compile (sc : Scope Reg) : List Action → Except Nat (List (Command Reg))
  | [] => .ok []
  | a :: as => do
    let cmds ← a.commands sc
    let cmds' ← compile sc as
    return cmds ++ cmds'

def noRegister (errno : Nat) : Failure := strException errno "Cannot read DWARF frame info"

/-- A translation that has come to `c`. -/
def translated (c : Cursor) (cmds : Except Nat (List (Command Reg))) :
    Except Failure (List (Command Reg) × Cursor) :=
  match cmds with
  | .ok cmds => .ok (cmds, c)
  | .error errno => .error (noRegister errno)

theorem reads_dioCheck {α : Type} {p : Reader Failure α} {bytes : List UInt8} {a : α}
    (h : Reads p bytes a) (hBytes : 0 < bytes.length) :
    Reads (dioCheck bytes.length >>= fun _ => p) bytes a := by
  intro c after hRest
  have hData : ¬ c.data.length < c.pos + bytes.length := by
    have hLength : (c.data.drop c.pos).length = (bytes ++ after).length := congrArg _ hRest
    rw [List.length_drop, List.length_append] at hLength
    omega
  show (dioCheck bytes.length c >>= fun r => p r.2) = _
  simp only [dioCheck, hData, ↓reduceIte]
  exact h c after hRest

theorem reads_dioReadU1 (b : UInt8) : Reads dioReadU1 [b] b := reads_byte _ b

variable (r : Rules Reg)

theorem reads_dioReadU2 (b₀ b₁ : UInt8) :
    Reads (dioReadU2 r) [b₀, b₁] (word16 r.bigEndian b₀ b₁) := by
  rw [word16_eq]
  refine reads_dioCheck ?_ (Nat.succ_pos _)
  show Reads _ ([b₀] ++ [b₁]) _
  exact (reads_dioReadU1 b₀).bind ((reads_dioReadU1 b₁).map _)

theorem reads_dioReadU4 (b₀ b₁ b₂ b₃ : UInt8) :
    Reads (dioReadU4 r) [b₀, b₁, b₂, b₃] (word32 r.bigEndian b₀ b₁ b₂ b₃) := by
  refine reads_dioCheck ?_ (Nat.succ_pos _)
  show Reads _ ([b₀] ++ ([b₁] ++ ([b₂] ++ [b₃]))) _
  exact (reads_dioReadU1 b₀).bind ((reads_dioReadU1 b₁).bind
    ((reads_dioReadU1 b₂).bind ((reads_dioReadU1 b₃).map _)))

theorem reads_dioReadU8 (b₀ b₁ b₂ b₃ b₄ b₅ b₆ b₇ : UInt8) :
    Reads (dioReadU8 r) [b₀, b₁, b₂, b₃, b₄, b₅, b₆, b₇]
      (word64 r.bigEndian b₀ b₁ b₂ b₃ b₄ b₅ b₆ b₇) := by
  refine reads_dioCheck ?_ (Nat.succ_pos _)
  show Reads _ ([b₀] ++ ([b₁] ++ ([b₂] ++ ([b₃] ++ ([b₄] ++ ([b₅] ++ ([b₆] ++ [b₇]))))))) _
  exact (reads_dioReadU1 b₀).bind ((reads_dioReadU1 b₁).bind ((reads_dioReadU1 b₂).bind
    ((reads_dioReadU1 b₃).bind ((reads_dioReadU1 b₄).bind ((reads_dioReadU1 b₅).bind
      ((reads_dioReadU1 b₆).bind ((reads_dioReadU1 b₇).map _)))))))

variable {c : Cursor}

theorem addCommands_constant {r : Rules Reg} {read : Reader Failure Word}
    (hOp : constantOperand r op = some read) {bytes after : List UInt8} {v : Word}
    (hRead : Reads read bytes v) (hRest : c.rest = bytes ++ after) :
    addCommands r op c = translated (c.skip bytes.length) ((Action.push v).commands r.toScope) := by
  unfold addCommands
  rw [hOp]
  exact hRead.map (fun v => [Command.number v]) c after hRest

theorem baseRegisterCommands_eq (id : Nat) (offs : Word) (c : Cursor) :
    (baseRegisterCommands r id offs : Reader Failure (List (Command Reg))) c =
      translated c ((Action.base id offs).commands r.toScope) := by
  simp only [baseRegisterCommands, readRegCommand, Action.commands]
  cases r.getRegById id with
  | error errno => rfl
  | ok reg => rfl

theorem addCommands_breg (n : Fin 32) :
    addCommands r (Op.breg0 + UInt8.ofNat n) =
      dioReadS8LEB128 >>= fun offs => liftM (baseRegisterCommands r n offs) := by
  fin_cases n <;> rfl

theorem constantOperand_lit (n : Fin 32) :
    constantOperand r (Op.lit0 + UInt8.ofNat n) = some (pure (BitVec.ofNat 64 n)) := by
  fin_cases n <;> rfl

/-- An operation is translated to the commands for its action. -/
theorem addCommands_eq (o : FrameOp)
    (hRest : c.rest = o.operands ++ after) :
    addCommands r o.opcode c =
      translated (c.skip o.operands.length) ((o.action r.toScope).commands r.toScope) := by
  cases o with
  | deref => rfl
  | derefSize size =>
    have hRead := reads_dioReadU1 (UInt8.ofNat size) _ _ hRest
    have hSize : (UInt8.ofNat size).toNat = size := by
      have := size.isLt
      simp
      omega
    show (dioReadU1 c >>= fun p => _) = _
    rw [hRead]
    show Except.ok ([Command.rdMem (UInt8.ofNat size).toNat r.bigEndian], _) = _
    rw [hSize]
    rfl
  | const1 signed b₀ =>
    have hOp : constantOperand r (if signed then Op.const1s else Op.const1u) =
        some (do return extend signed (← dioReadU1).toBitVec) := by
      cases signed <;> rfl
    exact addCommands_constant hOp ((reads_dioReadU1 b₀).map _) hRest
  | const2 signed b₀ b₁ =>
    have hOp : constantOperand r (if signed then Op.const2s else Op.const2u) =
        some (do return extend signed (← dioReadU2 r)) := by
      cases signed <;> rfl
    exact addCommands_constant hOp ((reads_dioReadU2 r b₀ b₁).map _) hRest
  | const4 signed b₀ b₁ b₂ b₃ =>
    have hOp : constantOperand r (if signed then Op.const4s else Op.const4u) =
        some (do return extend signed (← dioReadU4 r)) := by
      cases signed <;> rfl
    exact addCommands_constant hOp ((reads_dioReadU4 r b₀ b₁ b₂ b₃).map _) hRest
  | const8 signed b₀ b₁ b₂ b₃ b₄ b₅ b₆ b₇ =>
    have hOp : constantOperand r (if signed then Op.const8s else Op.const8u) =
        some (dioReadU8 r) := by
      cases signed <;> rfl
    exact addCommands_constant hOp (reads_dioReadU8 r b₀ b₁ b₂ b₃ b₄ b₅ b₆ b₇) hRest
  | constu n => exact addCommands_constant (by rfl) (reads_uleb _ 64 n.ends) hRest
  | consts n => exact addCommands_constant (by rfl) (reads_sleb _ 64 n.ends) hRest
  | lit n => exact addCommands_constant (constantOperand_lit r n) (Reads.pure _) hRest
  | binary o => cases o <;> rfl
  | plusUconst n =>
    have hRead : dioReadU8LEB128 c = _ := reads_uleb _ 64 n.ends _ _ hRest
    show (dioReadU8LEB128 c >>= fun p => _) = _
    rw [hRead]
    rfl
  | breg reg offs =>
    have hRead : dioReadS8LEB128 c = _ := reads_sleb _ 64 offs.ends _ _ hRest
    rw [FrameOp.opcode, addCommands_breg]
    show (dioReadS8LEB128 c >>= fun p => _) = _
    rw [hRead]
    exact baseRegisterCommands_eq r reg _ _
  | bregx reg offs =>
    rw [FrameOp.operands, List.append_assoc] at hRest
    have hReg : dioReadULEB128 c = _ := reads_uleb _ 32 reg.ends _ _ hRest
    have hOffs : (c.skip reg.raw.length).rest = offs.raw ++ after := by
      rw [Cursor.rest_skip, hRest, List.drop_left]
    have hRead : dioReadS8LEB128 (c.skip reg.raw.length) = _ := reads_sleb _ 64 offs.ends _ _ hOffs
    show (dioReadULEB128 c >>= fun p => dioReadS8LEB128 p.2 >>= fun q => _) = _
    rw [hReg]
    show (dioReadS8LEB128 (c.skip reg.raw.length) >>= fun q => _) = _
    rw [hRead, FrameOp.operands, List.length_append, ← Cursor.skip_skip]
    exact baseRegisterCommands_eq r _ _ _
  | nop => rfl

/-- The operations are translated one after another. -/
theorem addLoop_ops (ops : List FrameOp)
    (hFuel : ops.length ≤ fuel)
    (hRest : c.rest = codeOf ops ++ after) :
    addLoop r (c.pos + (codeOf ops).length) fuel c =
      translated (c.skip (codeOf ops).length) (compile r.toScope (actions r.toScope ops)) := by
  induction ops generalizing fuel c with
  | nil =>
    have hStop : ¬ c.pos < c.pos + (codeOf []).length := by simp [codeOf]
    cases fuel with
    | zero =>
      show (if c.pos < c.pos + (codeOf []).length then
        throw eof >>= fun _ => pure [] else pure [] : Reader Failure (List (Command Reg))) c = _
      rw [if_neg hStop]
      rfl
    | succ fuel =>
      show (if c.pos < _ then _ else pure [] : Reader Failure (List (Command Reg))) c = _
      rw [if_neg hStop]
      rfl
  | cons o ops ih =>
    obtain ⟨fuel, rfl⟩ : ∃ n, fuel = n + 1 := Nat.exists_eq_add_one.2 (by simp at hFuel; omega)
    have hCode : codeOf (o :: ops) = o.opcode :: (o.operands ++ codeOf ops) := rfl
    have hStop : c.pos < c.pos + (codeOf (o :: ops)).length := by simp [hCode]
    have hByte : dioReadU1 c = .ok (o.opcode, c.skip 1) := by
      refine reads_dioReadU1 o.opcode c (o.operands ++ codeOf ops ++ after) ?_
      rw [hRest, hCode]
      rfl
    have hOperands : (c.skip 1).rest = o.operands ++ (codeOf ops ++ after) := by
      rw [Cursor.rest_skip, hRest, hCode]
      simp
    have hOp := addCommands_eq r o hOperands
    show (if c.pos < _ then _ else pure [] : Reader Failure (List (Command Reg))) c = _
    rw [if_pos hStop]
    show (dioReadU1 c >>= fun p => addCommands r p.1 p.2 >>= fun q => _) = _
    rw [hByte]
    show (addCommands r o.opcode (c.skip 1) >>= fun q =>
      addLoop r (c.pos + (codeOf (o :: ops)).length) fuel q.2 >>= fun p => _) = _
    rw [hOp]
    have hCompile : compile r.toScope (actions r.toScope (o :: ops)) = do
        let cmds ← (o.action r.toScope).commands r.toScope
        let cmds' ← compile r.toScope (actions r.toScope ops)
        return cmds ++ cmds' := rfl
    rw [hCompile]
    cases (o.action r.toScope).commands r.toScope with
    | error errno => rfl
    | ok cmds =>
      have hRest' : ((c.skip 1).skip o.operands.length).rest = codeOf ops ++ after := by
        rw [Cursor.rest_skip, hOperands, List.drop_left]
      have hLoop := ih (by simpa using hFuel) hRest'
      have hEnd : ((c.skip 1).skip o.operands.length).pos + (codeOf ops).length =
          c.pos + (codeOf (o :: ops)).length := by
        simp [hCode, Cursor.skip]
        omega
      have hSkip : ((c.skip 1).skip o.operands.length).skip (codeOf ops).length =
          c.skip (codeOf (o :: ops)).length := by
        rw [Cursor.skip_skip, Cursor.skip_skip, hCode]
        congr 1
        simp
        omega
      rw [hEnd, hSkip] at hLoop
      show (addLoop r (c.pos + (codeOf (o :: ops)).length) fuel
        ((c.skip 1).skip o.operands.length) >>= fun p => _) = _
      rw [hLoop]
      cases compile r.toScope (actions r.toScope ops) with
      | error errno => rfl
      | ok cmds' => rfl

/-- `add_dwarf_expression_commands` translates the operations, wherever they are in the
section. -/
theorem addDwarfExpressionCommands_ops (ops : List FrameOp)
    (before after : List UInt8) :
    addDwarfExpressionCommands r (before ++ codeOf ops ++ after) before.length
        (codeOf ops).length =
      (compile r.toScope (actions r.toScope ops)).mapError noRegister := by
  have hOffs : ¬ (before ++ codeOf ops ++ after).length < before.length := by simp
  have hFuel : ops.length ≤ (before ++ codeOf ops ++ after).length := by
    have := length_le_codeOf ops
    simp
    omega
  have hRest : (Cursor.mk (before ++ codeOf ops ++ after) before.length).rest =
      codeOf ops ++ after := by
    simp [Cursor.rest, List.append_assoc]
  have hLoop := addLoop_ops r ops hFuel hRest
  unfold addDwarfExpressionCommands
  rw [if_neg hOffs]
  show (addLoop r (before.length + (codeOf ops).length) _ _ >>= fun p => _) = _
  rw [hLoop]
  cases compile r.toScope (actions r.toScope ops) with
  | error errno => rfl
  | ok cmds => rfl

/-! ## The commands -/

/-- What the evaluation of commands raises. The registers are known by then. -/
def commandFailure : Fault → Failure
  | .stack => locationExpressionError
  | .noRegister errno => noRegister errno
  | .target errno => exception errno

/-- The stack of the evaluation of commands. -/
def onStack (s : Location.State) (act : Except Fault (List Word)) :
    Except Failure Location.State :=
  match act with
  | .ok stk => .ok { s with stk }
  | .error f => .error (commandFailure f)

/-- A value that is read from memory fits in a word. -/
def Action.Fits : Action → Prop
  | .mem size => size ≤ 8
  | _ => True

variable {sc : Scope Reg} {cmds : List (Command Reg)} {a : Action}

theorem action_fits (hAddr : sc.addrSize ≤ 8) (o : FrameOp) : (o.action sc).Fits := by
  cases o with
  | deref => exact hAddr
  | derefSize size => exact Nat.le_of_lt_succ size.isLt
  | _ => trivial

theorem commands_plain (hFits : a.Fits)
    (h : a.commands sc = .ok cmds) : ∀ cmd ∈ cmds, cmd.Plain := by
  cases a with
  | mem size =>
    cases h
    intro cmd hCmd
    obtain rfl := List.mem_singleton.1 hCmd
    exact hFits
  | base id offs =>
    obtain ⟨reg, -, rfl⟩ := Fallible.map_eq_ok h
    split <;> simp [Command.Plain]
  | binary o =>
    cases h
    cases o <;> simp [BinOp.command, Command.Plain]
  | _ =>
    cases h
    simp [Command.Plain]

/-- The commands for an action do it. -/
theorem runCommands_action (t : Target Reg) (hFits : a.Fits)
    (h : a.commands sc = .ok cmds) (s : Location.State) :
    t.runCommands cmds s = onStack s (a.run t sc s.stk) := by
  obtain ⟨stk, args, piece⟩ := s
  cases a with
  | push v =>
    cases h
    rfl
  | mem size =>
    have hSize : size ≤ 8 := hFits
    cases h
    cases stk with
    | nil => rfl
    | cons addr stk =>
      simp only [Target.runCommands, Target.command, hSize, ↓reduceIte, Target.readMem,
        Action.run]
      cases t.contextReadMem addr size with
      | error errno => rfl
      | ok buf => rfl
  | binary o =>
    cases h
    rcases stk with - | ⟨b, - | ⟨a, stk⟩⟩
    · cases o <;> rfl
    · cases o <;> rfl
    · cases o <;> rfl
  | plus v =>
    cases h
    cases stk with
    | nil => rfl
    | cons a stk => rfl
  | base id offs =>
    obtain ⟨reg, hReg, rfl⟩ := Fallible.map_eq_ok h
    simp only [Action.run, hReg]
    cases hValue : t.readRegValue reg with
    | error errno =>
      split <;> simp only [Target.runCommands, Target.command, hValue] <;> rfl
    | ok v =>
      split
      · rename_i hZero
        have hAdd : v + offs = v := by
          rw [hZero]
          exact BitVec.add_zero v
        simp only [Target.runCommands, Target.command, hValue, hAdd]
        rfl
      · simp only [Target.runCommands, Target.command, hValue]
        rfl
  | nop =>
    cases h
    rfl

variable {as : List Action}

/-- The commands for a sequence of actions do them. -/
theorem runCommands_compile (t : Target Reg)
    (hFits : ∀ a ∈ as, a.Fits) (h : compile sc as = .ok cmds)
    (s : Location.State) :
    t.runCommands cmds s = onStack s (runActions t sc as s.stk) := by
  induction as generalizing cmds s with
  | nil =>
    cases h
    rfl
  | cons a as ih =>
    obtain ⟨cmds₁, h₁, h⟩ := Fallible.bind_eq_ok h
    obtain ⟨cmds₂, h₂, h⟩ := Fallible.bind_eq_ok h
    cases h
    have hFirst : a.Fits := hFits a List.mem_cons_self
    rw [runCommands_append t (commands_plain hFirst h₁), runCommands_action t hFirst h₁]
    show _ = onStack s (a.run t sc s.stk >>= runActions t sc as)
    cases a.run t sc s.stk with
    | error f => rfl
    | ok stk => exact ih (fun a ha => hFits a (List.mem_cons_of_mem _ ha)) h₂ { s with stk }

variable {t : Target Reg} {errno : Nat}

/-- An action meets an unknown register exactly when it is not translated. -/
theorem run_noRegister {stk : List Word}
    (h : a.run t sc stk = .error (.noRegister errno)) :
    a.commands sc = .error errno := by
  cases a with
  | base id offs =>
    simp only [Action.run] at h
    simp only [Action.commands]
    cases hReg : sc.getRegById id with
    | error errno' =>
      rw [hReg] at h
      cases h
      rfl
    | ok reg =>
      rw [hReg] at h
      cases hValue : t.readRegValue reg with
      | error errno' =>
        simp only [hValue] at h
        cases h
      | ok v =>
        simp only [hValue] at h
        cases h
  | mem size =>
    cases stk with
    | nil => cases h
    | cons addr stk =>
      simp only [Action.run] at h
      split at h <;> cases h
  | binary o =>
    match stk, h with
    | [], h => cases h
    | [a], h => cases h
    | b :: a :: stk, h => cases h
  | plus v =>
    cases stk with
    | nil => cases h
    | cons a stk => cases h
  | push v => cases h
  | nop => cases h

theorem run_of_commands_error
    (h : a.commands sc = .error errno) (stk : List Word) :
    a.run t sc stk = .error (.noRegister errno) := by
  cases a with
  | base id offs =>
    simp only [Action.commands] at h
    simp only [Action.run]
    cases hReg : sc.getRegById id with
    | error errno' =>
      rw [hReg] at h
      cases h
      rfl
    | ok reg =>
      rw [hReg] at h
      cases h
  | _ => cases h

/-- The first unknown register of a sequence of actions is the one that is reported. -/
theorem runActions_noRegister
    {stk : List Word} (h : runActions t sc as stk = .error (.noRegister errno)) :
    compile sc as = .error errno := by
  induction as generalizing stk with
  | nil => cases h
  | cons a as ih =>
    change a.run t sc stk >>= runActions t sc as = _ at h
    cases hRun : a.run t sc stk with
    | error f =>
      rw [hRun] at h
      cases h
      rw [compile, run_noRegister hRun]
      rfl
    | ok stk' =>
      rw [hRun] at h
      have hRest : compile sc as = .error errno := ih h
      cases hCmds : a.commands sc with
      | error errno' =>
        rw [run_of_commands_error hCmds] at hRun
        cases hRun
      | ok cmds =>
        rw [compile, hCmds, hRest]
        rfl

theorem commands_of_compile
    (h : compile sc as = .ok cmds) : ∀ a ∈ as, ∃ cmds', a.commands sc = .ok cmds' := by
  induction as generalizing cmds with
  | nil => simp
  | cons a as ih =>
    obtain ⟨cmds₁, h₁, h⟩ := Fallible.bind_eq_ok h
    obtain ⟨cmds₂, h₂, -⟩ := Fallible.bind_eq_ok h
    rintro x (_ | ⟨_, hx⟩)
    · exact ⟨cmds₁, h₁⟩
    · exact ih h₂ x hx

/-- Actions that are not translated do not end well. -/
theorem runActions_of_compile_error (h : compile sc as = .error errno) (stk : List Word) :
    ∃ f, runActions t sc as stk = .error f := by
  induction as generalizing stk with
  | nil => cases h
  | cons a as ih =>
    show ∃ f, a.run t sc stk >>= runActions t sc as = .error f
    cases hRun : a.run t sc stk with
    | error f => exact ⟨f, rfl⟩
    | ok stk' =>
      have hRest : compile sc as = .error errno := by
        cases hCmds : a.commands sc with
        | error errno' =>
          rw [run_of_commands_error hCmds] at hRun
          cases hRun
        | ok cmds =>
          rw [compile, hCmds] at h
          cases hRest : compile sc as with
          | error errno' =>
            rw [hRest] at h
            exact h
          | ok cmds' =>
            rw [hRest] at h
            cases h
      exact ih hRest stk'

/-! ## The two evaluators -/

/-- The commands for an expression in a section, after those that push the values of the
stack that it starts with. -/
def evaluateCompiled (t : Target Reg) (r : Rules Reg) (initial : List Word) (data : List UInt8)
    (offs size : Nat) (args : List Word) : Except Failure Location.State := do
  let cmds ← addDwarfExpressionCommands r data offs size
  t.evaluateLocationExpression (initial.reverse.map .number ++ cmds) args

theorem evaluateCompiled_ops (t : Target Reg) (r : Rules Reg) (hAddr : r.addrSize ≤ 8)
    (initial : List Word) (ops : List FrameOp) (before after : List UInt8) (args : List Word) :
    evaluateCompiled t r initial (before ++ codeOf ops ++ after) before.length
        (codeOf ops).length args =
      match compile r.toScope (actions r.toScope ops) with
      | .error errno => .error (noRegister errno)
      | .ok _ => (onStack { stk := initial, args := args }
          (runActions t r.toScope (actions r.toScope ops) initial)).map addTwo := by
  unfold evaluateCompiled
  rw [addDwarfExpressionCommands_ops]
  cases hCmds : compile r.toScope (actions r.toScope ops) with
  | error errno => rfl
  | ok cmds =>
    have hFits : ∀ a ∈ actions r.toScope ops, a.Fits := by
      intro a ha
      obtain ⟨o, -, rfl⟩ := List.mem_map.1 ha
      exact action_fits hAddr o
    show t.evaluateLocationExpression _ args = _
    rw [Target.evaluateLocationExpression, runCommands_numbers, runCommands_compile t hFits hCmds]
    simp

/-- The register that an operation names. -/
def FrameOp.register : FrameOp → Option Nat
  | .breg reg _ => some reg
  | .bregx reg _ => some (ulebWord 32 reg.raw).toNat
  | _ => none

/-- The operation names a register that is not known. -/
def FrameOp.Unknown (sc : Scope Reg) (o : FrameOp) (errno : Nat) : Prop :=
  ∃ id, o.register = some id ∧ sc.getRegById id = .error errno

theorem unknown_iff (sc : Scope Reg) (o : FrameOp) (errno : Nat) :
    o.Unknown sc errno ↔ (o.action sc).commands sc = .error errno := by
  have hBase (id : Nat) (offs : Word) :
      (∃ i, some id = some i ∧ sc.getRegById i = .error errno) ↔
        (Action.base id offs).commands sc = .error errno := by
    simp only [Action.commands]
    cases h : sc.getRegById id with
    | error e => simp [Except.map, h]
    | ok reg => simp [Except.map, h]
  cases o with
  | breg reg offs => exact hBase reg _
  | bregx reg offs => exact hBase _ _
  | _ =>
    constructor
    · rintro ⟨id, h, -⟩
      cases h
    · intro h
      cases h

variable {ops : List FrameOp}

/-- The translation stops at the first operation that names an unknown register. -/
theorem compile_error_split (h : compile sc (actions sc ops) = .error errno) :
    ∃ known o rest, ops = known ++ o :: rest ∧ (∀ o ∈ known, ∀ e, ¬ o.Unknown sc e) ∧
      o.Unknown sc errno := by
  induction ops with
  | nil => cases h
  | cons o ops ih =>
    cases hCmds : (o.action sc).commands sc with
    | error e =>
      have hEq : compile sc (actions sc (o :: ops)) = .error e := by
        show ((o.action sc).commands sc >>= fun cmds => _) = _
        rw [hCmds]
        rfl
      obtain rfl : e = errno := Except.error.inj (hEq.symm.trans h)
      exact ⟨[], o, ops, rfl, by simp, (unknown_iff sc o e).2 hCmds⟩
    | ok cmds =>
      have hRest : compile sc (actions sc ops) = .error errno := by
        change ((o.action sc).commands sc >>= fun cmds =>
          compile sc (actions sc ops) >>= fun cmds' => pure (cmds ++ cmds')) = _ at h
        rw [hCmds] at h
        cases hRest : compile sc (actions sc ops) with
        | error e =>
          rw [hRest] at h
          exact h
        | ok cmds' =>
          rw [hRest] at h
          cases h
      obtain ⟨known, o', rest, rfl, hKnown, hUnknown⟩ := ih hRest
      refine ⟨o :: known, o', rest, rfl, ?_, hUnknown⟩
      rintro x (_ | ⟨_, hx⟩) e hx'
      · rw [unknown_iff, hCmds] at hx'
        cases hx'
      · exact hKnown x hx e hx'

theorem runActions_append (t : Target Reg) (sc : Scope Reg) (as as' : List Action)
    (stk : List Word) :
    runActions t sc (as ++ as') stk = runActions t sc as stk >>= runActions t sc as' := by
  induction as generalizing stk with
  | nil => rfl
  | cons a as ih =>
    show (a.run t sc stk >>= runActions t sc (as ++ as')) =
      (a.run t sc stk >>= runActions t sc as) >>= runActions t sc as'
    cases a.run t sc stk with
    | error f => rfl
    | ok stk' => exact ih stk'

/-- The virtual machine, on an expression that starts with some values on the stack. -/
def interpret (m : Machine Reg) (fuel : Nat) (initial : List Cell) (ops : List FrameOp) :
    Option (Except Failure Vm.State) :=
  evaluateExpression m fuel { stk := initial, code := ⟨codeOf ops, 0⟩ }

theorem interpret_ops (m : Machine Reg) (hOps : ops ≠ [])
    (hFuel : ops.length ≤ fuel) (initial : List Cell) :
    ∃ res, interpret m fuel initial ops = some res ∧
      Does ⟨codeOf ops, (codeOf ops).length⟩
        (runActions m.toTarget m.toScope (actions m.toScope ops) (initial.map Cell.value)) res := by
  have hCode : ¬ (codeOf ops).length = 0 := by
    have := length_le_codeOf ops
    have := List.length_pos_iff.2 hOps
    omega
  obtain ⟨res, hRes, hDoes⟩ :=
    evaluateLoop_ops m ops hFuel (s := { stk := initial, code := ⟨codeOf ops, 0⟩ }) rfl
  refine ⟨res, ?_, ?_⟩
  · rw [interpret, evaluateExpression, if_neg hCode, hRes]
  · simpa [Cursor.skip, values] using hDoes

/-- What the evaluation of the commands raises when the virtual machine raises `f`. A stack
with too few values is `ERR_INV_DWARF` for one and `ERR_OTHER` for the other; a register
that is not known is reported first of all, with a text, also when the virtual machine does
not come to it. -/
def Reported (m : Machine Reg) (initial : List Cell) (ops : List FrameOp) (f g : Failure) :
    Prop :=
  ((∀ o ∈ ops, ∀ e, ¬ o.Unknown m.toScope e) ∧
    (f = g ∨ f = invStack ∧ g = locationExpressionError)) ∨
  ∃ known o rest errno, ops = known ++ o :: rest ∧
    (∀ o ∈ known, ∀ e, ¬ o.Unknown m.toScope e) ∧ o.Unknown m.toScope errno ∧
    g = noRegister errno ∧
    (f = exception errno ∨ interpret m known.length initial known = some (.error f))

theorem reported {initial : List Cell} {fault : Fault}
    (hRun : runActions m.toTarget m.toScope (actions m.toScope ops) (initial.map Cell.value) =
      .error fault) :
    Reported m initial ops (vmFailure fault)
      (match compile m.toScope (actions m.toScope ops) with
      | .error errno => noRegister errno
      | .ok _ => commandFailure fault) := by
  cases hCmds : compile m.toScope (actions m.toScope ops) with
  | ok cmds =>
    refine .inl ⟨fun o ho e hUnknown => ?_, ?_⟩
    · obtain ⟨cmds', hCmds'⟩ := commands_of_compile hCmds _ (List.mem_map_of_mem ho)
      rw [unknown_iff, hCmds'] at hUnknown
      cases hUnknown
    · cases fault with
      | stack => exact .inr ⟨rfl, rfl⟩
      | noRegister errno =>
        rw [runActions_noRegister hRun] at hCmds
        cases hCmds
      | target errno => exact .inl rfl
  | error errno =>
    obtain ⟨known, o, rest, rfl, hKnown, hUnknown⟩ := compile_error_split hCmds
    refine .inr ⟨known, o, rest, errno, rfl, hKnown, hUnknown, rfl, ?_⟩
    have hSplit : actions m.toScope (known ++ o :: rest) =
        actions m.toScope known ++ o.action m.toScope :: actions m.toScope rest := by
      simp [actions]
    rw [hSplit, runActions_append] at hRun
    cases hBefore : runActions m.toTarget m.toScope (actions m.toScope known)
        (initial.map Cell.value) with
    | error fault' =>
      rw [hBefore] at hRun
      cases hRun
      right
      have hOps : known ≠ [] := by
        rintro rfl
        cases hBefore
      obtain ⟨res, hRes, hDoes⟩ := interpret_ops m hOps le_rfl initial
      rw [hBefore] at hDoes
      have hDoes : res = .error (vmFailure fault) := hDoes
      rw [hRes, hDoes]
    | ok stk =>
      rw [hBefore] at hRun
      change (o.action m.toScope).run m.toTarget m.toScope stk >>= _ = _ at hRun
      rw [run_of_commands_error ((unknown_iff m.toScope o errno).1 hUnknown)] at hRun
      cases hRun
      exact .inl rfl

/-- The two evaluators agree on every expression over the operations that both know, with
whatever stack they start, where an address fits in the buffer that both read it into. The
virtual machine comes to an end. When values are left, the
commands leave the same ones, except that two of them are added; when it fails, so does the
other evaluator, at the translation or in the evaluation of the commands. -/
theorem evaluators_agree (m : Machine Reg) (r : Rules Reg) (hScope : r.toScope = m.toScope)
    (hAddr : m.addrSize ≤ 8) (initial : List Cell) {ops : List FrameOp} (hOps : ops ≠ [])
    (before after : List UInt8)
    (args : List Word) {fuel : Nat} (hFuel : ops.length ≤ fuel) :
    ∃ res, interpret m fuel initial ops = some res ∧
      match res with
      | .ok s =>
        evaluateCompiled m.toTarget r (initial.map Cell.value) (before ++ codeOf ops ++ after)
            before.length (codeOf ops).length args =
          .ok (addTwo { stk := values s, args := args }) ∧
        ∀ v, values s = [v] →
          evaluateCompiled m.toTarget r (initial.map Cell.value) (before ++ codeOf ops ++ after)
            before.length (codeOf ops).length args = .ok { stk := [v], args := args }
      | .error f => ∃ g,
        evaluateCompiled m.toTarget r (initial.map Cell.value) (before ++ codeOf ops ++ after)
            before.length (codeOf ops).length args = .error g ∧
        Reported m initial ops f g := by
  obtain ⟨res, hRes, hDoes⟩ := interpret_ops m hOps hFuel initial
  refine ⟨res, hRes, ?_⟩
  rw [evaluateCompiled_ops _ _ (hScope ▸ hAddr), hScope]
  cases hRun : runActions m.toTarget m.toScope (actions m.toScope ops)
      (initial.map Cell.value) with
  | error fault =>
    rw [hRun] at hDoes
    obtain rfl : res = .error (vmFailure fault) := hDoes
    refine ⟨_, ?_, reported hRun⟩
    cases compile m.toScope (actions m.toScope ops) with
    | error errno => rfl
    | ok cmds => rfl
  | ok stk =>
    rw [hRun] at hDoes
    obtain ⟨s, rfl, rfl, -⟩ := hDoes
    cases hCmds : compile m.toScope (actions m.toScope ops) with
    | error errno =>
      obtain ⟨f, hFail⟩ := runActions_of_compile_error hCmds (initial.map Cell.value)
      rw [hRun] at hFail
      cases hFail
    | ok cmds =>
      refine ⟨rfl, ?_⟩
      intro v hv
      rw [hv]
      rfl

/-- A target with one register and without memory. -/
def bareScope : Scope Nat where
  bigEndian := false
  addrSize := 4
  getRegById id := if id = 0 then .ok 0 else .error Err.invContext

def bareMachine : Machine Nat where
  toScope := bareScope
  readRegValue _ := .ok 0x100
  contextReadMem _ _ := .error 14
  frame := none
  shlOver _ _ := 0
  shrOver _ _ := 0
  objects := []
  clientOp := none
  otherOp op _ := .error (unsupported op)

def bareRules : Rules Nat where
  toScope := bareScope
  sectionName := none
  elf64 := false
  relocate _ _ x := .ok (x, none)
  mapToRunTimeAddress _ x := .ok x

theorem evaluators_agree_bare :
    interpret bareMachine 3 [] [.breg 0 ⟨[0x7f], by decide⟩, .lit 2, .binary .shl] =
        some (.ok { stk := [⟨0x3fc, .cardinal⟩], code := ⟨[0x70, 0x7f, 0x32, 0x24], 4⟩ }) ∧
      evaluateCompiled bareMachine.toTarget bareRules [] [0x70, 0x7f, 0x32, 0x24] 0 4 [] =
        .ok { stk := [0x3fc], args := [] } := by
  have h : interpret bareMachine 3 [] [.breg 0 ⟨[0x7f], by decide⟩, .lit 2, .binary .shl] =
      some (.ok { stk := [⟨0x3fc, .cardinal⟩], code := ⟨[0x70, 0x7f, 0x32, 0x24], 4⟩ }) := rfl
  have hOps : [FrameOp.breg 0 ⟨[0x7f], by decide⟩, .lit 2, .binary .shl] ≠ [] := by simp
  obtain ⟨res, hRes, hAgree⟩ := evaluators_agree bareMachine bareRules rfl (by decide) [] hOps
    [] [] [] (by decide : _ ≤ 3)
  rw [h] at hRes
  cases hRes
  exact ⟨h, hAgree.2 0x3fc rfl⟩

/-- `OP_addr` is translated, but the virtual machine does not know it. A stack that is too
small is not the same failure, and a register that is not known hides the failure of an
operation before it. -/
theorem evaluators_differ :
    (evaluateCompiled bareMachine.toTarget bareRules [] [0x03, 0x00, 0x10, 0x00, 0x00] 0 5 [] =
        .ok { stk := [0x1000], args := [] } ∧
      evaluateExpression bareMachine 5 { stk := [], code := ⟨[0x03, 0x00, 0x10, 0x00, 0x00], 0⟩ } =
        some (.error (strException Err.unsupported "Unsupported location expression op 0x03"))) ∧
    (evaluateCompiled bareMachine.toTarget bareRules [] [0x22, 0x30, 0x30] 0 3 [] =
        .error (strException Err.other "Invalid location expression") ∧
      evaluateExpression bareMachine 3 { stk := [], code := ⟨[0x22, 0x30, 0x30], 0⟩ } =
        some (.error (strException Err.invDwarf "Invalid location expression stack"))) ∧
    evaluateCompiled bareMachine.toTarget bareRules [] [0x30, 0x06, 0x71, 0x00, 0x22] 0 5 [] =
        .error (strException Err.invContext "Cannot read DWARF frame info") ∧
      evaluateExpression bareMachine 5 { stk := [], code := ⟨[0x30, 0x06, 0x71, 0x00, 0x22], 0⟩ } =
        some (.error (exception 14)) := by
  refine ⟨⟨rfl, ?_⟩, ⟨rfl, rfl⟩, rfl, rfl⟩
  decide

end TcfAgent.DwarfFrame
