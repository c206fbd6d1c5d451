import TcfAgent.Framework.LocationCommands
import TcfAgent.Lib.ByteReader
import TcfAgent.Services.DwarfCode

/-!
# The DWARF virtual machine

`evaluate_expression` of `services/vm.c`: the loop over the code, and the operations that
work on the stack or jump. Operations that make pieces of a location, that convert to a base
type or that run other code are left to `otherOp`.

A value of the stack has a type next to it, as `stk` and `type_stk` have.
-/

namespace TcfAgent.Vm

open TcfAgent.Lib TcfAgent.Location TcfAgent.Dwarf

inductive TypeClass where
  | unknown | cardinal | integer | real | pointer | array | composite | enumeration | function
  | memberPtr | complex
deriving DecidableEq, Repr

structure Cell where
  value : Word
  type : TypeClass
deriving DecidableEq, Repr

/-- The stack, its top first, and the code. -/
structure State where
  stk : List Cell
  code : Cursor
deriving DecidableEq, Repr

/-- What a DWARF expression is read with: the byte order, the size of an address (which the
source checks nowhere), and the registers that the numbers mean. -/
structure Scope (Reg : Type) where
  bigEndian : Bool
  addrSize : Nat
  getRegById : Nat → Except Nat Reg

/-- What does not change in an evaluation: the target, and the fields of
`LocationExpressionState` that are only read. -/
structure Machine (Reg : Type) extends Target Reg, Scope Reg where
  objects : List Word
  clientOp : Option (UInt8 → State → Except Failure State)
  otherOp : UInt8 → State → Except Failure State

variable {Reg : Type} (m : Machine Reg)

def invDwarf (msg : String) : Failure := strException Err.invDwarf msg

/-- What `check_e_stack` raises. -/
def invStack : Failure := invDwarf "Invalid location expression stack"

/-! ## Operands -/

def readU1 : Reader Failure UInt8 := readByte (invDwarf "Invalid command")

def readU2 : Reader Failure (BitVec 16) := do
  let x0 ← readU1
  let x1 ← readU1
  let x0 := x0.toBitVec.setWidth 16
  let x1 := x1.toBitVec.setWidth 16
  return if m.bigEndian then (x0 <<< 8) ||| x1 else x0 ||| (x1 <<< 8)

def readU4 : Reader Failure (BitVec 32) := do
  let x0 ← readU2 m
  let x1 ← readU2 m
  let x0 := x0.setWidth 32
  let x1 := x1.setWidth 32
  return if m.bigEndian then (x0 <<< 16) ||| x1 else x0 ||| (x1 <<< 16)

def readU8 : Reader Failure (BitVec 64) := do
  let x0 ← readU4 m
  let x1 ← readU4 m
  let x0 := x0.setWidth 64
  let x1 := x1.setWidth 64
  return if m.bigEndian then (x0 <<< 32) ||| x1 else x0 ||| (x1 <<< 32)

def readU4leb128 : Reader Failure (BitVec 32) := uleb (invDwarf "Invalid command") 32

def readU8leb128 : Reader Failure (BitVec 64) := uleb (invDwarf "Invalid command") 64

def readI8leb128 : Reader Failure (BitVec 64) := sleb (invDwarf "Invalid command") 64

def readIa : Reader Failure Word :=
  match m.addrSize with
  | 1 => do return (← readU1).toBitVec.signExtend 64
  | 2 => do return (← readU2 m).signExtend 64
  | 4 => do return (← readU4 m).signExtend 64
  | 8 => readU8 m
  | _ => throw (invDwarf "Invalid address size")

def readUa : Reader Failure Word :=
  match m.addrSize with
  | 1 => do return (← readU1).toBitVec.setWidth 64
  | 2 => do return (← readU2 m).setWidth 64
  | 4 => do return (← readU4 m).setWidth 64
  | 8 => readU8 m
  | _ => throw (invDwarf "Invalid address size")

/-! ## The stack -/

/-- `check_e_stack(1)`, then the topmost value and those below it. -/
def check1 (s : State) : Except Failure (Cell × List Cell) :=
  match s.stk with
  | a :: stk => .ok (a, stk)
  | [] => .error invStack

/-- `check_e_stack(2)`, then the two topmost values, the lower one first. -/
def check2 (s : State) : Except Failure (Cell × Cell × List Cell) :=
  match s.stk with
  | b :: a :: stk => .ok (a, b, stk)
  | _ => .error invStack

def check3 (s : State) : Except Failure (Cell × Cell × Cell × List Cell) :=
  match s.stk with
  | c :: b :: a :: stk => .ok (a, b, c, stk)
  | _ => .error invStack

def readMemory (addr : Word) (size : Nat) : Except Failure Word :=
  m.readMem m.bigEndian addr size

/-! ## Operations -/

/-- The operations that push a constant: where it is read from and its type. -/
def constant (op : UInt8) : Option (Reader Failure Word × TypeClass) :=
  if op = Op.const then some (readIa m, .cardinal)
  else if op = Op.const1u then some (do return (← readU1).toBitVec.setWidth 64, .cardinal)
  else if op = Op.const1s then some (do return (← readU1).toBitVec.signExtend 64, .integer)
  else if op = Op.const2u then some (do return (← readU2 m).setWidth 64, .cardinal)
  else if op = Op.const2s then some (do return (← readU2 m).signExtend 64, .integer)
  else if op = Op.const4u then some (do return (← readU4 m).setWidth 64, .cardinal)
  else if op = Op.const4s then some (do return (← readU4 m).signExtend 64, .integer)
  else if op = Op.const8u then some (readU8 m, .cardinal)
  else if op = Op.const8s then some (readU8 m, .integer)
  else if op = Op.constu then some (readU8leb128, .cardinal)
  else if op = Op.consts then some (readI8leb128, .integer)
  else if Op.lit0 ≤ op ∧ op ≤ Op.lit31 then
    some (pure ((op - Op.lit0).toBitVec.setWidth 64), .cardinal)
  else none

/-- `OP_shra`: a count below 64 is shifted one by one, copying the sign. -/
def shra (data cnt : Word) : Word :=
  if 64 ≤ cnt.toNat then if data.msb then BitVec.allOnes 64 else 0
  else data.sshiftRight cnt.toNat

/-- The operations with two operands; the type of the first one stays. -/
def arithmetic (op : UInt8) : Option (Word → Word → Except Failure Word) :=
  if op = Op.and then some fun a b => .ok (a &&& b)
  else if op = Op.div then some fun a b =>
    if b = 0 then .error (invDwarf "Division by zero in location expression") else .ok (a / b)
  else if op = Op.minus then some fun a b => .ok (a - b)
  else if op = Op.mod then some fun a b =>
    if b = 0 then .error (invDwarf "Division by zero in location expression") else .ok (a % b)
  else if op = Op.mul then some fun a b => .ok (a * b)
  else if op = Op.or then some fun a b => .ok (a ||| b)
  else if op = Op.add ∨ op = Op.plus then some fun a b => .ok (a + b)
  else if op = Op.shl then some fun a b => .ok (m.shl a b)
  else if op = Op.shr then some fun a b => .ok (m.shr a b)
  else if op = Op.shra then some fun a b => .ok (shra a b)
  else if op = Op.xor then some fun a b => .ok (a ^^^ b)
  else none

/-- The comparisons; values are unsigned. -/
def comparison (op : UInt8) : Option (Word → Word → Bool) :=
  if op = Op.eq then some fun a b => a = b
  else if op = Op.ge then some fun a b => b ≤ a
  else if op = Op.gt then some fun a b => b < a
  else if op = Op.le then some fun a b => a ≤ b
  else if op = Op.lt then some fun a b => a < b
  else if op = Op.ne then some fun a b => a ≠ b
  else none

/-- The operations that replace the topmost value, its type stays. -/
def unary (op : UInt8) : Option (Word → Word) :=
  if op = Op.abs then some fun a => if a.msb then ~~~a + 1 else a
  else if op = Op.neg then some fun a => ~~~a + 1
  else if op = Op.not then some fun a => ~~~a
  else none

/-- `OP_breg*` and `OP_bregx`, after the number of the register. -/
def baseRegister (id : Nat) (s : State) : Except Failure State := do
  let reg ← orException (m.getRegById id)
  let v ← orException (m.readRegValue reg)
  let (offs, code) ← readI8leb128 s.code
  return { stk := ⟨v + offs, .cardinal⟩ :: s.stk, code }

/-- `code_pos += offs`, as unsigned numbers. -/
def jump (offs : BitVec 16) (code : Cursor) : Except Failure Cursor :=
  let target := code.pos + offs.toInt
  if target < 0 ∨ code.data.length < target then .error (invDwarf "Invalid command")
  else .ok { code with pos := target.toNat }

/-- The operations that only move values. `OP_rot` puts the type of the topmost value into
the middle, twice. -/
def moveOp (op : UInt8) (s : State) : Option (Except Failure State) :=
  if op = Op.dup then some do
    let (a, _) ← check1 s
    return { s with stk := a :: s.stk }
  else if op = Op.drop then some do
    let (_, stk) ← check1 s
    return { s with stk }
  else if op = Op.over then some do
    let (a, _, _) ← check2 s
    return { s with stk := a :: s.stk }
  else if op = Op.pick then some do
    let (n, code) ← readU1 s.code
    match s.stk[n.toNat]? with
    | some a => return { stk := a :: s.stk, code }
    | none => throw invStack
  else if op = Op.swap then some do
    let (a, b, stk) ← check2 s
    return { s with stk := a :: b :: stk }
  else if op = Op.rot then some do
    let (a, b, c, stk) ← check3 s
    return { s with stk := b :: ⟨a.value, c.type⟩ :: ⟨c.value, a.type⟩ :: stk }
  else none

/-- The operations that read memory. -/
def memoryOp (op : UInt8) (s : State) : Option (Except Failure State) :=
  if op = Op.deref then some do
    let (a, stk) ← check1 s
    let v ← readMemory m a.value m.addrSize
    return { s with stk := ⟨v, .cardinal⟩ :: stk }
  else if op = Op.deref2 then some do
    let (a, stk) ← check1 s
    let v ← readMemory m a.value 2
    return { s with stk := ⟨(v.setWidth 16).signExtend 64, .cardinal⟩ :: stk }
  else if op = Op.derefSize then some do
    let (a, stk) ← check1 s
    let (size, code) ← readU1 s.code
    let v ← readMemory m a.value size.toNat
    return { stk := ⟨v, .cardinal⟩ :: stk, code }
  else if op = Op.xderef then some do
    let (_, b, stk) ← check2 s
    let v ← readMemory m b.value m.addrSize
    return { s with stk := ⟨v, .cardinal⟩ :: stk }
  else if op = Op.xderefSize then some do
    let (_, b, stk) ← check2 s
    let (size, code) ← readU1 s.code
    let v ← readMemory m b.value size.toNat
    return { stk := ⟨v, .cardinal⟩ :: stk, code }
  else none

/-- The operations that are not embedded: registers and pieces as the result, conversions,
operations that run other code. -/
def isOther (op : UInt8) : Bool :=
  (Op.reg0 ≤ op ∧ op ≤ Op.reg31) ∨
    op ∈ [Op.regx, Op.reg, Op.piece, Op.bitPiece, Op.implicitValue, Op.stackValue,
      Op.gnuConstType, Op.gnuRegvalType, Op.gnuDerefType, Op.gnuConvert, Op.gnuVariableValue,
      Op.tcfSwitch, Op.tcfOffset, Op.gnuEntryValue]

def unsupported (op : UInt8) : Failure :=
  strException Err.unsupported
    ("Unsupported location expression op 0x" ++
      String.ofList ((Nat.toDigits 16 op.toNat).leftpad 2 '0'))

/-- The operations that have a case of their own. -/
def specialOp (op : UInt8) (s : State) : Except Failure State :=
  if op = Op.plusUconst then do
    let (a, stk) ← check1 s
    let (n, code) ← readU8leb128 s.code
    return { stk := ⟨a.value + n, a.type⟩ :: stk, code }
  else if op = Op.bra then do
    let (a, stk) ← check1 s
    let (offs, code) ← readU2 m s.code
    if a.value = 0 then return { stk, code }
    return { stk, code := ← jump offs code }
  else if op = Op.skip then do
    let (offs, code) ← readU2 m s.code
    return { s with code := ← jump offs code }
  else if Op.breg0 ≤ op ∧ op ≤ Op.breg31 then baseRegister m (op - Op.breg0).toNat s
  else if op = Op.bregx then do
    let (n, code) ← readU4leb128 s.code
    baseRegister m n.toNat { s with code }
  else if op = Op.basereg then do
    let (n, code) ← readUa m s.code
    let reg ← orException (m.getRegById (n.setWidth 32).toNat)
    let v ← orException (m.readRegValue reg)
    return { stk := ⟨v, .cardinal⟩ :: s.stk, code }
  else if op = Op.callFrameCfa then
    match m.frame with
    | none => .error (strException Err.invAddress "Stack frame address not available")
    | some fp => .ok { s with stk := ⟨fp, .cardinal⟩ :: s.stk }
  else if op = Op.nop then .ok s
  else if op = Op.pushObjectAddress then
    match m.objects with
    | [] => .error (exception Err.invContObj)
    | a :: _ => .ok { s with stk := ⟨a, .cardinal⟩ :: s.stk }
  else if isOther op then m.otherOp op s
  else
    match m.clientOp with
    | some clientOp => clientOp op s
    | none => .error (unsupported op)

/-- One case of the `switch`. -/
def evaluateOp (op : UInt8) (s : State) : Except Failure State :=
  match constant m op, arithmetic m op, comparison op, unary op with
  | some (read, type), _, _, _ => do
    let (v, code) ← read s.code
    return { stk := ⟨v, type⟩ :: s.stk, code }
  | none, some f, _, _ => do
    let (a, b, stk) ← check2 s
    let v ← f a.value b.value
    return { s with stk := ⟨v, a.type⟩ :: stk }
  | none, none, some p, _ => do
    let (a, b, stk) ← check2 s
    return { s with stk := ⟨flag (p a.value b.value), .cardinal⟩ :: stk }
  | none, none, none, some f => do
    let (a, stk) ← check1 s
    return { s with stk := ⟨f a.value, a.type⟩ :: stk }
  | none, none, none, none =>
    ((moveOp op s).or (memoryOp m op s)).getD (specialOp m op s)

/-- The loop, for at most `fuel` operations; `none` when that is not the end. -/
def evaluateLoop : (fuel : Nat) → State → Option (Except Failure State)
  | 0, s => if s.code.pos < s.code.data.length then none else some (.ok s)
  | fuel + 1, s =>
    match s.code.data[s.code.pos]? with
    | none => some (.ok s)
    | some op =>
      match evaluateOp m op { s with code := s.code.skip 1 } with
      | .error f => some (.error f)
      | .ok s' => evaluateLoop fuel s'

/-- `evaluate_expression`. -/
def evaluateExpression (fuel : Nat) (s : State) : Option (Except Failure State) :=
  if s.code.data.length = 0 then some (.error (invDwarf "location expression size = 0"))
  else evaluateLoop m fuel s

end TcfAgent.Vm
