import TcfAgent.Lib.Checked
import TcfAgent.Services.Vm
import TcfAgent.Services.DwarfTransform

/-!
# The stack and the code of the DWARF virtual machine

All of `evaluate_expression` of `services/vm.c`, with `evaluate_vm_expression` and
`read_location_pieces` of `framework/cpudefs.c`. Here a value and its type stand in two arrays, the
code is a part of a longer sequence of bytes, and an access out of bounds is a fault.

Expressions in expressions (`OP_TCF_switch`, `OP_GNU_entry_value`) are not calls: what is to be
done after one stands in a frame, so that an evaluation is a sequence of steps. `client_op` is
null, as it is everywhere in the repository.
-/

namespace TcfAgent.VmEval

open TcfAgent.Lib TcfAgent.Location TcfAgent.Dwarf
open TcfAgent.Vm (TypeClass Scope invDwarf invStack)
open TcfAgent.DwarfTransform (isUnsigned isSigned)

/-! ## Locations -/

structure RegisterDefinition where
  id        : Nat
  size      : Nat
  bigEndian : Bool
deriving DecidableEq, Repr

/-- A null pointer is `none`. -/
structure LocationPiece where
  optimizedAway   : Bool
  addr            : Word
  reg             : Option RegisterDefinition
  value           : Option (List UInt8)
  size            : Nat
  bitOffs         : BitVec 32
  bitSize         : BitVec 32
  implicitPointer : BitVec 32
deriving DecidableEq, Repr

/-- `memset(piece, 0, sizeof(LocationPiece))` -/
def LocationPiece.zero : LocationPiece := ⟨false, 0, none, none, 0, 0, 0, 0⟩

/-- `size * 8` as `unsigned`. -/
def bits (size : Nat) : BitVec 32 := BitVec.ofNat 32 (size * 8)

/-- `piece->bit_size ? piece->bit_size : piece->size * 8` -/
def LocationPiece.pieceBits (p : LocationPiece) : BitVec 32 :=
  if p.bitSize ≠ 0 then p.bitSize else bits p.size

/-- `piece->size ? piece->size : (piece->bit_offs + piece->bit_size + 7) / 8` -/
def LocationPiece.pieceSize (p : LocationPiece) : Nat :=
  if p.size ≠ 0 then p.size else ((p.bitOffs + p.bitSize + 7) / 8).toNat

/-- What an evaluation is given. `Frame` are the stack frames, with one for the null pointer. C
leaves open what a byte shifted into the sign of an `int` or past it gives (`intShift`), and what
is found behind the bytes of a piece (`strayBit`) or made of more than 2^32 bits (`overrun`). -/
structure Env (Frame : Type) extends Scope RegisterDefinition where
  target      : Frame → Target RegisterDefinition
  readReg     : Frame → (reg : RegisterDefinition) → Except Nat (Vector UInt8 reg.size)
  prevFrame   : Frame → Except Nat Frame
  symbolValue : List UInt8 → Except Nat (List UInt8 × Bool)
  intShift    : UInt8 → Nat → Word
  strayBit    : List UInt8 → Nat → Bool
  overrun     : List LocationPiece → Except Failure (List UInt8)

variable {Frame : Type}

/-- What the operations of `Vm` read. -/
def Env.machine (env : Env Frame) (frame : Frame) : Vm.Machine RegisterDefinition where
  toTarget := env.target frame
  toScope := env.toScope
  objects := []
  clientOp := none
  otherOp := fun op _ => .error (Vm.unsupported op)

/-! ## States -/

/-- `LocationExpressionState`; `base` is the position of `code` in the outermost expression. -/
structure Eval (Frame : Type) where
  stackFrame : Frame
  args       : List Word
  base       : Nat
  codePos    : Nat
  codeLen    : Nat
  stk        : List Word
  typeStk    : List TypeClass
  stkPos     : Nat
  stkMax     : Nat
  pieces     : List LocationPiece

/-- What is to be done at the end of an expression. -/
inductive Pending (Frame : Type) where
  /-- The body of a case of `OP_TCF_switch` ends. -/
  | switchBody (endPos codeLenOrg : Nat)
  /-- The expression of `OP_GNU_entry_value` ends. -/
  | entryValue (saved : Eval Frame) (size : Nat)

/-- The state of `evaluate_expression`, with the calls that wait. -/
structure State (Frame : Type) where
  eval            : Eval Frame
  regDef          : Option RegisterDefinition
  valueAddr       : Option (List UInt8)
  implicitPointer : BitVec 32
  pending         : List (Pending Frame)

/-- A step of the virtual machine. -/
abbrev Vm (Frame α : Type) : Type := Checked (State Frame) Failure α

def invCommand : Failure := invDwarf "Invalid command"

def modifyEval (f : Eval Frame → Eval Frame) : Vm Frame Unit :=
  modify fun s => { s with eval := f s.eval }

/-! ## The stack -/

/-- `check_e_stack` -/
def checkStack (n : Nat) : Vm Frame Unit := do
  if (← get).eval.stkPos < n then raise invStack

/-- The index `stk_pos - k`, of an entry that is there. -/
def slot (k : Nat) : Vm Frame Nat := do
  let stkPos := (← get).eval.stkPos
  ensure (1 ≤ k ∧ k ≤ stkPos)
  return stkPos - k

/-- `stk[stk_pos - k]` -/
def stkAt (k : Nat) : Vm Frame Word := do
  let i ← slot k
  orFault (← get).eval.stk[i]?

/-- `type_stk[stk_pos - k]` -/
def typeAt (k : Nat) : Vm Frame TypeClass := do
  let i ← slot k
  orFault (← get).eval.typeStk[i]?

/-- `stk[stk_pos - k] = v` -/
def setStkAt (k : Nat) (v : Word) : Vm Frame Unit := do
  let i ← slot k
  ensure (i < (← get).eval.stk.length)
  modifyEval fun e => { e with stk := e.stk.set i v }

/-- `type_stk[stk_pos - k] = t` -/
def setTypeAt (k : Nat) (t : TypeClass) : Vm Frame Unit := do
  let i ← slot k
  ensure (i < (← get).eval.typeStk.length)
  modifyEval fun e => { e with typeStk := e.typeStk.set i t }

/-- The next slot of both arrays is written, and `stk_pos` moves past it. -/
def push (v : Word) (t : TypeClass) : Vm Frame Unit := do
  let e := (← get).eval
  ensure (e.stkPos < e.stkMax ∧ e.stkPos < e.stk.length ∧ e.stkPos < e.typeStk.length)
  modifyEval fun e =>
    { e with
      stk := e.stk.set e.stkPos v
      typeStk := e.typeStk.set e.stkPos t
      stkPos := e.stkPos + 1 }

/-- `stk_pos--` -/
def dropTop : Vm Frame Unit := do
  ensure (1 ≤ (← get).eval.stkPos)
  modifyEval fun e => { e with stkPos := e.stkPos - 1 }

/-- Room for four more entries; what `tmp_realloc` adds is written before it is read. -/
def Eval.reserve (e : Eval Frame) : Eval Frame :=
  if e.stkPos + 4 > e.stkMax then
    { e with
      stkMax := e.stkMax + 8
      stk := e.stk ++ List.replicate (e.stkMax + 8 - e.stk.length) 0
      typeStk := e.typeStk ++ List.replicate (e.stkMax + 8 - e.typeStk.length) .unknown }
  else e

section

variable (env : Env Frame) (data : List UInt8)

/-! ## The code -/

/-- `code[code_pos++]`; `data` is the outermost expression. -/
def nextByte : Vm Frame UInt8 := do
  let e := (← get).eval
  let b ← orFault data[e.base + e.codePos]?
  modifyEval fun e => { e with codePos := e.codePos + 1 }
  return b

def readU1 : Vm Frame UInt8 := do
  let e := (← get).eval
  if e.codeLen ≤ e.codePos then raise invCommand
  nextByte data

def readU2 : Vm Frame (BitVec 16) := do
  let x0 ← readU1 data
  let x1 ← readU1 data
  let x0 := x0.toBitVec.setWidth 16
  let x1 := x1.toBitVec.setWidth 16
  return if env.bigEndian then (x0 <<< 8) ||| x1 else x0 ||| (x1 <<< 8)

def readU4 : Vm Frame (BitVec 32) := do
  let x0 ← readU2 env data
  let x1 ← readU2 env data
  let x0 := x0.setWidth 32
  let x1 := x1.setWidth 32
  return if env.bigEndian then (x0 <<< 16) ||| x1 else x0 ||| (x1 <<< 16)

def readU8 : Vm Frame (BitVec 64) := do
  let x0 ← readU4 env data
  let x1 ← readU4 env data
  let x0 := x0.setWidth 64
  let x1 := x1.setWidth 64
  return if env.bigEndian then (x0 <<< 32) ||| x1 else x0 ||| (x1 <<< 32)

/-- The loop over the bytes of a LEB128 number; every byte is one of `fuel`. -/
def lebBytes (w : Nat) (signed : Bool) : (fuel i : Nat) → BitVec w → Vm Frame (BitVec w)
  | 0, _, _ => raise invCommand
  | fuel + 1, i, res => do
    let n ← readU1 data
    let res := res ||| lebBits w i n
    if n &&& 0x80 = 0 then return res ||| lebLast w signed i n
    lebBytes w signed fuel (i + 7) res

/-- There are no more bytes than up to `code_len`. -/
def readLeb (w : Nat) (signed : Bool) : Vm Frame (BitVec w) := do
  let e := (← get).eval
  lebBytes data w signed (e.codeLen - e.codePos + 1) 0 0

def readU4leb128 : Vm Frame (BitVec 32) := readLeb data 32 false

def readU8leb128 : Vm Frame (BitVec 64) := readLeb data 64 false

def readI8leb128 : Vm Frame (BitVec 64) := readLeb data 64 true

def readIa : Vm Frame Word :=
  match env.addrSize with
  | 1 => do return (← readU1 data).toBitVec.signExtend 64
  | 2 => do return (← readU2 env data).signExtend 64
  | 4 => do return (← readU4 env data).signExtend 64
  | 8 => readU8 env data
  | _ => raise (invDwarf "Invalid address size")

def readUa : Vm Frame Word :=
  match env.addrSize with
  | 1 => do return (← readU1 data).toBitVec.setWidth 64
  | 2 => do return (← readU2 env data).setWidth 64
  | 4 => do return (← readU4 env data).setWidth 64
  | 8 => readU8 env data
  | _ => raise (invDwarf "Invalid address size")

/-- `code_pos += offs`, as unsigned numbers. -/
def jump (offs : BitVec 16) : Vm Frame Unit := do
  let e := (← get).eval
  let target := (e.codePos : Int) + offs.toInt
  if target < 0 ∨ e.codeLen < target then raise invCommand
  modifyEval fun e => { e with codePos := target.toNat }

def isEndOfLocExpr : Vm Frame Bool := do
  let e := (← get).eval
  if e.codeLen ≤ e.codePos then return true
  let op ← orFault data[e.base + e.codePos]?
  return op = Op.piece ∨ op = Op.bitPiece ∨ op = Op.tcfOffset

/-! ## Memory and registers -/

/-- The buffer has eight bytes. -/
def readMemory (addr : Word) (size : Nat) : Vm Frame Word := do
  ensure (size ≤ 8)
  let frame := (← get).eval.stackFrame
  orRaise ((env.target frame).readMem env.bigEndian addr size)

def getRegById (id : Nat) : Vm Frame RegisterDefinition := orRaise (orException (env.getRegById id))

def readRegValue (reg : RegisterDefinition) : Vm Frame Word := do
  let frame := (← get).eval.stackFrame
  orRaise (orException ((env.target frame).readRegValue reg))

/-- `swap_bytes` when the byte orders differ. -/
def inOrder (big wanted : Bool) (bytes : List UInt8) : List UInt8 :=
  if big = wanted then bytes else bytes.reverse

/-- The bytes that a piece is taken from. -/
def pieceBuffer (frame : Frame) (big : Bool) (p : LocationPiece) : Except Failure (List UInt8) := do
  if p.optimizedAway then
    throw (strException Err.other "Cannot get symbol value: optimized away")
  if p.implicitPointer ≠ 0 then
    throw (strException Err.other "Cannot get symbol value: implicit pointer")
  match p.reg, p.value with
  | some reg, _ => do
    let bytes ← orException (env.readReg frame reg)
    let bytes := inOrder reg.bigEndian big bytes.toList
    let zeros := List.replicate (p.pieceSize - reg.size) 0
    return if big then zeros ++ bytes else bytes ++ zeros
  | none, some value => return value
  | none, none => do
    let bytes ← orException ((env.target frame).contextReadMem p.addr p.pieceSize)
    return bytes.toList

/-- `bit_mask`, as the number of a bit in its byte. -/
def bitOf (big : Bool) (i : Nat) : Nat := if big then 7 - i % 8 else i % 8

def readBit (big : Bool) (bytes : List UInt8) (i : Nat) : Bool :=
  match bytes[i / 8]? with
  | some b => b.toNat.testBit (bitOf big i)
  | none => env.strayBit bytes i

/-- The bits of a piece. -/
def bitsOf (frame : Frame) (big : Bool) (p : LocationPiece) : Except Failure (List Bool) := do
  let bytes ← pieceBuffer env frame big p
  return (List.range p.pieceBits.toNat).map fun i => readBit env big bytes (p.bitOffs.toNat + i)

/-- The byte with these bits, the bit with the number 0 first. -/
def byteOf (bs : List Bool) : UInt8 :=
  bs.foldr (fun b n => 2 * n + if b then 1 else 0) 0

/-- `(bf_bits + 7) / 8` bytes with these bits; what is left of the first byte, or of the last one,
is 0. -/
def bytesOf (big : Bool) (bs : List Bool) : List UInt8 :=
  let size := (bs.length + 7) / 8
  let zeros := List.replicate (size * 8 - bs.length) false
  let all := if big then zeros ++ bs else bs ++ zeros
  (List.range size).map fun k =>
    let byte := (all.drop (k * 8)).take 8
    byteOf (if big then byte.reverse else byte)

/-- `read_location_pieces` -/
def readLocationPieces (frame : Frame) (big : Bool) (pieces : List LocationPiece) :
    Except Failure (List UInt8) :=
  if 2 ^ 32 ≤ (pieces.map fun p => p.pieceBits.toNat).sum then env.overrun pieces
  else do
    let bs ← pieces.mapM (bitsOf env frame big)
    return bytesOf big bs.flatten

/-- `add_piece` -/
def addPiece : Vm Frame Unit := do
  let s ← get
  let piece ←
    match s.regDef, s.valueAddr with
    | some reg, _ => pure { LocationPiece.zero with reg := some reg, size := reg.size }
    | none, some value => pure { LocationPiece.zero with value := some value, size := value.length }
    | none, none =>
      if s.eval.stkPos = 0 then pure { LocationPiece.zero with optimizedAway := true }
      else do
        let addr ← stkAt 1
        dropTop
        pure { LocationPiece.zero with addr }
  let piece := { piece with implicitPointer := s.implicitPointer }
  modify fun s =>
    { s with
      eval := { s.eval with pieces := s.eval.pieces ++ [piece] }
      regDef := none
      valueAddr := none
      implicitPointer := 0 }

/-- The piece that `add_piece` has returned is changed. -/
def modifyPiece (f : LocationPiece → LocationPiece) : Vm Frame Unit :=
  modifyEval fun e => { e with pieces := e.pieces.modify (e.pieces.length - 1) f }

/-! ## Operations on the stack -/

/-- The operations that push a constant: where it is read from and its type. -/
def constant (op : UInt8) : Option (Vm Frame Word × TypeClass) :=
  if op = Op.const then some (readIa env data, .cardinal)
  else if op = Op.const1u then some (do return (← readU1 data).toBitVec.setWidth 64, .cardinal)
  else if op = Op.const1s then some (do return (← readU1 data).toBitVec.signExtend 64, .integer)
  else if op = Op.const2u then some (do return (← readU2 env data).setWidth 64, .cardinal)
  else if op = Op.const2s then some (do return (← readU2 env data).signExtend 64, .integer)
  else if op = Op.const4u then some (do return (← readU4 env data).setWidth 64, .cardinal)
  else if op = Op.const4s then some (do return (← readU4 env data).signExtend 64, .integer)
  else if op = Op.const8u then some (readU8 env data, .cardinal)
  else if op = Op.const8s then some (readU8 env data, .integer)
  else if op = Op.constu then some (readU8leb128 data, .cardinal)
  else if op = Op.consts then some (readI8leb128 data, .integer)
  else if Op.lit0 ≤ op ∧ op ≤ Op.lit31 then
    some (pure ((op - Op.lit0).toBitVec.setWidth 64), .cardinal)
  else none

/-- The operations that only move values; the last assignment of `OP_rot` is to
`type_stk[stk_pos - 2]` again. -/
def moveOp (op : UInt8) : Option (Vm Frame Unit) :=
  if op = Op.dup then some do
    checkStack 1
    push (← stkAt 1) (← typeAt 1)
  else if op = Op.drop then some do
    checkStack 1
    dropTop
  else if op = Op.over then some do
    checkStack 2
    push (← stkAt 2) (← typeAt 2)
  else if op = Op.pick then some do
    let n ← readU1 data
    checkStack (n.toNat + 1)
    push (← stkAt (n.toNat + 1)) (← typeAt (n.toNat + 1))
  else if op = Op.swap then some do
    checkStack 2
    let value ← stkAt 1
    let type ← typeAt 1
    setStkAt 1 (← stkAt 2)
    setTypeAt 1 (← typeAt 2)
    setStkAt 2 value
    setTypeAt 2 type
  else if op = Op.rot then some do
    checkStack 3
    let value ← stkAt 1
    let type ← typeAt 1
    setStkAt 1 (← stkAt 2)
    setTypeAt 1 (← typeAt 2)
    setStkAt 2 (← stkAt 3)
    setTypeAt 2 (← typeAt 3)
    setStkAt 3 value
    setTypeAt 2 type
  else none

/-- The operations that read memory: the entry that holds the address, how the size is known, and
what is made of the value. -/
def memoryOp (op : UInt8) : Option (Vm Frame Unit) :=
  if op = Op.deref then some do
    checkStack 1
    setStkAt 1 (← readMemory env (← stkAt 1) env.addrSize)
    setTypeAt 1 .cardinal
  else if op = Op.deref2 then some do
    checkStack 1
    let v ← readMemory env (← stkAt 1) 2
    setStkAt 1 ((v.setWidth 16).signExtend 64)
    setTypeAt 1 .cardinal
  else if op = Op.derefSize then some do
    checkStack 1
    let size ← readU1 data
    setStkAt 1 (← readMemory env (← stkAt 1) size.toNat)
    setTypeAt 1 .cardinal
  else if op = Op.xderef then some do
    checkStack 2
    setStkAt 2 (← readMemory env (← stkAt 1) env.addrSize)
    setTypeAt 2 .cardinal
    dropTop
  else if op = Op.xderefSize then some do
    checkStack 2
    let size ← readU1 data
    setStkAt 2 (← readMemory env (← stkAt 1) size.toNat)
    setTypeAt 2 .cardinal
    dropTop
  else none

/-- The operations with one or two operands; their functions are those of `Vm`. -/
def arithmeticOp (op : UInt8) : Option (Vm Frame Unit) :=
  match Vm.comparison op, Vm.unary op with
  | some p, _ => some do
    checkStack 2
    let b ← stkAt 1
    let a ← stkAt 2
    dropTop
    setStkAt 1 (flag (p a b))
    setTypeAt 1 .cardinal
  | none, some f => some do
    checkStack 1
    setStkAt 1 (f (← stkAt 1))
  | none, none =>
    if op ∈ [Op.and, Op.div, Op.minus, Op.mod, Op.mul, Op.or, Op.add, Op.plus, Op.shl, Op.shr,
      Op.shra, Op.xor] then some do
      checkStack 2
      let b ← stkAt 1
      let a ← stkAt 2
      dropTop
      let f ← orFault (Vm.arithmetic (env.machine (← get).eval.stackFrame) op)
      setStkAt 1 (← orRaise (f a b))
    else none

/-- The rest of `OP_breg*` and `OP_bregx`. -/
def baseRegister (id : Nat) : Vm Frame Unit := do
  let v ← readRegValue env (← getRegById env id)
  push (v + (← readI8leb128 data)) .cardinal

/-- The rest of `OP_reg*`, `OP_regx` and `OP_reg`. -/
def registerLocation (id : Nat) (msg : String) : Vm Frame Unit := do
  if ¬ (← isEndOfLocExpr data) then raise (invDwarf msg)
  let reg ← getRegById env id
  modify fun s => { s with regDef := some reg }

/-- The operations that push something that is not in the code. -/
def pushOp (op : UInt8) : Option (Vm Frame Unit) :=
  if Op.breg0 ≤ op ∧ op ≤ Op.breg31 then some (baseRegister env data (op - Op.breg0).toNat)
  else if op = Op.bregx then some do baseRegister env data (← readU4leb128 data).toNat
  else if op = Op.basereg then some do
    let id := (← readUa env data).setWidth 32
    push (← readRegValue env (← getRegById env id.toNat)) .cardinal
  else if op = Op.callFrameCfa then some do
    match (env.target (← get).eval.stackFrame).frame with
    | none => raise (strException Err.invAddress "Stack frame address not available")
    | some fp => push fp .cardinal
  else if op = Op.pushObjectAddress then some do
    match (← get).eval.args with
    | [] => raise (exception Err.invContObj)
    | a :: _ => push a .cardinal
  else if op = Op.gnuVariableValue then some do
    let e := (← get).eval
    let rest := data.drop (e.base + e.codePos)
    -- `strlen`
    let id := rest.takeWhile (· ≠ 0)
    ensure (id.length < rest.length)
    modifyEval fun e => { e with codePos := e.codePos + (id.length + 1) }
    let (value, big) ← orRaise (orException (env.symbolValue id))
    let t := env.target e.stackFrame
    let shifts := (List.range value.length).map fun i =>
      if big then (value.length - i - 1) * 8 else i * 8
    let v := (value.zip shifts).foldl
      (fun v bs => v ||| t.shl (bs.1.toBitVec.setWidth 64) (BitVec.ofNat 64 bs.2)) 0
    push v .cardinal
  else none

/-- The operations that say where an object is. -/
def locationOp (op : UInt8) : Option (Vm Frame Unit) :=
  if Op.reg0 ≤ op ∧ op ≤ Op.reg31 then
    some (registerLocation env data (op - Op.reg0).toNat "OP_reg* must be last instruction")
  else if op = Op.regx then some do
    let id ← readU4leb128 data
    registerLocation env data id.toNat "OP_regx must be last instruction"
  else if op = Op.reg then some do
    let id := (← readUa env data).setWidth 32
    registerLocation env data id.toNat "OP_reg must be last instruction"
  else if op = Op.piece then some do
    addPiece
    let size ← readU4leb128 data
    modifyPiece fun p => { p with size := size.toNat }
  else if op = Op.bitPiece then some do
    addPiece
    let bitSize ← readU4leb128 data
    modifyPiece fun p => { p with bitSize }
    let bitOffs ← readU4leb128 data
    modifyPiece fun p => { p with bitOffs }
  else if op = Op.implicitValue then some do
    let size := (← readU4leb128 data).toNat
    let e := (← get).eval
    if e.codePos + size > e.codeLen then raise invCommand
    ensure (e.base + e.codePos + size ≤ data.length)
    let value := (data.drop (e.base + e.codePos)).take size
    modify fun s =>
      { s with
        valueAddr := some value
        eval := { s.eval with codePos := s.eval.codePos + size } }
    if ¬ (← isEndOfLocExpr data) then
      raise (invDwarf "OP_implicit_value must be last instruction")
  else if op = Op.stackValue then some do
    checkStack 1
    let n ← stkAt 1
    dropTop
    let bytes := (List.range env.addrSize).map fun i => UInt8.ofBitVec ((n >>> (8 * i)).setWidth 8)
    modify fun s =>
      { s with valueAddr := some (if env.bigEndian then bytes.reverse else bytes) }
    if ¬ (← isEndOfLocExpr data) then raise (invDwarf "OP_stack_value must be last instruction")
  else none

/-- `(uint64_t)1 << (size * 8 - 1)`, with `width` the width of the type of `size`. -/
def signBit (frame : Frame) (width size : Nat) : Word :=
  (env.target frame).shl 1 (BitVec.ofNat 64 ((BitVec.ofNat width (size * 8) - 1).toNat))

/-- `OP_GNU_convert`, after its operands: the value and its type. -/
def convert (frame : Frame) (fundType typeSize : Nat) (v : Word) :
    Except Failure (Word × TypeClass) :=
  let sign := signBit env frame 32 typeSize
  if isUnsigned fundType then
    .ok (if typeSize < 8 then v &&& (sign - 1) else v, .cardinal)
  else if fundType = 0x02 then .ok (if v ≠ 0 then 1 else v, .cardinal)
  else if isSigned fundType then
    .ok (if typeSize < 8 then
        if v &&& sign ≠ 0 then v ||| ~~~(sign - 1) else v &&& (sign - 1)
      else v, .integer)
  else .error (invDwarf "Unsupported type in OP_GNU_convert")

/-- The operations for values of a base type. -/
def typedOp (op : UInt8) : Option (Vm Frame Unit) :=
  if op = Op.gnuConstType then
    some (raise (invDwarf "Unsupported type in OP_GNU_const_type"))
  else if op = Op.gnuRegvalType then
    some (raise (invDwarf "Unsupported type in OP_GNU_regval_type"))
  else if op = Op.gnuDerefType then some do
    checkStack 1
    let memSize ← readU8leb128 data
    let fundType ← readU4leb128 data
    let typeSize ← readU4leb128 data
    let memSize := min memSize.toNat typeSize.toNat
    let frame := (← get).eval.stackFrame
    if isUnsigned fundType.toNat then do
      setStkAt 1 (← readMemory env (← stkAt 1) memSize)
      setTypeAt 1 .cardinal
    else if fundType.toNat = 0x02 then do
      let v ← readMemory env (← stkAt 1) memSize
      setStkAt 1 (if v ≠ 0 then 1 else v)
      setTypeAt 1 .cardinal
    else if isSigned fundType.toNat then do
      let v ← readMemory env (← stkAt 1) memSize
      let sign := signBit env frame 64 memSize
      setStkAt 1 (if memSize < 8 ∧ v &&& sign ≠ 0 then v ||| ~~~(sign - 1) else v)
      setTypeAt 1 .integer
    else raise (invDwarf "Unsupported type in OP_GNU_deref_type")
  else if op = Op.gnuConvert then some do
    checkStack 1
    let fundType ← readU4leb128 data
    let typeSize ← readU4leb128 data
    let frame := (← get).eval.stackFrame
    let (v, type) ← orRaise (convert env frame fundType.toNat typeSize.toNat (← stkAt 1))
    setStkAt 1 v
    setTypeAt 1 type
  else none

/-! ## Control -/

/-- What `evaluate_expression` starts with. -/
def enterExpression : Vm Frame Unit := do
  if (← get).eval.codeLen = 0 then raise (invDwarf "location expression size = 0")

/-- The cases of `OP_TCF_switch`, from `code_pos` on. -/
def switchCases (n : Word) (endPos : Nat) : (fuel : Nat) → Vm Frame Unit
  | 0 => raise invCommand
  | fuel + 1 => do
    let size ← readU2 env data
    let e := (← get).eval
    let nxtPos := e.codePos + size.toNat
    if nxtPos > endPos then raise invCommand
    if nxtPos = e.codePos then
      raise (strException Err.other "Object is not available at this location in the code")
    let addr ← readU8leb128 data
    let size ← readU8leb128 data
    if size = 0 ∨ (addr ≤ n ∧ n - addr < size) then do
      modify fun s =>
        { s with
          eval := { s.eval with codeLen := nxtPos }
          pending := .switchBody endPos s.eval.codeLen :: s.pending }
      enterExpression
    else do
      modifyEval fun e => { e with codePos := nxtPos }
      switchCases n endPos fuel

def splitPiece (p : LocationPiece) (skip : BitVec 32) : LocationPiece :=
  { p with bitOffs := p.bitOffs + skip, bitSize := p.bitSize - skip }

/-- The end of the loop of `OP_TCF_offset` for one piece that stays. -/
def normalPiece (p : LocationPiece) : LocationPiece :=
  let p :=
    if p.bitOffs = 0 ∧ p.bitSize % 8 = 0 then
      { p with size := (p.bitSize / 8).toNat, bitSize := 0 }
    else p
  { p with implicitPointer := p.implicitPointer + 1 }

/-- The loop of `OP_TCF_offset`: `offs` is `offs * 8`. -/
def offsetPieces (offs : BitVec 32) :
    (bitOffs : BitVec 32) → List LocationPiece → List LocationPiece
  | _, [] => []
  | bitOffs, org :: rest =>
    let org := if org.bitSize = 0 then { org with bitSize := bits org.size } else org
    let next := offsetPieces offs (bitOffs + org.bitSize) rest
    if bitOffs + org.bitSize > offs then
      normalPiece (if bitOffs < offs then splitPiece org (offs - bitOffs) else org) :: next
    else next

/-- The operations that jump or that have expressions in them. -/
def controlOp (op : UInt8) : Option (Vm Frame Unit) :=
  if op = Op.bra then some do
    checkStack 1
    let offs ← readU2 env data
    if (← stkAt 1) ≠ 0 then jump offs
    dropTop
  else if op = Op.skip then some do
    let offs ← readU2 env data
    jump offs
  else if op = Op.tcfSwitch then some do
    checkStack 1
    let n ← stkAt 1
    dropTop
    let size ← readU2 env data
    let e := (← get).eval
    let endPos := e.codePos + size.toNat
    if endPos > e.codeLen then raise invCommand
    switchCases env data n endPos (endPos - e.codePos + 1)
  else if op = Op.tcfOffset then some do
    let s ← get
    if s.regDef.isSome ∨ s.valueAddr.isSome then addPiece
    let pieces := (← get).eval.pieces
    if pieces ≠ [] then do
      let offs ← readU4leb128 data
      let pieces := offsetPieces (offs * 8) 0 pieces
      modifyEval fun e => { e with pieces }
      if pieces = [] then raise (invDwarf "Invalid size of implicit value")
    else do
      checkStack 1
      setStkAt 1 ((← stkAt 1) + (← readU8leb128 data))
      modify fun s => { s with implicitPointer := s.implicitPointer + 1 }
  else if op = Op.gnuEntryValue then some do
    let size := (← readU4leb128 data).toNat
    let s ← get
    let frame ← orRaise (orException (env.prevFrame s.eval.stackFrame))
    set
      { eval :=
          { stackFrame := frame
            args := []
            base := s.eval.base + s.eval.codePos
            codePos := 0
            codeLen := size
            stk := []
            typeStk := []
            stkPos := 0
            stkMax := 0
            pieces := [] }
        regDef := none
        valueAddr := none
        implicitPointer := 0
        pending := .entryValue s.eval size :: s.pending : State Frame }
    enterExpression
  else if op = Op.nop then some (pure ())
  else none

/-- `OP_plus_uconst` -/
def plusUconst : Vm Frame Unit := do
  checkStack 1
  setStkAt 1 ((← stkAt 1) + (← readU8leb128 data))

/-- One case of the `switch`. -/
def execute (op : UInt8) : Vm Frame Unit :=
  match constant env data op with
  | some (read, type) => do push (← read) type
  | none =>
    if op = Op.plusUconst then plusUconst data
    else
      ((moveOp data op).or <| (memoryOp env data op).or <| (arithmeticOp env op).or <|
        (pushOp env data op).or <| (locationOp env data op).or <| (typedOp env data op).or <|
        controlOp env data op).getD (raise (Vm.unsupported op))

/-! ## Evaluations -/

/-- The end of `evaluate_vm_expression`. -/
def lastPiece : Vm Frame Unit := do
  let s ← get
  if s.regDef.isSome ∨ s.valueAddr.isSome ∨ s.implicitPointer ≠ 0 then addPiece

/-- `b << (i * 8)`, of an `int`. -/
def shiftByte (b : UInt8) (i : Nat) : Word :=
  if i < 3 ∨ (i = 3 ∧ b < 128) then b.toBitVec.setWidth 64 <<< (i * 8) else env.intShift b (i * 8)

/-- The bytes of a piece as a number, as `OP_GNU_entry_value` puts it together. -/
def entryBytes (bytes : List UInt8) : Word :=
  bytes.zipIdx.foldl (fun v bi => v ||| shiftByte env bi.1 bi.2) 0

/-- What the expression of an `OP_GNU_entry_value` gives, at its end. -/
def entryResult : Vm Frame (Word × TypeClass) := do
  let e := (← get).eval
  if e.pieces ≠ [] then do
    let bytes ← orRaise (readLocationPieces env e.stackFrame false e.pieces)
    if bytes.length > 8 then raise (invDwarf "Invalid OP_entry_value expression")
    return (entryBytes env bytes, .cardinal)
  else if e.stkPos = 1 then do
    return (← stkAt 1, ← typeAt 1)
  else raise (invDwarf "Invalid OP_entry_value expression")

/-- The end of the expression of an `OP_GNU_entry_value`. -/
def leaveEntry (saved : Eval Frame) (size : Nat) (pending : List (Pending Frame)) :
    Vm Frame Unit := do
  lastPiece
  let (v, type) ← entryResult env
  modify fun s => { s with eval := saved, pending }
  push v type
  modifyEval fun e => { e with codePos := e.codePos + size }

/-- A round of the loop of `evaluate_expression`, or the end of the loop; `true` when the
outermost expression has come to its end. -/
def evaluateStep : Vm Frame Bool := do
  let s ← get
  if s.eval.codePos < s.eval.codeLen then do
    let op ← nextByte data
    modifyEval Eval.reserve
    execute env data op
    return false
  else
    match s.pending with
    | [] =>
      lastPiece
      return true
    | .switchBody endPos codeLenOrg :: pending =>
      modify fun s =>
        { s with eval := { s.eval with codeLen := codeLenOrg, codePos := endPos }, pending }
      return false
    | .entryValue saved size :: pending =>
      leaveEntry env saved size pending
      return false

end

/-- Where a run is. -/
inductive Status (Frame : Type) where
  | running (s : State Frame)
  | finished (s : State Frame)
  | raised (f : Failure)

/-- The state at the beginning of `evaluate_vm_expression`. -/
def Eval.start (e : Eval Frame) : Status Frame :=
  if e.codeLen = 0 then .raised (invDwarf "location expression size = 0")
  else .running ⟨e, none, none, 0, []⟩

/-- A step of an evaluation; `none` is an access out of bounds. -/
def step (env : Env Frame) (data : List UInt8) : Status Frame → Unit → Option (Status Frame)
  | .running s, _ =>
    match evaluateStep env data s with
    | .ok (false, s) => some (.running s)
    | .ok (true, s) => some (.finished s)
    | .error (.raise f) => some (.raised f)
    | .error .fault => none
  | status, _ => some status

end TcfAgent.VmEval
