import TcfAgent.Services.Vm

/-!
# DWARF expressions of stack frames

`add_dwarf_expression_commands` of `services/dwarfframe.c` translates an expression of the
call frame information into location expression commands, and those are evaluated with the
frame (`framework/cpudefs.c`). The virtual machine of `services/vm.c` evaluates the same
expression directly.

`FrameOp` are the operations that both know, with the bytes of their operands. What they
mean is an `Action` on a stack of words; the two evaluators are compared with that.

The comparison of the two is in `DwarfFrameAgree`.
-/

namespace TcfAgent.DwarfFrame

open TcfAgent.Lib TcfAgent.Location TcfAgent.Dwarf TcfAgent.Vm

/-! ## Reading a section -/

/-- `rules`, as far as expressions are concerned. The byte order is that of the file.
Relocation gives the section that the address is in. -/
structure Rules (Reg : Type) extends Scope Reg where
  sectionName : Option String
  elf64 : Bool
  relocate : (pos size : Nat) → Word → Except Failure (Word × Option Nat)
  mapToRunTimeAddress : Option Nat → Word → Except Nat Word

variable {Reg : Type} (r : Rules Reg)

def eof : Failure := exception Err.eof

def dioReadU1 : Reader Failure UInt8 := readByte eof

/-- `if (sDataPos + n > sDataLen) exception(ERR_EOF)`. -/
def dioCheck (n : Nat) : Reader Failure Unit := fun c =>
  if c.data.length < c.pos + n then .error eof else .ok ((), c)

def dioReadU2 : Reader Failure (BitVec 16) := do
  dioCheck 2
  let x0 ← dioReadU1
  let x1 ← dioReadU1
  let x0 := x0.toBitVec.setWidth 16
  let x1 := x1.toBitVec.setWidth 16
  return if r.bigEndian then (x0 <<< 8) ||| x1 else x0 ||| (x1 <<< 8)

/-- The word is loaded with the byte order of the host, which has the lowest byte first, and
swapped when the file has the other one. -/
def dioReadU4 : Reader Failure (BitVec 32) := do
  dioCheck 4
  let x0 ← dioReadU1
  let x1 ← dioReadU1
  let x2 ← dioReadU1
  let x3 ← dioReadU1
  return if r.bigEndian then x0.toBitVec ++ x1.toBitVec ++ x2.toBitVec ++ x3.toBitVec
    else x3.toBitVec ++ x2.toBitVec ++ x1.toBitVec ++ x0.toBitVec

def dioReadU8 : Reader Failure (BitVec 64) := do
  dioCheck 8
  let x0 ← dioReadU1
  let x1 ← dioReadU1
  let x2 ← dioReadU1
  let x3 ← dioReadU1
  let x4 ← dioReadU1
  let x5 ← dioReadU1
  let x6 ← dioReadU1
  let x7 ← dioReadU1
  return if r.bigEndian then
      x0.toBitVec ++ x1.toBitVec ++ x2.toBitVec ++ x3.toBitVec ++
        x4.toBitVec ++ x5.toBitVec ++ x6.toBitVec ++ x7.toBitVec
    else
      x7.toBitVec ++ x6.toBitVec ++ x5.toBitVec ++ x4.toBitVec ++
        x3.toBitVec ++ x2.toBitVec ++ x1.toBitVec ++ x0.toBitVec

def dioReadULEB128 : Reader Failure (BitVec 32) := uleb eof 32

def dioReadU8LEB128 : Reader Failure (BitVec 64) := uleb eof 64

def dioReadS8LEB128 : Reader Failure (BitVec 64) := sleb eof 64

/-- `dio_ReadAddress`: without a unit, the size of an address is that of the file. -/
def dioReadAddress : Reader Failure (Word × Option Nat) := do
  let pos := (← get).pos
  let x ← (if r.elf64 then dioReadU8 r else do return (← dioReadU4 r).setWidth 64)
  r.relocate pos (if r.elf64 then 8 else 4) x

/-! ## Translation -/

/-- `get_reg_by_id`, and a command that reads the register. -/
def readRegCommand (id : Nat) : Except Failure (Command Reg) :=
  match r.getRegById id with
  | .ok reg => .ok (.rdReg reg)
  | .error errno => .error (strException errno "Cannot read DWARF frame info")

/-- `OP_breg*` and `OP_bregx`, after the operands. -/
def baseRegisterCommands (id : Nat) (offs : Word) : Except Failure (List (Command Reg)) := do
  let cmd ← readRegCommand r id
  return if offs = 0 then [cmd] else [cmd, .number offs, .add]

/-- The number that an operation pushes. -/
def constantOperand (op : UInt8) : Option (Reader Failure Word) :=
  if op = Op.const1u then some do return (← dioReadU1).toBitVec.setWidth 64
  else if op = Op.const1s then some do return (← dioReadU1).toBitVec.signExtend 64
  else if op = Op.const2u then some do return (← dioReadU2 r).setWidth 64
  else if op = Op.const2s then some do return (← dioReadU2 r).signExtend 64
  else if op = Op.const4u then some do return (← dioReadU4 r).setWidth 64
  else if op = Op.const4s then some do return (← dioReadU4 r).signExtend 64
  else if op = Op.const8u then some (dioReadU8 r)
  else if op = Op.const8s then some (dioReadU8 r)
  else if op = Op.constu then some dioReadU8LEB128
  else if op = Op.consts then some dioReadS8LEB128
  else if Op.lit0 ≤ op ∧ op ≤ Op.lit31 then
    some (pure ((op - Op.lit0).toBitVec.setWidth 64))
  else none

/-- The operations that are translated to one command without operands. -/
def plainCommand (op : UInt8) : Option (Command Reg) :=
  if op = Op.and then some .and
  else if op = Op.minus then some .sub
  else if op = Op.or then some .or
  else if op = Op.plus then some .add
  else if op = Op.ge then some .ge
  else if op = Op.gt then some .gt
  else if op = Op.le then some .le
  else if op = Op.lt then some .lt
  else if op = Op.shl then some .shl
  else none

/-- The other operations. -/
def specialCommands (op : UInt8) : Reader Failure (List (Command Reg)) :=
  if op = Op.addr then do
    let (ltAddr, section_) ← dioReadAddress r
    match r.mapToRunTimeAddress section_ ltAddr with
    | .ok rtAddr => return [.number rtAddr]
    | .error errno => throw (strException errno "Cannot get object run-time address")
  else if op = Op.deref then return [.rdMem r.addrSize r.bigEndian]
  else if op = Op.derefSize then do
    let size ← dioReadU1
    return [.rdMem size.toNat r.bigEndian]
  else if op = Op.plusUconst then do
    let n ← dioReadU8LEB128
    return [.number n, .add]
  else if Op.reg0 ≤ op ∧ op ≤ Op.reg31 then do
    let cmd ← readRegCommand r (op - Op.reg0).toNat
    return [cmd]
  else if op = Op.regx then do
    let n ← dioReadULEB128
    let cmd ← readRegCommand r n.toNat
    return [cmd]
  else if Op.breg0 ≤ op ∧ op ≤ Op.breg31 then do
    let offs ← dioReadS8LEB128
    baseRegisterCommands r (op - Op.breg0).toNat offs
  else if op = Op.bregx then do
    let n ← dioReadULEB128
    let offs ← dioReadS8LEB128
    baseRegisterCommands r n.toNat offs
  else if op = Op.nop then return []
  else throw (strException Err.unsupported "Unsupported DWARF expression op")

/-- One case of the `switch`: the commands that are added. -/
def addCommands (op : UInt8) : Reader Failure (List (Command Reg)) :=
  match constantOperand r op, plainCommand op with
  | some read, _ => do return [.number (← read)]
  | none, some cmd => return [cmd]
  | none, none => specialCommands r op

/-- The loop up to the position `stop`. An operation takes one byte at least; when as many
as there are bytes have been read, no byte is left. -/
def addLoop (stop : Nat) : (fuel : Nat) → Reader Failure (List (Command Reg))
  | 0 => do
    if (← get).pos < stop then throw eof
    return []
  | fuel + 1 => do
    if (← get).pos < stop then
      let op ← dioReadU1
      let cmds ← addCommands r op
      return cmds ++ (← addLoop stop fuel)
    return []

def invalidOffset : Failure :=
  match r.sectionName with
  | none => exception Err.invDwarf
  | some name => strException Err.invDwarf ("Invalid offset in '" ++ name ++ "' section")

/-- `add_dwarf_expression_commands`, on the data of `rules.section`. -/
def addDwarfExpressionCommands (data : List UInt8) (cmdsOffs cmdsSize : Nat) :
    Except Failure (List (Command Reg)) := do
  if data.length < cmdsOffs then throw (invalidOffset r)
  let (cmds, _) ← addLoop r (cmdsOffs + cmdsSize) data.length ⟨data, cmdsOffs⟩
  return cmds

end TcfAgent.DwarfFrame
