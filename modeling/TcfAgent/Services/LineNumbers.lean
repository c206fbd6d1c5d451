import TcfAgent.Lib.Loops
import TcfAgent.Services.DwarfIo

/-!
# Line number programs

`load_line_numbers_v2` of `services/dwarfcache.c`: the header of a line number program of DWARF 2 to
4, and the program itself, which gives one row after the other to `add_state`.

What C leaves undefined is a fault here: a division by zero, and bytes that are read beyond the end
of `opcode_size`.
-/

namespace TcfAgent.LineNumbers

open TcfAgent.Lib hiding raise fault ensure orFault orRaise bind_of_ok bind_of_error bind_eq_ok
open TcfAgent.Lib.Attempt TcfAgent.Location TcfAgent.DwarfIo

/-! ## Rows -/

/-- `mFlags` -/
structure LineFlags where
  isStmt        : Bool := false
  basicBlock    : Bool := false
  prologueEnd   : Bool := false
  epilogueBegin : Bool := false
  endSequence   : Bool := false
deriving DecidableEq, Repr

/-- A section of number 0 is none. -/
structure LineNumbersState where
  address       : BitVec 64 := 0
  sec           : Nat := 0
  file          : BitVec 32 := 0
  line          : BitVec 32 := 0
  column        : BitVec 16 := 0
  flags         : LineFlags := {}
  isa           : BitVec 8 := 0
  opIndex       : BitVec 8 := 0
  discriminator : BitVec 8 := 0
deriving DecidableEq, Repr

/-- Names are positions in the section. Without a directory of its own a file is in that of the
unit. -/
structure FileInfo where
  name    : Option Nat
  dir     : Option Nat
  modTime : BitVec 32
  size    : BitVec 32
  areaCnt : Nat := 0
deriving DecidableEq, Repr

/-- `mDirs`, `mFiles` and `mStates` of a unit. -/
structure UnitLines where
  dirs   : List Nat
  files  : List FileInfo
  states : List LineNumbersState
deriving DecidableEq, Repr

/-- The flags but for two of them. -/
def LineFlags.strip (flags : LineFlags) : LineFlags :=
  { flags with isStmt := false, basicBlock := false }

/-- A state at the end of the table, or what is known of it in the last one. -/
def UnitLines.push (u : UnitLines) (state : LineNumbersState) : UnitLines :=
  match u.states.getLast? with
  | none => { u with states := [state] }
  | some last =>
    if last.address = state.address ∧ last.sec = state.sec ∧ last.file = state.file ∧
        last.line = state.line ∧ last.column ≤ state.column ∧ last.flags.strip = state.flags then
      { u with states := u.states.dropLast ++ [{ last with
        isa := state.isa
        opIndex := state.opIndex
        discriminator := state.discriminator }] }
    else if state.line = 0 ∧ state.address = 1 ∧ state.flags = { endSequence := true } then
      { u with states := u.states.dropLast ++
        [{ last with flags := { last.flags with endSequence := true } }] }
    else { u with states := u.states ++ [state] }

/-- `mAreaCnt++` -/
def UnitLines.count (u : UnitLines) (file : Nat) : UnitLines :=
  { u with files := u.files.modify file fun f => { f with areaCnt := f.areaCnt + 1 } }

/-- `add_state`: the first state of a file comes after one for its first line. -/
def UnitLines.addState (u : UnitLines) (state : LineNumbersState) : UnitLines :=
  match u.files[state.file.toNat]? with
  | none => u
  | some f =>
    let u := u.count state.file.toNat
    if f.areaCnt = 0 then
      ((u.count state.file.toNat).push
        { line := 1, file := state.file, sec := state.sec, address := state.address }).push state
    else u.push state

/-! ## The state -/

/-- `given` is what `add_state` was called with. -/
structure LineState where
  io    : DwarfIo.State
  unit  : UnitLines
  state : LineNumbersState
  given : List LineNumbersState

abbrev Line (α : Type) : Type := Attempt LineState Failure α

def io {α : Type} (p : Io α) : Line α := part LineState.io (fun io s => { s with io := io }) p

def onUnit (f : UnitLines → UnitLines) : Line PUnit := modify fun s => { s with unit := f s.unit }

def onState (f : LineNumbersState → LineNumbersState) : Line PUnit :=
  modify fun s => { s with state := f s.state }

/-- `dio_GetPos` -/
def getPos : Line Nat := do return (← get).io.pos

/-- `add_state(Unit, &state)` -/
def addState : Line PUnit := modify fun s => { s with
  unit := s.unit.addState s.state
  given := s.given ++ [s.state] }

/-- A quotient and what is left. -/
def divide (a b : Nat) : Line (Nat × Nat) := do
  ensure (b ≠ 0)
  return (a / b, a % b)

structure Header where
  headerSize           : Nat
  headerPos            : Nat
  minInstructionLength : UInt8
  maxOps               : UInt8
  isStmtDefault        : Bool
  lineBase             : Int
  lineRange            : UInt8
  opcodeBase           : UInt8
  opcodeSize           : List UInt8

/-- The state at the beginning of a sequence. -/
def Header.start (h : Header) : LineNumbersState :=
  { file := 1, line := 1, flags := { isStmt := h.isStmtDefault } }

section

variable (env : Env)

def readU1 : Line UInt8 := io (scan (DwarfIo.readU1 env.sec))

def readULEB128 : Line (BitVec 32) := io (scan (DwarfIo.readULEB128 env.sec))

def readSLEB128 : Line (BitVec 32) := io (scan (DwarfIo.readSLEB128 env.sec))

def readU8LEB128 : Line (BitVec 64) := io (scan (DwarfIo.readU8LEB128 env.sec))

def readString : Line (Option Nat) := io (scan (DwarfIo.readString env.sec))

/-- A number of 8 bytes for DWARF64, and of 4 otherwise. -/
def readOffset (dwarf64 : Bool) : Line Nat :=
  io (scan (if dwarf64 then DwarfIo.readU8 env.sec else DwarfIo.readU4 env.sec))

/-! ## The header -/

def readMaxOps (version : Nat) : Line UInt8 := if 4 ≤ version then readU1 env else pure 1

/-- The sizes of the opcodes are not used any more. -/
def readHeader (dwarf64 : Bool) : Line Header := do
  let version ← io (scan (DwarfIo.readU2 env.sec))
  if version < 2 ∨ 4 < version then raise (invDwarf "Invalid line number info version")
  else do
    let headerSize ← readOffset env dwarf64
    let headerPos ← getPos
    let minInstructionLength ← readU1 env
    let maxOps ← readMaxOps env version
    let isStmtDefault ← readU1 env
    let lineBase ← readU1 env
    let lineRange ← readU1 env
    let opcodeBase ← readU1 env
    let size := BitVec.ofNat 32 opcodeBase.toNat - 1
    let opcodeSize ← io (scan (read env.sec size))
    -- `opcode_size` has 255 bytes behind its first one
    ensure (size.toNat ≤ 255)
    return {
      headerSize := headerSize
      headerPos := headerPos
      minInstructionLength := minInstructionLength
      maxOps := maxOps
      isStmtDefault := isStmtDefault ≠ 0
      lineBase := lineBase.toBitVec.toInt
      lineRange := lineRange
      opcodeBase := opcodeBase
      opcodeSize := opcodeSize }

/-- The names of directories go on. -/
def nextDir : Line (PUnit ⊕ PUnit) := do
  let name ← readString env
  match name with
  | none => return .inr ⟨⟩
  | some name => do
    onUnit fun u => { u with dirs := u.dirs ++ [name] }
    return .inl ⟨⟩

/-- What comes after the name of a file. -/
def readFile (name : Option Nat) : Line PUnit := do
  let dir ← readULEB128 env
  let modTime ← readULEB128 env
  let size ← readULEB128 env
  onUnit fun u => { u with files := u.files ++ [{
    name := name
    dir := if dir = 0 then none else u.dirs[dir.toNat - 1]?
    modTime := modTime
    size := size }] }

def nextFile : Line (PUnit ⊕ PUnit) := do
  let name ← readString env
  match name with
  | none => return .inr ⟨⟩
  | some name => do
    readFile env (some name)
    return .inl ⟨⟩

/-- GCC for MIPS64 writes a length that is 12 too large. -/
def checkHeader (dwarf64 : Bool) (h : Header) : Line PUnit := do
  let pos ← getPos
  if u8 (h.headerPos + h.headerSize) = pos ∨
      (dwarf64 = true ∧ u8 (h.headerPos + h.headerSize) = u8 (pos + 12)) then pure ⟨⟩
  else raise (invDwarf "Invalid line info header")

/-! ## The program -/

/-- What is reset after a row. -/
def LineFlags.afterRow (flags : LineFlags) : LineFlags :=
  { flags with basicBlock := false, prologueEnd := false, epilogueBegin := false }

def special (h : Header) (opcode : UInt8) : Line PUnit := do
  let adjusted := opcode.toNat - h.opcodeBase.toNat
  let q ← divide adjusted h.lineRange.toNat
  let s ← get
  let ops ← divide (s.state.opIndex.toNat + q.1) h.maxOps.toNat
  onState fun state => { state with
    line := state.line + BitVec.ofInt 32 (q.2 + h.lineBase)
    address := state.address + BitVec.ofNat 64 (ops.1 * h.minInstructionLength.toNat)
    opIndex := BitVec.ofNat 8 ops.2 }
  addState
  onState fun state => { state with flags := state.flags.afterRow, discriminator := 0 }

/-- What comes after the size of an extended opcode. -/
def extendedBody (h : Header) (opSize : BitVec 32) (code : UInt8) : Line PUnit :=
  if code = 3 then do
    let name ← readString env
    readFile env name
  else if code = 1 then do
    onState fun state => { state with flags := { state.flags with endSequence := true } }
    addState
    onState fun _ => h.start
  else if code = 2 then do
    let r ← io (readAddress env)
    onState fun state => { state with address := r.1, sec := r.2.getD 0 }
  else if code = 4 then do
    let n ← readULEB128 env
    onState fun state => { state with discriminator := n.setWidth 8 }
  else io (scan (skip env.sec (BitVec.ofNat 64 (opSize - 1).toNat)))

def extended (h : Header) : Line PUnit := do
  let opSize ← readULEB128 env
  let opPos ← getPos
  let code ← readU1 env
  extendedBody env h opSize code
  let pos ← getPos
  if pos = u8 (opPos + opSize.toNat) then pure ⟨⟩
  else raise (invDwarf "Invalid line info op size")

def standard (h : Header) (opcode : UInt8) : Line PUnit :=
  match opcode.toNat with
  | 1 => do
    addState
    onState fun state => { state with flags := state.flags.afterRow }
  | 2 => do
    let n ← readU8LEB128 env
    onState fun state => { state with
      address := state.address + n * BitVec.ofNat 64 h.minInstructionLength.toNat }
  | 3 => do
    let n ← readSLEB128 env
    onState fun state => { state with line := state.line + n }
  | 4 => do
    let n ← readULEB128 env
    onState fun state => { state with file := n }
  | 5 => do
    let n ← readULEB128 env
    onState fun state => { state with column := n.setWidth 16 }
  | 6 => onState fun state => { state with
      flags := { state.flags with isStmt := !state.flags.isStmt } }
  | 7 => onState fun state => { state with flags := { state.flags with basicBlock := true } }
  | 8 => do
    let q ← divide (255 - h.opcodeBase.toNat) h.lineRange.toNat
    onState fun state => { state with
      address := state.address + BitVec.ofNat 64 (q.1 * h.minInstructionLength.toNat) }
  | 9 => do
    let r ← io (readAddressX env 2)
    onState fun state => { state with address := state.address + r.1 }
  | 10 => onState fun state => { state with flags := { state.flags with prologueEnd := true } }
  | 11 => onState fun state => { state with flags := { state.flags with epilogueBegin := true } }
  | 12 => do
    let n ← readULEB128 env
    onState fun state => { state with isa := n.setWidth 8 }
  | _ => raise (invDwarf "Invalid line info op code")

def execute (h : Header) : Line PUnit := do
  let opcode ← readU1 env
  if h.opcodeBase ≤ opcode then special h opcode
  else if opcode = 0 then extended env h
  else standard env h opcode

/-- `while (dio_GetPos() < end)` -/
def nextOpcode (h : Header) (last : Nat) : Line (PUnit ⊕ PUnit) := do
  let pos ← getPos
  if pos < last then do
    execute env h
    return .inl ⟨⟩
  else return .inr ⟨⟩

/-- A loop that has no values of its own. -/
def loop (step : Line (PUnit ⊕ PUnit)) : Program LineState (Stop Failure) PUnit :=
  Program.loop (fun _ => Program.plain step) ⟨⟩

def loadLineNumbersV2 (lineInfoOffs unitSize : Nat) (dwarf64 : Bool) :
    Program LineState (Stop Failure) PUnit := do
  let h ← Program.plain (readHeader env dwarf64)
  loop (nextDir env)
  loop (nextFile env)
  Program.plain (checkHeader dwarf64 h)
  Program.plain (onState fun _ => h.start)
  loop (nextOpcode env h (u8 (lineInfoOffs + unitSize)))

end

end TcfAgent.LineNumbers
