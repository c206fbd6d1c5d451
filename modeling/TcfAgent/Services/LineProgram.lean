import TcfAgent.Services.DwarfBytes

/-!
# The line number programs of DWARF

Headers and programs of DWARF 2 to 4 as the format has them: how they are spelled in a section, the
registers of the state machine, and the matrix of rows that a program appends to.

An address is a number of 64 bits. An operand that is one can be relocated, so that it is what
`readAddressX` gives; every other operand is spelled by its bytes.
-/

namespace TcfAgent.LineProgram

open TcfAgent.Lib hiding raise fault ensure orFault orRaise bind_of_ok bind_of_error bind_eq_ok
open TcfAgent.Lib.Attempt TcfAgent.Location TcfAgent.DwarfIo

/-! ## Headers -/

/-- A number is given by its bytes. -/
structure Leb where
  raw  : List UInt8
  ends : Leb128.Ends raw

/-- A string that is not empty. -/
structure Name where
  chars   : List UInt8
  noZero  : 0 ∉ chars
  notNil  : chars ≠ []

def Name.bytes (name : Name) : List UInt8 := name.chars ++ [0]

structure FileEntry where
  name    : Name
  dir     : Leb
  modTime : Leb
  size    : Leb

def FileEntry.bytes (f : FileEntry) : List UInt8 :=
  f.name.bytes ++ (f.dir.raw ++ (f.modTime.raw ++ f.size.raw))

/-- The header of a program, as the standard has it. -/
structure Prologue where
  version              : Nat
  minInstructionLength : UInt8
  maxOps               : UInt8
  defaultIsStmt        : UInt8
  lineBase             : UInt8
  lineRange            : UInt8
  opcodeBase           : UInt8
  opcodeLengths        : List UInt8
  dirs                 : List Name
  files                : List FileEntry
  versionKnown         : 2 ≤ version ∧ version ≤ 4
  maxOpsSome           : maxOps ≠ 0
  maxOpsOld            : version < 4 → maxOps = 1
  lineRangeSome        : lineRange ≠ 0
  opcodeBaseSome       : opcodeBase ≠ 0
  lengthsOf            : opcodeLengths.length + 1 = opcodeBase.toNat

namespace Prologue

variable (p : Prologue)

/-- DWARF 4 has one more field. -/
def maxOpsBytes : List UInt8 := if 4 ≤ p.version then [p.maxOps] else []

def dirBytes : List UInt8 := p.dirs.flatMap Name.bytes ++ [0]

def fileBytes : List UInt8 := p.files.flatMap FileEntry.bytes ++ [0]

/-- What comes after the length of the header. -/
def body : List UInt8 :=
  [p.minInstructionLength] ++ (p.maxOpsBytes ++ ([p.defaultIsStmt] ++ ([p.lineBase] ++
    ([p.lineRange] ++ ([p.opcodeBase] ++ (p.opcodeLengths ++ (p.dirBytes ++ p.fileBytes)))))))

end Prologue

/-- The bytes are the header, with its version and its length in front. -/
structure SpelledPrologue (big dwarf64 : Bool) (p : Prologue) (bytes : List UInt8) : Prop where
  spelled : ∃ version length : List UInt8,
    version.length = 2 ∧ number big version = p.version ∧
    length.length = (if dwarf64 then 8 else 4) ∧ number big length = p.body.length ∧
    bytes = version ++ (length ++ p.body)

/-! ## Instructions -/

/-- The extended opcodes. -/
inductive ExtendedOp where
  | endSequence
  | setAddress (address : Word)
  | defineFile
  | setDiscriminator (n : Nat)
  | unknown
deriving DecidableEq, Repr

/-- The adjusted opcode of a special one; the size of an extended one. -/
inductive Insn where
  | special (adjusted : Nat)
  | copy
  | advancePc (n : Nat)
  | advanceLine (z : Int)
  | setFile (n : Nat)
  | setColumn (n : Nat)
  | negateStmt
  | setBasicBlock
  | constAddPc
  | fixedAdvancePc (n : Word)
  | setPrologueEnd
  | setEpilogueBegin
  | setIsa (n : Nat)
  | unknown
  | extended (size : Nat) (op : ExtendedOp)
deriving DecidableEq, Repr

/-- The position is so many bytes further. -/
def moved (s : DwarfIo.State) (n : Nat) : DwarfIo.State := { s with pos := s.pos + n }

section

variable (env : Env)

/-- The operands of a standard opcode. One that is not known has as many numbers as declared. -/
inductive Operands (p : Prologue) : UInt8 → Insn → DwarfIo.State → DwarfIo.State → Prop
  | copy (s : DwarfIo.State) : Operands p 1 .copy s s
  | advancePc (s : DwarfIo.State) (n : Leb) (h : Here env.sec s.pos n.raw) :
      Operands p 2 (.advancePc (Leb128.value n.raw)) s (moved s n.raw.length)
  | advanceLine (s : DwarfIo.State) (n : Leb) (h : Here env.sec s.pos n.raw) :
      Operands p 3 (.advanceLine (Leb128.signedValue n.raw)) s (moved s n.raw.length)
  | setFile (s : DwarfIo.State) (n : Leb) (h : Here env.sec s.pos n.raw) :
      Operands p 4 (.setFile (Leb128.value n.raw)) s (moved s n.raw.length)
  | setColumn (s : DwarfIo.State) (n : Leb) (h : Here env.sec s.pos n.raw) :
      Operands p 5 (.setColumn (Leb128.value n.raw)) s (moved s n.raw.length)
  | negateStmt (s : DwarfIo.State) : Operands p 6 .negateStmt s s
  | setBasicBlock (s : DwarfIo.State) : Operands p 7 .setBasicBlock s s
  | constAddPc (s : DwarfIo.State) : Operands p 8 .constAddPc s s
  | fixedAdvancePc (s s' : DwarfIo.State) (n : Word) (sec : Option Nat)
      (h : readAddressX env 2 s = (.ok (n, sec), s')) : Operands p 9 (.fixedAdvancePc n) s s'
  | setPrologueEnd (s : DwarfIo.State) : Operands p 10 .setPrologueEnd s s
  | setEpilogueBegin (s : DwarfIo.State) : Operands p 11 .setEpilogueBegin s s
  | setIsa (s : DwarfIo.State) (n : Leb) (h : Here env.sec s.pos n.raw) :
      Operands p 12 (.setIsa (Leb128.value n.raw)) s (moved s n.raw.length)
  | unknown (s : DwarfIo.State) (opcode size : UInt8) (args : List Leb) (hOpcode : 13 ≤ opcode)
      (hSize : p.opcodeLengths[opcode.toNat - 1]? = some size) (hArgs : args.length = size.toNat)
      (h : Here env.sec s.pos (args.flatMap Leb.raw)) :
      Operands p opcode .unknown s (moved s (args.flatMap Leb.raw).length)

/-- What comes after the code of an extended opcode. -/
inductive ExtendedOperands : UInt8 → ExtendedOp → DwarfIo.State → DwarfIo.State → Prop
  | endSequence (s : DwarfIo.State) : ExtendedOperands 1 .endSequence s s
  | setAddress (s s' : DwarfIo.State) (address : Word) (sec : Option Nat)
      (h : readAddress env s = (.ok (address, sec), s')) :
      ExtendedOperands 2 (.setAddress address) s s'
  | defineFile (s : DwarfIo.State) (f : FileEntry) (h : Here env.sec s.pos f.bytes) :
      ExtendedOperands 3 .defineFile s (moved s f.bytes.length)
  | setDiscriminator (s : DwarfIo.State) (n : Leb) (h : Here env.sec s.pos n.raw) :
      ExtendedOperands 4 (.setDiscriminator (Leb128.value n.raw)) s (moved s n.raw.length)
  | unknown (s : DwarfIo.State) (code : UInt8) (bytes : List UInt8)
      (hCode : code ≠ 1 ∧ code ≠ 2 ∧ code ≠ 3 ∧ code ≠ 4) (h : Here env.sec s.pos bytes) :
      ExtendedOperands code .unknown s (moved s bytes.length)

/-- An instruction, from its first byte to what comes after it. -/
inductive Spelled (p : Prologue) : Insn → DwarfIo.State → DwarfIo.State → Prop
  | special (s : DwarfIo.State) (opcode : UInt8) (hOpcode : p.opcodeBase ≤ opcode)
      (h : Here env.sec s.pos [opcode]) :
      Spelled p (.special (opcode.toNat - p.opcodeBase.toNat)) s (moved s 1)
  | standard (s s' : DwarfIo.State) (opcode : UInt8) (i : Insn) (hOpcode : opcode < p.opcodeBase)
      (h : Here env.sec s.pos [opcode]) (hOperands : Operands env p opcode i (moved s 1) s') :
      Spelled p i s s'
  | extended (s s' : DwarfIo.State) (size : Leb) (code : UInt8) (op : ExtendedOp)
      (h : Here env.sec s.pos (0 :: (size.raw ++ [code])))
      (hOperands : ExtendedOperands env code op (moved s (1 + (size.raw.length + 1))) s')
      (hSize : s'.pos = s.pos + (1 + size.raw.length) + Leb128.value size.raw) :
      Spelled p (.extended (Leb128.value size.raw) op) s s'

/-- One instruction after the other. -/
inductive SpelledProgram (p : Prologue) : List Insn → DwarfIo.State → DwarfIo.State → Prop
  | nil (s : DwarfIo.State) : SpelledProgram p [] s s
  | cons {s s' s'' : DwarfIo.State} {i : Insn} {is : List Insn} (h : Spelled env p i s s')
      (hRest : SpelledProgram p is s' s'') : SpelledProgram p (i :: is) s s''

end

/-! ## The state machine -/

/-- The registers; a row of the matrix is what they were. -/
structure Registers where
  address       : Word := 0
  opIndex       : Nat := 0
  file          : Nat := 1
  line          : Int := 1
  column        : Nat := 0
  isStmt        : Bool
  basicBlock    : Bool := false
  endSequence   : Bool := false
  prologueEnd   : Bool := false
  epilogueBegin : Bool := false
  isa           : Nat := 0
  discriminator : Nat := 0
deriving DecidableEq, Repr

section

variable (p : Prologue)

/-- The registers at the beginning of a sequence. -/
def start : Registers := { isStmt := p.defaultIsStmt ≠ 0 }

def signedBase : Int := p.lineBase.toBitVec.toInt

/-- An operation advance. -/
def advance (n : Nat) (r : Registers) : Registers :=
  { r with
    address := r.address +
      BitVec.ofNat 64 (p.minInstructionLength.toNat * ((r.opIndex + n) / p.maxOps.toNat))
    opIndex := (r.opIndex + n) % p.maxOps.toNat }

/-- What is reset when a row was appended. -/
def Registers.afterRow (r : Registers) : Registers :=
  { r with basicBlock := false, prologueEnd := false, epilogueBegin := false, discriminator := 0 }

/-- The operation advance of the special opcode 255. -/
def constAdvance : Nat := (255 - p.opcodeBase.toNat) / p.lineRange.toNat

/-- What a special opcode makes of the registers before it appends a row. -/
def specialRow (adjusted : Nat) (r : Registers) : Registers :=
  { advance p (adjusted / p.lineRange.toNat) r with
    line := r.line + (signedBase p + (adjusted % p.lineRange.toNat : Nat)) }

/-- The rows that are appended, and the registers afterwards. -/
def step (r : Registers) : Insn → List Registers × Registers
  | .special adjusted => ([specialRow p adjusted r], (specialRow p adjusted r).afterRow)
  | .copy => ([r], r.afterRow)
  | .advancePc n => ([], advance p n r)
  | .advanceLine z => ([], { r with line := r.line + z })
  | .setFile n => ([], { r with file := n })
  | .setColumn n => ([], { r with column := n })
  | .negateStmt => ([], { r with isStmt := !r.isStmt })
  | .setBasicBlock => ([], { r with basicBlock := true })
  | .constAddPc => ([], advance p (constAdvance p) r)
  | .fixedAdvancePc n => ([], { r with address := r.address + n, opIndex := 0 })
  | .setPrologueEnd => ([], { r with prologueEnd := true })
  | .setEpilogueBegin => ([], { r with epilogueBegin := true })
  | .setIsa n => ([], { r with isa := n })
  | .unknown => ([], r)
  | .extended _ .endSequence => ([{ r with endSequence := true }], start p)
  | .extended _ (.setAddress address) => ([], { r with address := address, opIndex := 0 })
  | .extended _ .defineFile => ([], r)
  | .extended _ (.setDiscriminator n) => ([], { r with discriminator := n })
  | .extended _ .unknown => ([], r)

/-- The rows that a program appends. -/
def matrix (r : Registers) : List Insn → List Registers
  | [] => []
  | i :: is => (step p r i).1 ++ matrix (step p r i).2 is

end

end TcfAgent.LineProgram
