import TcfAgent.Lib.Attempt
import TcfAgent.Lib.ByteReader
import TcfAgent.Framework.LocationCommands

/-!
# Reading DWARF sections

The reader of `services/dwarfio.c`. Positions are numbers of 64 bits that wrap, a byte outside of
the section is a fault, and what an exception leaves behind stays.

A relocation is applied as `drl_relocate` applies it: its records come with the function that the
machine has for them, and the value of the last symbol is kept from one relocation to the next.
-/

namespace TcfAgent.DwarfIo

open TcfAgent.Lib hiding raise fault ensure orFault orRaise bind_of_ok bind_of_error bind_eq_ok
open TcfAgent.Lib.Attempt TcfAgent.Location

/-! ## Files -/

/-- The symbol of a relocation. An absolute one has no section. -/
structure Symbol where
  value : Word
  sec   : Option Nat

/-- A record of a relocation section. Without a symbol `sym_index` is `STN_UNDEF`; the function of
the machine takes the value of the symbol and what was read, and there is none for
`R_*_NONE`. -/
structure Record where
  symbol : Option (Except Failure Symbol)
  func   : (size : Nat) → Except Failure (Option (Word → Word → Word))

structure Relocations where
  ready       : Except Failure PUnit
  relocatable : Bool
  records     : (offset : Nat) → List Record

/-- A section that `elf_load` has been called for. There is no `data` where there are no bytes. -/
structure Section where
  name      : Option String
  addr      : Word
  data      : List UInt8
  bigEndian : Bool
  elf64     : Bool
  loaded    : Except Failure PUnit
  relocate  : Option Relocations
  size_lt   : data.length < 2 ^ 64

structure StringTable where
  addr : Word
  data : List UInt8

/-- `DIO_Abbreviation` -/
structure Abbreviation where
  tag      : BitVec 16
  children : Bool
  attrs    : List (BitVec 16 × BitVec 16)
deriving DecidableEq, Repr

/-- `mUnitSize` can change and is in the state. -/
structure UnitDescriptor where
  version     : BitVec 16
  m64bit      : Bool
  addressSize : UInt8
  unitOffs    : Word
  abbrevTable : List (Option Abbreviation)

/-- What stays as it is between `dio_EnterSection` and `dio_ExitSection`. -/
structure Env where
  sec     : Section
  unit    : Option UnitDescriptor
  strings : (alt : Bool) → Except Failure StringTable

def invDwarf (text : String) : Failure := strException Err.invDwarf text

def eof : Failure := exception Err.eof

/-! ## Numbers -/

/-- A value of type `U8_T`. -/
def u8 (n : Nat) : Nat := n % 2 ^ 64

/-- The number that the bytes are. -/
def number (big : Bool) (bytes : List UInt8) : Nat :=
  (if big then bytes else bytes.reverse).foldl (fun n b => n * 256 + b.toNat) 0

/-- The state is `sDataPos`. -/
abbrev Scan (α : Type) : Type := Attempt Nat Failure α

section

variable (sec : Section)

/-- `sData[sDataPos++]` -/
def nextByte : Scan UInt8 := do
  let pos ← get
  let b ← orFault sec.data[pos]?
  set (u8 (pos + 1))
  return b

def nextBytes : Nat → Scan (List UInt8)
  | 0 => return []
  | n + 1 => do
    let b ← nextByte sec
    let bs ← nextBytes n
    return b :: bs

/-- `if (sDataPos + Size > sDataLen) exception(ERR_EOF)` -/
def checkSize (size : Nat) : Scan PUnit := do
  let pos ← get
  if sec.data.length < u8 (pos + size) then raise eof else pure ⟨⟩

def skip (bytes : BitVec 64) : Scan PUnit := do
  let pos ← get
  let next := u8 (pos + bytes.toNat)
  if sec.data.length < next then raise eof else set next

def setPos (pos : BitVec 64) : Scan PUnit :=
  if sec.data.length < pos.toNat then raise eof else set pos.toNat

def read (size : BitVec 32) : Scan (List UInt8) := do
  checkSize sec size.toNat
  nextBytes sec size.toNat

def readU1 : Scan UInt8 := do
  let pos ← get
  if pos < sec.data.length then nextByte sec else raise eof

/-- A number of so many bytes. -/
def readNumber (size : Nat) : Scan Nat := do
  checkSize sec size
  let bytes ← nextBytes sec size
  return number sec.bigEndian bytes

def readU2 : Scan Nat := readNumber sec 2

def readU4 : Scan Nat := readNumber sec 4

def readU8 : Scan Nat := readNumber sec 8

/-- The loop over the bytes of a LEB128 number. It ends at the end of the section at the latest. -/
def readLeb (w : Nat) (signed : Bool) : (fuel i : Nat) → BitVec w → Scan (BitVec w)
  | 0, _, _ => raise eof
  | fuel + 1, i, res => do
    let n ← readU1 sec
    if n &&& 0x80 = 0 then return res ||| lebBits w i n ||| lebLast w signed i n
    else readLeb w signed fuel (i + 7) (res ||| lebBits w i n)

def readULEB128 : Scan (BitVec 32) := readLeb sec 32 false (sec.data.length + 1) 0 0

def readSLEB128 : Scan (BitVec 32) := readLeb sec 32 true (sec.data.length + 1) 0 0

def readU8LEB128 : Scan (BitVec 64) := readLeb sec 64 false (sec.data.length + 1) 0 0

def readS8LEB128 : Scan (BitVec 64) := readLeb sec 64 true (sec.data.length + 1) 0 0

/-- `while (dio_ReadU1()) Length++` -/
def readChars : (fuel length : Nat) → Scan Nat
  | 0, _ => raise eof
  | fuel + 1, length => do
    let b ← readU1 sec
    if b = 0 then return length else readChars fuel (length + 1)

/-- Where the string is; `Length` is a `U4_T`. -/
def readString : Scan (Option Nat) := do
  let pos ← get
  let length ← readChars sec (sec.data.length + 1) 0
  return if length % 2 ^ 32 = 0 then none else some pos

end

/-! ## The state -/

/-- A pointer to bytes of the section, or of a string table. -/
inductive Pointer where
  | data (pos : Nat)
  | strings (alt : Bool) (offset : Word)
deriving DecidableEq, Repr

/-- `dio_gFormData` and what goes with it. -/
structure FormData where
  data : Word
  size : Nat
  addr : Option Pointer
  sec  : Option Nat
deriving DecidableEq, Repr

/-- A call of the callback. -/
structure Report where
  tag  : BitVec 16
  attr : BitVec 16
  form : BitVec 16
  data : FormData
deriving DecidableEq, Repr

/-- `symValue` is `sym_value` of `dwarfreloc.c`. -/
structure State where
  pos      : Nat
  symValue : Word
  form     : FormData
  unitSize : Word
  entryPos : Nat
  reports  : List Report

abbrev Io (α : Type) : Type := Attempt State Failure α

def scan {α : Type} (p : Scan α) : Io α := part State.pos (fun pos s => { s with pos := pos }) p

def setForm (form : FormData) : Io PUnit := modify fun s => { s with form := form }

section

variable (env : Env)

/-- `sUnit`, which must not be null. -/
def theUnit : Io UnitDescriptor := orFault env.unit

def enterSection (offset : BitVec 64) : Io PUnit := do
  orRaise env.sec.loaded
  if env.sec.data.length < offset.toNat then
    raise (match env.sec.name with
      | none => exception Err.invDwarf
      | some name => invDwarf ("Invalid offset in '" ++ name ++ "' section"))
  else do
    modify fun s => { s with pos := offset.toNat, entryPos := 0 }
    ensure (env.sec.data ≠ [])
    let s ← get
    ensure (s.pos < env.sec.data.length)

def addressSize : Nat :=
  match env.unit with
  | some u => u.addressSize.toNat
  | none => if env.sec.elf64 then 8 else 4

/-- `m64bit ? 8 : 4` -/
def UnitDescriptor.offsetSize (u : UnitDescriptor) : Nat := if u.m64bit then 8 else 4

def refAddressSize : Nat :=
  match env.unit with
  | some u => if u.version.toNat < 3 then u.addressSize.toNat else u.offsetSize
  | none => if env.sec.elf64 then 8 else 4

/-! ## Relocation -/

/-- The first bytes of a number, as many as there are. -/
def truncate (size : Nat) (x : Word) : Word := BitVec.ofNat 64 (x.toNat % 2 ^ (8 * size))

/-- The section of the symbol, whose value is kept. -/
def useSymbol : Option (Except Failure Symbol) → Option Nat → Io (Option Nat)
  | none, dst => pure dst
  | some symbol, dst => do
    let symbol ← orRaise symbol
    modify fun s => { s with symValue := symbol.value }
    pure (symbol.sec <|> dst)

/-- `func->func()` -/
def applyFunc (func : Option (Word → Word → Word)) (size : Nat) (x : Word) (dst : Option Nat) :
    Io (Word × Option Nat) :=
  match func with
  | none => pure (x, none)
  | some f => do
    let s ← get
    pure (truncate size (f s.symValue x), dst)

/-- What a record does to the number and to the section that it points to. -/
def relocateRecord (rel : Relocations) (size : Nat) (record : Record) (x : Word)
    (dst : Option Nat) : Io (Word × Option Nat) := do
  let dst ← useSymbol record.symbol dst
  if rel.relocatable then do
    let func ← orRaise (record.func size)
    applyFunc func size x dst
  else pure (x, dst)

def relocateRecords (rel : Relocations) (size : Nat) : List Record → Word → Option Nat →
    Io (Word × Option Nat)
  | [], x, dst => pure (x, dst)
  | record :: records, x, dst => do
    let r ← relocateRecord rel size record x dst
    relocateRecords rel size records r.1 r.2

/-- `drl_relocate` -/
def relocate (pos size : Nat) (x : Word) : Io (Word × Option Nat) :=
  match env.sec.relocate with
  | none => pure (x, none)
  | some rel => do
    orRaise rel.ready
    relocateRecords rel size (rel.records pos) x none

def readAddressX (size : Nat) : Io (Word × Option Nat) := do
  let s ← get
  if size = 2 ∨ size = 4 ∨ size = 8 then do
    let x ← scan (readNumber env.sec size)
    relocate env s.pos size (BitVec.ofNat 64 x)
  else raise (invDwarf "Invalid data size")

def readAddress : Io (Word × Option Nat) := readAddressX env (addressSize env)

/-! ## Attributes -/

def AT_sibling : BitVec 16 := 0x01

def AT_stmt_list : BitVec 16 := 0x10

def AT_high_pc : BitVec 16 := 0x12

def AT_specification_v1 : BitVec 16 := 0x2b

def AT_abstract_origin : BitVec 16 := 0x31

def AT_specification_v2 : BitVec 16 := 0x47

def AT_extension : BitVec 16 := 0x54

def AT_ranges : BitVec 16 := 0x55

def FORM_INDIRECT : BitVec 16 := 0x16

/-- The forms that can be read. -/
inductive Form where
  | addr | ref | gnuRefAlt | block1 | block2 | block4 | block | data1 | data2 | data4 | data8
  | sdata | udata | flag | flagPresent | string | strp | gnuStrpAlt | refAddr | ref1 | ref2 | ref4
  | ref8 | refUdata | secOffset | exprloc | refSig8
deriving DecidableEq, Repr

def formOf (form : BitVec 16) : Option Form :=
  match form.toNat with
  | 0x01 => some .addr
  | 0x02 => some .ref
  | 0x03 => some .block2
  | 0x04 => some .block4
  | 0x05 => some .data2
  | 0x06 => some .data4
  | 0x07 => some .data8
  | 0x08 => some .string
  | 0x09 => some .block
  | 0x0a => some .block1
  | 0x0b => some .data1
  | 0x0c => some .flag
  | 0x0d => some .sdata
  | 0x0e => some .strp
  | 0x0f => some .udata
  | 0x10 => some .refAddr
  | 0x11 => some .ref1
  | 0x12 => some .ref2
  | 0x13 => some .ref4
  | 0x14 => some .ref8
  | 0x15 => some .refUdata
  | 0x17 => some .secOffset
  | 0x18 => some .exprloc
  | 0x19 => some .flagPresent
  | 0x20 => some .refSig8
  | 0x1f20 => some .gnuRefAlt
  | 0x1f21 => some .gnuStrpAlt
  | _ => none

def emptyForm : FormData := ⟨0, 0, none, none⟩

/-- What `dio_ReadAddressX` gives, as form data. -/
def readFormAddress (size : Nat) (base : Word) : Io PUnit := do
  let r ← readAddressX env size
  setForm { emptyForm with data := r.1 + base, size := size, sec := r.2 }

def readFormAddr : Io PUnit := readFormAddress env (addressSize env) 0

def readFormRefAddr : Io PUnit := readFormAddress env (refAddressSize env) env.sec.addr

def readFormAltRef : Io PUnit := do
  let u ← theUnit env
  readFormAddress env u.offsetSize env.sec.addr

def readFormBlock (size : Nat) : Io PUnit := do
  let s ← get
  setForm { emptyForm with size := size, addr := some (.data s.pos) }
  scan (checkSize env.sec size)
  modify fun s => { s with pos := u8 (s.pos + size) }

def readFormData (size : Nat) (data : Word) (sec : Option Nat) : Io PUnit := do
  let s ← get
  setForm { data := data, size := size, addr := some (.data (s.pos - size)), sec := sec }

/-- The numbers of variable length, which no pointer points to. -/
def readFormLeb (data : Word) : Io PUnit := setForm { emptyForm with data := data, size := 8 }

def readFormRef : Io PUnit := do
  let x ← scan (readU4 env.sec)
  setForm { emptyForm with data := BitVec.ofNat 64 x, size := 4 }

/-- Without the size of the unit, as in DWARF 1, any offset is taken. -/
def readFormRelRef (attr : BitVec 16) (offset : Nat) : Io PUnit := do
  let u ← theUnit env
  let s ← get
  if s.unitSize ≠ 0 ∧ ¬ (attr = AT_sibling ∧ offset = s.unitSize.toNat) ∧
      s.unitSize.toNat ≤ offset then
    raise (invDwarf "Invalid REF attribute value")
  else
    setForm { emptyForm with
      data := env.sec.addr + u.unitOffs + BitVec.ofNat 64 offset, size := addressSize env }

def readFormString : Io PUnit := do
  let s ← get
  let length ← scan (readChars env.sec (env.sec.data.length + 1) 1)
  setForm { s.form with size := length, addr := some (.data s.pos) }

/-- A string with the zero behind it; `StringTableSize` is a `U4_T`. -/
def StringTable.stringSize (t : StringTable) (offset : Word) : Option Nat :=
  (((t.data.take (t.data.length % 2 ^ 32)).drop offset.toNat).findIdx? (· = 0)).map (· + 1)

/-- The string must end in the table. -/
def setStringForm (alt : Bool) (offset : Word) (sec : Option Nat) : Option Nat → Io PUnit
  | none => raise (invDwarf (if alt then "Invalid FORM_STRP_ALT attribute"
      else "Invalid FORM_STRP attribute"))
  | some size =>
    setForm { emptyForm with size := size, addr := some (.strings alt offset), sec := sec }

/-- `dio_ReadFormStringRef`, and `dio_ReadFormAltStringRef` with `alt`. -/
def readFormStringRef (alt : Bool) : Io PUnit := do
  let t ← orRaise (env.strings alt)
  let u ← theUnit env
  let r ← readAddressX env u.offsetSize
  setStringForm alt (r.1 - t.addr) r.2 (t.stringSize (r.1 - t.addr))

/-- `FORM_SEC_OFFSET` -/
def readFormSecOffset : Io PUnit := do
  let u ← theUnit env
  let r ← readAddressX env u.offsetSize
  readFormData u.offsetSize r.1 r.2

def readForm (attr : BitVec 16) : Form → Io PUnit
  | .addr => readFormAddr env
  | .ref => readFormRef env
  | .gnuRefAlt => readFormAltRef env
  | .block1 => do readFormBlock env (← scan (readU1 env.sec)).toNat
  | .block2 => do readFormBlock env (← scan (readU2 env.sec))
  | .block4 => do readFormBlock env (← scan (readU4 env.sec))
  | .block | .exprloc => do readFormBlock env (← scan (readULEB128 env.sec)).toNat
  | .data1 | .flag => do readFormData 1 (BitVec.ofNat 64 (← scan (readU1 env.sec)).toNat) none
  | .data2 => do readFormData 2 (BitVec.ofNat 64 (← scan (readU2 env.sec))) none
  | .data4 => do readFormData 4 (BitVec.ofNat 64 (← scan (readU4 env.sec))) none
  | .data8 | .refSig8 => do readFormData 8 (BitVec.ofNat 64 (← scan (readU8 env.sec))) none
  | .sdata => do readFormLeb (← scan (readS8LEB128 env.sec))
  | .udata => do readFormLeb (← scan (readU8LEB128 env.sec))
  | .flagPresent => readFormData 0 1 none
  | .string => readFormString env
  | .strp => readFormStringRef env false
  | .gnuStrpAlt => readFormStringRef env true
  | .refAddr => readFormRefAddr env
  | .ref1 => do readFormRelRef env attr (← scan (readU1 env.sec)).toNat
  | .ref2 => do readFormRelRef env attr (← scan (readU2 env.sec))
  | .ref4 => do readFormRelRef env attr (← scan (readU4 env.sec))
  | .ref8 => do readFormRelRef env attr (← scan (readU8 env.sec))
  | .refUdata => do readFormRelRef env attr (← scan (readULEB128 env.sec)).toNat
  | .secOffset => readFormSecOffset env

/-- An offset in another section, which a relocation can change. -/
def isSectionOffset (attr form : BitVec 16) : Bool :=
  attr = AT_stmt_list || attr = AT_ranges || (attr = AT_high_pc && formOf form ≠ some .addr)

/-- How many bytes such an offset has. -/
def sectionOffsetSize : Option Form → Io Nat
  | some .data2 => pure 2
  | some .data4 => pure 4
  | some .data8 => pure 8
  | some .secOffset => do return (← theUnit env).offsetSize
  | _ => raise (invDwarf "FORM_DATA or FORM_SEC_OFFSET was expected")

def readSectionOffset (form : BitVec 16) : Io PUnit := do
  let size ← sectionOffsetSize env (formOf form)
  readFormAddress env size 0

/-- The text has the code of the form in four digits of base 16. -/
def invalidForm (form : BitVec 16) : Failure :=
  invDwarf ("Invalid FORM code 0x" ++
    String.ofList ((Nat.toDigits 16 (form.toNat + 2 ^ 16)).drop 1))

def readAttribute (attr form : BitVec 16) : Io PUnit := do
  setForm emptyForm
  if env.sec.relocate.isSome ∧ isSectionOffset attr form = true then readSectionOffset env form
  else
    match formOf form with
    | none => raise (invalidForm form)
    | some f => readForm env attr f

/-! ## Entries -/

/-- Where the attributes of an entry come from: the rest of its abbreviation, or the entry itself,
which has so many bytes. -/
inductive Source where
  | abbreviation (attrs : List (BitVec 16 × BitVec 16))
  | entry (size : Nat)

/-- The next attribute, and what comes after it. The codes are 0 behind the last one. -/
def nextAttribute : Source → Io ((BitVec 16 × BitVec 16) × Source)
  | .abbreviation [] => pure ((0, 0), .abbreviation [])
  | .abbreviation ((attr, form) :: attrs) =>
    if form = FORM_INDIRECT then do
      let x ← scan (readULEB128 env.sec)
      pure ((attr, x.setWidth 16), .abbreviation attrs)
    else pure ((attr, form), .abbreviation attrs)
  | .entry size => do
    let s ← get
    if s.pos ≤ u8 (s.entryPos + size - 2) then do
      let bytes ← scan (nextBytes env.sec 2)
      let x := number env.sec.bigEndian bytes
      pure ((BitVec.ofNat 16 (x / 16), BitVec.ofNat 16 (x % 16)), .entry size)
    else pure ((0, 0), .entry size)

/-- `sDataPos += n` -/
def advance (n : Nat) : Io PUnit := modify fun s => { s with pos := u8 (s.pos + n) }

/-- Skip the data of an attribute. -/
def skipForm : Form → Io PUnit
  | .addr => advance (addressSize env)
  | .ref => advance 4
  | .gnuRefAlt => do advance (← theUnit env).offsetSize
  | .block1 => do advance (← scan (readU1 env.sec)).toNat
  | .block2 => do advance (← scan (readU2 env.sec))
  | .block4 => do advance (← scan (readU4 env.sec))
  | .block | .exprloc => do advance (← scan (readULEB128 env.sec)).toNat
  | .data1 | .flag => advance 1
  | .data2 => advance 2
  | .data4 => advance 4
  | .data8 | .refSig8 => advance 8
  | .sdata => do discard (scan (readS8LEB128 env.sec))
  | .udata => do discard (scan (readU8LEB128 env.sec))
  | .flagPresent => pure ⟨⟩
  | .string => readFormString env
  | .strp => do advance (← theUnit env).offsetSize
  | .gnuStrpAlt => do advance (← theUnit env).offsetSize
  | .refAddr => advance (refAddressSize env)
  | .ref1 => advance 1
  | .ref2 => advance 2
  | .ref4 => advance 4
  | .ref8 => advance 8
  | .refUdata => do discard (scan (readULEB128 env.sec))
  | .secOffset => do advance (← theUnit env).offsetSize

def isUnitTag (tag : BitVec 16) : Bool := tag = 0x11 || tag = 0x3c || tag = 0x41

/-- `dio_ChkRef` -/
def isRef (form : BitVec 16) : Bool :=
  match formOf form with
  | some .ref | some .refAddr | some .ref1 | some .ref2 | some .ref4 | some .ref8
  | some .refUdata => true
  | _ => false

/-- The sibling of the unit gives its size. -/
def setUnitSize (form : BitVec 16) : Io PUnit := do
  if isRef form = true then do
    let u ← theUnit env
    ensure (u.version = 1)
    modify fun s => { s with
      unitSize := BitVec.ofNat 64 ((s.form.data - env.sec.addr - u.unitOffs).toNat % 2 ^ 32) }
    let s ← get
    ensure (u.unitOffs.toNat < s.pos)
    ensure (s.pos ≤ (u.unitOffs + s.unitSize).toNat)
  else raise (invDwarf "FORM_REF expected")

/-- What is checked of a unit. -/
def checkUnit (attr form : BitVec 16) : Io PUnit := do
  let s ← get
  if attr = AT_sibling ∧ s.unitSize = 0 then setUnitSize env form
  else if attr = 0 ∧ form = 0 ∧ s.unitSize = 0 then
    raise (invDwarf "Missing compilation unit sibling attribute")
  else pure ⟨⟩

def report (tag attr form : BitVec 16) : Io PUnit :=
  modify fun s => { s with reports := s.reports ++ [⟨tag, attr, form, s.form⟩] }

/-- There is no data where one of the codes is 0. -/
def readData (attr form : BitVec 16) : Io PUnit :=
  if attr ≠ 0 ∧ form ≠ 0 then readAttribute env attr form else pure ⟨⟩

def checkTag (tag attr form : BitVec 16) : Io PUnit :=
  if isUnitTag tag = true then checkUnit env attr form else pure ⟨⟩

/-- An attribute is read and reported. -/
def visit (tag attr form : BitVec 16) : Io PUnit := do
  readData env attr form
  checkTag env tag attr form
  report tag attr form

/-- `AT_specification`, `AT_abstract_origin` and `AT_extension` are never skipped. -/
def isReference (attr : BitVec 16) : Bool :=
  attr = AT_specification_v1 || attr = AT_specification_v2 || attr = AT_abstract_origin ||
    attr = AT_extension

/-- Nobody asks for the attribute. -/
def unwanted (target attr : BitVec 16) : Bool :=
  target ≠ 0 && attr ≠ target && !isReference attr

/-- One attribute. -/
def turn (target tag attr form : BitVec 16) : Io PUnit :=
  if unwanted target attr = true then
    if attr = 0 then pure ⟨⟩
    else
      match formOf form with
      | none => visit env tag attr form
      | some f => skipForm env f
  else visit env tag attr form

/-- The loop over the attributes; `fuel` is more than they are. -/
def attributes (target tag : BitVec 16) : (fuel : Nat) → Source → Io PUnit
  | 0, _ => fault
  | fuel + 1, source => do
    let next ← nextAttribute env source
    turn env target tag next.1.1 next.1.2
    if next.1.1 = 0 ∧ next.1.2 = 0 then pure ⟨⟩ else attributes target tag fuel next.2

/-- `while (EntrySize > 4) { dio_ReadU1(); EntrySize--; }` -/
def skipEntry : Nat → Io PUnit
  | 0 => pure ⟨⟩
  | n + 1 => do
    discard (scan (readU1 env.sec))
    skipEntry n

/-- `DWARF_ENTRY_NO_CHILDREN` and `DWARF_ENTRY_HAS_CHILDREN` -/
def entryForm (children : Bool) : BitVec 16 := if children then 3 else 2

/-- An entry with this tag: a first report, and then one for each attribute. -/
def readAttributes (target tag : BitVec 16) (children : Bool) (fuel : Nat) (source : Source) :
    Io PUnit := do
  turn env target tag 0 (entryForm children)
  attributes env target tag fuel source

/-- `dio_ReadEntry` -/
def readEntry (target : BitVec 16) : Io Bool := do
  modify fun s => { s with entryPos := s.pos }
  let u ← theUnit env
  if 2 ≤ u.version.toNat then do
    let code ← scan (readULEB128 env.sec)
    if code = 0 then pure false
    else
      match (u.abbrevTable[code.toNat]?).join with
      | none => raise (invDwarf "Invalid abbreviation code")
      | some abbr => do
        readAttributes env target abbr.tag abbr.children (abbr.attrs.length + 1)
          (.abbreviation abbr.attrs)
        pure true
  else do
    let size ← scan (readU4 env.sec)
    if size < 8 then do
      skipEntry env (size - 4)
      pure false
    else do
      let tag ← scan (readU2 env.sec)
      readAttributes env target (BitVec.ofNat 16 tag) false size (.entry size)
      pure true

end

end TcfAgent.DwarfIo
