import Mathlib
import TcfAgent.Services.DwarfCode

/-!
# Transformation of DWARF expressions

`services/dwarfecomp.c`: a location expression is rewritten to a portable form before the
virtual machine of `services/vm.c` runs it. Operations that need the debug information
(`OP_fbreg`, `OP_addr`, `OP_call2`, the GNU extensions) are replaced, lists of expressions
become an `OP_TCF_switch`, and `adjust_jumps` corrects the branches for the operations
that have changed their size.

What is emitted is kept as instructions (`Code`), each with the operands that were
emitted after its opcode; `Code.bytes` is what is in the buffer. The sizes that
the source fills in afterwards (`OP_GNU_entry_value`, `OP_TCF_switch` and its cases) are
put in there. The debug information is a parameter: what is found in it (`Env`), not how.

* `addExpression`     — `add_expression`, with its loop and `adjust_jumps`;
* `addExpressionList` — `add_expression_list`;
* `addOp_spec`        — what one round of the loop does to the state.
-/

namespace TcfAgent.DwarfTransform

open TcfAgent.Lib TcfAgent.Dwarf

/-! ## The debug information -/

/-- The errors that the transformation raises. -/
inductive ErrorCode where
  | invDwarf | other | invContext | eof | symNotFound
  | lookup (n : Nat)
deriving DecidableEq, Repr

/-- How a transformation ends that does not succeed: an exception, a failed assertion, a
read after the end of the section; `fuel` is none of these. -/
inductive Error where
  | exception (code : ErrorCode) (msg : String)
  | assertion
  | overrun
  | fuel
deriving DecidableEq, Repr

abbrev M := Except Error

def invDwarf {α : Type} (msg : String) : M α := .error (.exception .invDwarf msg)

def notAvailable {α : Type} : M α :=
  .error (.exception .other "Object is not available at this location in the code")

/-- The fields of `CompUnit`, its `mDesc` and its `mFile` that are read. -/
structure CompUnit where
  addressSize : Nat
  is64bit     : Bool
  version     : Nat
  sectionAddr : Nat
  unitOffs    : Nat
  bigEndian   : Bool
  elf64       : Bool
  byteSwap    : Bool
  producer    : List Char

/-- `DWARFExpressionInfo`. `exprAddr` is the data of the section from `expr_addr` on; the
expression is the first `exprSize` bytes of it. -/
structure ExprInfo (Obj : Type) where
  object   : Obj
  attr     : Nat := 0
  codeAddr : Nat := 0
  codeSize : Nat := 0
  exprAddr : List UInt8
  exprSize : Nat
  hSize    : exprSize < 2 ^ 63

/-- The result of `drl_relocate_in_context`. -/
structure Reloc where
  value : Nat
  sect  : Nat
  rt    : Bool

/-- The value of an `AT_const_value` attribute. -/
inductive ConstValue where
  | number (v : Nat)
  | block (bytes : List UInt8) (h : bytes.length < 2 ^ 32)
  | null

/-- A C string that is not empty. -/
structure CString where
  chars    : List UInt8
  nonempty : chars ≠ []
  noZero   : 0 ∉ chars

/-- The context, its stack frame and what the debug information has for it. `Val` is the
type of attribute values (`PropertyValue`). -/
structure Env (Obj Val : Type) where
  unit            : Obj → CompUnit
  bigEndian       : Bool
  noFrame         : Bool
  hasState        : Bool
  /-- `peer_version`: there is no proxy, or it has the service `SymbolsProxyV1`. -/
  peerVersion     : Bool
  /-- The DWARF id of the PC register, where it has one. -/
  pcDwarfId       : Option Nat
  framePc         : M Nat
  relocate        : ExprInfo Obj → (pos size value : Nat) → M Reloc
  relocateLink    : ExprInfo Obj → (pos size value : Nat) → M Nat
  runTimeAddress  : Obj → (sect addr : Nat) → M Nat
  tlsAddress      : Obj → M Nat
  /-- `get_parent_function`, with the workaround for dynamic arrays in `op_fbreg`. -/
  parentFunction  : Obj → Option Obj
  functionAt      : Obj → (pc : Nat) → M (Option Obj)
  frameBase       : Obj → M Val
  expressionList  : Val → M (List (ExprInfo Obj))
  findObject      : CompUnit → (id : Nat) → Option Obj
  hasLocation     : Obj → Bool
  hasConstValue   : Obj → Bool
  location        : Obj → M Val
  constValue      : Obj → M ConstValue
  symbolId        : Obj → M CString
  isBaseType      : Obj → Bool
  byteSize        : Obj → Option Nat
  fundType        : Obj → Nat
  /-- The call sites in a range of code that pass a parameter: where they are and the
  values of their `AT_GNU_call_site_value`. -/
  callSites       : Obj → (addr size id : Nat) → M (List (Nat × List (ExprInfo Obj)))

/-- `ContextAddress` and `U8_T` arithmetic. -/
def wrap (n : Int) : Nat := (n % 2 ^ 64).toNat

/-- The casts to `I2_T` and `U2_T`. -/
def i2 (n : Int) : Int := Int.bmod n 0x10000

def u2 (n : Int) : Nat := (n % 0x10000).toNat

/-- `n` as `size` bytes, lowest first. -/
def leBytes : (size : Nat) → Nat → List UInt8
  | 0, _ => []
  | size + 1, n => UInt8.ofNat n :: leBytes size (n / 256)

/-! ## The transformation -/

/-- The cases of the `switch` in `add_expression`. -/
inductive OpCase where
  | copy (n : Nat)
  | copyAddress
  | basereg
  | breg
  | leb
  | branch
  | bregx
  | bitPiece
  | implicitValue
  | fbreg
  | addr
  | implicitPointer
  | pushTlsAddress
  | call
  | entryValue
  | parameterRef
  | constType
  | regvalType
  | derefType
  | convert
  | variableValue
  | other
deriving DecidableEq, Repr

def opCase (op : UInt8) : OpCase :=
  if op ∈ [Op.const1u, Op.const1s, Op.pick, Op.derefSize, Op.xderefSize] then .copy 2
  else if op ∈ [Op.const, Op.reg] then .copyAddress
  else if op = Op.basereg then .basereg
  else if op ∈ [Op.const2u, Op.const2s] then .copy 3
  else if op ∈ [Op.const4u, Op.const4s] then .copy 5
  else if op ∈ [Op.const8u, Op.const8s] then .copy 9
  else if Op.breg0 ≤ op ∧ op ≤ Op.breg31 then .breg
  else if op ∈ [Op.regx, Op.constu, Op.consts, Op.plusUconst, Op.piece] then .leb
  else if op ∈ [Op.bra, Op.skip] then .branch
  else if op = Op.bregx then .bregx
  else if op = Op.bitPiece then .bitPiece
  else if op = Op.implicitValue then .implicitValue
  else if op = Op.fbreg then .fbreg
  else if op = Op.addr then .addr
  else if op ∈ [Op.implicitPointer, Op.gnuImplicitPointer] then .implicitPointer
  else if op ∈ [Op.formTlsAddress, Op.gnuPushTlsAddress] then .pushTlsAddress
  else if op ∈ [Op.call2, Op.call4, Op.callRef] then .call
  else if op = Op.gnuEntryValue then .entryValue
  else if op = Op.gnuParameterRef then .parameterRef
  else if op = Op.gnuConstType then .constType
  else if op = Op.gnuRegvalType then .regvalType
  else if op = Op.gnuDerefType then .derefType
  else if op = Op.gnuConvert then .convert
  else if op = Op.gnuVariableValue then .variableValue
  else .other

/-- `expr_code_addr` and `expr_code_size`: the code for which the result is valid. -/
structure Range where
  addr : Nat
  size : Nat
deriving DecidableEq, Repr

section

variable {Obj Val : Type}

/-- `expr_addr[pos]` -/
def ExprInfo.byte (info : ExprInfo Obj) (pos : Nat) : M UInt8 :=
  match info.exprAddr[pos]? with
  | some b => .ok b
  | none => .error .overrun

/-- `n` bytes from `expr_addr[pos]` on. -/
def ExprInfo.slice (info : ExprInfo Obj) (pos n : Nat) : M (List UInt8) :=
  if pos + n ≤ info.exprAddr.length then .ok ((info.exprAddr.drop pos).take n)
  else .error .overrun

/-- `copy(n)`: the bytes that are added. -/
def ExprInfo.copy (info : ExprInfo Obj) (pos n : Nat) : M (List UInt8) :=
  if info.exprSize < pos + n then invDwarf "" else info.slice pos n

/-- The LEB128 number at `expr_addr[pos]`. It is read to its end, wherever that is. -/
def ExprInfo.leb (info : ExprInfo Obj) (pos : Nat) : M (List UInt8) :=
  match Leb128.takeNumber (info.exprAddr.drop pos) with
  | some (raw, _) => .ok raw
  | none => .error .overrun

/-- `read_u4leb128`, `read_u8leb128`, `read_i8leb128`: the value of the number. -/
def u4leb (raw : List UInt8) : Nat := Leb128.value raw % 2 ^ 32

def u8leb (raw : List UInt8) : Nat := Leb128.value raw % 2 ^ 64

theorem u4leb_lt (raw : List UInt8) : u4leb raw < 2 ^ 63 :=
  (Nat.mod_lt _ (by decide)).trans (by decide)

def i8leb (raw : List UInt8) : Int := Int.bmod (Leb128.signedValue raw) (2 ^ 64)

/-- `dio_ReadU2`, `dio_ReadU4`, `dio_ReadU8` -/
def dioRead (big : Bool) (info : ExprInfo Obj) (pos n : Nat) : M Nat :=
  if info.exprAddr.length < pos + n then .error (.exception .eof "")
  else .ok (readUint big ((info.exprAddr.drop pos).take n))

/-- `dio_ReadU8LEB128`: the number and its bytes. -/
def dioLeb (info : ExprInfo Obj) (pos : Nat) : M (List UInt8) :=
  match Leb128.takeNumber (info.exprAddr.drop pos) with
  | some (raw, _) => .ok raw
  | none => .error (.exception .eof "")

/-- The number of seven-bit groups that `add_uleb128` and `add_sleb128` add. -/
def uleb (n : Nat) : Operand := .leb (Leb128.encode n)

def sleb (n : Int) : Operand := .leb (Leb128.encodeSigned n)

variable (env : Env Obj Val)

/-- `buf_pos`, counted from where the expression begins. -/
def Env.size (code : Code) : Nat := (code.bytes env.bigEndian).length

/-- `dio_ReadAddressX` -/
def dioReadAddressX (info : ExprInfo Obj) (pos size : Nat) : M Nat :=
  if size ∈ [2, 4, 8] then do
    let x ← dioRead (env.unit info.object).bigEndian info pos size
    env.relocateLink info pos size x
  else invDwarf "Invalid data size"

/-- Whether the operation at `pos` is `OP_GNU_push_tls_address`: some versions of GCC use
`OP_addr` in front of it for a link-time value. -/
def isPushTls (info : ExprInfo Obj) (pos : Nat) : M Bool :=
  if pos < info.exprSize then (info.byte pos).map (· == Op.gnuPushTlsAddress) else .ok false

/-- `op_addr` -/
def opAddr (info : ExprInfo Obj) (pos : Nat) : M (Code × Nat) :=
  let unit := env.unit info.object
  let next := pos + 1 + unit.addressSize
  if unit.addressSize ∈ [2, 4, 8] then do
    let x ← dioRead unit.bigEndian info (pos + 1) unit.addressSize
    let r ← env.relocate info (pos + 1) unit.addressSize x
    let isTls ← isPushTls info next
    let addr ← (if isTls || r.rt then .ok r.value
      else env.runTimeAddress info.object r.sect r.value)
    pure (.op Op.constu [uleb addr] .nil, next)
  else invDwarf "Invalid data size"

/-- The recursive calls of `add_expression`. -/
abbrev Rec (Obj : Type) := ExprInfo Obj → Range → M (Code × Range)

variable (rec : Rec Obj)

/-- The part of `add_fbreg_expression` for a frame base that is a register. -/
def fbregRegister (info : ExprInfo Obj) (offs : Int) : M (Option Code) := do
  let op ← info.byte 0
  if op = Op.reg then do
    let bytes ← info.slice 1 (env.unit info.object).addressSize
    pure (if info.exprSize ≠ (env.unit info.object).addressSize + 1 then none
      else some (.op Op.basereg [.data bytes, sleb offs] .nil))
  else if op = Op.regx then do
    let raw ← info.leb 1
    pure (if info.exprSize ≠ raw.length + 1 then none
      else some (.op Op.bregx [.leb raw, sleb offs] .nil))
  else if Op.reg0 ≤ op ∧ op ≤ Op.reg31 then
    pure (if info.exprSize ≠ 1 then none
      else some (.op (Op.breg0 + (op - Op.reg0)) [sleb offs] .nil))
  else pure none

/-- `add_fbreg_expression` -/
def addFbregExpression (info : ExprInfo Obj) (offs : Int) (range : Range) :
    M (Code × Range) := do
  match ← fbregRegister env info offs with
  | some code => pure (code, range)
  | none => do
    let (code, range) ← rec info range
    pure (if offs = 0 then (code, range)
      else (code ++ .op Op.consts [sleb offs] (.op Op.add [] .nil), range))

/-- The code range from `addr` on. -/
def Range.above (range : Range) (addr : Nat) : M Range :=
  if addr > range.addr then
    let d := addr - range.addr
    if range.size > d then .ok ⟨wrap (range.addr + d), range.size - d⟩ else .error .assertion
  else .ok range

/-- The code range up to `last`. -/
def Range.below (range : Range) (last : Nat) : M Range :=
  if last < wrap (range.addr + range.size) then
    let d := wrap (range.addr + range.size) - last
    if range.size > d then .ok ⟨range.addr, range.size - d⟩ else .error .assertion
  else .ok range

/-- `add_code_range` -/
def addCodeRange (info : ExprInfo Obj) (range : Range) : M Range :=
  if info.codeSize = 0 then .ok range
  else if range.size = 0 then .ok ⟨info.codeAddr, info.codeSize⟩
  else do
    let range ← range.above info.codeAddr
    range.below (wrap (info.codeAddr + info.codeSize))

/-- `get_frame_pc` -/
def getFramePc : M Nat :=
  if env.noFrame then .error (.exception .invContext "Need stack frame") else env.framePc

/-- One expression of a list; `fbreg` is the offset of an `OP_fbreg`. -/
def addListed (fbreg : Option Int) (info : ExprInfo Obj) (range : Range) : M (Code × Range) :=
  match fbreg with
  | some offs => addFbregExpression env rec info offs range
  | none => rec info range

/-- The loop that adds the cases of an `OP_TCF_switch`. -/
def addCases (fbreg : Option Int) (range : Range) : List (ExprInfo Obj) → M Cases
  | [] => pure .nil
  | info :: rest =>
    if range.size = 0 ∨ info.codeSize = 0 ∨
        (wrap (range.addr + range.size) > info.codeAddr ∧
          range.addr < wrap (info.codeAddr + info.codeSize)) then do
      let inner ← addCodeRange info range
      let (body, _) ← addListed env rec fbreg info inner
      -- The last case is the one that is valid everywhere.
      let rest ← (if info.codeSize = 0 then pure .nil else addCases fbreg range rest)
      pure (.cons (Leb128.encode info.codeAddr) (Leb128.encode info.codeSize) body rest)
    else addCases fbreg range rest

/-- Not valid at `pc`. -/
def elsewhere (pc : Nat) (info : ExprInfo Obj) : Bool :=
  info.codeSize > 0 && (info.codeAddr > pc || pc - info.codeAddr ≥ info.codeSize)

/-- `add_expression_list` -/
def addExpressionList (infos : List (ExprInfo Obj)) (fbreg : Option Int) (range : Range) :
    M (Code × Range) :=
  match infos with
  | [] => .error .overrun
  | info :: _ =>
    if info.codeSize > 0 then
      match (if env.peerVersion then env.pcDwarfId else none) with
      | none => do
        -- The peer does not support `OP_TCF_switch`.
        let pc ← getFramePc env
        match infos.dropWhile (elsewhere pc) with
        | [] => notAvailable
        | info :: _ =>
          let (code, range) ← addListed env rec fbreg info range
          let range ← addCodeRange info range
          pure (code, range)
      | some id => do
        let cases ← addCases env rec fbreg range infos
        if (cases.bytes env.bigEndian).length + 2 > 0xffff then
          invDwarf "Location expression is too large"
        else pure (.op Op.bregx [uleb id, uleb 0] (.tcfSwitch cases .nil), range)
    else addListed env rec fbreg info range

/-- `op_fbreg` -/
def opFbreg (info : ExprInfo Obj) (pos : Nat) (range : Range) : M (Code × Nat × Range) := do
  let raw ← info.leb (pos + 1)
  let next := pos + 1 + raw.length
  let offs := i8leb raw
  match env.parentFunction info.object with
  | none => invDwarf "OP_fbreg: no parent function"
  | some parent =>
    match env.frameBase parent with
    | .ok fp =>
      let infos ← env.expressionList fp
      let (code, range) ← addExpressionList env rec infos (some offs) range
      pure (code, next, range)
    | .error (.exception .symNotFound _) =>
      let pc ← getFramePc env
      match ← env.functionAt info.object pc with
      | none => invDwarf "OP_fbreg: no parent function"
      | some func =>
        match env.frameBase func with
        | .ok fp =>
          let infos ← env.expressionList fp
          match infos.dropWhile (elsewhere pc) with
          | [] => notAvailable
          | info :: _ =>
            let (code, range) ← addFbregExpression env rec info offs range
            pure (code, next, range)
        | .error (.exception c _) =>
          .error (.exception c "OP_fbreg: cannot read AT_frame_base")
        | .error e => .error e
    | .error (.exception c _) => .error (.exception c "OP_fbreg: cannot read AT_frame_base")
    | .error e => .error e

/-- The bytes of an `AT_const_value`, as the target has them in memory. -/
def constBytes (unit : CompUnit) : ConstValue → M (List UInt8)
  | .number v =>
    let bytes := leBytes (if unit.elf64 then 8 else 4) v
    .ok (if unit.byteSwap then bytes.reverse else bytes)
  | .block bytes _ => .ok bytes
  | .null => invDwarf "Invalid implicit pointer"

/-- The object that an implicit pointer points to. -/
def implicitTarget (obj : Obj) (unit : CompUnit) (range : Range) : M (Code × Range) :=
  if env.hasLocation obj then do
    let pv ← env.location obj
    let infos ← env.expressionList pv
    addExpressionList env rec infos none range
  else if env.hasConstValue obj then do
    let pv ← env.constValue obj
    let bytes ← constBytes unit pv
    pure (.implicitValue (Leb128.encode bytes.length) bytes .nil, range)
  else invDwarf "Invalid implicit pointer"

/-- `op_implicit_pointer` -/
def opImplicitPointer (info : ExprInfo Obj) (pos : Nat) (range : Range) :
    M (Code × Nat × Range) := do
  let op ← info.byte pos
  let unit := env.unit info.object
  let argSize := if op = Op.gnuImplicitPointer ∧ unit.version < 3 then unit.addressSize
    else if unit.is64bit then 8 else 4
  let id ← dioReadAddressX env info (pos + 1) argSize
  let offset ← dioLeb info (pos + 1 + argSize)
  match env.findObject unit id with
  | none => invDwarf "OP_implicit_pointer: invalid object reference"
  | some obj => do
    let (code, range) ← implicitTarget env rec obj unit range
    pure (code ++ .op Op.tcfOffset [uleb (u8leb offset)] .nil,
      pos + 1 + argSize + offset.length, range)

/-- The offset that some versions of GCC emit after `OP_GNU_push_tls_address`. -/
def tlsOffset (info : ExprInfo Obj) (pos : Nat) : M (Code × Nat) :=
  if pos = 0 ∧ 1 < info.exprSize then do
    let op ← info.byte 1
    if op = Op.const4u then do
      let bytes ← info.copy 1 5
      pure (.op op [.data bytes.tail] .nil, 6)
    else if op = Op.const8u then do
      let bytes ← info.copy 1 9
      pure (.op op [.data bytes.tail] .nil, 10)
    else if op = Op.constu then do
      let raw ← info.leb 2
      pure (.op op [.leb raw] .nil, 2 + raw.length)
    else pure (.nil, 1)
  else pure (.nil, pos + 1)

/-- `op_push_tls_address` -/
def opPushTlsAddress (info : ExprInfo Obj) (pos : Nat) : M (Code × Nat) := do
  let (code, next) ← tlsOffset info pos
  if ¬ env.hasState then
    .error (.exception .invContext "Thread local variable, but context is not a thread")
  else do
    let addr ← env.tlsAddress info.object
    pure (if addr = 0 then (code, next)
      else (code ++ .op Op.constu [uleb addr] (.op Op.add [] .nil), next))

/-- The operand of `OP_call2`, `OP_call4` or `OP_call_ref`, and its size. -/
def callReference (info : ExprInfo Obj) (op : UInt8) (pos : Nat) : M (Nat × Nat) :=
  let unit := env.unit info.object
  if op = Op.call2 then do
    let x ← dioRead unit.bigEndian info pos 2
    pure (wrap (unit.sectionAddr + unit.unitOffs + x), 2)
  else if op = Op.call4 then do
    let x ← dioRead unit.bigEndian info pos 4
    pure (wrap (unit.sectionAddr + unit.unitOffs + x), 4)
  else do
    let size := if unit.version < 3 then unit.addressSize else if unit.is64bit then 8 else 4
    let x ← dioReadAddressX env info pos size
    pure (x, size)

/-- `op_call` -/
def opCall (info : ExprInfo Obj) (pos : Nat) (range : Range) : M (Code × Nat × Range) := do
  let op ← info.byte pos
  let unit := env.unit info.object
  let (id, size) ← callReference env info op (pos + 1)
  match env.findObject unit id with
  | none => invDwarf "Invalid reference in OP_call"
  | some obj => do
    let pv ← env.location obj
    let infos ← env.expressionList pv
    let (code, range) ← addExpressionList env rec infos none range
    pure (code, pos + 1 + size, range)

/-- `op_gnu_variable_value` -/
def opGnuVariableValue (info : ExprInfo Obj) (pos : Nat) : M (Code × Nat) := do
  let unit := env.unit info.object
  let argSize := if unit.version < 3 then unit.addressSize else if unit.is64bit then 8 else 4
  let id ← dioReadAddressX env info (pos + 1) argSize
  match env.findObject unit id with
  | none => invDwarf "Invalid reference in OP_GNU_variable_value"
  | some obj =>
    let id ← env.symbolId obj
    pure (.variableValue id.chars .nil, pos + 1 + argSize)

/-- `op_entry_value` -/
def opEntryValue (info : ExprInfo Obj) (pos : Nat) (range : Range) :
    M (Code × Nat × Range) := do
  let raw ← info.leb (pos + 1)
  let start := pos + 1 + raw.length
  let (body, range) ← rec
    { object := info.object, exprAddr := info.exprAddr.drop start, exprSize := u4leb raw,
      hSize := u4leb_lt raw } range
  pure (.entryValue body .nil, start + u4leb raw, range)

/-- The values of a call site parameter that are valid at the call site. -/
def siteValues (low : Nat) (values : List (ExprInfo Obj)) : List (ExprInfo Obj) :=
  (values.filter fun e =>
      e.codeSize = 0 ∨ (e.codeAddr ≤ low ∧ wrap (e.codeAddr + e.codeSize) > low)).map
    fun e => { e with codeAddr := low, codeSize := 1 }

/-- `op_parameter_ref` -/
def opParameterRef (info : ExprInfo Obj) (pos : Nat) (range : Range) :
    M (Code × Nat × Range) := do
  let unit := env.unit info.object
  let x ← dioRead unit.bigEndian info (pos + 1) 4
  let sites ← env.callSites info.object info.codeAddr range.size
    (wrap (unit.sectionAddr + unit.unitOffs + x))
  match sites.flatMap fun site => siteValues site.1 site.2 with
  | [] => notAvailable
  | infos =>
    let (body, range) ← addExpressionList env rec infos none range
    pure (.entryValue body .nil, pos + 5, range)

/-- `get_type`: `fund_type` and `byte_size`. -/
def getType (info : ExprInfo Obj) (type : Nat) : M (Nat × Nat) := do
  let unit := env.unit info.object
  match env.findObject unit (wrap (unit.sectionAddr + unit.unitOffs + type)) with
  | none => invDwarf "Invalid type reference in DWARF expression"
  | some obj =>
    if ¬ env.isBaseType obj then invDwarf "Invalid type object tag in DWARF expression"
    else match env.byteSize obj with
      | none => invDwarf "Invalid type size in DWARF expression"
      | some byteSize => pure (env.fundType obj, byteSize)

/-- `ATE_address`, `ATE_unsigned`, `ATE_unsigned_char`, `ATE_unsigned_fixed`, `ATE_UTF` -/
def isUnsigned (fundType : Nat) : Bool := fundType ∈ [0x01, 0x07, 0x08, 0x0e, 0x10]

/-- `ATE_signed`, `ATE_signed_char`, `ATE_signed_fixed` -/
def isSigned (fundType : Nat) : Bool := fundType ∈ [0x05, 0x06, 0x0d]

/-- The plain constant that an `OP_GNU_const_type` can be turned into. -/
def plainConst (fundType size : Nat) : Option UInt8 :=
  if isUnsigned fundType || isSigned fundType then
    let sign := isSigned fundType
    if size = 1 then some (if sign then Op.const1s else Op.const1u)
    else if size = 2 then some (if sign then Op.const2s else Op.const2u)
    else if size = 4 then some (if sign then Op.const4s else Op.const4u)
    else if size = 8 then some (if sign then Op.const8s else Op.const8u)
    else none
  else none

/-- The case of `OP_GNU_const_type`. -/
def opGnuConstType (info : ExprInfo Obj) (pos : Nat) : M (Code × Nat) := do
  let raw ← info.leb (pos + 1)
  let start := pos + 1 + raw.length
  let size ← info.byte start
  let (fundType, byteSize) ← getType env info (u8leb raw)
  let bytes ← info.copy (start + 1) size.toNat
  pure (match plainConst fundType size.toNat with
    | some op => .op op [.data bytes] .nil
    | none =>
      .op Op.gnuConstType [uleb fundType, uleb byteSize, uleb size.toNat, .data bytes] .nil,
    start + 1 + size.toNat)

/-- The case of `OP_GNU_regval_type`. -/
def opGnuRegvalType (info : ExprInfo Obj) (pos : Nat) : M (Code × Nat) := do
  let reg ← info.leb (pos + 1)
  let type ← info.leb (pos + 1 + reg.length)
  let next := pos + 1 + reg.length + type.length
  let (fundType, byteSize) ← getType env info (u8leb type)
  pure (if next = info.exprSize ∧ isUnsigned fundType then
      .op Op.regx [uleb (u4leb reg)] (.op Op.piece [uleb byteSize] .nil)
    else .op Op.gnuRegvalType [uleb (u4leb reg), uleb fundType, uleb byteSize] .nil,
    next)

/-- The case of `OP_GNU_deref_type`. -/
def opGnuDerefType (info : ExprInfo Obj) (pos : Nat) : M (Code × Nat) := do
  let size ← info.byte (pos + 1)
  let type ← info.leb (pos + 2)
  let (fundType, byteSize) ← getType env info (u8leb type)
  pure (if isUnsigned fundType then .op Op.derefSize [.data [size]] .nil
    else .op Op.gnuDerefType [uleb size.toNat, uleb fundType, uleb byteSize] .nil,
    pos + 2 + type.length)

/-- The case of `OP_GNU_convert`. Type 0 is the type that the stack has anyway. -/
def opGnuConvert (info : ExprInfo Obj) (pos : Nat) : M (Code × Nat) := do
  let raw ← info.leb (pos + 1)
  let type := u8leb raw
  let (fundType, byteSize) ← (if type = 0 then pure (0, 0) else getType env info type)
  pure (if type ≠ 0 ∧ fundType ∈ [0x01, 0x07, 0x08] ∧ byteSize < 8 then
      .op Op.constu [uleb (2 ^ (byteSize * 8) - 1)] (.op Op.and [] .nil)
    else .op Op.gnuConvert [uleb fundType, uleb byteSize] .nil,
    pos + 1 + raw.length)

/-- `check_frame` -/
def checkFrame : M Unit :=
  if env.noFrame then .error (.exception .other "Object location is relative to a stack frame")
  else pure ()

/-- `copy(n)`, with the opcode that is the first of the bytes. -/
def copyOp (info : ExprInfo Obj) (op : UInt8) (pos n : Nat) : M (Code × Nat) := do
  let bytes ← info.copy pos n
  pure (.op op [.data bytes.tail] .nil, pos + n)

/-- `add(op); copy_leb128()` -/
def lebOp (info : ExprInfo Obj) (op : UInt8) (pos : Nat) : M (Code × Nat) := do
  let raw ← info.leb (pos + 1)
  pure (.op op [.leb raw] .nil, pos + 1 + raw.length)

/-- `add(op); copy_leb128(); copy_leb128()` -/
def lebOp2 (info : ExprInfo Obj) (op : UInt8) (pos : Nat) : M (Code × Nat) := do
  let raw ← info.leb (pos + 1)
  let raw2 ← info.leb (pos + 1 + raw.length)
  pure (.op op [.leb raw, .leb raw2] .nil, pos + 1 + raw.length + raw2.length)

/-- `AT_data_member_location` -/
def atDataMemberLocation : Nat := 0x38

/-- The case of `OP_constu` and the operations with one LEB128 operand. -/
def opLeb (info : ExprInfo Obj) (op : UInt8) (pos : Nat) : M (Code × Nat) := do
  let (code, next) ← lebOp info op pos
  -- GCC leaves the `OP_add` out.
  pure (if op = Op.constu ∧ pos = 0 ∧ next = info.exprSize ∧
      info.attr = atDataMemberLocation then code ++ .op Op.add [] .nil else code, next)

/-- The case of `OP_implicit_value`. -/
def opImplicitValue (info : ExprInfo Obj) (pos : Nat) : M (Code × Nat) := do
  let raw ← info.leb (pos + 1)
  let n := 1 + raw.length + u4leb raw
  let bytes ← info.copy pos n
  pure (.implicitValue raw (bytes.drop (1 + raw.length)) .nil, pos + n)

/-- The compiler that uses 0xfd for an address class. -/
def nameSynopsys : List Char := "CHESS, Synopsys Inc".toList

/-- The case of `OP_GNU_variable_value`, which is `OP_address_class` for one compiler. -/
def opVariableValueOrClass (info : ExprInfo Obj) (pos : Nat) : M (Code × Nat) :=
  if nameSynopsys.isPrefixOf (env.unit info.object).producer then
    pure (.op Op.drop [] .nil, pos + 1)
  else opGnuVariableValue env info pos

/-- The `default` case. -/
def opOther (op : UInt8) (pos : Nat) : M (Code × Nat) :=
  if op ≥ Op.loUser then
    .error (.exception .other
      ("Unsupported DWARF expression op 0x" ++ String.ofList (Nat.toDigits 16 op.toNat)))
  else pure (.op op [] .nil, pos + 1)

/-- `JumpInfo` -/
structure JumpInfo where
  op       : UInt8
  delta    : Int := 0
  jumpOffs : Int := 0
  srcPos   : Nat
  dstPos   : Nat
deriving DecidableEq, Repr

/-- The state of the loop of `add_expression`. `code` is what this expression has emitted. -/
structure LoopState where
  exprPos : Nat := 0
  code    : Code := .nil
  jumps   : List JumpInfo := []
  range   : Range
deriving DecidableEq

/-- The 16-bit operand of the branch at `pos`, as a signed number. -/
def ExprInfo.jumpOffs (info : ExprInfo Obj) (pos : Nat) : M Int := do
  let bytes ← info.slice (pos + 1) 2
  pure (i2 (readUint env.bigEndian bytes))

/-- A case of the `switch` that does not change the code range. -/
def keepRange (range : Range) (r : M (Code × Nat)) : M (Code × Nat × Range) := do
  let (code, next) ← r
  pure (code, next, range)

/-- The `switch` of `add_expression`, except for `OP_bra` and `OP_skip`: what the
operation at `pos` emits, and where the next one is. -/
def addCase (info : ExprInfo Obj) (op : UInt8) (pos : Nat) (range : Range) :
    M (Code × Nat × Range) :=
  let addressSize := (env.unit info.object).addressSize
  match opCase op with
  | .copy n => keepRange range (copyOp info op pos n)
  | .copyAddress => keepRange range (copyOp info op pos (1 + addressSize))
  | .basereg => do
    checkFrame env
    keepRange range (copyOp info op pos (1 + addressSize))
  | .breg => do
    checkFrame env
    keepRange range (lebOp info op pos)
  | .leb => keepRange range (opLeb info op pos)
  | .branch => keepRange range (copyOp info op pos 3)
  | .bregx => do
    checkFrame env
    keepRange range (lebOp2 info op pos)
  | .bitPiece => keepRange range (lebOp2 info op pos)
  | .implicitValue => keepRange range (opImplicitValue info pos)
  | .fbreg => do
    checkFrame env
    opFbreg env rec info pos range
  | .addr => keepRange range (opAddr env info pos)
  | .implicitPointer => opImplicitPointer env rec info pos range
  | .pushTlsAddress => keepRange range (opPushTlsAddress env info pos)
  | .call => opCall env rec info pos range
  | .entryValue => do
    checkFrame env
    opEntryValue rec info pos range
  | .parameterRef => do
    checkFrame env
    opParameterRef env rec info pos range
  | .constType => keepRange range (opGnuConstType env info pos)
  | .regvalType => keepRange range (opGnuRegvalType env info pos)
  | .derefType => keepRange range (opGnuDerefType env info pos)
  | .convert => keepRange range (opGnuConvert env info pos)
  | .variableValue => keepRange range (opVariableValueOrClass env info pos)
  | .other => keepRange range (opOther op pos)

/-- The record that is kept of an operation: of a branch its offset, of any other its
change of size, if it has changed. -/
def jumpInfo (op : UInt8) (jumpOffs : Int) (srcPos srcEnd dstPos dstEnd : Nat) :
    List JumpInfo :=
  if opCase op = .branch then [{ op, jumpOffs, srcPos, dstPos }]
  else if dstEnd - dstPos ≠ srcEnd - srcPos then
    [{ op, delta := i2 (i2 (dstEnd - dstPos : Nat) - i2 (srcEnd - srcPos : Nat)),
       srcPos, dstPos }]
  else []

/-- One round of the loop of `add_expression`. A branch whose offset is 0 is not copied,
and the loop stays where it is. -/
def addOp (info : ExprInfo Obj) (s : LoopState) : M LoopState := do
  let op ← info.byte s.exprPos
  let offs ← (if opCase op = .branch then info.jumpOffs env s.exprPos else pure 0)
  if opCase op = .branch ∧ offs = 0 then pure s
  else
    let (code, next, range) ← addCase env rec info op s.exprPos s.range
    let jumps := jumpInfo op offs s.exprPos next (env.size s.code) (env.size (s.code ++ code))
    pure { exprPos := next, code := s.code ++ code, jumps := jumps ++ s.jumps, range }

/-- The loop of `add_expression`. -/
def addLoop (info : ExprInfo Obj) : (fuel : Nat) → LoopState → M LoopState
  | 0, _ => .error .fuel
  | fuel + 1, s =>
    if s.exprPos < info.exprSize then do
      let s ← addOp env rec info s
      addLoop info fuel s
    else pure s

/-- The inner loop of `adjust_jumps`: whether the change of size of an operation counts for
the branch. The sum in the first test is one of `size_t`. -/
def counts (i : JumpInfo) (srcPos : Nat) : Bool :=
  let limit := wrap (i.srcPos + i.jumpOffs)
  if i.jumpOffs > 0 then i.srcPos < srcPos && srcPos < limit
  else limit < srcPos && srcPos < i.srcPos

/-- The `delta` of `adjust_jumps` for a branch. -/
def jumpDelta (jumps : List JumpInfo) (i : JumpInfo) : Int :=
  let sum := ((jumps.filter fun j => counts i j.srcPos).map (·.delta)).sum
  if i.jumpOffs > 0 then sum else -sum

/-- The body of the loop of `adjust_jumps`. -/
def adjustJump (jumps : List JumpInfo) (code : Code) (i : JumpInfo) : Code :=
  if opCase i.op = .branch ∧ jumpDelta jumps i ≠ 0 then
    code.setU2 env.bigEndian (u2Bytes env.bigEndian (u2 (i.jumpOffs + jumpDelta jumps i)))
      i.dstPos
  else code

/-- `adjust_jumps` -/
def adjustJumps (jumps : List JumpInfo) (code : Code) : Code :=
  jumps.foldl (adjustJump env jumps) code

end

section

variable {Obj Val : Type} (env : Env Obj Val)

/-- `add_expression`: what it emits, and the code range after it. Both the calls of
itself and the rounds of its loop take fuel. -/
def addExpression : (fuel : Nat) → ExprInfo Obj → Range → M (Code × Range)
  | 0, _, _ => .error .fuel
  | fuel + 1, info, range =>
    if (env.unit info.object).bigEndian ≠ env.bigEndian then
      .error (.exception .other "Invalid endianness of location expression")
    else do
      let s ← addLoop env (addExpression fuel) info fuel { range }
      pure (adjustJumps env s.jumps s.code, s.range)

/-- `dwarf_transform_expression` -/
def dwarfTransformExpression (fuel : Nat) (infos : List (ExprInfo Obj)) : M (Code × Range) :=
  addExpressionList env (addExpression env fuel) infos none ⟨0, 0⟩

end

/-! ## What each operation emits -/

section

variable {α β : Type}

theorem bind_eq_ok {x : M α} {f : α → M β} {b : β} :
    x >>= f = .ok b ↔ ∃ a, x = .ok a ∧ f a = .ok b := by
  cases x <;> simp [bind, Except.bind]

@[simp] theorem pure_eq_ok {a b : α} : (pure a : M α) = .ok b ↔ a = b := by
  simp [pure, Except.pure]

@[simp] theorem invDwarf_ne_ok {msg : String} {b : α} : invDwarf msg ≠ (.ok b : M α) := by
  simp [invDwarf]

@[simp] theorem notAvailable_ne_ok {b : α} : notAvailable ≠ (.ok b : M α) := by
  simp [notAvailable]

end

section

variable {Obj Val : Type} {env : Env Obj Val} {info : ExprInfo Obj} {rec : Rec Obj}
  {op : UInt8} {pos next n : Nat} {raw bytes : List UInt8} {code : Code} {range range' : Range}

theorem leb_ends (h : info.leb pos = .ok raw) : Leb128.Ends raw := by
  unfold ExprInfo.leb at h
  split at h
  · rename_i hTake
    cases h
    exact (Leb128.takeNumber_eq_some hTake).2
  · cases h

theorem slice_length (h : info.slice pos n = .ok bytes) : bytes.length = n := by
  unfold ExprInfo.slice at h
  split at h
  · cases h
    simp
    omega
  · cases h

theorem copy_length (h : info.copy pos n = .ok bytes) : bytes.length = n := by
  unfold ExprInfo.copy at h
  split at h
  · simp at h
  · exact slice_length h

theorem uleb_is (n bits : Nat) : (uleb n).Is (.uleb bits) := Leb128.encode_ends n

theorem sleb_is (n : Int) : (sleb n).Is .sleb := Leb128.encodeSigned_ends n

theorem leBytes_length (size n : Nat) : (leBytes size n).length = size := by
  induction size generalizing n with
  | zero => rfl
  | succ size ih => simp [leBytes, ih]

theorem constBytes_length {unit : CompUnit} {pv : ConstValue}
    (h : constBytes unit pv = .ok bytes) : bytes.length < 2 ^ 32 := by
  cases pv with
  | number v =>
    cases h
    split <;> split <;> simp [leBytes_length]
  | block data hData =>
    cases h
    exact hData
  | null => simp [constBytes] at h

/-- One operation that `vm.c` reads as it was emitted. -/
theorem shape_op {big : Bool} {o : UInt8} {operands : List Operand} {formats : List Format}
    (hFormat : format o = some formats) (hIs : List.Forall₂ Operand.Is operands formats) :
    (Code.op o operands .nil).Shape big := ⟨.plain hFormat hIs, trivial⟩

theorem shape_op_nil {big : Bool} {o : UInt8} (hFormat : format o = some []) :
    (Code.op o [] .nil).Shape big := shape_op hFormat .nil

/-- What an operation emits is well formed, and the next operation is further on. -/
abbrev Emits (env : Env Obj Val) (pos : Nat) (code : Code) (next : Nat) : Prop :=
  pos < next ∧ code.Shape env.bigEndian

theorem copyOp_spec (hn : 0 < n) {formats : List Format} (hFormat : format op = some formats)
    (hIs : ∀ bytes : List UInt8, bytes.length = n →
      List.Forall₂ Operand.Is [.data bytes.tail] formats)
    (h : copyOp info op pos n = .ok (code, next)) : Emits env pos code next := by
  simp only [copyOp, bind_eq_ok, pure_eq_ok, Prod.mk.injEq] at h
  obtain ⟨bytes, hBytes, rfl, rfl⟩ := h
  exact ⟨by omega, shape_op hFormat (hIs bytes (copy_length hBytes))⟩

theorem copyOp_fixed (hFormat : format op = some [.fixed n])
    (h : copyOp info op pos (n + 1) = .ok (code, next)) : Emits env pos code next :=
  copyOp_spec (by omega) hFormat (fun bytes hBytes => .cons (by simp [Operand.Is, hBytes]) .nil) h

theorem copyOp_address (hFormat : format op = some [.address])
    (h : copyOp info op pos (1 + n) = .ok (code, next)) : Emits env pos code next :=
  copyOp_spec (by omega) hFormat (fun _ _ => .cons trivial .nil) h

theorem lebOp_spec {f : Format} (hFormat : format op = some [f]) (hf : f.isLeb = true)
    (h : lebOp info op pos = .ok (code, next)) : Emits env pos code next := by
  simp only [lebOp, bind_eq_ok, pure_eq_ok, Prod.mk.injEq] at h
  obtain ⟨raw, hRaw, rfl, rfl⟩ := h
  exact ⟨by omega, shape_op hFormat (.cons (Operand.is_leb (leb_ends hRaw) hf) .nil)⟩

theorem lebOp2_spec {f g : Format} (hFormat : format op = some [f, g]) (hf : f.isLeb = true)
    (hg : g.isLeb = true) (h : lebOp2 info op pos = .ok (code, next)) :
    Emits env pos code next := by
  simp only [lebOp2, bind_eq_ok, pure_eq_ok, Prod.mk.injEq] at h
  obtain ⟨raw, hRaw, raw2, hRaw2, rfl, rfl⟩ := h
  exact ⟨by omega, shape_op hFormat
    (.cons (Operand.is_leb (leb_ends hRaw) hf) (.cons (Operand.is_leb (leb_ends hRaw2) hg) .nil))⟩

theorem opLeb_spec {f : Format} (hFormat : format op = some [f]) (hf : f.isLeb = true)
    (h : opLeb info op pos = .ok (code, next)) : Emits env pos code next := by
  simp only [opLeb, bind_eq_ok, pure_eq_ok, Prod.mk.injEq] at h
  obtain ⟨⟨code', next'⟩, hLeb, rfl, rfl⟩ := h
  obtain ⟨hPos, hShape⟩ := @lebOp_spec _ _ env _ _ _ _ _ _ hFormat hf hLeb
  refine ⟨hPos, ?_⟩
  split
  · exact Code.shape_append.mpr ⟨hShape, shape_op_nil rfl⟩
  · exact hShape

theorem opImplicitValue_spec (h : opImplicitValue info pos = .ok (code, next)) :
    Emits env pos code next := by
  simp only [opImplicitValue, bind_eq_ok, pure_eq_ok, Prod.mk.injEq] at h
  obtain ⟨raw, hRaw, bytes, hBytes, rfl, rfl⟩ := h
  refine ⟨by omega, leb_ends hRaw, ?_, trivial⟩
  have hLength := copy_length hBytes
  rw [List.length_drop, hLength, u4leb]
  omega

theorem opAddr_spec (h : opAddr env info pos = .ok (code, next)) : Emits env pos code next := by
  unfold opAddr at h
  simp only at h
  split at h
  · simp only [bind_eq_ok, pure_eq_ok, Prod.mk.injEq] at h
    obtain ⟨x, -, r, -, isTls, -, addr, -, rfl, rfl⟩ := h
    exact ⟨by omega, shape_op rfl (.cons (uleb_is _ _) .nil)⟩
  · simp at h

theorem tlsOffset_spec (h : tlsOffset info pos = .ok (code, next)) : Emits env pos code next := by
  unfold tlsOffset at h
  split at h
  · simp only [bind_eq_ok] at h
    obtain ⟨op, -, h⟩ := h
    split at h
    · simp only [bind_eq_ok, pure_eq_ok, Prod.mk.injEq] at h
      obtain ⟨bytes, hBytes, rfl, rfl⟩ := h
      have hLength := copy_length hBytes
      subst op
      exact ⟨by omega, shape_op rfl (.cons (by simp [Operand.Is, hLength]) .nil)⟩
    · split at h
      · simp only [bind_eq_ok, pure_eq_ok, Prod.mk.injEq] at h
        obtain ⟨bytes, hBytes, rfl, rfl⟩ := h
        have hLength := copy_length hBytes
        subst op
        exact ⟨by omega, shape_op rfl (.cons (by simp [Operand.Is, hLength]) .nil)⟩
      · split at h
        · simp only [bind_eq_ok, pure_eq_ok, Prod.mk.injEq] at h
          obtain ⟨raw, hRaw, rfl, rfl⟩ := h
          subst op
          exact ⟨by omega, shape_op rfl (.cons (leb_ends hRaw) .nil)⟩
        · simp only [pure_eq_ok, Prod.mk.injEq] at h
          obtain ⟨rfl, rfl⟩ := h
          exact ⟨by omega, trivial⟩
  · simp only [pure_eq_ok, Prod.mk.injEq] at h
    obtain ⟨rfl, rfl⟩ := h
    exact ⟨by omega, trivial⟩

theorem opPushTlsAddress_spec (h : opPushTlsAddress env info pos = .ok (code, next)) :
    Emits env pos code next := by
  simp only [opPushTlsAddress, bind_eq_ok] at h
  obtain ⟨⟨code', next'⟩, hTls, h⟩ := h
  obtain ⟨hPos, hShape⟩ := @tlsOffset_spec _ _ env _ _ _ _ hTls
  split at h
  · simp at h
  · simp only [bind_eq_ok, pure_eq_ok] at h
    obtain ⟨addr, -, h⟩ := h
    split at h
    · cases h
      exact ⟨hPos, hShape⟩
    · cases h
      refine ⟨hPos, Code.shape_append.mpr ⟨hShape, ?_⟩⟩
      exact ⟨.plain rfl (.cons (uleb_is _ _) .nil), shape_op_nil rfl⟩

theorem opGnuVariableValue_spec (h : opGnuVariableValue env info pos = .ok (code, next)) :
    Emits env pos code next := by
  simp only [opGnuVariableValue, bind_eq_ok] at h
  obtain ⟨id, -, h⟩ := h
  split at h
  · simp at h
  · simp only [bind_eq_ok, pure_eq_ok, Prod.mk.injEq] at h
    obtain ⟨id, -, rfl, rfl⟩ := h
    exact ⟨by omega, id.nonempty, id.noZero, trivial⟩

theorem plainConst_format {fundType size : Nat} {op : UInt8}
    (h : plainConst fundType size = some op) : format op = some [.fixed size] := by
  unfold plainConst at h
  split at h
  · dsimp only at h
    split_ifs at h <;> cases h <;> subst size <;> rfl
  · cases h

theorem opGnuConstType_spec (h : opGnuConstType env info pos = .ok (code, next)) :
    Emits env pos code next := by
  simp only [opGnuConstType, bind_eq_ok, pure_eq_ok, Prod.mk.injEq] at h
  obtain ⟨raw, -, size, -, type, -, bytes, hBytes, rfl, rfl⟩ := h
  refine ⟨by omega, ?_⟩
  split
  · rename_i op hPlain
    exact shape_op (plainConst_format hPlain) (.cons (copy_length hBytes) .nil)
  · exact ⟨.constType, trivial⟩

theorem opGnuRegvalType_spec (h : opGnuRegvalType env info pos = .ok (code, next)) :
    Emits env pos code next := by
  simp only [opGnuRegvalType, bind_eq_ok, pure_eq_ok, Prod.mk.injEq] at h
  obtain ⟨reg, -, type, -, fund, -, rfl, rfl⟩ := h
  refine ⟨by omega, ?_⟩
  split
  · exact ⟨.plain rfl (.cons (uleb_is _ _) .nil),
      shape_op rfl (.cons (uleb_is _ _) .nil)⟩
  · exact ⟨.regvalType, trivial⟩

theorem opGnuDerefType_spec (h : opGnuDerefType env info pos = .ok (code, next)) :
    Emits env pos code next := by
  simp only [opGnuDerefType, bind_eq_ok, pure_eq_ok, Prod.mk.injEq] at h
  obtain ⟨size, -, type, -, fund, -, rfl, rfl⟩ := h
  refine ⟨by omega, ?_⟩
  split
  · exact shape_op rfl (.cons rfl .nil)
  · exact shape_op rfl
      (.cons (uleb_is _ _) (.cons (uleb_is _ _) (.cons (uleb_is _ _) .nil)))

theorem opGnuConvert_spec (h : opGnuConvert env info pos = .ok (code, next)) :
    Emits env pos code next := by
  simp only [opGnuConvert, bind_eq_ok, pure_eq_ok, Prod.mk.injEq] at h
  obtain ⟨raw, -, fund, -, rfl, rfl⟩ := h
  refine ⟨by omega, ?_⟩
  split
  · exact ⟨.plain rfl (.cons (uleb_is _ _) .nil), shape_op_nil rfl⟩
  · exact shape_op rfl (.cons (uleb_is _ _) (.cons (uleb_is _ _) .nil))

theorem opVariableValueOrClass_spec (h : opVariableValueOrClass env info pos = .ok (code, next)) :
    Emits env pos code next := by
  unfold opVariableValueOrClass at h
  split at h
  · simp only [pure_eq_ok, Prod.mk.injEq] at h
    obtain ⟨rfl, rfl⟩ := h
    exact ⟨by omega, shape_op_nil rfl⟩
  · exact opGnuVariableValue_spec h

/-- The operands that a case of the `switch` emits are those that are read there. -/
def caseFits (op : UInt8) : Bool :=
  match opCase op with
  | .copy n => 0 < n && format op = some [.fixed (n - 1)]
  | .copyAddress | .basereg => format op = some [.address]
  | .breg => format op = some [.sleb]
  | .leb => format op = some [.uleb 32] || format op = some [.uleb 64] || format op = some [.sleb]
  | .branch => format op = some [.fixed 2]
  | .bregx => format op = some [.uleb 32, .sleb]
  | .bitPiece => format op = some [.uleb 32, .uleb 32]
  | .other => op ≥ Op.loUser || format op = some []
  | _ => true

theorem forall_byte {P : UInt8 → Prop} (h : ∀ i : Fin 256, P (UInt8.ofFin i)) (b : UInt8) :
    P b := by
  have := h b.toFin
  rwa [UInt8.ofFin_toFin] at this

theorem caseFits_all (op : UInt8) : caseFits op = true :=
  forall_byte (P := fun op => caseFits op = true) (by decide +kernel) op

theorem opOther_spec (hCase : opCase op = .other) (h : opOther op pos = .ok (code, next)) :
    Emits env pos code next := by
  unfold opOther at h
  split at h
  · cases h
  · rename_i hUser
    simp only [pure_eq_ok, Prod.mk.injEq] at h
    obtain ⟨rfl, rfl⟩ := h
    have hFits := caseFits_all op
    simp only [caseFits, hCase, Bool.or_eq_true, decide_eq_true_eq] at hFits
    exact ⟨by omega, shape_op_nil (hFits.resolve_left hUser)⟩

/-- The recursive calls emit well-formed instructions. -/
abbrev RecShape (env : Env Obj Val) (rec : Rec Obj) : Prop :=
  ∀ info range code range', rec info range = .ok (code, range') → code.Shape env.bigEndian

variable {offs : Int}

theorem fbregRegister_shape (h : fbregRegister env info offs = .ok (some code)) :
    code.Shape env.bigEndian := by
  simp only [fbregRegister, bind_eq_ok] at h
  obtain ⟨op, -, h⟩ := h
  split at h
  · simp only [bind_eq_ok, pure_eq_ok] at h
    obtain ⟨bytes, -, h⟩ := h
    split at h
    · cases h
    · cases h
      exact ⟨.basereg (sleb_is offs), trivial⟩
  · split at h
    · simp only [bind_eq_ok, pure_eq_ok] at h
      obtain ⟨raw, hRaw, h⟩ := h
      split at h
      · cases h
      · cases h
        exact shape_op rfl
          (.cons (leb_ends hRaw) (.cons (sleb_is _) .nil))
    · split at h
      · rename_i hReg
        simp only [pure_eq_ok] at h
        split at h
        · cases h
        · cases h
          have hFormat : format (Op.breg0 + (op - Op.reg0)) = some [.sleb] := by
            revert hReg
            exact forall_byte (P := fun op => Op.reg0 ≤ op ∧ op ≤ Op.reg31 →
              format (Op.breg0 + (op - Op.reg0)) = some [.sleb]) (by decide +kernel) op
          exact shape_op hFormat (.cons (sleb_is _) .nil)
      · simp at h

section

variable (hRec : RecShape env rec)
include hRec

theorem addFbregExpression_shape
    (h : addFbregExpression env rec info offs range = .ok (code, range')) :
    code.Shape env.bigEndian := by
  simp only [addFbregExpression, bind_eq_ok] at h
  obtain ⟨reg, hReg, h⟩ := h
  split at h
  · simp only [pure_eq_ok, Prod.mk.injEq] at h
    obtain ⟨rfl, -⟩ := h
    exact fbregRegister_shape hReg
  · simp only [bind_eq_ok, pure_eq_ok] at h
    obtain ⟨⟨code', r⟩, hCode, h⟩ := h
    have hShape := hRec _ _ _ _ hCode
    split at h
    · cases h
      exact hShape
    · cases h
      exact Code.shape_append.mpr ⟨hShape,
        .plain rfl (.cons (sleb_is _) .nil), shape_op_nil rfl⟩

variable {fbreg : Option Int}

theorem addListed_shape
    (h : addListed env rec fbreg info range = .ok (code, range')) :
    code.Shape env.bigEndian := by
  cases fbreg with
  | none => exact hRec _ _ _ _ h
  | some offs => exact addFbregExpression_shape hRec h

theorem addCases_shape {infos : List (ExprInfo Obj)} {cases' : Cases}
    (h : addCases env rec fbreg range infos = .ok cases') : cases'.Shape env.bigEndian := by
  induction infos generalizing cases' with
  | nil =>
    cases h
    trivial
  | cons info infos ih =>
    unfold addCases at h
    split at h
    · simp only [bind_eq_ok, pure_eq_ok] at h
      obtain ⟨inner, -, ⟨body, r⟩, hBody, rest, hRest, rfl⟩ := h
      refine ⟨Leb128.encode_ends _, Leb128.encode_ends _, addListed_shape hRec hBody, ?_⟩
      split at hRest
      · cases hRest
        trivial
      · exact ih hRest
    · exact ih h

theorem addExpressionList_shape {infos : List (ExprInfo Obj)}
    (h : addExpressionList env rec infos fbreg range = .ok (code, range')) :
    code.Shape env.bigEndian := by
  unfold addExpressionList at h
  split at h
  · cases h
  · split at h
    · split at h
      · simp only [bind_eq_ok] at h
        obtain ⟨pc, -, h⟩ := h
        split at h
        · simp at h
        · simp only [bind_eq_ok, pure_eq_ok, Prod.mk.injEq] at h
          obtain ⟨⟨code', r⟩, hCode, -, -, rfl, -⟩ := h
          exact addListed_shape hRec hCode
      · simp only [bind_eq_ok] at h
        obtain ⟨cases', hCases, h⟩ := h
        split at h
        · simp at h
        · rename_i hLarge
          simp only [pure_eq_ok, Prod.mk.injEq] at h
          obtain ⟨rfl, -⟩ := h
          exact ⟨.plain rfl (.cons (uleb_is _ _) (.cons (Leb128.encode_ends 0) .nil)),
            by omega, addCases_shape hRec hCases, trivial⟩
    · exact addListed_shape hRec h

theorem opFbreg_spec (h : opFbreg env rec info pos range = .ok (code, next, range')) :
    Emits env pos code next := by
  simp only [opFbreg, bind_eq_ok] at h
  obtain ⟨raw, -, h⟩ := h
  split at h
  · simp at h
  · split at h
    · simp only [bind_eq_ok, pure_eq_ok, Prod.mk.injEq] at h
      obtain ⟨infos, -, ⟨code', r⟩, hCode, rfl, rfl, -⟩ := h
      exact ⟨by omega, addExpressionList_shape hRec hCode⟩
    · simp only [bind_eq_ok] at h
      obtain ⟨pc, -, func, -, h⟩ := h
      split at h
      · simp at h
      · split at h
        · simp only [bind_eq_ok] at h
          obtain ⟨infos, -, h⟩ := h
          split at h
          · simp at h
          · simp only [bind_eq_ok, pure_eq_ok, Prod.mk.injEq] at h
            obtain ⟨⟨code', r⟩, hCode, rfl, rfl, -⟩ := h
            exact ⟨by omega, addFbregExpression_shape hRec hCode⟩
        · cases h
        · cases h
    · cases h
    · cases h

theorem implicitTarget_shape {obj : Obj} {unit : CompUnit}
    (h : implicitTarget env rec obj unit range = .ok (code, range')) :
    code.Shape env.bigEndian := by
  unfold implicitTarget at h
  split at h
  · simp only [bind_eq_ok] at h
    obtain ⟨pv, -, infos, -, h⟩ := h
    exact addExpressionList_shape hRec h
  · split at h
    · simp only [bind_eq_ok, pure_eq_ok, Prod.mk.injEq] at h
      obtain ⟨pv, -, bytes, hBytes, rfl, -⟩ := h
      refine ⟨Leb128.encode_ends _, ?_, trivial⟩
      rw [Leb128.value_encode, Nat.mod_eq_of_lt (constBytes_length hBytes)]
    · simp at h

theorem opImplicitPointer_spec
    (h : opImplicitPointer env rec info pos range = .ok (code, next, range')) :
    Emits env pos code next := by
  simp only [opImplicitPointer, bind_eq_ok] at h
  obtain ⟨op, -, id, -, offset, -, h⟩ := h
  split at h
  · simp at h
  · simp only [bind_eq_ok, pure_eq_ok, Prod.mk.injEq] at h
    obtain ⟨⟨code', r⟩, hCode, rfl, rfl, -⟩ := h
    exact ⟨by omega, Code.shape_append.mpr ⟨implicitTarget_shape hRec hCode,
      shape_op rfl (.cons (uleb_is _ _) .nil)⟩⟩

theorem opCall_spec (h : opCall env rec info pos range = .ok (code, next, range')) :
    Emits env pos code next := by
  simp only [opCall, bind_eq_ok] at h
  obtain ⟨op, -, id, -, h⟩ := h
  split at h
  · simp at h
  · simp only [bind_eq_ok, pure_eq_ok, Prod.mk.injEq] at h
    obtain ⟨pv, -, infos, -, ⟨code', r⟩, hCode, rfl, rfl, -⟩ := h
    exact ⟨by omega, addExpressionList_shape hRec hCode⟩

theorem opEntryValue_spec (h : opEntryValue rec info pos range = .ok (code, next, range')) :
    Emits env pos code next := by
  simp only [opEntryValue, bind_eq_ok, pure_eq_ok, Prod.mk.injEq] at h
  obtain ⟨raw, -, ⟨body, r⟩, hBody, rfl, rfl, -⟩ := h
  exact ⟨by omega, hRec _ _ _ _ hBody, trivial⟩

theorem opParameterRef_spec (h : opParameterRef env rec info pos range = .ok (code, next, range')) :
    Emits env pos code next := by
  simp only [opParameterRef, bind_eq_ok] at h
  obtain ⟨x, -, sites, -, h⟩ := h
  split at h
  · simp at h
  · simp only [bind_eq_ok, pure_eq_ok, Prod.mk.injEq] at h
    obtain ⟨⟨body, r⟩, hBody, rfl, rfl, -⟩ := h
    exact ⟨by omega, addExpressionList_shape hRec hBody, trivial⟩

end

theorem keepRange_eq_ok {r : M (Code × Nat)} :
    keepRange range r = .ok (code, next, range') ↔ r = .ok (code, next) ∧ range = range' := by
  simp only [keepRange, bind_eq_ok, pure_eq_ok, Prod.mk.injEq]
  constructor
  · rintro ⟨⟨c, n⟩, hr, rfl, rfl, rfl⟩
    exact ⟨hr, rfl⟩
  · rintro ⟨hr, rfl⟩
    exact ⟨(code, next), hr, rfl, rfl, rfl⟩

theorem keepRange_spec {r : M (Code × Nat)}
    (hEmits : r = .ok (code, next) → Emits env pos code next)
    (h : keepRange range r = .ok (code, next, range')) : Emits env pos code next :=
  hEmits (keepRange_eq_ok.mp h).1

theorem checkFrame_bind {α : Type} {x : M α} {a : α} (h : (checkFrame env >>= fun _ => x) = .ok a) :
    x = .ok a := by
  obtain ⟨-, -, h⟩ := bind_eq_ok.mp h
  exact h

/-- What every case of the `switch` emits. -/
theorem addCase_spec (hRec : RecShape env rec)
    (h : addCase env rec info op pos range = .ok (code, next, range')) :
    Emits env pos code next := by
  have hFits := caseFits_all op
  unfold caseFits at hFits
  simp only [addCase] at h
  cases hCase : opCase op <;> simp only [hCase] at h hFits
  case copy n =>
    simp only [Bool.and_eq_true, decide_eq_true_eq] at hFits
    obtain ⟨m, rfl⟩ : ∃ m, n = m + 1 := ⟨n - 1, by omega⟩
    exact keepRange_spec (copyOp_fixed hFits.2) h
  case copyAddress => exact keepRange_spec (copyOp_address (of_decide_eq_true hFits)) h
  case basereg =>
    exact keepRange_spec (copyOp_address (of_decide_eq_true hFits)) (checkFrame_bind h)
  case breg => exact keepRange_spec (lebOp_spec (of_decide_eq_true hFits) rfl) (checkFrame_bind h)
  case leb =>
    simp only [Bool.or_eq_true, decide_eq_true_eq] at hFits
    rcases hFits with (hFormat | hFormat) | hFormat <;>
      exact keepRange_spec (opLeb_spec hFormat rfl) h
  case branch => exact keepRange_spec (copyOp_fixed (of_decide_eq_true hFits)) h
  case bregx =>
    exact keepRange_spec (lebOp2_spec (of_decide_eq_true hFits) rfl rfl) (checkFrame_bind h)
  case bitPiece => exact keepRange_spec (lebOp2_spec (of_decide_eq_true hFits) rfl rfl) h
  case implicitValue => exact keepRange_spec opImplicitValue_spec h
  case fbreg => exact opFbreg_spec hRec (checkFrame_bind h)
  case addr => exact keepRange_spec opAddr_spec h
  case implicitPointer => exact opImplicitPointer_spec hRec h
  case pushTlsAddress => exact keepRange_spec opPushTlsAddress_spec h
  case call => exact opCall_spec hRec h
  case entryValue => exact opEntryValue_spec hRec (checkFrame_bind h)
  case parameterRef => exact opParameterRef_spec hRec (checkFrame_bind h)
  case constType => exact keepRange_spec opGnuConstType_spec h
  case regvalType => exact keepRange_spec opGnuRegvalType_spec h
  case derefType => exact keepRange_spec opGnuDerefType_spec h
  case convert => exact keepRange_spec opGnuConvert_spec h
  case variableValue => exact keepRange_spec opVariableValueOrClass_spec h
  case other => exact keepRange_spec (opOther_spec hCase) h

/-- The operand of a branch is copied as it is. -/
theorem copyOp_branch (hOffs : info.jumpOffs env pos = .ok offs)
    (h : copyOp info op pos 3 = .ok (code, next)) :
    next = pos + 3 ∧ ∃ operand, operand.length = 2 ∧ code = .op op [.data operand] .nil ∧
      i2 (readUint env.bigEndian operand) = offs := by
  simp only [copyOp, bind_eq_ok, pure_eq_ok, Prod.mk.injEq] at h
  obtain ⟨bytes, hBytes, rfl, rfl⟩ := h
  simp only [ExprInfo.jumpOffs, bind_eq_ok, pure_eq_ok] at hOffs
  obtain ⟨operand, hOperand, rfl⟩ := hOffs
  refine ⟨rfl, operand, slice_length hOperand, ?_, rfl⟩
  unfold ExprInfo.copy ExprInfo.slice at hBytes
  unfold ExprInfo.slice at hOperand
  split_ifs at hBytes hOperand
  · simp at hBytes
  · cases hBytes
    cases hOperand
    rw [← List.drop_one, List.drop_take, List.drop_drop]

/-- What one round of the loop does: nothing, for a branch without an offset; otherwise it
emits something for the operation and makes a record of it. -/
theorem addOp_spec (hRec : RecShape env rec) {s s' : LoopState}
    (h : addOp env rec info s = .ok s') :
    s' = s ∨ ∃ op offs code, info.byte s.exprPos = .ok op ∧ Emits env s.exprPos code s'.exprPos ∧
      s'.code = s.code ++ code ∧
      s'.jumps = jumpInfo op offs s.exprPos s'.exprPos (env.size s.code) (env.size s'.code) ++
        s.jumps ∧
      (opCase op = .branch → info.jumpOffs env s.exprPos = .ok offs ∧ offs ≠ 0 ∧
        s'.exprPos = s.exprPos + 3 ∧ ∃ operand, operand.length = 2 ∧
          code = .op op [.data operand] .nil ∧ i2 (readUint env.bigEndian operand) = offs) := by
  simp only [addOp, bind_eq_ok] at h
  obtain ⟨op, hOp, offs, hOffs, h⟩ := h
  split at h
  · exact .inl (pure_eq_ok.mp h).symm
  · rename_i hGo
    simp only [bind_eq_ok, pure_eq_ok] at h
    obtain ⟨⟨code, next, range⟩, hCase, rfl⟩ := h
    refine .inr ⟨op, offs, code, hOp, addCase_spec hRec hCase, rfl, rfl, fun hBranch => ?_⟩
    rw [if_pos hBranch] at hOffs
    simp only [addCase, hBranch] at hCase
    obtain ⟨hNext, hOperand⟩ := copyOp_branch hOffs (keepRange_eq_ok.mp hCase).1
    exact ⟨hOffs, fun h0 => hGo ⟨hBranch, h0⟩, hNext, hOperand⟩

end

end TcfAgent.DwarfTransform
