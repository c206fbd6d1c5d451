import TcfAgent.Lib.Attempt
import TcfAgent.Lib.Retry

/-!
# Register commands

`get`, `set`, `getm` and `setm` of `services/registers.c`. The list commands have their own function
for the checks, `check_location_list`. A command that finds a group of contexts running that should
be stopped waits for it: the attempt is given up, the group is stopped, and the command is tried
again.

The contexts, what is in their registers and in those of their stack frames, and whether it can be
read and written are given; a register that cannot be read cannot be read in part. What no program
may do is an access to the data, to the buffer or to the table of definitions out of bounds, and a
call of the context layer for bytes that the register does not have.
-/

namespace TcfAgent.RegisterCommands

open TcfAgent.Lib TcfAgent.Lib.Attempt

/-! ## Contexts -/

abbrev Text := List UInt8

def REG_ACCESS_RD_RUNNING : BitVec 32 := 0x0001

def REG_ACCESS_WR_RUNNING : BitVec 32 := 0x0002

def REG_ACCESS_RD_STOP : BitVec 32 := 0x0004

def REG_ACCESS_WR_STOP : BitVec 32 := 0x0008

/-- `ERR_IS_RUNNING` comes with or without a text. -/
inductive Failure where
  | invContext
  | alreadyExited
  | isRunning (text : Option String)
  | invDataSize
  | other (code : Nat)
deriving DecidableEq, Repr

/-- What is read of a register, by the index of the byte. -/
abbrev Value := Except Failure (Nat → UInt8)

/-- A definition, what the context has in the register, and why it cannot be written. -/
structure Register where
  size    : Nat
  value   : Value
  refusal : Option Failure

/-- The registers of a stack frame, by number. -/
abbrev StackFrame := Nat → Value

/-- `definitions` is the table with the entry that ends it; `frames` are those of the stopped
context. -/
structure Context where
  id          : Text
  exited      : Bool
  exiting     : Bool
  stopped     : Bool
  hasState    : Bool
  cannotStop  : Bool
  stopGroup   : Nat
  regAccess   : BitVec 32
  definitions : List Register
  frames      : Int → Except Failure StackFrame

/-- The contexts of the agent. -/
abbrev World := List Context

def Context.canStop (c : Context) : Bool := c.hasState && !c.exited && !c.exiting && !c.cannotStop

/-- The context when its group has been stopped. -/
def Context.halt (c : Context) : Context := { c with stopped := c.stopped || c.canStop }

/-- `is_all_stopped` -/
def isAllStopped (w : World) (grp : Nat) : Bool :=
  w.all fun c =>
    c.stopped || c.exited || c.exiting || c.cannotStop || !c.hasState || c.stopGroup != grp

/-- The safe event of a group is run when its contexts have stopped. -/
def stop (grp : Nat) (w : World) : World := w.map fun c => if c.stopGroup = grp then c.halt else c

/-- Why an attempt is given up: an exception, or it has to wait until a group is stopped. -/
inductive Abort where
  | error (e : Failure)
  | wait (grp : Nat)
deriving DecidableEq, Repr

/-- A part of a command that changes nothing. -/
abbrev Check (α : Type) := Except (Stop Abort) α

def refuse {α : Type} (e : Failure) : Check α := .error (.raise (.error e))

def refuseIf (p : Prop) [Decidable p] (e : Failure) : Check Unit := if p then refuse e else .ok ()

def ofResult {α : Type} : Except Failure α → Check α
  | .error e => refuse e
  | .ok a => .ok a

/-- `check_all_stopped`, where the flags of the context ask for it. -/
def checkAllStoppedIf (p : Prop) [Decidable p] (w : World) (c : Context) : Check Unit :=
  if p ∧ ¬ isAllStopped w c.stopGroup then .error (.raise (.wait c.stopGroup)) else .ok ()

/-! ## Registers -/

def isDigit (ch : UInt8) : Bool := 0x30 ≤ ch && ch ≤ 0x39

/-- The digits of a number, up to one of the characters that end it. -/
def digits (ends : List UInt8) : Text → BitVec 32 → Option (BitVec 32 × Text)
  | [], _ => none
  | ch :: id, n =>
    if ch ∈ ends then some (n, ch :: id)
    else if isDigit ch then digits ends id (n * 10 + (ch - 0x30).toBitVec.zeroExtend 32)
    else none

def STACK_TOP_FRAME : Int := -2

/-- `id2reg_num`: the frame, the number of the register and the id of the context. -/
def id2regNum : Text → Option (Int × BitVec 32 × Text)
  | 0x52 :: id => do
    let (regNum, id) ← digits [0x2e, 0x40] id 0
    match id with
    | 0x40 :: id => do
      let (n, id) ← digits [0x2e] id 0
      return (n.toInt, regNum, id.tail)
    | _ => return (STACK_TOP_FRAME, regNum, id.tail)
  | _ => none

def id2ctx (w : World) (id : Text) : Option Context := w.find? fun c => c.id = id

/-- The context, the frame and the number of the register. -/
def id2register (w : World) (id : Text) : Except Failure (Context × Int × Nat) :=
  match id2regNum id with
  | none => .error .invContext
  | some (frame, regNum, ctxId) =>
    match id2ctx w ctxId with
    | none => .error .invContext
    | some ctx => if ctx.exited then .error .alreadyExited else .ok (ctx, frame, regNum.toNat)

def isTopFrame (frame : Int) : Bool := frame = 0 || frame = STACK_TOP_FRAME

def getFrameInfo (ctx : Context) (frame : Int) : Except Failure StackFrame :=
  if ¬ ctx.hasState then .error .invContext
  else if ¬ ctx.stopped then .error (.isRunning none)
  else ctx.frames frame

/-- The entry of the table; what is behind its end must not be read. -/
def definition (ctx : Context) (regNum : Nat) : Check Register :=
  match ctx.definitions[regNum]? with
  | none => .error .fault
  | some reg => .ok reg

/-- `context_read_reg` and `read_reg_bytes`: the bytes of a register from `offs` on. -/
def readBytes (reg : Register) (value : Value) (offs size : Nat) : Check (List UInt8) :=
  if offs + size ≤ reg.size then ofResult (value.map fun v => (List.range size).map fun i =>
    v (offs + i))
  else .error .fault

def notStopped (write : Bool) : Failure :=
  .isRunning (some
    (if write then "Cannot write register if not stopped" else
    "Cannot read register if not stopped"))

/-! ## One register -/

/-- The last part of `get`, when the context has been stopped if it should be. -/
def getRegister (ctx : Context) (frame : Int) (regNum : Nat) : Check (List UInt8) := do
  refuseIf (ctx.regAccess &&& REG_ACCESS_RD_RUNNING = 0 ∧ ¬ ctx.stopped ∧ ctx.hasState)
    (notStopped false)
  let reg ← definition ctx regNum
  if frame < 0 ∨ isTopFrame frame then readBytes reg reg.value 0 reg.size
  else do
    let info ← ofResult (getFrameInfo ctx frame)
    readBytes reg (info regNum) 0 reg.size

/-- An attempt at `get`. -/
def commandGetCacheClient (id : Text) (w : World) : Check (List UInt8) := do
  let (ctx, frame, regNum) ← ofResult (id2register w id)
  refuseIf ctx.exited .alreadyExited
  checkAllStoppedIf (ctx.regAccess &&& REG_ACCESS_RD_STOP ≠ 0) w ctx
  getRegister ctx frame regNum

/-- The last part of `set`. -/
def setRegister (ctx : Context) (regNum : Nat) (data : List UInt8) : Check Unit := do
  refuseIf (ctx.regAccess &&& REG_ACCESS_WR_RUNNING = 0 ∧ ¬ ctx.stopped ∧ ctx.hasState)
    (notStopped true)
  let reg ← definition ctx regNum
  refuseIf (data.length > reg.size) .invDataSize
  match reg.refusal with
  | none => .ok ()
  | some e => if data.length > 0 then refuse e else .ok ()

/-- An attempt at `set`. -/
def commandSetCacheClient (id : Text) (data : List UInt8) (w : World) : Check Unit := do
  let (ctx, frame, regNum) ← ofResult (id2register w id)
  refuseIf (frame ≥ 0 ∧ ¬ isTopFrame frame) .invContext
  refuseIf ctx.exited .alreadyExited
  checkAllStoppedIf (ctx.regAccess &&& REG_ACCESS_WR_STOP ≠ 0) w ctx
  setRegister ctx regNum data

/-! ## Lists of locations -/

structure Location where
  id   : Text
  offs : BitVec 32
  size : BitVec 32
deriving DecidableEq, Repr

/-- A location that has been checked. There is a `frame_info` for a frame that is not on top. -/
structure Checked where
  location  : Location
  ctx       : Context
  regNum    : Nat
  reg       : Register
  frameInfo : Option StackFrame

/-- The value that is read: of the context, or of the frame. -/
def Checked.value (l : Checked) : Value :=
  match l.frameInfo with
  | none => l.reg.value
  | some info => info l.regNum

/-- The operand of the conditional operator is `reg_access & setm`. -/
def stopFlag (ctx : Context) (setm : BitVec 32) : BitVec 32 :=
  if ctx.regAccess &&& setm ≠ 0 then REG_ACCESS_WR_STOP else REG_ACCESS_RD_STOP

def runningFlag (ctx : Context) (setm : BitVec 32) : BitVec 32 :=
  if ctx.regAccess &&& setm ≠ 0 then REG_ACCESS_WR_RUNNING else REG_ACCESS_RD_RUNNING

/-- The last part of a round of `check_location_list`. The sum has 32 bits. -/
def checkRegister (setm : BitVec 32) (l : Location) (ctx : Context) (frame : Int) (regNum : Nat) :
    Check Checked := do
  refuseIf (runningFlag ctx setm = 0 ∧ ¬ ctx.stopped ∧ ctx.hasState) (notStopped (setm ≠ 0))
  let reg ← definition ctx regNum
  refuseIf ((l.offs + l.size).toNat > reg.size) .invDataSize
  if frame < 0 ∨ isTopFrame frame then return ⟨l, ctx, regNum, reg, none⟩
  else do
    refuseIf (setm ≠ 0) .invContext
    let info ← ofResult (getFrameInfo ctx frame)
    return ⟨l, ctx, regNum, reg, some info⟩

/-- One round of `check_location_list`. -/
def checkLocation (w : World) (setm : BitVec 32) (l : Location) : Check Checked := do
  let (ctx, frame, regNum) ← ofResult (id2register w l.id)
  refuseIf ctx.exited .alreadyExited
  checkAllStoppedIf (stopFlag ctx setm ≠ 0) w ctx
  checkRegister setm l ctx frame regNum

def checkLocationList (w : World) (setm : BitVec 32) : List Location → Check (List Checked)
  | [] => return []
  | l :: locs => do
    let c ← checkLocation w setm l
    let cs ← checkLocationList w setm locs
    return c :: cs

/-- `bbf` up to `bbf_pos`, `bbf_len`, and the contexts that have been read, in the state in which
they were. -/
structure Buffer where
  bbf     : List UInt8
  bbfLen  : BitVec 32
  touched : List Context

/-- The length of the buffer, when it is too short for so many bytes. Both sums have 32 bits. -/
def grow (pos len size : BitVec 32) : BitVec 32 :=
    if pos + size > len then len + (0x100 + size) else len

/-- One round of `getm`. -/
def readLocation (l : Checked) : Attempt Buffer Abort Unit := fun b =>
  let len := grow (BitVec.ofNat 32 b.bbf.length) b.bbfLen l.location.size
  if b.bbf.length + l.location.size.toNat ≤ len.toNat then
    match readBytes l.reg l.value l.location.offs.toNat l.location.size.toNat with
    | .error e => (.error e, { b with bbfLen := len, touched := b.touched ++ [l.ctx] })
    | .ok bytes => (.ok (), ⟨b.bbf ++ bytes, len, b.touched ++ [l.ctx]⟩)
  else (.error .fault, { b with bbfLen := len })

def readLocations : List Checked → Attempt Buffer Abort Unit
  | [] => pure ()
  | l :: ls => do
    readLocation l
    readLocations ls

/-- An attempt at `getm`. -/
def commandGetmCacheClient (bbfLen : BitVec 32) (locs : List Location) (w : World) :
    Except (Stop Abort) Unit × Buffer :=
  match checkLocationList w 0 locs with
  | .error e => (.error e, ⟨[], bbfLen, []⟩)
  | .ok ls => readLocations ls ⟨[], bbfLen, []⟩

/-- A call of `context_write_reg`, with the position of the bytes in the data and the state of the
context. -/
structure Write where
  location : Location
  dataPos  : Nat
  ctx      : Context

/-- The calls, and `data_pos`. -/
structure Writes where
  calls   : List Write
  dataPos : BitVec 32

/-- One round of `setm`. -/
def writeLocation (data : List UInt8) (l : Checked) : Attempt Writes Abort Unit := fun s =>
  if l.location.size = 0 then (.ok (), s)
  else if s.dataPos.toNat + l.location.size.toNat ≤ data.length ∧
      l.location.offs.toNat + l.location.size.toNat ≤ l.reg.size then
    let calls := s.calls ++ [⟨l.location, s.dataPos.toNat, l.ctx⟩]
    match l.reg.refusal with
    | some e => (.error (.raise (.error e)), { s with calls := calls })
    | none => (.ok (), ⟨calls, s.dataPos + l.location.size⟩)
  else (.error .fault, s)

def writeLocations (data : List UInt8) : List Checked → Attempt Writes Abort Unit
  | [] => pure ()
  | l :: ls => do
    writeLocation data l
    writeLocations data ls

/-- An attempt at `setm`. -/
def commandSetmCacheClient (data : List UInt8) (locs : List Location) (w : World) :
    Except (Stop Abort) Unit × Writes :=
  match checkLocationList w 1 locs with
  | .error e => (.error e, ⟨[], 0⟩)
  | .ok ls => writeLocations data ls ⟨[], 0⟩

/-! ## Commands -/

/-- The group that has to be stopped. -/
def waits {α : Type} : Except (Stop Abort) α → Option Nat
  | .error (.raise (.wait grp)) => some grp
  | _ => none

def get (w : World) (id : Text) : Check (List UInt8) :=
  retry (commandGetCacheClient id) waits stop w.length w

def set (w : World) (id : Text) (data : List UInt8) : Check Unit :=
  retry (commandSetCacheClient id data) waits stop w.length w

def getm (w : World) (bbfLen : BitVec 32) (locs : List Location) :
    Except (Stop Abort) Unit × Buffer :=
  retry (commandGetmCacheClient bbfLen locs) (fun r => waits r.1) stop w.length w

def setm (w : World) (locs : List Location) (data : List UInt8) :
    Except (Stop Abort) Unit × Writes :=
  retry (commandSetmCacheClient data locs) (fun r => waits r.1) stop w.length w

/-! ## What is expected -/

/-- The piece is a part of its register. -/
def Inside (w : World) (l : Location) : Prop :=
  ∃ ctx frame regNum reg, id2register w l.id = .ok (ctx, frame, regNum) ∧
    ctx.definitions[regNum]? = some reg ∧
    l.offs.toNat + l.size.toNat ≤ reg.size

/-- What `get` returns. -/
def valueOf (w : World) (id : Text) : List UInt8 := (get w id).toOption.getD []

/-- The context is running, and its flags do not let it be accessed then. -/
def Forbidden (flag : BitVec 32) (c : Context) : Prop :=
    c.regAccess &&& flag = 0 ∧ ¬ c.stopped ∧ c.hasState

/-- `getm` does what `get` does for each register, and returns the slices of what that returns. -/
structure GetmAgrees (w : World) (bbfLen : BitVec 32) (locs : List Location) : Prop where
  noFault : (getm w bbfLen locs).1 ≠ .error .fault
  ok_iff : (getm w bbfLen locs).1 = .ok () ↔ ∀ l ∈ locs, Inside w l ∧ ∃ v, get w l.id = .ok v
  value : (getm w bbfLen locs).1 = .ok () →
    (getm w bbfLen locs).2.bbf = locs.flatMap fun l =>
    ((valueOf w l.id).drop l.offs.toNat).take l.size.toNat
  allowed : ∀ c ∈ (getm w bbfLen locs).2.touched, ¬ Forbidden REG_ACCESS_RD_RUNNING c

/-- The pieces that are not empty, with the positions of their slices in the data. -/
def slices : (pos : Nat) → List Location → List (Location × Nat)
  | _, [] => []
  | pos, l :: ls => (if l.size = 0 then [] else [(l, pos)]) ++ slices (pos + l.size.toNat) ls

/-- `setm` does what `set` does for each register, with the slice of the data. -/
structure SetmAgrees (w : World) (locs : List Location) (data : List UInt8) : Prop where
  noFault : (setm w locs data).1 ≠ .error .fault
  ok : (setm w locs data).1 = .ok () → data.length = (locs.map fun l => l.size.toNat).sum ∧
    ∀ l ∈ locs, Inside w l ∧ ∀ bytes : List UInt8, bytes.length = l.size.toNat →
      set w l.id bytes = .ok ()
  written : (setm w locs data).1 = .ok () →
    (setm w locs data).2.calls.map (fun c => (c.location, c.dataPos)) = slices 0 locs
  others : (setm w locs data).2.calls.map (fun c => (c.location, c.dataPos)) <+: slices 0 locs
  allowed : ∀ c ∈ (setm w locs data).2.calls, ¬ Forbidden REG_ACCESS_WR_RUNNING c.ctx

/-- The contexts when all groups have been stopped. -/
def halt (w : World) : World := w.map Context.halt

/-- The context as a command for one register finds it: its group has been stopped when the flag is
set. -/
def Context.stoppedFor (flag : BitVec 32) (c : Context) : Context :=
    if c.regAccess &&& flag ≠ 0 then c.halt else c

/-- What `get` asks of the context. -/
def GetAllowed (w : World) (l : Location) : Prop :=
  ∀ ctx frame regNum, id2register w l.id = .ok (ctx, frame, regNum) →
    ¬ Forbidden REG_ACCESS_RD_RUNNING (ctx.stoppedFor REG_ACCESS_RD_STOP) ∧
      (frame < 0 ∨ isTopFrame frame ∨ (ctx.stoppedFor REG_ACCESS_RD_STOP).stopped)

/-- What `set` asks of the context. -/
def SetAllowed (w : World) (l : Location) : Prop :=
  ∀ ctx frame regNum, id2register w l.id = .ok (ctx, frame, regNum) →
    ¬ Forbidden REG_ACCESS_WR_RUNNING (ctx.stoppedFor REG_ACCESS_WR_STOP)

/-- Up to the first register that cannot be read, the buffer gets long enough, no piece goes beyond
its register, and no context must be stopped that cannot be. -/
def ReadsOk : (pos : Nat) → (len : BitVec 32) → List Checked → Prop
  | _, _, [] => True
  | pos, len, l :: ls =>
    let len' := grow (BitVec.ofNat 32 pos) len l.location.size
    pos + l.location.size.toNat ≤ len'.toNat ∧
      l.location.offs.toNat + l.location.size.toNat ≤ l.reg.size ∧
      ¬ Forbidden REG_ACCESS_RD_RUNNING l.ctx ∧
        (l.value.isOk → ReadsOk (pos + l.location.size.toNat) len' ls)

/-- The list is refused; or it can be read, and unless a register cannot be, `get` would be allowed
for each. -/
def GetmOk (w : World) (bbfLen : BitVec 32) (locs : List Location) : Prop :=
  match checkLocationList (halt w) 0 locs with
  | .error .fault => False
  | .error (.raise _) => True
  | .ok ls => ReadsOk 0 bbfLen ls ∧ ((∀ l ∈ ls, l.value.isOk) → ∀ l ∈ locs, GetAllowed w l)

/-- Up to the first register that cannot be written, the data are long enough and less than 4 GiB,
no piece goes beyond its register, and no context must be stopped that cannot be. -/
def WritesOk (data : List UInt8) : (pos : Nat) → List Checked → Prop
  | _, [] => True
  | pos, l :: ls =>
    if l.location.size = 0 then WritesOk data pos ls
    else pos < 2 ^ 32 ∧ pos + l.location.size.toNat ≤ data.length ∧
      l.location.offs.toNat + l.location.size.toNat ≤ l.reg.size ∧
        ¬ Forbidden REG_ACCESS_WR_RUNNING l.ctx ∧
      (l.reg.refusal = none → WritesOk data (pos + l.location.size.toNat) ls)

/-- The list is refused; or it can be written, and unless a register cannot be, the data have the
length of all pieces and `set` would be allowed for each. -/
def SetmOk (w : World) (locs : List Location) (data : List UInt8) : Prop :=
  match checkLocationList (halt w) 1 locs with
  | .error .fault => False
  | .error (.raise _) => True
  | .ok ls => WritesOk data 0 ls ∧ ((∀ l ∈ ls, l.location.size ≠ 0 → l.reg.refusal = none) →
      data.length = (locs.map fun l => l.size.toNat).sum ∧ ∀ l ∈ locs, SetAllowed w l)

end TcfAgent.RegisterCommands
