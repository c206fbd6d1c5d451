import Mathlib.Data.List.Basic
import Mathlib.Tactic

/-!
# Location expression commands

`evaluate_location_expression` of `framework/cpudefs.c`: a stack machine for the commands
`SFT_CMD_*` that compute a value. The commands that write, that take the value apart into
pieces or that call other code (`SFT_CMD_WR_REG`, `SFT_CMD_WR_MEM`, `SFT_CMD_LOAD`,
`SFT_CMD_LOCATION`, `SFT_CMD_FCALL`, `SFT_CMD_PIECE`) are not embedded.

Main results:

* `runCommands_append` — commands that do not end in a piece of memory are run one
  sequence after the other.
-/

namespace TcfAgent.Location

abbrev Word := BitVec 64

/-! ## Failures -/

namespace Err

def other : Nat := 0x20001
def eof : Nat := 0x20009
def invDataSize : Nat := 0x2000f
def invContext : Nat := 0x20010
def invAddress : Nat := 0x20011
def invDwarf : Nat := 0x20015
def unsupported : Nat := 0x20017
def invContObj : Nat := 0x2001d

end Err

/-- What an exception carries: `exception` leaves the text out. -/
structure Failure where
  errno : Nat
  text : Option String
deriving DecidableEq, Repr

def exception (errno : Nat) : Failure := ⟨errno, none⟩

def strException (errno : Nat) (text : String) : Failure := ⟨errno, some text⟩

def locationExpressionError : Failure := strException Err.other "Invalid location expression"

/-- A call that returns -1 has put its reason into `errno`. -/
def orException {α : Type} (r : Except Nat α) : Except Failure α := r.mapError exception

/-! ## The target -/

/-- What can be read of a context: the registers of the stack frame, its memory, the frame
pointer. C leaves open what a shift by 64 or more gives; it is something that depends on
the operands only. -/
structure Target (Reg : Type) where
  readRegValue : Reg → Except Nat Word
  contextReadMem : Word → (size : Nat) → Except Nat (Vector UInt8 size)
  frame : Option Word
  shlOver : Word → Word → Word
  shrOver : Word → Word → Word

variable {Reg : Type}

def Target.shl (t : Target Reg) (a b : Word) : Word :=
  if b.toNat < 64 then a <<< b.toNat else t.shlOver a b

def Target.shr (t : Target Reg) (a b : Word) : Word :=
  if b.toNat < 64 then a >>> b.toNat else t.shrOver a b

/-- `n = (n << 8) | buf[...]` over the bytes of a buffer. -/
def bufWord (big : Bool) (buf : List UInt8) : Word :=
  (if big then buf else buf.reverse).foldl (fun n b => n <<< 8 ||| b.toBitVec.setWidth 64) 0

/-- The number of `size` bytes at an address. -/
def Target.readMem (t : Target Reg) (big : Bool) (addr : Word) (size : Nat) :
    Except Failure Word :=
  (orException (t.contextReadMem addr size)).map fun buf => bufWord big buf.toList

/-- A comparison gives 0 or 1. -/
def flag (p : Bool) : Word := if p then 1 else 0

/-! ## Commands -/

/-- The commands of a location expression. -/
inductive Command (Reg : Type) where
  | number (num : Word)
  | rdReg (reg : Reg)
  | rdRegPcxiTricore (reg : Reg)
  | fp
  | rdMem (size : Nat) (bigEndian : Bool)
  | add | sub | mul | div | and | or | xor | neg | ge | gt | le | lt | shl | shr
  | arg (argNo : Nat)
  | setArg (argNo : Nat)
deriving DecidableEq, Repr

/-- The stack, its top first, the arguments, and the piece that an `SFT_CMD_RD_MEM` of more
than eight bytes makes. -/
structure State where
  stk : List Word
  args : List Word
  piece : Option (Word × Nat) := none
deriving DecidableEq, Repr

/-- A command that replaces the two topmost values by one. -/
def binary (f : Word → Word → Except Failure Word) (s : State) : Except Failure State :=
  match s.stk with
  | b :: a :: stk => (f a b).map fun v => { s with stk := v :: stk }
  | _ => .error locationExpressionError

/-- `SFT_CMD_SET_ARG` makes room for the argument first. -/
def setArg (args : List Word) (argNo : Nat) (v : Word) : List Word :=
  (args ++ List.replicate (argNo + 1 - args.length) 0).set argNo v

/-- Where PCXI says that the registers of a call are saved: the segment and the offset. -/
def savedArea (pcxi : Word) : Word := ((pcxi &&& 0xffff) <<< 6) ||| ((pcxi &&& 0xf0000) <<< 12)

/-- One command; `last` tells that no other one follows. `SFT_CMD_NEG` complements the
value and drops it. -/
def Target.command (t : Target Reg) (last : Bool) (cmd : Command Reg) (s : State) :
    Except Failure State :=
  match cmd with
  | .number num => .ok { s with stk := num :: s.stk }
  | .rdReg reg => (orException (t.readRegValue reg)).map fun v => { s with stk := v :: s.stk }
  | .rdRegPcxiTricore reg => (orException (t.readRegValue reg)).map fun pcxi =>
    { s with stk := savedArea pcxi :: s.stk }
  | .fp =>
    match t.frame with
    | none => .error (strException Err.invContext "Invalid stack frame")
    | some fp => .ok { s with stk := fp :: s.stk }
  | .rdMem size big =>
    match s.stk with
    | [] => .error locationExpressionError
    | addr :: stk =>
      if size ≤ 8 then (t.readMem big addr size).map fun n => { s with stk := n :: stk }
      else if s.piece = none ∧ last ∧ stk = [] then .ok { s with stk := [], piece := (addr, size) }
      else .error (exception Err.invDataSize)
  | .add => binary (fun a b => .ok (a + b)) s
  | .sub => binary (fun a b => .ok (a - b)) s
  | .mul => binary (fun a b => .ok (a * b)) s
  | .div => binary (fun a b =>
    if b = 0 then .error (strException Err.other "Division by zero in location expression")
    else .ok (a / b)) s
  | .and => binary (fun a b => .ok (a &&& b)) s
  | .or => binary (fun a b => .ok (a ||| b)) s
  | .xor => binary (fun a b => .ok (a ^^^ b)) s
  | .neg =>
    match s.stk with
    | [] => .error locationExpressionError
    | _ :: stk => .ok { s with stk := stk }
  | .ge => binary (fun a b => .ok (flag (b ≤ a))) s
  | .gt => binary (fun a b => .ok (flag (b < a))) s
  | .le => binary (fun a b => .ok (flag (a ≤ b))) s
  | .lt => binary (fun a b => .ok (flag (a < b))) s
  | .shl => binary (fun a b => .ok (t.shl a b)) s
  | .shr => binary (fun a b => .ok (t.shr a b)) s
  | .arg argNo =>
    match s.args[argNo]? with
    | none => .error locationExpressionError
    | some v => .ok { s with stk := v :: s.stk }
  | .setArg argNo =>
    match s.stk with
    | [] => .error locationExpressionError
    | v :: stk => .ok { s with stk := stk, args := setArg s.args argNo v }

/-- The loop over the commands. -/
def Target.runCommands (t : Target Reg) : List (Command Reg) → State → Except Failure State
  | [], s => .ok s
  | cmd :: cmds, s => do
    let s ← t.command cmds.isEmpty cmd s
    t.runCommands cmds s

/-- Two values that are left are added. -/
def addTwo (s : State) : State :=
  match s.stk with
  | [b, a] => { s with stk := [a + b] }
  | _ => s

/-- `evaluate_location_expression`. -/
def Target.evaluateLocationExpression (t : Target Reg) (cmds : List (Command Reg))
    (args : List Word) : Except Failure State :=
  (t.runCommands cmds { stk := [], args := args }).map addTwo

/-! ## Sequences of commands -/

/-- The command does not depend on what follows it. -/
def Command.Plain : Command Reg → Prop
  | .rdMem size _ => size ≤ 8
  | _ => True

theorem command_plain (t : Target Reg) {cmd : Command Reg} (h : cmd.Plain) (last : Bool)
    (s : State) : t.command last cmd s = t.command true cmd s := by
  cases cmd with
  | rdMem size big =>
    have hSize : size ≤ 8 := h
    simp only [Target.command, hSize, ↓reduceIte]
  | _ => rfl

/-- Commands are run one sequence after the other. -/
theorem runCommands_append (t : Target Reg) {cmds : List (Command Reg)}
    (h : ∀ cmd ∈ cmds, cmd.Plain) (cmds' : List (Command Reg)) (s : State) :
    t.runCommands (cmds ++ cmds') s = t.runCommands cmds s >>= t.runCommands cmds' := by
  induction cmds generalizing s with
  | nil => rfl
  | cons cmd cmds ih =>
    have hPlain := h cmd List.mem_cons_self
    simp only [List.cons_append, Target.runCommands]
    rw [command_plain t hPlain, command_plain t hPlain cmds.isEmpty]
    cases t.command true cmd s with
    | error f => rfl
    | ok s' => exact ih (fun c hc => h c (List.mem_cons_of_mem _ hc)) s'

/-- Numbers are pushed, the first one first. -/
theorem runCommands_numbers (t : Target Reg) (vs : List Word) (cmds : List (Command Reg))
    (s : State) :
    t.runCommands (vs.map .number ++ cmds) s =
      t.runCommands cmds { s with stk := vs.reverse ++ s.stk } := by
  induction vs generalizing s with
  | nil => rfl
  | cons v vs ih =>
    rw [List.map_cons, List.cons_append, Target.runCommands]
    show t.runCommands (vs.map .number ++ cmds) { s with stk := v :: s.stk } = _
    rw [ih]
    simp

end TcfAgent.Location
