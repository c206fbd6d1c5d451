import TcfAgent.Lib.Loops
import TcfAgent.Framework.JsonBinary

/-!
# Commands of the memory service

`services/memoryservice.c`: `get`, `set` and `fill`. A command reads its arguments, takes the run
control lock and gives a client to the cache, which runs the client again from its start when a
cache misses. An exception of the client after `cache_exit` is caught by the cache, one of the
command closes the channel.

What a command does is in a log. The contexts, the memory and the caches are the environment: an
`Attempt` is what the client finds when it is run once. Sizes are those of a host with 64 bits.
`ENABLE_MemoryAccessModes` is off, `ENABLE_ExtendedMemoryErrorReports` is on.

What the clients leave behind is in `MemoryCleanup`, and when it is in order in `MemoryOutcomes`.
-/

namespace TcfAgent.MemoryService

open TcfAgent.Lib TcfAgent.Lib.Program TcfAgent.JsonText TcfAgent.JsonBuffers

/-! ## What a command does -/

abbrev Address := BitVec 64

/-- The three commands. -/
inductive Cmd where
  | get
  | set
  | fill
deriving DecidableEq, Repr

/-- The errors of a reply: `ERR_INV_CONTEXT`, `ERR_ALREADY_EXITED`, `ERR_IS_RUNNING`, and those of
the memory. -/
inductive MemError where
  | invContext
  | alreadyExited
  | isRunning
  | target (errno : ℕ+)
deriving DecidableEq

/-- The buffer is allocated and freed, the lock is taken and released; bytes are written; something
fails; the channel is found closed; the event and the reply are sent. The reply to a command that
failed has the number of bytes that were transferred before. -/
inductive Effect where
  | alloc
  | free
  | lock
  | unlock
  | wrote (addr : Address) (bytes : List UInt8)
  | failed (err : MemError)
  | closed
  | memoryChanged (ctxId : Option Text) (addr : Address) (size : Nat)
  | reply (err : Option (MemError × Address))
  | protocolError
deriving DecidableEq

/-- Why a program does not return: a cache misses, an exception, or what no program may do. -/
inductive Halt where
  | miss
  | raised
  | fault
deriving DecidableEq

/-- The log, and how many transfers the client has made. -/
structure State where
  turn : Nat
  log  : List Effect
deriving DecidableEq

abbrev Action (α : Type) := Program State Halt α

def emit (e : Effect) : Action Unit := modify fun s => { s with log := s.log ++ [e] }

def ofOption {α : Type} : Option α → Action α
  | some a => pure a
  | none => raise .raised

def ofResult {α : Type} : Result α → Action α
  | .ok a => pure a
  | .error (.raise _) => raise .raised
  | .error .fault => raise .fault

/-! ## The environment -/

/-- A context: the flags are those of `mem_access` of its process. -/
structure Context where
  id         : Text
  exited     : Bool
  rdStop     : Bool
  wrStop     : Bool
  rdRunning  : Bool
  wrRunning  : Bool
  allStopped : Bool
deriving DecidableEq, Repr

/-- A transfer is done, or fails after `valid` bytes. -/
inductive Transfer where
  | done
  | failed (errno : ℕ+) (valid : Nat)
deriving DecidableEq

/-- What the client finds: the contexts, its transfers before `cache_exit`, with `none` for a miss,
and those after it, and whether the channel is closed then. -/
structure Attempt where
  id2ctx  : Text → Option Context
  inCache : Nat → Option Transfer
  after   : Nat → Transfer
  closed  : Bool

/-! ## Arguments -/

/-- `MEM_USAGE_FACTOR` -/
def memUsageFactor : Nat := 128

/-- `BUF_SIZE` -/
def bufSize : Nat := 512 * memUsageFactor

/-- `MemoryCommandArgs`: the first `pos` bytes of the buffer, which is `NULL` when `max` is 0 in a
command `fill`. -/
structure MemoryCommandArgs where
  ctxId    : Text
  addr     : Address
  wordSize : BitVec 32
  size     : BitVec 64
  mode     : BitVec 32
  buf      : List UInt8
  max      : Nat
deriving DecidableEq, Repr

def MemoryCommandArgs.dontStop (args : MemoryCommandArgs) : Bool := args.mode.getLsbD 4

/-- `(int)json_read_long` -/
def readInt (text : Text) : Option (BitVec 32 × Text) :=
  (jsonReadLong text).map fun (n, rest) => (BitVec.ofInt 32 n, rest)

/-- The arguments before the data. The size, an `int`, is kept as an `unsigned long`. -/
def readHeader (text : Text) : Option (MemoryCommandArgs × Text) := do
  let (id, text) ← jsonReadAllocString text
  let text ← jsonTestChar text 0
  let (addr, text) ← jsonReadUint64 text
  let text ← jsonTestChar text 0
  let (wordSize, text) ← readInt text
  let text ← jsonTestChar text 0
  let (size, text) ← readInt text
  let text ← jsonTestChar text 0
  let (mode, text) ← readInt text
  let text ← jsonTestChar text 0
  return (⟨(id.getD []).take 255, BitVec.ofNat 64 addr, wordSize, size.signExtend 64, mode, [], 0⟩,
    text)

/-- `json_test_char` of `MARKER_EOM` -/
def testEom (text : Text) : Action Unit := if text = [] then pure ⟨⟩ else raise .raised

/-- `read_memory_fill_array_cb` for an element -/
def readMemoryFillArrayCb (args : MemoryCommandArgs) (value : BitVec 64) : MemoryCommandArgs :=
  { args with
    max := if args.max ≤
      args.buf.length then (if args.max = 0 then bufSize else args.max * 2) else args.max
    buf := args.buf ++ [UInt8.ofNat value.toNat] }

/-- `json_read_ulong` as an element -/
def readUlong (text : Text) : Option (BitVec 64 × Text) :=
  (JsonText.jsonReadUint64 text).map fun (n, rest) => (BitVec.ofNat 64 n, rest)

/-- Whether `json_read_array` comes to its call back, which allocates the buffer before it reads. -/
def callsBack (text : Text) : Bool :=
  match text.dropWhile JsonString.isSpace with
  | 91 :: rest => (rest.dropWhile JsonString.isSpace).head? ≠ some 93
  | _ => false

/-- `read_command_args`, with the state of the reader of the data that `set` goes on with. -/
def readCommandArgs (cmd : Cmd) (text : Text) : Action (MemoryCommandArgs × ReadState) := do
  let (args, text) ← ofOption (readHeader text)
  let out ← match cmd with
    | .set => do
      let s ← ofResult (jsonReadBinaryStart text)
      emit .alloc
      let (buf, s) ← ofResult (jsonReadBinaryData bufSize s)
      pure ({ args with buf := buf, max := bufSize }, s)
    | .get => do
      emit .alloc
      testEom text
      pure ({ args with max := if bufSize < args.size.toNat then bufSize else args.size.toNat },
        ⟨.binary, 0, 0, [], text⟩)
    | .fill => do
      if callsBack text then emit .alloc
      let (values, text) ← ofOption (jsonReadArray readUlong text)
      let text ← ofOption (jsonTestChar text 0)
      testEom text
      pure (values.foldl readMemoryFillArrayCb args, ⟨.binary, 0, 0, [], text⟩)
  emit .lock
  return out

/-! ## Clients -/

/-- The first error, with the number of bytes that the transfer has made. -/
abbrev Error := Option (MemError × Nat)

def fail (err : MemError) (valid : Nat) : Action Error := do
  emit (.failed err)
  return some (err, valid)

/-- The checks before the first transfer: an error, if there is one; `check_all_stopped` misses when
not all is stopped. -/
def contextCheck (dontStop needed : Bool) (stop running : Context → Bool) (ctx : Option Context) :
    Option (Option MemError) :=
  match ctx with
  | none => some (some .invContext)
  | some ctx =>
    if ctx.exited then some (some .alreadyExited)
    else if needed ∧ dontStop = false ∧ stop ctx ∧ ctx.allStopped = false then none
    else if needed ∧ running ctx = false ∧ ctx.allStopped = false then some (some .isRunning)
    else some none

def checkContext (dontStop needed : Bool) (stop running : Context → Bool) (ctx : Option Context) :
    Action Error :=
  match contextCheck dontStop needed stop running ctx with
  | none => raise .miss
  | some none => pure none
  | some (some err) => fail err 0

/-- What a transfer of `n` bytes comes to; `put` logs the bytes that are written. -/
def transfer (result : Option Transfer) (put : Nat → Action Unit) (n : Nat) : Action Error :=
  match result with
  | none => raise .miss
  | some .done => do
    put n
    return none
  | some (.failed errno valid) => do
    put (min valid n)
    fail (.target errno) (min valid n)

/-- The result of the next transfer. -/
def nextTurn : Action Nat := do
  let s ← get
  modify fun s => { s with turn := s.turn + 1 }
  return s.turn

/-- Nothing is logged of a write of no bytes. -/
def logWrite (addr : Address) (bytes : List UInt8) : Action Unit :=
  if bytes = [] then pure ⟨⟩ else emit (.wrote addr bytes)

/-- `context_write_mem` -/
def writeMem (results : Nat → Option Transfer) (addr : Address) (bytes : List UInt8) :
    Action Error := do
  let turn ← nextTurn
  transfer (results turn) (fun n => logWrite addr (bytes.take n)) bytes.length

/-- `context_read_mem` -/
def readMem (results : Nat → Option Transfer) (size : Nat) : Action Error := do
  let turn ← nextTurn
  transfer (results turn) (fun _ => pure ⟨⟩) size

/-- The error and the number of bytes that `write_ranges` reports: `offs` is an `int`. -/
def sendReply (err : Error) (addr0 addr : Address) : Action Unit :=
  emit (.reply (err.map fun (e, valid) =>
    (e, ((addr - addr0).setWidth 32).signExtend 64 + BitVec.ofNat 64 valid)))

/-- `send_event_memory_changed`. The id is an array at the start of the context: without a context
its address is `NULL`, and `json_write_string` writes `null`. -/
def sendEventMemoryChanged (ctx : Option Context) (addr : Address) (size : Nat) : Action Unit :=
  emit (.memoryChanged (ctx.map Context.id) addr size)

/-- The end of a client. -/
def release (allocated : Bool) : Action Unit := do
  if allocated then emit .free
  emit .unlock

/-- The variables of `memory_set_cache_client`. -/
structure SetState where
  reader : ReadState
  addr   : Address
  err    : Error
  size   : Nat
deriving DecidableEq

/-- A round of the loop of `memory_set_cache_client`, over what is left of the data. -/
def setRound (a : Attempt) (max : Nat) (v : SetState) : Action (SetState ⊕ SetState) := do
  let (buf, reader) ← ofResult (jsonReadBinaryData max v.reader)
  if buf = [] then return .inr { v with reader }
  else if v.err = none then do
    let err ← writeMem (fun turn => some (a.after turn)) v.addr buf
    let addr := if err = none then v.addr + BitVec.ofNat 64 buf.length else v.addr
    return .inl ⟨reader, addr, err, v.size + buf.length⟩
  else return .inl { v with reader, size := v.size + buf.length }

/-- `memory_set_cache_client` -/
def memorySetCacheClient (args : MemoryCommandArgs) (s : ReadState) (a : Attempt) :
    Action Unit := do
  let ctx := a.id2ctx args.ctxId
  let err ← checkContext args.dontStop (args.buf ≠ []) (·.wrStop) (·.wrRunning) ctx
  let err ← if args.buf ≠ [] ∧ err = none then writeMem a.inCache args.addr args.buf else pure err
  let addr := if err = none then args.addr + BitVec.ofNat 64 args.buf.length else args.addr
  if a.closed = false then do
    let v ← loop (setRound a args.max) ⟨s, addr, err, args.buf.length⟩
    let text ← ofResult (jsonReadBinaryEnd v.reader)
    let text ← ofOption (jsonTestChar text 0)
    testEom text
    sendEventMemoryChanged ctx args.addr v.size
    sendReply v.err args.addr v.addr
  else emit .closed
  release true

/-- The variables of `memory_get_cache_client`. -/
structure GetState where
  pos  : BitVec 64
  addr : Address
  err  : Error
deriving DecidableEq

/-- A round of the loop of `memory_get_cache_client`. -/
def getRound (a : Attempt) (max : Nat) (size : BitVec 64) (v : GetState) :
    Action (GetState ⊕ GetState) :=
  if v.pos < size then do
    let rd := min (size - v.pos).toNat max
    let err ← if v.err = none then readMem (fun turn => some (a.after turn)) rd else pure v.err
    let addr := if err = none then v.addr + BitVec.ofNat 64 rd else v.addr
    return .inl ⟨v.pos + BitVec.ofNat 64 rd, addr, err⟩
  else return .inr v

/-- `memory_get_cache_client` -/
def memoryGetCacheClient (args : MemoryCommandArgs) (a : Attempt) : Action Unit := do
  let ctx := a.id2ctx args.ctxId
  let err ← checkContext args.dontStop (args.size ≠ 0) (·.rdStop) (·.rdRunning) ctx
  let rd := min args.size.toNat args.max
  let err ← if args.size ≠ 0 ∧ err = none then readMem a.inCache rd else pure err
  let addr := if err = none then args.addr + BitVec.ofNat 64 rd else args.addr
  if a.closed = false then do
    let v ← loop (getRound a args.max args.size) ⟨BitVec.ofNat 64 rd, addr, err⟩
    sendReply v.err args.addr v.addr
  else emit .closed
  release true

/-- The variables of `memory_fill_cache_client`. -/
structure FillState where
  addr : Address
  err  : Error
deriving DecidableEq

/-- How many bytes are written next. -/
def fillChunk (buf : List UInt8) (addr0 : Address) (size : BitVec 64) (addr : Address) : Nat :=
  let rest := (addr0 + size - addr).setWidth 32
  if buf.length < rest.toNat then buf.length else rest.toNat

/-- A round of the loop of `memory_fill_cache_client`. -/
def fillRound (a : Attempt) (buf : List UInt8) (addr0 : Address) (size : BitVec 64)
    (v : FillState) :
    Action (FillState ⊕ FillState) :=
  if v.err = none ∧ v.addr - addr0 < size then do
    let wr := fillChunk buf addr0 size v.addr
    let err ← writeMem a.inCache v.addr (buf.take wr)
    return .inl ⟨if err = none then v.addr + BitVec.ofNat 64 wr else v.addr, err⟩
  else return .inr v

/-- `memory_fill_cache_client` -/
def memoryFillCacheClient (args : MemoryCommandArgs) (a : Attempt) : Action Unit := do
  let ctx := a.id2ctx args.ctxId
  let err ← checkContext args.dontStop (args.size ≠ 0) (·.wrStop) (·.wrRunning) ctx
  let v ← loop (fillRound a args.buf args.addr args.size) ⟨args.addr, err⟩
  sendEventMemoryChanged ctx args.addr args.size.toNat
  if a.closed = false then sendReply v.err args.addr v.addr else emit .closed
  release (args.max ≠ 0)

/-! ## Commands -/

/-- A round of the loop of `command_fill`: the first element of the buffer is stored, or its
contents are doubled. -/
def growRound (args : MemoryCommandArgs) : Action (MemoryCommandArgs ⊕ MemoryCommandArgs) :=
  if args.buf.length < args.size.toNat ∧ args.buf.length ≤ args.max / 2 then
    if args.buf = [] then
      if args.max = 0 then raise .fault else pure (.inl { args with buf := [0] })
    else pure (.inl { args with buf := args.buf ++ args.buf })
  else pure (.inr args)

/-- The runs of a client that the cache makes: after a miss there is another one. -/
def attempts (client : Attempt → Action Unit) : List Attempt → Action Unit
  | [] => raise .miss
  | a :: as =>
    catching (do
      modify fun s => { s with turn := 0 }
      client a) fun
    | .miss => attempts client as
    | .raised => pure ⟨⟩
    | .fault => raise .fault

/-- `command_get`, `command_set` or `command_fill` -/
def command (cmd : Cmd) (text : Text) (as : List Attempt) : Action Unit := do
  let args ← catching (some <$> readCommandArgs cmd text) fun
    | .raised => pure none
    | e => raise e
  match args with
  | none => emit .protocolError
  | some (args, s) =>
    match cmd with
    | .get => attempts (memoryGetCacheClient args) as
    | .set => attempts (memorySetCacheClient args s) as
    | .fill => do
      let args ← loop growRound args
      attempts (memoryFillCacheClient args) as

end TcfAgent.MemoryService
