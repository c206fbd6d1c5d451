import TcfAgent.Lib.Run

/-!
# The memory cache of a context proxy

`services/context-proxy.c` keeps, for every context of a peer, the blocks of memory that it has
read, the newest first. A block is pending until the reply to its `Memory.get` arrives. Events of
the peer free blocks of all contexts that share a memory.

One action of the model is one call: an item of an event that carries a list of them is an action
of its own.
-/

namespace TcfAgent.ProxyMemory

variable {E : Type}

/-! ## Blocks -/

/-- A range of a reply to `Memory.get`; its `stat` is 0 when its bytes are valid. -/
structure ErrorAddress where
  addr : UInt64
  size : UInt64
  stat : Int
deriving DecidableEq, Repr

/-- A block; `serial` stands for its address in the heap, and a byte of `buf`, which has `size` of
them, is `none` until something is stored there. -/
structure MemoryCache (E : Type) where
  serial        : Nat
  addr          : UInt64
  size          : UInt64
  buf           : List (Option UInt8)
  error         : Option E
  errorsAddress : List ErrorAddress
  pending       : Bool
  hBuf          : buf.length = size.toNat
deriving Repr

/-- What `validate_memory_cache` gets out of a reply, or out of the part of it before an
exception. -/
structure Reply (E : Type) where
  data   : List UInt8
  error  : Option E
  ranges : List ErrorAddress
deriving Repr

/-- A block of `context_read_mem`, before the reply. -/
def newBlock (serial : Nat) (address size : UInt64) : MemoryCache E where
  serial := serial
  addr := address
  size := size
  buf := List.replicate size.toNat none
  error := none
  errorsAddress := []
  pending := true
  hBuf := List.length_replicate

/-- `validate_memory_cache`: the bytes that fit are stored, the others are not read. -/
def MemoryCache.validate (m : MemoryCache E) (r : Reply E) : MemoryCache E :=
  let bytes := (r.data.take m.size.toNat).map some
  { m with
    buf := bytes ++ m.buf.drop bytes.length
    error := r.error
    errorsAddress := r.ranges
    pending := false
    hBuf := by
      have hSize := m.hBuf
      have hFits : bytes.length ≤ m.size.toNat := by simp [bytes]
      rw [List.length_append, List.length_drop, hSize]
      omega }

/-- The test of `context_read_mem` on the blocks; the sums wrap around. -/
def MemoryCache.holds (m : MemoryCache E) (address size : UInt64) : Bool :=
  m.addr ≤ address && address + size ≤ m.addr + m.size

/-- A valid range of the reply contains what is read. -/
def MemoryCache.valid (m : MemoryCache E) (address size : UInt64) : Bool :=
  m.errorsAddress.any fun e =>
    e.stat = 0 && e.addr ≤ address && address - e.addr + size ≤ e.size

/-- `memcpy` out of the buffer of the block, which must not go past its end. -/
def MemoryCache.copy (m : MemoryCache E) (address size : UInt64) : Option (List (Option UInt8)) :=
  if (address - m.addr).toNat + size.toNat ≤ m.size.toNat then
    some ((m.buf.drop (address - m.addr).toNat).take size.toNat)
  else none

/-- `read_memory_changed_item` does not free the block. -/
def MemoryCache.keptBy (m : MemoryCache E) (addr size : UInt64) : Bool :=
  (m.addr ≤ m.addr + m.size && m.addr + m.size ≤ addr) ||
    (addr < addr + size && addr + size ≤ m.addr)

/-- The loop of `read_memory_changed_item` and `clear_context_cache` over a list of blocks: it
makes as many rounds as there are blocks, and looks at the first one in each of them. -/
def freeLoop (free : MemoryCache E → Bool) : Nat → List (MemoryCache E) → List (MemoryCache E)
  | 0, ms => ms
  | _ + 1, [] => []
  | n + 1, m :: ms => if free m then freeLoop free n ms else freeLoop free n (m :: ms)

/-! ## Contexts -/

/-- A context with its cache; `key` stands for its address, and `mem` is the address of the
context whose memory it uses. -/
structure ContextCache (E : Type) where
  key          : Nat
  id           : String
  parentId     : String
  processId    : String
  mem          : Option Nat
  exited       : Bool
  intercepted  : Bool
  memCacheList : List (MemoryCache E)
deriving Repr

/-- A peer; `disposed` has the blocks that were freed before the reply arrived. -/
structure State (E : Type) where
  contextRoot : List (ContextCache E)
  disposed    : List (MemoryCache E)
  rcDone      : Bool
  closed      : Bool
  nextKey     : Nat
  nextSerial  : Nat
deriving Repr

def State.init : State E where
  contextRoot := []
  disposed := []
  rcDone := false
  closed := false
  nextKey := 0
  nextSerial := 0

/-- `find_context_cache` -/
def State.find (s : State E) (id : String) : Option (ContextCache E) :=
  s.contextRoot.find? fun c => !c.exited && c.id = id

/-- `set_context_links`, for the memory. -/
def State.setContextLinks (s : State E) (c : ContextCache E) : ContextCache E :=
  if c.processId = "" then { c with mem := none }
  else match s.find c.processId with
    | some h => { c with mem := some h.key }
    | none => c

/-- The blocks of the contexts that share the memory of `c` go through the loop. -/
def State.freeShared (s : State E) (c : ContextCache E) (free : MemoryCache E → Bool) : State E :=
  { s with
    contextRoot := s.contextRoot.map fun x =>
      if x.mem = c.mem then
        { x with memCacheList := freeLoop free x.memCacheList.length x.memCacheList }
      else x
    disposed := s.disposed ++ (s.contextRoot.filter fun x => x.mem = c.mem).flatMap fun x =>
      x.memCacheList.filter fun m =>
        m.pending && m.serial ∉
          (freeLoop free x.memCacheList.length x.memCacheList).map MemoryCache.serial }

/-- `clear_context_cache` -/
def State.clearContextCache (s : State E) (c : ContextCache E) : State E :=
  if s.rcDone then s.freeShared c fun m => !m.pending else s

/-! ## Actions -/

/-- What the peer and the clients can do next. -/
inductive Action (E : Type) where
  /-- `read_context_added_item`, and `add_context_cache` in the replies before `rc_done`, which
  say whether the context is suspended. -/
  | contextAdded (id parentId processId : String) (intercepted : Bool)
  | contextChanged (id parentId processId : String)
  | contextRemoved (id : String)
  /-- The last lock of an exited context is released. -/
  | contextFreed (key : Nat)
  | setRcDone
  | channelClosed
  | contextReadMem (key : Nat) (address size : UInt64) (errno : Option E)
  | validateMemoryCache (serial : Nat) (r : Reply E)
  /-- One range of a `memoryChanged` event. -/
  | memoryChanged (id : String) (addr size : UInt64)
  /-- A `contextSuspended` event, or one ID of a `containerSuspended` event. -/
  | suspended (id : String)
  | resumed (id : String)

/-- What `context_read_mem` does: it raises an error for a closed channel, or waits, or copies from
behind the buffer of a block, or returns what it has copied and `errno`. -/
inductive Outcome (E : Type) where
  | channelClosed
  | waits
  | outside
  | served (m : MemoryCache E) (bytes : List (Option UInt8)) (errno : Option E)

/-- The block that `context_read_mem` takes. -/
def ContextCache.block (c : ContextCache E) (address size : UInt64) : Option (MemoryCache E) :=
  c.memCacheList.find? fun m => m.holds address size

def State.context (s : State E) (key : Nat) : Option (ContextCache E) :=
  s.contextRoot.find? fun c => c.key = key

/-- `errno` keeps its value when the block has an error and what is read is valid. -/
def MemoryCache.errnoAfter (m : MemoryCache E) (address size : UInt64) (errno : Option E) :
    Option E :=
  if m.error.isSome && m.valid address size then errno else m.error

/-- `context_read_mem`, what it returns. -/
def State.read (s : State E) (key : Nat) (address size : UInt64) (errno : Option E) : Outcome E :=
  if s.closed then .channelClosed
  else if !s.rcDone then .waits
  else match (s.context key).bind fun c => c.block address size with
    | none => .waits
    | some m =>
      if m.pending then .waits
      else match m.copy address size with
        | none => .outside
        | some bytes => .served m bytes (m.errnoAfter address size errno)

/-- Changes the context at an address. -/
def State.modify (s : State E) (key : Nat) (f : ContextCache E → ContextCache E) : State E :=
  { s with contextRoot := s.contextRoot.map fun x => if x.key = key then f x else x }

/-- `context_read_mem`, what it leaves: a new block when no block holds what is read. -/
def State.contextReadMem (s : State E) (key : Nat) (address size : UInt64) : State E :=
  if s.closed || !s.rcDone then s
  else match s.context key with
    | none => s
    | some c =>
      match c.block address size with
      | some _ => s
      | none =>
        { s.modify key fun x =>
            { x with memCacheList := newBlock s.nextSerial address size :: x.memCacheList } with
          nextSerial := s.nextSerial + 1 }

def State.blocks (s : State E) : List (MemoryCache E) :=
  s.contextRoot.flatMap ContextCache.memCacheList

/-- `validate_memory_cache`, for a pending block; it fails when an assertion does. -/
def State.validateMemoryCache (s : State E) (serial : Nat) (r : Reply E) : Option (State E) :=
  if (s.blocks ++ s.disposed).any fun m =>
    m.serial = serial && m.pending && (m.error.isSome || !m.errorsAddress.isEmpty) then none
  else some
    { s with
      contextRoot := s.contextRoot.map fun c =>
        { c with memCacheList := c.memCacheList.map fun m =>
          if m.serial = serial && m.pending then m.validate r else m }
      disposed := s.disposed.filter fun m => m.serial ≠ serial }

def State.contextAdded (s : State E) (id parentId processId : String) (intercepted : Bool) :
    State E :=
  if (s.find id).isNone && (parentId = "" || (s.find parentId).isSome) then
    let c : ContextCache E := {
      key := s.nextKey
      id := id
      parentId := parentId
      processId := processId
      mem := none
      exited := false
      intercepted := intercepted && !s.rcDone
      memCacheList := [] }
    let t := { s with contextRoot := c :: s.contextRoot, nextKey := s.nextKey + 1 }
    if s.rcDone then { t with contextRoot := t.setContextLinks c :: s.contextRoot } else t
  else s

def State.contextChanged (s : State E) (id parentId processId : String) : State E :=
  match s.find id with
  | none => s
  | some c => s.modify c.key fun x =>
    let y := { x with parentId := parentId, processId := processId }
    if s.rcDone then s.setContextLinks y else y

def step (s : State E) : Action E → Option (State E)
  | .contextAdded id parentId processId intercepted =>
    some (s.contextAdded id parentId processId intercepted)
  | .contextChanged id parentId processId => some (s.contextChanged id parentId processId)
  | .contextRemoved id =>
    match s.find id with
    | none => some s
    | some c => some (s.modify c.key fun x => { x with exited := true })
  | .contextFreed key =>
    -- a context is locked for each of its replies that are to come
    match s.context key with
    | none => some s
    | some c =>
      if c.exited && c.memCacheList.all fun m => !m.pending then
        some { s with contextRoot := s.contextRoot.filter fun x => x.key ≠ key }
      else some s
  | .setRcDone =>
    some { s with rcDone := true, contextRoot := s.contextRoot.map s.setContextLinks }
  | .channelClosed => some { s with closed := true }
  | .contextReadMem key address size _ => some (s.contextReadMem key address size)
  | .validateMemoryCache serial r => s.validateMemoryCache serial r
  | .memoryChanged id addr size =>
    match s.find id with
    | none => some s
    | some c =>
      if s.rcDone && 0 < size then some (s.freeShared c fun m => !m.keptBy addr size) else some s
  | .suspended id =>
    match s.find id with
    | none => some s
    | some c =>
      if c.intercepted then some s
      else some ((s.modify c.key fun x => { x with intercepted := true }).clearContextCache c)
  | .resumed id =>
    match s.find id with
    | none => some s
    | some c => some (s.modify c.key fun x => { x with intercepted := false })

/-! ## What has happened -/

/-- An event that says that memory of some contexts has changed: all of it, or a range. -/
structure Change where
  time    : Nat
  sharers : List Nat
  range   : Option (UInt64 × UInt64)

/-- The block has an address in the range. -/
def Change.Hits (ch : Change) (m : MemoryCache E) : Prop :=
  ∀ r ∈ ch.range, ∃ x : Nat,
    m.addr.toNat ≤ x ∧ x < m.addr.toNat + m.size.toNat ∧
      r.1.toNat ≤ x ∧ x < r.1.toNat + r.2.toNat

/-- A peer with its history: when the blocks were fetched, and the changes. -/
structure Watched (E : Type) where
  state   : State E
  clock   : Nat
  fetched : Nat → Nat
  changes : List Change

def Watched.init : Watched E where
  state := .init
  clock := 0
  fetched _ := 0
  changes := []

/-- The contexts that share the memory of `c`. -/
def State.sharers (s : State E) (c : ContextCache E) : List Nat :=
  (s.contextRoot.filter fun x => x.mem = c.mem).map ContextCache.key

def Watched.changed (w : Watched E) (id : String) (range : Option (UInt64 × UInt64)) :
    List Change :=
  ((w.state.find id).map fun c => Change.mk w.clock (w.state.sharers c) range).toList

def Watched.newChanges (w : Watched E) : Action E → List Change
  | .memoryChanged id addr size => w.changed id (some (addr, size))
  | .suspended id => w.changed id none
  | _ => []

def Watched.newFetched (w : Watched E) : Action E → Nat → Nat
  | .validateMemoryCache serial _, n =>
    if n = serial ∧ ∃ m ∈ w.state.blocks, m.serial = serial ∧ m.pending then w.clock
    else w.fetched n
  | _, n => w.fetched n

def watch (w : Watched E) (a : Action E) : Option (Watched E) :=
  (step w.state a).map fun s =>
    { state := s
      clock := w.clock + 1
      fetched := w.newFetched a
      changes := w.newChanges a ++ w.changes }

/-- No change of memory that the block has, for the context, has come since it was fetched. -/
def Watched.Fresh (w : Watched E) (key : Nat) (m : MemoryCache E) : Prop :=
  ∀ ch ∈ w.changes, key ∈ ch.sharers → ch.Hits m → ch.time < w.fetched m.serial

/-- The range contains what is read, and its bytes are valid. -/
def ErrorAddress.Contains (e : ErrorAddress) (address size : UInt64) : Prop :=
  e.stat = 0 ∧ e.addr.toNat ≤ address.toNat ∧
    address.toNat + size.toNat ≤ e.addr.toNat + e.size.toNat

/-- The block has an error, and no valid range of the reply contains what is read. -/
def MemoryCache.ErrorCovers (m : MemoryCache E) (address size : UInt64) : Prop :=
  m.error.isSome ∧ ∀ e ∈ m.errorsAddress, ¬ e.Contains address size

/-- What is read is in the block. -/
def MemoryCache.Inside (m : MemoryCache E) (address size : UInt64) : Prop :=
  m.addr.toNat ≤ address.toNat ∧ address.toNat + size.toNat ≤ m.addr.toNat + m.size.toNat

/-- The bytes are those that the block has for these addresses. -/
def MemoryCache.Gives (m : MemoryCache E) (address size : UInt64) (bytes : List (Option UInt8)) :
    Prop :=
  bytes.length = size.toNat ∧
    ∀ i < size.toNat, bytes[i]? = m.buf[address.toNat + i - m.addr.toNat]?

end TcfAgent.ProxyMemory
