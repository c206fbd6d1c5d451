import TcfAgent.Lib.Keyed
import TcfAgent.Framework.JsonString
import TcfAgent.Services.Replanting

/-!
# The breakpoint store

`services/breakpoints.c`: the breakpoints of the clients, with the references that channels
hold to them. A client names a breakpoint by its ID attribute. `add_breakpoint` reads that
attribute, looks the identifier up in the hash table `id2bp`, and then stores the attributes
in the breakpoint, the identifier among them. A breakpoint without clients stays in the store
until its instructions have been removed by a generation of `Replanting`.

`Ch` are the channels (`NULL` is one of them), `G` the breakpoint groups, `T` the threads and
`I` the break instructions. The key of a breakpoint stands for its address. `instruction_cnt`
is the number of references of instructions to the breakpoint. What is sent to one channel
only is left out, and the broadcast events are kept in a log.
-/

namespace TcfAgent.BreakpointStore

open TcfAgent.Lib TcfAgent.JsonString
open TcfAgent.Replanting (Loc Turn World Outcome)

/-! ## Attributes -/

/-- `BreakpointAttribute`: a name, and a value in JSON. -/
structure BreakpointAttribute where
  name : List UInt8
  value : List UInt8
deriving DecidableEq, Repr

/-- `"ID"` -/
def breakpointId : List UInt8 := [73, 68]

/-- `"Enabled"` -/
def breakpointEnabled : List UInt8 := [69, 110, 97, 98, 108, 101, 100]

/-- `sizeof(bp->id)` -/
def idSize : Nat := 256

def id2bpHashSize : Nat := 32 * 128 - 1

def id2bpHash (id : List UInt8) : Nat :=
  (id.foldl (fun (hash : UInt32) c => (hash >>> 16) + hash + c.toUInt32) 0).toNat % id2bpHashSize

/-- `BreakpointInfo`: `bucket` is the list of `id2bp` it is linked in, if it is. -/
structure BreakpointInfo where
  key : Nat
  bucket : Option Nat
  idBuf : List UInt8 := List.replicate idSize 0
  enabled : Bool := false
  clientCnt : Int := 0
  attrs : List BreakpointAttribute := []
  statusChanged : Bool := false
deriving DecidableEq, Repr

def BreakpointInfo.id (bp : BreakpointInfo) : List UInt8 := cString bp.idBuf

/-- `is_disabled` -/
def BreakpointInfo.isDisabled (bp : BreakpointInfo) : Bool := !bp.enabled || bp.clientCnt = 0

/-- `read_id_attribute`: the first attribute of that name counts; `none` is an exception. -/
def readIdAttribute (attrs : List BreakpointAttribute) : Option (List UInt8) :=
  match attrs.find? (·.name = breakpointId) with
  | none => none
  | some attr =>
    let r := jsonReadString attr.value
    if r.rest = some [] then some (cString (storeString idSize [] r)) else none

def setBreakpointAttribute (name value : List UInt8) :
    List BreakpointAttribute → List BreakpointAttribute
  | [] => [{ name, value }]
  | attr :: attrs =>
    if attr.name = name then { attr with value } :: attrs
    else attr :: setBreakpointAttribute name value attrs

/-- A new value is stored; an exception leaves what has been written until then. -/
def BreakpointInfo.store (bp : BreakpointInfo) (attr : BreakpointAttribute) : BreakpointInfo :=
  if attr.name = breakpointId then
    { bp with idBuf := storeString idSize bp.idBuf (jsonReadString attr.value) }
  else if attr.name = breakpointEnabled then
    match jsonReadBoolean attr.value with
    | some enabled => { bp with enabled }
    | none => bp
  else bp

/-- An attribute is not there any more. -/
def BreakpointInfo.reset (bp : BreakpointInfo) (attr : BreakpointAttribute) : BreakpointInfo :=
  if attr.name = breakpointId then { bp with idBuf := bp.idBuf.set 0 0 }
  else if attr.name = breakpointEnabled then { bp with enabled := false }
  else bp

/-- The first loop of `set_breakpoint_attributes`: the old attributes that are left, and how
many of the new ones differ. -/
def storeAttributes : List BreakpointAttribute → List BreakpointAttribute → BreakpointInfo →
    Nat × List BreakpointAttribute × BreakpointInfo
  | [], old, bp => (0, old, bp)
  | attr :: attrs, old, bp =>
    let left := old.eraseP (·.name = attr.name)
    if (old.find? (·.name = attr.name)).map (·.value) = some attr.value then
      storeAttributes attrs left bp
    else
      let p := storeAttributes attrs left (bp.store attr)
      (p.1 + 1, p.2)

/-- `set_breakpoint_attributes`: how many attributes differ, and the breakpoint. -/
def setBreakpointAttributes (attrs : List BreakpointAttribute) (bp : BreakpointInfo) :
    Nat × BreakpointInfo :=
  let p := storeAttributes attrs bp.attrs bp
  (p.1 + p.2.1.length, { p.2.1.foldl BreakpointInfo.reset p.2.2 with attrs })

/-! ## The store -/

/-- `InstructionRef`, of the break instruction `bi`; `counted` when `cnt` is not zero. -/
structure InstructionRef (G I : Type) where
  bp : Nat
  ctx : G
  bi : I
  counted : Bool
deriving DecidableEq, Repr

/-- The events of the service. -/
inductive Broadcast where
  | contextAdded (id : List UInt8)
  | contextChanged (id : List UInt8)
  | contextRemoved (id : List UInt8)
  | status (id : List UInt8)
deriving DecidableEq, Repr

/-- `refs` are the `BreakpointRef`, in the order in which they were created. -/
structure State (Ch G T I : Type) where
  breakpoints : List BreakpointInfo := []
  nextKey : Nat := 0
  refs : List (Ch × Nat) := []
  instructions : List (InstructionRef G I) := []
  exited : G → Bool := fun _ => false
  rep : Replanting.State G T Nat I := {}
  log : List Broadcast := []

/-- The contexts that a breakpoint is meant for: what is posted for them, and whether the
instructions of the breakpoint have to be looked at too. -/
structure Contexts (G : Type) where
  posts : BreakpointInfo → List (G × Option Nat)
  restricted : BreakpointInfo → Bool

variable {Ch G T I : Type} [DecidableEq Ch] [DecidableEq G] [DecidableEq T] [DecidableEq I]

def State.emit (s : State Ch G T I) (e : Broadcast) : State Ch G T I :=
  { s with log := s.log ++ [e] }

def State.bp? (s : State Ch G T I) (key : Nat) : Option BreakpointInfo :=
  s.breakpoints.find? (·.key = key)

def State.setBp (s : State Ch G T I) (bp : BreakpointInfo) : State Ch G T I :=
  { s with breakpoints := replace BreakpointInfo.key bp s.breakpoints }

/-- `link_clients` -/
def State.linkClients (s : State Ch G T I) (key : Nat) : List Ch :=
  (s.refs.filter (·.2 = key)).map Prod.fst

def State.instructionCnt (s : State Ch G T I) (key : Nat) : Nat :=
  s.instructions.countP (·.bp = key)

def findBreakpoint (id : List UInt8) (s : State Ch G T I) : Option BreakpointInfo :=
  s.breakpoints.find? fun bp => bp.bucket = some (id2bpHash id) ∧ bp.id = id

/-- What `replant_breakpoint` posts. -/
def replantPosts (w : Contexts G) (bp : BreakpointInfo) (s : State Ch G T I) :
    List (G × Option Nat) :=
  let found := if bp.clientCnt = 0 then [] else w.posts bp
  let check := bp.clientCnt = 0 || w.restricted bp
  let refs := s.instructions.filter fun ref => check && ref.bp = bp.key && !s.exited ref.ctx
  found ++ refs.map fun ref => (ref.ctx, some bp.key)

def replantBreakpoint (w : Contexts G) (bp : BreakpointInfo) (s : State Ch G T I) :
    State Ch G T I :=
  { s with rep := Replanting.postLocations (replantPosts w bp s) s.rep }

/-! ## Events -/

/-- `send_event_context_added`, to all channels -/
def sendEventContextAdded (bp : BreakpointInfo) (s : State Ch G T I) : Option (State Ch G T I) :=
  if bp.id = [] then none else some (s.emit (.contextAdded bp.id))

def sendEventContextChanged (bp : BreakpointInfo) (s : State Ch G T I) : Option (State Ch G T I) :=
  if bp.id = [] then none else some (s.emit (.contextChanged bp.id))

def sendEventContextRemoved (bp : BreakpointInfo) (s : State Ch G T I) : State Ch G T I :=
  s.emit (.contextRemoved bp.id)

/-- `send_event_breakpoint_status`, to all channels -/
def sendEventBreakpointStatus (bp : BreakpointInfo) (s : State Ch G T I) : State Ch G T I :=
  s.emit (.status bp.id)

/-- `free_bp`. A breakpoint that is linked in `id2bp` is not unlinked when its identifier is
empty: the table would refer to it when it is not there any more. -/
def freeBp (bp : BreakpointInfo) (s : State Ch G T I) : Option (State Ch G T I) :=
  if s.rep.posted ≠ [] ∨ s.rep.active ≠ [] then none
  else if s.linkClients bp.key ≠ [] ∨ s.instructionCnt bp.key ≠ 0 ∨ bp.clientCnt ≠ 0 then none
  else if bp.bucket.isSome ∧ bp.id = [] then none
  else some { s with breakpoints := s.breakpoints.filter (·.key ≠ bp.key) }

/-- `notify_breakpoint_status`, with the assertions about clients. -/
def notifyBreakpointStatus (bp : BreakpointInfo) (s : State Ch G T I) :
    Option (State Ch G T I) :=
  if s.rep.generationDone ≠ s.rep.generationPosted then none
  else if bp.id ≠ [] ∧ bp.clientCnt ≠ (s.linkClients bp.key).length then none
  else if bp.id = [] ∧ s.linkClients bp.key ≠ [] then none
  else if bp.clientCnt = 0 then
    if s.instructionCnt bp.key = 0 then
      freeBp bp (if bp.id ≠ [] then sendEventContextRemoved bp s else s)
    else some s
  else if bp.statusChanged then
    let s := s.setBp { bp with statusChanged := false }
    some (if bp.id ≠ [] then sendEventBreakpointStatus bp s else s)
  else some s

def notifyAll : List BreakpointInfo → State Ch G T I → Option (State Ch G T I)
  | [], s => some s
  | bp :: bps, s => (notifyBreakpointStatus bp s).bind (notifyAll bps)

/-- `done_replanting_breakpoints` -/
def doneReplantingBreakpoints (s : State Ch G T I) : Option (State Ch G T I) :=
  if s.rep.posted ≠ [] ∨ s.rep.active ≠ [] then none else notifyAll s.breakpoints s

/-! ## References -/

/-- The reference of the channel is created, unless it is there. -/
def linkRef (c : Ch) (bp : BreakpointInfo) (s : State Ch G T I) :
    BreakpointInfo × State Ch G T I :=
  if c ∈ s.linkClients bp.key then (bp, s)
  else
    let bp := { bp with clientCnt := bp.clientCnt + 1 }
    (bp, { s.setBp bp with refs := s.refs ++ [(c, bp.key)] })

/-- The end of `add_breakpoint`: the channel has a reference, and everybody is told; `chng`
attributes are new or differ. -/
def addRef (w : Contexts G) (c : Ch) (chng : Nat) (bp : BreakpointInfo) (s : State Ch G T I) :
    Option (State Ch G T I) :=
  let added := s.linkClients bp.key = []
  let refAdded := c ∉ s.linkClients bp.key
  let (bp, s) := linkRef c bp s
  if s.linkClients bp.key = [] then none
  else
    let s := if chng ≠ 0 ∨ added ∨ refAdded then replantBreakpoint w bp s else s
    if added then sendEventContextAdded bp s
    else if chng ≠ 0 then sendEventContextChanged bp s
    else some s

/-- `add_breakpoint`, when the identifier has been read. -/
def addBreakpoint (w : Contexts G) (c : Ch) (attrs : List BreakpointAttribute) (id : List UInt8)
    (s : State Ch G T I) : Option (State Ch G T I) :=
  match findBreakpoint id s with
  | none =>
    let bp := (setBreakpointAttributes attrs
      { key := s.nextKey, bucket := some (id2bpHash id) }).2
    addRef w c 0 bp { s with
      breakpoints := s.breakpoints ++ [bp]
      nextKey := s.nextKey + 1 }
  | some bp =>
    let p := setBreakpointAttributes attrs bp
    addRef w c p.1 p.2 (s.setBp p.2)

/-- The start of `remove_ref`. -/
def unlinkRef (ref : Ch × Nat) (s : State Ch G T I) :
    Option (BreakpointInfo × State Ch G T I) :=
  (s.bp? ref.2).map fun bp =>
    let bp := { bp with clientCnt := bp.clientCnt - 1 }
    (bp, { s.setBp bp with refs := s.refs.erase ref })

def removeRef (w : Contexts G) (ref : Ch × Nat) (s : State Ch G T I) : Option (State Ch G T I) :=
  (unlinkRef ref s).bind fun (bp, s) =>
    let s := replantBreakpoint w bp s
    if s.linkClients bp.key ≠ [] then some s
    else if bp.clientCnt ≠ 0 then none
    else if s.rep.generationDone = s.rep.generationPosted then notifyBreakpointStatus bp s
    else some s

def removeRefs (w : Contexts G) : List (Ch × Nat) → State Ch G T I → Option (State Ch G T I)
  | [], s => some s
  | ref :: refs, s => (removeRef w ref s).bind (removeRefs w refs)

def deleteBreakpointRefs (w : Contexts G) (c : Ch) (s : State Ch G T I) :
    Option (State Ch G T I) :=
  removeRefs w (s.refs.filter (·.1 = c)) s

/-! ## Commands -/

/-- Attribute lists are added one after another; an exception ends that. -/
def addBreakpoints (w : Contexts G) (c : Ch) :
    List (List BreakpointAttribute) → State Ch G T I → Option (State Ch G T I)
  | [], s => some s
  | attrs :: list, s =>
    match readIdAttribute attrs with
    | none => some s
    | some id => (addBreakpoint w c attrs id s).bind (addBreakpoints w c list)

/-- What `command_get_ids` returns. -/
def getIds (s : State Ch G T I) : Option (List (List UInt8)) :=
  (s.breakpoints.filter fun bp => s.linkClients bp.key ≠ []).mapM fun bp =>
    if bp.id = [] then none else some bp.id

/-- `command_set`. The breakpoints of other channels are reported to this one, with the same
assertion as in `command_get_ids`. -/
def commandSet (w : Contexts G) (c : Ch) (list : List (List BreakpointAttribute))
    (s : State Ch G T I) : Option (State Ch G T I) :=
  (deleteBreakpointRefs w c s).bind fun s => (getIds s).bind fun _ => addBreakpoints w c list s

/-- `command_add`, and `command_change`, which does the same. -/
def commandAdd (w : Contexts G) (c : Ch) (attrs : List BreakpointAttribute)
    (s : State Ch G T I) : Option (State Ch G T I) :=
  addBreakpoints w c [attrs] s

/-- One identifier of `command_enable` and `command_disable`. -/
def setEnabled (w : Contexts G) (enabled : Bool) (value id : List UInt8) (s : State Ch G T I) :
    Option (State Ch G T I) :=
  match findBreakpoint (cString id) s with
  | none => some s
  | some bp =>
    if s.linkClients bp.key ≠ [] ∧ bp.enabled ≠ enabled then
      let bp := { bp with
        enabled := enabled
        attrs := setBreakpointAttribute breakpointEnabled value bp.attrs }
      sendEventContextChanged bp (replantBreakpoint w bp (s.setBp bp))
    else some s

def setAllEnabled (w : Contexts G) (enabled : Bool) (value : List UInt8) :
    List (List UInt8) → State Ch G T I → Option (State Ch G T I)
  | [], s => some s
  | id :: ids, s => (setEnabled w enabled value id s).bind (setAllEnabled w enabled value ids)

/-- The value is `true`. -/
def commandEnable (w : Contexts G) (ids : List (List UInt8)) (s : State Ch G T I) :
    Option (State Ch G T I) :=
  setAllEnabled w true [116, 114, 117, 101] ids s

/-- The value is `false`. -/
def commandDisable (w : Contexts G) (ids : List (List UInt8)) (s : State Ch G T I) :
    Option (State Ch G T I) :=
  setAllEnabled w false [102, 97, 108, 115, 101] ids s

def commandRemove (w : Contexts G) (c : Ch) :
    List (List UInt8) → State Ch G T I → Option (State Ch G T I)
  | [], s => some s
  | id :: ids, s =>
    match findBreakpoint (cString id) s with
    | none => commandRemove w c ids s
    | some bp =>
      if c ∈ s.linkClients bp.key then (removeRef w (c, bp.key) s).bind (commandRemove w c ids)
      else commandRemove w c ids s

/-! ## Eventpoints -/

/-- `create_eventpoint_ext`: a breakpoint of the agent itself. -/
def createEventpoint (w : Contexts G) (attrs : List BreakpointAttribute) (s : State Ch G T I) :
    State Ch G T I :=
  let bp := (setBreakpointAttributes attrs { key := s.nextKey, bucket := none, clientCnt := 1 }).2
  replantBreakpoint w bp { s with
    breakpoints := s.breakpoints ++ [bp]
    nextKey := s.nextKey + 1 }

def destroyEventpoint (w : Contexts G) (key : Nat) (s : State Ch G T I) :
    Option (State Ch G T I) :=
  (s.bp? key).bind fun bp =>
    if bp.id ≠ [] ∨ bp.clientCnt ≠ 1 ∨ s.linkClients bp.key ≠ [] then none
    else
      let bp := { bp with clientCnt := 0 }
      some (replantBreakpoint w bp (s.setBp bp))

/-! ## Instructions -/

/-- `clear_instruction_refs`, for the locations that are evaluated. -/
def clearInstructionRefs (g : G) (loc : Loc Nat) (refs : List (InstructionRef G I)) :
    List (InstructionRef G I) :=
  refs.map fun ref =>
    if ref.ctx = g ∧ loc.Covers (.location (some ref.bp)) then { ref with counted := false }
    else ref

/-- `link_breakpoint_instruction` -/
def linkBreakpointInstruction (refs : List (InstructionRef G I)) (bp : Nat) (g : G) (bi : I) :
    List (InstructionRef G I) :=
  if refs.any fun ref => ref.bp = bp ∧ ref.ctx = g ∧ ref.bi = bi then
    refs.map fun ref =>
      if ref.bp = bp ∧ ref.ctx = g ∧ ref.bi = bi then { ref with counted := true } else ref
  else refs ++ [{ bp, ctx := g, bi, counted := true }]

/-- The breakpoint is evaluated in the group. -/
def State.evaluates (s : State Ch G T I) (g : G) (loc : Loc Nat) (key : Nat) : Bool :=
  !s.exited g && decide (loc.Covers (.location (some key))) &&
    match s.bp? key with
    | some bp => (bp.id = [] || s.linkClients key ≠ []) && !bp.isDisabled
    | none => false

/-- Locations are evaluated; `links` are the instructions found for breakpoints. -/
def evaluateLocations (g : G) (loc : Loc Nat) (links : List (Nat × I)) (s : State Ch G T I) :
    State Ch G T I :=
  { s with
    instructions := (links.filter fun p => s.evaluates g loc p.1).foldl
      (fun refs p => linkBreakpointInstruction refs p.1 g p.2)
      (clearInstructionRefs g loc s.instructions) }

/-- `flush_instructions`: references that are not counted any more go, and those of contexts
that have exited or are exiting. Before that, instructions at canonical addresses are linked for
the breakpoints of other instructions. -/
def flushInstructions (exiting : G → Bool) (canonical : List (InstructionRef G I))
    (s : State Ch G T I) : State Ch G T I :=
  let valid := fun ref : InstructionRef G I =>
    ref.counted && !s.exited ref.ctx && !exiting ref.ctx
  let links := canonical.filter fun c =>
    s.instructions.any fun ref => valid ref && ref.bp = c.bp && ref.ctx = c.ctx
  { s with
    instructions := (links.foldl (fun refs c => linkBreakpointInstruction refs c.bp c.ctx c.bi)
      s.instructions).filter valid }

/-! ## Generations -/

/-- One run of the cache client of a group: what the evaluation finds, the temporary
breakpoints that are hit, and the breakpoints whose status changes. -/
structure ClientRun (G T I : Type) where
  g : G
  turn : Turn G T Nat
  links : List (Nat × I)
  temporary : List Nat
  exiting : G → Bool
  canonical : List (InstructionRef G I)
  changed : List Nat

def markChanged (keys : List Nat) (s : State Ch G T I) : State Ch G T I :=
  { s with breakpoints := s.breakpoints.map fun bp =>
      { bp with statusChanged := bp.statusChanged || decide (bp.key ∈ keys) } }

/-- The clients of temporary breakpoints that were hit are removed, in the middle of a
generation; also what is posted for that. -/
def removeTemporary (w : Contexts G) :
    List (Ch × Nat) → State Ch G T I → Option (List (G × Option Nat) × State Ch G T I)
  | [], s => some ([], s)
  | ref :: refs, s =>
    (unlinkRef ref s).bind fun (bp, s) =>
      if s.linkClients bp.key = [] ∧ bp.clientCnt ≠ 0 then none
      else (removeTemporary w refs s).map fun p => (replantPosts w bp s ++ p.1, p.2)

/-- The references of the breakpoints, breakpoint by breakpoint. -/
def State.refsOf (s : State Ch G T I) (keys : List Nat) : List (Ch × Nat) :=
  keys.dedup.flatMap fun key => s.refs.filter (·.2 = key)

/-- `replant_breakpoints_cache_client`. The last client of a generation removes temporary
breakpoints, flushes the instructions when nothing has been posted, and notifies everybody
when the generation is the last one. -/
def runClient (w : Contexts G) (r : ClientRun G T I) (s : State Ch G T I) :
    Option (State Ch G T I) :=
  let rep := s.rep
  let s := markChanged r.changed s
  let s := if r.turn.outcome = .waits then s
    else evaluateLocations r.g (rep.req r.g).locActive r.links s
  let last := r.turn.outcome = .exits ∧ rep.cacheEnterCnt = 1
  (removeTemporary w (if last then s.refsOf r.temporary else []) s).bind fun (posts, s) =>
    let turn := { r.turn with callbacks := r.turn.callbacks ++ posts }
    (Replanting.step rep (.rerun r.g turn)).bind fun rep' =>
      let s := if last ∧ rep.posted = [] ∧ turn.posts = [] ∧ turn.callbacks = [] then
        flushInstructions r.exiting r.canonical s else s
      let s := { s with rep := rep' }
      if rep'.generationDone ≠ rep.generationDone then doneReplantingBreakpoints s else some s

/-! ## Steps -/

/-- The commands of the channels, and what else happens: a channel is closed, the agent sets
breakpoints of its own, a context exits or is a reason to evaluate locations, one of the
contexts stops at breakpoints, a generation starts, its clients run, and the status of a
breakpoint changes and is reported. -/
inductive Event (Ch G T I : Type) where
  | set (w : Contexts G) (c : Ch) (list : List (List BreakpointAttribute))
  | add (w : Contexts G) (c : Ch) (attrs : List BreakpointAttribute)
  | enable (w : Contexts G) (ids : List (List UInt8))
  | disable (w : Contexts G) (ids : List (List UInt8))
  | remove (w : Contexts G) (c : Ch) (ids : List (List UInt8))
  | getIds
  | closed (w : Contexts G) (c : Ch)
  | createEventpoint (w : Contexts G) (attrs : List BreakpointAttribute)
  | destroyEventpoint (w : Contexts G) (key : Nat)
  | location (g : G) (bp : Option Nat)
  | exited (g : G) (posted : Bool)
  | stop (world : World T Nat) (ctx : T) (g : G) (hits : List (I × Nat))
      (callbacks : List (G × Option Nat))
  | start (world : World T Nat)
  | client (w : Contexts G) (r : ClientRun G T I)
  | changed (keys : List Nat)
  | notify (key : Nat)

/-- `event_context_exited`; the request is posted unless there is nothing to replant. -/
def contextExited (g : G) (posted : Bool) (s : State Ch G T I) : State Ch G T I :=
  { s with
    exited := Function.update s.exited g true
    rep := if posted || s.instructions.any (·.ctx = g) then Replanting.postLocation g none s.rep
      else s.rep }

/-- A step of the replanting protocol that concerns nothing else. -/
def replant (e : Replanting.Event G T Nat I) (s : State Ch G T I) : Option (State Ch G T I) :=
  (Replanting.step s.rep e).map fun rep => { s with rep }

/-- The clients are run one by one after the generation has started. -/
def startOnly (world : World T Nat) : G → Turn G T Nat := fun _ => { world, outcome := .waits }

def step (s : State Ch G T I) : Event Ch G T I → Option (State Ch G T I)
  | .set w c list => commandSet w c list s
  | .add w c attrs => commandAdd w c attrs s
  | .enable w ids => commandEnable w ids s
  | .disable w ids => commandDisable w ids s
  | .remove w c ids => commandRemove w c ids s
  | .getIds => (getIds s).map fun _ => s
  | .closed w c => deleteBreakpointRefs w c s
  | .createEventpoint w attrs => some (createEventpoint w attrs s)
  | .destroyEventpoint w key => destroyEventpoint w key s
  | .location g bp => replant (.location g bp) s
  | .exited g posted => some (contextExited g posted s)
  | .stop world ctx g hits callbacks => replant (.stop world ctx g hits callbacks) s
  | .start world => replant (.dispatch (startOnly world)) s
  | .client w r => runClient w r s
  | .changed keys => some (markChanged keys s)
  | .notify key => (s.bp? key).bind fun bp => notifyBreakpointStatus bp s

def init : State Ch G T I := {}

end TcfAgent.BreakpointStore
