import TcfAgent.Framework.Streams
import TcfAgent.Lib.Ring
import TcfAgent.Lib.Run

/-!
# The input buffer of a channel

`framework/inputbuf.c` keeps the bytes received from a peer in a circular buffer.
`ibuf_read_done` runs over each chunk as it arrives, only to count the messages in it;
`ibuf_get_more` runs over the same bytes again when the handler of a message reads
them, and lends the handler a window `[cur, end)` of bytes that need no decoding.
When the buffer is full, it is doubled, and when it must not grow further, the message
that fills it is handled before its end has arrived: the handler then waits inside
`ibuf_get_more` for the next chunk.

The callbacks are those of `framework/channel_tcp.c`: `tcp_post_read` remembers one
read request, `tcp_wait_read` waits for it, and `tcp_trigger_message` posts the handler.
The code is the one with `ENABLE_ZeroCopy`.

Pointers into the buffer are offsets from `buf`. A step fails, with `none`, where an
assertion of the code fails.
-/

namespace TcfAgent.Ibuf

open TcfAgent.Lib TcfAgent.Streams

/-- `HandleMsgIdle`, `HandleMsgTriggered`, `HandleMsgActive`. -/
inductive HandlingMsg where
  | idle
  | triggered
  | active
deriving DecidableEq, Repr

/-- The buffer, with the stream `cur`, `end` it lends to the handler.

`pending` is the posted read request, place and size. `waiting` says that the handler
waits for it inside `ibuf_get_more`, called with that `peeking`. `log` is what the
handler was given, with the `peeking` of each call. -/
structure InputBuf where
  bufSize      : Nat
  buf          : Nat → UInt8
  inp          : Nat := 0
  cur          : Nat := 0
  endPos       : Int := 0
  /-- `inp_esc`, `inp_size_mode`, `inp_data_size` -/
  scanner      : EscState := {}
  /-- `out_esc`, `out_size_mode`, `out_data_size` -/
  reader       : EscState := {}
  eof          : Bool := false
  longMsg      : Bool := false
  messageCount : Nat := 0
  handlingMsg  : HandlingMsg := .idle
  pending      : Option (Nat × Nat) := none
  waiting      : Option Bool := none
  log          : List (Bool × Value) := []

section Code

-- what the compiled code computes for the shifts that C does not define, and whether
-- the buffer may grow (`ENABLE_InputQueue`)
variable (ub : UInt8 → Nat → Nat) (inputQueue : Bool)

/-- `tcp_trigger_message`. -/
def triggerMessage (s : InputBuf) : InputBuf :=
  { s with handlingMsg := if s.handlingMsg = .idle then .triggered else s.handlingMsg }

def ibufNewMessage (s : InputBuf) : InputBuf :=
  triggerMessage { s with messageCount := s.messageCount + 1 }

def ibufEof (s : InputBuf) : InputBuf :=
  if s.eof then s else ibufNewMessage { s with eof := true }

def ibufFreeSize (s : InputBuf) : Option (InputBuf × Nat) :=
  if s.eof then some (s, 0)
  else if s.cur = s.bufSize ∧ s.endPos ≠ s.bufSize then none
  else
    let s := if s.cur = s.bufSize then { s with cur := 0, endPos := 0 } else s
    if s.bufSize ≤ s.inp then none
    else if s.cur ≤ s.inp then
      some (s, s.bufSize - s.inp - (if s.cur = 0 then 1 else 0))
    else some (s, s.cur - s.inp - 1)

/-- `ibuf_trigger_read`, with `tcp_post_read`. -/
def ibufTriggerRead (s : InputBuf) : Option InputBuf := do
  let (s, size) ← ibufFreeSize s
  if size = 0 then some s
  else if s.bufSize < s.inp + size then none
  else if s.pending.isSome then some s
  else some { s with pending := some (s.inp, size) }

/-- `inp` after reading `k` more bytes. -/
def advanceInp (s : InputBuf) (k : Nat) : InputBuf :=
  { s with inp := if s.bufSize ≤ s.inp + k then s.inp + k - s.bufSize else s.inp + k }

/-- The `switch` of `ibuf_read_done`. -/
def scanEsc (s : InputBuf) (ch : UInt8) : Option InputBuf :=
  if ch = 0 then some s
  else if ch = 1 then
    if s.longMsg then
      if s.messageCount = 1 then some { s with longMsg := false } else none
    else some (ibufNewMessage s)
  else if ch = 2 then some (ibufEof s)
  else if ch = 3 then some { s with scanner := { s.scanner with sizeMode := 1, dataSize := 0 } }
  else some (ibufEof s)

/-- The loop of `ibuf_read_done`, one round for each unit of `fuel`. -/
def scan : Nat → InputBuf → List UInt8 → Option InputBuf
  | _, s, [] => some s
  | 0, _, _ :: _ => none
  | fuel + 1, s, ch :: chunk =>
    if s.scanner.sizeMode ≠ 0 then
      if s.scanner.esc then none
      else
        scan fuel
          { advanceInp s 1 with
            scanner :=
              { s.scanner with
                dataSize := s.scanner.dataSize ||| sizeBits ub ch s.scanner.sizeMode
                sizeMode := if ch &&& 0x80 = 0 then 0 else s.scanner.sizeMode + 1 } }
          chunk
    else if 0 < s.scanner.dataSize then
      if s.scanner.esc then none
      else if s.scanner.dataSize < chunk.length + 1 then
        scan fuel
          { advanceInp s s.scanner.dataSize with scanner := { s.scanner with dataSize := 0 } }
          ((ch :: chunk).drop s.scanner.dataSize)
      else
        some { advanceInp s (chunk.length + 1) with
          scanner := { s.scanner with dataSize := s.scanner.dataSize - (chunk.length + 1) } }
    else if s.scanner.esc then do
      let s ← scanEsc { advanceInp s 1 with scanner := { s.scanner with esc := false } } ch
      scan fuel s chunk
    else if ch = ESC then
      scan fuel { advanceInp s 1 with scanner := { s.scanner with esc := true } } chunk
    else scan fuel (advanceInp s 1) chunk

/-- The doubling of the buffer. What `loc_alloc` returns is taken to be zeroes. -/
def grow (s : InputBuf) : InputBuf :=
  { s with
    buf := Ring.straighten s.buf (fun _ => 0) s.bufSize s.cur
    inp := s.bufSize - 1
    bufSize := 2 * s.bufSize
    cur := 0
    endPos := s.endPos - s.cur }

/-- What `ibuf_read_done` does with a full buffer. -/
def growFull (s : InputBuf) : Option InputBuf :=
  if inputQueue ∧ s.eof = false then do
    let (s, size) ← ibufFreeSize s
    some (if size = 0 ∧ s.bufSize < 0x1000000 then grow s else s)
  else some s

/-- The end of `ibuf_read_done`: read on, or start with a message that fills the buffer. -/
def readOn (s : InputBuf) : Option InputBuf := do
  let (s, size) ← ibufFreeSize s
  if 0 < size then ibufTriggerRead s
  else if s.messageCount = 0 then some (ibufNewMessage { s with longMsg := true })
  else some s

/-- `ibuf_read_done`, the bytes received standing at `inp` already. -/
def ibufReadDone (s : InputBuf) (chunk : List UInt8) : Option InputBuf :=
  if chunk = [] then some (ibufEof s)
  else if s.eof then none
  else do
    let s ← scan ub chunk.length s chunk
    let s ← growFull inputQueue s
    readOn s

/-- `while (out != max && *out != ESC) out++`, where `k` is `max - out`. -/
def plainEnd (buf : Nat → UInt8) : Nat → Nat → Nat
  | 0, out => out
  | k + 1, out => if buf out = ESC then out else plainEnd buf k (out + 1)

/-- A value is given to the handler. -/
def deliver (s : InputBuf) (peeking : Bool) (v : Value) : InputBuf :=
  { s with log := s.log ++ [(peeking, v)] }

/-- The end of `ibuf_get_more`. -/
def finish (s : InputBuf) (peeking : Bool) (v : Value) : Option InputBuf := do
  let s ← ibufTriggerRead s
  some (deliver s peeking v)

/-- What `ibuf_get_more` does when all the bytes received are read. -/
def noData (s : InputBuf) (peeking : Bool) (out : Nat) : Option InputBuf :=
  if ¬ (s.longMsg ∨ s.eof) then none
  else if s.eof then some (deliver { s with cur := out } peeking .eos)
  else if s.messageCount ≠ 1 then none
  else do
    let s ← ibufTriggerRead { s with cur := out }
    if s.pending = none then none else some { s with waiting := some peeking }

/-- The end of the `switch` of `ibuf_get_more`. -/
def afterEsc (s : InputBuf) (peeking : Bool) (out : Nat) (v : Value) : Option InputBuf :=
  let s := if peeking then s else { s with reader := { s.reader with esc := false } }
  let out := if peeking then out else out + 1
  finish { s with cur := out, endPos := out } peeking v

/-- The case `MARKER_EOM`: the message is over. -/
def readEom (s : InputBuf) : InputBuf :=
  let s := { s with messageCount := s.messageCount - 1, handlingMsg := .idle }
  if s.messageCount ≠ 0 then triggerMessage s else s

/-- The loop of `ibuf_get_more` at `out`, one round for each unit of `fuel`. -/
def getMoreLoop (peeking : Bool) : Nat → InputBuf → Nat → Option InputBuf
  | 0, _, _ => none
  | fuel + 1, s, out =>
    let out := if out = s.bufSize then 0 else out
    if out = s.inp then noData s peeking out
    else
      let ch := s.buf out
      if s.reader.sizeMode ≠ 0 then
        if s.reader.esc then none
        else
          getMoreLoop peeking fuel
            { s with
              reader :=
                { s.reader with
                  dataSize := s.reader.dataSize ||| sizeBits ub ch s.reader.sizeMode
                  sizeMode := if ch &&& 0x80 = 0 then 0 else s.reader.sizeMode + 1 } }
            (out + 1)
      else if 0 < s.reader.dataSize then
        if s.reader.esc then none
        else
          let max := if out + 1 ≤ s.inp then s.inp else s.bufSize
          let n := if max - out < s.reader.dataSize then max - out else s.reader.dataSize
          finish
            { s with
              cur := if peeking then out else out + 1
              endPos := (out + n : Nat)
              reader := { s.reader with dataSize := s.reader.dataSize - n } }
            peeking (.byte ch)
      else if s.reader.esc then
        if ch = 0 then afterEsc s peeking out (.byte ESC)
        else if ch = 1 then afterEsc (if peeking then s else readEom s) peeking out .eom
        else if ch = 2 then afterEsc s peeking out .eos
        else if ch = 3 then
          getMoreLoop peeking fuel
            { s with reader := { esc := false, sizeMode := 1, dataSize := 0 } } (out + 1)
        else none
      else if ch ≠ ESC then
        let max := if out + 1 ≤ s.inp then s.inp else s.bufSize
        let last := plainEnd s.buf (max - (out + 1)) (out + 1)
        let cur := if peeking then out else out + 1
        if last < cur then none else finish { s with cur := cur, endPos := last } peeking (.byte ch)
      else
        getMoreLoop peeking fuel { s with reader := { s.reader with esc := true } } (out + 1)

def ibufGetMore (s : InputBuf) (peeking : Bool) : Option InputBuf :=
  if s.messageCount = 0 ∨ s.handlingMsg ≠ .active ∨ s.bufSize < s.cur ∨ s.endPos ≠ s.cur then none
  else getMoreLoop ub peeking (s.bufSize + 1) s s.cur

/-- `read_stream` and `peek_stream`. -/
def readStream (s : InputBuf) (peeking : Bool) : Option InputBuf :=
  if s.cur < s.endPos then
    some (deliver { s with cur := if peeking then s.cur else s.cur + 1 } peeking
      (.byte (s.buf s.cur)))
  else ibufGetMore ub s peeking

def ibufStartMessage (s : InputBuf) : Option InputBuf :=
  if s.handlingMsg ≠ .triggered then none
  else if s.messageCount = 0 then some { s with handlingMsg := .idle }
  else if s.eof then some { s with handlingMsg := .idle }
  else some { s with handlingMsg := .active }

/-- `handle_channel_msg`, as far as the buffer is concerned. -/
def handleChannelMsg (s : InputBuf) : Option InputBuf :=
  if s.messageCount = 0 then none else ibufStartMessage s

/-- What happens to the buffer: a posted read completes with a chunk, an empty one at
the end of the connection; the posted handler starts; the handler reads or peeks. -/
inductive Event where
  | received (chunk : List UInt8)
  | start
  | get (peeking : Bool)
deriving DecidableEq, Repr

/-- A handler that waits in `tcp_wait_read` goes on. -/
def resume (s : InputBuf) : Option InputBuf :=
  match s.waiting with
  | none => some s
  | some peeking => getMoreLoop ub peeking (s.bufSize + 1) { s with waiting := none } s.cur

/-- A posted read completes. -/
def received (s : InputBuf) (chunk : List UInt8) : Option InputBuf :=
  match s.pending with
  | none => none
  | some (p, _) => do
    let s ← ibufReadDone ub inputQueue
      { s with buf := Ring.store s.buf p chunk, pending := none } chunk
    resume ub s

def step (s : InputBuf) : Event → Option InputBuf
  | .received chunk => received ub inputQueue s chunk
  | .start => handleChannelMsg s
  | .get peeking => readStream ub s peeking

/-- `ibuf_init`, and the read that `start_channel` posts. -/
def init (bufSize : Nat) (buf : Nat → UInt8) : InputBuf :=
  { bufSize := bufSize, buf := buf, pending := some (0, bufSize - 1) }

end Code

/-- What the transport and the handler keep to: a chunk fits the space offered, and
only the active handler reads, one call at a time. -/
def Allowed (s : InputBuf) : Event → Prop
  | .received chunk => ∃ p size, s.pending = some (p, size) ∧ chunk.length ≤ size
  | .start => s.handlingMsg = .triggered
  | .get _ => s.handlingMsg = .active ∧ s.waiting = none

instance (s : InputBuf) : ∀ e, Decidable (Allowed s e)
  | .received chunk =>
    match hPending : s.pending with
    | none => isFalse (by simp [Allowed, hPending])
    | some (p, size) =>
      decidable_of_iff (chunk.length ≤ size) (by simp [Allowed, hPending])
  | .start => inferInstanceAs (Decidable (_ = _))
  | .get _ => inferInstanceAs (Decidable (_ ∧ _))

end TcfAgent.Ibuf
