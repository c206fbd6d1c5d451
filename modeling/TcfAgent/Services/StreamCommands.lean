import TcfAgent.Framework.JsonBinary
import TcfAgent.Services.VirtualStream

/-!
# The Streams service

`services/streamsservice.c`: all streams with their clients, the commands of the clients and the
calls of the owners. A stream is read by its clients (`VirtualStream` is about these) or written by
them. What does not fit into the buffer of a stream that is written waits in a write request, which
`virtual_stream_get_data` takes up again.

A step that does not end normally is a `Trap`. An exception in a command is no trap: what the
command has done so far stays, and closing the channel is a step of its own.

Main results

* `safe_addData`, `safe_getData`, … — one operation of the owner finds its assertions true
* `safe_read`, `safe_write`, …      — and so does one command

The steps of the service and its runs are the subject of `StreamRuns`.
-/

namespace TcfAgent.StreamCommands

open TcfAgent.Lib TcfAgent.JsonText TcfAgent.JsonBuffers TcfAgent.StreamsService

/-! ## Streams -/

/-- Why a step does not end: an assertion of this service or of the JSON reader, an access outside
of the block of a write request, or a stream that has taken 2^64 bytes, where `pos` begins again. -/
inductive Trap where
  | assertion
  | jsonAssertion
  | block
  | wrap
deriving DecidableEq, Repr

/-- `VS_ENABLE_REMOTE_READ` and `VS_ENABLE_REMOTE_WRITE`. Every caller of `virtual_stream_create`
passes one of the two. -/
inductive Access where
  | remoteRead
  | remoteWrite
deriving DecidableEq, Repr

inductive CommandError where
  | noSuchStream
  | unsupported
  | eof
  | commandCancelled
deriving DecidableEq, Repr

/-- `data` are the bytes that have been stored to the block, from its beginning; `size` is the size
of the block. -/
structure WriteRequest where
  token : List UInt8
  data  : List UInt8
  offs  : Nat
  size  : Nat
  eos   : Bool
deriving DecidableEq, Repr

/-- The reply to a `write` or `eos` command. -/
structure WriteReply where
  channel : Nat
  token   : List UInt8
  error   : Option CommandError
deriving DecidableEq, Repr

/-- A stream. `writes` are the write requests of the client on a channel; `sent` is no field of the
source. -/
structure Remote where
  id                  : Nat
  access              : Access
  base                : VirtualStream
  eosOut              : Bool := false
  dataAvailablePosted : Bool := false
  writes              : Nat → List WriteRequest := fun _ => []
  sent                : List WriteReply := []

def Remote.setWrites (r : Remote) (c : Nat) (ws : List WriteRequest) : Remote :=
  { r with writes := Function.update r.writes c ws }

def Remote.reply (r : Remote) (c : Nat) (token : List UInt8)
    (error : Option CommandError) : Remote :=
  { r with sent := r.sent ++ [⟨c, token, error⟩] }

/-- What fits of `buf` is stored, with the end of the stream behind all of it. -/
def storeUpTo (s : VirtualStream) (buf : List UInt8) (eos : Bool) : VirtualStream :=
  let len := acceptedSize s buf
  let s := storeData s (buf.take len)
  if eos ∧ buf.length = len then { s with eosInp := true } else s

/-- `virtual_stream_add_data`: `*data_size`, `none` is the error `ERR_EOF`. -/
def addData (r : Remote) (buf : List UInt8) (eos : Bool) : Except Trap (Option Nat × Remote) :=
  if ¬ r.base.magic then .error .assertion
  else if r.base.eosInp then
    match r.access with
    | .remoteRead => .ok (none, r)
    | .remoteWrite => .ok (none, { r with dataAvailablePosted := true })
  else if ¬ (r.base.bufOut + r.base.bufLen - r.base.bufInp - 1) % r.base.bufLen < r.base.bufLen then
    .error .assertion
  else if 2 ^ 64 ≤ r.base.accepted.length + acceptedSize r.base buf then .error .wrap
  else
    match r.access with
    | .remoteRead =>
      match virtualStreamAddData r.base buf eos with
      | none => .error .assertion
      | some base => .ok (some (acceptedSize r.base buf), { r with base })
    | .remoteWrite =>
      .ok (some (acceptedSize r.base buf),
        { r with base := storeUpTo r.base buf eos, dataAvailablePosted := true })

/-! ## Write requests -/

/-- The bytes of a block behind `offs`; `fresh` is what its memory held before. -/
def WriteRequest.bytes (fresh : Nat → UInt8) (w : WriteRequest) : List UInt8 :=
  (List.range' w.offs (w.size - w.offs)).map fun i => w.data.getD i (fresh i)

/-- The first request of a client, in `virtual_stream_get_data`. -/
def serveClient (fresh : Nat → UInt8) (r : Remote) (c : Nat) : Except Trap Remote :=
  match r.writes c with
  | [] => .ok r
  | w :: ws => do
    let (done, r) ← addData r (w.bytes fresh) w.eos
    match done with
    | none =>
      let r := r.reply c w.token (some .eof)
      return (ws.foldl (fun r w => r.reply c w.token (some .commandCancelled)) r).setWrites c []
    | some done =>
      if w.size ≤ w.offs + done then return (r.reply c w.token none).setWrites c ws
      else return r.setWrites c ({ w with offs := w.offs + done } :: ws)

/-- The loop of `virtual_stream_get_data`. -/
def serveClients (fresh : Nat → UInt8) (r : Remote) : Except Trap Remote :=
  match r.access with
  | .remoteRead => .ok r
  | .remoteWrite => (r.base.clients.map (·.channel)).foldlM (serveClient fresh) r

/-- What `virtual_stream_get_data` takes out of the buffer. -/
def takeData (r : Remote) (len : Nat) (eos : Bool) : Except Trap Remote :=
  match r.access with
  | .remoteRead => .ok r
  | .remoteWrite =>
    if len = 0 then .ok r
    else
      let bufOut := (r.base.bufOut + len) % r.base.bufLen
      if eos = true ∧ bufOut ≠ r.base.bufInp then .error .assertion
      else .ok { r with base := { r.base with bufOut, spaceAvailablePosted := true } }

/-- `virtual_stream_get_data`: the data and `*eos`. -/
def getData (fresh : Nat → UInt8) (r : Remote) (bufSize : Nat) :
    Except Trap (List UInt8 × Bool × Remote) :=
  if ¬ r.base.magic then .error .assertion
  else do
    let size := r.base.dataSize
    let len := min size bufSize
    let eos := if bufSize < size then false else r.base.eosInp
    let x := r.base.bufLen - r.base.bufOut
    let data := if r.base.bufOut + len ≤ r.base.bufLen then Ring.load r.base.buf r.base.bufOut len
      else Ring.load r.base.buf r.base.bufOut x ++ Ring.load r.base.buf 0 (len - x)
    let r ← serveClients fresh { r with eosOut := r.eosOut || eos }
    let r ← takeData r len eos
    return (data, eos, r)

/-! ## Commands -/

/-- The checks in front of a `write` or `eos` command. -/
def writeError (r : Remote) (c : Nat) : Option CommandError :=
  match r.base.findClient c, r.access with
  | none, _ => some .noSuchStream
  | some _, .remoteRead => some .unsupported
  | some _, .remoteWrite => none

/-- `virtual_stream_read` -/
def virtualStreamRead (r : Remote) (c : Nat) (token : List UInt8) (size : Nat) :
    Except Trap (Option CommandError × Remote) :=
  match r.base.findClient c, r.access with
  | none, _ => .ok (some .noSuchStream, r)
  | some _, .remoteWrite => .ok (some .unsupported, r)
  | some _, .remoteRead =>
    match StreamsService.virtualStreamRead r.base c token size with
    | none => .error .assertion
    | some base => .ok (none, { r with base })

/-- `size - offs`, of a `size_t`: the size of the block for what the stream has not taken. -/
def blockSize (size offs : Nat) : Nat := u64 (size + (2 ^ 64 - u64 offs))

/-- The variables of `virtual_stream_write`: `data` are the bytes that have been stored to the
block. -/
structure WriteJob where
  err    : Option CommandError
  offs   : Nat
  data   : Option (List UInt8)
  inp    : ReadState
  stream : Remote

/-- The bytes in `buf` go to the stream, and to a new block from the first one it does not take. -/
def writeDirect (size : Nat) (bytes : List UInt8) (job : WriteJob) : Except Trap WriteJob :=
  if job.err ≠ none then .ok job
  else do
    let (done, stream) ← addData job.stream bytes false
    match done with
    | none => return { job with err := some .eof, stream }
    | some done =>
      if bytes.length < done then .error .assertion
      else if done = bytes.length then return { job with stream, offs := job.offs + done }
      else if blockSize size (job.offs + done) < bytes.length - done then .error .block
      else return { job with stream, offs := job.offs + done, data := some (bytes.drop done) }

/-- The loop of `virtual_stream_write`; the flag is set where the JSON reader raises an exception.
Every round but the last one takes a byte or more. -/
def writeLoop (size : Nat) : (fuel : Nat) → WriteJob → Except Trap (Bool × WriteJob)
  | 0, job => .ok (false, job)
  | fuel + 1, job =>
    match job.data with
    | some data =>
      match jsonReadBinaryData (u64 (blockSize size job.offs + (2 ^ 64 - u64 data.length)))
        job.inp with
      | .error .fault => .error .jsonAssertion
      | .error (.raise _) => .ok (true, job)
      | .ok (bytes, inp) =>
        if bytes = [] then .ok (false, { job with inp })
        else if blockSize size job.offs < data.length + bytes.length then .error .block
        else writeLoop size fuel { job with data := some (data ++ bytes), inp }
    | none =>
      match jsonReadBinaryData 256 job.inp with
      | .error .fault => .error .jsonAssertion
      | .error (.raise _) => .ok (true, job)
      | .ok (bytes, inp) =>
        if bytes = [] then .ok (false, { job with inp })
        else do
          let job ← writeDirect size bytes { job with inp }
          writeLoop size fuel job

/-- What follows the loop: a request for what is in the block, or the reply. -/
def finishWrite (size c : Nat) (token : List UInt8) (job : WriteJob) : Remote :=
  match job.data with
  | some data =>
    job.stream.setWrites c (job.stream.writes c ++
      [⟨strlcpy token 256, data, 0, blockSize size job.offs, false⟩])
  | none => if job.err = none then job.stream.reply c token none else job.stream

inductive WriteResult where
  | raised
  | ended (err : Option CommandError) (rest : Text)
deriving DecidableEq, Repr

/-- `virtual_stream_write` -/
def virtualStreamWrite (r : Remote) (c : Nat) (token : List UInt8) (size : Nat) (text : Text) :
    Except Trap (WriteResult × Remote) :=
  let err := writeError r c
  let data := if err = none ∧ r.writes c ≠ [] then some [] else none
  match jsonReadBinaryStart text with
  | .error .fault => .error .jsonAssertion
  | .error (.raise _) => .ok (.raised, r)
  | .ok inp => do
    let (raised, job) ← writeLoop size (inp.sizeStart + inp.text.length + 1) ⟨err, 0, data, inp, r⟩
    if raised then return (.raised, job.stream)
    else
      match jsonReadBinaryEnd job.inp with
      | .error .fault => .error .jsonAssertion
      | .error (.raise _) => return (.raised, job.stream)
      | .ok rest => return (.ended job.err rest, finishWrite size c token job)

/-- `virtual_stream_eos` -/
def virtualStreamEos (r : Remote) (c : Nat) (token : List UInt8) :
    Except Trap (Option CommandError × Remote) :=
  match writeError r c with
  | some err => .ok (some err, r)
  | none =>
    if r.writes c ≠ [] then
      .ok (none, r.setWrites c (r.writes c ++ [⟨strlcpy token 256, [], 0, 0, true⟩]))
    else do
      let (done, r) ← addData r [] true
      match done with
      | none => return (some .eof, r)
      | some _ => return (none, r.reply c token none)

/-- `virtual_stream_connect`, where the stream is the one that is found. -/
def virtualStreamConnect (r : Remote) (c : Nat) : Remote :=
  { r with base := StreamsService.virtualStreamConnect r.base c }

/-- `delete_client` -/
def deleteClient (r : Remote) (client : StreamClient) : Except Trap Remote :=
  if ¬ 0 < r.base.refCnt then .error .assertion
  else
    let base := removeClient r.base client
    let r := (r.writes client.channel).foldl
      (fun r w => r.reply client.channel w.token (some .commandCancelled)) r
    let r := { r.setWrites client.channel [] with base }
    if base.refCnt = 0 then
      if base.clients = [] ∧ base.deleted then
        .ok { r with base := { base with deletePosted := true } }
      else .error .assertion
    else
      match r.access with
      | .remoteWrite => .ok r
      | .remoteRead =>
        match advanceStreamBuffer base with
        | none => .error .assertion
        | some base => .ok { r with base }

/-- `virtual_stream_disconnect`, and `channel_close_listener` for one stream. -/
def virtualStreamDisconnect (r : Remote) (c : Nat) : Except Trap Remote :=
  match r.base.findClient c with
  | none => .ok r
  | some client => deleteClient r client

/-! ## Owners and posted events -/

def orAssert (r : Remote) : Option VirtualStream → Except Trap Remote
  | none => .error .assertion
  | some base => .ok { r with base }

/-- `virtual_stream_delete` -/
def virtualStreamDelete (r : Remote) : Except Trap Remote :=
  orAssert r (StreamsService.virtualStreamDelete r.base)

/-- `delete_stream` -/
def deleteStream (r : Remote) : Except Trap Remote :=
    orAssert r (StreamsService.deleteStream r.base)

/-- `notify_space_available`, up to the call of the owner. -/
def notifySpaceAvailable (r : Remote) : Except Trap Remote :=
  orAssert r (StreamsService.notifySpaceAvailable r.base)

/-- `notify_data_available`, up to the call of the owner. -/
def notifyDataAvailable (r : Remote) : Except Trap Remote :=
  if ¬ r.base.magic then .error .assertion else .ok { r with dataAvailablePosted := false }

/-! ## One operation -/

/-- No assertion of the service fails, and `P` holds where the step ends. -/
def Safe {α : Type} (P : α → Prop) : Except Trap α → Prop
  | .ok a => P a
  | .error t => t ≠ .assertion

section

variable {α β : Type} {P Q : α → Prop} {R : β → Prop} {x : Except Trap α} {f : α → Except Trap β}

theorem Safe.bind (hx : Safe P x) (hf : ∀ a, P a → Safe R (f a)) : Safe R (x >>= f) := by
  cases x with
  | error t => exact hx
  | ok a => exact hf a hx

theorem Safe.mono (hx : Safe P x) (h : ∀ a, P a → Q a) : Safe Q x := by
  cases x with
  | error t => exact hx
  | ok a => exact h a hx

end

theorem wrap_ne_assertion : Trap.wrap ≠ Trap.assertion := by decide

/-- What holds of every stream: of one that its clients read, all that `VirtualStream` says. -/
structure Good (r : Remote) : Prop where
  read    : r.access = .remoteRead → Inv r.base
  ring    : RingOk r.base
  counted : Counted r.base
  posted  : r.dataAvailablePosted = true → r.access = .remoteWrite ∧ r.base.magic = true

section

variable {r r' : Remote} {s : VirtualStream} {c : Nat} {buf : List UInt8} {eos : Bool}
  {o : Option VirtualStream}

theorem ne_remoteRead (h : r.access = .remoteWrite) : r.access ≠ .remoteRead := by
  rw [h]
  decide

theorem storeUpTo_spec (h : RingOk s) (hCounted : Counted s)
    (hSmall : s.accepted.length + acceptedSize s buf < 2 ^ 64) :
    RingOk (storeUpTo s buf eos) ∧ Counted (storeUpTo s buf eos) ∧
      s.dataSize ≤ (storeUpTo s buf eos).dataSize ∧
      (storeUpTo s buf eos).magic = s.magic ∧ (storeUpTo s buf eos).clients = s.clients ∧
      (storeUpTo s buf eos).accepted = s.accepted ++ buf.take (acceptedSize s buf) ∧
      (storeUpTo s buf eos).dataSize = s.dataSize + acceptedSize s buf ∧
      (storeUpTo s buf eos).bufLen = s.bufLen := by
  have hSize := h.acceptedSize_eq buf
  unfold storeUpTo
  generalize acceptedSize s buf = len at hSize hSmall
  have hLen : (buf.take len).length = len := by
    rw [List.length_take]
    omega
  obtain ⟨hRing, hData⟩ := h.storeData (by omega : (buf.take len).length ≤ _) (by omega)
  rw [hLen] at hData
  have hMore : s.dataSize ≤ (storeData s (buf.take len)).dataSize := by
    rw [hData]
    exact Nat.le_add_right _ _
  by_cases hLast : eos = true ∧ buf.length = len
  · rw [if_pos hLast]
    exact ⟨{ hRing with },
      { hCounted with }, hMore, rfl, rfl, rfl,
      hData, rfl⟩
  · rw [if_neg hLast]
    exact ⟨hRing, { hCounted with }, hMore, rfl,
      rfl, rfl, hData, rfl⟩

/-- `virtual_stream_add_data` of a stream that clients write. -/
theorem addData_write (hMagic : r.base.magic = true) (hAccess : r.access = .remoteWrite)
    (hRing : RingOk r.base) :
    addData r buf eos =
      if r.base.eosInp then .ok (none, { r with dataAvailablePosted := true })
      else if 2 ^ 64 ≤ r.base.accepted.length + acceptedSize r.base buf then .error .wrap
      else .ok (some (acceptedSize r.base buf),
        { r with base := storeUpTo r.base buf eos, dataAvailablePosted := true }) := by
  unfold addData
  rw [if_neg (not_not_intro hMagic),
    if_neg (not_not_intro (Nat.mod_lt _ (Nat.zero_lt_of_lt hRing.inp))), hAccess]

/-- What a call that writes to a stream leaves as it was. -/
structure Grows (r r' : Remote) : Prop where
  good    : Good r'
  access  : r'.access = .remoteWrite
  magic   : r'.base.magic = true
  clients : r'.base.clients = r.base.clients
  more    : r.base.dataSize ≤ r'.base.dataSize
  ended   : r.base.eosInp = true → r'.base = r.base

theorem Grows.refl (h : Good r) (hAccess : r.access = .remoteWrite) (hMagic : r.base.magic = true) :
    Grows r r :=
  ⟨h, hAccess, hMagic, rfl, Nat.le_refl _, fun _ => rfl⟩

theorem Grows.trans {r'' : Remote} (h : Grows r r') (h' : Grows r' r'') : Grows r r'' := by
  refine ⟨h'.good, h'.access, h'.magic, h'.clients.trans h.clients, h.more.trans h'.more, ?_⟩
  intro hEnded
  have hSame := h.ended hEnded
  exact (h'.ended (by rw [hSame]; exact hEnded)).trans hSame

/-- Replies and requests are no matter here. -/
theorem Grows.of_base {r'' : Remote} (h : Grows r r') (hBase : r''.base = r'.base)
    (hAccess : r''.access = r'.access)
    (hPosted : r''.dataAvailablePosted = r'.dataAvailablePosted) :
    Grows r r'' := by
  refine ⟨⟨?_, ?_, ?_, ?_⟩, hAccess.trans h.access, ?_, ?_, ?_, ?_⟩
  · rw [hBase, hAccess]
    exact h.good.read
  · rw [hBase]
    exact h.good.ring
  · rw [hBase]
    exact h.good.counted
  · rw [hBase, hPosted, hAccess]
    exact h.good.posted
  · rw [hBase]
    exact h.magic
  · rw [hBase]
    exact h.clients
  · rw [hBase]
    exact h.more
  · rw [hBase]
    exact h.ended

theorem grows_addData (h : Good r) (hAccess : r.access = .remoteWrite)
    (hMagic : r.base.magic = true) (buf : List UInt8) (eos : Bool) :
    Safe (fun p => Grows r p.2 ∧ ∀ n ∈ p.1, n ≤ buf.length) (addData r buf eos) := by
  rw [addData_write hMagic hAccess h.ring]
  have hPosted {s : VirtualStream} (hRing : RingOk s) (hCounted : Counted s)
      (hSame : s.magic = true) : Good { r with base := s, dataAvailablePosted := true } :=
    ⟨fun hRead => absurd hRead (ne_remoteRead hAccess), hRing, hCounted,
      fun _ => ⟨hAccess, hSame⟩⟩
  by_cases hEos : r.base.eosInp = true
  · rw [if_pos hEos]
    exact ⟨⟨hPosted h.ring h.counted hMagic, hAccess, hMagic, rfl, Nat.le_refl _, fun _ => rfl⟩,
      by simp⟩
  rw [if_neg hEos]
  by_cases hWrap : 2 ^ 64 ≤ r.base.accepted.length + acceptedSize r.base buf
  · rw [if_pos hWrap]
    exact wrap_ne_assertion
  rw [if_neg hWrap]
  obtain ⟨hRing, hCounted, hMore, hSame, hClients, -⟩ :=
    @storeUpTo_spec _ buf eos h.ring h.counted (Nat.not_le.1 hWrap)
  refine ⟨⟨hPosted hRing hCounted (hSame.trans hMagic), hAccess, hSame.trans hMagic,
    hClients, hMore,
    fun hEnded => absurd hEnded hEos⟩, ?_⟩
  rintro n hn
  cases hn
  exact Nat.min_le_right _ _

/-- A stream that its clients read. -/
theorem Good.ofInv (h : Good r) (hAccess : r.access = .remoteRead) (hInv : Inv s) :
    Good { r with base := s } :=
  ⟨fun _ => hInv, hInv.ring, hInv.counted,
    fun hPosted => absurd hAccess (ne_remoteRead (h.posted hPosted).1)⟩

/-- `virtual_stream_add_data` of a stream that clients read. -/
theorem addData_read (hMagic : r.base.magic = true) (hAccess : r.access = .remoteRead)
    (hRing : RingOk r.base) :
    addData r buf eos =
      if r.base.eosInp then .ok (none, r)
      else if 2 ^ 64 ≤ r.base.accepted.length + acceptedSize r.base buf then .error .wrap
      else
        match virtualStreamAddData r.base buf eos with
        | none => .error .assertion
        | some base => .ok (some (acceptedSize r.base buf), { r with base }) := by
  unfold addData
  rw [if_neg (not_not_intro hMagic),
    if_neg (not_not_intro (Nat.mod_lt _ (Nat.zero_lt_of_lt hRing.inp))), hAccess]

/-- `virtual_stream_add_data` -/
theorem safe_addData (h : Good r) (hMagic : r.base.magic = true) (buf : List UInt8) (eos : Bool) :
    Safe (fun p => Good p.2) (addData r buf eos) := by
  cases hAccess : r.access with
  | remoteWrite =>
    exact (grows_addData h hAccess hMagic buf eos).mono fun p hp => hp.1.good
  | remoteRead =>
    rw [addData_read hMagic hAccess h.ring]
    by_cases hEos : r.base.eosInp = true
    · rw [if_pos hEos]
      exact h
    rw [if_neg hEos]
    by_cases hWrap : 2 ^ 64 ≤ r.base.accepted.length + acceptedSize r.base buf
    · rw [if_pos hWrap]
      exact wrap_ne_assertion
    rw [if_neg hWrap]
    obtain ⟨base, hRun, hInv⟩ :=
      @Inv.addData _ (h.read hAccess) buf eos hMagic (Nat.not_le.1 hWrap)
    rw [hRun]
    exact h.ofInv hAccess hInv

/-- Replies and requests are no matter here. -/
theorem Good.of_base (h : Good r) (hBase : r'.base = r.base) (hAccess : r'.access = r.access)
    (hPosted : r'.dataAvailablePosted = r.dataAvailablePosted) : Good r' := by
  obtain ⟨hRead, hRing, hCounted, hSome⟩ := h
  rw [← hBase, ← hAccess] at hRead
  rw [← hBase] at hRing hCounted
  rw [← hBase, ← hAccess, ← hPosted] at hSome
  exact ⟨hRead, hRing, hCounted, hSome⟩

/-! ## Write requests -/

theorem foldl_reply (r : Remote) (c : Nat) (error : Option CommandError) (ws : List WriteRequest) :
    (ws.foldl (fun r w => r.reply c w.token error) r).base = r.base ∧
      (ws.foldl (fun r w => r.reply c w.token error) r).access = r.access ∧
      (ws.foldl (fun r w => r.reply c w.token error) r).dataAvailablePosted =
        r.dataAvailablePosted := by
  induction ws generalizing r with
  | nil => exact ⟨rfl, rfl, rfl⟩
  | cons w ws ih => exact ih (r.reply c w.token error)

theorem grows_serveClient (fresh : Nat → UInt8) (c : Nat) (h : Good r)
    (hAccess : r.access = .remoteWrite) (hMagic : r.base.magic = true) :
    Safe (Grows r) (serveClient fresh r c) := by
  unfold serveClient
  split
  · exact Grows.refl h hAccess hMagic
  · rename_i w ws hQueue
    refine (grows_addData h hAccess hMagic _ _).bind ?_
    rintro ⟨done, r'⟩ ⟨hGrows, -⟩
    cases done with
    | none =>
      obtain ⟨hBase, hSame, hPosted⟩ :=
        foldl_reply (r'.reply c w.token (some .eof)) c (some .commandCancelled) ws
      exact hGrows.of_base hBase hSame hPosted
    | some done =>
      dsimp only
      split
      · exact hGrows.of_base rfl rfl rfl
      · exact hGrows.of_base rfl rfl rfl

theorem grows_serveAll (fresh : Nat → UInt8) (cs : List Nat) (h : Good r)
    (hAccess : r.access = .remoteWrite) (hMagic : r.base.magic = true) :
    Safe (Grows r) (cs.foldlM (serveClient fresh) r) := by
  induction cs generalizing r with
  | nil => exact Grows.refl h hAccess hMagic
  | cons c cs ih =>
    rw [List.foldlM_cons]
    refine (grows_serveClient fresh c h hAccess hMagic).bind ?_
    intro r' hGrows
    exact (ih hGrows.good hGrows.access hGrows.magic).mono fun _ hMore => hGrows.trans hMore

/-- What is taken out of the buffer was in it; at the end of the stream it is all. -/
theorem safe_takeData {len : Nat} {ended : Bool} (h : Good r) (hMagic : r.base.magic = true)
    (hLen : len ≤ r.base.dataSize)
    (hAll : ended = true → len = r.base.dataSize) : Safe Good (takeData r len ended) := by
  unfold takeData
  split
  · exact h
  · rename_i hAccess
    by_cases hZero : len = 0
    · rw [if_pos hZero]
      exact h
    rw [if_neg hZero]
    obtain ⟨hRing, -⟩ := h.ring.advance hLen true
    have hEnd : ended = true → (r.base.bufOut + len) % r.base.bufLen = r.base.bufInp := by
      intro hEnded
      rw [hAll hEnded, ← h.ring.inp_eq]
    rw [if_neg fun hWrong => hWrong.2 (hEnd hWrong.1)]
    refine ⟨fun hRead => absurd hRead (ne_remoteRead hAccess), hRing, ?_, h.posted⟩
    refine ⟨h.counted.channels, h.counted.refCnt, h.counted.posted, ?_⟩
    intro hFreed
    exact absurd (hFreed.symm.trans hMagic) Bool.false_ne_true

/-- `virtual_stream_get_data` -/
theorem safe_getData (fresh : Nat → UInt8) (h : Good r) (hMagic : r.base.magic = true)
    (bufSize : Nat) : Safe (fun p => Good p.2.2) (getData fresh r bufSize) := by
  unfold getData
  rw [if_neg (not_not_intro hMagic)]
  dsimp only
  generalize hEnd : (if bufSize < r.base.dataSize then false else r.base.eosInp) = ended
  have h' : Good { r with eosOut := r.eosOut || ended } := h.of_base rfl rfl rfl
  refine Safe.bind (P := fun r' => Good r' ∧ r'.base.magic = true ∧
    r.base.dataSize ≤ r'.base.dataSize ∧ (r.base.eosInp = true → r'.base = r.base)) ?_ ?_
  · unfold serveClients
    split
    · exact ⟨h', hMagic, Nat.le_refl _, fun _ => rfl⟩
    · rename_i hAccess
      refine (grows_serveAll fresh (r.base.clients.map (·.channel)) h' hAccess hMagic).mono ?_
      intro r' hGrows
      exact ⟨hGrows.good, hGrows.magic, hGrows.more, hGrows.ended⟩
  · intro r' hr'
    obtain ⟨hGood, hMagic', hMore, hEnded⟩ := hr'
    refine Safe.bind (P := Good)
      (safe_takeData hGood hMagic' ((Nat.min_le_left _ _).trans hMore) ?_) fun r'' hr'' => hr''
    intro hLast
    rw [← hEnd] at hLast
    split at hLast
    · cases hLast
    · rename_i hFits
      rw [Nat.min_eq_left (Nat.not_lt.1 hFits), hEnded hLast]

/-! ## Commands -/

theorem writeError_none (h : Good r) (hErr : writeError r c = none) :
    r.access = .remoteWrite ∧ r.base.magic = true := by
  unfold writeError at hErr
  split at hErr
  · cases hErr
  · cases hErr
  · rename_i client hFind hAccess
    exact ⟨hAccess, h.counted.magic_of_mem (findClient_some hFind).1⟩

/-- `virtual_stream_read` of one byte or more, or of nothing at the end of a stream of which the
client has everything. -/
theorem safe_read (h : Good r) (c : Nat) (token : List UInt8) {size : Nat}
    (hSize : r.access = .remoteRead → ∀ client ∈ r.base.findClient c,
      0 < size ∨ client.pos = r.base.pos ∧ r.base.eosInp = true) :
    Safe (fun p => Good p.2) (virtualStreamRead r c token size) := by
  unfold virtualStreamRead
  split
  · exact h
  · exact h
  · rename_i hAccess
    obtain ⟨base, hRun, hInv⟩ := (h.read hAccess).read c token (hSize hAccess)
    rw [hRun]
    exact h.ofInv hAccess hInv

/-- What the loop of `virtual_stream_write` keeps: without an error there is a stream to write
to. -/
structure JobOk (job : WriteJob) : Prop where
  good  : Good job.stream
  ready : job.err = none → job.stream.access = .remoteWrite ∧ job.stream.base.magic = true

theorem safe_writeDirect (size : Nat) (bytes : List UInt8) {job : WriteJob} (h : JobOk job) :
    Safe JobOk (writeDirect size bytes job) := by
  unfold writeDirect
  by_cases hErr : job.err ≠ none
  · rw [if_pos hErr]
    exact h
  rw [if_neg hErr]
  obtain ⟨hAccess, hMagic⟩ := h.ready (not_ne_iff.1 hErr)
  refine (grows_addData h.good hAccess hMagic bytes false).bind ?_
  rintro ⟨done, stream⟩ ⟨hGrows, hLe⟩
  cases done with
  | none => exact ⟨hGrows.good, fun hNone => by cases hNone⟩
  | some done =>
    have hReady : job.err = none → stream.access = .remoteWrite ∧ stream.base.magic = true :=
      fun _ => ⟨hGrows.access, hGrows.magic⟩
    dsimp only
    rw [if_neg (Nat.not_lt.2 (hLe done rfl))]
    split
    · exact ⟨hGrows.good, hReady⟩
    · split
      · exact (by decide : Trap.block ≠ Trap.assertion)
      · exact ⟨hGrows.good, hReady⟩

theorem safe_writeLoop (size fuel : Nat) {job : WriteJob} (h : JobOk job) :
    Safe (fun p => JobOk p.2) (writeLoop size fuel job) := by
  have hJson : Trap.jsonAssertion ≠ Trap.assertion := by decide
  induction fuel generalizing job with
  | zero => exact h
  | succ fuel ih =>
    rw [writeLoop]
    split
    · split
      · exact hJson
      · exact h
      · split
        · exact ⟨h.good, h.ready⟩
        · split
          · exact (by decide : Trap.block ≠ Trap.assertion)
          · exact ih ⟨h.good, h.ready⟩
    · split
      · exact hJson
      · exact h
      · split
        · exact ⟨h.good, h.ready⟩
        · refine Safe.bind (P := JobOk) ?_ fun job' h' => ih h'
          exact safe_writeDirect size _ ⟨h.good, h.ready⟩

/-- `virtual_stream_write` of any text. -/
theorem safe_write (h : Good r) (c : Nat) (token : List UInt8) (size : Nat) (text : Text) :
    Safe (fun p => Good p.2) (virtualStreamWrite r c token size text) := by
  have hJson : Trap.jsonAssertion ≠ Trap.assertion := by decide
  unfold virtualStreamWrite
  dsimp only
  split
  · exact hJson
  · exact h
  · refine (safe_writeLoop size _ ⟨h, writeError_none h⟩).bind ?_
    rintro ⟨raised, job⟩ hJob
    split
    · exact hJob.good
    · split
      · exact hJson
      · exact hJob.good
      · show Good (finishWrite size c token job)
        unfold finishWrite
        split
        · exact hJob.good.of_base rfl rfl rfl
        · split
          · exact hJob.good.of_base rfl rfl rfl
          · exact hJob.good

/-- `virtual_stream_eos` -/
theorem safe_eos (h : Good r) (c : Nat) (token : List UInt8) :
    Safe (fun p => Good p.2) (virtualStreamEos r c token) := by
  unfold virtualStreamEos
  split
  · exact h
  · rename_i hErr
    split
    · exact h.of_base rfl rfl rfl
    · refine (safe_addData h (writeError_none h hErr).2 [] true).bind ?_
      rintro ⟨done, r'⟩ h'
      cases done with
      | none => exact h'
      | some done => exact h'.of_base rfl rfl rfl

/-- `virtual_stream_connect` -/
theorem Good.connect (h : Good r) (c : Nat) : Good (virtualStreamConnect r c) := by
  cases hAccess : r.access with
  | remoteRead => exact h.ofInv hAccess ((h.read hAccess).connect c)
  | remoteWrite =>
    unfold virtualStreamConnect StreamsService.virtualStreamConnect
    split
    · exact h
    · rename_i hFind
      split
      · exact h
      · rename_i hDeleted
        have hOwned := Bool.eq_false_iff.2 hDeleted
        have hMagic := h.counted.magic_of_deleted hOwned
        have hRing := h.ring
        refine ⟨fun hRead => absurd hRead (ne_remoteRead hAccess), ?_,
          h.counted.createClient hMagic hOwned (findClient_none hFind), h.posted⟩
        exact { hRing with }

/-- `virtual_stream_disconnect` -/
theorem safe_disconnect (h : Good r) (c : Nat) : Safe Good (virtualStreamDisconnect r c) := by
  unfold virtualStreamDisconnect
  split
  · exact h
  · rename_i client hFind
    obtain ⟨hMem, -⟩ := findClient_some hFind
    obtain ⟨hCounted, hRef, hLast⟩ := h.counted.removeClient hMem
    have hMagic := h.counted.magic_of_mem hMem
    have hRing := h.ring
    have hRing' : RingOk (removeClient r.base client) :=
      { hRing with }
    obtain ⟨-, hAccess, hPosted⟩ := foldl_reply r client.channel (some .commandCancelled)
      (r.writes client.channel)
    have hPosted' := h.posted
    rw [← hAccess, ← hPosted] at hPosted'
    -- a stream that clients read does what `VirtualStream` says
    have hRead : r.access = .remoteRead →
        ∃ s', StreamsService.deleteClient r.base client = some s' ∧ Inv s' := by
      intro hRead
      obtain ⟨s', hRun, hInv⟩ := (h.read hRead).disconnect c
      unfold StreamsService.virtualStreamDisconnect at hRun
      rw [hFind] at hRun
      exact ⟨s', hRun, hInv⟩
    unfold StreamsService.deleteClient at hRead
    rw [if_pos hRef] at hRead
    unfold deleteClient
    rw [if_neg (not_not_intro hRef)]
    by_cases hZero : (removeClient r.base client).refCnt = 0
    · obtain ⟨hNone, hDeleted⟩ := hLast hZero
      rw [if_pos hZero, if_pos ⟨hNone, hDeleted⟩] at hRead ⊢
      refine ⟨?_, { hRing with },
        ⟨hCounted.channels, hCounted.refCnt, fun _ => ⟨hMagic, hDeleted, hNone⟩, hCounted.freed⟩,
        hPosted'⟩
      intro hAgain
      obtain ⟨s', hSame, hInv⟩ := hRead (hAccess.symm.trans hAgain)
      exact (Option.some.inj hSame) ▸ hInv
    · rw [if_neg hZero] at hRead ⊢
      split
      · rename_i hWrite
        exact ⟨fun hAgain => absurd (hWrite.symm.trans hAgain) (by decide), hRing',
          hCounted, hPosted'⟩
      · rename_i hAgain
        obtain ⟨s', hRun, hInv⟩ := hRead (hAccess.symm.trans hAgain)
        rw [hRun]
        exact ⟨fun _ => hInv, hInv.ring, hInv.counted, fun hSome =>
          absurd (hAgain.symm.trans (hPosted' hSome).1) (by decide)⟩

/-! ## Owners and posted events -/

/-- A step of the stream itself. -/
theorem safe_orAssert (h : Good r) (hRead : r.access = .remoteRead → ∃ s', o = some s' ∧ Inv s')
    (hWrite : r.access = .remoteWrite → ∃ s', o = some s' ∧ RingOk s' ∧ Counted s' ∧
      (r.dataAvailablePosted = true → s'.magic = true)) : Safe Good (orAssert r o) := by
  cases hAccess : r.access with
  | remoteRead =>
    obtain ⟨s', rfl, hInv⟩ := hRead hAccess
    exact h.ofInv hAccess hInv
  | remoteWrite =>
    obtain ⟨s', rfl, hRing, hCounted, hMagic⟩ := hWrite hAccess
    exact ⟨fun hAgain => absurd hAgain (ne_remoteRead hAccess), hRing, hCounted,
      fun hPosted => ⟨hAccess, hMagic hPosted⟩⟩

/-- `virtual_stream_delete` -/
theorem safe_delete (h : Good r) (hDeleted : r.base.deleted = false) :
    Safe Good (virtualStreamDelete r) := by
  refine safe_orAssert h (fun hRead => (h.read hRead).delete hDeleted) fun _ => ?_
  obtain ⟨posted, hRun, hCounted⟩ := h.counted.delete hDeleted
  have hRing := h.ring
  exact ⟨_, hRun, { hRing with },
    hCounted, fun _ => h.counted.magic_of_deleted hDeleted⟩

/-- `delete_stream` -/
theorem safe_deleteStream (h : Good r) (hPosted : r.base.deletePosted = true)
    (hSpace : r.base.spaceAvailablePosted = false) (hData : r.dataAvailablePosted = false) :
    Safe Good (deleteStream r) := by
  refine safe_orAssert h (fun hRead => (h.read hRead).deleteStream hPosted hSpace) fun _ => ?_
  obtain ⟨hRun, hCounted⟩ := h.counted.deleteStream hPosted hSpace
  have hRing := h.ring
  refine ⟨_, hRun, { hRing with }, hCounted, ?_⟩
  intro hSome
  exact absurd (hData.symm.trans hSome) Bool.false_ne_true

/-- `notify_space_available` -/
theorem safe_notifySpaceAvailable (h : Good r) (hPosted : r.base.spaceAvailablePosted = true) :
    Safe Good (notifySpaceAvailable r) := by
  refine safe_orAssert h (fun hRead => (h.read hRead).notifySpaceAvailable hPosted) fun _ => ?_
  obtain ⟨hRun, hCounted⟩ := h.counted.notifySpaceAvailable hPosted
  have hRing := h.ring
  exact ⟨_, hRun, { hRing with },
    hCounted, fun hSome => (h.posted hSome).2⟩

/-- `notify_data_available` -/
theorem safe_notifyDataAvailable (h : Good r) (hPosted : r.dataAvailablePosted = true) :
    Safe Good (notifyDataAvailable r) := by
  unfold notifyDataAvailable
  rw [if_neg (not_not_intro (h.posted hPosted).2)]
  exact ⟨h.read, h.ring, h.counted, fun hAgain => absurd hAgain Bool.false_ne_true⟩

end

end TcfAgent.StreamCommands
