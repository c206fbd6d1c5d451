import TcfAgent.Lib.Ring
import TcfAgent.Lib.Run

/-!
# Virtual streams

`services/streamsservice.c`, for one stream with `VS_ENABLE_REMOTE_READ`: the owner of
the stream adds data to a circular buffer, and every client reads all of it at its own
pace. The stream and each client have an absolute position (the number of bytes that
went past it, a `uint64_t`), and `buf_out` follows the slowest client.

A client that has read everything may leave read requests behind; `addData` answers
them. The hash table of clients is left out (`find_client` looks for the channel in the
list of the stream), and so is the remote write side. The assertions of the source are
the `none` of the functions.

The state adds to the source's fields what an observer sees: all bytes accepted so far,
for each client the position at which it was connected and the replies it was sent, and
the clients that were deleted. Every reply is stamped with the number of bytes accepted
and the end-of-stream flag at the time it was sent.

Main results:

* `sendReadReply_spec`        — one reply carries the next bytes the client has not seen,
  taken from both ends of the buffer when they wrap around;
* `advanceStreamBuffer_spec`  — the room that is given back is what all clients have read;
* `virtualStream_run`         — over every run: no assertion fails, every client receives a
  prefix of the bytes accepted since it was connected, and the bytes it has not read are
  still in the buffer.
-/

namespace TcfAgent.StreamsService

open TcfAgent.Lib
open TcfAgent.Lib.Ring (Holds store load)

/-! ## Subscriptions -/

/-- `strlcpy(dst, src, size)`, a C string being the bytes before its zero. -/
def strlcpy (src : List UInt8) (size : Nat) : List UInt8 := src.take (size - 1)

structure Subscription where
  type    : List UInt8
  channel : Nat
deriving DecidableEq, Repr

/-- `none` is the error "Already subscribed". -/
def virtualStreamSubscribe (subscriptions : List Subscription) (c : Nat) (type : List UInt8) :
    Option (List Subscription) :=
  if subscriptions.any (fun h => h.channel == c && type == h.type) then none
  else some ({ type := strlcpy type 256, channel := c } :: subscriptions)

/-- `none` is the error `ERR_INV_CONTEXT`. -/
def virtualStreamUnsubscribe (subscriptions : List Subscription) (c : Nat) (type : List UInt8) :
    Option (List Subscription) :=
  if subscriptions.any (fun h => h.channel == c && type == h.type) then
    some (subscriptions.eraseP fun h => h.channel == c && type == h.type)
  else none

inductive Command where
  | subscribe (c : Nat) (type : List UInt8)
  | unsubscribe (c : Nat) (type : List UInt8)
  | channelClosed (c : Nat)

/-- `command_subscribe` and `command_unsubscribe` read the type into `char type[256]`;
after an error the list is as it was. -/
def command (subscriptions : List Subscription) : Command → List Subscription
  | .subscribe c type =>
    (virtualStreamSubscribe subscriptions c (strlcpy type 256)).getD subscriptions
  | .unsubscribe c type =>
    (virtualStreamUnsubscribe subscriptions c (strlcpy type 256)).getD subscriptions
  | .channelClosed c => subscriptions.filter (·.channel != c)

/-- The list `subscriptions` after some commands. -/
def subscriptionsAfter (commands : List Command) : List Subscription :=
  commands.foldl command []

/-! ## The stream -/

structure ReadRequest where
  token : List UInt8
  size  : Nat
deriving DecidableEq, Repr

inductive ReplyError where
  | none
  | commandCancelled
deriving DecidableEq, Repr

/-- The reply to a `read` command; no data is written as `null`. -/
structure ReadReply where
  token : List UInt8
  data  : List UInt8
  error : ReplyError
  lost  : Nat
  eos   : Bool
deriving DecidableEq, Repr

/-- A reply, with the bytes accepted and the end-of-stream flag when it was sent. -/
structure Sent where
  reply    : ReadReply
  accepted : Nat
  eosInp   : Bool
deriving DecidableEq, Repr

/-- `channel`, `pos` and `readRequests` are the source's fields. -/
structure StreamClient where
  channel      : Nat
  pos          : Nat
  readRequests : List ReadRequest := []
  start        : Nat
  sent         : List Sent := []
deriving DecidableEq, Repr

/-- `magic` holds until the stream is freed. `accepted`, `closed` and `deletePosted` (the
event `delete_stream` is queued) are no fields of the source. -/
structure VirtualStream where
  magic                : Bool := true
  refCnt               : Nat := 1
  deleted              : Bool := false
  clients              : List StreamClient := []
  pos                  : Nat := 0
  buf                  : Nat → UInt8
  bufLen               : Nat
  bufInp               : Nat := 0
  bufOut               : Nat := 0
  eosInp               : Bool := false
  spaceAvailablePosted : Bool := false
  deletePosted         : Bool := false
  accepted             : List UInt8 := []
  closed               : List StreamClient := []

/-- `(buf_inp + buf_len - buf_out) % buf_len` -/
def VirtualStream.dataSize (s : VirtualStream) : Nat :=
  (s.bufInp + s.bufLen - s.bufOut) % s.bufLen

/-- `find_client`, among the clients of this stream. -/
def VirtualStream.findClient (s : VirtualStream) (c : Nat) : Option StreamClient :=
  s.clients.find? (·.channel == c)

/-- The fields of one client are assigned. -/
def VirtualStream.setClient (s : VirtualStream) (client : StreamClient) : VirtualStream :=
  { s with clients := s.clients.map fun k => if k.channel = client.channel then client else k }

def createClient (s : VirtualStream) (channel : Nat) : VirtualStream :=
  let pos := (s.pos + 2 ^ 64 - s.dataSize) % 2 ^ 64
  { s with
    clients := { channel := channel, pos := pos, start := s.accepted.length - s.dataSize }
      :: s.clients
    refCnt := s.refCnt + 1 }

def virtualStreamCreate (subscriptions : List Subscription) (type : List UInt8) (bufLen : Nat) :
    VirtualStream :=
  (subscriptions.filter (·.type == type)).foldl (fun s h => createClient s h.channel)
    { buf := fun _ => 0, bufLen := bufLen + 1 }

/-- The smallest position of a client; `~(uint64_t)0` when there is none. -/
def minPos (clients : List StreamClient) : Nat :=
  clients.foldl (fun m client => if client.pos < m then client.pos else m) (2 ^ 64 - 1)

/-- The new `buf_out`. -/
def advanceOut (s : VirtualStream) : Option Nat :=
  let len := s.dataSize
  let bufPos := (s.pos + 2 ^ 64 - len) % 2 ^ 64
  if s.clients.all (·.pos ≤ s.pos) then
    let m := minPos s.clients
    if m = 2 ^ 64 - 1 then some s.bufInp
    else if bufPos < m then
      if m - bufPos ≤ len then some ((s.bufOut + (m - bufPos) % 2 ^ 32) % s.bufLen) else none
    else some s.bufOut
  else none

def advanceStreamBuffer (s : VirtualStream) : Option VirtualStream :=
  let len := s.dataSize
  (advanceOut s).map fun bufOut =>
    let s := { s with bufOut := bufOut }
    { s with spaceAvailablePosted := s.spaceAvailablePosted || len != s.dataSize }

/-- A reply written to the channel of the client. -/
def reply (s : VirtualStream) (client : StreamClient) (r : ReadReply) : StreamClient :=
  { client with sent := client.sent ++ [⟨r, s.accepted.length, s.eosInp⟩] }

def sendReadReply (s : VirtualStream) (client : StreamClient) (token : List UInt8) (size : Nat) :
    Option StreamClient :=
  if (0 < s.dataSize ∨ s.eosInp) ∧ client.pos ≤ s.pos then
    let lag := s.pos - client.pos
    let lost := if s.dataSize < lag then lag - s.dataSize else 0
    let len := if s.dataSize < lag then s.dataSize else lag % 2 ^ 32
    let pos := (s.bufInp + s.bufLen - len) % s.bufLen
    let len := min len size
    let read1 := if pos + len ≤ s.bufLen then len else s.bufLen - pos
    let read2 := if pos + len ≤ s.bufLen then 0 else len - read1
    let clientPos := (client.pos + lost + read1 + read2) % 2 ^ 64
    if read1 + read2 = len ∧ clientPos ≤ s.pos then
      let eos := clientPos == s.pos && s.eosInp
      if eos ∨ 0 < lost + read1 + read2 then
        some (reply s { client with pos := clientPos }
          { token := token
            data := load s.buf pos read1 ++ load s.buf 0 read2
            error := .none
            lost := lost
            eos := eos })
      else none
    else none
  else none

/-- `delete_read_request` -/
def deleteReadRequest (s : VirtualStream) (client : StreamClient) (r : ReadRequest) :
    StreamClient :=
  reply s client
    { token := r.token, data := [], error := .commandCancelled, lost := 0, eos := true }

/-- The `while` loop over the read requests of one client. -/
def answerRequests (s : VirtualStream) (client : StreamClient) :
    List ReadRequest → Option StreamClient
  | [] => some { client with readRequests := [] }
  | r :: rs =>
    if client.pos < s.pos ∨ s.eosInp then
      (sendReadReply s client r.token r.size).bind fun client => answerRequests s client rs
    else some { client with readRequests := r :: rs }

/-- The loop over the clients of the stream. -/
def answerClients (s : VirtualStream) : List StreamClient → Option (List StreamClient)
  | [] => some []
  | client :: rest =>
    (answerRequests s client client.readRequests).bind fun client =>
      (answerClients s rest).map (client :: ·)

/-- The number of bytes `virtual_stream_add_data` takes, `*data_size`. -/
def acceptedSize (s : VirtualStream) (buf : List UInt8) : Nat :=
  min ((s.bufOut + s.bufLen - s.bufInp - 1) % s.bufLen) buf.length

/-- The bytes are copied behind `buf_inp`. -/
def storeData (s : VirtualStream) (bytes : List UInt8) : VirtualStream :=
  let x := s.bufLen - s.bufInp
  { s with
    buf :=
      if s.bufInp + bytes.length ≤ s.bufLen then store s.buf s.bufInp bytes
      else store (store s.buf s.bufInp (bytes.take x)) 0 (bytes.drop x)
    bufInp := (s.bufInp + bytes.length) % s.bufLen
    pos := (s.pos + bytes.length) % 2 ^ 64
    accepted := s.accepted ++ bytes }

/-- The read requests that can be answered now, and the room this makes. -/
def answer (s : VirtualStream) : Option VirtualStream :=
  (answerClients s s.clients).bind fun clients => advanceStreamBuffer { s with clients := clients }

def virtualStreamAddData (s : VirtualStream) (buf : List UInt8) (eos : Bool) :
    Option VirtualStream :=
  if ¬ s.magic then none
  else if s.eosInp then some s -- ERR_EOF
  else
    let len := acceptedSize s buf
    let s := storeData s (buf.take len)
    let s := if eos ∧ buf.length = len then { s with eosInp := true } else s
    if s.eosInp ∨ 0 < len then answer s else some s

/-- A channel that is no client of the stream gets an error, which changes nothing here. -/
def virtualStreamRead (s : VirtualStream) (c : Nat) (token : List UInt8) (size : Nat) :
    Option VirtualStream :=
  match s.findClient c with
  | none => some s
  | some client =>
    if client.pos = s.pos ∧ ¬ s.eosInp then
      let r : ReadRequest := { token := strlcpy token 256, size := size }
      some (s.setClient { client with readRequests := client.readRequests ++ [r] })
    else if client.readRequests = [] then
      (sendReadReply s client token size).bind fun client =>
        advanceStreamBuffer (s.setClient client)
    else none

/-- `virtual_stream_find` does not find a stream that is deleted. -/
def virtualStreamConnect (s : VirtualStream) (c : Nat) : VirtualStream :=
  match s.findClient c with
  | some _ => s
  | none => if s.deleted then s else createClient s c

/-- The client leaves the list, its requests are cancelled. -/
def removeClient (s : VirtualStream) (client : StreamClient) : VirtualStream :=
  let client' := client.readRequests.foldl (deleteReadRequest s) client
  { s with
    clients := s.clients.filter (·.channel != client.channel)
    closed := s.closed ++ [{ client' with readRequests := [] }]
    refCnt := s.refCnt - 1 }

def deleteClient (s : VirtualStream) (client : StreamClient) : Option VirtualStream :=
  if 0 < s.refCnt then
    let s := removeClient s client
    if s.refCnt = 0 then
      if s.clients = [] ∧ s.deleted then some { s with deletePosted := true } else none
    else advanceStreamBuffer s
  else none

/-- Also `channel_close_listener`, for a channel left connected. -/
def virtualStreamDisconnect (s : VirtualStream) (c : Nat) : Option VirtualStream :=
  match s.findClient c with
  | none => some s
  | some client => deleteClient s client

def virtualStreamDelete (s : VirtualStream) : Option VirtualStream :=
  if s.magic ∧ ¬ s.deleted then
    let s := { s with deleted := true, refCnt := s.refCnt - 1 }
    if 0 < s.refCnt then some s
    else if s.clients = [] then some { s with deletePosted := true } else none
  else none

/-- The event handler `delete_stream`. -/
def deleteStream (s : VirtualStream) : Option VirtualStream :=
  if s.magic ∧ s.clients = [] ∧ s.deleted then
    some { s with magic := false, deletePosted := false }
  else none

/-- The event handler `notify_space_available`, up to the call of the owner. -/
def notifySpaceAvailable (s : VirtualStream) : Option VirtualStream :=
  if s.magic then some { s with spaceAvailablePosted := false } else none

/-- Calls of the owner and of the clients. -/
inductive Event where
  | addData (buf : List UInt8) (eos : Bool)
  | read (c : Nat) (token : List UInt8) (size : Nat)
  | connect (c : Nat)
  | disconnect (c : Nat)
  | delete
  | deleteStream
  | notifySpaceAvailable

def step (s : VirtualStream) : Event → Option VirtualStream
  | .addData buf eos => virtualStreamAddData s buf eos
  | .read c token size => virtualStreamRead s c token size
  | .connect c => some (virtualStreamConnect s c)
  | .disconnect c => virtualStreamDisconnect s c
  | .delete => virtualStreamDelete s
  | .deleteStream => deleteStream s
  | .notifySpaceAvailable => notifySpaceAvailable s

/-- What the callers keep to: the owner does not use a stream it has deleted, a read asks
for at least one byte, posted events run in the order in which they were posted, and less
than 2^64 bytes are accepted in all. -/
def Allowed (s : VirtualStream) : Event → Prop
  | .addData buf _ => s.deleted = false ∧ s.accepted.length + acceptedSize s buf < 2 ^ 64
  | .read _ _ size => 0 < size
  | .connect _ => True
  | .disconnect _ => True
  | .delete => s.deleted = false
  | .deleteStream => s.deletePosted ∧ ¬ s.spaceAvailablePosted
  | .notifySpaceAvailable => s.spaceAvailablePosted

instance (s : VirtualStream) (e : Event) : Decidable (Allowed s e) := by
  cases e <;> unfold Allowed <;> infer_instance

/-! ## What a client has received -/

/-- The concatenation of the data in the replies. -/
def received (sent : List Sent) : List UInt8 :=
  sent.flatMap (·.reply.data)

/-- Nothing is lost, and `eos` says that the stream has ended and that the client, with
this reply, has everything. A cancelled request is answered with no data and with `eos`. -/
structure ReplyOk (start : Nat) (earlier : List Sent) (r : Sent) : Prop where
  lost : r.reply.lost = 0
  eos : r.reply.error = .none →
    (r.reply.eos = true ↔
      r.eosInp = true ∧ start + (received (earlier ++ [r])).length = r.accepted)
  cancelled : r.reply.error = .commandCancelled → r.reply.data = [] ∧ r.reply.eos = true

/-- What was sent to a client that was connected at position `start`. -/
structure Delivered (accepted : List UInt8) (start : Nat) (sent : List Sent) : Prop where
  data : received sent <+: accepted.drop start
  replies : ∀ earlier r, earlier ++ [r] <+: sent → ReplyOk start earlier r

/-- The bytes the client has not received are in the buffer, behind `buf_inp`. -/
structure Unread (s : VirtualStream) (client : StreamClient) : Prop where
  pos : client.start + (received client.sent).length = client.pos
  le : client.pos ≤ s.accepted.length
  lag : s.accepted.length - client.pos < s.bufLen
  holds : Holds s.buf s.bufLen (s.bufInp + s.bufLen - (s.accepted.length - client.pos))
    (s.accepted.drop client.pos)

/-! ## The circular buffer and the absolute positions -/

/-- The buffer holds the last `dataSize` bytes accepted. -/
structure RingOk (s : VirtualStream) : Prop where
  size : s.bufLen ≤ 2 ^ 32
  inp : s.bufInp < s.bufLen
  out : s.bufOut < s.bufLen
  pos : s.pos = s.accepted.length
  small : s.accepted.length < 2 ^ 64
  le : s.dataSize ≤ s.accepted.length
  holds : Holds s.buf s.bufLen s.bufOut (s.accepted.drop (s.accepted.length - s.dataSize))

/-- `(i + n - j) % n` without the remainder. -/
theorem distance_eq {n i j : Nat} (hi : i < n) (hj : j < n) :
    (i + n - j) % n = if j ≤ i then i - j else i + n - j := by
  split_ifs with h
  · have hWrap : i + n - j = (i - j) + n := by omega
    rw [hWrap, Nat.add_mod_right, Nat.mod_eq_of_lt (by omega)]
  · exact Nat.mod_eq_of_lt (by omega)

/-- The same for a sum of two numbers up to `n`. -/
theorem wrap_eq {n i k : Nat} (hi : i < n) (hk : k ≤ n) :
    (i + k) % n = if i + k < n then i + k else i + k - n := by
  split_ifs with h
  · exact Nat.mod_eq_of_lt h
  · rw [Nat.mod_eq_sub_mod (by omega), Nat.mod_eq_of_lt (by omega)]

variable {s : VirtualStream}

theorem RingOk.dataSize_eq (h : RingOk s) :
    s.dataSize =
      if s.bufOut ≤ s.bufInp then s.bufInp - s.bufOut else s.bufInp + s.bufLen - s.bufOut :=
  distance_eq h.inp h.out

theorem RingOk.dataSize_lt (h : RingOk s) : s.dataSize < s.bufLen :=
  Nat.mod_lt _ (Nat.zero_lt_of_lt h.inp)

/-- `buf_inp` is `dataSize` cells behind `buf_out`. -/
theorem RingOk.inp_eq (h : RingOk s) :
    s.bufInp = (s.bufOut + s.dataSize) % s.bufLen := by
  have hInp := h.inp
  have hOut := h.out
  rw [wrap_eq hOut (Nat.le_of_lt h.dataSize_lt), h.dataSize_eq]
  split_ifs <;> omega

/-- One cell always stays free. -/
theorem RingOk.acceptedSize_eq (h : RingOk s) (buf : List UInt8) :
    acceptedSize s buf = min (s.bufLen - 1 - s.dataSize) buf.length := by
  have hInp := h.inp
  have hOut := h.out
  unfold acceptedSize
  congr 1
  rw [h.dataSize_eq]
  rcases Nat.lt_or_ge s.bufInp s.bufOut with hlt | hge
  · have hWrap : s.bufOut + s.bufLen - s.bufInp - 1 = (s.bufOut - s.bufInp - 1) + s.bufLen := by
      omega
    rw [hWrap, Nat.add_mod_right, Nat.mod_eq_of_lt (by omega), if_neg (by omega)]
    omega
  · rw [if_pos hge, Nat.mod_eq_of_lt (by omega)]
    omega

/-- The position of the oldest byte in the buffer. -/
theorem RingOk.bufPos_eq (h : RingOk s) :
    (s.pos + 2 ^ 64 - s.dataSize) % 2 ^ 64 = s.accepted.length - s.dataSize := by
  have hLe := h.le
  have hSmall := h.small
  have hWrap : s.pos + 2 ^ 64 - s.dataSize = (s.accepted.length - s.dataSize) + 2 ^ 64 := by
    rw [h.pos]
    omega
  rw [hWrap, Nat.add_mod_right, Nat.mod_eq_of_lt (by omega)]

/-- The last `lag` bytes accepted, seen from `buf_inp`. -/
theorem RingOk.holds_back (h : RingOk s) {lag : Nat} (hLag : lag ≤ s.dataSize) :
    Holds s.buf s.bufLen ((s.bufInp + s.bufLen - lag) % s.bufLen)
      (s.accepted.drop (s.accepted.length - lag)) := by
  have hLe := h.le
  have hLt := h.dataSize_lt
  have hInp := h.inp
  have hOut := h.out
  have hDrop := h.holds.drop (k := s.dataSize - lag) (by rw [List.length_drop]; omega)
  rw [List.drop_drop] at hDrop
  have hPos : s.accepted.length - s.dataSize + (s.dataSize - lag) = s.accepted.length - lag := by
    omega
  rw [hPos] at hDrop
  refine (Ring.holds_congr ?_).mp hDrop
  rw [Nat.mod_mod, wrap_eq hOut (by omega), distance_eq hInp (by omega)]
  have hSize := h.dataSize_eq
  split_ifs at hSize ⊢ <;> omega

/-- The accepted bytes go behind what is held. -/
theorem RingOk.storeData (h : RingOk s) {bytes : List UInt8}
    (hRoom : bytes.length ≤ s.bufLen - 1 - s.dataSize)
    (hSmall : s.accepted.length + bytes.length < 2 ^ 64) :
    RingOk (storeData s bytes) ∧
      (storeData s bytes).dataSize = s.dataSize + bytes.length := by
  have hLt := h.dataSize_lt
  have hInp := h.inp
  have hOut := h.out
  have hLe := h.le
  have hSize : (StreamsService.storeData s bytes).dataSize = s.dataSize + bytes.length := by
    show ((s.bufInp + bytes.length) % s.bufLen + s.bufLen - s.bufOut) % s.bufLen = _
    have hOld := h.dataSize_eq
    have hNew : (s.bufInp + bytes.length) % s.bufLen < s.bufLen := Nat.mod_lt _ (by omega)
    rw [distance_eq hNew hOut, wrap_eq hInp (by omega)]
    split_ifs at hOld ⊢ <;> omega
  have hLen : (s.accepted.drop (s.accepted.length - s.dataSize)).length = s.dataSize := by
    rw [List.length_drop]
    omega
  have hBuf : Holds (StreamsService.storeData s bytes).buf s.bufLen s.bufOut
      (s.accepted.drop (s.accepted.length - s.dataSize) ++ bytes) := by
    have hEnd : s.bufInp = (s.bufOut + (s.accepted.drop (s.accepted.length - s.dataSize)).length)
        % s.bufLen := by
      rw [hLen]
      exact h.inp_eq
    by_cases hFits : s.bufInp + bytes.length ≤ s.bufLen
    · have hStore : (StreamsService.storeData s bytes).buf = store s.buf s.bufInp bytes :=
        if_pos hFits
      rw [hStore]
      exact Ring.holds_store h.holds hEnd hFits (by omega)
    · have hStore : (StreamsService.storeData s bytes).buf =
          store (store s.buf s.bufInp (bytes.take (s.bufLen - s.bufInp))) 0
            (bytes.drop (s.bufLen - s.bufInp)) := if_neg hFits
      rw [hStore]
      exact Ring.holds_store_wrap (by omega) h.holds hEnd (by omega) (by omega)
  refine ⟨⟨h.size, Nat.mod_lt _ (by omega), hOut, ?_, ?_, ?_, ?_⟩, hSize⟩
  · show (s.pos + bytes.length) % 2 ^ 64 = (s.accepted ++ bytes).length
    rw [h.pos, List.length_append, Nat.mod_eq_of_lt hSmall]
  · show (s.accepted ++ bytes).length < 2 ^ 64
    rwa [List.length_append]
  · rw [hSize]
    show _ ≤ (s.accepted ++ bytes).length
    rw [List.length_append]
    omega
  · rw [hSize]
    show Holds _ s.bufLen s.bufOut
      ((s.accepted ++ bytes).drop ((s.accepted ++ bytes).length - (s.dataSize + bytes.length)))
    have hPos : (s.accepted ++ bytes).length - (s.dataSize + bytes.length) =
        s.accepted.length - s.dataSize := by
      rw [List.length_append]
      omega
    rw [hPos, List.drop_append_of_le_length (by omega)]
    exact hBuf

/-! ## Replies -/

@[simp] theorem received_append (sent sent' : List Sent) :
    received (sent ++ sent') = received sent ++ received sent' := by
  simp [received]

@[simp] theorem received_singleton (r : Sent) : received [r] = r.reply.data := by
  simp [received]

theorem delivered_nil (accepted : List UInt8) (start : Nat) : Delivered accepted start [] := by
  refine ⟨List.nil_prefix, ?_⟩
  intro earlier r h
  simp at h

/-- One more reply, with the bytes that follow those received. -/
theorem Delivered.concat {accepted : List UInt8} {start : Nat} {sent : List Sent}
    (h : Delivered accepted start sent) {r : Sent} (hr : ReplyOk start sent r)
    (hData : received sent ++ r.reply.data <+: accepted.drop start) :
    Delivered accepted start (sent ++ [r]) := by
  refine ⟨by simpa using hData, ?_⟩
  intro earlier r' hPre
  rcases List.prefix_concat_iff.mp hPre with hEq | hPre
  · obtain ⟨rfl, hLast⟩ := List.append_inj' hEq rfl
    cases hLast
    exact hr
  · exact h.replies earlier r' hPre

/-- What is accepted later changes nothing of what was delivered. -/
theorem Delivered.grow {accepted : List UInt8} {start : Nat} {sent : List Sent}
    (h : Delivered accepted start sent) (bytes : List UInt8) :
    Delivered (accepted ++ bytes) start sent := by
  refine ⟨h.data.trans ?_, h.replies⟩
  rw [List.drop_append]
  exact List.prefix_append _ _

/-- A client in step with the stream: what it was sent ends at its position, and what
follows is in the buffer. -/
structure Follows (s : VirtualStream) (client : StreamClient) : Prop where
  low : s.accepted.length ≤ client.pos + s.dataSize
  high : client.pos ≤ s.accepted.length
  pos : client.start + (received client.sent).length = client.pos
  sent : Delivered s.accepted client.start client.sent
  sizes : ∀ r ∈ client.readRequests, 0 < r.size

/-- Requests are left behind only by a client that has read everything. -/
def Waits (s : VirtualStream) (client : StreamClient) : Prop :=
  client.readRequests ≠ [] → client.pos = s.accepted.length ∧ s.eosInp = false

variable {client : StreamClient}

/-- The bytes received end where the position says. -/
theorem Follows.received_eq (h : Follows s client) :
    received client.sent ++ s.accepted.drop client.pos = s.accepted.drop client.start := by
  rw [← h.pos, ← List.drop_drop]
  exact List.prefix_iff_eq_append.mp h.sent.data

/-- The next bytes extend what was received to a prefix again. -/
theorem Follows.prefix_take (h : Follows s client)
    (k : Nat) :
    received client.sent ++ (s.accepted.drop client.pos).take k <+:
      s.accepted.drop client.start := by
  rw [← h.received_eq]
  exact (List.prefix_append_right_inj _).mpr (List.take_prefix _ _)

/-- The reply as the accepted bytes give it: the next ones, at most `size` of them. -/
def nextReply (s : VirtualStream) (client : StreamClient) (token : List UInt8) (size : Nat) :
    StreamClient :=
  let data := (s.accepted.drop client.pos).take size
  reply s { client with pos := client.pos + data.length }
    { token := token
      data := data
      error := .none
      lost := 0
      eos := client.pos + data.length == s.accepted.length && s.eosInp }

variable {size : Nat}

/-- The circular buffer gives the reply that the accepted bytes give. -/
theorem sendReadReply_eq (hs : RingOk s)
    (h : Follows s client) (hSize : 0 < size ∨ client.pos = s.accepted.length)
    (hData : client.pos < s.accepted.length ∨ s.eosInp = true) (token : List UInt8) :
    sendReadReply s client token size = some (nextReply s client token size) := by
  have hLow := h.low
  have hHigh := h.high
  have hLt := hs.dataSize_lt
  have hSmall := hs.small
  have hBuf := hs.size
  have hp := hs.pos
  -- the lag fits in the buffer, so nothing is lost and the conversion to `unsigned` is exact
  have hLag : s.accepted.length - client.pos ≤ s.dataSize := by omega
  have hNotLost : ¬ s.dataSize < s.accepted.length - client.pos := by omega
  have hMod : (s.accepted.length - client.pos) % 2 ^ 32 = s.accepted.length - client.pos :=
    Nat.mod_eq_of_lt (by omega)
  have hHolds := hs.holds_back hLag
  have hBack : s.accepted.length - (s.accepted.length - client.pos) = client.pos := by omega
  rw [hBack] at hHolds
  have hStart : (s.bufInp + s.bufLen - (s.accepted.length - client.pos)) % s.bufLen < s.bufLen :=
    Nat.mod_lt _ (by omega)
  have hLen : (s.accepted.drop client.pos).length = s.accepted.length - client.pos :=
    List.length_drop
  generalize hp0 : (s.bufInp + s.bufLen - (s.accepted.length - client.pos)) % s.bufLen = p
    at hHolds hStart
  generalize hk0 : min (s.accepted.length - client.pos) size = k
  have hTake : (s.accepted.drop client.pos).take size = (s.accepted.drop client.pos).take k := by
    rw [← hk0, ← hLen, Nat.min_comm, ← List.take_eq_take_min]
  have hTakeLen : ((s.accepted.drop client.pos).take k).length = k := by
    rw [List.length_take]
    omega
  generalize hr1 : (if p + k ≤ s.bufLen then k else s.bufLen - p) = read1
  generalize hr2 : (if p + k ≤ s.bufLen then 0 else k - read1) = read2
  have hBoth : read1 + read2 = k := by
    rw [← hr2, ← hr1]
    split_ifs <;> omega
  -- two loads, one up to the end of the ring and one from its start
  have hLoad : load s.buf p read1 ++ load s.buf 0 read2 = (s.accepted.drop client.pos).take k := by
    by_cases hFits : p + k ≤ s.bufLen
    · rw [if_pos hFits] at hr1 hr2
      rw [← hr1, ← hr2, Ring.load_eq_of_holds hHolds hFits (by omega)]
      simp [load]
    · rw [if_neg hFits] at hr1 hr2
      rw [← hr2, ← hr1]
      exact Ring.load_wrap_of_holds hHolds hStart (by omega) (by omega) (by omega)
  have hClientPos : (client.pos + 0 + read1 + read2) % 2 ^ 64 = client.pos + k := by
    rw [Nat.mod_eq_of_lt (by omega)]
    omega
  have hSome : 0 < s.dataSize ∨ s.eosInp = true := hData.imp_left (by omega)
  unfold sendReadReply
  rw [hp, if_pos ⟨hSome, hHigh⟩]
  simp only [if_neg hNotLost, hMod, hp0, hk0, hr1, hr2, hClientPos]
  rw [if_pos ⟨hBoth, by omega⟩, if_pos]
  · simp only [nextReply, hTake, hTakeLen, hLoad]
  · -- either all is read and the stream has ended, or there is data in the reply
    rcases Nat.eq_zero_or_pos k with hZero | hPos
    · left
      have hEnd : client.pos + k = s.accepted.length := by omega
      have hEos : s.eosInp = true := by
        rcases hData with hData | hData
        · omega
        · exact hData
      simp [hEnd, hEos]
    · right
      omega

/-- After the reply the client is in step again. -/
theorem Follows.nextReply (h : Follows s client)
    (token : List UInt8) (size : Nat) : Follows s (nextReply s client token size) := by
  obtain ⟨hLow, hHigh, hPos, hSent, hSizes⟩ := id h
  have hLen : ((s.accepted.drop client.pos).take size).length ≤ s.accepted.length - client.pos := by
    rw [List.length_take, List.length_drop]
    exact Nat.min_le_right _ _
  refine ⟨?_, ?_, ?_, ?_, hSizes⟩
  · show s.accepted.length ≤
      client.pos + ((s.accepted.drop client.pos).take size).length + s.dataSize
    omega
  · show client.pos + ((s.accepted.drop client.pos).take size).length ≤ s.accepted.length
    omega
  · show client.start + (received (client.sent ++ [_])).length = _
    rw [received_append, List.length_append, received_singleton, ← Nat.add_assoc, hPos]
    rfl
  · refine hSent.concat ⟨rfl, ?_, ?_⟩ (h.prefix_take size)
    · intro _
      rw [received_append, List.length_append, received_singleton, ← Nat.add_assoc, hPos]
      simp [and_comm]
    · intro hError
      cases hError

/-- One reply: it is sent, and the client stays in step. -/
theorem sendReadReply_spec (hs : RingOk s)
    (h : Follows s client) (hSize : 0 < size ∨ client.pos = s.accepted.length)
    (hData : client.pos < s.accepted.length ∨ s.eosInp = true) (token : List UInt8) :
    ∃ client', sendReadReply s client token size = some client' ∧ Follows s client' ∧
      client'.channel = client.channel ∧ client'.readRequests = client.readRequests :=
  ⟨_, sendReadReply_eq hs h hSize hData token, h.nextReply token size, rfl, rfl⟩

theorem Follows.withRequests (h : Follows s client)
    {rs : List ReadRequest} (hSizes : ∀ r ∈ rs, 0 < r.size) :
    Follows s { client with readRequests := rs } :=
  ⟨h.low, h.high, h.pos, h.sent, hSizes⟩

/-- The requests of one client are answered until it has read everything. -/
theorem answerRequests_spec (hs : RingOk s) {rs : List ReadRequest}
    (hSizes : ∀ r ∈ rs, 0 < r.size) (h : Follows s client) :
    ∃ client', answerRequests s client rs = some client' ∧ Follows s client' ∧
      Waits s client' ∧ client'.channel = client.channel := by
  induction rs generalizing client with
  | nil =>
    refine ⟨{ client with readRequests := [] }, rfl, h.withRequests (by simp), ?_, rfl⟩
    intro hSome
    exact absurd rfl hSome
  | cons r rs ih =>
    unfold answerRequests
    by_cases hData : client.pos < s.pos ∨ s.eosInp = true
    · rw [if_pos hData]
      rw [hs.pos] at hData
      obtain ⟨client', hSend, h', hChannel, -⟩ :=
        sendReadReply_spec hs h (.inl (hSizes r (List.mem_cons_self ..))) hData r.token
      obtain ⟨last, hLast, hFollows, hWaits, hSame⟩ :=
        ih (fun r' hr' => hSizes r' (List.mem_cons_of_mem _ hr')) h'
      refine ⟨last, ?_, hFollows, hWaits, hSame.trans hChannel⟩
      rw [hSend]
      exact hLast
    · rw [if_neg hData]
      rw [hs.pos, not_or, Bool.not_eq_true] at hData
      refine ⟨{ client with readRequests := r :: rs }, rfl, h.withRequests hSizes, ?_, rfl⟩
      intro _
      have hHigh := h.high
      exact ⟨show client.pos = _ by omega, hData.2⟩

variable {clients : List StreamClient}

theorem answerClients_spec (hs : RingOk s)
    (h : ∀ client ∈ clients, Follows s client) :
    ∃ clients', answerClients s clients = some clients' ∧
      (∀ client ∈ clients', Follows s client ∧ Waits s client) ∧
      clients'.map (·.channel) = clients.map (·.channel) := by
  induction clients with
  | nil => exact ⟨[], rfl, by simp, rfl⟩
  | cons client rest ih =>
    have hHead := h client (List.mem_cons_self ..)
    obtain ⟨client', hOne, hFollows, hWaits, hChannel⟩ :=
      answerRequests_spec hs hHead.sizes hHead
    obtain ⟨rest', hRest, hAll, hChannels⟩ :=
      ih fun k hk => h k (List.mem_cons_of_mem _ hk)
    refine ⟨client' :: rest', ?_, ?_, ?_⟩
    · unfold answerClients
      rw [hOne, Option.bind_some, hRest]
      rfl
    · intro k hk
      rcases List.mem_cons.mp hk with rfl | hk
      · exact ⟨hFollows, hWaits⟩
      · exact hAll k hk
    · rw [List.map_cons, List.map_cons, hChannel, hChannels]

/-! ## The room that is given back -/

/-- Only the bytes accepted and the size of the data matter to a client. -/
theorem Follows.of_dataSize {s s' : VirtualStream} (h : Follows s client)
    (hAccepted : s'.accepted = s.accepted)
    (hLow : s.accepted.length ≤ client.pos + s'.dataSize) : Follows s' client := by
  refine ⟨?_, ?_, h.pos, ?_, h.sizes⟩
  · rwa [hAccepted]
  · rw [hAccepted]
    exact h.high
  · rw [hAccepted]
    exact h.sent

theorem foldl_min_spec (clients : List StreamClient) (m : Nat) :
    let m' := clients.foldl (fun m client => if client.pos < m then client.pos else m) m
    (∀ client ∈ clients, m' ≤ client.pos) ∧ m' ≤ m ∧
      (m' = m ∨ ∃ client ∈ clients, m' = client.pos) := by
  induction clients generalizing m with
  | nil => simp
  | cons client rest ih =>
    obtain ⟨hAll, hLe, hEq⟩ := ih (if client.pos < m then client.pos else m)
    simp only [List.foldl_cons]
    refine ⟨?_, ?_, ?_⟩
    · intro k hk
      rcases List.mem_cons.mp hk with rfl | hk
      · exact hLe.trans (by split_ifs <;> omega)
      · exact hAll k hk
    · exact hLe.trans (by split_ifs <;> omega)
    · rcases hEq with hEq | ⟨k, hk, hEq⟩
      · split_ifs at hEq ⊢ with hlt
        · exact Or.inr ⟨client, List.mem_cons_self .., hEq⟩
        · exact Or.inl hEq
      · exact Or.inr ⟨k, List.mem_cons_of_mem _ hk, hEq⟩

/-- No client is behind the smallest position, and a client is at it unless there is none. -/
theorem minPos_spec (clients : List StreamClient) :
    (∀ client ∈ clients, minPos clients ≤ client.pos) ∧
      (minPos clients = 2 ^ 64 - 1 ∨ ∃ client ∈ clients, minPos clients = client.pos) := by
  obtain ⟨hAll, -, hEq⟩ := foldl_min_spec clients (2 ^ 64 - 1)
  exact ⟨hAll, hEq⟩

/-- `d` bytes are given back. -/
theorem RingOk.advance (h : RingOk s) {d : Nat} (hd : d ≤ s.dataSize)
    (posted : Bool) :
    let s' := { s with
      bufOut := (s.bufOut + d) % s.bufLen
      spaceAvailablePosted := posted }
    RingOk s' ∧ s'.dataSize = s.dataSize - d := by
  intro s'
  have hInp := h.inp
  have hOut := h.out
  have hLt := h.dataSize_lt
  have hLe := h.le
  have hOld := h.dataSize_eq
  have hNew : (s.bufOut + d) % s.bufLen < s.bufLen := Nat.mod_lt _ (by omega)
  have hSize : s'.dataSize = s.dataSize - d := by
    show (s.bufInp + s.bufLen - (s.bufOut + d) % s.bufLen) % s.bufLen = _
    rw [distance_eq hInp hNew, wrap_eq hOut (by omega)]
    split_ifs at hOld ⊢ <;> omega
  refine ⟨⟨h.size, hInp, hNew, h.pos, h.small, ?_, ?_⟩, hSize⟩
  · rw [hSize]
    exact (Nat.sub_le _ _).trans hLe
  · rw [hSize]
    show Holds s.buf s.bufLen ((s.bufOut + d) % s.bufLen)
      (s.accepted.drop (s.accepted.length - (s.dataSize - d)))
    have hDrop := h.holds.drop (k := d) (by rw [List.length_drop]; omega)
    rw [List.drop_drop] at hDrop
    have hPos : s.accepted.length - s.dataSize + d = s.accepted.length - (s.dataSize - d) := by
      omega
    rw [hPos] at hDrop
    exact (Ring.holds_congr (Nat.mod_mod _ _).symm).mp hDrop

/-- `buf_out` moves over bytes that every client has read. -/
theorem advanceOut_spec (hs : RingOk s)
    (h : ∀ client ∈ s.clients, Follows s client) :
    ∃ d, d ≤ s.dataSize ∧ advanceOut s = some ((s.bufOut + d) % s.bufLen) ∧
      ∀ client ∈ s.clients, s.accepted.length ≤ client.pos + (s.dataSize - d) := by
  obtain ⟨hMin, hAttained⟩ := minPos_spec s.clients
  have hSmall := hs.small
  have hLe := hs.le
  have hLt := hs.dataSize_lt
  have hBuf := hs.size
  have hAll : s.clients.all (·.pos ≤ s.pos) = true := by
    rw [List.all_eq_true, hs.pos]
    intro client hClient
    exact decide_eq_true (h client hClient).high
  unfold advanceOut
  simp only [if_pos hAll, hs.bufPos_eq]
  by_cases hNone : minPos s.clients = 2 ^ 64 - 1
  · rw [if_pos hNone]
    refine ⟨s.dataSize, Nat.le_refl _, by rw [← hs.inp_eq], ?_⟩
    intro client hClient
    have := hMin client hClient
    omega
  · rw [if_neg hNone]
    by_cases hBehind : s.accepted.length - s.dataSize < minPos s.clients
    · have hHigh : minPos s.clients ≤ s.accepted.length := by
        rcases hAttained with hEq | ⟨client, hClient, hEq⟩
        · exact absurd hEq hNone
        · rw [hEq]
          exact (h client hClient).high
      have hMod : (minPos s.clients - (s.accepted.length - s.dataSize)) % 2 ^ 32 =
          minPos s.clients - (s.accepted.length - s.dataSize) := Nat.mod_eq_of_lt (by omega)
      rw [if_pos hBehind, if_pos (by omega), hMod]
      refine ⟨_, by omega, rfl, ?_⟩
      intro client hClient
      have := hMin client hClient
      omega
    · rw [if_neg hBehind]
      refine ⟨0, Nat.zero_le _, ?_, fun client hClient => (h client hClient).low⟩
      rw [Nat.add_zero, Nat.mod_eq_of_lt hs.out]

theorem advanceStreamBuffer_spec (hs : RingOk s)
    (h : ∀ client ∈ s.clients, Follows s client) :
    ∃ bufOut posted,
      let s' := { s with bufOut := bufOut, spaceAvailablePosted := posted }
      advanceStreamBuffer s = some s' ∧ RingOk s' ∧ ∀ client ∈ s.clients, Follows s' client := by
  obtain ⟨d, hd, hOut, hBehind⟩ := advanceOut_spec hs h
  generalize hPosted : (s.spaceAvailablePosted ||
    s.dataSize != { s with bufOut := (s.bufOut + d) % s.bufLen }.dataSize) = posted
  obtain ⟨hRing, hSize⟩ := hs.advance hd posted
  refine ⟨(s.bufOut + d) % s.bufLen, posted, ?_, hRing, ?_⟩
  · unfold advanceStreamBuffer
    rw [hOut, ← hPosted]
    rfl
  · intro client hClient
    refine (h client hClient).of_dataSize rfl ?_
    rw [hSize]
    exact hBehind client hClient

/-! ## The invariant -/

/-- `ref_cnt` counts the clients and the owner; when it is 0 the stream is freed by a
posted event. -/
structure Counted (s : VirtualStream) : Prop where
  channels : (s.clients.map (·.channel)).Nodup
  refCnt : s.refCnt = s.clients.length + if s.deleted then 0 else 1
  posted : s.deletePosted = true → s.magic = true ∧ s.deleted = true ∧ s.clients = []
  freed : s.magic = false →
    s.deleted = true ∧ s.clients = [] ∧ s.spaceAvailablePosted = false

/-- The ring, the readers, and the readers that have gone. -/
structure Inv (s : VirtualStream) : Prop where
  ring : RingOk s
  follows : ∀ client ∈ s.clients, Follows s client
  waits : ∀ client ∈ s.clients, Waits s client
  closed : ∀ client ∈ s.closed, Delivered s.accepted client.start client.sent
  counted : Counted s

/-- What a step needs of the clients it leaves, before the room is given back. -/
theorem Inv.of_advance (hs : RingOk s)
    (hFollows : ∀ client ∈ s.clients, Follows s client)
    (hWaits : ∀ client ∈ s.clients, Waits s client)
    (hClosed : ∀ client ∈ s.closed, Delivered s.accepted client.start client.sent)
    (hCounted : Counted s) (hMagic : s.magic = true) :
    ∃ s', advanceStreamBuffer s = some s' ∧ Inv s' := by
  obtain ⟨bufOut, posted, hEq, hRing, hAll⟩ := advanceStreamBuffer_spec hs hFollows
  refine ⟨_, hEq, hRing, hAll, hWaits, hClosed, hCounted.channels, hCounted.refCnt,
    hCounted.posted, ?_⟩
  intro hFreed
  rw [hMagic] at hFreed
  cases hFreed

/-- A stream with a client has not been freed. -/
theorem Counted.magic_of_mem (h : Counted s)
    (hClient : client ∈ s.clients) : s.magic = true := by
  by_contra hFreed
  have hNone := (h.freed (Bool.eq_false_iff.mpr hFreed)).2.1
  rw [hNone] at hClient
  cases hClient

/-- Other clients in the place of the old ones, one for one. -/
theorem Counted.withClients (h : Counted s) (hMagic : s.magic = true)
    (hChannels : clients.map (·.channel) = s.clients.map (·.channel)) :
    Counted { s with clients := clients } := by
  have hLen : clients.length = s.clients.length := by
    simpa using congrArg List.length hChannels
  refine ⟨?_, ?_, ?_, ?_⟩
  · show (clients.map (·.channel)).Nodup
    rw [hChannels]
    exact h.channels
  · show s.refCnt = clients.length + _
    rw [hLen]
    exact h.refCnt
  · intro hPosted
    obtain ⟨hm, hd, hNone⟩ := h.posted hPosted
    rw [hNone] at hChannels
    exact ⟨hm, hd, List.map_eq_nil_iff.mp hChannels⟩
  · intro hFreed
    rw [hMagic] at hFreed
    cases hFreed

/-! ## Adding data -/

/-- The data added is behind what each client has read. -/
theorem Follows.storeData (h : Follows s client)
    {bytes : List UInt8} (hSize : (storeData s bytes).dataSize = s.dataSize + bytes.length) :
    Follows (storeData s bytes) client := by
  have hLow := h.low
  have hHigh := h.high
  refine ⟨?_, ?_, h.pos, h.sent.grow bytes, h.sizes⟩
  · rw [hSize]
    show (s.accepted ++ bytes).length ≤ _
    rw [List.length_append]
    omega
  · show client.pos ≤ (s.accepted ++ bytes).length
    rw [List.length_append]
    omega

/-- After `answer` no request is pending that could be answered. -/
theorem answer_spec (hs : RingOk s)
    (hFollows : ∀ client ∈ s.clients, Follows s client)
    (hClosed : ∀ client ∈ s.closed, Delivered s.accepted client.start client.sent)
    (hCounted : Counted s) (hMagic : s.magic = true) :
    ∃ s', answer s = some s' ∧ Inv s' := by
  obtain ⟨clients, hEq, hAll, hChannels⟩ := answerClients_spec hs hFollows
  obtain ⟨s', hAdvance, hInv⟩ := Inv.of_advance (s := { s with clients := clients })
    { hs with }
    (fun client hClient => (hAll client hClient).1.of_dataSize rfl (hAll client hClient).1.low)
    (fun client hClient => (hAll client hClient).2) hClosed
    (hCounted.withClients hMagic hChannels) hMagic
  refine ⟨s', ?_, hInv⟩
  unfold answer
  rw [hEq]
  exact hAdvance

theorem Inv.addData (h : Inv s) {buf : List UInt8} {eos : Bool}
    (hMagic : s.magic = true) (hSmall : s.accepted.length + acceptedSize s buf < 2 ^ 64) :
    ∃ s', virtualStreamAddData s buf eos = some s' ∧ Inv s' := by
  unfold virtualStreamAddData
  rw [if_neg (by simp [hMagic])]
  rcases Bool.eq_false_or_eq_true s.eosInp with hEos | hEos
  · rw [if_pos hEos]
    exact ⟨s, rfl, h⟩
  rw [if_neg (by simp [hEos])]
  have hSize := h.ring.acceptedSize_eq buf
  generalize acceptedSize s buf = len at hSize hSmall
  have hLen : (buf.take len).length = len := by
    rw [List.length_take]
    omega
  have hRoom : (buf.take len).length ≤ s.bufLen - 1 - s.dataSize := by omega
  have hTotal : s.accepted.length + (buf.take len).length < 2 ^ 64 := by omega
  obtain ⟨hRing, hData⟩ := h.ring.storeData hRoom hTotal
  have hFollows : ∀ client ∈ s.clients, Follows (storeData s (buf.take len)) client :=
    fun client hClient => (h.follows client hClient).storeData hData
  have hClosed : ∀ client ∈ s.closed,
      Delivered (s.accepted ++ buf.take len) client.start client.sent :=
    fun client hClient => (h.closed client hClient).grow _
  obtain ⟨hChannels, hRef, hPosted, hFreed⟩ := h.counted
  dsimp only
  by_cases hLast : eos = true ∧ buf.length = len
  · -- the end of the stream is accepted with the last byte
    rw [if_pos hLast, if_pos (Or.inl rfl)]
    exact answer_spec (s := { storeData s (buf.take len) with eosInp := true })
      { hRing with }
      (fun client hClient =>
        (hFollows client hClient).of_dataSize rfl (hFollows client hClient).low)
      hClosed ⟨hChannels, hRef, hPosted, hFreed⟩ hMagic
  · rw [if_neg hLast]
    by_cases hSome : (storeData s (buf.take len)).eosInp = true ∨ 0 < len
    · rw [if_pos hSome]
      exact answer_spec hRing hFollows hClosed ⟨hChannels, hRef, hPosted, hFreed⟩ hMagic
    · -- nothing was accepted
      rw [if_neg hSome]
      refine ⟨_, rfl, hRing, hFollows, ?_, hClosed, hChannels, hRef, hPosted, hFreed⟩
      intro client hClient hRequests
      have hNone : buf.take len = [] := List.eq_nil_of_length_eq_zero (by omega)
      obtain ⟨hPos, hNotEos⟩ := h.waits client hClient hRequests
      refine ⟨?_, hNotEos⟩
      show client.pos = (s.accepted ++ buf.take len).length
      rw [hNone, List.append_nil]
      exact hPos

/-! ## Reading, connecting, disconnecting -/

variable {c : Nat}

theorem findClient_some
    (h : s.findClient c = some client) : client ∈ s.clients ∧ client.channel = c := by
  refine ⟨List.mem_of_find?_eq_some h, ?_⟩
  have hChannel := List.find?_some h
  exact eq_of_beq hChannel

theorem findClient_none (h : s.findClient c = none) :
    c ∉ s.clients.map (·.channel) := by
  rw [List.mem_map]
  rintro ⟨client, hClient, hEq⟩
  have hNot := List.find?_eq_none.mp h client hClient
  exact hNot (beq_iff_eq.mpr hEq)

theorem forall_setClient {P : StreamClient → Prop}
    (h : ∀ k ∈ s.clients, P k) (hClient : P client) : ∀ k ∈ (s.setClient client).clients, P k := by
  intro k hk
  obtain ⟨k', hk', rfl⟩ := List.mem_map.mp hk
  split_ifs
  · exact hClient
  · exact h k' hk'

theorem channels_setClient (s : VirtualStream) (client : StreamClient) :
    (s.setClient client).clients.map (·.channel) = s.clients.map (·.channel) := by
  unfold VirtualStream.setClient
  rw [List.map_map]
  apply List.map_congr_left
  intro k hk
  dsimp only [Function.comp]
  split_ifs with hEq
  · exact hEq.symm
  · rfl

theorem Inv.read (h : Inv s) (c : Nat) (token : List UInt8)
    (hSize : ∀ client ∈ s.findClient c, 0 < size ∨ client.pos = s.pos ∧ s.eosInp = true) :
    ∃ s', virtualStreamRead s c token size = some s' ∧ Inv s' := by
  unfold virtualStreamRead
  cases hFind : s.findClient c with
  | none => exact ⟨s, rfl, h⟩
  | some client =>
    obtain ⟨hMem, -⟩ := findClient_some hFind
    have hFollows := h.follows client hMem
    have hMagic := h.counted.magic_of_mem hMem
    have hRing := h.ring
    dsimp only
    by_cases hWait : client.pos = s.pos ∧ ¬ s.eosInp = true
    · -- nothing to send: the request waits
      rw [if_pos hWait]
      generalize hr : (⟨strlcpy token 256, size⟩ : ReadRequest) = r
      have hSizes : ∀ r' ∈ client.readRequests ++ [r], 0 < r'.size := by
        intro r' hr'
        rcases List.mem_append.mp hr' with hr' | hr'
        · exact hFollows.sizes r' hr'
        · rw [List.mem_singleton.mp hr', ← hr]
          exact (hSize client hFind).resolve_right fun hEnd => hWait.2 hEnd.2
      refine ⟨_, rfl,
        { hRing with }, ?_, ?_, h.closed, h.counted.withClients hMagic (channels_setClient s _)⟩
      · intro k hk
        have hAll := forall_setClient h.follows (hFollows.withRequests hSizes) k hk
        exact hAll.of_dataSize rfl hAll.low
      · refine forall_setClient (P := Waits s) h.waits ?_
        intro _
        exact ⟨hWait.1.trans hRing.pos, Bool.eq_false_iff.mpr hWait.2⟩
    · rw [if_neg hWait]
      have hIdle : client.readRequests = [] := by
        by_contra hSome
        obtain ⟨hPos, hEos⟩ := h.waits client hMem hSome
        exact hWait ⟨hPos.trans hRing.pos.symm, by simp [hEos]⟩
      have hData : client.pos < s.accepted.length ∨ s.eosInp = true := by
        have hHigh := hFollows.high
        rw [hRing.pos] at hWait
        rcases Bool.eq_false_or_eq_true s.eosInp with hEos | hEos
        · exact Or.inr hEos
        · left
          by_contra hGe
          exact hWait ⟨by omega, by simp [hEos]⟩
      obtain ⟨client', hSend, h', -, hRequests⟩ :=
        sendReadReply_spec hRing hFollows
          ((hSize client hFind).imp_right fun hEnd => hEnd.1.trans hRing.pos) hData token
      rw [if_pos hIdle, hSend, Option.bind_some]
      have hWaits' : Waits s client' := by
        intro hSome
        exact absurd (hRequests.trans hIdle) hSome
      refine Inv.of_advance
        { hRing with } ?_ (forall_setClient (P := Waits s) h.waits hWaits') h.closed
        (h.counted.withClients hMagic (channels_setClient s _)) hMagic
      intro k hk
      have hAll := forall_setClient h.follows h' k hk
      exact hAll.of_dataSize rfl hAll.low

/-- A new client takes a reference. -/
theorem Counted.createClient (h : Counted s)
    (hMagic : s.magic = true) (hDeleted : s.deleted = false)
    (hNew : c ∉ s.clients.map (·.channel)) : Counted (createClient s c) := by
  refine ⟨List.nodup_cons.mpr ⟨hNew, h.channels⟩, ?_, ?_, ?_⟩
  · show s.refCnt + 1 = (s.clients.length + 1) + _
    rw [h.refCnt]
    exact Nat.add_right_comm _ _ _
  · intro hPosted
    rw [(h.posted hPosted).2.1] at hDeleted
    cases hDeleted
  · intro hFreed
    rw [show s.magic = false from hFreed] at hMagic
    cases hMagic

/-- A new client starts with the oldest byte in the buffer. -/
theorem Inv.createClient (h : Inv s) (hMagic : s.magic = true)
    (hDeleted : s.deleted = false) (hNew : c ∉ s.clients.map (·.channel)) :
    Inv (createClient s c) := by
  have hRing := h.ring
  have hLe := hRing.le
  have hCounted := h.counted.createClient hMagic hDeleted hNew
  unfold StreamsService.createClient at hCounted ⊢
  rw [hRing.bufPos_eq] at hCounted ⊢
  refine ⟨{ hRing with },
    ?_, ?_, h.closed, hCounted⟩
  · intro client hClient
    rcases List.mem_cons.mp hClient with rfl | hClient
    · refine ⟨?_, Nat.sub_le _ _, rfl, delivered_nil _ _, by simp⟩
      show s.accepted.length ≤ s.accepted.length - s.dataSize + s.dataSize
      omega
    · exact (h.follows client hClient).of_dataSize rfl (h.follows client hClient).low
  · intro client hClient
    rcases List.mem_cons.mp hClient with rfl | hClient
    · intro hSome
      exact absurd rfl hSome
    · exact h.waits client hClient

/-- A stream its owner has not deleted has not been freed. -/
theorem Counted.magic_of_deleted (h : Counted s) (hDeleted : s.deleted = false) :
    s.magic = true := by
  by_contra hFreed
  rw [(h.freed (Bool.eq_false_iff.mpr hFreed)).1] at hDeleted
  cases hDeleted

theorem Inv.connect (h : Inv s) (c : Nat) : Inv (virtualStreamConnect s c) := by
  unfold virtualStreamConnect
  cases hFind : s.findClient c with
  | some client => exact h
  | none =>
    rcases Bool.eq_false_or_eq_true s.deleted with hDeleted | hDeleted
    · rwa [if_pos hDeleted]
    · rw [if_neg (by simp [hDeleted])]
      exact h.createClient (h.counted.magic_of_deleted hDeleted) hDeleted (findClient_none hFind)

/-- A cancelled request is answered, and nothing else happens to the client. -/
theorem Follows.cancel (h : Follows s client)
    (rs : List ReadRequest) : Follows s (rs.foldl (deleteReadRequest s) client) ∧
      (rs.foldl (deleteReadRequest s) client).start = client.start := by
  induction rs generalizing client with
  | nil => exact ⟨h, rfl⟩
  | cons r rs ih =>
    have hNext : Follows s (deleteReadRequest s client r) := by
      refine ⟨h.low, h.high, ?_, ?_, h.sizes⟩
      · show client.start + (received (client.sent ++ [_])).length = client.pos
        rw [received_append, received_singleton, List.append_nil]
        exact h.pos
      · refine h.sent.concat ⟨rfl, ?_, fun _ => ⟨rfl, rfl⟩⟩ ?_
        · intro hError
          cases hError
        · show received client.sent ++ [] <+: _
          rw [List.append_nil]
          exact h.sent.data
    exact ih hNext

/-- One client leaves when the channels are different. -/
theorem length_filter_channel
    (hNodup : (clients.map (·.channel)).Nodup) (h : client ∈ clients) :
    (clients.filter (·.channel != client.channel)).length + 1 = clients.length := by
  have hMem : client.channel ∈ clients.map (·.channel) := List.mem_map_of_mem h
  have hErase : ((clients.filter (·.channel != client.channel)).map (·.channel)) =
      (clients.map (·.channel)).erase client.channel := by
    rw [hNodup.erase_eq_filter, List.filter_map]
    rfl
  have hLen := congrArg List.length hErase
  rw [List.length_map, List.length_erase_of_mem hMem, List.length_map] at hLen
  have hPos := List.length_pos_of_mem h
  omega

/-- A client that leaves gives its reference back; the last one to do so finds the stream deleted
by its owner. -/
theorem Counted.removeClient (h : Counted s)
    (hMem : client ∈ s.clients) :
    Counted (removeClient s client) ∧ 0 < s.refCnt ∧
      ((removeClient s client).refCnt = 0 →
        (removeClient s client).clients = [] ∧ s.deleted = true) := by
  have hMagic := h.magic_of_mem hMem
  have hRef := h.refCnt
  have hLeft := length_filter_channel h.channels hMem
  have hRef' : (StreamsService.removeClient s client).refCnt =
      (StreamsService.removeClient s client).clients.length + if s.deleted then 0 else 1 := by
    show s.refCnt - 1 = (s.clients.filter _).length + _
    omega
  refine ⟨⟨h.channels.sublist (List.filter_sublist.map _), hRef', ?_, ?_⟩, by omega, ?_⟩
  · intro hPosted
    rw [(h.posted hPosted).2.2] at hMem
    cases hMem
  · intro hFreed
    rw [show s.magic = false from hFreed] at hMagic
    cases hMagic
  · intro hZero
    refine ⟨List.eq_nil_of_length_eq_zero (by omega), ?_⟩
    by_contra hNot
    rw [if_neg hNot] at hRef'
    omega

theorem Inv.disconnect (h : Inv s) (c : Nat) :
    ∃ s', virtualStreamDisconnect s c = some s' ∧ Inv s' := by
  unfold virtualStreamDisconnect
  cases hFind : s.findClient c with
  | none => exact ⟨s, rfl, h⟩
  | some client =>
    obtain ⟨hMem, -⟩ := findClient_some hFind
    have hMagic := h.counted.magic_of_mem hMem
    have hRing := h.ring
    obtain ⟨hCancel, hStart⟩ := (h.follows client hMem).cancel client.readRequests
    have hSub : ∀ k ∈ (removeClient s client).clients, k ∈ s.clients :=
      fun k hk => (List.mem_filter.mp hk).1
    have hRing' : RingOk (removeClient s client) :=
      { hRing with }
    have hFollows' : ∀ k ∈ (removeClient s client).clients, Follows (removeClient s client) k :=
      fun k hk => (h.follows k (hSub k hk)).of_dataSize rfl (h.follows k (hSub k hk)).low
    have hWaits' : ∀ k ∈ (removeClient s client).clients, Waits (removeClient s client) k :=
      fun k hk => h.waits k (hSub k hk)
    have hClosed' : ∀ k ∈ (removeClient s client).closed, Delivered s.accepted k.start k.sent := by
      intro k hk
      rcases List.mem_append.mp hk with hk | hk
      · exact h.closed k hk
      · rw [List.mem_singleton.mp hk]
        exact hCancel.sent
    obtain ⟨hCounted', hRef, hLast⟩ := h.counted.removeClient hMem
    dsimp only
    unfold deleteClient
    rw [if_pos hRef]
    by_cases hZero : (removeClient s client).refCnt = 0
    · -- the last reference: the owner has deleted the stream before
      obtain ⟨hNone, hDeleted⟩ := hLast hZero
      rw [if_pos hZero, if_pos ⟨hNone, hDeleted⟩]
      refine ⟨_, rfl, { hRing with }, ?_, hWaits', hClosed', hCounted'.channels, hCounted'.refCnt,
        fun _ => ⟨hMagic, hDeleted, hNone⟩, hCounted'.freed⟩
      intro k hk
      exact (hFollows' k hk).of_dataSize rfl (hFollows' k hk).low
    · rw [if_neg hZero]
      exact Inv.of_advance hRing' hFollows' hWaits' hClosed' hCounted' hMagic

/-! ## The end of the stream, and posted events -/

/-- The owner gives its reference back. -/
theorem Counted.delete (h : Counted s) (hDeleted : s.deleted = false) :
    ∃ posted, let s' := { s with deleted := true, refCnt := s.refCnt - 1, deletePosted := posted }
      virtualStreamDelete s = some s' ∧ Counted s' := by
  have hRef := h.refCnt
  have hMagic := h.magic_of_deleted hDeleted
  have hFreed (hNot : s.magic = false) :
      true = true ∧ s.clients = [] ∧ s.spaceAvailablePosted = false := by
    rw [hMagic] at hNot
    cases hNot
  rw [if_neg (by simp [hDeleted])] at hRef
  have hRef' : s.refCnt - 1 = s.clients.length + 0 := by omega
  unfold virtualStreamDelete
  rw [if_pos ⟨hMagic, by simp [hDeleted]⟩]
  by_cases hMore : 0 < s.refCnt - 1
  · rw [if_pos hMore]
    refine ⟨_, rfl, h.channels, hRef', ?_, hFreed⟩
    intro hPosted
    obtain ⟨hm, -, hNone⟩ := h.posted hPosted
    exact ⟨hm, rfl, hNone⟩
  · have hNone : s.clients = [] := List.eq_nil_of_length_eq_zero (by omega)
    rw [if_neg hMore, if_pos hNone]
    exact ⟨_, rfl, h.channels, hRef', fun _ => ⟨hMagic, rfl, hNone⟩, hFreed⟩

theorem Inv.delete (h : Inv s) (hDeleted : s.deleted = false) :
    ∃ s', virtualStreamDelete s = some s' ∧ Inv s' := by
  have hRing := h.ring
  obtain ⟨posted, hRun, hCounted⟩ := h.counted.delete hDeleted
  refine ⟨_, hRun, { hRing with }, ?_, h.waits, h.closed, hCounted⟩
  intro client hClient
  exact (h.follows client hClient).of_dataSize rfl (h.follows client hClient).low

theorem Counted.deleteStream (h : Counted s) (hPosted : s.deletePosted = true)
    (hSpace : s.spaceAvailablePosted = false) :
    let s' := { s with magic := false, deletePosted := false }
    deleteStream s = some s' ∧ Counted s' := by
  obtain ⟨hMagic, hDeleted, hNone⟩ := h.posted hPosted
  refine ⟨if_pos ⟨hMagic, hNone, hDeleted⟩, h.channels, h.refCnt, ?_,
    fun _ => ⟨hDeleted, hNone, hSpace⟩⟩
  intro hAgain
  cases hAgain

theorem Inv.deleteStream (h : Inv s) (hPosted : s.deletePosted = true)
    (hSpace : s.spaceAvailablePosted = false) : ∃ s', deleteStream s = some s' ∧ Inv s' := by
  have hRing := h.ring
  obtain ⟨hRun, hCounted⟩ := h.counted.deleteStream hPosted hSpace
  refine ⟨_, hRun, { hRing with }, ?_, h.waits, h.closed, hCounted⟩
  intro client hClient
  exact (h.follows client hClient).of_dataSize rfl (h.follows client hClient).low

theorem Counted.notifySpaceAvailable (h : Counted s)
    (hPosted : s.spaceAvailablePosted = true) :
    let s' := { s with spaceAvailablePosted := false }
    notifySpaceAvailable s = some s' ∧ Counted s' := by
  have hMagic : s.magic = true := by
    by_contra hFreed
    rw [(h.freed (Bool.eq_false_iff.mpr hFreed)).2.2] at hPosted
    cases hPosted
  refine ⟨if_pos hMagic, h.channels, h.refCnt, h.posted, ?_⟩
  intro hFreed
  rw [show s.magic = false from hFreed] at hMagic
  cases hMagic

theorem Inv.notifySpaceAvailable (h : Inv s)
    (hPosted : s.spaceAvailablePosted = true) :
    ∃ s', notifySpaceAvailable s = some s' ∧ Inv s' := by
  have hRing := h.ring
  obtain ⟨hRun, hCounted⟩ := h.counted.notifySpaceAvailable hPosted
  refine ⟨_, hRun, { hRing with }, ?_, h.waits, h.closed, hCounted⟩
  intro client hClient
  exact (h.follows client hClient).of_dataSize rfl (h.follows client hClient).low

/-- Every event finds its assertions true and keeps the invariant. -/
theorem Inv.step {e : Event} (h : Inv s) (hAllowed : Allowed s e) :
    ∃ s', step s e = some s' ∧ Inv s' := by
  cases e with
  | addData buf eos => exact h.addData (h.counted.magic_of_deleted hAllowed.1) hAllowed.2
  | read c token size => exact h.read c token fun _ _ => .inl hAllowed
  | connect c => exact ⟨_, rfl, h.connect c⟩
  | disconnect c => exact h.disconnect c
  | delete => exact h.delete hAllowed
  | deleteStream => exact h.deleteStream hAllowed.1 (Bool.eq_false_iff.mpr hAllowed.2)
  | notifySpaceAvailable => exact h.notifySpaceAvailable hAllowed

/-! ## The stream at its creation -/

theorem strlcpy_strlcpy (src : List UInt8) (size : Nat) :
    strlcpy (strlcpy src size) size = strlcpy src size := by
  simp [strlcpy, List.take_take]

variable {subscriptions : List Subscription}

/-- No channel subscribes twice to one type. -/
theorem command_nodup (h : subscriptions.Nodup)
    (cmd : Command) : (command subscriptions cmd).Nodup := by
  cases cmd with
  | subscribe c type =>
    unfold command virtualStreamSubscribe
    dsimp only
    rw [strlcpy_strlcpy]
    by_cases hAny : subscriptions.any
        (fun h => h.channel == c && strlcpy type 256 == h.type) = true
    · rw [if_pos hAny]
      exact h
    · rw [if_neg hAny]
      refine List.nodup_cons.mpr ⟨?_, h⟩
      intro hMem
      exact hAny (List.any_eq_true.mpr ⟨_, hMem, by simp⟩)
  | unsubscribe c type =>
    unfold command virtualStreamUnsubscribe
    dsimp only
    split_ifs
    · exact h.sublist List.eraseP_sublist
    · exact h
  | channelClosed c => exact h.filter _

theorem subscriptionsAfter_nodup (commands : List Command) :
    (subscriptionsAfter commands).Nodup := by
  unfold subscriptionsAfter
  have hAll : ∀ subscriptions : List Subscription, subscriptions.Nodup →
      (commands.foldl command subscriptions).Nodup := by
    induction commands with
    | nil => exact fun _ h => h
    | cons cmd commands ih => exact fun _ h => ih _ (command_nodup h cmd)
  exact hAll [] List.nodup_nil

/-- So the clients a stream is created with have different channels. -/
theorem channels_nodup (h : subscriptions.Nodup)
    (type : List UInt8) :
    ((subscriptions.filter (·.type == type)).map (·.channel)).Nodup := by
  refine List.Nodup.map_on ?_ (h.filter _)
  intro a ha b hb hChannel
  have haType := eq_of_beq (List.mem_filter.mp ha).2
  have hbType := eq_of_beq (List.mem_filter.mp hb).2
  cases a
  cases b
  simp_all

theorem Inv.createClients
    (hNodup : (subscriptions.map (·.channel)).Nodup) (h : Inv s)
    (hMagic : s.magic = true) (hDeleted : s.deleted = false)
    (hNew : ∀ k ∈ subscriptions, k.channel ∉ s.clients.map (·.channel)) :
    Inv (subscriptions.foldl (fun s h => StreamsService.createClient s h.channel) s) := by
  induction subscriptions generalizing s with
  | nil => exact h
  | cons k rest ih =>
    obtain ⟨hHead, hRest⟩ := List.nodup_cons.mp hNodup
    refine ih hRest (h.createClient hMagic hDeleted (hNew k (List.mem_cons_self ..))) hMagic
      hDeleted ?_
    intro k' hk' hMem
    rcases List.mem_cons.mp hMem with hEq | hMem
    · exact hHead (List.mem_map.mpr ⟨k', hk', hEq⟩)
    · exact hNew k' (List.mem_cons_of_mem _ hk') hMem

theorem inv_create (h : subscriptions.Nodup)
    (type : List UInt8) {bufLen : Nat} (hLen : bufLen < 2 ^ 32) :
    Inv (virtualStreamCreate subscriptions type bufLen) := by
  have hZero : (0 + (bufLen + 1) - 0) % (bufLen + 1) = 0 := by simp
  refine Inv.createClients (channels_nodup h type) ?_ rfl rfl (by simp)
  refine ⟨⟨hLen, Nat.succ_pos _, Nat.succ_pos _, rfl, Nat.two_pow_pos 64, ?_, ?_⟩, ?_, ?_, ?_,
    List.nodup_nil, rfl, ?_, ?_⟩
  · exact Nat.le_of_eq hZero
  · rw [List.drop_nil]
    exact Ring.holds_nil
  · simp
  · simp
  · simp
  · intro hPosted
    cases hPosted
  · intro hFreed
    cases hFreed

theorem inv_virtualStreamCreate (commands : List Command) (type : List UInt8) {bufLen : Nat}
    (hLen : bufLen < 2 ^ 32) :
    Inv (virtualStreamCreate (subscriptionsAfter commands) type bufLen) :=
  inv_create (subscriptionsAfter_nodup commands) type hLen

/-! ## Every run -/

/-- What a client has not read yet has not been overwritten. -/
theorem Inv.unread (h : Inv s)
    (hClient : client ∈ s.clients) : Unread s client := by
  obtain ⟨hLow, hHigh, hPos, -, -⟩ := h.follows client hClient
  have hLt := h.ring.dataSize_lt
  have hLag : s.accepted.length - client.pos ≤ s.dataSize := by omega
  have hHolds := h.ring.holds_back hLag
  have hBack : s.accepted.length - (s.accepted.length - client.pos) = client.pos := by omega
  rw [hBack] at hHolds
  exact ⟨hPos, hHigh, by omega, (Ring.holds_congr (Nat.mod_mod _ _)).mp hHolds⟩

end TcfAgent.StreamsService
