import TcfAgent.Framework.ErrorTransfer

/-!
# Hello messages and redirection

The part of `framework/protocol.c` that moves a channel through its states: `send_hello_message`,
`event_locator_hello`, the redirect commands with `redirect_done`, and `channel_closed`.

Listeners and handlers are called in the middle of these functions, and call the functions
themselves. What a function still has to do after such a call stands in a frame; an action is what
runs up to the next call. A message is taken when there are no frames, and a failed assertion is
`none`.
-/

namespace TcfAgent.Handshake

open TcfAgent.JsonText TcfAgent.JsonString

/-! ## Contents of messages -/

/-- What `event_locator_hello` makes of a list; `strcmp` gets the null pointer for `null`. -/
inductive HelloRead where
  | nullName
  | exception
  | list (services : List Text) (rest : Text)

/-- The loop of `event_locator_hello`, after the bracket. -/
def readServices : (fuel : Nat) → Text → HelloRead
  | 0, _ => .exception
  | fuel + 1, text =>
    match jsonReadAllocString text with
    | none => .exception
    | some (none, _) => .nullName
    | some (some service, text) =>
      match text.dropWhile isSpace with
      | 44 :: text =>
        match readServices fuel text with
        | .list services rest => .list (service :: services) rest
        | r => r
      | 93 :: text => .list [service] text
      | _ => .exception

/-- The list of a Hello message, after the bracket. -/
def readList : Text → HelloRead
  | 93 :: rest => .list [] rest
  | text => readServices text.length text

/-- A Hello message: the list, and the end of the message. -/
def readHello (content : Text) (eom : Bool) : HelloRead :=
  match content.dropWhile isSpace with
  | 91 :: text =>
    match readList text with
    | .list services rest => if rest = [0] ∧ eom then .list services [] else .exception
    | r => r
  | _ => .exception

/-- The names that are read, up to the first one that cannot be. -/
def namesRead : (fuel : Nat) → Text → List (Option Text)
  | 0, _ => []
  | fuel + 1, text =>
    match jsonReadAllocString text with
    | none => []
    | some (name, text) =>
      name :: match text.dropWhile isSpace with
        | 44 :: text => namesRead fuel text
        | _ => []

/-- The names in a list, after the bracket. -/
def listNames : Text → List (Option Text)
  | 93 :: _ => []
  | text => namesRead text.length text

/-- The names in a Hello message. -/
def helloNames (content : Text) : List (Option Text) :=
  match content.dropWhile isSpace with
  | 91 :: text => listNames text
  | _ => []

/-- What `redirect_done` makes of a reply. -/
inductive RedirectRead where
  | exception
  | error (failed : Bool)
deriving DecidableEq

/-- `read_errno` and the end of the message; `readObject` is `json_read_object`. An error object
stands for an error when its last code is not 0. -/
def readRedirect (readObject : Text → Option (Text × Text)) (content : Text) (eom : Bool) :
    RedirectRead :=
  let atEnd (failed : Bool) (text : Text) : RedirectRead :=
    if text.dropWhile isSpace = [] ∧ eom then .error failed else .exception
  match content.dropWhile isSpace with
  | 0 :: rest => atEnd false rest
  | text =>
    match Errors.readErrorText readObject text with
    | none => .exception
    | some (fields, text) =>
      let code := fields.foldl (fun code field =>
        match field with
        | .code n => Int.bmod n (2 ^ 32)
        | _ => code) (0 : Int)
      match jsonTestChar text 0 with
      | none => .exception
      | some text => atEnd (code ≠ 0) text

/-! ## Channels -/

/-- The states that these functions know. -/
inductive ChannelState where
  | started | helloSent | helloReceived | connected | redirectSent | disconnected
deriving DecidableEq, Repr

/-- A reply handler; `dropped` is the null pointer. -/
inductive Handler where
  | redirectDone (request : Nat)
  | other
  | dropped
deriving DecidableEq, Repr

structure ReplyHandlerInfo where
  tokenid : Nat
  handler : Handler
deriving DecidableEq, Repr

/-- What is to be done when a call returns. -/
inductive Frame where
  /-- A listener or a handler runs. -/
  | callback
  /-- `channel_closed` is in its loop; `todo` are the handlers that were there before it. -/
  | closeLoop (todo : List Nat)
  /-- A handler has been called in that loop. -/
  | visited (tokenid : Nat)
  /-- `redirect_done` has notified the listeners. -/
  | redirected (request : Nat)
  /-- The message is handled, and an exception is raised. -/
  | raise
deriving DecidableEq, Repr

/-- Calls of the listeners for open channels, and of the handlers of redirect requests. -/
inductive Call where
  | opened
  | redirect (request : Nat) (failed : Bool)
deriving DecidableEq, Repr

structure Channel where
  state             : ChannelState
  peerServiceList   : Option (List Text)
  supportsZeroCopy  : Bool
  notifiedOpen      : Bool
  hasDefaultHandler : Bool
  replyHandlers     : List ReplyHandlerInfo
  nextToken         : Nat
  posted            : List Handler
  frames            : List Frame
  requests          : Nat
  calls             : List Call

/-- A channel after `channel_start`. -/
def Channel.start (hasDefaultHandler : Bool) : Channel where
  state := .started
  peerServiceList := none
  supportsZeroCopy := false
  notifiedOpen := false
  hasDefaultHandler := hasDefaultHandler
  replyHandlers := []
  nextToken := 1
  posted := []
  frames := []
  requests := 0
  calls := []

def Channel.push (c : Channel) (f : Frame) : Channel := { c with frames := f :: c.frames }

/-- `find_reply_handler` -/
def Channel.findReplyHandler (c : Channel) (tokenid : Nat) : Option ReplyHandlerInfo :=
  c.replyHandlers.find? fun h => h.tokenid = tokenid

/-- `notify_channel_opened` -/
def Channel.notifyChannelOpened (c : Channel) : Option Channel :=
  if c.state ≠ .connected then none
  else if c.notifiedOpen then some c
  else some ({ c with notifiedOpen := true, calls := .opened :: c.calls }.push .callback)

/-- `notify_channel_closed`; `channel_closed` is one of the listeners. -/
def Channel.notifyChannelClosed (c : Channel) : Option Channel :=
  if c.state = .connected then none
  else if !c.notifiedOpen then some c
  else
    let todo := c.replyHandlers.map ReplyHandlerInfo.tokenid
    some ((({ c with notifiedOpen := false }.push .callback).push (.closeLoop todo)).push .callback)

/-- `connect_done` -/
def Channel.connectDone (c : Channel) : Option Channel :=
  if c.state ≠ .connected then none else (c.push .callback).notifyChannelOpened

/-- `send_eof_and_close` of a transport. -/
def Channel.close (c : Channel) : Option Channel :=
  if c.state = .disconnected then some c
  else ({ c with state := .disconnected }.push .callback).notifyChannelClosed

/-- `send_hello_message` -/
def Channel.sendHelloMessage (c : Channel) : Option Channel :=
  match c.state with
  | .started => some { c with state := .helloSent }
  | .helloReceived => { c with state := .connected }.connectDone
  | _ => none

/-- `event_locator_hello` -/
def Channel.eventLocatorHello (c : Channel) (content : Text) (eom : Bool) : Option Channel :=
  let c := { c with supportsZeroCopy := some (ascii "ZeroCopy") ∈ helloNames content }
  match readHello content eom with
  | .nullName => none
  | .exception => c.close
  | .list services _ =>
    let c := { c with peerServiceList := if services = [] then none else some services }
    if c.state = .started then some { c with state := .helloReceived }
    else { c with state := .connected }.connectDone

/-- `protocol_send_command_with_progress` -/
def Channel.sendCommand (c : Channel) (handler : Handler) : Channel :=
  if c.state = .disconnected ∨ c.peerServiceList = none then
    { c with posted := c.posted ++ [handler] }
  else
    { c with
      replyHandlers := ⟨c.nextToken, handler⟩ :: c.replyHandlers
      nextToken := c.nextToken + 1 }

/-- `send_redirect_command_by_id`, `send_redirect_command_by_props` -/
def Channel.sendRedirectCommand (c : Channel) : Option Channel :=
  if c.state ≠ .connected then none
  else some
    ({ c with state := .redirectSent, requests := c.requests + 1 }.sendCommand
      (.redirectDone c.requests))

def Channel.callHandler (c : Channel) (request : Nat) (failed : Bool) : Channel :=
  { c with calls := .redirect request failed :: c.calls }.push .callback

/-- `redirect_done` with an error. -/
def Channel.redirectFailed (c : Channel) (request : Nat) : Option Channel :=
  if c.state = .redirectSent then
    some ({ c with state := .connected }.callHandler request true)
  else if c.state = .disconnected then some (c.callHandler request true)
  else none

/-- `redirect_done` with a reply. -/
def Channel.redirectDone (c : Channel) (request : Nat) (reply : RedirectRead) : Option Channel :=
  if c.state ≠ .redirectSent then none
  else match reply with
    | .exception => c.close
    | .error true => some ({ c with state := .connected }.callHandler request true)
    | .error false =>
      ({ c with state := .helloSent }.push (.redirected request)).notifyChannelClosed

/-! ## Actions -/

inductive ReplyKind where
  | result | progress | unrecognized
deriving DecidableEq, Repr

/-- A message of the peer; `other` is a command, an event or a message that makes no sense. What
is called for the message can raise an exception. -/
inductive Message where
  | hello (content : Text) (eom : Bool)
  | reply (kind : ReplyKind) (tokenid : Nat) (content : Text) (eom : Bool) (raises : Bool)
  | other (raises : Bool)

/-- What the channel, its peer and its listeners can do next. -/
inductive Action where
  | sendHelloMessage
  | sendRedirectCommand
  /-- A command that does not redirect. -/
  | sendCommand
  /-- The channel is closed here, or the end of the stream is there. -/
  | close
  | receive (m : Message)
  /-- `send_command_failed` -/
  | sendCommandFailed
  /-- `channel_closed` comes to a handler. -/
  | visit (tokenid : Nat)
  /-- `channel_closed` has come to the end of its loop. -/
  | loopDone
  /-- A call returns, and what stands in the frame is done. -/
  | ret

section

variable (readObject : Text → Option (Text × Text))

/-- A reply for a pending command, in `handle_protocol_message`. -/
def Channel.takeReply (c : Channel) (h : ReplyHandlerInfo) (kind : ReplyKind) (content : Text)
    (eom : Bool) : Option Channel :=
  let taken := { c with replyHandlers := c.replyHandlers.eraseP fun x => x.tokenid = h.tokenid }
  match kind, h.handler with
  | .progress, .other => some (c.push .callback)
  | .progress, _ => some c
  -- the message is skipped a second time, which reads behind its end
  | .unrecognized, .dropped => if eom then none else some taken
  | .result, .dropped => some taken
  | _, .other => some (taken.push .callback)
  | .result, .redirectDone request =>
    taken.redirectDone request (readRedirect readObject content eom)
  | .unrecognized, .redirectDone request => taken.redirectFailed request

/-- `handle_protocol_message` -/
def Channel.receive (c : Channel) : Message → Option Channel
  | .hello content eom =>
    if c.state = .started ∨ c.state = .helloSent then c.eventLocatorHello content eom
    else some (c.push .callback)
  | .reply kind tokenid content eom raises =>
    let base := if raises then c.push .raise else c
    match c.findReplyHandler tokenid with
    | some h => base.takeReply readObject h kind content eom
    | none => if c.hasDefaultHandler then some (base.push .callback) else c.close
  | .other raises => some ((if raises then c.push .raise else c).push .callback)

/-- The handler of the first entry with the token is taken out, and called; it is not read again
before it is cleared. -/
def dropHandler (tokenid : Nat) : List ReplyHandlerInfo → List ReplyHandlerInfo
  | [] => []
  | h :: hs => if h.tokenid = tokenid then { h with handler := .dropped } :: hs
    else h :: dropHandler tokenid hs

/-- A round of the loop of `channel_closed`, up to the return of the handler. -/
def Channel.visit (c : Channel) (h : ReplyHandlerInfo) : Option Channel :=
  let visiting := { c with replyHandlers := dropHandler h.tokenid c.replyHandlers }.push
    (.visited h.tokenid)
  match h.handler with
  | .dropped => some visiting
  | .other => some (visiting.push .callback)
  | .redirectDone request => visiting.redirectFailed request

/-- Actions of this side are possible in a callback, and when there is no frame. -/
def Channel.isFree (c : Channel) : Bool := c.frames = [] || c.frames.head? = some .callback

/-- An action that cannot come up changes nothing. -/
def step (c : Channel) : Action → Option Channel
  | .sendHelloMessage => if c.isFree then c.sendHelloMessage else some c
  | .sendRedirectCommand => if c.isFree then c.sendRedirectCommand else some c
  | .sendCommand => if c.isFree then some (c.sendCommand .other) else some c
  | .close => if c.isFree then c.close else some c
  | .receive m =>
    if c.frames = [] ∧ c.state ≠ .disconnected then c.receive readObject m else some c
  | .sendCommandFailed =>
    match c.frames, c.posted with
    | [], .redirectDone request :: posted => { c with posted := posted }.redirectFailed request
    | [], .other :: posted => some ({ c with posted := posted }.push .callback)
    | [], .dropped :: posted => some { c with posted := posted }
    | _, _ => some c
  | .visit tokenid =>
    match c.frames, c.findReplyHandler tokenid with
    | .closeLoop _ :: _, some h => c.visit h
    | _, _ => some c
  | .loopDone =>
    match c.frames with
    | .closeLoop todo :: frames =>
      if c.replyHandlers.all fun h => h.tokenid ∉ todo || h.handler = .dropped then
        some { c with frames := frames, peerServiceList := none }
      else some c
    | _ => some c
  | .ret =>
    match c.frames with
    | .callback :: frames => some { c with frames := frames }
    | .visited tokenid :: frames =>
      -- the entry of a redirected channel stays, to take the reply that can still come
      if c.state = .disconnected then
        some { c with
          replyHandlers := c.replyHandlers.eraseP fun h =>
            h.tokenid = tokenid && h.handler = .dropped
          frames := frames }
      else some { c with frames := frames }
    | .redirected request :: frames => some ({ c with frames := frames }.callHandler request false)
    | .raise :: frames => { c with frames := frames }.close
    | _ => some c

end

end TcfAgent.Handshake
