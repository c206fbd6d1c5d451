import Mathlib.Logic.Function.Basic
import TcfAgent.Framework.JsonText

/-!
# Error numbers

`framework/errors.c`: an error number is a code of the system, one of the `ERR_*` codes, or the
index of an entry in a table of messages. The entries are used in turn, so that an old number
comes to mean another error. An entry holds the number of another error, a text, or a report
with a format that is expanded each time; reports are counted, by the entries that hold them and
by the clients that got them.

`none`, in a step, is a failed assertion, a use of a pointer that is `NULL` or freed, or a loop
that does not end.
-/

namespace TcfAgent.Errors

open TcfAgent.JsonText

/-- What `int` arithmetic gives on the usual targets when it overflows. -/
def wrapInt (n : Int) : Int := Int.bmod n (2 ^ 32)

def stdErrBase : Int := 0x20000

def errOther : Int := stdErrBase + 1

def errMessageMin : Int := stdErrBase + 100

/-- The texts of the codes from `ERR_OTHER` to `ERR_INV_CONT_OBJ`, in the order of the codes. -/
def stdTexts : List String :=
  ["Unspecified failure", "JSON syntax error", "Protocol format error", "Buffer overflow",
   "Channel closed", "Command canceled", "Unknown peer", "Invalid BASE64 string", "End of file",
   "Already stopped", "Already exited", "Already running", "Already attached",
   "Execution context is running", "Invalid data size", "Invalid context", "Invalid address",
   "Invalid expression", "Format is not supported", "Invalid number", "Error reading DWARF data",
   "Symbol not found", "Unsupported command", "Invalid data type", "Command is not recognized",
   "Invalid transport name", "Invalid data cache state", "Context is not active",
   "Invalid address of containing object"]

/-- The text of an `ERR_*` code. -/
def stdText (no : Int) : Option Text :=
  if no < errOther then none else (stdTexts[(no - errOther).toNat]?).map ascii

/-- What the target supplies: the size of the table, `MESSAGE_CNT`, the texts of the codes of
the system, its name in reports, and `append_format_parameter`, which shows a parameter, a
JSON text, in a message. -/
structure Platform where
  messageCnt  : Nat
  hMessageCnt : 0 < messageCnt
  strerror    : Int → Text
  gaiStrerror : Int → Text
  altOrg      : Text
  showParam   : (type style param : Text) → Text

/-- `ReportBuffer`, with the fields of its `ErrorReport`. -/
structure Report where
  code      : Int := 0
  format    : Option Text := none
  params    : List Text := []
  timeStamp : Nat := 0
  props     : List (Text × Text) := []
  posixCode : Int := 0
  refs      : Nat := 1
  gets      : Nat := 1
deriving DecidableEq, Repr

/-- What an entry of the table was made from. -/
inductive Source where
  | none | gai | message | report
deriving DecidableEq, Repr

/-- `ErrorMessage` -/
structure ErrorMessage where
  source : Source := .none
  error  : Int := 0
  text   : Option Text := none
  report : Option Nat := none
deriving DecidableEq, Repr

/-- The table, the entry that is used next, and the reports that are allocated. -/
structure State where
  msgs    : Nat → ErrorMessage := fun _ => {}
  msgsPos : Nat := 0
  reports : Nat → Option Report := fun _ => none
  next    : Nat := 0

/-! ## The text of a report -/

inductive Fault where
  | fuel | undefined
deriving DecidableEq, Repr

def quote : UInt8 := 39

def leftBrace : UInt8 := 123

def comma : UInt8 := 44

def isLower (c : UInt8) : Bool := 97 ≤ c && c ≤ 122

/-- The optional type and style, each cut to the size of its buffer, and what follows. -/
def typeAndStyle : Text → Text × Text × Text
  | [] => ([], [], [])
  | c :: t =>
    if c = comma then
      match t.dropWhile isLower with
      | [] => ((t.takeWhile isLower).take 15, [], [])
      | d :: u =>
        if d = comma then
          ((t.takeWhile isLower).take 15, (u.takeWhile isLower).take 15, u.dropWhile isLower)
        else ((t.takeWhile isLower).take 15, [], d :: u)
    else ([], [], c :: t)

section

variable (p : Platform)

/-- A parameter in braces, after the left one: what stands for it and what is left of the
format. A number that an `int` cannot hold is undefined. -/
def placeholder (params : List Text) (fmt : Text) : Except Fault (Text × Text) :=
  let index := digitsValue (fmt.takeWhile isDigit)
  let (type, style, rest) := typeAndStyle (fmt.dropWhile isDigit)
  let rest := (rest.dropWhile fun c => c ≠ 125).drop 1
  if 2 ^ 31 ≤ index then .error .undefined
  else match params[index]? with
    | some param => .ok (p.showParam type style param, rest)
    | none => .ok ([], rest)

/-- The loop of `format_error_report_message`; every round takes something of the format. -/
def formatLoop (params : List Text) : (fuel : Nat) → (inQuotes : Bool) → Text → Except Fault Text
  | _, _, [] => .ok []
  | 0, _, _ => .error .fuel
  | fuel + 1, true, ch :: fmt =>
    if ch = quote then formatLoop params fuel false fmt
    else (ch :: ·) <$> formatLoop params fuel true fmt
  | fuel + 1, false, ch :: fmt =>
    if ch = quote then
      match fmt with
      | [] => formatLoop params fuel true []
      | d :: fmt =>
        if d = quote then (quote :: ·) <$> formatLoop params fuel false fmt
        else formatLoop params fuel true (d :: fmt)
    else if ch = leftBrace then do
      let (shown, fmt) ← placeholder p params fmt
      (shown ++ ·) <$> formatLoop params fuel false fmt
    else (ch :: ·) <$> formatLoop params fuel false fmt

/-- `format_error_report_message` -/
def formatErrorReportMessage (fmt : Text) (params : List Text) : Except Fault Text :=
  formatLoop p params fmt.length false fmt

/-! ## Codes and texts -/

/-- From `ERR_MESSAGE_MIN` to `ERR_MESSAGE_MAX`. -/
def isMessage (no : Int) : Bool := errMessageMin ≤ no ∧ no < errMessageMin + p.messageCnt

/-- The entry of a number. -/
def State.message (s : State) (no : Int) : ErrorMessage := s.msgs (no - errMessageMin).toNat

def State.reportOf (s : State) (m : ErrorMessage) : Option Report := m.report.bind s.reports

/-- `get_error_code`; one of `fuel` for every round of its loop. -/
def getErrorCode (s : State) : (fuel : Nat) → Int → Option Int
  | 0, _ => none
  | fuel + 1, no =>
    if isMessage p no then
      let m := s.message no
      if m.source = .report ∨ m.source = .message then
        match s.reportOf m with
        | some r => if r.posixCode ≠ 0 then some r.posixCode else getErrorCode s fuel m.error
        | none => getErrorCode s fuel m.error
      else some errOther
    else some no

/-- The format of the report that an entry holds, with the parameters. -/
def State.formatOf (s : State) (m : ErrorMessage) : Option (Text × List Text) :=
  (s.reportOf m).bind fun r => r.format.map fun f => (f, r.params)

/-- `errno_to_str`, in the dispatch thread; the result can be `NULL`. -/
def errnoToStr (s : State) : (fuel : Nat) → Int → Except Fault (Option Text)
  | 0, _ => .error .fuel
  | fuel + 1, no =>
    match stdText no with
    | some text => .ok (some text)
    | none =>
      if no = 0 then .ok (some (ascii "Success"))
      else if isMessage p no then
        let m := s.message no
        match s.formatOf m with
        | some (format, params) => some <$> formatErrorReportMessage p format params
        | none =>
          match m.source with
          | .gai => .ok (some (p.gaiStrerror m.error))
          | .message => .ok m.text
          | .report => errnoToStr s fuel m.error
          | .none => .ok (some (p.strerror no))
      else .ok (some (p.strerror no))

/-- Enough for every chain of entries that has an end. -/
def Platform.fuel : Nat := p.messageCnt + 1

/-! ## Operations -/

/-- `release_report` -/
def releaseReport (s : State) : Option Nat → Option State
  | none => some s
  | some id => do
    let r ← s.reports id
    if r.refs ≤ r.gets then none
    else if r.refs = 1 then some { s with reports := Function.update s.reports id none }
    else
      some { s with reports := Function.update s.reports id (some { r with refs := r.refs - 1 }) }

/-- `alloc_msg`: the entry, with its report released; `errno` is the number before the next
one. -/
def allocMsg (s : State) (source : Source) : Option (State × Nat) := do
  let k := s.msgsPos
  let s ← releaseReport s (s.msgs k).report
  some ({ s with
    msgs := Function.update s.msgs k { source }
    msgsPos := if p.messageCnt ≤ k + 1 then 0 else k + 1 }, k)

def numberOf (k : Nat) : Int := errMessageMin + k

/-- The message and the text of the code, one after the other. -/
def joinTexts (msg str : Text) : Text :=
  match msg.getLast? with
  | none => str
  | some c => if c = 46 ∨ c = 10 then msg ++ ascii " " ++ str else msg ++ ascii ". " ++ str

/-- The text that `set_errno` gives an entry. -/
def messageText (s : State) (no : Int) (msg : Text) : Option Text :=
  if no = errOther then some msg
  else match errnoToStr p s p.fuel no with
    | .ok (some str) => some (joinTexts msg str)
    | _ => none

/-- `set_errno` -/
def setErrno (s : State) (no : Int) : Option Text → Option (State × Int)
  | none => some (s, no)
  | some msg =>
    if no = 0 then some (s, 0)
    else do
      let (s, k) ← allocMsg p s .message
      let code ← getErrorCode p s p.fuel no
      let m : ErrorMessage := { source := .message, error := code }
      let s := { s with msgs := Function.update s.msgs k m }
      let text ← messageText p s no msg
      some ({ s with msgs := Function.update s.msgs k { m with text := some text } }, numberOf k)

/-- `set_gai_errno` -/
def setGaiErrno (s : State) (no : Int) : Option (State × Int) :=
  if no = 0 then some (s, 0)
  else do
    let (s, k) ← allocMsg p s .gai
    some ({ s with msgs := Function.update s.msgs k { source := .gai, error := no } }, numberOf k)

/-- `set_error_report_errno` -/
def setErrorReportErrno (s : State) : Option Nat → Option (State × Int)
  | none => some (s, 0)
  | some id => do
    let (s, k) ← allocMsg p s .report
    let r ← s.reports id
    let m : ErrorMessage :=
      { source := .report, error := wrapInt (r.code + stdErrBase), report := some id }
    some ({ s with
      msgs := Function.update s.msgs k m
      reports := Function.update s.reports id (some { r with refs := r.refs + 1 }) }, numberOf k)

/-- The code that a new report has: the number itself, or what stands in its entry. -/
def reportCode (s : State) (err : Int) : Int :=
  if isMessage p err then
    if (s.message err).source = .message then (s.message err).error else errOther
  else err

/-- The report that `get_error_report` makes of a number which has none. -/
def newReport (s : State) (err : Int) (time : Nat) (format : Text) : Option Report :=
  let code := reportCode p s err
  if code < stdErrBase ∨ errMessageMin + p.messageCnt ≤ code then
    some { code := errOther - stdErrBase, format := some format, timeStamp := time
           posixCode := code
           props := [(ascii "AltOrg", ascii "\"" ++ p.altOrg ++ ascii "\""),
             (ascii "AltCode", decimal (code % 2 ^ 64).toNat)] }
  else if code < errMessageMin then
    some { code := code - stdErrBase, format := some format, timeStamp := time }
  else none

/-- `get_error_report`, at a time of the clock. -/
def getErrorReport (s : State) (err : Int) (time : Nat) : Option (State × Option Nat) :=
  if err = 0 then some (s, none)
  else
    let m := s.message err
    if isMessage p err ∧ m.report.isSome then do
      let id ← m.report
      let r ← s.reports id
      let r := { r with refs := r.refs + 1, gets := r.gets + 1 }
      some ({ s with reports := Function.update s.reports id (some r) }, some id)
    else
      match errnoToStr p s p.fuel err with
      | .ok (some format) => do
        let r ← newReport p s err time format
        let id := s.next
        if isMessage p err then
          let k := (err - errMessageMin).toNat
          some ({ s with
            msgs := Function.update s.msgs k { m with report := some id }
            reports := Function.update s.reports id (some { r with refs := 2 })
            next := id + 1 }, some id)
        else
          some ({ s with
            reports := Function.update s.reports id (some r)
            next := id + 1 }, some id)
      | _ => none

/-- `release_error_report` -/
def releaseErrorReport (s : State) : Option Nat → Option State
  | none => some s
  | some id => do
    let r ← s.reports id
    if r.gets = 0 then none
    else
      releaseReport { s with
        reports := Function.update s.reports id (some { r with gets := r.gets - 1 }) } (some id)

/-- The members of an error object, as they are read: the standard ones and others. -/
inductive ErrorField where
  | code (n : Int)
  | time (t : Nat)
  | format (f : Option Text)
  | params (ps : List Text)
  | other (name value : Text)
deriving DecidableEq, Repr

def Report.addField (r : Report) : ErrorField → Report
  | .code n => { r with code := wrapInt n }
  | .time t => { r with timeStamp := t }
  | .format f => { r with format := f }
  | .params ps => { r with params := r.params ++ ps }
  | .other name value => { r with props := (name, value) :: r.props }

/-- The report that `read_error_object` makes of an object. -/
def readReport (fields : List ErrorField) : Report := fields.foldl Report.addField {}

/-- `read_error_object`, when it has come to the end of the object; `null` and an object without
members are no error. -/
def readErrorObject (s : State) (fields : List ErrorField) : Option (State × Int) :=
  let r := readReport fields
  if r.code = 0 then some (s, 0)
  else do
    let id := s.next
    let s := { s with reports := Function.update s.reports id (some r), next := id + 1 }
    let (s, no) ← setErrorReportErrno p s (some id)
    let s ← releaseErrorReport s (some id)
    some (s, no)

/-! ## Runs -/

/-- Calls of the functions on errors. -/
inductive Event where
  | setErrno (no : Int) (msg : Option Text)
  | setGaiErrno (no : Int)
  | setErrorReportErrno (report : Option Nat)
  | getErrorReport (err : Int) (time : Nat)
  | releaseErrorReport (report : Option Nat)
  | readErrorObject (fields : List ErrorField)
deriving DecidableEq, Repr

def step (s : State) : Event → Option State
  | .setErrno no msg => (setErrno p s no msg).map Prod.fst
  | .setGaiErrno no => (setGaiErrno p s no).map Prod.fst
  | .setErrorReportErrno report => (setErrorReportErrno p s report).map Prod.fst
  | .getErrorReport err time => (getErrorReport p s err time).map Prod.fst
  | .releaseErrorReport report => releaseErrorReport s report
  | .readErrorObject fields => (readErrorObject p s fields).map Prod.fst

end

end TcfAgent.Errors
