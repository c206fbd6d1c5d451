import Mathlib.Logic.Relation
import TcfAgent.Framework.ErrorNumbers
import TcfAgent.Lib.Fallible

/-!
# Errors that go from one agent to another

`framework/json.c` writes an error number as an object, made from the report of the error, and
reads such an object as an error of its own. The message of an error that `set_errno` has made
becomes the format of its report, and is expanded where the text of the error is asked for.

Main results:

* `readErrorText_write`  — an object that has no parameters and no other members is read as it
  was written;
* `format_eq_self`       — a format stands for itself when it has no quote and no left brace,
  and only then;
* `error_text_survives`  — this is when the text of an error is the same after it has been
  reported, here and over any number of transfers.
-/

namespace TcfAgent.Errors

open TcfAgent.Lib TcfAgent.JsonText TcfAgent.JsonString

/-! ## Error objects -/

/-- A member of an error object. -/
def writeMember (name : String) (value : Text) : Text := jsonWriteString (ascii name) ++ 58 :: value

/-- `write_error_props` -/
def writeErrorProps (rep : Report) : Text :=
  (if rep.timeStamp ≠ 0 then 44 :: writeMember "Time" (decimal rep.timeStamp) else []) ++
    (match rep.format with
      | some format => 44 :: writeMember "Format" (jsonWriteString format)
      | none => []) ++
    (if rep.params ≠ [] then
      44 :: writeMember "Params" (91 :: (List.intercalate [44] rep.params ++ [93]))
    else []) ++
    rep.props.flatMap fun (name, value) => 44 :: (jsonWriteString name ++ 58 :: value)

section

variable (p : Platform) (readObject : Text → Option (Text × Text))

/-- `write_error_object`: what is written, and the state after it. -/
def writeErrorObject (s : State) (err : Int) (time : Nat) : Option (State × Text) := do
  match ← getErrorReport p s err time with
  | (s, none) => some (s, ascii "null")
  | (s, some id) => do
    let rep ← s.reports id
    let s ← releaseErrorReport s (some id)
    some (s, 123 :: (writeMember "Code" (jsonWriteLong rep.code) ++ writeErrorProps rep ++ [125]))

/-- `write_errno` -/
def writeErrno (s : State) (err : Int) (time : Nat) : Option (State × Text) :=
  if err ≠ 0 then (writeErrorObject p s err time).map fun (s, text) => (s, text ++ [0])
  else some (s, [0])

/-- A round of the loop of `read_error_object`, with `json_read_object` for the values that are
kept as they are. -/
def readField (text : Text) : Option (ErrorField × Text) :=
  match jsonReadString text with
  | ⟨_, none⟩ => none
  | ⟨written, some text⟩ => do
    let name := cString (written.take 255)
    let text ← jsonTestChar text 58
    if name = ascii "Code" then (jsonReadLong text).map fun (n, text) => (.code n, text)
    else if name = ascii "Time" then (jsonReadUint64 text).map fun (t, text) => (.time t, text)
    else if name = ascii "Format" then
      (jsonReadAllocString text).map fun (f, text) => (.format f, text)
    else if name = ascii "Params" then
      (jsonReadArray readObject text).map fun (ps, text) => (.params ps, text)
    else (readObject text).map fun (value, text) => (.other name value, text)

/-- The loop of `read_error_object`; every round takes something of the text. -/
def readFields : (fuel : Nat) → Text → Option (List ErrorField × Text)
  | 0, _ => none
  | fuel + 1, text => do
    let (field, text) ← readField readObject text
    match text.dropWhile isSpace with
    | 44 :: text => (readFields fuel text).map fun (fields, text) => (field :: fields, text)
    | 125 :: text => some ([field], text)
    | _ => none

/-- What `read_error_object` takes of a text. -/
def readErrorText (text : Text) : Option (List ErrorField × Text) :=
  match text.dropWhile isSpace with
  | 110 :: 117 :: 108 :: 108 :: rest => some ([], rest)
  | 123 :: rest =>
    match rest.dropWhile isSpace with
    | 125 :: rest => some ([], rest)
    | _ => readFields readObject rest.length rest
  | _ => none

/-- `read_errno`: the error number, and what follows in the message. -/
def readErrno (s : State) (text : Text) : Option (State × Int × Text) :=
  match text.dropWhile isSpace with
  | 0 :: rest => some (s, 0, rest)
  | text => do
    let (fields, text) ← readErrorText readObject text
    let (s, no) ← readErrorObject p s fields
    let text ← jsonTestChar text 0
    some (s, no, text)

end

/-! ## An object is read as it was written -/

section

variable {readObject : Text → Option (Text × Text)} {rest : Text}

theorem jsonReadString_member (name : String) (value rest : Text) :
    jsonReadString (writeMember name value ++ rest) =
      ⟨ascii name, some (58 :: (value ++ rest))⟩ := by
  unfold writeMember
  rw [List.append_assoc, List.cons_append, jsonReadString_write]

theorem jsonTestChar_colon (text : Text) : jsonTestChar (58 :: text) 58 = some text := by
  simp [jsonTestChar, isSpace]

theorem readField_code {n : Nat} (hn : n < 2 ^ 63) (hRest : NoDigit rest) :
    readField readObject (writeMember "Code" (jsonWriteLong n) ++ rest) =
      some (.code n, rest) := by
  have hName : cString ((ascii "Code").take 255) = ascii "Code" := by decide
  simp only [readField, jsonReadString_member, jsonTestChar_colon, Option.bind_eq_bind,
    Option.bind_some, hName, ↓reduceIte, jsonReadLong_write hn hRest, Option.map_some]

theorem readField_time {t : Nat} (ht : t < 2 ^ 64) (hRest : NoDigit rest) :
    readField readObject (writeMember "Time" (decimal t) ++ rest) = some (.time t, rest) := by
  have hName : cString ((ascii "Time").take 255) = ascii "Time" := by decide
  have hNe : ascii "Time" ≠ ascii "Code" := by decide
  simp only [readField, jsonReadString_member, jsonTestChar_colon, Option.bind_eq_bind,
    Option.bind_some, hName, if_neg hNe, ↓reduceIte, jsonReadUint64_write ht hRest,
    Option.map_some]

theorem readField_format {f : Text} (hf : 0 ∉ f) (rest : Text) :
    readField readObject (writeMember "Format" (jsonWriteString f) ++ rest) =
      some (.format (some f), rest) := by
  have hName : cString ((ascii "Format").take 255) = ascii "Format" := by decide
  have hCode : ascii "Format" ≠ ascii "Code" := by decide
  have hTime : ascii "Format" ≠ ascii "Time" := by decide
  simp only [readField, jsonReadString_member, jsonTestChar_colon, Option.bind_eq_bind,
    Option.bind_some, hName, if_neg hCode, if_neg hTime, ↓reduceIte,
    jsonReadAllocString_write hf, Option.map_some]

theorem readFields_comma {text : Text} {field : ErrorField} {fields : List ErrorField} {fuel : Nat}
    {text' : Text} (hField : readField readObject text = some (field, 44 :: text'))
    (hRest : readFields readObject fuel text' = some (fields, rest)) :
    readFields readObject (fuel + 1) text = some (field :: fields, rest) := by
  have hSkip : (44 :: text').dropWhile isSpace = 44 :: text' := rfl
  simp only [readFields, hField, Option.bind_eq_bind, Option.bind_some, hSkip, hRest,
    Option.map_some]

theorem readFields_brace {text : Text} {field : ErrorField} {fuel : Nat}
    (hField : readField readObject text = some (field, 125 :: rest)) :
    readFields readObject (fuel + 1) text = some ([field], rest) := by
  have hSkip : (125 :: rest).dropWhile isSpace = 125 :: rest := rfl
  simp only [readFields, hField, Option.bind_eq_bind, Option.bind_some, hSkip]

/-- The members that are written for a report without parameters. -/
def fieldsOf (code time : Nat) (format : Text) : List ErrorField :=
  if time = 0 then [.code code, .format (some format)]
  else [.code code, .time time, .format (some format)]

/-- The object that is written for a report without parameters. -/
def objectOf (code time : Nat) (format : Text) : Text :=
  123 :: (writeMember "Code" (jsonWriteLong code) ++
    (if time ≠ 0 then 44 :: writeMember "Time" (decimal time) else []) ++
    44 :: writeMember "Format" (jsonWriteString format) ++ [125])

theorem readErrorText_open (name : String) (value tail : Text) :
    readErrorText readObject (123 :: (writeMember name value ++ tail)) =
      readFields readObject (writeMember name value ++ tail).length
        (writeMember name value ++ tail) := rfl

theorem length_writeMember (name : String) (value tail : Text) :
    ∃ m, (writeMember name value ++ tail).length = m + 3 := by
  refine ⟨(writeMember name value ++ tail).length - 3, ?_⟩
  simp only [writeMember, jsonWriteString, List.length_append, List.length_cons, List.length_nil]
  omega

theorem readErrorText_write {code time : Nat} {format : Text} (hCode : code < 2 ^ 63)
    (hTime : time < 2 ^ 64) (hFormat : 0 ∉ format) (rest : Text) :
    readErrorText readObject (objectOf code time format ++ rest) =
      some (fieldsOf code time format, rest) := by
  have hComma (text : Text) : NoDigit (44 :: text) := noDigit_cons rfl text
  have hLast : readField readObject (writeMember "Format" (jsonWriteString format) ++ 125 :: rest) =
      some (.format (some format), 125 :: rest) := readField_format hFormat _
  unfold fieldsOf objectOf
  by_cases hZero : time = 0
  · simp only [hZero, ne_eq, not_true_eq_false, ↓reduceIte, List.append_nil, List.cons_append,
      List.append_assoc, List.nil_append]
    rw [readErrorText_open]
    obtain ⟨m, hFuel⟩ := length_writeMember "Code" (jsonWriteLong code)
      (44 :: (writeMember "Format" (jsonWriteString format) ++ 125 :: rest))
    rw [hFuel]
    exact readFields_comma (readField_code hCode (hComma _)) (readFields_brace hLast)
  · simp only [hZero, ne_eq, not_false_eq_true, ↓reduceIte, List.cons_append, List.append_assoc,
      List.nil_append]
    rw [readErrorText_open]
    obtain ⟨m, hFuel⟩ := length_writeMember "Code" (jsonWriteLong code)
      (44 :: (writeMember "Time" (decimal time) ++
        44 :: (writeMember "Format" (jsonWriteString format) ++ 125 :: rest)))
    rw [hFuel]
    exact readFields_comma (readField_code hCode (hComma _))
      (readFields_comma (readField_time hTime (hComma _)) (readFields_brace hLast))

end

/-! ## Formats that stand for themselves -/

/-- Without a character that `format_error_report_message` gives a meaning. -/
def Plain (t : Text) : Prop := quote ∉ t ∧ leftBrace ∉ t

instance (t : Text) : Decidable (Plain t) := inferInstanceAs (Decidable (_ ∧ _))

theorem plain_cons {c : UInt8} {t : Text} :
    Plain (c :: t) ↔ (c ≠ quote ∧ c ≠ leftBrace) ∧ Plain t := by
  simp only [Plain, List.mem_cons, not_or, ne_eq]
  constructor
  · rintro ⟨⟨hQuote, hTail⟩, hBrace, hTail'⟩
    exact ⟨⟨Ne.symm hQuote, Ne.symm hBrace⟩, hTail, hTail'⟩
  · rintro ⟨⟨hQuote, hBrace⟩, hTail, hTail'⟩
    exact ⟨⟨Ne.symm hQuote, hTail⟩, Ne.symm hBrace, hTail'⟩

theorem plain_append {t u : Text} : Plain (t ++ u) ↔ Plain t ∧ Plain u := by
  simp only [Plain, List.mem_append, not_or]
  constructor
  · rintro ⟨⟨h1, h2⟩, h3, h4⟩
    exact ⟨⟨h1, h3⟩, h2, h4⟩
  · rintro ⟨⟨h1, h3⟩, h2, h4⟩
    exact ⟨⟨h1, h2⟩, h3, h4⟩

section

variable {p : Platform}

theorem formatLoop_plain {fmt : Text} (h : Plain fmt) {fuel : Nat} (hFuel : fmt.length ≤ fuel) :
    formatLoop p [] fuel false fmt = .ok fmt := by
  induction fmt generalizing fuel with
  | nil => cases fuel <;> rfl
  | cons c fmt ih =>
    obtain ⟨fuel, rfl⟩ : ∃ m, fuel = m + 1 := ⟨fuel - 1, by simp at hFuel; omega⟩
    obtain ⟨⟨hQuote, hBrace⟩, hPlain⟩ := plain_cons.1 h
    simp only [formatLoop, if_neg hQuote, if_neg hBrace, ih hPlain (Nat.le_of_succ_le_succ hFuel)]
    rfl

theorem typeAndStyle_length (t : Text) : (typeAndStyle t).2.2.length ≤ t.length := by
  have hDrop (u : Text) : (u.dropWhile isLower).length ≤ u.length :=
    (List.dropWhile_sublist isLower).length_le
  unfold typeAndStyle
  split
  · exact Nat.le_refl _
  · rename_i c t
    split
    · have hType := hDrop t
      split
      · exact Nat.zero_le _
      · rename_i d u hRest
        rw [hRest] at hType
        have hStyle := hDrop u
        simp only [List.length_cons] at hType ⊢
        split <;> simp only [List.length_cons] <;> omega
    · exact Nat.le_refl _

/-- Without parameters, nothing stands for a placeholder. -/
theorem placeholder_nil {fmt shown rest : Text} (h : placeholder p [] fmt = .ok (shown, rest)) :
    shown = [] ∧ rest.length ≤ fmt.length := by
  unfold placeholder at h
  simp only [List.getElem?_nil] at h
  split at h
  · cases h
  · cases h
    refine ⟨rfl, ?_⟩
    have hDigits := (List.dropWhile_sublist (l := fmt) isDigit).length_le
    have hType := typeAndStyle_length (fmt.dropWhile isDigit)
    exact (List.drop_sublist _ _).length_le.trans
      ((List.dropWhile_sublist _).length_le.trans (hType.trans hDigits))

/-- The text is never longer than the format, and as long only when the format has no quote and,
outside quotes, no left brace. -/
theorem formatLoop_length {fuel : Nat} {inQuotes : Bool} {fmt out : Text}
    (h : formatLoop p [] fuel inQuotes fmt = .ok out) :
    out.length ≤ fmt.length ∧
      (out.length = fmt.length → quote ∉ fmt ∧ (inQuotes = false → leftBrace ∉ fmt)) := by
  induction fuel generalizing inQuotes fmt out with
  | zero =>
    cases fmt with
    | nil =>
      cases h
      simp
    | cons ch fmt => cases h
  | succ fuel ih =>
    match inQuotes, fmt with
    | _, [] =>
      cases h
      simp
    | true, ch :: fmt =>
      simp only [formatLoop] at h
      split at h
      · obtain ⟨hLe, -⟩ := ih h
        exact ⟨by simp only [List.length_cons]; omega,
          fun hEq => by simp only [List.length_cons] at hEq; omega⟩
      · rename_i hQuote
        obtain ⟨out, hOut, rfl⟩ := Fallible.map_eq_ok h
        obtain ⟨hLe, hSame⟩ := ih hOut
        refine ⟨Nat.succ_le_succ hLe, fun hEq => ⟨?_, fun hFalse => by cases hFalse⟩⟩
        have hTail := (hSame (Nat.succ.inj hEq)).1
        simp only [List.mem_cons, not_or]
        exact ⟨Ne.symm hQuote, hTail⟩
    | false, ch :: fmt =>
      simp only [formatLoop] at h
      split at h
      · -- a quote is dropped, or the first of two
        split at h
        · cases h
          exact ⟨Nat.zero_le _, fun hEq => by cases hEq⟩
        · rename_i d fmt
          split at h
          · obtain ⟨out, hOut, rfl⟩ := Fallible.map_eq_ok h
            obtain ⟨hLe, -⟩ := ih hOut
            exact ⟨by simp only [List.length_cons]; omega,
              fun hEq => by simp only [List.length_cons] at hEq; omega⟩
          · obtain ⟨hLe, -⟩ := ih h
            exact ⟨Nat.le_succ_of_le hLe,
              fun hEq => by simp only [List.length_cons] at hEq hLe; omega⟩
      · rename_i hQuote
        split at h
        · obtain ⟨⟨shown, rest⟩, hShown, h⟩ := Fallible.bind_eq_ok h
          obtain ⟨out, hOut, rfl⟩ := Fallible.map_eq_ok h
          obtain ⟨rfl, hRest⟩ := placeholder_nil hShown
          have hLe : out.length ≤ rest.length := (ih hOut).1
          exact ⟨by simp only [List.nil_append, List.length_cons]; omega,
            fun hEq => by simp only [List.nil_append, List.length_cons] at hEq; omega⟩
        · rename_i hBrace
          obtain ⟨out, hOut, rfl⟩ := Fallible.map_eq_ok h
          obtain ⟨hLe, hSame⟩ := ih hOut
          refine ⟨Nat.succ_le_succ hLe, fun hEq => ?_⟩
          obtain ⟨hTail, hTail'⟩ := hSame (Nat.succ.inj hEq)
          simp only [List.mem_cons, not_or]
          exact ⟨⟨Ne.symm hQuote, hTail⟩, fun _ => ⟨Ne.symm hBrace, hTail' rfl⟩⟩

/-- A format stands for itself when nothing in it has a meaning, and only then. -/
theorem format_eq_self (fmt : Text) :
    formatErrorReportMessage p fmt [] = .ok fmt ↔ Plain fmt := by
  constructor
  · intro h
    obtain ⟨-, hSame⟩ := formatLoop_length h
    obtain ⟨hQuote, hBrace⟩ := hSame rfl
    exact ⟨hQuote, hBrace rfl⟩
  · intro h
    exact formatLoop_plain h (Nat.le_refl _)

end

/-! ## An error and its report -/

/-- What is written of the report of a TCF code, made at a time. -/
structure Report.Shows (r : Report) (no : Int) (format : Text) (time : Nat) : Prop where
  code      : r.code = no - stdErrBase
  format    : r.format = some format
  params    : r.params = []
  timeStamp : r.timeStamp = time
  props     : r.props = []
  posixCode : r.posixCode = 0

/-- The entry has a message and no report. -/
structure Made (p : Platform) (s : State) (k : Nat) (no : Int) (text : Text) : Prop where
  ready : Ready p s
  lt    : k < p.messageCnt
  entry : s.msgs k = { source := .message, error := no, text := some text }

/-- The entry has a report. -/
structure Reported (p : Platform) (s : State) (k id : Nat) (no : Int) (format : Text)
    (time : Nat) : Prop where
  ready   : Ready p s
  lt      : k < p.messageCnt
  source  : (s.msgs k).source = .report ∨ (s.msgs k).source = .message
  error   : (s.msgs k).error = no
  report  : (s.msgs k).report = some id
  content : ∃ r, s.reports id = some r ∧ r.Shows no format time

section

variable {p : Platform} {s : State} {k id : Nat} {no : Int} {format : Text} {time : Nat}

variable {str : Text}

theorem stdText_range (h : stdText no = some str) :
    errOther ≤ no ∧ no < errOther + 29 ∧ ∃ t ∈ stdTexts, str = ascii t := by
  unfold stdText at h
  split at h
  · cases h
  · obtain ⟨t, ht, rfl⟩ := Option.map_eq_some_iff.1 h
    have hLength : stdTexts.length = 29 := rfl
    have hIndex := (List.getElem?_eq_some_iff.1 ht).1
    exact ⟨by omega, by omega, t, List.mem_of_getElem? ht, rfl⟩

theorem isMessage_stdText (h : stdText no = some str) : isMessage p no = false := by
  obtain ⟨-, hLt, -⟩ := stdText_range h
  simp only [errOther] at hLt
  unfold isMessage errMessageMin
  exact decide_eq_false (by omega)

theorem errnoToStr_stdText (h : stdText no = some str) (s : State) :
    errnoToStr p s p.fuel no = .ok (some str) := by
  unfold Platform.fuel
  rw [errnoToStr, h]

theorem getErrorCode_stdText (h : stdText no = some str) (s : State) (fuel : Nat) :
    getErrorCode p s (fuel + 1) no = some no := by
  simp [getErrorCode, isMessage_stdText (p := p) h]

theorem code_of_next (h : stdText no = some str)
    (hNext : nextCode p s (numberOf k) = some no) :
    getErrorCode p s p.fuel (numberOf k) = some no := by
  obtain ⟨m, hFuel⟩ : ∃ m, p.messageCnt = m + 1 := Nat.exists_eq_add_one.2 p.hMessageCnt
  unfold Platform.fuel
  rw [getErrorCode_succ, hNext, hFuel]
  exact getErrorCode_stdText h s m

/-- The text that `set_errno` gives an error. -/
def shownText (no : Int) (str msg : Text) : Text := if no = errOther then msg else joinTexts msg str

theorem setErrno_made (h : Ready p s) (hNo : stdText no = some str) (msg : Text) :
    ∃ t, setErrno p s no (some msg) = some (t, numberOf s.msgsPos) ∧
      Made p t s.msgsPos no (shownText no str msg) := by
  have hNe : no ≠ 0 := by
    rintro rfl
    cases hNo
  have hText (u : State) : messageText p u no msg = some (shownText no str msg) := by
    unfold messageText shownText
    split
    · rfl
    · simp only [errnoToStr_stdText hNo]
  have hSet : setErrno p s no (some msg) = some
      ({ cleared p s .message with
        msgs := Function.update s.msgs s.msgsPos
          { source := .message, error := no, text := some (shownText no str msg) } },
        numberOf s.msgsPos) := by
    simp only [setErrno, if_neg hNe, allocMsg_eq h, Option.bind_eq_bind, Option.bind_some, hText,
      getErrorCode_stdText hNo, Platform.fuel, cleared, Function.update_idem]
  exact ⟨_, hSet, setErrno_ready h hSet, h.pos, Function.update_self ..⟩

variable {text : Text}

theorem Made.text_eq (h : Made p s k no text) :
    errnoToStr p s p.fuel (numberOf k) = .ok (some text) := by
  unfold Platform.fuel
  rw [errnoToStr_message (isMessage_numberOf h.lt), message_numberOf, h.entry]
  rfl

theorem Made.code_eq (h : Made p s k no text)
    (hNo : stdText no = some str) : getErrorCode p s p.fuel (numberOf k) = some no := by
  refine code_of_next hNo ((nextCode_eq_some h.lt).2 ?_)
  rw [h.entry]
  exact ⟨.inr rfl, rfl, fun r hr => by simp [State.reportOf] at hr⟩

/-- The message of an entry becomes the format of its report. -/
theorem Made.get (h : Made p s k no text) (hNo : stdText no = some str)
    (time : Nat) :
    ∃ u id r, getErrorReport p s (numberOf k) time = some (u, some id) ∧
      Reported p u k id no text time ∧ Held u id r := by
  obtain ⟨hFirst, hLast, -⟩ := stdText_range hNo
  simp only [errOther] at hFirst hLast
  have hText := h.text_eq
  have hCode : reportCode p s (numberOf k) = no := by
    simp [reportCode, isMessage_numberOf h.lt, h.entry]
  have hNew : newReport p s (numberOf k) time text =
      some { code := no - stdErrBase, format := some text, timeStamp := time } := by
    simp only [newReport, hCode, errMessageMin]
    rw [if_neg (by omega), if_pos (by omega)]
  let r : Report := { code := no - stdErrBase, format := some text, timeStamp := time, refs := 2 }
  let u : State :=
    { s with
      msgs := Function.update s.msgs k { s.msgs k with report := some s.next }
      reports := Function.update s.reports s.next (some r)
      next := s.next + 1 }
  have hGet : getErrorReport p s (numberOf k) time = some (u, some s.next) := by
    have hIndex : (numberOf k - errMessageMin).toNat = k := by simp [numberOf]
    simp [getErrorReport, numberOf_ne_zero, isMessage_numberOf h.lt, h.entry, hText, hNew, hIndex,
      u, r]
  have hEntry : u.msgs k = { s.msgs k with report := some s.next } := Function.update_self ..
  have hReport : u.reports s.next = some r := Function.update_self ..
  rw [h.entry] at hEntry
  exact ⟨u, s.next, r, hGet, ⟨getErrorReport_ready h.ready hGet, h.lt, .inr (by rw [hEntry]),
    by rw [hEntry], by rw [hEntry], r, hReport, ⟨rfl, rfl, rfl, rfl, rfl, rfl⟩⟩,
    hReport, Nat.one_pos⟩

theorem Reported.get (h : Reported p s k id no format time) (t : Nat) :
    ∃ u r, getErrorReport p s (numberOf k) t = some (u, some id) ∧
      Reported p u k id no format time ∧ Held u id r := by
  obtain ⟨r, hr, hShows⟩ := h.content
  have hGet : getErrorReport p s (numberOf k) t = some
      ({ s with
        reports := Function.update s.reports id
          (some { r with refs := r.refs + 1, gets := r.gets + 1 }) }, some id) := by
    simp [getErrorReport, numberOf_ne_zero, isMessage_numberOf h.lt, h.report, hr]
  have hSelf := Function.update_self id (some { r with refs := r.refs + 1, gets := r.gets + 1 })
    s.reports
  exact ⟨_, _, hGet, ⟨getErrorReport_ready h.ready hGet, h.lt, h.source, h.error, h.report,
    _, hSelf, { hShows with }⟩, hSelf, Nat.succ_pos _⟩

theorem Reported.release (h : Reported p s k id no format time) {r : Report} (hHeld : Held s id r) :
    ∃ t, releaseErrorReport s (some id) = some t ∧ Reported p t k id no format time := by
  obtain ⟨hr, hGets⟩ := hHeld
  obtain ⟨r', hr', hShows⟩ := h.content
  cases hr.symm.trans hr'
  have hHolds := holders_pos h.lt h.report
  obtain ⟨hRefs, -⟩ := h.ready.counted.refs id r hr
  have hMore : r.refs ≠ 1 := by omega
  have hRelease := releaseErrorReport_eq h.ready hr (by omega)
  rw [if_neg hMore] at hRelease
  exact ⟨_, hRelease, releaseErrorReport_ready h.ready hRelease, h.lt, h.source, h.error,
    h.report, _, Function.update_self .., { hShows with }⟩

/-- The text of an error that has a report. -/
theorem Reported.text_eq (h : Reported p s k id no format time) :
    errnoToStr p s p.fuel (numberOf k) = some <$> formatErrorReportMessage p format [] := by
  obtain ⟨r, hr, hShows⟩ := h.content
  have hFormat : s.formatOf (s.msgs k) = some (format, []) := by
    simp [State.formatOf, State.reportOf, h.report, hr, hShows.format, hShows.params]
  unfold Platform.fuel
  rw [errnoToStr_message (isMessage_numberOf h.lt), message_numberOf, hFormat]

theorem Reported.code_eq (h : Reported p s k id no format time)
    (hNo : stdText no = some str) : getErrorCode p s p.fuel (numberOf k) = some no := by
  obtain ⟨r, hr, hShows⟩ := h.content
  refine code_of_next hNo ((nextCode_eq_some h.lt).2 ⟨h.source, h.error, fun r' hr' => ?_⟩)
  simp only [State.reportOf, h.report, Option.bind_some, hr, Option.some.injEq] at hr'
  exact hr' ▸ hShows.posixCode

/-- What is written of an error. -/
theorem Reported.write (h : Reported p s k id no format time) {r : Report} (hHeld : Held s id r)
    (hNo : stdText no = some str) {v : State} {t : Nat}
    (hGet : getErrorReport p v (numberOf k) t = some (s, some id)) :
    ∃ u, writeErrno p v (numberOf k) t =
        some (u, objectOf (no - stdErrBase).toNat time format ++ [0]) ∧
      Reported p u k id no format time := by
  obtain ⟨r', hr, hShows⟩ := h.content
  obtain ⟨u, hRelease, hReported⟩ := h.release hHeld
  obtain ⟨hFirst, -⟩ := stdText_range hNo
  simp only [errOther] at hFirst
  have hCode : r'.code = ((no - stdErrBase).toNat : Int) := by
    rw [hShows.code]
    omega
  have hProps : writeErrorProps r' =
      (if time ≠ 0 then 44 :: writeMember "Time" (decimal time) else []) ++
        44 :: writeMember "Format" (jsonWriteString format) := by
    simp [writeErrorProps, hShows.timeStamp, hShows.format, hShows.params, hShows.props]
  refine ⟨u, ?_, hReported⟩
  simp only [writeErrno, ne_eq, numberOf_ne_zero, not_false_eq_true, ↓reduceIte, writeErrorObject,
    hGet, Option.bind_eq_bind, Option.bind_some, hr, hRelease, hCode, hProps, Option.map_some,
    objectOf, List.append_assoc, List.cons_append]

theorem readErrno_object (readObject : Text → Option (Text × Text)) (code : Nat) (rest : Text) :
    readErrno p readObject s (objectOf code time format ++ rest) =
      (readErrorText readObject (objectOf code time format ++ rest)).bind fun (fields, text) =>
        (readErrorObject p s fields).bind fun (s, no) =>
          (jsonTestChar text 0).bind fun text => some (s, no, text) := rfl

/-- What is read is the error that was written. -/
theorem readErrno_reported (h : Ready p s) (hNo : stdText no = some str)
    (hTime : time < 2 ^ 64) (hFormat : 0 ∉ format) (readObject : Text → Option (Text × Text))
    (rest : Text) :
    ∃ t id, readErrno p readObject s (objectOf (no - stdErrBase).toNat time format ++ [0] ++ rest) =
        some (t, numberOf s.msgsPos, rest) ∧
      Reported p t s.msgsPos id no format time := by
  obtain ⟨hFirst, hLast, -⟩ := stdText_range hNo
  simp only [errOther] at hFirst hLast
  let code := (no - stdErrBase).toNat
  let fields := fieldsOf code time format
  let r : Report := { code := no - stdErrBase, format := some format, timeStamp := time }
  have hRead : readReport fields = r := by
    have hCode : wrapInt (code : Int) = no - stdErrBase := by
      unfold wrapInt
      rw [Int.bmod_eq_of_le (by omega) (by omega)]
      omega
    by_cases hZero : time = 0
    · simp [fields, fieldsOf, readReport, Report.addField, hZero, hCode, r]
    · simp [fields, fieldsOf, readReport, Report.addField, hZero, hCode, r]
  have hReady : Ready p (withReport s r) := hRead ▸ withReport_ready h fields
  have hNew : (withReport s r).reports s.next = some r := Function.update_self ..
  have hKeep : released (withReport s r) s.msgsPos s.next = some r := by
    rw [released_of_ne, hNew]
    intro hHolds
    exact h.counted.live _ h.pos _ hHolds (h.counted.fresh _ le_rfl)
  -- the new report is held by its message and by the reader, which lets it go
  let t : State :=
    { cleared p (withReport s r) .report with
      msgs := Function.update s.msgs s.msgsPos
        { source := .report, error := wrapInt (r.code + stdErrBase), report := some s.next }
      reports := Function.update (released (withReport s r) s.msgsPos) s.next
        (some { r with refs := 2 }) }
  have hSet : setErrorReportErrno p (withReport s r) (some s.next) =
      some (t, numberOf s.msgsPos) := by
    rw [setErrorReportErrno, allocMsg_eq hReady]
    show ((released (withReport s r) s.msgsPos s.next).bind _) = _
    rw [hKeep]
    simp [cleared, withReport, Function.update_idem, t, r]
  have hEntry : t.msgs s.msgsPos =
      { source := .report, error := wrapInt (r.code + stdErrBase), report := some s.next } :=
    Function.update_self ..
  have hReport : t.reports s.next = some { r with refs := 2 } := Function.update_self ..
  have hError : wrapInt (r.code + stdErrBase) = no := by
    show wrapInt (no - stdErrBase + stdErrBase) = no
    rw [Int.sub_add_cancel, wrapInt_of_lt (by omega) (by unfold errMessageMin; omega)]
  rw [hError] at hEntry
  have hMade : Reported p t s.msgsPos s.next no format time :=
    ⟨setErrorReportErrno_ready hReady hSet, h.pos, .inl (by rw [hEntry]), by rw [hEntry],
      by rw [hEntry], _, hReport, ⟨rfl, rfl, rfl, rfl, rfl, rfl⟩⟩
  obtain ⟨u, hRelease, hReported⟩ := hMade.release ⟨hReport, Nat.one_pos⟩
  have hObject : readErrorObject p s fields = some (u, numberOf s.msgsPos) := by
    have hCode : r.code ≠ 0 := by
      show no - stdErrBase ≠ 0
      omega
    simp only [readErrorObject, hRead, if_neg hCode]
    show (setErrorReportErrno p (withReport s r) (some s.next)).bind _ = _
    rw [hSet]
    show (releaseErrorReport t (some s.next)).bind _ = _
    rw [hRelease]
    rfl
  refine ⟨u, s.next, ?_, hReported⟩
  rw [List.append_assoc, readErrno_object, readErrorText_write (by omega) hTime hFormat,
    Option.bind_some]
  show (readErrorObject p s fields).bind _ = _
  rw [hObject]
  rfl

end

/-! ## Transfers -/

/-- An agent, with an error number of its own. -/
structure Holder where
  platform : Platform
  state    : State
  no       : Int

def Holder.text (a : Holder) : Except Fault (Option Text) :=
  errnoToStr a.platform a.state a.platform.fuel a.no

def Holder.code (a : Holder) : Option Int :=
  getErrorCode a.platform a.state a.platform.fuel a.no

/-- The report of the error. -/
def Holder.report (a : Holder) : Option Report := a.state.reportOf (a.state.message a.no)

/-- A run of successful steps leads to the state. -/
def Reached (p : Platform) (s : State) : Prop := ∃ es, run (step p) {} es = some s

/-- The same parameters and time stamp, and the same set of properties. -/
structure Report.SameData (r r' : Report) : Prop where
  params    : r'.params = r.params
  timeStamp : r'.timeStamp = r.timeStamp
  props     : ∀ prop, prop ∈ r'.props ↔ prop ∈ r.props

section

variable (readObject : Text → Option (Text × Text))

/-- `read_errno`, in any agent, reads what `write_errno` wrote, whatever follows it. -/
def Reads (text : Text) (b : Holder) : Prop :=
  ∃ s rest, Reached b.platform s ∧
    readErrno b.platform readObject s (text ++ rest) = some (b.state, b.no, rest)

/-- The error is sent on at a time of the clock. -/
def Transfer (a b : Holder) : Prop :=
  ∃ time < 2 ^ 64, ∃ u text, writeErrno a.platform a.state a.no time = some (u, text) ∧
    Reads readObject text b

/-- The error can be sent, and every agent can read it. -/
def Sends (a : Holder) : Prop :=
  ∀ time < 2 ^ 64, ∃ u text, writeErrno a.platform a.state a.no time = some (u, text) ∧
    ∀ p s rest, Reached p s → ∃ t no, readErrno p readObject s (text ++ rest) = some (t, no, rest)

/-- An error of a TCF code keeps its text, its code and what its report says, here and wherever it
is sent. -/
structure Survives (a : Holder) (no : Int) (text : Text) : Prop where
  here : ∀ time, ∃ u id, getErrorReport a.platform a.state a.no time = some (u, some id) ∧
    Holder.text { a with state := u } = .ok (some text)
  sends : ∀ b, Relation.ReflTransGen (Transfer readObject) a b → Sends readObject b
  there : ∀ b, Relation.ReflTransGen (Transfer readObject) a b →
    b.text = .ok (some text) ∧ b.code = some no
  report : ∀ time < 2 ^ 64, ∃ u written r,
    writeErrno a.platform a.state a.no time = some (u, written) ∧
      Holder.report { a with state := u } = some r ∧
      ∀ b c, Reads readObject written b → Relation.ReflTransGen (Transfer readObject) b c →
        ∃ r', c.report = some r' ∧ r.SameData r'

end

/-! ## What is sent -/

theorem stdTexts_plain : ∀ t ∈ stdTexts, Plain (ascii t) ∧ 0 ∉ ascii t := by decide

/-- The text of a code adds nothing that has a meaning in a format. -/
theorem shownText_plain {no : Int} {str : Text} (hNo : stdText no = some str) (msg : Text) :
    (Plain (shownText no str msg) ↔ Plain msg) ∧ (0 ∈ shownText no str msg ↔ 0 ∈ msg) := by
  obtain ⟨-, -, t, ht, rfl⟩ := stdText_range hNo
  obtain ⟨hPlain, hZero⟩ := stdTexts_plain t ht
  unfold shownText
  split
  · exact ⟨Iff.rfl, Iff.rfl⟩
  · have hSep : Plain (ascii " ") ∧ Plain (ascii ". ") ∧ 0 ∉ ascii " " ∧ 0 ∉ ascii ". " := by
      decide
    unfold joinTexts
    split
    · rename_i hEmpty
      rw [List.getLast?_eq_none_iff.1 hEmpty]
      exact ⟨⟨fun _ => by decide, fun _ => hPlain⟩, ⟨fun h => absurd h hZero, fun h => by cases h⟩⟩
    · split
      · simp [plain_append, hPlain, hZero, hSep]
      · simp [plain_append, hPlain, hZero, hSep]

section

variable {p : Platform} {s : State} {k id : Nat} {no : Int} {str format : Text} {time : Nat}

theorem Reported.writes (h : Reported p s k id no format time) (hNo : stdText no = some str)
    (t : Nat) :
    ∃ u, writeErrno p s (numberOf k) t =
        some (u, objectOf (no - stdErrBase).toNat time format ++ [0]) ∧
      Reported p u k id no format time := by
  obtain ⟨u, r, hGet, hReported, hHeld⟩ := h.get t
  exact hReported.write hHeld hNo hGet

theorem Made.writes (h : Made p s k no format) (hNo : stdText no = some str) (time : Nat) :
    ∃ u id, writeErrno p s (numberOf k) time =
        some (u, objectOf (no - stdErrBase).toNat time format ++ [0]) ∧
      Reported p u k id no format time := by
  obtain ⟨u, id, r, hGet, hReported, hHeld⟩ := h.get hNo time
  obtain ⟨v, hWrite⟩ := hReported.write hHeld hNo hGet
  exact ⟨v, id, hWrite⟩

end

section

variable {readObject : Text → Option (Text × Text)} {a b : Holder} {no : Int} {str format : Text}
  {time : Nat}

/-- The agent has a report of the error. -/
def Holder.Carries (a : Holder) (no : Int) (format : Text) (time : Nat) : Prop :=
  ∃ k id, a.no = numberOf k ∧ Reported a.platform a.state k id no format time

theorem reads_carries (hNo : stdText no = some str) (hTime : time < 2 ^ 64) (hFormat : 0 ∉ format)
    (h : Reads readObject (objectOf (no - stdErrBase).toNat time format ++ [0]) b) :
    b.Carries no format time := by
  obtain ⟨s, rest, ⟨es, hRun⟩, hRead⟩ := h
  obtain ⟨t, id, hRead', hReported⟩ :=
    readErrno_reported (run_ready hRun) hNo hTime hFormat readObject rest
  rw [hRead'] at hRead
  simp only [Option.some.injEq, Prod.mk.injEq] at hRead
  obtain ⟨hState, hNumber, -⟩ := hRead
  exact ⟨s.msgsPos, id, hNumber.symm, hState ▸ hReported⟩

theorem Holder.Carries.transfer (h : a.Carries no format time) (hNo : stdText no = some str)
    (hTime : time < 2 ^ 64) (hFormat : 0 ∉ format) (hTransfer : Transfer readObject a b) :
    b.Carries no format time := by
  obtain ⟨k, id, hNumber, hReported⟩ := h
  obtain ⟨t, -, u, text, hWrite, hReads⟩ := hTransfer
  obtain ⟨v, hWrite', -⟩ := hReported.writes hNo t
  rw [hNumber, hWrite'] at hWrite
  cases hWrite
  exact reads_carries hNo hTime hFormat hReads

/-- Over any number of transfers, by induction on their number. -/
theorem Holder.Carries.transfers (h : a.Carries no format time) (hNo : stdText no = some str)
    (hTime : time < 2 ^ 64) (hFormat : 0 ∉ format)
    (hTransfers : Relation.ReflTransGen (Transfer readObject) a b) :
    b.Carries no format time := by
  induction hTransfers with
  | refl => exact h
  | tail _ hTransfer ih => exact ih.transfer hNo hTime hFormat hTransfer

theorem sends_of_writes (hNo : stdText no = some str) (hFormat : 0 ∉ format)
    (h : ∀ t < 2 ^ 64, ∃ time < 2 ^ 64, ∃ u, writeErrno a.platform a.state a.no t =
      some (u, objectOf (no - stdErrBase).toNat time format ++ [0])) : Sends readObject a := by
  intro t ht
  obtain ⟨time, hTime, u, hWrite⟩ := h t ht
  refine ⟨u, _, hWrite, fun p s rest hReached => ?_⟩
  obtain ⟨es, hRun⟩ := hReached
  obtain ⟨v, id, hRead, -⟩ :=
    readErrno_reported (run_ready hRun) hNo hTime hFormat readObject rest
  exact ⟨v, _, hRead⟩

theorem Holder.Carries.sends (h : a.Carries no format time) (hNo : stdText no = some str)
    (hTime : time < 2 ^ 64) (hFormat : 0 ∉ format) : Sends readObject a := by
  obtain ⟨k, id, hNumber, hReported⟩ := h
  refine sends_of_writes hNo hFormat fun t _ => ⟨time, hTime, ?_⟩
  obtain ⟨u, hWrite, -⟩ := hReported.writes hNo t
  exact ⟨u, hNumber ▸ hWrite⟩

theorem Holder.Carries.shown (h : a.Carries no format time) (hNo : stdText no = some str)
    (hPlain : Plain format) : a.text = .ok (some format) ∧ a.code = some no := by
  obtain ⟨k, id, hNumber, hReported⟩ := h
  unfold Holder.text Holder.code
  rw [hNumber, hReported.text_eq, hReported.code_eq hNo, (format_eq_self format).2 hPlain]
  exact ⟨rfl, rfl⟩

theorem Holder.Carries.report_eq (h : a.Carries no format time) :
    ∃ r, a.report = some r ∧ r.Shows no format time := by
  obtain ⟨k, id, hNumber, hReported⟩ := h
  obtain ⟨r, hr, hShows⟩ := hReported.content
  refine ⟨r, ?_, hShows⟩
  unfold Holder.report
  simp [hNumber, State.reportOf, hReported.report, hr]

theorem Report.Shows.sameData {r r' : Report} (h : r.Shows no format time)
    (h' : r'.Shows no format time) : r.SameData r' where
  params := h'.params.trans h.params.symm
  timeStamp := h'.timeStamp.trans h.timeStamp.symm
  props prop := by rw [h'.props, h.props]

end

section

variable {p : Platform} {readObject : Text → Option (Text × Text)} {s : State} {no : Int}
  {str text : Text} {k : Nat}

theorem Made.survives (h : Made p s k no text) (hNo : stdText no = some str) (hZero : 0 ∉ text)
    (hPlain : Plain text) : Survives readObject ⟨p, s, numberOf k⟩ no text := by
  -- the error itself, or one that another agent has read
  have hChain (b : Holder) (hb : Relation.ReflTransGen (Transfer readObject) ⟨p, s, numberOf k⟩ b) :
      b = ⟨p, s, numberOf k⟩ ∨ ∃ time < 2 ^ 64, b.Carries no text time := by
    rcases Relation.ReflTransGen.cases_head hb with hEq | ⟨c, hFirst, hRest⟩
    · exact .inl hEq.symm
    · obtain ⟨time, hTime, u, written, hWrite, hReads⟩ := hFirst
      obtain ⟨v, id, hWrite', -⟩ := h.writes hNo time
      cases hWrite.symm.trans hWrite'
      exact .inr ⟨time, hTime,
        (reads_carries hNo hTime hZero hReads).transfers hNo hTime hZero hRest⟩
  refine ⟨fun time => ?_, fun b hb => ?_, fun b hb => ?_, fun time hTime => ?_⟩
  · obtain ⟨u, id, r, hGet, hReported, -⟩ := h.get hNo time
    have hCarries : Holder.Carries ⟨p, u, numberOf k⟩ no text time := ⟨k, id, rfl, hReported⟩
    exact ⟨u, id, hGet, (hCarries.shown hNo hPlain).1⟩
  · rcases hChain b hb with rfl | ⟨time, hTime, hCarries⟩
    · refine sends_of_writes hNo hZero fun time hTime => ⟨time, hTime, ?_⟩
      obtain ⟨u, id, hWrite, -⟩ := h.writes hNo time
      exact ⟨u, hWrite⟩
    · exact hCarries.sends hNo hTime hZero
  · rcases hChain b hb with rfl | ⟨time, hTime, hCarries⟩
    · exact ⟨h.text_eq, h.code_eq hNo⟩
    · exact hCarries.shown hNo hPlain
  · obtain ⟨u, id, hWrite, hReported⟩ := h.writes hNo time
    have hCarries : Holder.Carries ⟨p, u, numberOf k⟩ no text time := ⟨k, id, rfl, hReported⟩
    obtain ⟨r, hReport, hShows⟩ := hCarries.report_eq
    refine ⟨u, _, r, hWrite, hReport, fun b c hReads hRest => ?_⟩
    obtain ⟨r', hReport', hShows'⟩ :=
      ((reads_carries hNo hTime hZero hReads).transfers hNo hTime hZero hRest).report_eq
    exact ⟨r', hReport', hShows.sameData hShows'⟩

/-- The text of an error made of a TCF code is the same after it has been reported, here and over
any number of transfers, when its message has no quote and no left brace, and only then. -/
theorem error_text_survives {es : List Event} (hRun : run (step p) {} es = some s)
    (hNo : stdText no = some str) {msg : Text} (hMsg : 0 ∉ msg) :
    ∃ t n text, setErrno p s no (some msg) = some (t, n) ∧
      Holder.text ⟨p, t, n⟩ = .ok (some text) ∧
      (Survives readObject ⟨p, t, n⟩ no text ↔ Plain msg) := by
  obtain ⟨t, hSet, hMade⟩ := setErrno_made (run_ready hRun) hNo msg
  obtain ⟨hPlainIff, hZeroIff⟩ := shownText_plain hNo msg
  refine ⟨t, _, _, hSet, hMade.text_eq, ?_,
    fun hPlain => hMade.survives hNo (mt hZeroIff.1 hMsg) (hPlainIff.2 hPlain)⟩
  intro hSurvives
  obtain ⟨u, id, hGet, hHere⟩ := hSurvives.here 0
  obtain ⟨u', id', r, hGet', hReported, -⟩ := hMade.get hNo 0
  cases hGet.symm.trans hGet'
  obtain ⟨out, hOut, hSame⟩ := Fallible.map_eq_ok (hReported.text_eq.symm.trans hHere)
  cases hSame
  exact hPlainIff.1 ((format_eq_self _).1 hOut)

end

/-- A message with a brace, after an error has been read. -/
theorem error_text_survives_brace :
    ∃ s, run (step plainPlatform) {} [.readErrorObject [.code 3, .time 7]] = some s ∧
      ∃ t n text, setErrno plainPlatform s errOther (some (ascii "A\x7b")) = some (t, n) ∧
        Holder.text ⟨plainPlatform, t, n⟩ = .ok (some text) ∧
        (Survives (fun _ => none) ⟨plainPlatform, t, n⟩ errOther text ↔
          Plain (ascii "A\x7b")) := by
  have hSome : (run (step plainPlatform) {} [.readErrorObject [.code 3, .time 7]]).isSome := by
    decide
  have hNo : stdText errOther = some (ascii "Unspecified failure") := rfl
  obtain ⟨s, hRun⟩ := Option.isSome_iff_exists.1 hSome
  exact ⟨s, hRun, error_text_survives hRun hNo (by decide)⟩

/-- A message loses its apostrophe when it is reported, and comes without it to another agent. -/
theorem text_changes :
    (do
      let (t, n) ← setErrno plainPlatform {} errOther (some (ascii "can't"))
      let (u, _) ← getErrorReport plainPlatform t n 5
      let (_, written) ← writeErrno plainPlatform t n 5
      let (v, m, _) ← readErrno plainPlatform (fun _ => none) {} written
      some (Holder.text ⟨plainPlatform, t, n⟩, Holder.text ⟨plainPlatform, u, n⟩,
        Holder.text ⟨plainPlatform, v, m⟩)) =
      some (.ok (some (ascii "can't")), .ok (some (ascii "cant")), .ok (some (ascii "cant"))) ∧
    ¬ ∀ msg, 0 ∉ msg → ∀ t n text, setErrno plainPlatform {} errOther (some msg) = some (t, n) →
      Holder.text ⟨plainPlatform, t, n⟩ = .ok (some text) →
      Survives (fun _ => none) ⟨plainPlatform, t, n⟩ errOther text := by
  refine ⟨by decide, fun h => ?_⟩
  obtain ⟨u, id, hGet, hText⟩ :=
    (h (ascii "can't") (by decide) _ _ (ascii "can't") rfl (by decide)).here 0
  cases hGet
  exact absurd hText (by decide)

end TcfAgent.Errors
