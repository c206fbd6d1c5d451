import TcfAgent.Lib.Chain
import TcfAgent.Framework.ErrorReports

/-!
# What error numbers lead to

The entries of the table of `framework/errors.c` refer to other error numbers. `get_error_code`
follows the references in a loop, `errno_to_str` calls itself. An entry made from an error
object that a peer has sent refers to whatever number the peer chose.

Main results:

* `resolves`              — where the references end, the code and the text are found;
* `error_numbers_resolve` — they end after every run without the references, the formats and
  the releases that `Allowed` rules out.
-/

namespace TcfAgent.Errors

open TcfAgent.Lib TcfAgent.JsonText

/-! ## References -/

section

variable (p : Platform)

/-- The number that `get_error_code` goes on with. -/
def nextCode (s : State) (no : Int) : Option Int :=
  if isMessage p no then
    let m := s.message no
    if m.source = .report ∨ m.source = .message then
      match s.reportOf m with
      | some r => if r.posixCode ≠ 0 then none else some m.error
      | none => some m.error
    else none
  else none

/-- What `get_error_code` returns when it does not go on. -/
def lastCode (s : State) (no : Int) : Int :=
  if isMessage p no then
    let m := s.message no
    if m.source = .report ∨ m.source = .message then
      match s.reportOf m with
      | some r => r.posixCode
      | none => 0
    else errOther
  else no

/-- The number leads to a code of the system or of TCF, and to a text. -/
def Resolves (s : State) (no : Int) : Prop :=
  ∃ code text, getErrorCode p s p.fuel no = some code ∧ code ≠ 0 ∧ isMessage p code = false ∧
    errnoToStr p s p.fuel no = .ok (some text)

/-- The format of the report can be expanded. -/
def Expands (r : Report) : Prop :=
  ∀ format, r.format = some format →
    ∃ text, formatErrorReportMessage p format r.params = .ok text

/-- The entry that is used next is not one that the number leads to. -/
def Clear (s : State) (no : Int) : Prop := Avoids (nextCode p s) (numberOf s.msgsPos) no

/-- A client has got the report and not released it. -/
def Held (s : State) (id : Nat) (r : Report) : Prop := s.reports id = some r ∧ 0 < r.gets

/-- What calls keep to: reports are used while they are held; no entry is used for an error that
leads to that entry; no code of a peer is the one of `errno` 0; no format numbers a parameter that
an `int` cannot hold. -/
def Allowed (s : State) : Event → Prop
  | .setErrno no msg => msg = none ∨ no = 0 ∨ Clear p s no
  | .setGaiErrno _ => True
  | .setErrorReportErrno none => True
  | .setErrorReportErrno (some id) =>
    ∃ r, Held s id r ∧ Clear p s (wrapInt (r.code + stdErrBase))
  | .getErrorReport err _ =>
    (isMessage p err ∧ (s.message err).report.isSome) ∨
      ∀ text, errnoToStr p s p.fuel err = .ok (some text) → Expands p { format := some text }
  | .releaseErrorReport none => True
  | .releaseErrorReport (some id) => ∃ r, Held s id r
  | .readErrorObject fields =>
    (readReport fields).code = 0 ∨
      wrapInt ((readReport fields).code + stdErrBase) ≠ 0 ∧
        Clear p s (wrapInt ((readReport fields).code + stdErrBase)) ∧
        Expands p (readReport fields)

/-! ## The invariant -/

/-- An entry has what its source calls for. -/
structure ErrorMessage.Sound (m : ErrorMessage) : Prop where
  error    : m.source = .message ∨ m.source = .report → m.error ≠ 0
  ordinary : m.source = .message → isMessage p m.error = false
  text     : m.source = .message → m.text ≠ none

/-- What every report that is made keeps to. -/
structure Report.Sound (r : Report) : Prop where
  code    : wrapInt (r.code + stdErrBase) ≠ 0
  posix   : r.posixCode ≠ 0 → r.format ≠ none ∧ isMessage p r.posixCode = false
  expands : Expands p r

/-- Entries and reports are sound, and every chain of codes ends. -/
structure Inv (s : State) : Prop extends Ready p s where
  messages : ∀ k < p.messageCnt, (s.msgs k).Sound p
  reports  : ∀ id r, s.reports id = some r → r.Sound p
  ends     : ∀ no, Finishes (nextCode p s) no

end

section

variable {p : Platform} {s s' : State} {no : Int} {k : Nat}

theorem nextCode_of_not (h : isMessage p no = false) : nextCode p s no = none := by
  simp [nextCode, h]

/-- What makes `get_error_code` go on from an entry. -/
theorem nextCode_eq_some (hk : k < p.messageCnt) {e : Int} :
    nextCode p s (numberOf k) = some e ↔
      ((s.msgs k).source = .report ∨ (s.msgs k).source = .message) ∧ (s.msgs k).error = e ∧
        ∀ r, s.reportOf (s.msgs k) = some r → r.posixCode = 0 := by
  simp only [nextCode, isMessage_numberOf hk, message_numberOf, ↓reduceIte]
  split
  · cases hReport : s.reportOf (s.msgs k) with
    | none => simp_all
    | some r => by_cases hPosix : r.posixCode = 0 <;> simp_all
  · simp_all

theorem getErrorCode_succ (s : State) (fuel : Nat) (no : Int) :
    getErrorCode p s (fuel + 1) no =
      match nextCode p s no with
      | some e => getErrorCode p s fuel e
      | none => some (lastCode p s no) := by
  simp only [getErrorCode, nextCode, lastCode]
  split
  · split
    · cases s.reportOf (s.message no) with
      | none => rfl
      | some r => by_cases hPosix : r.posixCode = 0 <;> simp [hPosix]
    · rfl
  · rfl

/-- The entries that the number leads to have what their sources call for. -/
def ChainSound (p : Platform) (s : State) (no : Int) : Prop :=
  ∀ n k, follow (nextCode p s) n no = some (numberOf k) → k < p.messageCnt →
    (s.msgs k).Sound p

theorem ChainSound.tail (h : ChainSound p s no) {e : Int} (hNext : nextCode p s no = some e) :
    ChainSound p s e := by
  intro n k hFollow
  apply h (n + 1) k
  show (nextCode p s no).bind _ = _
  rw [hNext]
  exact hFollow

theorem ChainSound.next_ne (h : ChainSound p s no) {e : Int} (hNext : nextCode p s no = some e) :
    e ≠ 0 := by
  by_cases hMessage : isMessage p no
  · obtain ⟨k, hk, rfl⟩ := eq_numberOf hMessage
    obtain ⟨hSource, rfl, -⟩ := (nextCode_eq_some hk).1 hNext
    exact (h 0 k rfl hk).error hSource.symm
  · rw [nextCode_of_not (by simpa using hMessage)] at hNext
    cases hNext

theorem lastCode_ok (hReports : ∀ id r, s.reports id = some r → r.Sound p)
    (hLast : nextCode p s no = none) (hNo : no ≠ 0) :
    lastCode p s no ≠ 0 ∧ isMessage p (lastCode p s no) = false := by
  simp only [nextCode] at hLast
  unfold lastCode
  split at hLast
  · rename_i hMessage
    simp only [hMessage, ↓reduceIte]
    split at hLast
    · rename_i hSource
      simp only [hSource, ↓reduceIte]
      split at hLast
      · rename_i r hReport
        split at hLast
        · rename_i hPosix
          obtain ⟨id, -, hId⟩ := Option.bind_eq_some_iff.1 hReport
          exact ⟨hPosix, ((hReports id r hId).posix hPosix).2⟩
        · cases hLast
      · cases hLast
    · rename_i hSource
      simp only [hSource, ↓reduceIte]
      exact ⟨by simp [errOther, stdErrBase], isMessage_errOther⟩
  · rename_i hMessage
    simp only [hMessage]
    exact ⟨hNo, by simpa using hMessage⟩

/-- The text of an entry with a report is its format, expanded. -/
theorem formatOf_text (hReports : ∀ id r, s.reports id = some r → r.Sound p)
    {m : ErrorMessage} {format : Text} {params : List Text}
    (h : s.formatOf m = some (format, params)) :
    ∃ text, formatErrorReportMessage p format params = .ok text := by
  obtain ⟨r, hReport, hFormat⟩ := Option.bind_eq_some_iff.1 h
  obtain ⟨f, hf, hEq⟩ := Option.map_eq_some_iff.1 hFormat
  cases hEq
  obtain ⟨id, -, hId⟩ := Option.bind_eq_some_iff.1 hReport
  exact (hReports id r hId).expands _ hf

theorem stdText_numberOf (k : Nat) : stdText (numberOf k) = none := by
  have hIndex : (numberOf k - errOther).toNat = 99 + k := by
    simp only [numberOf, errMessageMin, errOther]
    omega
  have hLength : stdTexts.length = 29 := rfl
  unfold stdText
  rw [hIndex, List.getElem?_eq_none (by omega)]
  split <;> rfl

theorem numberOf_ne_zero (k : Nat) : numberOf k ≠ 0 := by
  simp only [numberOf, errMessageMin, stdErrBase]
  omega

/-- `errno_to_str`, for the number of an entry. -/
theorem errnoToStr_message (hMessage : isMessage p no = true) (fuel : Nat) :
    errnoToStr p s (fuel + 1) no =
      match s.formatOf (s.message no) with
      | some (format, params) => some <$> formatErrorReportMessage p format params
      | none =>
        match (s.message no).source with
        | .gai => .ok (some (p.gaiStrerror (s.message no).error))
        | .message => .ok (s.message no).text
        | .report => errnoToStr p s fuel (s.message no).error
        | .none => .ok (some (p.strerror no)) := by
  obtain ⟨hStd, hNe⟩ : stdText no = none ∧ no ≠ 0 := by
    obtain ⟨k, -, rfl⟩ := eq_numberOf hMessage
    exact ⟨stdText_numberOf k, numberOf_ne_zero k⟩
  rw [errnoToStr, hStd]
  refine (if_neg hNe).trans ((if_pos hMessage).trans ?_)
  change (match s.formatOf (s.message no) with
    | some (format, params) => some <$> formatErrorReportMessage p format params
    | none => match (s.message no).source with
      | .gai => .ok (some (p.gaiStrerror (s.message no).error))
      | .message => .ok (s.message no).text
      | .report => errnoToStr p s fuel (s.message no).error
      | .none => .ok (some (p.strerror no))) = _
  cases s.formatOf (s.message no) with
  | some f => rfl
  | none => cases (s.message no).source <;> rfl

/-- From an entry, `errno_to_str` finds a text, or goes where `get_error_code` goes. -/
theorem errnoToStr_step (hReports : ∀ id r, s.reports id = some r → r.Sound p)
    (hChain : ChainSound p s no) (fuel : Nat) :
    (∃ text, errnoToStr p s (fuel + 1) no = .ok (some text)) ∨
      ∃ e, nextCode p s no = some e ∧ errnoToStr p s (fuel + 1) no = errnoToStr p s fuel e := by
  by_cases hMessage : isMessage p no
  · obtain ⟨k, hk, rfl⟩ := eq_numberOf hMessage
    have hSound := hChain 0 k rfl hk
    rw [errnoToStr_message hMessage, message_numberOf]
    cases hFormat : s.formatOf (s.msgs k) with
    | some f =>
      obtain ⟨text, hText⟩ := formatOf_text hReports hFormat
      exact .inl ⟨text, by simp only [hText]; rfl⟩
    | none =>
      cases hSource : (s.msgs k).source with
      | none => exact .inl ⟨_, rfl⟩
      | gai => exact .inl ⟨_, rfl⟩
      | message =>
        obtain ⟨text, hText⟩ := Option.ne_none_iff_exists'.1 (hSound.text hSource)
        exact .inl ⟨text, by simp only [hText]⟩
      | report =>
        refine .inr ⟨_, (nextCode_eq_some hk).2 ⟨.inl hSource, rfl, fun r hr => ?_⟩, rfl⟩
        by_contra hPosix
        obtain ⟨id, -, hId⟩ := Option.bind_eq_some_iff.1 hr
        obtain ⟨f, hf⟩ := Option.ne_none_iff_exists'.1 ((hReports id r hId).posix hPosix).1
        simp [State.formatOf, hr, hf] at hFormat
  · refine .inl ?_
    simp only [errnoToStr, hMessage]
    split
    · exact ⟨_, rfl⟩
    · split <;> exact ⟨_, rfl⟩

theorem resolves_follow (hReports : ∀ id r, s.reports id = some r → r.Sound p) {n : Nat} {z : Int}
    (hFollow : follow (nextCode p s) n no = some z) (hLast : nextCode p s z = none) {fuel : Nat}
    (hFuel : n < fuel) (hChain : ChainSound p s no) (hNo : no ≠ 0) :
    ∃ code text, getErrorCode p s fuel no = some code ∧ code ≠ 0 ∧ isMessage p code = false ∧
      errnoToStr p s fuel no = .ok (some text) := by
  induction n generalizing no fuel with
  | zero =>
    cases hFollow
    obtain ⟨fuel, rfl⟩ : ∃ m, fuel = m + 1 := ⟨fuel - 1, by omega⟩
    obtain ⟨hNe, hOrdinary⟩ := lastCode_ok hReports hLast hNo
    rcases errnoToStr_step hReports hChain fuel with ⟨text, hText⟩ | ⟨e, hNext, -⟩
    · exact ⟨_, text, by rw [getErrorCode_succ, hLast], hNe, hOrdinary, hText⟩
    · rw [hLast] at hNext
      cases hNext
  | succ n ih =>
    obtain ⟨e, hNext, hRest⟩ := Option.bind_eq_some_iff.1 hFollow
    obtain ⟨fuel, rfl⟩ : ∃ m, fuel = m + 1 := ⟨fuel - 1, by omega⟩
    have hFuel' : n < fuel := by omega
    obtain ⟨code, text, hCode, hNe, hOrdinary, hText⟩ :=
      ih hRest hFuel' (hChain.tail hNext) (hChain.next_ne hNext)
    have hCode' : getErrorCode p s (fuel + 1) no = some code := by
      rw [getErrorCode_succ, hNext]
      exact hCode
    rcases errnoToStr_step hReports hChain fuel with ⟨text', hText'⟩ | ⟨e', hNext', hEq⟩
    · exact ⟨code, text', hCode', hNe, hOrdinary, hText'⟩
    · rw [hNext] at hNext'
      cases hNext'
      exact ⟨code, text, hCode', hNe, hOrdinary, hEq.trans hText⟩

/-- Where the references end, and lead to sound entries only, the code and the text are
found. -/
theorem resolves (hReports : ∀ id r, s.reports id = some r → r.Sound p)
    (hEnds : Finishes (nextCode p s) no) (hChain : ChainSound p s no) (hNo : no ≠ 0) :
    Resolves p s no := by
  obtain ⟨n, hn, z, hFollow, hLast⟩ :=
    finishes_within (S := (Finset.range p.messageCnt).image numberOf) hEnds fun n c _ hMore => by
      by_cases hMessage : isMessage p c
      · obtain ⟨k, hk, rfl⟩ := eq_numberOf hMessage
        exact Finset.mem_image_of_mem _ (Finset.mem_range.2 hk)
      · exact absurd (nextCode_of_not (by simpa using hMessage)) hMore
  have hCard := Finset.card_image_le (s := Finset.range p.messageCnt) (f := numberOf)
  rw [Finset.card_range] at hCard
  have hFuel : n < p.fuel := by
    unfold Platform.fuel
    omega
  exact resolves_follow hReports hFollow hLast hFuel hChain hNo

/-- Every number resolves. -/
theorem Inv.resolves (h : Inv p s) (hNo : no ≠ 0) : Resolves p s no :=
  Errors.resolves h.reports (h.ends no) (fun _ k _ hk => h.messages k hk) hNo

end

/-! ## One entry replaced -/

section

variable {p : Platform} {s t : State} {no : Int} {k id : Nat}

/-- Two states whose entries, except for `k`, are the same and lead to the same numbers. -/
structure SameOff (p : Platform) (k : Nat) (s t : State) : Prop where
  msgs  : ∀ j, j ≠ k → t.msgs j = s.msgs j
  posix : ∀ j < p.messageCnt, j ≠ k → (t.reportOf (s.msgs j)).map Report.posixCode =
    (s.reportOf (s.msgs j)).map Report.posixCode

/-- What `nextCode` looks at. -/
theorem nextCode_congr (hk : k < p.messageCnt) (hSource : (t.msgs k).source = (s.msgs k).source)
    (hError : (t.msgs k).error = (s.msgs k).error)
    (hPosix : (t.reportOf (t.msgs k)).map Report.posixCode =
      (s.reportOf (s.msgs k)).map Report.posixCode) :
    nextCode p t (numberOf k) = nextCode p s (numberOf k) := by
  simp only [nextCode, isMessage_numberOf hk, message_numberOf, ↓reduceIte, hSource, hError]
  cases ht : t.reportOf (t.msgs k) with
  | none =>
    cases hs : s.reportOf (s.msgs k) with
    | none => rfl
    | some r => simp [ht, hs] at hPosix
  | some r =>
    cases hs : s.reportOf (s.msgs k) with
    | none => simp [ht, hs] at hPosix
    | some r' =>
      have hEq : r.posixCode = r'.posixCode := by simpa [ht, hs] using hPosix
      simp only [hEq]

theorem SameOff.next (h : SameOff p k s t) (hNo : no ≠ numberOf k) :
    nextCode p t no = nextCode p s no := by
  by_cases hMessage : isMessage p no
  · obtain ⟨j, hj, rfl⟩ := eq_numberOf hMessage
    have hjk : j ≠ k := fun hEq => hNo (congrArg numberOf hEq)
    have hMsg := h.msgs j hjk
    refine nextCode_congr hj (by rw [hMsg]) (by rw [hMsg]) ?_
    rw [hMsg]
    exact h.posix j hj hjk
  · have hNot : isMessage p no = false := by simpa using hMessage
    rw [nextCode_of_not hNot, nextCode_of_not hNot]

/-- A number that does not lead to the entry still resolves. -/
theorem SameOff.resolves (h : SameOff p k s t) (hInv : Inv p s)
    (hReports : ∀ id r, t.reports id = some r → r.Sound p)
    (hAvoids : Avoids (nextCode p s) (numberOf k) no) (hNo : no ≠ 0) : Resolves p t no := by
  have hSame : ∀ a, a ≠ numberOf k → nextCode p t a = nextCode p s a := fun a ha => h.next ha
  refine Errors.resolves hReports ((hInv.ends no).avoiding hSame hAvoids) ?_ hNo
  intro n j hFollow hj
  rw [hAvoids.follow_eq hSame] at hFollow
  have hjk : j ≠ k := by
    rintro rfl
    exact hAvoids n hFollow
  rw [h.msgs j hjk]
  exact hInv.messages j hj

/-- The references still end when the new one does not lead back. -/
theorem SameOff.ends (h : SameOff p k s t) (hInv : Inv p s)
    (hNew : ∀ e, nextCode p t (numberOf k) = some e → Avoids (nextCode p s) (numberOf k) e)
    (no : Int) : Finishes (nextCode p t) no :=
  finishes_update (fun _ ha => h.next ha) (fun e he => ⟨hInv.ends e, hNew e he⟩) (hInv.ends no)

theorem sameOff_released (h : Ready p s) (hMsgs : ∀ j, j ≠ s.msgsPos → t.msgs j = s.msgs j)
    (hReports : t.reports = released s s.msgsPos) : SameOff p s.msgsPos s t := by
  refine ⟨hMsgs, fun j hj hjk => ?_⟩
  unfold State.reportOf
  rw [hReports]
  cases hReport : (s.msgs j).report with
  | none => rfl
  | some id =>
    obtain ⟨r, hr⟩ := Option.ne_none_iff_exists'.1 (h.counted.live j hj id hReport)
    obtain ⟨n, hn⟩ := released_keeps h.counted h.pos hr (.inr ⟨j, hj, hjk, hReport⟩)
    simp [hn, hr]

theorem Report.Sound.withCounts {r : Report} (h : r.Sound p) (n g : Nat) :
    ({ r with refs := n, gets := g } : Report).Sound p := ⟨h.code, h.posix, h.expands⟩

theorem sound_released (h : Inv p s) {r : Report} (hr : released s k id = some r) : r.Sound p := by
  obtain ⟨r', hr', hEq⟩ := released_eq_some hr
  rw [hEq]
  exact (h.reports id r' hr').withCounts r.refs r'.gets

end

/-! ## Steps -/

section

variable {p : Platform} {s t : State} {no : Int} {id : Nat}

/-- The entry that is next gets a new error, without a report. -/
theorem inv_entry (h : Inv p s) {m : ErrorMessage} (hNone : m.report = none) (hSound : m.Sound p)
    (hReport : m.source ≠ .report) (hMsgs : t.msgs = Function.update s.msgs s.msgsPos m)
    (hPos : t.msgsPos = if p.messageCnt ≤ s.msgsPos + 1 then 0 else s.msgsPos + 1)
    (hReports : t.reports = released s s.msgsPos) (hNext : t.next = s.next) : Inv p t := by
  have hOff : SameOff p s.msgsPos s t := by
    refine sameOff_released h.toReady (fun j hj => ?_) hReports
    rw [hMsgs, Function.update_of_ne hj]
  refine ⟨⟨hPos ▸ nextPos_lt p _, counted_released h.toReady hNone hMsgs hReports hNext⟩,
    fun j hj => ?_,
    fun id r hr => sound_released h (hReports ▸ hr), hOff.ends h fun e he => ?_⟩
  · by_cases hjk : j = s.msgsPos
    · subst hjk
      rw [hMsgs, Function.update_self]
      exact hSound
    · rw [hOff.msgs j hjk]
      exact h.messages j hj
  · obtain ⟨hSource, hError, -⟩ := (nextCode_eq_some h.pos).1 he
    rw [hMsgs, Function.update_self] at hSource hError
    have hMessage : m.source = .message := hSource.resolve_left hReport
    subst hError
    have hOrdinary := hSound.ordinary hMessage
    refine avoids_of_none (nextCode_of_not hOrdinary) fun hEq => ?_
    rw [hEq, isMessage_numberOf h.pos] at hOrdinary
    cases hOrdinary

/-- `set_errno` -/
theorem setErrno_inv (h : Inv p s) (msg : Text) (hNo : no ≠ 0) (hClear : Clear p s no) :
    ∃ t, setErrno p s no (some msg) = some (t, numberOf s.msgsPos) ∧ Inv p t := by
  have hResolves {u : State} (hMsgs : ∀ j, j ≠ s.msgsPos → u.msgs j = s.msgs j)
      (hReports : u.reports = released s s.msgsPos) : Resolves p u no :=
    (sameOff_released h.toReady hMsgs hReports).resolves h
      (fun id r hr => sound_released h (hReports ▸ hr)) hClear hNo
  obtain ⟨code, -, hCode, hNe, hOrdinary, -⟩ := hResolves (u := cleared p s .message)
    (fun j hj => Function.update_of_ne hj _ _) rfl
  let u : State :=
    { cleared p s .message with
      msgs := Function.update (cleared p s .message).msgs s.msgsPos
        { source := .message, error := code } }
  obtain ⟨-, str, -, -, -, hStr⟩ := hResolves (u := u)
    (fun j hj => (Function.update_of_ne hj _ _).trans (Function.update_of_ne hj _ _)) rfl
  obtain ⟨text, hText⟩ : ∃ text, messageText p u no msg = some text := by
    unfold messageText
    split
    · exact ⟨_, rfl⟩
    · rw [hStr]
      exact ⟨_, rfl⟩
  let m : ErrorMessage := { source := .message, error := code, text := some text }
  refine ⟨{ u with msgs := Function.update u.msgs s.msgsPos m }, ?_, ?_⟩
  · show (if no = 0 then _ else _) = _
    rw [if_neg hNo, allocMsg_eq h.toReady]
    show (getErrorCode p (cleared p s .message) p.fuel no).bind _ = _
    rw [hCode]
    show (messageText p u no msg).bind _ = _
    rw [hText]
    rfl
  · refine inv_entry h (m := m) rfl ⟨fun _ => hNe, fun _ => hOrdinary, fun _ => by simp [m]⟩
      (by simp [m]) ?_ rfl rfl rfl
    show Function.update (Function.update (Function.update s.msgs _ _) _ _) _ _ = _
    rw [Function.update_idem, Function.update_idem]

/-- `set_gai_errno` -/
theorem setGaiErrno_inv (h : Inv p s) (no : Int) : ∃ r, setGaiErrno p s no = some r ∧
    Inv p r.1 := by
  unfold setGaiErrno
  split
  · exact ⟨_, rfl, h⟩
  · rw [allocMsg_eq h.toReady]
    refine ⟨_, rfl, inv_entry h (m := { source := .gai, error := no }) rfl
      ⟨by simp, by simp, by simp⟩ (by simp) ?_ rfl rfl rfl⟩
    show Function.update (Function.update s.msgs _ _) _ _ = _
    rw [Function.update_idem]

variable {r : Report}

/-- `set_error_report_errno`; the client still holds the report. -/
theorem setErrorReportErrno_inv (h : Inv p s) (hHeld : Held s id r)
    (hClear : Clear p s (wrapInt (r.code + stdErrBase))) :
    ∃ t n, setErrorReportErrno p s (some id) = some (t, numberOf s.msgsPos) ∧ Inv p t ∧
      t.reports id = some { r with refs := n } := by
  obtain ⟨n, hn⟩ := released_keeps h.counted h.pos hHeld.1 (.inl hHeld.2)
  have hSound := h.reports id r hHeld.1
  let m : ErrorMessage :=
    { source := .report, error := wrapInt (r.code + stdErrBase), report := some id }
  let t : State :=
    { cleared p s .report with
      msgs := Function.update s.msgs s.msgsPos m
      reports := Function.update (released s s.msgsPos) id (some { r with refs := n + 1 }) }
  have hSelf : t.reports id = some { r with refs := n + 1 } := Function.update_self ..
  have hOther (id' : Nat) (hne : id' ≠ id) : t.reports id' = released s s.msgsPos id' :=
    Function.update_of_ne hne _ _
  -- the other entries keep their reports
  have hOff : SameOff p s.msgsPos s t := by
    have hOffC : SameOff p s.msgsPos s (cleared p s .report) :=
      sameOff_released h.toReady (fun j hj => Function.update_of_ne hj _ _) rfl
    refine ⟨fun j hj => Function.update_of_ne hj _ _, fun j hj hjk => ?_⟩
    rw [← hOffC.posix j hj hjk]
    unfold State.reportOf
    cases hReport : (s.msgs j).report with
    | none => rfl
    | some id' =>
      by_cases hne : id' = id
      · subst hne
        simp [hSelf, cleared, hn]
      · simp [hOther id' hne, cleared]
  refine ⟨t, n + 1, ?_, ⟨⟨nextPos_lt p _, counted_entry h.toReady hn rfl rfl rfl rfl⟩, ?_, ?_, ?_⟩,
    hSelf⟩
  · show (allocMsg p s .report).bind _ = _
    rw [allocMsg_eq h.toReady]
    show ((cleared p s .report).reports id).bind _ = _
    rw [show (cleared p s .report).reports id = some { r with refs := n } from hn]
    simp [cleared, t, m, Function.update_idem]
  · intro j hj
    by_cases hjk : j = s.msgsPos
    · subst hjk
      rw [show t.msgs s.msgsPos = m from Function.update_self ..]
      exact ⟨fun _ => hSound.code, by simp [m], by simp [m]⟩
    · rw [hOff.msgs j hjk]
      exact h.messages j hj
  · intro id' r' hr'
    by_cases hne : id' = id
    · subst hne
      have hEq := Option.some.inj (hSelf.symm.trans hr')
      subst hEq
      exact hSound.withCounts (n + 1) r.gets
    · exact sound_released h ((hOther id' hne).symm.trans hr')
  · refine hOff.ends h fun e he => ?_
    obtain ⟨-, hError, -⟩ := (nextCode_eq_some h.pos).1 he
    rw [show t.msgs s.msgsPos = m from Function.update_self ..] at hError
    exact hError ▸ hClear

/-- Only the reports change, and the system codes of those that entries hold stay. -/
theorem inv_reports (h : Inv p s) (hMsgs : t.msgs = s.msgs) (hPos : t.msgsPos = s.msgsPos)
    (hCounted : Counted p t) (hReports : ∀ id r, t.reports id = some r → r.Sound p)
    (hPosix : ∀ j < p.messageCnt, (t.reportOf (s.msgs j)).map Report.posixCode =
      (s.reportOf (s.msgs j)).map Report.posixCode) : Inv p t := by
  refine ⟨⟨hPos ▸ h.pos, hCounted⟩, fun j hj => hMsgs ▸ h.messages j hj, hReports, fun no => ?_⟩
  refine (h.ends no).mono fun a b hab => ?_
  by_cases hMessage : isMessage p a
  · obtain ⟨j, hj, rfl⟩ := eq_numberOf hMessage
    rw [← hab]
    exact (nextCode_congr hj (by rw [hMsgs]) (by rw [hMsgs])
      (by rw [hMsgs]; exact hPosix j hj)).symm
  · rw [nextCode_of_not (by simpa using hMessage)] at hab
    cases hab

/-- One report is replaced, with other counts. -/
theorem inv_count (h : Inv p s) (hr : s.reports id = some r) {n g : Nat}
    (hCount : n = g + holders p s id) (hPos : 0 < n) (hMsgs : t.msgs = s.msgs)
    (hMsgsPos : t.msgsPos = s.msgsPos)
    (hReports : t.reports = Function.update s.reports id (some { r with refs := n, gets := g }))
    (hNext : t.next = s.next) : Inv p t := by
  have hCounted := counted_count h.counted hr hCount hPos hMsgs hReports hNext
  obtain ⟨hSelf, hOther⟩ := reports_update hReports
  refine inv_reports h hMsgs hMsgsPos hCounted (fun id' r' hr' => ?_) fun j hj => ?_
  · by_cases hne : id' = id
    · subst hne
      have hEq := Option.some.inj (hSelf.symm.trans hr')
      subst hEq
      exact (h.reports id' r hr).withCounts n g
    · exact h.reports id' r' ((hOther id' hne).symm.trans hr')
  · unfold State.reportOf
    cases (s.msgs j).report with
    | none => rfl
    | some id' =>
      show (t.reports id').map _ = (s.reports id').map _
      by_cases hne : id' = id
      · subst hne
        rw [hSelf, hr]
        rfl
      · rw [hOther id' hne]

/-- A report that no entry holds comes or goes. -/
theorem inv_unheld (h : Inv p s) (hHolders : holders p s id = 0) {o : Option Report}
    (hFresh : o ≠ none → id < t.next) (hLe : s.next ≤ t.next)
    (hSound : ∀ r, o = some r → r.refs = r.gets ∧ 0 < r.refs ∧ r.Sound p) (hMsgs : t.msgs = s.msgs)
    (hMsgsPos : t.msgsPos = s.msgsPos) (hReports : t.reports = Function.update s.reports id o) :
    Inv p t := by
  have hCounted := counted_unheld h.counted hHolders hFresh hLe
    (fun r hr => ⟨(hSound r hr).1, (hSound r hr).2.1⟩) hMsgs hReports
  refine inv_reports h hMsgs hMsgsPos hCounted (fun id' r' hr' => ?_) fun j hj => ?_
  · rw [hReports] at hr'
    by_cases hne : id' = id
    · subst hne
      rw [Function.update_self] at hr'
      exact (hSound r' hr').2.2
    · rw [Function.update_of_ne hne] at hr'
      exact h.reports id' r' hr'
  · unfold State.reportOf
    cases hReport : (s.msgs j).report with
    | none => rfl
    | some id' =>
      show (t.reports id').map _ = (s.reports id').map _
      rw [hReports, Function.update_of_ne (Counted.ne_of_unheld hHolders hj hReport)]

/-- `release_error_report` -/
theorem releaseErrorReport_inv (h : Inv p s) (hHeld : Held s id r) :
    ∃ t, releaseErrorReport s (some id) = some t ∧ Inv p t := by
  obtain ⟨hr, hGets⟩ := hHeld
  obtain ⟨hRefs, hPos⟩ := h.counted.refs id r hr
  refine ⟨_, releaseErrorReport_eq h.toReady hr (by omega), ?_⟩
  by_cases hLast : r.refs = 1
  · have hNobody : holders p s id = 0 := by omega
    simp only [hLast, ↓reduceIte]
    exact inv_unheld h hNobody (by simp) le_rfl (by simp) rfl rfl rfl
  · simp only [hLast, ↓reduceIte]
    exact inv_count h hr (n := r.refs - 1) (g := r.gets - 1) (by omega) (by omega) rfl rfl rfl rfl

theorem wrapInt_of_lt {n : Int} (h : stdErrBase ≤ n) (h' : n < errMessageMin) : wrapInt n = n := by
  unfold stdErrBase at h
  unfold errMessageMin stdErrBase at h'
  unfold wrapInt
  exact Int.bmod_eq_of_le (by omega) (by omega)

/-- The assertions of `get_error_report` about the code hold. -/
theorem newReport_spec (h : Inv p s) {err : Int} (time : Nat) {format : Text} (hErr : err ≠ 0)
    (hExpands : Expands p { format := some format }) :
    ∃ r, newReport p s err time format = some r ∧ r.refs = 1 ∧ r.gets = 1 ∧ r.Sound p := by
  have hCode : ∃ code, code = reportCode p s err ∧ code ≠ 0 ∧ isMessage p code = false := by
    refine ⟨_, rfl, ?_⟩
    unfold reportCode
    split
    · rename_i hMessage
      obtain ⟨k, hk, rfl⟩ := eq_numberOf hMessage
      rw [message_numberOf]
      split
      · rename_i hSource
        exact ⟨(h.messages k hk).error (.inl hSource), (h.messages k hk).ordinary hSource⟩
      · exact ⟨by simp [errOther, stdErrBase], isMessage_errOther⟩
    · rename_i hMessage
      exact ⟨hErr, by simpa using hMessage⟩
  obtain ⟨code, hEq, hNe, hOrdinary⟩ := hCode
  have hRange : ¬ (errMessageMin ≤ code ∧ code < errMessageMin + p.messageCnt) := by
    simpa [isMessage] using hOrdinary
  have hOther : wrapInt (errOther - stdErrBase + stdErrBase) ≠ 0 := by decide
  unfold newReport
  simp only [← hEq]
  by_cases hSystem : code < stdErrBase ∨ errMessageMin + p.messageCnt ≤ code
  · rw [if_pos hSystem]
    exact ⟨_, rfl, rfl, rfl, hOther, fun _ => ⟨by simp, hOrdinary⟩, hExpands⟩
  · have hStd : code < errMessageMin := by omega
    rw [if_neg hSystem, if_pos hStd]
    refine ⟨_, rfl, rfl, rfl, ?_, fun hPosix => absurd rfl hPosix, hExpands⟩
    show wrapInt (code - stdErrBase + stdErrBase) ≠ 0
    rw [Int.sub_add_cancel, wrapInt_of_lt (by omega) hStd]
    exact hNe

/-- An entry gets the report that has been made of it. -/
theorem inv_attach (h : Inv p s) {k : Nat} (hk : k < p.messageCnt)
    (hNone : (s.msgs k).report = none) (hGets : r.gets = 1) (hSound : r.Sound p)
    (ht : t = { s with
      msgs := Function.update s.msgs k { s.msgs k with report := some s.next }
      reports := Function.update s.reports s.next (some { r with refs := 2 })
      next := s.next + 1 }) : Inv p t := by
  have hMsgs : t.msgs = Function.update s.msgs k { s.msgs k with report := some s.next } := by
    rw [ht]
  have hReports : t.reports = Function.update s.reports s.next (some { r with refs := 2 }) := by
    rw [ht]
  have hCounted := counted_attach h.counted hk hNone rfl hGets hMsgs hReports (by rw [ht])
  have hNew : holders p s s.next = 0 :=
    h.counted.holders_eq_zero (h.counted.fresh s.next le_rfl)
  refine ⟨⟨by rw [ht]; exact h.pos, hCounted⟩, fun j hj => ?_, fun id' r' hr' => ?_,
    fun no => (h.ends no).mono fun a b hab => ?_⟩
  · rw [hMsgs]
    by_cases hjk : j = k
    · subst hjk
      rw [Function.update_self]
      exact ⟨(h.messages j hj).error, (h.messages j hj).ordinary, (h.messages j hj).text⟩
    · rw [Function.update_of_ne hjk]
      exact h.messages j hj
  · rw [hReports] at hr'
    by_cases hne : id' = s.next
    · subst hne
      rw [Function.update_self] at hr'
      cases hr'
      exact hSound.withCounts 2 r.gets
    · rw [Function.update_of_ne hne] at hr'
      exact h.reports id' r' hr'
  · by_cases hMessage : isMessage p a
    · obtain ⟨j, hj, rfl⟩ := eq_numberOf hMessage
      obtain ⟨hSource, hError, hPosix⟩ := (nextCode_eq_some hj).1 hab
      refine (nextCode_eq_some hj).2 ?_
      rw [hMsgs] at hSource hError hPosix
      by_cases hjk : j = k
      · subst hjk
        rw [Function.update_self] at hSource hError
        refine ⟨hSource, hError, fun r' hr' => ?_⟩
        simp [State.reportOf, hNone] at hr'
      · rw [Function.update_of_ne hjk] at hSource hError hPosix
        refine ⟨hSource, hError, fun r' hr' => hPosix r' ?_⟩
        obtain ⟨id', hId', hr'⟩ := Option.bind_eq_some_iff.1 hr'
        unfold State.reportOf
        rw [hId', hReports]
        show Function.update s.reports s.next _ id' = some r'
        rw [Function.update_of_ne (Counted.ne_of_unheld hNew hj hId')]
        exact hr'
    · rw [nextCode_of_not (by simpa using hMessage)] at hab
      cases hab

/-- `get_error_report` -/
theorem getErrorReport_inv (h : Inv p s) {err : Int} {time : Nat}
    (hAllowed : Allowed p s (.getErrorReport err time)) :
    ∃ r, getErrorReport p s err time = some r ∧ Inv p r.1 := by
  unfold getErrorReport
  by_cases hErr : err = 0
  · exact ⟨_, if_pos hErr, h⟩
  simp only [if_neg hErr]
  by_cases hOld : isMessage p err ∧ (s.message err).report.isSome
  · rw [if_pos hOld]
    obtain ⟨hMessage, hSome⟩ := hOld
    obtain ⟨k, hk, rfl⟩ := eq_numberOf hMessage
    rw [message_numberOf] at hSome ⊢
    obtain ⟨id, hId⟩ := Option.isSome_iff_exists.1 hSome
    obtain ⟨r, hr⟩ := Option.ne_none_iff_exists'.1 (h.counted.live k hk id hId)
    obtain ⟨hRefs, hPos⟩ := h.counted.refs id r hr
    refine ⟨_, by simp only [hId, hr, bind, Option.bind]; rfl, ?_⟩
    exact inv_count h hr (n := r.refs + 1) (g := r.gets + 1) (by omega) (by omega) rfl rfl rfl rfl
  · rw [if_neg hOld]
    obtain ⟨-, format, -, -, -, hFormat⟩ := h.resolves hErr
    obtain ⟨r, hr, hRefs, hGets, hSound⟩ :=
      newReport_spec h time hErr (hAllowed.resolve_left hOld format hFormat)
    simp only [hFormat, hr, bind, Option.bind]
    by_cases hMessage : isMessage p err
    · obtain ⟨k, hk, rfl⟩ := eq_numberOf hMessage
      have hNone : (s.msgs k).report = none := by simpa [hMessage] using hOld
      have hIndex : (numberOf k - errMessageMin).toNat = k := by simp [numberOf]
      refine ⟨_, if_pos hMessage, ?_⟩
      refine inv_attach h hk hNone hGets hSound ?_
      simp only [hIndex, message_numberOf]
    · refine ⟨_, if_neg hMessage, ?_⟩
      have hNew : holders p s s.next = 0 :=
        h.counted.holders_eq_zero (h.counted.fresh s.next le_rfl)
      refine inv_unheld h hNew (o := some r) (fun _ => Nat.lt_succ_self _) (Nat.le_succ _)
        (fun r' hr' => ?_) rfl rfl rfl
      cases hr'
      exact ⟨by omega, by omega, hSound⟩

/-- `read_error_object` -/
theorem readErrorObject_inv (h : Inv p s) {fields : List ErrorField}
    (hAllowed : Allowed p s (.readErrorObject fields)) :
    ∃ r, readErrorObject p s fields = some r ∧ Inv p r.1 := by
  obtain ⟨hPosix, hRefs, hGets⟩ := readReport_counts fields
  unfold readErrorObject
  by_cases hCode : (readReport fields).code = 0
  · exact ⟨_, if_pos hCode, h⟩
  · simp only [if_neg hCode]
    obtain ⟨hNe, hClear, hExpands⟩ := hAllowed.resolve_left hCode
    let u := withReport s (readReport fields)
    have hSelf : u.reports s.next = some (readReport fields) := Function.update_self ..
    have hNew : holders p s s.next = 0 :=
      h.counted.holders_eq_zero (h.counted.fresh s.next le_rfl)
    have hInv : Inv p u := by
      refine inv_unheld h hNew (fun _ => Nat.lt_succ_self _) (Nat.le_succ _) (fun r hr => ?_) rfl
        rfl rfl
      cases hr
      exact ⟨by omega, by omega, hNe, fun hSystem => absurd hPosix hSystem, hExpands⟩
    have hSame : nextCode p u = nextCode p s := by
      funext no
      by_cases hMessage : isMessage p no
      · obtain ⟨j, hj, rfl⟩ := eq_numberOf hMessage
        refine nextCode_congr hj rfl rfl ?_
        show (((s.msgs j).report.bind u.reports).map _) = ((s.msgs j).report.bind s.reports).map _
        cases hReport : (s.msgs j).report with
        | none => rfl
        | some id' =>
          show (u.reports id').map _ = (s.reports id').map _
          rw [show u.reports id' = s.reports id' from
            Function.update_of_ne (Counted.ne_of_unheld hNew hj hReport) _ _]
      · have hNot : isMessage p no = false := by simpa using hMessage
        rw [nextCode_of_not hNot, nextCode_of_not hNot]
    have hClearU : Clear p u (wrapInt ((readReport fields).code + stdErrBase)) := by
      unfold Clear
      rw [hSame]
      exact hClear
    have hHeld : Held u s.next (readReport fields) := ⟨hSelf, by omega⟩
    obtain ⟨t, n, ht, hInvT, hReport⟩ := setErrorReportErrno_inv hInv hHeld hClearU
    have hHeldT : Held t s.next { readReport fields with refs := n } := by
      refine ⟨hReport, ?_⟩
      show 0 < (readReport fields).gets
      omega
    obtain ⟨t', ht', hInvT'⟩ := releaseErrorReport_inv hInvT hHeldT
    refine ⟨(t', numberOf s.msgsPos), ?_, hInvT'⟩
    show (setErrorReportErrno p u (some s.next)).bind _ = _
    rw [ht]
    show (releaseErrorReport t (some s.next)).bind _ = _
    rw [ht']
    rfl

end

/-! ## Runs -/

section

variable {p : Platform}

theorem inv_init : Inv p {} where
  toReady := ready_init
  messages _ _ := ⟨by simp, by simp, by simp⟩
  reports _ _ h := by cases h
  ends no := by
    refine finishes_of_none ?_
    by_cases hMessage : isMessage p no
    · obtain ⟨j, hj, rfl⟩ := eq_numberOf hMessage
      simp [nextCode]
    · exact nextCode_of_not (by simpa using hMessage)

theorem step_inv {s : State} {e : Event} (h : Inv p s) (hAllowed : Allowed p s e) :
    ∃ t, step p s e = some t ∧ Inv p t := by
  cases e with
  | setErrno no msg =>
    cases msg with
    | none => exact ⟨s, rfl, h⟩
    | some msg =>
      by_cases hNo : no = 0
      · refine ⟨s, ?_, h⟩
        simp [step, setErrno, hNo]
      · have hClear : Clear p s no := by
          rcases hAllowed with hNone | hZero | hClear
          · cases hNone
          · exact absurd hZero hNo
          · exact hClear
        obtain ⟨t, ht, hInv⟩ := setErrno_inv h msg hNo hClear
        exact ⟨t, by simp only [step, ht]; rfl, hInv⟩
  | setGaiErrno no =>
    obtain ⟨r, hr, hInv⟩ := setGaiErrno_inv h no
    exact ⟨r.1, by simp only [step, hr]; rfl, hInv⟩
  | setErrorReportErrno report =>
    cases report with
    | none => exact ⟨s, rfl, h⟩
    | some id =>
      obtain ⟨r, hHeld, hClear⟩ := hAllowed
      obtain ⟨t, n, ht, hInv, -⟩ := setErrorReportErrno_inv h hHeld hClear
      exact ⟨t, by simp only [step, ht]; rfl, hInv⟩
  | getErrorReport err time =>
    obtain ⟨r, hr, hInv⟩ := getErrorReport_inv h hAllowed
    exact ⟨r.1, by simp only [step, hr]; rfl, hInv⟩
  | releaseErrorReport report =>
    cases report with
    | none => exact ⟨s, rfl, h⟩
    | some id =>
      obtain ⟨r, hHeld⟩ := hAllowed
      exact releaseErrorReport_inv h hHeld
  | readErrorObject fields =>
    obtain ⟨r, hr, hInv⟩ := readErrorObject_inv h hAllowed
    exact ⟨r.1, by simp only [step, hr]; rfl, hInv⟩

/-- In every run that keeps to `Allowed`, no assertion fails, no call hangs, and every error
number leads to a code and to a text. -/
theorem error_numbers_resolve {es : List Event} (h : Meets (step p) (Allowed p) {} es) :
    ∃ s, run (step p) {} es = some s ∧ ∀ no, no ≠ 0 → Resolves p s no := by
  obtain ⟨s, hRun, hInv⟩ := run_total (fun _ _ h hAllowed => step_inv h hAllowed) inv_init h
  exact ⟨s, hRun, fun no hNo => hInv.resolves hNo⟩

end

/-! ## Numbers that lead nowhere -/

/-- A target with a table of 30 entries. -/
def plainPlatform : Platform where
  messageCnt := 30
  hMessageCnt := by decide
  strerror _ := ascii "System error"
  gaiStrerror _ := ascii "Address error"
  altOrg := ascii "Linux"
  showParam _ _ param := param

/-- An error with a message, and a report of another error. -/
theorem error_numbers_resolve_plain :
    ∃ s, run (step plainPlatform) {} [.setErrno errOther (some [65]), .getErrorReport errOther 7] =
      some s ∧ ∀ no, no ≠ 0 → Resolves plainPlatform s no := by
  refine error_numbers_resolve ⟨.inr (.inr ?_), fun s hs => ⟨.inr fun text hText => ?_,
    fun _ _ => trivial⟩⟩
  · exact avoids_of_none (nextCode_of_not (by decide)) (by decide)
  · cases hText
    intro format hFormat
    cases hFormat
    exact ⟨_, rfl⟩

/-- A peer sends the code that makes the entry refer to itself; a number is used to make an error
in its own entry; a format numbers a parameter beyond `INT_MAX`. -/
theorem numbers_lead_nowhere :
    (∃ s, run (step plainPlatform) {} [.readErrorObject [.code 100]] = some s ∧
      ∀ fuel, getErrorCode plainPlatform s fuel (numberOf 0) = none ∧
        errnoToStr plainPlatform s fuel (numberOf 0) = .error .fuel) ∧
    (∃ s, run (step plainPlatform) {}
    (List.replicate 30 (.setErrno errOther (some [65]))) = some s ∧
      getErrorCode plainPlatform s plainPlatform.fuel (numberOf 0) = some errOther ∧
      step plainPlatform s (.setErrno (numberOf 0) (some [66])) = none) ∧
    ∃ s, run (step plainPlatform) {} [.readErrorObject [.code 1,
        .format (some (ascii "\x7b4294967295\x7d"))]] = some s ∧
      errnoToStr plainPlatform s plainPlatform.fuel (numberOf 0) = .error .undefined := by
  refine ⟨⟨_, rfl, fun fuel => ?_⟩, ⟨_, rfl, by decide, ?_⟩, ⟨_, rfl, by decide⟩⟩
  · induction fuel with
    | zero => exact ⟨rfl, rfl⟩
    | succ fuel ih =>
      refine ⟨?_, ?_⟩
      · rw [getErrorCode_succ]
        exact ih.1
      · rw [errnoToStr_message (by decide)]
        exact ih.2
  · exact Option.isNone_iff_eq_none.1 (by decide)

end TcfAgent.Errors
