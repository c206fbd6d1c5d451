import TcfAgent.Framework.InputBufSteps

/-!
# The input buffer, over whole runs

To the handler the buffer is a queue of values: the unescaped stream comes in on one
side, and each read takes the first value on the other (`Served`). The invariant `Inv`
says where the values of that queue are: some bytes lie in the window lent to the
handler, the others in the circle behind it, where the reader still has to decode them.

Two things break it. When a message is handled ahead of its end, a chunk that ends the
stream and then the message breaks the assertion on `message_count`, and the reader
may run into an invalid escape code. And `ibuf_get_more` leaves `end` behind `cur`
when it returns `MARKER_EOS` for want of data, so that the next call finds the two
apart. `Sound` says that a step does neither.

Main results:

* `run_anyPeer` — whatever the peer sends, a run of sound steps breaks no assertion, and
  the handler gets the values received and then `MARKER_EOS`;
* `run_framed` — from a peer that sends whole frames, it gets the values of the frames;
* `framedMessage_fails`, `invalidMessage_fails` — runs that break the assertion on
  `message_count`.
-/

namespace TcfAgent.Ibuf

open TcfAgent.Lib TcfAgent.Lib.Ring TcfAgent.Streams

variable {ub : UInt8 → Nat → Nat} {i : Bool} {s : InputBuf}

/-! ## The queue of values -/

/-- The handler was given the values of `log`, each with the `peeking` of its call, from
the front of `stream`, and `syms` are left. The flag says that it was told of the end of
the stream when none were. -/
inductive Served (stream : List Symbol) : Bool → List (Bool × Value) → List Symbol → Prop
  | start : Served stream false [] stream
  | peek {ended log v syms} (h : Served stream ended log (.value v :: syms)) :
      Served stream ended (log ++ [(true, v)]) (.value v :: syms)
  | read {ended log v syms} (h : Served stream ended log (.value v :: syms)) :
      Served stream ended (log ++ [(false, v)]) syms
  | eos {ended log} (h : Served stream ended log []) (peeking : Bool) :
      Served stream true (log ++ [(peeking, .eos)]) []

/-- The values that were read, not only looked at. -/
def reads (log : List (Bool × Value)) : List Value :=
  (log.filter fun e => !e.1).map Prod.snd

namespace Served

variable {stream syms : List Symbol} {ended : Bool} {log : List (Bool × Value)} {v : Value}

theorem give (h : Served stream ended log (.value v :: syms)) (peeking : Bool) :
    Served stream ended (log ++ [(peeking, v)]) (leaves peeking (.value v :: syms)) := by
  cases peeking with
  | true => exact h.peek
  | false => exact h.read

/-- More of the stream comes in, as long as the handler was not told of its end. -/
theorem append (h : Served stream false log syms) (more : List Symbol) :
    Served (stream ++ more) false log (syms ++ more) := by
  generalize hEnded : false = ended at h
  induction h with
  | start => exact .start
  | peek _ ih => exact (ih hEnded).peek
  | read _ ih => exact (ih hEnded).read
  | eos => cases hEnded

theorem suffix (h : Served stream ended log syms) : syms <:+ stream := by
  induction h with
  | start => exact List.suffix_rfl
  | peek _ ih => exact ih
  | read _ ih => exact (List.suffix_cons ..).trans ih
  | eos => exact List.nil_suffix

theorem reads_concat (log : List (Bool × Value)) (peeking : Bool) (v : Value) :
    reads (log ++ [(peeking, v)]) = reads log ++ (if peeking then [] else [v]) := by
  cases peeking <;> simp [reads]

/-- **What was read and what is left** is the stream, and then ends of stream. -/
theorem reads_append (h : Served stream ended log syms) :
    ∃ n, (reads log).map .value ++ syms = stream ++ List.replicate n (.value .eos) ∧
      (ended = false → n = 0) := by
  induction h with
  | start => exact ⟨0, by simp [reads], fun _ => rfl⟩
  | peek _ ih => simpa [reads_concat] using ih
  | read _ ih => simpa [reads_concat] using ih
  | eos _ peeking ih =>
    obtain ⟨n, hEq, -⟩ := ih
    rw [List.append_nil] at hEq
    rw [reads_concat, List.append_nil]
    cases peeking with
    | true => exact ⟨n, by simpa using hEq, by simp⟩
    | false =>
      refine ⟨n + 1, ?_, by simp⟩
      rw [List.replicate_succ', ← List.append_assoc, ← hEq]
      simp

end Served

/-! ## The invariant -/

/-- The values the handler has still to read. -/
def unread (ub : UInt8 → Nat → Nat) (s : InputBuf) (w rest : List UInt8) : List Symbol :=
  w.map (fun b => .value (.byte b)) ++ (escape ub).outs s.reader rest

/-- The counters agree with the values not yet read. -/
structure Counts (s : InputBuf) (syms : List Symbol) : Prop where
  count : s.messageCount = eoms syms + s.longMsg.toNat + s.eof.toNat
  long  : s.longMsg = true → eoms syms = 0
  busy  : s.handlingMsg ≠ .idle → 0 < s.messageCount
  idle  : s.handlingMsg = .idle → s.messageCount = 0 ∨ s.eof = true

/-- What holds at all times: the bytes `received` are read up to a window `w` of them and
the bytes `rest` behind it. -/
structure Core (ub : UInt8 → Nat → Nat) (s : InputBuf) (received w rest : List UInt8) :
    Prop where
  layout  : Layout s s.cur (w ++ rest)
  wf      : WellFormed s.reader
  scanner : s.scanner = (escape ub).final {} received
  reader  : (escape ub).final s.reader rest = s.scanner
  served  : ∃ ended, Served (decode ub received) ended s.log (unread ub s w rest) ∧
              (ended = true → s.eof = true)
  counts  : Counts s (unread ub s w rest)
  pending : PendingFits s (w ++ rest)

/-- The calls of the handler: those answered, and the one that waits. -/
def asked (s : InputBuf) : List Bool := s.log.map Prod.fst ++ s.waiting.toList

/-- The window stands between `cur` and `end`. -/
def Window (s : InputBuf) (w : List UInt8) : Prop :=
  s.endPos = s.cur + w.length ∧ s.cur + w.length ≤ s.bufSize

/-- `end` was left behind when `MARKER_EOS` was returned for want of data. -/
def Stale (s : InputBuf) : Prop := s.eof = true ∧ s.cur = s.inp ∧ s.endPos ≠ s.cur

instance (s : InputBuf) : Decidable (Stale s) := inferInstanceAs (Decidable (_ ∧ _ ∧ _))

/-- What holds between steps. -/
structure Inv (ub : UInt8 → Nat → Nat) (s : InputBuf) (received w rest : List UInt8) : Prop
    extends Core ub s received w rest where
  window : s.waiting = none → ¬ Stale s → Window s w
  stale  : Stale s → w = [] ∧ rest = []
  waits  : s.waiting ≠ none →
             w = [] ∧ rest = [] ∧ s.cur = s.inp ∧ s.handlingMsg = .active ∧ s.pending ≠ none
  asks   : s.eof = false → s.messageCount = 0 → s.pending ≠ none

/-! ## Giving a value -/

variable {syms : List Symbol} {t : InputBuf}

theorem Counts.congr (h : Counts s syms)
    (hCount : t.messageCount = s.messageCount) (hLong : t.longMsg = s.longMsg)
    (hEof : t.eof = s.eof) (hHandling : t.handlingMsg = s.handlingMsg) : Counts t syms := by
  refine ⟨?_, ?_, ?_, ?_⟩
  all_goals simp only [hCount, hLong, hEof, hHandling]
  · exact h.count
  · exact h.long
  · exact h.busy
  · exact h.idle

theorem PendingFits.congr {bytes bytes' : List UInt8} (h : PendingFits s bytes)
    (hLe : bytes'.length ≤ bytes.length) (hPending : t.pending = s.pending)
    (hInp : t.inp = s.inp) (hSize : t.bufSize = s.bufSize) (hEof : t.eof = s.eof) :
    PendingFits t bytes' := by
  intro p k hp
  rw [hPending] at hp
  obtain ⟨h1, h2, h3, h4⟩ := h p k hp
  rw [hInp, hSize, hEof]
  exact ⟨h1, h2, by omega, h4⟩

/-- A window that ends at the end of the buffer is empty there. -/
theorem Window.at_end {w : List UInt8} (h : Window s w) (hCur : s.cur = s.bufSize) :
    s.endPos = s.bufSize := by
  obtain ⟨h1, h2⟩ := h
  omega

theorem Window.not_stale {w rest : List UInt8} (h : Window s w)
    (hLayout : Layout s s.cur (w ++ rest)) : ¬ Stale s := by
  rintro ⟨-, hInp, hEnd⟩
  obtain ⟨h1, -⟩ := h
  have hCases := hLayout.inp_cases
  have hRoom := hLayout.room
  rw [List.length_append] at hCases hRoom
  omega

theorem Triggered.window_keeps {w bytes : List UInt8} (h : Triggered s t bytes)
    (hWindow : Window s w) : Window t w := by
  obtain ⟨h1, h2⟩ := hWindow
  have hSize : t.bufSize = s.bufSize := by rw [h.frame]
  rw [Window, hSize]
  rcases h.window with ⟨hCur, hEnd⟩ | ⟨hAt, hCur, hEnd⟩
  · rw [hCur, hEnd]
    exact ⟨h1, h2⟩
  · rw [hCur, hEnd]
    omega

/-- Reading the end of a message is the end of the message. -/
theorem Counts.afterRead {v : Value} (h : Counts s (.value v :: syms))
    (peeking : Bool) :
    Counts (afterRead s peeking v) (leaves peeking (.value v :: syms)) := by
  cases peeking with
  | true => exact h
  | false =>
    by_cases hv : v = .eom
    · subst hv
      have hCount := h.count
      rw [eoms_cons, if_pos rfl] at hCount
      have hLong : s.longMsg = false := by
        by_contra hLong
        have hZero := h.long (by simpa using hLong)
        rw [eoms_cons, if_pos rfl] at hZero
        omega
      rw [hLong] at hCount
      have hEom : Ibuf.afterRead s false .eom = readEom s := if_pos ⟨rfl, rfl⟩
      rw [hEom]
      show Counts _ syms
      by_cases hMore : s.messageCount - 1 = 0
      · have hRead :
          readEom s = { s with messageCount := s.messageCount - 1, handlingMsg := .idle } :=
          if_neg (by simp [hMore])
        rw [hRead]
        refine ⟨?_, ?_, by simp, fun _ => Or.inl hMore⟩
        · simp only [hLong, hCount]
          simp
        · simp [hLong]
      · have hRead : readEom s =
            { s with messageCount := s.messageCount - 1, handlingMsg := .triggered } :=
          if_pos hMore
        rw [hRead]
        refine ⟨?_, ?_, fun _ => Nat.pos_of_ne_zero hMore, by simp⟩
        · simp only [hLong, hCount]
          simp
        · simp [hLong]
    · rw [afterRead_of_ne hv]
      have hEoms : eoms (.value v :: syms) = eoms syms := by simp [eoms_cons, hv]
      show Counts s syms
      refine ⟨by rw [← hEoms]; exact h.count, ?_, h.busy, h.idle⟩
      intro hLong
      rw [← hEoms]
      exact h.long hLong

/-- A message count of zero after a read means that the read was of an end of message. -/
theorem afterRead_count {v : Value} {peeking : Bool} (hPos : 0 < s.messageCount)
    (hZero : (afterRead s peeking v).messageCount = 0) : peeking = false := by
  by_contra hPeek
  have hSame : afterRead s peeking v = s := if_neg fun h => hPeek h.1
  rw [hSame] at hZero
  omega

section Step

variable {received w rest : List UInt8}

/-- **A value is given** and the window behind it lent. -/
theorem Core.give (h : Core ub s received w rest) (hActive : s.handlingMsg = .active)
    (hWaiting : s.waiting = none) {v : Value} {peeking : Bool}
    (hUnread : unread ub s w rest = .value v :: syms) {w' rest' : List UInt8}
    (hLends : Lends ub (afterRead s peeking v) t peeking (w ++ rest) s.scanner
      (leaves peeking (.value v :: syms)) w' rest') :
    ∃ u, finish t peeking v = some u ∧ Inv ub u received w' rest' ∧
      asked u = asked s ++ [peeking] := by
  obtain ⟨ended, hServed, hEnded⟩ := h.served
  have hCounts := h.counts
  rw [hUnread] at hServed hCounts
  have hPos := hCounts.busy (by simp [hActive])
  have hBase := afterRead_frame s peeking v
  have hAfter := hCounts.afterRead peeking
  have hZero : (afterRead s peeking v).messageCount = 0 → peeking = false := afterRead_count hPos
  generalize afterRead s peeking v = base at hBase hAfter hZero hLends
  have hFrame : t = { s with
      cur := t.cur
      endPos := t.endPos
      reader := t.reader
      messageCount := base.messageCount
      handlingMsg := base.handlingMsg } := by
    have hLent := hLends.frame
    rw [hBase] at hLent
    exact hLent
  have hPend : PendingFits t (w' ++ rest') :=
    h.pending.congr hLends.le (by rw [hFrame]) (by rw [hFrame]) (by rw [hFrame]) (by rw [hFrame])
  obtain ⟨t', hTrigger, hT⟩ := ibufTriggerRead_spec hLends.layout
    (Window.at_end hLends.window) hPend
  have hFrame' : t' = { s with
      cur := t'.cur
      endPos := t'.endPos
      reader := t.reader
      messageCount := base.messageCount
      handlingMsg := base.handlingMsg
      pending := t'.pending } := by
    have hSame := hT.frame
    rw [hFrame] at hSame
    exact hSame
  have hWindow : Window t' w' := hT.window_keeps hLends.window
  have hReader : t'.reader = t.reader := by rw [hFrame']
  have hScanner : t'.scanner = s.scanner := by rw [hFrame']
  have hEof : t'.eof = s.eof := by rw [hFrame']
  have hCount : t'.messageCount = base.messageCount := by rw [hFrame']
  have hAsked : asked (deliver t' peeking v) = asked s ++ [peeking] := by
    have hLog : t'.log = s.log := by rw [hFrame']
    have hNone : t'.waiting = none := by rw [hFrame', hWaiting]
    simp [asked, deliver, hLog, hNone, hWaiting]
  refine ⟨deliver t' peeking v, by simp [finish, hTrigger], ?_, hAsked⟩
  refine ⟨⟨hT.layout.congr rfl rfl rfl, ?_, ?_, ?_, ⟨ended, ?_, ?_⟩, ?_, hT.pending⟩,
    ?_, ?_, ?_, ?_⟩
  · show WellFormed t'.reader
    rw [hReader]
    exact hLends.wf
  · show t'.scanner = _
    rw [hScanner]
    exact h.scanner
  · show (escape ub).final t'.reader rest' = t'.scanner
    rw [hReader, hScanner]
    exact hLends.fin
  · have hLog : t'.log = s.log := by rw [hFrame']
    show Served _ ended (t'.log ++ [(peeking, v)])
      (w'.map (fun b => .value (.byte b)) ++ (escape ub).outs t'.reader rest')
    rw [hLog, hReader, hLends.syms]
    exact hServed.give peeking
  · show ended = true → t'.eof = true
    rw [hEof]
    exact hEnded
  · show Counts _ (w'.map (fun b => .value (.byte b)) ++ (escape ub).outs t'.reader rest')
    rw [hReader, hLends.syms]
    have hLong : base.longMsg = s.longMsg := by rw [hBase]
    have hBaseEof : base.eof = s.eof := by rw [hBase]
    refine hAfter.congr hCount ?_ (hEof.trans hBaseEof.symm) ?_
    · rw [hLong]
      show t'.longMsg = s.longMsg
      rw [hFrame']
    · show t'.handlingMsg = base.handlingMsg
      rw [hFrame']
  · intro _ _
    exact hWindow
  · intro hStale
    have hNot := Window.not_stale hWindow hT.layout
    exact absurd hStale hNot
  · intro hWait
    have hSame : t'.waiting = s.waiting := by rw [hFrame']
    exact absurd (hSame.trans hWaiting) hWait
  · intro hOpen hNone
    have hEofT : t.eof = t'.eof := by
      rw [hEof, hFrame]
    have hRead := hZero (hCount.symm.trans hNone)
    have hLess := hLends.lt hRead
    have hRoom := h.layout.room
    have hSize : t.bufSize = s.bufSize := by rw [hFrame]
    exact hT.asks (hEofT.trans hOpen) (by omega)

/-- **Nothing to give.** The handler is told of the end of the stream, or waits. -/
theorem Core.noData (h : Core ub s received [] rest) (hActive : s.handlingMsg = .active)
    (hWaiting : s.waiting = none) (hOuts : (escape ub).outs s.reader rest = []) (peeking : Bool) :
    ∃ u, Ibuf.noData { s with reader := (escape ub).final s.reader rest } peeking s.inp = some u ∧
      Inv ub u received [] [] ∧ asked u = asked s ++ [peeking] := by
  obtain ⟨ended, hServed, hEnded⟩ := h.served
  have hUnread : unread ub s [] rest = [] := hOuts
  have hCounts := h.counts
  rw [hUnread] at hServed hCounts
  have hPos := hCounts.busy (by simp [hActive])
  have hLt := h.layout.inp_lt
  -- the state with all the bytes read
  have hLayout : Layout s s.inp [] := by
    refine ⟨h.layout.size, hLt, le_of_lt hLt, holds_nil, ?_, by simp; omega⟩
    rw [List.length_nil, Nat.add_zero, Nat.mod_eq_of_lt hLt]
  have hPend : PendingFits s [] :=
    h.pending.congr (Nat.zero_le _) rfl rfl rfl rfl
  have hWf : WellFormed ((escape ub).final s.reader rest) := h.wf.final rest
  rcases Bool.eq_false_or_eq_true s.eof with hEof | hEof
  · refine ⟨deliver { s with reader := (escape ub).final s.reader rest, cur := s.inp } peeking .eos,
      by simp [Ibuf.noData, hEof], ?_, by simp [asked, deliver, hWaiting]⟩
    refine ⟨⟨hLayout.congr rfl rfl rfl, hWf, h.scanner, h.reader, ⟨true, ?_, fun _ => hEof⟩,
      hCounts.congr rfl rfl rfl rfl, hPend.congr (le_refl _) rfl rfl rfl rfl⟩, ?_, ?_, ?_, ?_⟩
    · exact hServed.eos peeking
    · intro _ hNot
      have hEnd : s.endPos = s.inp := by
        by_contra hEnd
        exact hNot ⟨hEof, rfl, hEnd⟩
      exact ⟨hEnd, le_of_lt hLt⟩
    · intro _
      exact ⟨rfl, rfl⟩
    · intro hWait
      exact absurd hWaiting hWait
    · intro hOpen
      exact absurd (hEof.symm.trans hOpen) (by simp)
  · have hCount := hCounts.count
    rw [hEof, eoms_nil] at hCount
    have hLong : s.longMsg = true := by
      by_contra hLong
      rw [Bool.not_eq_true] at hLong
      rw [hLong] at hCount
      simp at hCount
      omega
    have hOne : s.messageCount = 1 := by
      rw [hCount, hLong]
      rfl
    obtain ⟨t, hTrigger, hT⟩ :=
      ibufTriggerRead_spec (s := { s with reader := (escape ub).final s.reader rest, cur := s.inp })
        (hLayout.congr rfl rfl rfl) (fun hCur => absurd hCur (ne_of_lt hLt))
        (hPend.congr (le_refl _) rfl rfl rfl rfl)
    have hSize := h.layout.size
    have hAsks : t.pending ≠ none := hT.asks hEof (by simp; omega)
    have hCur : t.cur = s.inp := by
      rcases hT.window with ⟨hCur, -⟩ | ⟨hAt, -⟩
      · exact hCur
      · exact absurd hAt (ne_of_lt hLt)
    have hFrame := hT.frame
    refine ⟨{ t with waiting := some peeking }, ?_, ?_, ?_⟩
    · have hStep : Ibuf.noData { s with reader := (escape ub).final s.reader rest } peeking s.inp =
          (ibufTriggerRead { s with reader := (escape ub).final s.reader rest, cur := s.inp }).bind
            fun t => if t.pending = none then none else some
              { t with waiting := some peeking } := by
        rw [Ibuf.noData, if_neg (by simp [hLong]), if_neg (by simp [hEof]), if_neg (by simp [hOne])]
        rfl
      rw [hStep, hTrigger]
      exact if_neg hAsks
    · have hReader : t.reader = (escape ub).final s.reader rest := by rw [hFrame]
      have hScanner : t.scanner = s.scanner := by rw [hFrame]
      have hLog : t.log = s.log := by rw [hFrame]
      have hEofT : t.eof = s.eof := by rw [hFrame]
      refine ⟨⟨hT.layout.congr rfl rfl rfl, ?_, ?_, ?_, ⟨ended, ?_, ?_⟩,
        hCounts.congr ?_ ?_ hEofT ?_, hT.pending.congr (le_refl _) rfl rfl rfl rfl⟩,
        ?_, ?_, ?_, ?_⟩
      · show WellFormed t.reader
        rwa [hReader]
      · exact hScanner.trans h.scanner
      · show t.reader = t.scanner
        rw [hReader, hScanner]
        exact h.reader
      · show Served _ ended t.log []
        rwa [hLog]
      · show ended = true → t.eof = true
        rwa [hEofT]
      · show t.messageCount = s.messageCount
        rw [hFrame]
      · show t.longMsg = s.longMsg
        rw [hFrame]
      · show t.handlingMsg = s.handlingMsg
        rw [hFrame]
      · intro hWait
        exact absurd hWait (by simp)
      · intro _
        exact ⟨rfl, rfl⟩
      · intro _
        refine ⟨rfl, rfl, ?_, ?_, hAsks⟩
        · show t.cur = t.inp
          rw [hCur, hFrame]
        · show t.handlingMsg = .active
          rw [hFrame]
          exact hActive
      · intro _ _
        exact hAsks
    · have hLog : t.log = s.log := by rw [hFrame]
      simp [asked, hLog, hWaiting]

/-- The first of the values unread is a value. -/
def NotInvalid (syms : List Symbol) : Prop := ∀ code, syms.head? ≠ some (.invalid code)

/-- **Reading on** from `cur`, with no window left. -/
theorem Core.getMoreLoop (h : Core ub s received [] rest) (hActive : s.handlingMsg = .active)
    (hWaiting : s.waiting = none) (hFirst : NotInvalid ((escape ub).outs s.reader rest))
    (peeking : Bool) :
    ∃ u w' rest', Ibuf.getMoreLoop ub peeking (s.bufSize + 1) s s.cur = some u ∧
      Inv ub u received w' rest' ∧ asked u = asked s ++ [peeking] := by
  have hFuel : rest.length < s.bufSize + 1 := by
    have := h.layout.room
    rw [List.nil_append] at this
    omega
  cases hOuts : (escape ub).outs s.reader rest with
  | nil =>
    obtain ⟨u, hu, hInv⟩ := h.noData hActive hWaiting hOuts peeking
    refine ⟨u, [], [], ?_, hInv⟩
    rw [getMoreLoop_noData h.layout h.wf hFuel hOuts]
    exact hu
  | cons x syms =>
    cases x with
    | invalid code => exact absurd (by rw [hOuts]; rfl) (hFirst code)
    | value v =>
      obtain ⟨t, w', rest', hLoop, hLends⟩ := getMoreLoop_value h.layout h.wf hFuel hOuts peeking
      rw [List.nil_append] at hLends
      rw [h.reader] at hLends
      obtain ⟨u, hu, hInv⟩ := h.give hActive hWaiting (by exact hOuts) (by exact hLends)
      exact ⟨u, w', rest', hLoop.trans hu, hInv⟩

/-- The bytes from `cur` to `inp`. -/
def unreadBytes (s : InputBuf) : List UInt8 :=
  (List.range ((s.inp + s.bufSize - s.cur) % s.bufSize)).map fun i =>
    s.buf ((s.cur + i) % s.bufSize)

theorem unreadBytes_eq {bytes : List UInt8} (h : Layout s s.cur bytes) : unreadBytes s = bytes := by
  have hLen : (s.inp + s.bufSize - s.cur) % s.bufSize = bytes.length := by
    have hLe := h.le
    rcases h.inp_cases with ⟨hEq, -⟩ | ⟨hEq, -⟩
    · have hSub : s.inp + s.bufSize - s.cur = bytes.length + s.bufSize := by omega
      rw [hSub, Nat.add_mod_right, Nat.mod_eq_of_lt h.room]
    · have hSub : s.inp + s.bufSize - s.cur = bytes.length := by omega
      rw [hSub, Nat.mod_eq_of_lt h.room]
  rw [unreadBytes, hLen]
  refine List.ext_getElem (by simp) ?_
  intro i hi hi'
  simpa using h.held i hi'

/-- A byte of the window is given. -/
theorem Inv.takeWindow {b : UInt8} (h : Inv ub s received (b :: w) rest)
    (hWaiting : s.waiting = none) (hWindow : Window s (b :: w))
    (peeking : Bool) :
    ∃ w', Inv ub (deliver { s with cur := if peeking then s.cur else s.cur + 1 } peeking (.byte b))
      received w' rest := by
  obtain ⟨ended, hServed, hEnded⟩ := h.served
  have hUnread : unread ub s (b :: w) rest = .value (.byte b) :: unread ub s w rest := rfl
  have hCounts := h.counts
  rw [hUnread] at hServed hCounts
  have hAfter := hCounts.afterRead peeking
  rw [afterRead_of_ne (by simp)] at hAfter
  obtain ⟨hEnd, hLe⟩ := hWindow
  have hNotStale := Window.not_stale ⟨hEnd, hLe⟩ h.layout
  rw [List.length_cons] at hEnd hLe
  cases peeking with
  | true =>
    refine ⟨b :: w, ⟨⟨h.layout.congr rfl rfl rfl, h.wf, h.scanner, h.reader,
      ⟨ended, hServed.give true, hEnded⟩, hAfter.congr rfl rfl rfl rfl,
      h.pending.congr (le_refl _) rfl rfl rfl rfl⟩, ?_, ?_, ?_, ?_⟩⟩
    · intro _ _
      exact ⟨hEnd, hLe⟩
    · intro hStale
      exact absurd hStale hNotStale
    · intro hWait
      exact absurd hWaiting hWait
    · exact h.asks
  | false =>
    have hLayout := h.layout.drop (k := 1) (by simp) (by omega)
    rw [List.cons_append, List.drop_one, List.tail_cons] at hLayout
    refine ⟨w, ⟨⟨hLayout.congr rfl rfl rfl, h.wf, h.scanner, h.reader,
      ⟨ended, hServed.give false, hEnded⟩, hAfter.congr rfl rfl rfl rfl,
      h.pending.congr (by simp) rfl rfl rfl rfl⟩, ?_, ?_, ?_, ?_⟩⟩
    · intro _ _
      show s.endPos = ((s.cur + 1 : Nat) : Int) + w.length ∧ s.cur + 1 + w.length ≤ s.bufSize
      omega
    · rintro ⟨-, hInp, hNe⟩
      exfalso
      have hCases := hLayout.inp_cases
      have hRoom := hLayout.room
      rw [List.length_append] at hCases hRoom
      have hInp' : s.cur + 1 = s.inp := hInp
      have hNe' : s.endPos ≠ ((s.cur + 1 : Nat) : Int) := hNe
      omega
    · intro hWait
      exact absurd hWaiting hWait
    · exact h.asks

/-- What keeps a read from failing: `end` was not left behind, and no invalid code is next. -/
def SoundGet (ub : UInt8 → Nat → Nat) (s : InputBuf) : Prop :=
  ¬ Stale s ∧ (s.endPos ≤ s.cur → NotInvalid ((escape ub).outs s.reader (unreadBytes s)))

/-- **A read or a peek** of the active handler. -/
theorem Inv.get (h : Inv ub s received w rest) (hActive : s.handlingMsg = .active)
    (hWaiting : s.waiting = none) (hSound : SoundGet ub s) (peeking : Bool) :
    ∃ u w' rest', readStream ub s peeking = some u ∧ Inv ub u received w' rest' ∧
      asked u = asked s ++ [peeking] := by
  have hWindow := h.window hWaiting hSound.1
  obtain ⟨hEnd, hLe⟩ := hWindow
  have hPos := h.counts.busy (by simp [hActive])
  cases w with
  | nil =>
    rw [List.length_nil] at hEnd
    have hUnread := unreadBytes_eq h.layout
    have hFirst := hSound.2 (by omega)
    rw [hUnread] at hFirst
    obtain ⟨u, w', rest', hLoop, hInv⟩ := h.toCore.getMoreLoop hActive hWaiting hFirst peeking
    refine ⟨u, w', rest', ?_, hInv⟩
    have hLeCur := h.layout.le
    have hChecks : ¬ (s.messageCount = 0 ∨ s.handlingMsg ≠ .active ∨ s.bufSize < s.cur ∨
        s.endPos ≠ s.cur) := by
      rintro (hNone | hIdle | hCur | hNe)
      · omega
      · exact hIdle hActive
      · omega
      · omega
    rw [readStream, if_neg (by omega), ibufGetMore, if_neg hChecks]
    exact hLoop
  | cons b w =>
    obtain ⟨w', hInv⟩ := h.takeWindow hWaiting ⟨hEnd, hLe⟩ peeking
    rw [List.length_cons] at hEnd hLe
    have hByte : s.buf s.cur = b := h.layout.head (by omega)
    refine ⟨_, w', rest, ?_, hInv, by simp [asked, deliver, hWaiting]⟩
    rw [readStream, if_pos (by omega), hByte]

/-! ## A chunk arrives -/

/-- The values unread, with those of a chunk behind them. -/
theorem unread_append (h : Core ub s received w rest) (chunk : List UInt8) :
    w.map (fun b => .value (.byte b)) ++ (escape ub).outs s.reader (rest ++ chunk) =
      unread ub s w rest ++ (escape ub).outs s.scanner chunk := by
  rw [Mealy.outs_append, h.reader, ← List.append_assoc]
  rfl

/-- **The values of a chunk join the queue.** -/
theorem Core.arrived (h : Core ub s received w rest) (hEof : s.eof = false) (chunk : List UInt8)
    {buf : Nat → UInt8}     (hArrived : Arrived { s with buf := buf, pending := none } t
      (eoms (unread ub s w rest)) syms)
    (hSyms : eoms syms = eoms ((escape ub).outs s.scanner chunk)) {p : Nat}
    (hLayout : Layout (place t ((escape ub).final s.scanner chunk) p) s.cur
      (w ++ (rest ++ chunk))) :
    Core ub (place t ((escape ub).final s.scanner chunk) p) (received ++ chunk) w
      (rest ++ chunk) := by
  obtain ⟨ended, hServed, hEnded⟩ := h.served
  have hNotEnded : ended = false := by
    by_contra hNot
    have := hEnded (by simpa using hNot)
    rw [hEof] at this
    cases this
  subst hNotEnded
  have hFrame := hArrived.frame
  have hReader : t.reader = s.reader := by rw [hFrame]
  have hCur : t.cur = s.cur := by rw [hFrame]
  have hLog : t.log = s.log := by rw [hFrame]
  have hPending : t.pending = none := by rw [hFrame]
  have hUnread : unread ub (place t ((escape ub).final s.scanner chunk) p) w (rest ++ chunk) =
      unread ub s w rest ++ (escape ub).outs s.scanner chunk := by
    rw [← unread_append h]
    show _ ++ (escape ub).outs t.reader _ = _
    rw [hReader]
  refine ⟨?_, ?_, ?_, ?_, ⟨false, ?_, by simp⟩, ?_, ?_⟩
  · show Layout _ t.cur _
    rw [hCur]
    exact hLayout
  · show WellFormed t.reader
    rw [hReader]
    exact h.wf
  · show (escape ub).final s.scanner chunk = _
    rw [h.scanner, Mealy.final_append]
  · show (escape ub).final t.reader (rest ++ chunk) = (escape ub).final s.scanner chunk
    rw [hReader, Mealy.final_append, h.reader]
  · rw [hUnread]
    show Served _ false t.log _
    rw [hLog, decode, Mealy.outs_append, ← h.scanner]
    exact hServed.append _
  · rw [hUnread]
    have hCount := h.counts
    refine ⟨?_, ?_, ?_, ?_⟩
    · rw [eoms_append, ← hSyms]
      exact hArrived.count
    · rw [eoms_append, ← hSyms]
      exact hArrived.long
    · intro hBusy
      by_cases hIdle : s.handlingMsg = .idle
      · rcases hArrived.idle hIdle with ⟨hStill, -⟩ | ⟨-, hPos⟩
        · exact absurd hStill hBusy
        · exact hPos
      · exact lt_of_lt_of_le (hCount.busy hIdle) hArrived.le
    · intro hIdle
      have hWas : s.handlingMsg = .idle := by
        by_contra hBusy
        exact hBusy ((hArrived.busy hBusy).symm.trans hIdle)
      rcases hArrived.idle hWas with ⟨-, hSame⟩ | ⟨hTrig, -⟩
      · rcases hCount.idle hWas with hNone | hNot
        · exact Or.inl (hSame.trans hNone)
        · rw [hEof] at hNot
          cases hNot
      · have hIdleT : t.handlingMsg = .idle := hIdle
        rw [hTrig] at hIdleT
        cases hIdleT
  · intro q k hq
    have hNone : t.pending = some (q, k) := hq
    rw [hPending] at hNone
    cases hNone

/-- Only the place of the bytes has changed. -/
theorem Core.move (h : Core ub s received w rest)
    (hLayout : Layout t t.cur (w ++ rest)) (hPending : PendingFits t (w ++ rest))
    (hFrame : t = { s with
      bufSize := t.bufSize
      buf := t.buf
      inp := t.inp
      cur := t.cur
      endPos := t.endPos
      pending := t.pending }) : Core ub t received w rest := by
  have hReader : t.reader = s.reader := by rw [hFrame]
  have hScanner : t.scanner = s.scanner := by rw [hFrame]
  have hLog : t.log = s.log := by rw [hFrame]
  have hEof : t.eof = s.eof := by rw [hFrame]
  have hUnread : unread ub t w rest = unread ub s w rest := by rw [unread, hReader, unread]
  refine ⟨hLayout, by rw [hReader]; exact h.wf, by rw [hScanner]; exact h.scanner, ?_, ?_, ?_,
    hPending⟩
  · rw [hReader, hScanner]
    exact h.reader
  · rw [hUnread, hLog, hEof]
    exact h.served
  · rw [hUnread]
    exact h.counts.congr (by rw [hFrame]) (by rw [hFrame]) hEof (by rw [hFrame])

/-- While a chunk is taken in, the window stands where it did, or the handler waits with none. -/
structure Lent (s : InputBuf) (w : List UInt8) : Prop where
  window  : s.waiting = none → Window s w
  waiting : s.waiting ≠ none → w = [] ∧ s.cur < s.bufSize

/-- What arrives does not touch the window. -/
theorem Lent.arrived {buf : Nat → UInt8} {pending : Option (Nat × Nat)} {e : Nat}
    (h : Lent s w) (hArrived : Arrived { s with buf, pending } t e syms) : Lent t w := by
  have hFrame := hArrived.frame
  have hWait : t.waiting = s.waiting := by rw [hFrame]
  have hCur : t.cur = s.cur := by rw [hFrame]
  have hSize : t.bufSize = s.bufSize := by rw [hFrame]
  have hEnd : t.endPos = s.endPos := by rw [hFrame]
  refine ⟨?_, ?_⟩
  · rw [hWait, Window, hCur, hSize, hEnd]
    exact h.window
  · rw [hWait, hCur, hSize]
    exact h.waiting

theorem Lent.at_end (h : Lent s w) (hCur : s.cur = s.bufSize) : s.endPos = s.bufSize := by
  by_cases hWait : s.waiting = none
  · exact Window.at_end (h.window hWait) hCur
  · exact absurd hCur (ne_of_lt (h.waiting hWait).2)

theorem Lent.atStart (h : Lent s w) : Lent (atStart s) w := by
  unfold Ibuf.atStart
  split_ifs with hCur
  · refine ⟨?_, ?_⟩
    · intro hWait
      obtain ⟨h1, h2⟩ := h.window hWait
      show (0 : Int) = (0 : Nat) + w.length ∧ 0 + w.length ≤ s.bufSize
      omega
    · intro hWait
      exact absurd hCur (ne_of_lt (h.waiting hWait).2)
  · exact h

theorem atStart_frame (s : InputBuf) :
    atStart s = { s with cur := (atStart s).cur, endPos := (atStart s).endPos } := by
  unfold atStart
  split_ifs <;> rfl

theorem atStart_cur (s : InputBuf) : (atStart s).cur = if s.cur = s.bufSize then 0 else s.cur := by
  unfold atStart
  split_ifs <;> rfl

theorem Core.atStart (h : Core ub s received w rest) : Core ub (atStart s) received w rest := by
  have hFrame := atStart_frame s
  refine h.move ?_ (h.pending.congr (le_refl _) ?_ ?_ ?_ ?_) ?_
  · rw [atStart_cur]
    exact h.layout.wrap.congr (by rw [hFrame]) (by rw [hFrame]) (by rw [hFrame])
  all_goals rw [hFrame]

/-- The buffer is doubled when it is full, and nothing moves for the reader. -/
theorem Core.grow (h : Core ub s received w rest) (hLent : Lent s w) (hCur : s.cur < s.bufSize)
    (hFull : (w ++ rest).length + 1 = s.bufSize) (hPending : s.pending = none) :
    Core ub (grow s) received w rest ∧ Lent (grow s) w := by
  have hSize := h.layout.size
  have hRoom := h.layout.room
  refine ⟨h.move ?_ ?_ rfl, ?_, ?_⟩
  · refine ⟨?_, ?_, Nat.zero_le _, ?_, ?_, ?_⟩
    · show 2 ≤ 2 * s.bufSize
      omega
    · show s.bufSize - 1 < 2 * s.bufSize
      omega
    · have hMore : s.bufSize ≤ 2 * s.bufSize := by omega
      exact holds_straighten h.layout.held hCur (le_of_lt hRoom) hMore
    · show s.bufSize - 1 = (0 + (w ++ rest).length) % (2 * s.bufSize)
      rw [Nat.mod_eq_of_lt (by omega)]
      omega
    · show (w ++ rest).length < 2 * s.bufSize
      omega
  · intro q k hq
    have hNone : s.pending = some (q, k) := hq
    rw [hPending] at hNone
    cases hNone
  · intro hWait
    obtain ⟨h1, h2⟩ := hLent.window hWait
    rw [List.length_append] at hRoom
    show s.endPos - s.cur = ((0 : Nat) : Int) + w.length ∧ 0 + w.length ≤ 2 * s.bufSize
    omega
  · intro hWait
    refine ⟨(hLent.waiting hWait).1, ?_⟩
    show 0 < 2 * s.bufSize
    omega

theorem Core.growFull (h : Core ub s received w rest) (hLent : Lent s w)
    (hPending : s.pending = none) :
    ∃ t, growFull i s = some t ∧ Core ub t received w rest ∧ Lent t w ∧
      t.pending = none ∧ t.waiting = s.waiting ∧ t.handlingMsg = s.handlingMsg ∧
      t.reader = s.reader ∧ t.log = s.log := by
  by_cases hMay : i = true ∧ s.eof = false
  · obtain ⟨size, hFree, -, -, hZero⟩ := h.layout.free hMay.2 hLent.at_end
    have hFrame := atStart_frame s
    have hSizeEq : (Ibuf.atStart s).bufSize = s.bufSize := by rw [hFrame]
    have hNone : (Ibuf.atStart s).pending = none := by rw [hFrame]; exact hPending
    have hWait : (Ibuf.atStart s).waiting = s.waiting := by rw [hFrame]
    have hHandling : (Ibuf.atStart s).handlingMsg = s.handlingMsg := by rw [hFrame]
    have hReader : (Ibuf.atStart s).reader = s.reader ∧ (Ibuf.atStart s).log = s.log := by
      rw [hFrame]
      exact ⟨rfl, rfl⟩
    have hGrow : Ibuf.growFull i s = some (if size = 0 ∧ (Ibuf.atStart s).bufSize < 0x1000000
        then Ibuf.grow (Ibuf.atStart s) else Ibuf.atStart s) := by
      rw [Ibuf.growFull, if_pos hMay, hFree]
      rfl
    rw [hGrow]
    split_ifs with hFull
    · have hCur : (Ibuf.atStart s).cur < (Ibuf.atStart s).bufSize := by
        have hLe := h.layout.le
        have hTwo := h.layout.size
        rw [atStart_cur, hSizeEq]
        split_ifs <;> omega
      obtain ⟨hCore, hLentT⟩ := h.atStart.grow hLent.atStart hCur
        (by rw [hSizeEq]; exact hZero.mp hFull.1) hNone
      exact ⟨_, rfl, hCore, hLentT, hNone, hWait, hHandling, hReader⟩
    · exact ⟨_, rfl, h.atStart, hLent.atStart, hNone, hWait, hHandling, hReader⟩
  · exact ⟨s, if_neg hMay, h, hLent, hPending, rfl, rfl, rfl, rfl⟩

/-- A message that fills the buffer is started ahead of its end. -/
theorem Counts.startLong (h : Counts s syms) (hNone : s.messageCount = 0) :
    Counts (ibufNewMessage { s with longMsg := true }) syms := by
  have hCount := h.count
  have hLong : s.longMsg = false := by
    by_contra hLong
    rw [Bool.not_eq_false] at hLong
    rw [hLong] at hCount
    simp at hCount
    omega
  rw [hLong] at hCount
  refine ⟨?_, ?_, fun _ => Nat.succ_pos _, ?_⟩
  · show s.messageCount + 1 = eoms syms + 1 + s.eof.toNat
    simp at hCount
    omega
  · intro _
    simp at hCount
    omega
  · intro hIdle
    have hTrig : (if s.handlingMsg = .idle then .triggered else s.handlingMsg) = .idle := hIdle
    split_ifs at hTrig with hWas
    exact absurd hTrig hWas

theorem Core.readOn (h : Core ub s received w rest) (hLent : Lent s w) :
    ∃ t, readOn s = some t ∧ Core ub t received w rest ∧ Lent t w ∧ t.waiting = s.waiting ∧
      (t.reader = s.reader ∧ t.log = s.log) ∧ (s.handlingMsg = .active → t.handlingMsg = .active) ∧
      (t.eof = false → t.messageCount = 0 → t.pending ≠ none) := by
  rcases Bool.eq_false_or_eq_true s.eof with hEof | hEof
  · -- at the end of the stream nothing more is asked for
    have hCount := h.counts.count
    rw [hEof] at hCount
    have hSome : ¬ s.messageCount = 0 := by
      simp at hCount
      omega
    refine ⟨s, ?_, h, hLent, rfl, ⟨rfl, rfl⟩, id, fun _ hNone => absurd hNone hSome⟩
    rw [Ibuf.readOn, ibufFreeSize, if_pos hEof]
    exact if_neg hSome
  · obtain ⟨size, hFree, -, -, hZero⟩ := h.layout.free hEof hLent.at_end
    have hFrame := atStart_frame s
    have hEofA : (Ibuf.atStart s).eof = false := by rw [hFrame]; exact hEof
    have hWait : (Ibuf.atStart s).waiting = s.waiting := by rw [hFrame]
    have hHandling : (Ibuf.atStart s).handlingMsg = s.handlingMsg := by rw [hFrame]
    have hSize : (Ibuf.atStart s).bufSize = s.bufSize := by rw [hFrame]
    have hReader : (Ibuf.atStart s).reader = s.reader ∧ (Ibuf.atStart s).log = s.log := by
      rw [hFrame]
      exact ⟨rfl, rfl⟩
    have hCore := h.atStart
    have hLentA := hLent.atStart
    have hRead : Ibuf.readOn s = (if 0 < size then ibufTriggerRead (Ibuf.atStart s)
        else if (Ibuf.atStart s).messageCount = 0 then
          some (ibufNewMessage { Ibuf.atStart s with longMsg := true })
        else some (Ibuf.atStart s)) := by
      rw [Ibuf.readOn, hFree]
      rfl
    rw [hRead]
    have hRoom := h.layout.room
    generalize Ibuf.atStart s = a at *
    split_ifs with hPos hIdle
    · obtain ⟨t, hTrigger, hT⟩ := ibufTriggerRead_spec hCore.layout hLentA.at_end hCore.pending
      have hFrameT := hT.frame
      have hWaitT : t.waiting = a.waiting := by rw [hFrameT]
      refine ⟨t, hTrigger, hCore.move hT.layout hT.pending ?_, ⟨?_, ?_⟩, hWaitT.trans hWait, ?_, ?_,
        ?_⟩
      · have hSizeT : t.bufSize = a.bufSize := by rw [hFrameT]
        have hBufT : t.buf = a.buf := by rw [hFrameT]
        have hInpT : t.inp = a.inp := by rw [hFrameT]
        rw [hSizeT, hBufT, hInpT]
        exact hFrameT
      · intro hNo
        exact hT.window_keeps (hLentA.window (hWaitT.symm.trans hNo))
      · intro hSome
        rw [hWaitT] at hSome
        obtain ⟨hw, hLt⟩ := hLentA.waiting hSome
        refine ⟨hw, ?_⟩
        have hSizeT : t.bufSize = a.bufSize := by rw [hFrameT]
        rcases hT.window with ⟨hSame, -⟩ | ⟨hAt, -⟩
        · rw [hSame, hSizeT]
          exact hLt
        · exact absurd hAt (ne_of_lt hLt)
      · have hReaderT : t.reader = a.reader := by rw [hFrameT]
        have hLogT : t.log = a.log := by rw [hFrameT]
        exact ⟨hReaderT.trans hReader.1, hLogT.trans hReader.2⟩
      · intro hActive
        have hSame : t.handlingMsg = a.handlingMsg := by rw [hFrameT]
        rw [hSame, hHandling]
        exact hActive
      · intro _ _
        exact hT.asks hEofA (by omega)
    · have hCounts := hCore.counts.startLong hIdle
      refine ⟨_, rfl, ⟨hCore.layout.congr rfl rfl rfl, hCore.wf, hCore.scanner, hCore.reader,
        hCore.served, hCounts, hCore.pending.congr (le_refl _) rfl rfl rfl rfl⟩,
        ⟨hLentA.window, hLentA.waiting⟩, hWait, hReader, ?_, ?_⟩
      · intro hActive
        have hBusy := hCore.counts.busy (by rw [hHandling, hActive]; simp)
        omega
      · intro _ hZeroCount
        exact absurd hZeroCount (Nat.succ_ne_zero _)
    · exact ⟨a, rfl, hCore, hLentA, hWait, hReader, fun hActive => hHandling.trans hActive,
        fun _ hZeroCount => absurd hZeroCount hIdle⟩

/-- **A chunk arrives** behind the unread bytes. -/
theorem Core.readDone (h : Core ub s received w rest) (hLent : Lent s w) {p k : Nat}
    (hPending : s.pending = some (p, k)) {chunk : List UInt8} (hLen : chunk.length ≤ k)
    (hSafe : s.longMsg = true → endThenEom false ((escape ub).outs s.scanner chunk) = false) :
    ∃ t, ibufReadDone ub i { s with buf := store s.buf p chunk, pending := none } chunk =
        some t ∧ Core ub t (received ++ chunk) w (rest ++ chunk) ∧ Lent t w ∧
      t.waiting = s.waiting ∧ (t.reader = s.reader ∧ t.log = s.log) ∧
      (s.handlingMsg = .active → t.handlingMsg = .active) ∧
      (t.eof = false → t.messageCount = 0 → t.pending ≠ none) := by
  obtain ⟨rfl, hFit, hRoom, hEof⟩ := h.pending p k hPending
  have hCount := h.counts
  have hInp := h.layout.inp_lt
  have hLayout := h.layout
  -- the chunk stored, and `inp` behind it
  have hStored : Holds (store s.buf s.inp chunk) s.bufSize s.cur (w ++ (rest ++ chunk)) := by
    rw [← List.append_assoc]
    exact holds_store hLayout.held hLayout.inp_eq (by omega) (by omega)
  have hPlaced {t : InputBuf} {e : Nat} {syms : List Symbol}
      (hArrived : Arrived { s with buf := store s.buf s.inp chunk, pending := none } t e syms)
      (sc : EscState) :
      Layout (place t sc (behind s chunk.length)) s.cur (w ++ (rest ++ chunk)) := by
    have hFrame := hArrived.frame
    have hSize : t.bufSize = s.bufSize := by rw [hFrame]
    have hBuf : t.buf = store s.buf s.inp chunk := by rw [hFrame]
    have hTotal : (w ++ (rest ++ chunk)).length = (w ++ rest).length + chunk.length := by
      rw [← List.append_assoc, List.length_append]
    refine ⟨?_, ?_, ?_, ?_, ?_, ?_⟩
    all_goals simp only [place, hSize, hBuf]
    · exact hLayout.size
    · unfold behind
      split_ifs <;> omega
    · exact hLayout.le
    · exact hStored
    · rw [hTotal, ← Nat.add_assoc, ← Nat.mod_add_mod, ← hLayout.inp_eq]
      unfold behind
      split_ifs with hEnd
      · have hAt : s.inp + chunk.length = s.bufSize := by omega
        rw [hAt, Nat.mod_self, Nat.sub_self]
      · rw [Nat.mod_eq_of_lt (by omega)]
    · rw [hTotal]
      omega
  by_cases hNil : chunk = []
  · -- the end of the connection
    subst hNil
    have hArrived := ibufEof_arrived
      (s := { s with buf := store s.buf s.inp [], pending := none }) (x := .value .eos)
      (Or.inl rfl) hCount.count hCount.long
    have hCore := h.arrived hEof [] hArrived rfl (hPlaced hArrived _)
    have hBehind : behind s ([] : List UInt8).length = s.inp := if_neg (by simp; omega)
    rw [hBehind] at hCore
    generalize hT : ibufEof { s with buf := store s.buf s.inp [], pending := none } = t at *
    have hFrame := hArrived.frame
    have hSame : place t ((escape ub).final s.scanner []) s.inp = t := by
      rw [hFrame]
      rfl
    rw [hSame] at hCore
    have hWait : t.waiting = s.waiting := by rw [hFrame]
    have hReader : t.reader = s.reader ∧ t.log = s.log := by
      rw [hFrame]
      exact ⟨rfl, rfl⟩
    refine ⟨t, by rw [ibufReadDone, if_pos rfl, hT], hCore, hLent.arrived hArrived, hWait,
      hReader, ?_, ?_⟩
    · intro hActive
      exact (hArrived.busy (by simp [hActive])).trans hActive
    · intro hOpen
      have hClosed : t.eof = true := by
        rw [← hT]
        exact ibufEof_eof _
      rw [hClosed] at hOpen
      cases hOpen
  · have hWf : WellFormed s.scanner := by
      rw [h.scanner]
      exact wellFormed_init.final received
    have hOpen : s.longMsg = true →
        endThenEom s.eof ((escape ub).outs s.scanner chunk) = false := by
      rw [hEof]
      exact hSafe
    obtain ⟨t, hArrive, hArrived⟩ := arriveAll_counts
      (s := { s with buf := store s.buf s.inp chunk, pending := none }) hCount.count hCount.long
      hOpen
    have hFits : s.inp + chunk.length ≤ s.bufSize := by omega
    have hScan : scan ub chunk.length _ chunk = _ :=
      scan_eq (s := { s with buf := store s.buf s.inp chunk, pending := none }) hWf
        (le_refl chunk.length) hInp hFits
    rw [hArrive] at hScan
    have hCore := h.arrived hEof chunk hArrived rfl (hPlaced hArrived _)
    have hFrame := hArrived.frame
    have hLentT : Lent (place t ((escape ub).final s.scanner chunk) (behind s chunk.length)) w :=
      { hLent.arrived hArrived with }
    have hNone : t.pending = none := by rw [hFrame]
    obtain ⟨t1, hGrow, hCore1, hLent1, hNone1, hWait1, hHandling1, hReader1⟩ :=
      hCore.growFull (i := i) hLentT hNone
    obtain ⟨t2, hRead, hCore2, hLent2, hWait2, hReader2, hActive2, hAsks2⟩ :=
      hCore1.readOn hLent1
    refine ⟨t2, ?_, hCore2, hLent2, ?_, ?_, ?_, hAsks2⟩
    · rw [ibufReadDone, if_neg hNil, if_neg (by simp [hEof]), hScan]
      show (Ibuf.growFull i (place t ((escape ub).final s.scanner chunk)
        (behind s chunk.length))).bind Ibuf.readOn = some t2
      rw [hGrow]
      exact hRead
    · have hWait : t.waiting = s.waiting := by rw [hFrame]
      exact hWait2.trans (hWait1.trans hWait)
    · have hReader : t.reader = s.reader := by rw [hFrame]
      have hLog : t.log = s.log := by rw [hFrame]
      exact ⟨hReader2.1.trans (hReader1.1.trans hReader), hReader2.2.trans (hReader1.2.trans hLog)⟩
    · intro hActive
      have hStill : t.handlingMsg = .active :=
        (hArrived.busy (by simp [hActive])).trans hActive
      exact hActive2 (hHandling1.trans hStill)

end Step

/-! ## Steps and runs -/

/-- The condition under which a step does not fail. A chunk must not end the stream and
then the message that is handled ahead of its end, nor bring an invalid code to a handler
that waits; a read must not follow a `MARKER_EOS` that left `end` behind, nor meet an
invalid code. -/
def Sound (ub : UInt8 → Nat → Nat) (s : InputBuf) : Event → Prop
  | .received chunk =>
    (s.longMsg = true → endThenEom false ((escape ub).outs s.scanner chunk) = false) ∧
      (s.waiting ≠ none → NotInvalid ((escape ub).outs s.reader chunk))
  | .start => True
  | .get _ => SoundGet ub s

/-- The bytes a step receives. -/
def Event.bytes : Event → List UInt8
  | .received chunk => chunk
  | _ => []

section Runs

variable {received w rest : List UInt8}

theorem Inv.chunk (h : Inv ub s received w rest) {chunk : List UInt8}
    (hAllowed : Allowed s (.received chunk)) (hSound : Sound ub s (.received chunk)) :
    ∃ t w' rest', Ibuf.received ub i s chunk = some t ∧
      Inv ub t (received ++ chunk) w' rest' ∧ asked t = asked s := by
  obtain ⟨p, k, hPending, hLen⟩ := hAllowed
  obtain ⟨-, -, -, hEof⟩ := h.pending p k hPending
  have hNotStale : ¬ Stale s := by
    rintro ⟨hClosed, -⟩
    rw [hEof] at hClosed
    cases hClosed
  have hLent : Lent s w := by
    refine ⟨fun hWait => h.window hWait hNotStale, ?_⟩
    intro hWait
    obtain ⟨hw, -, hCur, -⟩ := h.waits hWait
    exact ⟨hw, hCur ▸ h.layout.inp_lt⟩
  obtain ⟨t, hDone, hCore, hLentT, hWaitT, hReaderT, hActiveT, hAsksT⟩ :=
    h.toCore.readDone (i := i) hLent hPending hLen hSound.1
  rw [Ibuf.received, hPending]
  by_cases hWait : s.waiting = none
  · refine ⟨t, w, rest ++ chunk, ?_, ⟨hCore, ?_, ?_, ?_, hAsksT⟩, ?_⟩
    · show (ibufReadDone ub i _ chunk).bind (resume ub) = some t
      rw [hDone, Option.bind_some, resume, hWaitT, hWait]
    · intro hNo _
      exact hLentT.window hNo
    · intro hStale
      exact absurd hStale (Window.not_stale (hLentT.window (hWaitT.trans hWait)) hCore.layout)
    · intro hSome
      exact absurd (hWaitT.trans hWait) hSome
    · rw [asked, asked, hWaitT, hReaderT.2]
  · -- the handler waits for the chunk, and goes on reading
    obtain ⟨peeking, hPeek⟩ := Option.ne_none_iff_exists'.mp hWait
    obtain ⟨rfl, rfl, -, hActive, -⟩ := h.waits hWait
    have hCore' : Core ub { t with waiting := none } (received ++ chunk) [] chunk :=
      ⟨hCore.layout.congr rfl rfl rfl, hCore.wf, hCore.scanner, hCore.reader, hCore.served,
        hCore.counts.congr rfl rfl rfl rfl, hCore.pending.congr (le_refl _) rfl rfl rfl rfl⟩
    have hFirst : NotInvalid ((escape ub).outs t.reader chunk) := by
      rw [hReaderT.1]
      exact hSound.2 hWait
    obtain ⟨u, w', rest', hLoop, hInv, hAsked⟩ :=
      hCore'.getMoreLoop (hActiveT hActive) rfl hFirst peeking
    refine ⟨u, w', rest', ?_, hInv, ?_⟩
    · show (ibufReadDone ub i _ chunk).bind (resume ub) = some u
      rw [hDone, Option.bind_some, resume, hWaitT, hPeek]
      exact hLoop
    · rw [hAsked]
      simp [asked, hReaderT.2, hPeek]

theorem Inv.start (h : Inv ub s received w rest) (hTriggered : s.handlingMsg = .triggered) :
    ∃ t, handleChannelMsg s = some t ∧ Inv ub t received w rest ∧ asked t = asked s := by
  have hPos := h.counts.busy (by simp [hTriggered])
  have hNotWaiting : s.waiting = none := by
    by_contra hWait
    obtain ⟨-, -, -, hActive, -⟩ := h.waits hWait
    rw [hTriggered] at hActive
    cases hActive
  -- only `handling_msg` changes
  have hMove (m : HandlingMsg) (hIdle : m = .idle → s.eof = true) :
      Inv ub { s with handlingMsg := m } received w rest := by
    refine ⟨⟨h.layout.congr rfl rfl rfl, h.wf, h.scanner, h.reader, h.served,
      ⟨h.counts.count, h.counts.long, fun _ => hPos, fun hm => Or.inr (hIdle hm)⟩,
      h.pending.congr (le_refl _) rfl rfl rfl rfl⟩, h.window, h.stale, ?_, h.asks⟩
    intro hWait
    exact absurd hNotWaiting hWait
  rw [handleChannelMsg, if_neg (by omega), ibufStartMessage, if_neg (by simp [hTriggered]),
    if_neg (by omega)]
  split_ifs with hEof
  · exact ⟨_, rfl, hMove .idle fun _ => hEof, rfl⟩
  · exact ⟨_, rfl, hMove .active (by simp), rfl⟩

/-- The calls of the handler among the steps. -/
def Event.calls : Event → List Bool
  | .get peeking => [peeking]
  | _ => []

/-- **Step lemma.** A sound step does not fail, and keeps the invariant. -/
theorem step_inv (h : Inv ub s received w rest) {e : Event} (hAllowed : Allowed s e)
    (hSound : Sound ub s e) :
    ∃ t w' rest', step ub i s e = some t ∧ Inv ub t (received ++ e.bytes) w' rest' ∧
      asked t = asked s ++ e.calls := by
  cases e with
  | received chunk =>
    obtain ⟨t, w', rest', hStep, hInv, hAsked⟩ := h.chunk hAllowed hSound
    exact ⟨t, w', rest', hStep, hInv, by simp [hAsked, Event.calls]⟩
  | start =>
    obtain ⟨t, hStep, hInv, hAsked⟩ := h.start hAllowed
    exact ⟨t, w, rest, hStep, by simpa [Event.bytes] using hInv, by simp [hAsked, Event.calls]⟩
  | get peeking =>
    obtain ⟨u, w', rest', hRead, hInv, hAsked⟩ := h.get hAllowed.1 hAllowed.2 hSound peeking
    exact ⟨u, w', rest', hRead, by simpa [Event.bytes] using hInv, hAsked⟩

/-- The bytes received in a run. -/
def bytes (es : List Event) : List UInt8 := es.flatMap Event.bytes

/-- The calls of the handler in a run. -/
def calls (es : List Event) : List Bool := es.flatMap Event.calls

/-- **Run lemma.** A run of sound steps does not fail, and keeps the invariant. -/
theorem run_inv (h : Inv ub s received w rest) {es : List Event}
    (hMeets : Meets (step ub i) (fun s e => Allowed s e ∧ Sound ub s e) s es) :
    ∃ t w' rest', run (step ub i) s es = some t ∧ Inv ub t (received ++ bytes es) w' rest' ∧
      asked t = asked s ++ calls es := by
  induction es generalizing s received w rest with
  | nil => exact ⟨s, w, rest, rfl, by simpa [bytes] using h, by simp [calls]⟩
  | cons e es ih =>
    obtain ⟨⟨hAllowed, hSound⟩, hRest⟩ := hMeets
    obtain ⟨t, w1, rest1, hStep, hInv, hAsked⟩ := step_inv (i := i) h hAllowed hSound
    obtain ⟨u, w2, rest2, hRun, hInv2, hAsked2⟩ := ih hInv (hRest t hStep)
    refine ⟨u, w2, rest2, ?_, ?_, ?_⟩
    · rw [run_cons, hStep]
      exact hRun
    · simpa [bytes] using hInv2
    · rw [hAsked2, hAsked, List.append_assoc]
      rfl

end Runs

theorem init_inv {bufSize : Nat} (hSize : 2 ≤ bufSize) (buf : Nat → UInt8) :
    Inv ub (init bufSize buf) [] [] [] := by
  have hLayout : Layout (init bufSize buf) 0 [] := by
    refine ⟨hSize, ?_, Nat.zero_le _, holds_nil, ?_, ?_⟩
    · show 0 < bufSize
      omega
    · show 0 = (0 + 0) % bufSize
      simp
    · show 0 < bufSize
      omega
  refine ⟨⟨hLayout, wellFormed_init, rfl, rfl, ⟨false, .start, by simp⟩,
    ⟨rfl, by simp [init], ?_, ?_⟩,
    ?_⟩, ?_, ?_, ?_, ?_⟩
  · intro hBusy
    exact absurd rfl hBusy
  · intro _
    exact Or.inl rfl
  · intro p k hp
    cases hp
    have hFit : 0 + (bufSize - 1) < bufSize := by omega
    exact ⟨rfl, le_of_lt hFit, hFit, rfl⟩
  · intro _ _
    exact ⟨rfl, Nat.zero_le _⟩
  · rintro ⟨hEof, -⟩
    cases hEof
  · intro hWait
    exact absurd rfl hWait
  · intro _ _ hNone
    cases hNone

/-- What the handler gets in a run: its calls are answered in order from the queue of
values, and the last one may wait, with a read posted, while nothing is left to read. -/
structure Answers (ub : UInt8 → Nat → Nat) (s : InputBuf) (es : List Event)
    (syms : List Symbol) : Prop where
  served : ∃ ended, Served (decode ub (bytes es)) ended s.log syms ∧
             (ended = true → s.eof = true)
  asked  : s.log.map Prod.fst ++ s.waiting.toList = calls es
  waits  : s.waiting ≠ none → syms = [] ∧ s.eof = false ∧ s.pending ≠ none
  asks   : s.eof = false → s.messageCount = 0 → s.pending ≠ none

theorem Inv.answers {w rest : List UInt8} {es : List Event} (h : Inv ub s (bytes es) w rest)
    (hAsked : Ibuf.asked s = calls es) : Answers ub s es (unread ub s w rest) := by
  refine ⟨h.served, hAsked, ?_, h.asks⟩
  intro hWait
  obtain ⟨rfl, rfl, -, -, hPending⟩ := h.waits hWait
  obtain ⟨⟨p, k⟩, hp⟩ := Option.ne_none_iff_exists'.mp hPending
  exact ⟨rfl, (h.pending p k hp).2.2.2, hPending⟩

/-- **Any peer.** In a run whose steps are sound no assertion fails, and the handler gets
the values of the bytes received, and `MARKER_EOS` behind the last of them. -/
theorem run_anyPeer {bufSize : Nat} (hSize : 2 ≤ bufSize) (buf : Nat → UInt8)
    {es : List Event}
    (hMeets : Meets (step ub i) (fun s e => Allowed s e ∧ Sound ub s e) (init bufSize buf) es) :
    ∃ s syms, run (step ub i) (init bufSize buf) es = some s ∧ Answers ub s es syms := by
  obtain ⟨s, w, rest, hRun, hInv, hAsked⟩ := run_inv (init_inv hSize buf) hMeets
  rw [List.nil_append] at hInv
  exact ⟨s, unread ub s w rest, hRun, hInv.answers hAsked⟩

instance : ∀ syms : List Symbol, Decidable (NotInvalid syms)
  | .invalid code :: _ => isFalse fun h => h code rfl
  | [] | .value _ :: _ => isTrue fun _ h => by cases h

instance (s : InputBuf) : ∀ e, Decidable (Sound ub s e)
  | .received _ => inferInstanceAs (Decidable (_ ∧ _))
  | .start => isTrue trivial
  | .get _ => inferInstanceAs (Decidable (_ ∧ _))

/-- The buffer grows from 4 bytes to 8, a message is read, and an invalid code follows. -/
def invalidRun : List Event :=
  [.received [65, 66, 67], .received [68, 3, 1], .start, .get false, .get true, .get false,
    .get false, .get false, .get false, .received [3], .received [9]]

theorem run_anyPeer_sample :
    ∃ s syms, run (step (fun _ _ => 0) true) (init 4 fun _ => 0) invalidRun = some s ∧
      Answers (fun _ _ => 0) s invalidRun syms :=
  run_anyPeer (by decide) _ (by decide)

/-! ## A well-behaved peer -/

/-- `Sound`, when the peer sends no invalid code. -/
def SoundFramed (ub : UInt8 → Nat → Nat) (s : InputBuf) : Event → Prop
  | .received chunk =>
    s.longMsg = true → endThenEom false ((escape ub).outs s.scanner chunk) = false
  | .start => True
  | .get _ => ¬ Stale s

section Framed

variable {received w rest : List UInt8}

theorem decode_append (received more : List UInt8) :
    decode ub (received ++ more) =
      decode ub received ++ (escape ub).outs ((escape ub).final {} received) more :=
  Mealy.outs_append ..

/-- Where no code received is invalid, none is next. -/
theorem Inv.sound (h : Inv ub s received w rest) {e : Event} (hAllowed : Allowed s e)
    (hClean : ∀ code, Symbol.invalid code ∉ decode ub (received ++ e.bytes))
    (hFramed : SoundFramed ub s e) : Sound ub s e := by
  cases e with
  | received chunk =>
    refine ⟨hFramed, ?_⟩
    intro hWait code hCode
    obtain ⟨-, rfl, -⟩ := h.waits hWait
    have hReader : s.reader = s.scanner := h.reader
    rw [hReader] at hCode
    refine hClean code ?_
    show _ ∈ decode ub (received ++ chunk)
    rw [decode_append, ← h.scanner]
    exact List.mem_append_right _ (List.mem_of_mem_head? hCode)
  | start => trivial
  | get peeking =>
    refine ⟨hFramed, ?_⟩
    intro hEnd code hCode
    obtain ⟨hAt, -⟩ := h.window hAllowed.2 hFramed
    obtain rfl : w = [] := List.length_eq_zero_iff.mp (by omega)
    obtain ⟨ended, hServed, -⟩ := h.served
    rw [unreadBytes_eq h.layout] at hCode
    refine hClean code ?_
    show _ ∈ decode ub (received ++ [])
    rw [List.append_nil]
    exact hServed.suffix.subset (List.mem_of_mem_head? hCode)

theorem meets_sound (h : Inv ub s received w rest) {es : List Event}
    (hClean : ∀ code, Symbol.invalid code ∉ decode ub (received ++ bytes es))
    (hMeets : Meets (step ub i) (fun s e => Allowed s e ∧ SoundFramed ub s e) s es) :
    Meets (step ub i) (fun s e => Allowed s e ∧ Sound ub s e) s es := by
  induction es generalizing s received w rest with
  | nil => trivial
  | cons e es ih =>
    obtain ⟨⟨hAllowed, hFramed⟩, hRest⟩ := hMeets
    have hBytes : received ++ bytes (e :: es) = received ++ e.bytes ++ bytes es := by simp [bytes]
    rw [hBytes] at hClean
    have hSound : Sound ub s e := by
      refine h.sound hAllowed ?_ hFramed
      intro code hCode
      refine hClean code ?_
      rw [decode_append]
      exact List.mem_append_left _ hCode
    refine ⟨⟨hAllowed, hSound⟩, ?_⟩
    intro t ht
    obtain ⟨t', w1, rest1, hStep, hInv, -⟩ := step_inv (i := i) h hAllowed hSound
    obtain rfl : t' = t := Option.some.inj (hStep.symm.trans ht)
    exact ih hInv hClean (hRest t' ht)

end Framed

/-- **A well-behaved peer.** In a run in which the bytes received are those of whole
frames, up to where they have come, the handler reads the values of the frames, each once
and in order. -/
theorem run_framed {bufSize : Nat} (hSize : 2 ≤ bufSize) (buf : Nat → UInt8)
    {fs : List Frame} (hFits : ∀ f ∈ fs, f.Fits) {es : List Event}
    (hPeer : bytes es <+: encode fs)
    (hMeets : Meets (step ub i) (fun s e => Allowed s e ∧ SoundFramed ub s e)
      (init bufSize buf) es) :
    ∃ s syms, run (step ub i) (init bufSize buf) es = some s ∧ Answers ub s es syms ∧
      decode ub (bytes es) <+: (values fs).map .value ∧
      (bytes es = encode fs → decode ub (bytes es) = (values fs).map .value) ∧
      ∃ n, (reads s.log).map .value ++ syms =
          decode ub (bytes es) ++ List.replicate n (.value .eos) ∧ (s.eof = false → n = 0) := by
  have hDecode := (outs_encode ub hFits).2
  have hPrefix : decode ub (bytes es) <+: (values fs).map .value := by
    rw [← hDecode]
    exact Mealy.outs_prefix _ _ hPeer
  have hClean : ∀ code, Symbol.invalid code ∉ decode ub ([] ++ bytes es) := by
    intro code hCode
    obtain ⟨v, -, hv⟩ := List.mem_map.mp (hPrefix.subset hCode)
    cases hv
  obtain ⟨s, syms, hRun, hAnswers⟩ :=
    run_anyPeer hSize buf (meets_sound (init_inv hSize buf) hClean hMeets)
  obtain ⟨ended, hServed, hEnded⟩ := hAnswers.served
  obtain ⟨n, hReads, hZero⟩ := hServed.reads_append
  refine ⟨s, syms, hRun, hAnswers, hPrefix, ?_, n, hReads, ?_⟩
  · intro hAll
    rw [hAll]
    exact hDecode
  · intro hOpen
    refine hZero ?_
    by_contra hNot
    have hClosed := hEnded (by simpa using hNot)
    rw [hOpen] at hClosed
    cases hClosed

instance (s : InputBuf) : ∀ e, Decidable (SoundFramed ub s e)
  | .received _ => inferInstanceAs (Decidable (_ → _))
  | .start => isTrue trivial
  | .get _ => inferInstanceAs (Decidable (¬ _))

/-- A message of four bytes in a buffer of four: its handler is started before it ends, the buffer
wraps around, and a read waits for the last bytes. -/
def longRun : List Event :=
  [.received [65, 66, 67], .start, .get false, .received [68], .get false, .get true, .get false,
    .get false, .get false, .received [3, 1]]

theorem run_framed_sample :
    ∃ s syms, run (step (fun _ _ => 0) false) (init 4 fun _ => 0) longRun = some s ∧
      Answers (fun _ _ => 0) s longRun syms := by
  have hPeer : bytes longRun <+: encode [.plain 65 (by decide), .plain 66 (by decide),
      .plain 67 (by decide), .plain 68 (by decide), .eom] := by
    decide
  have hMeets : Meets (step (fun _ _ => 0) false)
      (fun s e => Allowed s e ∧ SoundFramed (fun _ _ => 0) s e) (init 4 fun _ => 0) longRun := by
    decide
  obtain ⟨s, syms, hRun, hAnswers, -⟩ :=
    run_framed (by decide) _ (by simp [Frame.Fits]) hPeer hMeets
  exact ⟨s, syms, hRun, hAnswers⟩

/-! ## The assertion on the number of messages -/

/-- A message fills the buffer and is handled; six bytes of it are read, and then the
rest of it arrives in one chunk. -/
def endedMessage (chunk : List UInt8) : List Event :=
  [.received ([3, 0, 3, 0, 3, 0] ++ List.replicate 249 65), .start, .get false, .get false,
    .get false, .received [65], .received chunk]

/-- The message is ended by an end of stream and an end of message. -/
theorem framedMessage_fails :
    Meets (step (fun _ _ => 0) false) Allowed (init 256 fun _ => 0) (endedMessage [3, 2, 3, 1]) ∧
      (∃ fs : List Frame, (∀ f ∈ fs, f.Fits) ∧ encode fs = bytes (endedMessage [3, 2, 3, 1])) ∧
      run (step (fun _ _ => 0) false) (init 256 fun _ => 0) (endedMessage [3, 2, 3, 1]) = none := by
  refine ⟨by decide +kernel, ⟨[.escByte, .escByte, .escByte] ++
    List.replicate 250 (.plain 65 (by decide)) ++ [.eos, .eom], ?_, ?_⟩, ?_⟩
  · intro f hf
    simp only [List.mem_append, List.mem_cons, List.not_mem_nil, or_false, List.mem_replicate] at hf
    rcases hf with ((rfl | rfl | rfl) | ⟨-, rfl⟩) | rfl | rfl <;> trivial
  · decide +kernel
  · rw [← Option.isNone_iff_eq_none]
    decide +kernel

/-- The message is ended by an invalid code and an end of message. -/
theorem invalidMessage_fails :
    Meets (step (fun _ _ => 0) false) Allowed (init 256 fun _ => 0) (endedMessage [3, 9, 3, 1]) ∧
      run (step (fun _ _ => 0) false) (init 256 fun _ => 0) (endedMessage [3, 9, 3, 1]) = none := by
  refine ⟨by decide +kernel, ?_⟩
  rw [← Option.isNone_iff_eq_none]
  decide +kernel

end TcfAgent.Ibuf
