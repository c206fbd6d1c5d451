import TcfAgent.Lib.Counting
import TcfAgent.Lib.Run
import TcfAgent.Framework.Errors

/-!
# The counts of error reports

`framework/errors.c` counts who refers to a report: the entries of the table that hold it and the
clients that got it. A report is freed with the last of them.

Main results:

* `step_ready` — every step that succeeds keeps the counts right;
* `run_ready`  — and so does every run.
-/

namespace TcfAgent.Errors

open TcfAgent.Lib TcfAgent.JsonText

section

variable (p : Platform)

/-- The entries that hold a report. -/
def holders (s : State) (id : Nat) : Nat :=
  (List.range p.messageCnt).countP fun k => (s.msgs k).report = some id

/-- Reports are counted, and those that are held are allocated. -/
structure Counted (s : State) : Prop where
  fresh : ∀ id, s.next ≤ id → s.reports id = none
  live  : ∀ k < p.messageCnt, ∀ id, (s.msgs k).report = some id → s.reports id ≠ none
  refs  : ∀ id r, s.reports id = some r → r.refs = r.gets + holders p s id ∧ 0 < r.refs

/-- The counts are right, and there is an entry for the next message. -/
structure Ready (s : State) : Prop where
  pos     : s.msgsPos < p.messageCnt
  counted : Counted p s

end

section

variable {p : Platform} {s t : State} {no : Int} {k id : Nat}

theorem isMessage_numberOf (hk : k < p.messageCnt) : isMessage p (numberOf k) = true := by
  unfold isMessage numberOf
  exact decide_eq_true ⟨by omega, by omega⟩

theorem eq_numberOf (h : isMessage p no = true) : ∃ k < p.messageCnt, no = numberOf k := by
  simp only [isMessage, decide_eq_true_eq] at h
  refine ⟨(no - errMessageMin).toNat, ?_, ?_⟩
  · omega
  · unfold numberOf
    omega

@[simp] theorem message_numberOf (s : State) (k : Nat) : s.message (numberOf k) = s.msgs k := by
  simp [State.message, numberOf]

theorem isMessage_errOther : isMessage p errOther = false := by
  simp [isMessage, errMessageMin, errOther, stdErrBase]

theorem nextPos_lt (p : Platform) (k : Nat) :
    (if p.messageCnt ≤ k + 1 then 0 else k + 1) < p.messageCnt := by
  have := p.hMessageCnt
  split <;> omega

/-! ## The count of the holders -/

/-- One entry is replaced. -/
theorem holders_update (hk : k < p.messageCnt) (m : ErrorMessage) (id : Nat)
    (hMsgs : t.msgs = Function.update s.msgs k m) :
    holders p t id + (if (s.msgs k).report = some id then 1 else 0) =
      holders p s id + if m.report = some id then 1 else 0 := by
  have h := countP_update (fun m : ErrorMessage => decide (m.report = some id)) s.msgs m
    List.nodup_range (List.mem_range.2 hk)
  simp only [decide_eq_true_eq] at h
  unfold holders
  rw [hMsgs]
  exact h

theorem holders_pos (hk : k < p.messageCnt) (h : (s.msgs k).report = some id) :
    0 < holders p s id :=
  List.countP_pos_iff.2 ⟨k, List.mem_range.2 hk, decide_eq_true h⟩

theorem holders_congr (h : ∀ j < p.messageCnt, (t.msgs j).report = (s.msgs j).report) (id : Nat) :
    holders p t id = holders p s id := by
  unfold holders
  refine List.countP_congr fun j hj => ?_
  rw [h j (List.mem_range.1 hj)]

/-- Nobody holds a report that is not allocated. -/
theorem Counted.holders_eq_zero (h : Counted p s) (hNone : s.reports id = none) :
    holders p s id = 0 := by
  refine List.countP_eq_zero.2 fun j hj hHolds => ?_
  exact h.live j (List.mem_range.1 hj) id (of_decide_eq_true hHolds) hNone

/-- The reports when the one that an entry holds is released. -/
def released (s : State) (k : Nat) : Nat → Option Report :=
  match (s.msgs k).report with
  | none => s.reports
  | some id => Function.update s.reports id ((s.reports id).bind fun r =>
      if r.refs = 1 then none else some { r with refs := r.refs - 1 })

/-- The state after `alloc_msg`. -/
def cleared (p : Platform) (s : State) (source : Source) : State :=
  { s with
    msgs := Function.update s.msgs s.msgsPos { source }
    msgsPos := if p.messageCnt ≤ s.msgsPos + 1 then 0 else s.msgsPos + 1
    reports := released s s.msgsPos }

theorem released_of_ne (h : (s.msgs k).report ≠ some id) : released s k id = s.reports id := by
  cases hReport : (s.msgs k).report with
  | none => simp [released, hReport]
  | some id' =>
    have hNe : id ≠ id' := by
      rintro rfl
      exact h hReport
    simp [released, hReport, Function.update_of_ne hNe]

theorem released_self (h : (s.msgs k).report = some id) :
    released s k id = (s.reports id).bind fun r =>
      if r.refs = 1 then none else some { r with refs := r.refs - 1 } := by
  simp [released, h]

variable {r : Report}

/-- Releasing changes the count of a report only. -/
theorem released_eq_some (h : released s k id = some r) :
    ∃ r', s.reports id = some r' ∧ r = { r' with refs := r.refs } := by
  by_cases hHolds : (s.msgs k).report = some id
  · rw [released_self hHolds] at h
    obtain ⟨r', hr', hEq⟩ := Option.bind_eq_some_iff.1 h
    split at hEq
    · cases hEq
    · cases hEq
      exact ⟨r', hr', rfl⟩
  · rw [released_of_ne hHolds] at h
    exact ⟨r, h, rfl⟩

/-- The assertion of `release_report` holds. -/
theorem releaseReport_eq (h : Counted p s) (hk : k < p.messageCnt) :
    releaseReport s (s.msgs k).report = some { s with reports := released s k } := by
  cases hReport : (s.msgs k).report with
  | none => simp [releaseReport, released, hReport]
  | some id =>
    obtain ⟨r, hr⟩ := Option.ne_none_iff_exists'.1 (h.live k hk id hReport)
    obtain ⟨hRefs, -⟩ := h.refs id r hr
    have hPos := holders_pos hk hReport
    have hMore : ¬ r.refs ≤ r.gets := by omega
    by_cases hLast : r.refs = 1
    · have hGets : r.gets = 0 := by omega
      simp [releaseReport, released, hReport, hr, hGets, hLast]
    · simp [releaseReport, released, hReport, hr, hMore, hLast]

theorem allocMsg_eq (h : Ready p s) (source : Source) :
    allocMsg p s source = some (cleared p s source, s.msgsPos) := by
  show (releaseReport s (s.msgs s.msgsPos).report).bind _ = _
  rw [releaseReport_eq h.counted h.pos]
  rfl

variable {m : ErrorMessage}

/-- A report that is held by a client, or by another entry, is not freed. -/
theorem released_keeps (h : Counted p s) (hk : k < p.messageCnt)
    (hr : s.reports id = some r)
    (hOther : 0 < r.gets ∨ ∃ j < p.messageCnt, j ≠ k ∧ (s.msgs j).report = some id) :
    ∃ n, released s k id = some { r with refs := n } := by
  by_cases hHolds : (s.msgs k).report = some id
  · have hMore : r.refs ≠ 1 := by
      obtain ⟨hRefs, -⟩ := h.refs id r hr
      have hPos := holders_pos hk hHolds
      rcases hOther with hGets | ⟨j, hj, hjk, hjHolds⟩
      · omega
      · have hUpdate := holders_update (t := { s with msgs := Function.update s.msgs k {} }) hk {}
          id rfl
        have hLeft : 0 < holders p { s with msgs := Function.update s.msgs k {} } id := by
          refine holders_pos hj ?_
          show (Function.update s.msgs k {} j).report = some id
          rw [Function.update_of_ne hjk]
          exact hjHolds
        rw [if_pos hHolds, if_neg (by simp)] at hUpdate
        omega
    refine ⟨r.refs - 1, ?_⟩
    rw [released_self hHolds, hr]
    exact if_neg hMore
  · exact ⟨r.refs, by rw [released_of_ne hHolds, hr]⟩

theorem counted_released (h : Ready p s) (hNone : m.report = none)
    (hMsgs : t.msgs = Function.update s.msgs s.msgsPos m)
    (hReports : t.reports = released s s.msgsPos) (hNext : t.next = s.next) : Counted p t := by
  refine ⟨fun id hId => ?_, fun j hj id hHolds => ?_, fun id r hr => ?_⟩
  · rw [hReports]
    by_contra hSome
    obtain ⟨r, hr⟩ := Option.ne_none_iff_exists'.1 hSome
    obtain ⟨r', hr', -⟩ := released_eq_some hr
    rw [h.counted.fresh id (hNext ▸ hId)] at hr'
    cases hr'
  · rw [hMsgs] at hHolds
    by_cases hjk : j = s.msgsPos
    · subst hjk
      rw [Function.update_self, hNone] at hHolds
      cases hHolds
    · rw [Function.update_of_ne hjk] at hHolds
      obtain ⟨r, hr⟩ := Option.ne_none_iff_exists'.1 (h.counted.live j hj id hHolds)
      obtain ⟨n, hn⟩ := released_keeps h.counted h.pos hr (.inr ⟨j, hj, hjk, hHolds⟩)
      rw [hReports, hn]
      simp
  · rw [hReports] at hr
    have hUpdate := holders_update h.pos m id hMsgs
    rw [if_neg (show ¬ m.report = some id by rw [hNone]; simp)] at hUpdate
    by_cases hHolds : (s.msgs s.msgsPos).report = some id
    · rw [if_pos hHolds] at hUpdate
      rw [released_self hHolds] at hr
      obtain ⟨r', hr', hEq⟩ := Option.bind_eq_some_iff.1 hr
      obtain ⟨hRefs, hPos⟩ := h.counted.refs id r' hr'
      split at hEq
      · cases hEq
      · cases hEq
        show r'.refs - 1 = r'.gets + _ ∧ 0 < r'.refs - 1
        omega
    · rw [if_neg hHolds] at hUpdate
      rw [released_of_ne hHolds] at hr
      obtain ⟨hRefs, hPos⟩ := h.counted.refs id r hr
      exact ⟨by omega, hPos⟩

/-! ## Counts of one report -/

theorem reports_update {o : Option Report} (hReports : t.reports = Function.update s.reports id o) :
    t.reports id = o ∧ ∀ id' ≠ id, t.reports id' = s.reports id' :=
  ⟨by rw [hReports, Function.update_self], fun id' hne =>
    by rw [hReports, Function.update_of_ne hne]⟩

/-- The entry that is next gets a report, which a client holds. -/
theorem counted_entry (h : Ready p s)
    (hr : released s s.msgsPos id = some r) (hReport : m.report = some id)
    (hMsgs : t.msgs = Function.update s.msgs s.msgsPos m)
    (hReports : t.reports =
      Function.update (released s s.msgsPos) id (some { r with refs := r.refs + 1 }))
    (hNext : t.next = s.next) : Counted p t := by
  let c := cleared p s .none
  have hc : Counted p c := counted_released h rfl rfl rfl rfl
  obtain ⟨hSelf, hOther⟩ := reports_update (s := c) hReports
  refine ⟨fun id' hId' => ?_, fun j hj id' hHolds => ?_, fun id' r' hr' => ?_⟩
  · rw [hNext] at hId'
    have hNone : c.reports id' = none := hc.fresh id' hId'
    have hne : id' ≠ id := by
      rintro rfl
      rw [show c.reports id' = some r from hr] at hNone
      cases hNone
    rw [hOther id' hne, hNone]
  · by_cases hne : id' = id
    · rw [hne, hSelf]
      simp
    · rw [hOther id' hne]
      rw [hMsgs] at hHolds
      by_cases hjk : j = s.msgsPos
      · subst hjk
        rw [Function.update_self, hReport] at hHolds
        exact absurd (Option.some.inj hHolds).symm hne
      · rw [Function.update_of_ne hjk] at hHolds
        refine hc.live j hj id' ?_
        show (Function.update s.msgs _ _ j).report = _
        rw [Function.update_of_ne hjk]
        exact hHolds
  -- one entry more holds the report, and its count is one more
  · have hUpdate := holders_update (s := c) (t := t) h.pos m id' (by
      rw [hMsgs]
      exact (Function.update_idem ..).symm)
    have hOld : (c.msgs s.msgsPos).report = none := by
      show (Function.update s.msgs _ _ s.msgsPos).report = _
      rw [Function.update_self]
    rw [hOld, if_neg (by simp), hReport] at hUpdate
    by_cases hne : id' = id
    · subst hne
      rw [hSelf] at hr'
      cases hr'
      obtain ⟨hRefs, hPos⟩ := hc.refs id' r hr
      rw [if_pos rfl] at hUpdate
      show r.refs + 1 = r.gets + _ ∧ 0 < r.refs + 1
      omega
    · obtain ⟨hRefs, hPos⟩ := hc.refs id' r' ((hOther id' hne).symm.trans hr')
      rw [if_neg fun hEq => hne (Option.some.inj hEq).symm] at hUpdate
      exact ⟨by omega, hPos⟩

/-- A report gets other counts. -/
theorem counted_count (h : Counted p s) (hr : s.reports id = some r) {n g : Nat}
    (hCount : n = g + holders p s id) (hPos : 0 < n) (hMsgs : t.msgs = s.msgs)
    (hReports : t.reports = Function.update s.reports id (some { r with refs := n, gets := g }))
    (hNext : t.next = s.next) : Counted p t := by
  obtain ⟨hSelf, hOther⟩ := reports_update hReports
  have hSame : holders p t = holders p s := funext (holders_congr fun j _ => by rw [hMsgs])
  refine ⟨fun id' hId' => ?_, fun j hj id' hHolds => ?_, fun id' r' hr' => ?_⟩
  · rw [hNext] at hId'
    have hne : id' ≠ id := by
      rintro rfl
      rw [h.fresh id' hId'] at hr
      cases hr
    rw [hOther id' hne, h.fresh id' hId']
  · rw [hMsgs] at hHolds
    by_cases hne : id' = id
    · rw [hne, hSelf]
      simp
    · rw [hOther id' hne]
      exact h.live j hj id' hHolds
  · rw [hSame]
    by_cases hne : id' = id
    · subst hne
      have hEq := Option.some.inj (hSelf.symm.trans hr')
      subst hEq
      exact ⟨hCount, hPos⟩
    · exact h.refs id' r' ((hOther id' hne).symm.trans hr')

theorem Counted.ne_of_unheld (hHolders : holders p s id = 0) {j : Nat} (hj : j < p.messageCnt)
    {id' : Nat} (hHolds : (s.msgs j).report = some id') : id' ≠ id := by
  rintro rfl
  have := holders_pos hj hHolds
  omega

/-- A report that no entry holds comes or goes. -/
theorem counted_unheld (h : Counted p s) (hHolders : holders p s id = 0) {o : Option Report}
    (hFresh : o ≠ none → id < t.next) (hLe : s.next ≤ t.next)
    (hRefs : ∀ r, o = some r → r.refs = r.gets ∧ 0 < r.refs) (hMsgs : t.msgs = s.msgs)
    (hReports : t.reports = Function.update s.reports id o) : Counted p t := by
  obtain ⟨hSelf, hOther⟩ := reports_update hReports
  have hSame : holders p t = holders p s := funext (holders_congr fun j _ => by rw [hMsgs])
  refine ⟨fun id' hId' => ?_, fun j hj id' hHolds => ?_, fun id' r' hr' => ?_⟩
  · by_cases hne : id' = id
    · subst hne
      rw [hSelf]
      by_contra hSome
      have := hFresh hSome
      omega
    · rw [hOther id' hne]
      exact h.fresh id' (by omega)
  · rw [hMsgs] at hHolds
    rw [hOther id' (Counted.ne_of_unheld hHolders hj hHolds)]
    exact h.live j hj id' hHolds
  · rw [hSame]
    by_cases hne : id' = id
    · subst hne
      obtain ⟨hEq, hPos⟩ := hRefs r' (hSelf.symm.trans hr')
      exact ⟨by omega, hPos⟩
    · exact h.refs id' r' ((hOther id' hne).symm.trans hr')

/-- An entry gets the report that has been made of it. -/
theorem counted_attach (h : Counted p s) (hk : k < p.messageCnt) (hNone : (s.msgs k).report = none)
    (hReport : m.report = some s.next) (hGets : r.gets = 1)
    (hMsgs : t.msgs = Function.update s.msgs k m)
    (hReports : t.reports = Function.update s.reports s.next (some { r with refs := 2 }))
    (hNext : t.next = s.next + 1) : Counted p t := by
  obtain ⟨hSelf, hOther⟩ := reports_update hReports
  have hNew : holders p s s.next = 0 := h.holders_eq_zero (h.fresh s.next le_rfl)
  refine ⟨fun id' hId' => ?_, fun j hj id' hHolds => ?_, fun id' r' hr' => ?_⟩
  · rw [hNext] at hId'
    rw [hOther id' (by omega)]
    exact h.fresh id' (by omega)
  · by_cases hne : id' = s.next
    · rw [hne, hSelf]
      simp
    · rw [hOther id' hne]
      rw [hMsgs] at hHolds
      by_cases hjk : j = k
      · subst hjk
        rw [Function.update_self, hReport] at hHolds
        exact absurd (Option.some.inj hHolds).symm hne
      · rw [Function.update_of_ne hjk] at hHolds
        exact h.live j hj id' hHolds
  · have hUpdate := holders_update hk m id' hMsgs
    rw [hNone, if_neg (show ¬ none = some id' by simp), hReport] at hUpdate
    by_cases hne : id' = s.next
    · subst hne
      have hEq := Option.some.inj (hSelf.symm.trans hr')
      subst hEq
      rw [if_pos rfl] at hUpdate
      show 2 = r.gets + _ ∧ 0 < 2
      omega
    · obtain ⟨hRefs, hPos⟩ := h.refs id' r' ((hOther id' hne).symm.trans hr')
      rw [if_neg fun hEq => hne (Option.some.inj hEq).symm] at hUpdate
      exact ⟨by omega, hPos⟩

end

/-! ## Steps that succeed -/

section

variable {p : Platform} {s t : State} {no n : Int} {id : Nat}

/-- What `set_errno` does: the entry that is next gets the code and the text. -/
theorem setErrno_eq_some (h : Ready p s) {msg : Text} (hNo : no ≠ 0)
    (hEq : setErrno p s no (some msg) = some (t, n)) :
    n = numberOf s.msgsPos ∧ ∃ code text,
      getErrorCode p (cleared p s .message) p.fuel no = some code ∧
      messageText p
        { cleared p s .message with
          msgs := Function.update s.msgs s.msgsPos { source := .message, error := code } }
        no msg = some text ∧
      t =
        { cleared p s .message with
          msgs := Function.update s.msgs s.msgsPos
            { source := .message, error := code, text := some text } } := by
  simp only [setErrno, if_neg hNo, allocMsg_eq h, Option.bind_eq_bind, Option.bind_some,
    Option.bind_eq_some_iff, Option.some.injEq, Prod.mk.injEq] at hEq
  obtain ⟨code, hCode, text, hText, rfl, rfl⟩ := hEq
  simp only [cleared, Function.update_idem] at hText ⊢
  exact ⟨trivial, code, text, hCode, hText, rfl⟩

theorem ready_entry (h : Ready p s) {m : ErrorMessage} (hNone : m.report = none)
    (ht : t = { cleared p s .none with msgs := Function.update s.msgs s.msgsPos m }) :
    Ready p t := by
  subst ht
  exact ⟨nextPos_lt p _, counted_released h hNone rfl rfl rfl⟩

theorem setErrno_ready (h : Ready p s) {msg : Option Text}
    (hEq : setErrno p s no msg = some (t, n)) : Ready p t := by
  cases msg with
  | none =>
    cases hEq
    exact h
  | some msg =>
    by_cases hNo : no = 0
    · simp only [setErrno, if_pos hNo, Option.some.injEq, Prod.mk.injEq] at hEq
      exact hEq.1 ▸ h
    · obtain ⟨-, code, text, -, -, rfl⟩ := setErrno_eq_some h hNo hEq
      exact ready_entry h rfl rfl

theorem setGaiErrno_ready (h : Ready p s) (hEq : setGaiErrno p s no = some (t, n)) :
    Ready p t := by
  unfold setGaiErrno at hEq
  split at hEq
  · cases hEq
    exact h
  · simp only [allocMsg_eq h, Option.bind_eq_bind, Option.bind_some, Option.some.injEq,
      Prod.mk.injEq] at hEq
    obtain ⟨rfl, -⟩ := hEq
    refine ready_entry h (m := { source := .gai, error := no }) rfl ?_
    simp [cleared, Function.update_idem]

/-- What `set_error_report_errno` does: the entry that is next holds the report. -/
theorem setErrorReportErrno_eq_some (h : Ready p s)
    (hEq : setErrorReportErrno p s (some id) = some (t, n)) :
    n = numberOf s.msgsPos ∧ ∃ r, released s s.msgsPos id = some r ∧
      t =
        { cleared p s .report with
          msgs := Function.update s.msgs s.msgsPos
            { source := .report, error := wrapInt (r.code + stdErrBase), report := some id }
          reports := Function.update (released s s.msgsPos) id
            (some { r with refs := r.refs + 1 }) } := by
  simp only [setErrorReportErrno, allocMsg_eq h, Option.bind_eq_bind, Option.bind_some,
    Option.bind_eq_some_iff, Option.some.injEq, Prod.mk.injEq] at hEq
  obtain ⟨r, hr, rfl, rfl⟩ := hEq
  simp only [cleared, Function.update_idem] at hr ⊢
  exact ⟨trivial, r, hr, rfl⟩

theorem setErrorReportErrno_ready (h : Ready p s) {report : Option Nat}
    (hEq : setErrorReportErrno p s report = some (t, n)) : Ready p t := by
  cases report with
  | none =>
    cases hEq
    exact h
  | some id =>
    obtain ⟨-, r, hr, rfl⟩ := setErrorReportErrno_eq_some h hEq
    exact ⟨nextPos_lt p _, counted_entry h hr rfl rfl rfl rfl⟩

variable {err : Int} {time : Nat}

theorem newReport_counts {format : Text} {r : Report}
    (h : newReport p s err time format = some r) :
    r.refs = 1 ∧ r.gets = 1 ∧ r.format = some format ∧ r.params = [] ∧ r.timeStamp = time := by
  simp only [newReport] at h
  split at h
  · cases h
    exact ⟨rfl, rfl, rfl, rfl, rfl⟩
  · split at h
    · cases h
      exact ⟨rfl, rfl, rfl, rfl, rfl⟩
    · cases h

/-- The three things `get_error_report` does with an error: it counts the report that the entry
has, gives the entry a new one, or makes a report of another number. -/
inductive Gets (p : Platform) (s : State) (err : Int) (time : Nat) : State → Nat → Prop
  | again {k id : Nat} {r : Report} (hk : k < p.messageCnt) (hErr : err = numberOf k)
    (hReport : (s.msgs k).report = some id) (hr : s.reports id = some r) :
    Gets p s err time
      { s with
        reports := Function.update s.reports id
          (some { r with refs := r.refs + 1, gets := r.gets + 1 }) } id
  | entry {k : Nat} {format : Text} {r : Report} (hk : k < p.messageCnt) (hErr : err = numberOf k)
    (hNone : (s.msgs k).report = none) (hText : errnoToStr p s p.fuel err = .ok (some format))
    (hNew : newReport p s err time format = some r) :
    Gets p s err time
      { s with
        msgs := Function.update s.msgs k { s.msgs k with report := some s.next }
        reports := Function.update s.reports s.next (some { r with refs := 2 })
        next := s.next + 1 } s.next
  | other {format : Text} {r : Report} (hMessage : isMessage p err = false)
    (hText : errnoToStr p s p.fuel err = .ok (some format))
    (hNew : newReport p s err time format = some r) :
    Gets p s err time
      { s with
        reports := Function.update s.reports s.next (some r)
        next := s.next + 1 } s.next

theorem getErrorReport_eq_some (hErr : err ≠ 0) {o : Option Nat}
    (hEq : getErrorReport p s err time = some (t, o)) :
    ∃ id, o = some id ∧ Gets p s err time t id := by
  simp only [getErrorReport, if_neg hErr] at hEq
  split at hEq
  · rename_i hOld
    obtain ⟨hMessage, hSome⟩ := hOld
    obtain ⟨k, hk, rfl⟩ := eq_numberOf hMessage
    simp only [message_numberOf, Option.bind_eq_bind, Option.bind_eq_some_iff, Option.some.injEq,
      Prod.mk.injEq] at hEq
    obtain ⟨id, hId, r, hr, rfl, rfl⟩ := hEq
    exact ⟨id, rfl, .again hk rfl hId hr⟩
  · rename_i hOld
    split at hEq
    · rename_i format hText
      simp only [Option.bind_eq_bind, Option.bind_eq_some_iff] at hEq
      obtain ⟨r, hNew, hEq⟩ := hEq
      split at hEq
      · rename_i hMessage
        obtain ⟨k, hk, rfl⟩ := eq_numberOf hMessage
        have hNone : (s.msgs k).report = none := by simpa [hMessage] using hOld
        have hIndex : (numberOf k - errMessageMin).toNat = k := by simp [numberOf]
        simp only [hIndex, message_numberOf, Option.some.injEq, Prod.mk.injEq] at hEq
        obtain ⟨rfl, rfl⟩ := hEq
        exact ⟨_, rfl, .entry hk rfl hNone hText hNew⟩
      · rename_i hMessage
        simp only [Option.some.injEq, Prod.mk.injEq] at hEq
        obtain ⟨rfl, rfl⟩ := hEq
        exact ⟨_, rfl, .other (by simpa using hMessage) hText hNew⟩
    · cases hEq

theorem Gets.ready (h : Ready p s) (hGets : Gets p s err time t id) :
    Ready p t := by
  refine ⟨?_, ?_⟩
  · cases hGets <;> exact h.pos
  cases hGets with
  | again hk hErr hReport hr =>
    obtain ⟨hRefs, hPos⟩ := h.counted.refs _ _ hr
    exact counted_count h.counted hr (by omega) (by omega) rfl rfl rfl
  | entry hk hErr hNone hText hNew =>
    obtain ⟨-, hOne, -⟩ := newReport_counts hNew
    exact counted_attach h.counted hk hNone rfl hOne rfl rfl rfl
  | other hMessage hText hNew =>
    obtain ⟨hRefs, hOne, -⟩ := newReport_counts hNew
    refine counted_unheld h.counted (h.counted.holders_eq_zero (h.counted.fresh _ le_rfl))
      (fun _ => Nat.lt_succ_self _) (Nat.le_succ _) (fun r hr => ?_) rfl rfl
    cases hr
    exact ⟨by omega, by omega⟩

theorem getErrorReport_ready (h : Ready p s) {o : Option Nat}
    (hEq : getErrorReport p s err time = some (t, o)) : Ready p t := by
  by_cases hErr : err = 0
  · simp only [getErrorReport, if_pos hErr, Option.some.injEq, Prod.mk.injEq] at hEq
    exact hEq.1 ▸ h
  · obtain ⟨id, -, hGets⟩ := getErrorReport_eq_some hErr hEq
    exact hGets.ready h

/-- What `release_error_report` does: the report is freed, or counted down. -/
theorem releaseErrorReport_eq (h : Ready p s) {r : Report} (hr : s.reports id = some r)
    (hGets : r.gets ≠ 0) :
    releaseErrorReport s (some id) = some
      { s with
        reports := Function.update s.reports id
          (if r.refs = 1 then none
            else some { r with refs := r.refs - 1, gets := r.gets - 1 }) } := by
  obtain ⟨hRefs, hPos⟩ := h.counted.refs id r hr
  have hMore : ¬ r.refs ≤ r.gets - 1 := by omega
  by_cases hLast : r.refs = 1
  · have hLess : r.gets - 1 = 0 := by omega
    simp [releaseErrorReport, releaseReport, hr, hGets, hLess, hLast, Function.update_idem]
  · simp [releaseErrorReport, releaseReport, hr, hGets, hMore, hLast, Function.update_idem]

theorem releaseErrorReport_ready (h : Ready p s) {report : Option Nat}
    (hEq : releaseErrorReport s report = some t) : Ready p t := by
  cases report with
  | none =>
    cases hEq
    exact h
  | some id =>
    have hEq' := hEq
    simp only [releaseErrorReport, Option.bind_eq_bind, Option.bind_eq_some_iff] at hEq'
    obtain ⟨r, hr, hGets⟩ := hEq'
    split at hGets
    · cases hGets
    · rename_i hNot
      rw [releaseErrorReport_eq h hr hNot] at hEq
      cases hEq
      obtain ⟨hRefs, hPos⟩ := h.counted.refs id r hr
      refine ⟨h.pos, ?_⟩
      by_cases hLast : r.refs = 1
      · have hNobody : holders p s id = 0 := by omega
        simp only [hLast, ↓reduceIte]
        exact counted_unheld h.counted hNobody (by simp) le_rfl (by simp) rfl rfl
      · simp only [hLast, ↓reduceIte]
        exact counted_count h.counted hr (n := r.refs - 1) (g := r.gets - 1) (by omega) (by omega)
          rfl rfl rfl

theorem readReport_counts (fields : List ErrorField) :
    (readReport fields).posixCode = 0 ∧ (readReport fields).refs = 1 ∧
      (readReport fields).gets = 1 := by
  unfold readReport
  refine List.foldlRecOn (motive := fun r => r.posixCode = 0 ∧ r.refs = 1 ∧ r.gets = 1) fields
    Report.addField (b := {}) ⟨rfl, rfl, rfl⟩ fun r h field _ => ?_
  cases field <;> exact h

/-- The state when `create_error_report` has made a report and it has been read. -/
def withReport (s : State) (r : Report) : State :=
  { s with reports := Function.update s.reports s.next (some r), next := s.next + 1 }

theorem withReport_ready (h : Ready p s) (fields : List ErrorField) :
    Ready p (withReport s (readReport fields)) := by
  obtain ⟨-, hRefs, hGets⟩ := readReport_counts fields
  refine ⟨h.pos, ?_⟩
  refine counted_unheld h.counted (h.counted.holders_eq_zero (h.counted.fresh _ le_rfl))
    (fun _ => Nat.lt_succ_self _) (Nat.le_succ _) (fun r hr => ?_) rfl rfl
  cases hr
  exact ⟨by omega, by omega⟩

theorem readErrorObject_ready (h : Ready p s) {fields : List ErrorField}
    (hEq : readErrorObject p s fields = some (t, n)) : Ready p t := by
  simp only [readErrorObject] at hEq
  split at hEq
  · cases hEq
    exact h
  · simp only [Option.bind_eq_bind, Option.bind_eq_some_iff, Option.some.injEq,
      Prod.mk.injEq] at hEq
    obtain ⟨⟨u, n'⟩, hSet, v, hRelease, rfl, rfl⟩ := hEq
    have hRead := withReport_ready h fields
    exact releaseErrorReport_ready (setErrorReportErrno_ready hRead hSet) hRelease

theorem step_ready (h : Ready p s) {e : Event} (hEq : step p s e = some t) : Ready p t := by
  cases e with
  | setErrno no msg =>
    obtain ⟨⟨t', n⟩, hStep, rfl⟩ := Option.map_eq_some_iff.1 hEq
    exact setErrno_ready h hStep
  | setGaiErrno no =>
    obtain ⟨⟨t', n⟩, hStep, rfl⟩ := Option.map_eq_some_iff.1 hEq
    exact setGaiErrno_ready h hStep
  | setErrorReportErrno report =>
    obtain ⟨⟨t', n⟩, hStep, rfl⟩ := Option.map_eq_some_iff.1 hEq
    exact setErrorReportErrno_ready h hStep
  | getErrorReport err time =>
    obtain ⟨⟨t', o⟩, hStep, rfl⟩ := Option.map_eq_some_iff.1 hEq
    exact getErrorReport_ready h hStep
  | releaseErrorReport report => exact releaseErrorReport_ready h hEq
  | readErrorObject fields =>
    obtain ⟨⟨t', n⟩, hStep, rfl⟩ := Option.map_eq_some_iff.1 hEq
    exact readErrorObject_ready h hStep

theorem ready_init : Ready p {} where
  pos := p.hMessageCnt
  counted := ⟨fun _ _ => rfl, fun _ _ _ h => (by cases h), fun _ _ h => (by cases h)⟩

/-- The counts are right after every run that succeeds. -/
theorem run_ready {es : List Event} (hRun : run (step p) {} es = some s) : Ready p s :=
  run_invariant (C := fun _ _ => True) (fun _ _ _ h _ hStep => step_ready h hStep) ready_init
    (meets_of_forall (K := fun _ => True) fun _ _ => trivial) hRun

end

end TcfAgent.Errors
