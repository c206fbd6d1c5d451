import TcfAgent.Framework.Handshake

/-!
# Safety of hello messages and redirection

Main results:

* `Sound.step`       — what every action keeps, and that no assertion fails;
* `handshake_safe`   — the states of a channel, the list of services, and the calls of listeners
  and handlers, over every run.
-/

namespace TcfAgent.Handshake

open TcfAgent.Lib TcfAgent.JsonText TcfAgent.JsonString

/-! ## Requests that wait for their handler -/

def Handler.isRedirect : Handler → Bool
  | .redirectDone _ => true
  | _ => false

/-- The request of `redirect_done`. -/
def Handler.request : Handler → Option Nat
  | .redirectDone r => some r
  | _ => none

def Call.isFor (request : Nat) : Call → Bool
  | .redirect r _ => r = request
  | .opened => false

section

variable (c : Channel) (request : Nat)

/-- How often the handler of the request has been called. -/
def Channel.called : Nat := c.calls.countP (Call.isFor request)

/-- How often the handler is still to be called. -/
def Channel.pending : Nat :=
  c.replyHandlers.countP (fun h => h.handler = .redirectDone request) +
    c.posted.countP (fun h => h = .redirectDone request) +
    c.frames.countP (fun f => f = .redirected request)

/-- The requests that have no reply yet. -/
def Channel.live : Nat :=
  c.replyHandlers.countP (fun h => h.handler.isRedirect) + c.posted.countP Handler.isRedirect

/-- How often the listeners for open channels have been called. -/
def Channel.opened : Nat := c.calls.countP (· = .opened)

end

/-- `channel_closed` or `redirect_done` has not come to its end. -/
def Frame.isClosing : Frame → Bool
  | .closeLoop _ | .redirected _ => true
  | _ => false

def owes (owed : Option Nat) (request : Nat) : Nat := if owed = some request then 1 else 0

/-- Every request has one call of its handler, which has been or is to come; `owed` is a request
whose handler is about to be called. -/
structure Counts (c : Channel) (owed : Option Nat) : Prop where
  total     : ∀ r, c.called r + c.pending r + owes owed r = if r < c.requests then 1 else 0
  liveLe    : c.live + owed.toList.length ≤ 1
  liveState : 0 < c.live + owed.toList.length →
    c.state = .redirectSent ∨ c.state = .disconnected
  liveSent  : c.state = .redirectSent → c.live + owed.toList.length = 1
  covered   : c.state = .disconnected → ∀ h ∈ c.replyHandlers, h.handler.isRedirect = true →
    ∃ todo, .closeLoop todo ∈ c.frames ∧ h.tokenid ∈ todo
  busy      : ∀ f ∈ c.frames, f.isClosing = true → c.state = .helloSent ∨ c.state = .disconnected
  last      : ∀ r, r + 1 < c.requests → c.called r = 1
  isOpen    : c.notifiedOpen = true ↔ c.state = .connected ∨ c.state = .redirectSent

abbrev Sound (c : Channel) : Prop := Counts c none

/-- The states in which the services of the peer are known. -/
def ChannelState.known (s : ChannelState) : Prop :=
  s = .helloReceived ∨ s = .connected ∨ s = .redirectSent

/-- The states follow each other. -/
inductive Follows : ChannelState → ChannelState → Prop
  | refl (s : ChannelState) : Follows s s
  | helloSent : Follows .started .helloSent
  | helloReceived : Follows .started .helloReceived
  | helloFirst : Follows .helloSent .connected
  | helloSecond : Follows .helloReceived .connected
  | redirect : Follows .connected .redirectSent
  | redirected : Follows .redirectSent .helloSent
  | redirectFailed : Follows .redirectSent .connected
  | close (s : ChannelState) : Follows s .disconnected

/-- A handshake comes to its end. -/
def Connects (s t : ChannelState) : Prop :=
  (s = .helloSent ∨ s = .helloReceived) ∧ t = .connected

instance (s t : ChannelState) : Decidable (Connects s t) := inferInstanceAs (Decidable (_ ∧ _))

/-- What an action does to the states, the list of services and the listeners; `hello` is the list
of a Hello message that it accepts. -/
structure Effect (c d : Channel) (hello : Option (List Text)) : Prop where
  follows  : Follows c.state d.state
  opened   : d.opened = c.opened + if Connects c.state d.state then 1 else 0
  services : d.state.known → match hello with
    | some services => d.peerServiceList.getD [] = services
    | none => c.state.known ∧ d.peerServiceList = c.peerServiceList
  accepted : hello ≠ none → d.state.known ∧ (c.state = .started ∨ c.state = .helloSent)

section

variable {c : Channel} {owed : Option Nat}

theorem Counts.push (h : Counts c owed) {f : Frame} (hf : f.isClosing = false) :
    Counts (c.push f) owed := by
  have hPending (r : Nat) : (c.push f).pending r = c.pending r := by
    have hNe : f ≠ .redirected r := by
      rintro rfl
      cases hf
    simp [Channel.pending, Channel.push, hNe]
  refine ⟨fun r => ?_, h.liveLe, h.liveState, h.liveSent, fun hState x hx hRedirect => ?_,
    fun g hg hClosing => ?_, h.last, h.isOpen⟩
  · rw [hPending]
    exact h.total r
  · obtain ⟨todo, hIn, hTodo⟩ := h.covered hState x hx hRedirect
    exact ⟨todo, List.mem_cons_of_mem _ hIn, hTodo⟩
  · rcases List.mem_cons.1 hg with rfl | hOld
    · rw [hf] at hClosing
      cases hClosing
    · exact h.busy g hOld hClosing

theorem effect_push {f : Frame} : Effect c (c.push f) none :=
  ⟨.refl _, by
    have hNot : ¬ Connects c.state c.state := by
      rintro ⟨h | h, h'⟩ <;> cases h.symm.trans h'
    simp [Channel.push, Channel.opened, hNot], fun h => ⟨h, rfl⟩, fun h => absurd rfl h⟩

theorem not_connects_self (s : ChannelState) : ¬ Connects s s := by
  rintro ⟨h | h, h'⟩ <;> cases h.symm.trans h'

/-- A request is taken, to have its handler called. -/
theorem Counts.owe (h : Sound c) {R : List ReplyHandlerInfo} {P : List Handler}
    (hLive : c.live =
      ({ c with replyHandlers := R, posted := P } : Channel).live + owed.toList.length)
    (hPending : ∀ r, c.pending r =
      ({ c with replyHandlers := R, posted := P } : Channel).pending r + owes owed r)
    (hMem : ∀ y ∈ R, y.handler.isRedirect = true → y ∈ c.replyHandlers) :
    Counts { c with replyHandlers := R, posted := P } owed := by
  have hNone : (none : Option Nat).toList.length = 0 := rfl
  refine ⟨fun r => ?_, ?_, fun hPos => h.liveState ?_, fun hState => ?_,
    fun hState y hy hRedirect => h.covered hState y (hMem y hy hRedirect) hRedirect, h.busy, h.last,
    h.isOpen⟩
  · have hTotal := h.total r
    have hOwes : owes none r = 0 := rfl
    rw [hPending, hOwes, Nat.add_zero, ← Nat.add_assoc] at hTotal
    exact hTotal
  · have hLe := h.liveLe
    omega
  · omega
  · have hSent := h.liveSent hState
    omega

variable {x : ReplyHandlerInfo}

/-- An entry is taken out of the table, or its handler is. -/
theorem Counts.unlink (h : Sound c) {R : List ReplyHandlerInfo}
    (hCount : ∀ q : Handler → Bool, q .dropped = false →
      c.replyHandlers.countP (fun y => q y.handler) =
        R.countP (fun y => q y.handler) + if q x.handler then 1 else 0)
    (hMem : ∀ y ∈ R, y.handler.isRedirect = true → y ∈ c.replyHandlers) :
    Counts { c with replyHandlers := R } x.handler.request := by
  refine h.owe (P := c.posted) ?_ (fun r => ?_) hMem
  · have hRedirect := hCount Handler.isRedirect rfl
    simp only [Channel.live]
    cases hx : x.handler with
    | redirectDone r =>
      simp only [hx, Handler.isRedirect, Handler.request, ↓reduceIte, Option.toList_some,
        List.length_singleton] at hRedirect ⊢
      omega
    | other | dropped =>
      simp only [hx, Handler.isRedirect, Handler.request, Bool.false_eq_true, ↓reduceIte,
        Option.toList_none, List.length_nil] at hRedirect ⊢
      omega
  · have hOne := hCount (fun k => k = .redirectDone r) rfl
    simp only [Channel.pending, owes]
    cases hx : x.handler with
    | redirectDone r' =>
      simp only [hx, Handler.redirectDone.injEq, decide_eq_true_eq, Handler.request,
        Option.some.injEq] at hOne ⊢
      omega
    | other | dropped =>
      simp only [hx, reduceCtorEq, decide_false, Bool.false_eq_true, ↓reduceIte,
        Handler.request] at hOne ⊢
      omega

/-- The first posted event is taken. -/
theorem Counts.takePosted (h : Sound c) {k : Handler} {rest : List Handler}
    (hPosted : c.posted = k :: rest) : Counts { c with posted := rest } k.request := by
  refine h.owe (R := c.replyHandlers) ?_ (fun r => ?_) fun y hy _ => hy
  · simp only [Channel.live, hPosted, List.countP_cons]
    cases k with
    | redirectDone => simp [Handler.isRedirect, Handler.request]; omega
    | other | dropped => simp [Handler.isRedirect, Handler.request]
  · simp only [Channel.pending, owes, hPosted, List.countP_cons]
    cases k with
    | redirectDone r' =>
      simp only [Handler.redirectDone.injEq, decide_eq_true_eq, Handler.request, Option.some.injEq]
      omega
    | other | dropped => simp [Handler.request]

variable {r : Nat}

/-- The handler of the request is called, in a state where no request is open. -/
theorem Counts.callHandler (h : Counts c (some r)) (failed : Bool) {t : ChannelState}
    (ht : c.state = .redirectSent ∧ t = .connected ∨ c.state = .disconnected ∧ t = c.state) :
    Sound (({ c with state := t } : Channel).callHandler r failed) := by
  have hOne : (some r).toList.length = 1 := rfl
  have hLe := h.liveLe
  have hLive : (({ c with state := t } : Channel).callHandler r failed).live = 0 := by
    show c.live = 0
    omega
  have hNone : (none : Option Nat).toList.length = 0 := rfl
  have hCalled (r' : Nat) : (({ c with state := t } : Channel).callHandler r failed).called r' =
      c.called r' + owes (some r) r' := by
    simp only [Channel.callHandler, Channel.push, Channel.called, List.countP_cons,
      Call.isFor, owes,
      decide_eq_true_eq, Option.some.injEq]
  have hPending (r' : Nat) : (({ c with state := t } : Channel).callHandler r failed).pending r' =
      c.pending r' := by simp [Channel.callHandler, Channel.push, Channel.pending]
  refine ⟨fun r' => ?_, by omega, by omega, fun hState => ?_, fun hState x hx hRedirect => ?_,
    fun f hf hClosing => ?_, fun r' hr' => ?_, ?_⟩
  · have hTotal := h.total r'
    rw [hCalled, hPending]
    have hOwes : owes none r' = 0 := rfl
    rw [hOwes]
    show _ = if r' < c.requests then 1 else 0
    omega
  · rcases ht with ⟨-, hNew⟩ | ⟨hOld, hNew⟩
    · cases hNew.symm.trans hState
    · cases (hOld.symm.trans hNew.symm).trans hState
  · rcases ht with ⟨-, hNew⟩ | ⟨hOld, -⟩
    · cases hNew.symm.trans hState
    · obtain ⟨todo, hIn, hTodo⟩ := h.covered hOld x hx hRedirect
      exact ⟨todo, List.mem_cons_of_mem _ hIn, hTodo⟩
  · rcases List.mem_cons.1 hf with rfl | hOldFrame
    · cases hClosing
    · have hBusy := h.busy f hOldFrame hClosing
      rcases ht with ⟨hOld, -⟩ | ⟨-, hNew⟩
      · rw [hOld] at hBusy
        rcases hBusy with hBusy | hBusy <;> cases hBusy
      · show t = .helloSent ∨ t = .disconnected
        rw [hNew]
        exact hBusy
  · have hTotal := h.total r'
    have hLast := h.last r' hr'
    have hLt : r' < c.requests := Nat.lt_of_succ_lt hr'
    rw [if_pos hLt] at hTotal
    rw [hCalled]
    omega
  · show c.notifiedOpen = true ↔ t = .connected ∨ t = .redirectSent
    rw [h.isOpen]
    rcases ht with ⟨hOld, hNew⟩ | ⟨-, hNew⟩
    · simp [hOld, hNew]
    · rw [hNew]

theorem opened_callHandler (r : Nat) (failed : Bool) :
    (c.callHandler r failed).opened = c.opened := by
  simp [Channel.callHandler, Channel.push, Channel.opened]

theorem Counts.redirectFailed (h : Counts c (some r)) :
    ∃ d, c.redirectFailed r = some d ∧ Sound d ∧ Effect c d none := by
  have hState := h.liveState (Nat.succ_pos _)
  unfold Channel.redirectFailed
  rcases hState with hState | hState
  · rw [if_pos hState]
    refine ⟨_, rfl, h.callHandler true (.inl ⟨hState, rfl⟩),
      ⟨?_, ?_, fun _ => ⟨?_, rfl⟩, fun hNone => ?_⟩⟩
    · rw [hState]
      exact .redirectFailed
    · have hNot : ¬ Connects c.state .connected := by
        rw [hState]
        rintro ⟨h | h, -⟩ <;> cases h
      rw [opened_callHandler]
      show c.opened = c.opened + if Connects c.state .connected then 1 else 0
      rw [if_neg hNot, Nat.add_zero]
    · exact .inr (.inr hState)
    · exact absurd rfl hNone
  · have hNot : c.state ≠ .redirectSent := by
      rw [hState]
      decide
    rw [if_neg hNot, if_pos hState]
    refine ⟨_, rfl, h.callHandler true (.inr ⟨hState, rfl⟩),
      ⟨.refl _, ?_, fun hKnown => ⟨hKnown, rfl⟩,
      fun hNone => absurd rfl hNone⟩⟩
    rw [opened_callHandler]
    show c.opened = c.opened + if Connects c.state c.state then 1 else 0
    rw [if_neg (not_connects_self _), Nat.add_zero]

/-- Nothing is known of a closed channel but that it is closed. -/
theorem effect_close {d : Channel} (hState : d.state = .disconnected)
    (hOpened : d.opened = c.opened) :
    Effect c d none := by
  refine ⟨?_, ?_, fun hKnown => ?_, fun hNone => absurd rfl hNone⟩
  · rw [hState]
    exact .close _
  · have hNot : ¬ Connects c.state d.state := by
      rintro ⟨-, h⟩
      cases hState.symm.trans h
    rw [if_neg hNot, Nat.add_zero, hOpened]
  · rw [hState] at hKnown
    rcases hKnown with h | h | h <;> cases h

/-- A channel that leaves its open states; the listeners are to be notified. -/
structure Leaving (c : Channel) : Prop where
  total   : ∀ r, c.called r + c.pending r = if r < c.requests then 1 else 0
  liveLe  : c.live ≤ 1
  last    : ∀ r, r + 1 < c.requests → c.called r = 1
  state   : c.state = .helloSent ∧ c.live = 0 ∨ c.state = .disconnected
  isOpen  : c.notifiedOpen = false → c.live = 0

theorem live_zero (h : c.live = 0) (hx : x ∈ c.replyHandlers) :
    x.handler.isRedirect = false := by
  unfold Channel.live at h
  have hZero : c.replyHandlers.countP (fun h => h.handler.isRedirect) = 0 := by omega
  rw [List.countP_eq_zero] at hZero
  simpa using hZero x hx

theorem Leaving.notify (h : Leaving c) :
    ∃ d, c.notifyChannelClosed = some d ∧ Sound d ∧ d.state = c.state ∧ d.opened = c.opened := by
  have hNot : c.state ≠ .connected := by
    rcases h.state with ⟨hState, -⟩ | hState <;> rw [hState] <;> decide
  have hSent : c.state ≠ .redirectSent := by
    rcases h.state with ⟨hState, -⟩ | hState <;> rw [hState] <;> decide
  have hBusy : c.state = .helloSent ∨ c.state = .disconnected := h.state.imp And.left id
  have hLive : 0 < c.live → c.state = .redirectSent ∨ c.state = .disconnected := by
    intro hPos
    rcases h.state with ⟨-, hZero⟩ | hState
    · omega
    · exact .inr hState
  unfold Channel.notifyChannelClosed
  rw [if_neg hNot]
  split
  · rename_i hOpen
    have hClosed : c.notifiedOpen = false := by simpa using hOpen
    refine ⟨c, rfl, ⟨h.total, h.liveLe, hLive, fun hState => absurd hState hSent,
      fun _ x hx hRedirect => ?_, fun _ _ _ => hBusy, h.last, ?_⟩, rfl, rfl⟩
    · rw [live_zero (h.isOpen hClosed) hx] at hRedirect
      cases hRedirect
    · simp [hClosed, hNot, hSent]
  · refine ⟨_, rfl, ⟨fun r => (Eq.trans ?_ (h.total r) :), h.liveLe, hLive,
      fun hState => absurd hState hSent, fun _ x hx _ => ?_, fun _ _ _ => hBusy, h.last, ?_⟩, rfl,
        rfl⟩
    · simp [Channel.called, Channel.pending, Channel.push, owes]
    · refine ⟨_, List.mem_cons_of_mem _ List.mem_cons_self, ?_⟩
      exact List.mem_map_of_mem hx
    · show false = true ↔ c.state = .connected ∨ c.state = .redirectSent
      simp [hNot, hSent]

theorem Counts.close (h : Sound c) : ∃ d, c.close = some d ∧ Sound d ∧ Effect c d none := by
  unfold Channel.close
  split
  · exact ⟨c, rfl, h, ⟨.refl _, by simp [not_connects_self], fun hKnown => ⟨hKnown, rfl⟩,
      fun hNone => absurd rfl hNone⟩⟩
  rename_i hState
  have hLeaving : Leaving ({ c with state := .disconnected }.push .callback) := by
    refine ⟨fun r => (Eq.trans ?_ (h.total r) :), h.liveLe, h.last, .inr rfl, fun hClosed => ?_⟩
    · simp [Channel.called, Channel.pending, Channel.push, owes]
    · -- no request is open in a channel that is not
      show c.live = 0
      by_contra hPos
      rcases h.liveState (by omega) with hSent | hGone
      · have hTrue := h.isOpen.2 (.inr hSent)
        cases hTrue.symm.trans hClosed
      · exact hState hGone
  obtain ⟨d, hEq, hSound, hNew, hOpened⟩ := hLeaving.notify
  exact ⟨d, hEq, hSound, effect_close hNew hOpened⟩

/-- A reply to a redirect request that can be read. -/
theorem Counts.redirectDone (h : Counts c (some r)) (hState : c.state = .redirectSent)
    {reply : RedirectRead} (hReply : reply ≠ .exception) :
    ∃ d, c.redirectDone r reply = some d ∧ Sound d ∧ Effect c d none := by
  have hOne : (some r).toList.length = 1 := rfl
  have hLe := h.liveLe
  unfold Channel.redirectDone
  rw [if_neg (not_not_intro hState)]
  match reply with
  | .exception => exact absurd rfl hReply
  | .error true =>
    have hFailed := h.redirectFailed
    unfold Channel.redirectFailed at hFailed
    rw [if_pos hState] at hFailed
    exact hFailed
  | .error false =>
    have hLeaving : Leaving ({ c with state := .helloSent }.push (.redirected r)) := by
      refine ⟨fun r' => ?_, ?_, h.last, .inl ⟨rfl, ?_⟩, fun _ => ?_⟩
      · have hTotal := h.total r'
        have hPending : ({ c with state := .helloSent }.push (.redirected r)).pending r' =
            c.pending r' + owes (some r) r' := by
          simp only [Channel.pending, Channel.push, List.countP_cons, owes, Frame.redirected.injEq,
            decide_eq_true_eq, Option.some.injEq]
          omega
        rw [hPending, ← Nat.add_assoc]
        exact hTotal
      · show c.live ≤ 1
        omega
      · show c.live = 0
        omega
      · show c.live = 0
        omega
    obtain ⟨d, hEq, hSound, hNew, hOpened⟩ := hLeaving.notify
    refine ⟨d, hEq, hSound, ⟨?_, ?_, fun hKnown => ?_, fun hNone => absurd rfl hNone⟩⟩
    · rw [hNew, hState]
      exact .redirected
    · have hNot : ¬ Connects c.state d.state := by
        rw [hState]
        rintro ⟨h | h, -⟩ <;> cases h
      rw [if_neg hNot, Nat.add_zero, hOpened]
      rfl
    · rw [hNew] at hKnown
      rcases hKnown with h | h | h <;> cases h

/-- A handshake comes to its end. -/
theorem Counts.connectDone (h : Sound c)
    (hState : c.state = .helloSent ∨ c.state = .helloReceived) (hFrames : c.frames = [] ∨
      c.state = .helloReceived) (services : Option (List Text))
    (zeroCopy : Bool) :
    ∃ d, ({ c with
        state := .connected
        peerServiceList := services
        supportsZeroCopy := zeroCopy } : Channel).connectDone = some d ∧
      Sound d ∧ d.state = .connected ∧ d.opened = c.opened + 1 ∧ d.peerServiceList = services := by
  have hClosed : c.notifiedOpen = false := by
    cases hOpen : c.notifiedOpen with
    | false => rfl
    | true =>
      have hBoth := h.isOpen.1 hOpen
      rcases hState with hState | hState <;> simp [hState] at hBoth
  have hLive : c.live = 0 := by
    by_contra hPos
    have hBoth := h.liveState (by omega)
    rcases hState with hState | hState <;> simp [hState] at hBoth
  have hQuiet (f : Frame) (hf : f ∈ c.frames) : f.isClosing = false := by
    cases hClosing : f.isClosing with
    | false => rfl
    | true =>
      have hBusy := h.busy f hf hClosing
      rcases hFrames with hNil | hReceived
      · rw [hNil] at hf
        cases hf
      · simp [hReceived] at hBusy
  simp only [Channel.connectDone, Channel.notifyChannelOpened, Channel.push, hClosed, ne_eq,
    not_true_eq_false, ↓reduceIte, Bool.false_eq_true]
  refine ⟨_, rfl, ⟨fun r => ?_, ?_, fun hPos => ?_, fun hSent => ?_, fun hGone => ?_,
    fun f hf hClosing => ?_, fun r hr => ?_, ?_⟩, rfl, ?_, rfl⟩
  · have hTotal := h.total r
    simpa [Channel.called, Channel.pending, Call.isFor, owes] using hTotal
  · exact h.liveLe
  · have hZero : 0 < c.live + 0 := hPos
    omega
  · cases hSent
  · cases hGone
  · rcases List.mem_cons.1 hf with rfl | hf
    · cases hClosing
    · rcases List.mem_cons.1 hf with rfl | hf
      · cases hClosing
      · rw [hQuiet f hf] at hClosing
        cases hClosing
  · have hLast := h.last r hr
    simpa [Channel.called, Call.isFor] using hLast
  · simp
  · simp [Channel.opened]

theorem Counts.sendHelloMessage (h : Sound c)
    (hState : c.state = .started ∨ c.state = .helloReceived) :
    ∃ d, c.sendHelloMessage = some d ∧ Sound d ∧ Effect c d none := by
  unfold Channel.sendHelloMessage
  rcases hState with hState | hState
  · have hLive : c.live = 0 := by
      by_contra hPos
      have hBoth := h.liveState (by omega)
      simp [hState] at hBoth
    simp only [hState]
    refine ⟨_, rfl, ⟨h.total, h.liveLe, fun hPos => ?_, fun hSent => ?_, fun hGone => ?_,
      fun f hf hClosing => .inl rfl, h.last, ?_⟩, ⟨?_, ?_, fun hKnown => ?_, fun hNone => ?_⟩⟩
    · have hZero : 0 < c.live + 0 := hPos
      omega
    · cases hSent
    · cases hGone
    · have hOpen := h.isOpen
      simp only [hState, reduceCtorEq, or_self, iff_false] at hOpen ⊢
      exact hOpen
    · rw [hState]
      exact .helloSent
    · have hNot : ¬ Connects c.state .helloSent := by rintro ⟨-, h⟩; cases h
      rw [if_neg hNot]
      rfl
    · rcases hKnown with h | h | h <;> cases h
    · exact absurd rfl hNone
  · simp only [hState]
    obtain ⟨d, hEq, hSound, hNew, hOpened, hServices⟩ := h.connectDone (.inr hState) (.inr hState)
      c.peerServiceList c.supportsZeroCopy
    refine ⟨d, hEq, hSound,
      ⟨?_, ?_, fun _ => ⟨.inl hState, hServices⟩, fun hNone => absurd rfl hNone⟩⟩
    · rw [hState, hNew]
      exact .helloSecond
    · rw [if_pos ⟨.inr hState, hNew⟩, hOpened]

theorem Counts.eventLocatorHello (h : Sound c) (hFrames : c.frames = [])
    (hState : c.state = .started ∨ c.state = .helloSent) (content : Text) (eom : Bool) :
    match readHello content eom with
    | .nullName => True
    | .exception => ∃ d, c.eventLocatorHello content eom = some d ∧ Sound d ∧ Effect c d none
    | .list services _ =>
      ∃ d, c.eventLocatorHello content eom = some d ∧ Sound d ∧ Effect c d (some services) := by
  have hLive : c.live = 0 := by
    by_contra hPos
    have hBoth := h.liveState (by omega)
    rcases hState with hState | hState <;> simp [hState] at hBoth
  unfold Channel.eventLocatorHello
  cases readHello content eom with
  | nullName => trivial
  | exception =>
    have hSame :
      Sound { c with supportsZeroCopy := some (ascii "ZeroCopy") ∈ helloNames content } :=
      { h with }
    obtain ⟨d, hEq, hSound, hEffect⟩ := hSame.close
    exact ⟨d, hEq, hSound, { hEffect with }⟩
  | list services rest =>
    have hList : (if services = [] then none else some services).getD [] = services := by
      split
      · rename_i hNil
        exact hNil.symm
      · rfl
    rcases hState with hState | hState
    · simp only [hState, ↓reduceIte]
      refine ⟨_, rfl, ⟨h.total, h.liveLe, fun hPos => ?_, fun hSent => ?_, fun hGone => ?_,
        fun f hf => ?_, h.last, ?_⟩, ⟨?_, ?_, fun _ => hList, fun _ => ⟨.inl rfl, .inl hState⟩⟩⟩
      · have hZero : 0 < c.live + 0 := hPos
        omega
      · cases hSent
      · cases hGone
      · have hf' : f ∈ c.frames := hf
        rw [hFrames] at hf'
        cases hf'
      · have hOpen := h.isOpen
        simp only [hState, reduceCtorEq, or_self, iff_false] at hOpen ⊢
        exact hOpen
      · rw [hState]
        exact .helloReceived
      · have hNot : ¬ Connects c.state .helloReceived := by rintro ⟨-, h⟩; cases h
        rw [if_neg hNot]
        rfl
    · simp only [hState, reduceCtorEq, ↓reduceIte]
      obtain ⟨d, hEq, hSound, hNew, hOpened, hServices⟩ :=
        h.connectDone (.inl hState) (.inl hFrames) (if services = [] then none else some services)
          (some (ascii "ZeroCopy") ∈ helloNames content)
      refine ⟨d, hEq, hSound, ⟨?_, ?_, fun _ => ?_, fun _ => ⟨.inr (.inl hNew), .inr hState⟩⟩⟩
      · rw [hState, hNew]
        exact .helloFirst
      · rw [if_pos ⟨.inl hState, hNew⟩, hOpened]
      · show d.peerServiceList.getD [] = services
        rw [hServices, hList]

theorem effect_same {d : Channel} (hState : d.state = c.state) (hOpened : d.opened = c.opened)
    (hServices : c.state.known → d.peerServiceList = c.peerServiceList) : Effect c d none := by
  refine ⟨?_, ?_, fun hKnown => ?_, fun hNone => absurd rfl hNone⟩
  · rw [hState]
    exact .refl _
  · rw [hState, if_neg (not_connects_self _), Nat.add_zero, hOpened]
  · rw [hState] at hKnown
    exact ⟨hKnown, hServices hKnown⟩

/-- A command is sent, or its failure is posted. -/
theorem sendCommand_counts (k : Handler) :
    (∀ r, (c.sendCommand k).pending r = c.pending r + owes k.request r) ∧
      (c.sendCommand k).live = c.live + k.request.toList.length ∧
      ∀ h ∈ (c.sendCommand k).replyHandlers, h.handler.isRedirect = true →
        k.isRedirect = true ∨ h ∈ c.replyHandlers := by
  unfold Channel.sendCommand
  split
  · refine ⟨fun r => ?_, ?_, fun h hh _ => .inr hh⟩
    · simp only [Channel.pending, List.countP_append, List.countP_singleton]
      cases k with
      | redirectDone r' =>
        simp only [Handler.redirectDone.injEq, decide_eq_true_eq, owes, Handler.request,
          Option.some.injEq]
        omega
      | other | dropped => simp [owes, Handler.request]
    · simp only [Channel.live, List.countP_append, List.countP_singleton]
      cases k with
      | redirectDone => simp [Handler.isRedirect, Handler.request]; omega
      | other | dropped => simp [Handler.isRedirect, Handler.request]
  · refine ⟨fun r => ?_, ?_, fun h hh hRedirect => ?_⟩
    · simp only [Channel.pending, List.countP_cons]
      cases k with
      | redirectDone r' =>
        simp only [Handler.redirectDone.injEq, decide_eq_true_eq, owes, Handler.request,
          Option.some.injEq]
        omega
      | other | dropped => simp [owes, Handler.request]
    · simp only [Channel.live, List.countP_cons]
      cases k with
      | redirectDone => simp [Handler.isRedirect, Handler.request]; omega
      | other | dropped => simp [Handler.isRedirect, Handler.request]
    · rcases List.mem_cons.1 hh with rfl | hOld
      · exact .inl hRedirect
      · exact .inr hOld

theorem sendCommand_rest (k : Handler) :
    (c.sendCommand k).state = c.state ∧ (c.sendCommand k).frames = c.frames ∧
      (c.sendCommand k).requests = c.requests ∧ (c.sendCommand k).calls = c.calls ∧
      (c.sendCommand k).notifiedOpen = c.notifiedOpen ∧
      (c.sendCommand k).peerServiceList = c.peerServiceList := by
  unfold Channel.sendCommand
  split <;> exact ⟨rfl, rfl, rfl, rfl, rfl, rfl⟩

theorem Counts.sendCommand (h : Sound c) :
    Sound (c.sendCommand .other) ∧ Effect c (c.sendCommand .other) none := by
  obtain ⟨hPending, hLive, hMem⟩ := sendCommand_counts (c := c) .other
  obtain ⟨hState, hFrames, hRequests, hCalls, hOpen, hServices⟩ := sendCommand_rest (c := c) .other
  have hCalled (r : Nat) : (c.sendCommand .other).called r = c.called r := by
    rw [Channel.called, hCalls, Channel.called]
  have hSame : (c.sendCommand .other).live = c.live := hLive
  refine ⟨⟨fun r => ?_, ?_, fun hPos => ?_, fun hSent => ?_, fun hGone x hx hRedirect => ?_,
    fun f hf hClosing => ?_, fun r hr => ?_, ?_⟩, effect_same hState ?_ fun _ => hServices⟩
  · rw [hCalled, hPending, hRequests]
    exact h.total r
  · rw [hSame]
    exact h.liveLe
  · rw [hSame] at hPos
    rw [hState]
    exact h.liveState hPos
  · rw [hSame]
    exact h.liveSent (hState ▸ hSent)
  · rcases hMem x hx hRedirect with hFalse | hOld
    · cases hFalse
    · rw [hFrames]
      exact h.covered (hState ▸ hGone) x hOld hRedirect
  · rw [hState]
    exact h.busy f (hFrames ▸ hf) hClosing
  · rw [hCalled]
    exact h.last r (hRequests ▸ hr)
  · rw [hOpen, hState]
    exact h.isOpen
  · rw [Channel.opened, hCalls, Channel.opened]

/-- No handler is to be called where no request is open and nothing is being closed. -/
theorem pending_zero (hLive : c.live = 0)
    (hFrames : ∀ f ∈ c.frames, f.isClosing = false) (r : Nat) :
    c.pending r = 0 := by
  have hTable : c.replyHandlers.countP (fun h => h.handler = .redirectDone r) ≤
      c.replyHandlers.countP (fun h => h.handler.isRedirect) := by
    refine List.countP_mono_left fun h _ hh => ?_
    rw [of_decide_eq_true hh]
    rfl
  have hPosted : c.posted.countP (fun h => h = .redirectDone r) ≤
      c.posted.countP Handler.isRedirect := by
    refine List.countP_mono_left fun h _ hh => ?_
    rw [of_decide_eq_true hh]
    rfl
  have hClosing : c.frames.countP (fun f => f = .redirected r) = 0 := by
    rw [List.countP_eq_zero]
    intro f hf hEq
    have hFalse := hFrames f hf
    rw [of_decide_eq_true hEq] at hFalse
    cases hFalse
  unfold Channel.live at hLive
  unfold Channel.pending
  omega

theorem Counts.sendRedirectCommand (h : Sound c) (hState : c.state = .connected) :
    ∃ d, c.sendRedirectCommand = some d ∧ Sound d ∧ Effect c d none := by
  unfold Channel.sendRedirectCommand
  rw [if_neg (not_not_intro hState)]
  have hLive : c.live = 0 := by
    by_contra hPos
    have hBoth := h.liveState (by omega)
    simp [hState] at hBoth
  have hQuiet (f : Frame) (hf : f ∈ c.frames) : f.isClosing = false := by
    cases hClosing : f.isClosing with
    | false => rfl
    | true =>
      have hBusy := h.busy f hf hClosing
      simp [hState] at hBusy
  have hZero := pending_zero hLive hQuiet
  let b : Channel := { c with state := .redirectSent, requests := c.requests + 1 }
  obtain ⟨hPending, hOne, -⟩ := sendCommand_counts (c := b) (.redirectDone c.requests)
  obtain ⟨hNew, hFrames, hRequests, hCalls, hOpen, hServices⟩ :=
    sendCommand_rest (c := b) (.redirectDone c.requests)
  have hCalled (r : Nat) : (b.sendCommand (.redirectDone c.requests)).called r = c.called r := by
    rw [Channel.called, hCalls]
    rfl
  have hLiveOne : (b.sendCommand (.redirectDone c.requests)).live = 1 := by
    rw [hOne]
    show c.live + 1 = 1
    rw [hLive]
  have hNone : (none : Option Nat).toList.length = 0 := rfl
  refine ⟨b.sendCommand (.redirectDone c.requests), rfl, ⟨fun r => ?_, by omega, fun _ => .inl hNew,
    fun _ => by omega, fun hGone => ?_, fun f hf hClosing => ?_, fun r hr => ?_, ?_⟩,
    ⟨?_, ?_, fun _ => ⟨.inr (.inl hState), hServices⟩, fun hFalse => absurd rfl hFalse⟩⟩
  · have hTotal := h.total r
    have hOld : b.pending r = c.pending r := rfl
    rw [hCalled, hPending, hRequests, hOld, hZero]
    rw [hZero] at hTotal
    simp only [owes, Handler.request, Option.some.injEq, reduceCtorEq, ↓reduceIte] at hTotal ⊢
    show _ = if r < c.requests + 1 then 1 else 0
    split at hTotal <;> split <;> split <;> omega
  · cases hNew.symm.trans hGone
  · rw [hQuiet f (hFrames ▸ hf)] at hClosing
    cases hClosing
  · have hTotal := h.total r
    have hNext : b.requests = c.requests + 1 := rfl
    rw [hZero, if_pos (by omega)] at hTotal
    rw [hCalled]
    simpa [owes] using hTotal
  · rw [hOpen, hNew]
    have hTrue : c.notifiedOpen = true := h.isOpen.2 (.inl hState)
    show c.notifiedOpen = true ↔ _
    simp only [hTrue, true_iff]
    exact .inr rfl
  · rw [hState, hNew]
    exact .redirect
  · have hNot : ¬ Connects c.state (b.sendCommand (.redirectDone c.requests)).state := by
      rw [hNew]
      rintro ⟨-, h⟩
      cases h
    rw [if_neg hNot, Channel.opened, hCalls]
    rfl

/-! ## Replies -/

section

variable {hs : List ReplyHandlerInfo} {t : Nat} {x : ReplyHandlerInfo}

theorem countP_eraseP (hFind : hs.find? (fun h => h.tokenid = t) = some x) (q : Handler → Bool) :
    hs.countP (fun y => q y.handler) =
      (hs.eraseP fun h => h.tokenid = x.tokenid).countP (fun y => q y.handler) +
        if q x.handler then 1 else 0 := by
  have hToken : x.tokenid = t := by simpa using List.find?_some hFind
  rw [hToken]
  induction hs with
  | nil => cases hFind
  | cons y ys ih =>
    by_cases hKey : y.tokenid = t
    · have hEq : y = x := by simpa [hKey] using hFind
      subst hEq
      simp [List.countP_cons, hKey]
    · rw [List.find?_cons_of_neg (by simpa using hKey)] at hFind
      rw [List.eraseP_cons_of_neg (by simpa using hKey), List.countP_cons,
        List.countP_cons, ih hFind]
      omega

theorem countP_dropHandler (hFind : hs.find? (fun h => h.tokenid = t) = some x) {q : Handler → Bool}
    (hq : q .dropped = false) :
    hs.countP (fun y => q y.handler) =
      (dropHandler x.tokenid hs).countP (fun y => q y.handler) + if q x.handler then 1 else 0 := by
  have hToken : x.tokenid = t := by simpa using List.find?_some hFind
  rw [hToken]
  induction hs with
  | nil => cases hFind
  | cons y ys ih =>
    by_cases hKey : y.tokenid = t
    · have hEq : y = x := by simpa [hKey] using hFind
      subst hEq
      simp [dropHandler, List.countP_cons, hKey, hq]
    · rw [List.find?_cons_of_neg (by simpa using hKey)] at hFind
      simp only [dropHandler, hKey, ↓reduceIte, List.countP_cons, ih hFind]
      omega

theorem mem_dropHandler {y : ReplyHandlerInfo} (h : y ∈ dropHandler t hs)
    (hRedirect : y.handler.isRedirect = true) : y ∈ hs := by
  induction hs with
  | nil => cases h
  | cons z zs ih =>
    unfold dropHandler at h
    split at h
    · rcases List.mem_cons.1 h with rfl | hOld
      · cases hRedirect
      · exact List.mem_cons_of_mem _ hOld
    · rcases List.mem_cons.1 h with rfl | hOld
      · exact List.mem_cons_self
      · exact List.mem_cons_of_mem _ (ih hOld)

/-- An entry without a handler counts nowhere. -/
theorem countP_eraseP_dropped {q : Handler → Bool} (hq : q .dropped = false) :
    (hs.eraseP fun h => h.tokenid = t && h.handler = .dropped).countP (fun y => q y.handler) =
      hs.countP (fun y => q y.handler) := by
  induction hs with
  | nil => rfl
  | cons y ys ih =>
    rw [List.eraseP_cons]
    cases hKey : (decide (y.tokenid = t) && decide (y.handler = .dropped)) with
    | true =>
      have hDropped : y.handler = .dropped := by simpa using (Bool.and_eq_true_iff.1 hKey).2
      simp [hDropped, hq]
    | false => simp only [cond_false, List.countP_cons, ih]

end

theorem Effect.of_same {b d : Channel} {hello : Option (List Text)} (h : Effect b d hello)
    (hState : b.state = c.state) (hCalls : b.calls = c.calls)
    (hServices : b.peerServiceList = c.peerServiceList) : Effect c d hello := by
  obtain ⟨hFollows, hOpened, hList, hAccepted⟩ := h
  refine ⟨hState ▸ hFollows, ?_, ?_, hState ▸ hAccepted⟩
  · rw [hOpened, hState, Channel.opened, hCalls]
    rfl
  · rw [hState, hServices] at hList
    exact hList

theorem Counts.visit (h : Sound c) {t : Nat}
    (hFind : c.findReplyHandler t = some x) :
    ∃ d, c.visit x = some d ∧ Sound d ∧ Effect c d none := by
  have hDropped := (h.unlink (x := x) (R := dropHandler x.tokenid c.replyHandlers)
    (fun q hq => countP_dropHandler hFind hq) fun y => mem_dropHandler).push
      (f := .visited x.tokenid) rfl
  unfold Channel.visit
  cases hx : x.handler with
  | dropped =>
    rw [hx] at hDropped
    exact ⟨_, rfl, hDropped, effect_same rfl rfl fun _ => rfl⟩
  | other =>
    rw [hx] at hDropped
    exact ⟨_, rfl, hDropped.push rfl, effect_same rfl rfl fun _ => rfl⟩
  | redirectDone r =>
    rw [hx] at hDropped
    obtain ⟨d, hEq, hSound, hEffect⟩ := hDropped.redirectFailed
    exact ⟨d, hEq, hSound, hEffect.of_same rfl rfl rfl⟩

variable {frames : List Frame}

theorem Counts.loopDone (h : Sound c) {todo : List Nat}
    (hFrames : c.frames = .closeLoop todo :: frames)
    (hAll : ∀ x ∈ c.replyHandlers, x.tokenid ∈ todo → x.handler = .dropped) :
    Sound { c with frames := frames, peerServiceList := none } ∧
      Effect c { c with frames := frames, peerServiceList := none } none := by
  have hBusy := h.busy (.closeLoop todo) (hFrames ▸ List.mem_cons_self) rfl
  refine ⟨⟨fun r => (Eq.trans ?_ (h.total r) :), h.liveLe, h.liveState, h.liveSent,
    fun hGone x hx hRedirect => ?_, fun f hf => h.busy f (hFrames ▸ List.mem_cons_of_mem _ hf),
    h.last, h.isOpen⟩, effect_same rfl rfl fun hKnown => ?_⟩
  · simp [Channel.called, Channel.pending, hFrames]
  · obtain ⟨todo', hIn, hTodo⟩ := h.covered hGone x hx hRedirect
    rw [hFrames] at hIn
    rcases List.mem_cons.1 hIn with hSame | hOther
    · cases hSame
      rw [hAll x hx hTodo] at hRedirect
      cases hRedirect
    · exact ⟨todo', hOther, hTodo⟩
  · rcases hKnown with hKnown | hKnown | hKnown <;> simp [hKnown] at hBusy

/-- A frame that is not of a function that closes is taken off. -/
theorem Counts.pop (h : Sound c) {f : Frame} (hFrames : c.frames = f :: frames)
    (hf : f.isClosing = false) : Sound { c with frames := frames } := by
  refine ⟨fun r => (Eq.trans ?_ (h.total r) :), h.liveLe, h.liveState, h.liveSent,
    fun hGone x hx hRedirect => ?_, fun g hg => h.busy g (hFrames ▸ List.mem_cons_of_mem _ hg),
    h.last, h.isOpen⟩
  · have hNe : f ≠ .redirected r := by
      rintro rfl
      cases hf
    simp [Channel.called, Channel.pending, hFrames, hNe]
  · obtain ⟨todo, hIn, hTodo⟩ := h.covered hGone x hx hRedirect
    rw [hFrames] at hIn
    rcases List.mem_cons.1 hIn with hSame | hOther
    · rw [← hSame] at hf
      cases hf
    · exact ⟨todo, hOther, hTodo⟩

theorem Counts.retRedirected (h : Sound c) (hFrames : c.frames = .redirected r :: frames) :
    Sound (({ c with frames := frames } : Channel).callHandler r false) := by
  have hBusy := h.busy (.redirected r) (hFrames ▸ List.mem_cons_self) rfl
  have hCalled (r' : Nat) :
    (({ c with frames := frames } : Channel).callHandler r false).called r' =
      c.called r' + owes (some r) r' := by
    simp only [Channel.callHandler, Channel.push, Channel.called, List.countP_cons,
      Call.isFor, owes,
      decide_eq_true_eq, Option.some.injEq]
  have hPending (r' : Nat) : c.pending r' =
      (({ c with frames := frames } : Channel).callHandler r false).pending r' +
        owes (some r) r' := by
    simp only [Channel.callHandler, Channel.push, Channel.pending, hFrames, List.countP_cons, owes,
      Frame.redirected.injEq, reduceCtorEq, decide_eq_true_eq, decide_false, Bool.false_eq_true,
      ↓reduceIte, Option.some.injEq]
    omega
  refine ⟨fun r' => ?_, h.liveLe, h.liveState, h.liveSent, fun hGone x hx hRedirect => ?_,
    fun f hf hClosing => ?_, fun r' hr' => ?_, h.isOpen⟩
  · have hTotal := h.total r'
    have hOwes : owes none r' = 0 := rfl
    rw [hCalled, hOwes]
    show _ = if r' < c.requests then 1 else 0
    rw [hPending, hOwes] at hTotal
    omega
  · obtain ⟨todo, hIn, hTodo⟩ := h.covered hGone x hx hRedirect
    rw [hFrames] at hIn
    rcases List.mem_cons.1 hIn with hSame | hOther
    · cases hSame
    · exact ⟨todo, List.mem_cons_of_mem _ hOther, hTodo⟩
  · rcases List.mem_cons.1 hf with rfl | hOld
    · cases hClosing
    · exact hBusy
  · have hTotal := h.total r'
    have hLast := h.last r' hr'
    have hLt : r' < c.requests := Nat.lt_of_succ_lt hr'
    rw [if_pos hLt, hPending] at hTotal
    rw [hCalled]
    omega

theorem Counts.retVisited (h : Sound c) {t : Nat}
    (hFrames : c.frames = .visited t :: frames) :
    Sound { c with
      replyHandlers := c.replyHandlers.eraseP fun h => h.tokenid = t && h.handler = .dropped
      frames := frames } := by
  have hPop := h.pop hFrames rfl
  have hCount := hPop.unlink (x := ⟨t, .dropped⟩)
    (R := c.replyHandlers.eraseP fun h => h.tokenid = t && h.handler = .dropped)
    (fun q hq => by simp [countP_eraseP_dropped hq, hq]) fun y hy _ => List.mem_of_mem_eraseP hy
  exact hCount

end

/-! ## Names in Hello messages -/

variable {fuel : Nat}

theorem readServices_nullName {text : Text} (h : readServices fuel text = .nullName) :
    none ∈ namesRead fuel text := by
  induction fuel generalizing text with
  | zero => cases h
  | succ fuel ih =>
    unfold readServices at h
    unfold namesRead
    split at h
    · cases h
    · rename_i rest hRead
      simp [hRead]
    · rename_i name rest hRead
      simp only [hRead]
      split at h
      · rename_i rest' hComma
        simp only [hComma]
        split at h
        · cases h
        · exact List.mem_cons_of_mem _ (ih h)
      · cases h
      · cases h

theorem readList_cases (text : Text) :
    (∃ rest, text = 93 :: rest) ∨
      readList text = readServices text.length text ∧
        listNames text = namesRead text.length text := by
  unfold readList listNames
  split
  · exact .inl ⟨_, rfl⟩
  · exact .inr ⟨rfl, rfl⟩

variable {eom : Bool}

theorem readHello_nullName {content : Text} (h : readHello content eom = .nullName) :
    none ∈ helloNames content := by
  unfold readHello at h
  unfold helloNames
  split at h
  · rename_i text hText
    rcases readList_cases text with ⟨rest, rfl⟩ | ⟨hList, hNames⟩
    · simp only [readList] at h
      split at h <;> cases h
    · rw [hList] at h
      rw [hNames]
      split at h
      · split at h <;> cases h
      · exact readServices_nullName h
  · cases h

/-- The elements of the list of a Hello message, with `null` among them. -/
def helloElements (content : Text) : Option (List (Option Text)) :=
  (jsonReadArray jsonReadAllocString content).map Prod.fst

variable {services : List Text}

theorem readServices_elements {text rest : Text}
    (h : readServices fuel text = .list services rest) :
    readElements jsonReadAllocString fuel text = some (services.map some, rest) := by
  induction fuel generalizing text services with
  | zero => cases h
  | succ fuel ih =>
    unfold readServices at h
    unfold readElements
    split at h
    · cases h
    · cases h
    · rename_i name text' hRead
      simp only [hRead, Option.bind_eq_bind, Option.bind_some]
      generalize text'.dropWhile isSpace = tail at h ⊢
      split at h
      · split at h
        · rename_i services' rest' hRest
          cases h
          simp [ih hRest]
        · rename_i hNot
          exact absurd h (hNot _ _)
      · cases h
        rfl
      · cases h

/-- A bracket behind white space is no string. -/
theorem readServices_head {text rest rest' : Text}
    (h : readServices fuel text = .list services rest) : text.dropWhile isSpace ≠ 93 :: rest' := by
  intro hEq
  cases fuel with
  | zero => cases h
  | succ fuel =>
    have hNone : jsonReadAllocString text = none := by
      unfold jsonReadAllocString
      rw [hEq]
      rfl
    unfold readServices at h
    rw [hNone] at h
    cases h

theorem jsonReadArray_bracket {α : Type} {callBack : Text → Option (α × Text)} {content text : Text}
    (hContent : content.dropWhile isSpace = 91 :: text)
    (hText : ∀ rest, text.dropWhile isSpace ≠ 93 :: rest) :
    jsonReadArray callBack content = readElements callBack text.length text := by
  unfold jsonReadArray
  simp only [hContent]

/-- A list that is accepted has no `null`. -/
theorem readHello_elements {content rest : Text}
    (h : readHello content eom = .list services rest) :
    helloElements content = some (services.map some) := by
  unfold readHello at h
  split at h
  · rename_i text hText
    rcases readList_cases text with ⟨rest', rfl⟩ | ⟨hList, -⟩
    · simp only [readList] at h
      split at h <;> cases h
      unfold helloElements jsonReadArray
      rw [hText]
      rfl
    · rw [hList] at h
      split at h
      · rename_i services' rest' hServices
        split at h <;> cases h
        unfold helloElements
        rw [jsonReadArray_bracket hText fun _ => readServices_head hServices,
          readServices_elements hServices]
        rfl
      · rename_i hNot
        exact absurd h (hNot _ _)
  · cases h

/-! ## Actions -/

section

variable (readObject : Text → Option (Text × Text))

/-- Hello messages come when they are expected and redirect requests from a connected channel; no
name of a Hello message is `null`; the reply to a redirect request can be read; and the peer does
not say of a command that it does not know it when the handler has been dropped. -/
def Intended (c : Channel) : Action → Prop
  | .sendHelloMessage => c.isFree = true → c.state = .started ∨ c.state = .helloReceived
  | .sendRedirectCommand => c.isFree = true → c.state = .connected
  | .receive (.hello content _) =>
    c.state = .started ∨ c.state = .helloSent → none ∉ helloNames content
  | .receive (.reply kind tokenid content eom _) => ∀ h, c.findReplyHandler tokenid = some h →
    (kind = .result → h.handler.isRedirect = true →
      readRedirect readObject content eom ≠ .exception) ∧
    (kind = .unrecognized → h.handler = .dropped → eom = false)
  | _ => True

/-- The list of a Hello message that is accepted. -/
def helloOf (c : Channel) : Action → Option (List Text)
  | .receive (.hello content eom) =>
    if c.frames = [] ∧ (c.state = .started ∨ c.state = .helloSent) then
      match readHello content eom with
      | .list services _ => some services
      | _ => none
    else none
  | _ => none

variable {readObject}

section

variable {c : Channel}

theorem Counts.takeReply (h : Sound c) (hState : c.state ≠ .disconnected) {t : Nat}
    {x : ReplyHandlerInfo} (hFind : c.findReplyHandler t = some x) {kind : ReplyKind}
    {content : Text}
    (hRead : kind = .result → x.handler.isRedirect = true →
      readRedirect readObject content eom ≠ .exception)
    (hDropped : kind = .unrecognized → x.handler = .dropped → eom = false) :
    ∃ d, c.takeReply readObject x kind content eom = some d ∧ Sound d ∧ Effect c d none := by
  have hTaken := h.unlink (x := x)
    (R := c.replyHandlers.eraseP fun y => y.tokenid = x.tokenid)
    (fun q _ => countP_eraseP hFind q) fun y hy _ => List.mem_of_mem_eraseP hy
  have hSame : Effect c c none := effect_same rfl rfl fun _ => rfl
  have hPush : Sound (c.push .callback) := h.push rfl
  unfold Channel.takeReply
  cases hx : x.handler with
  | other =>
    rw [hx] at hTaken
    cases kind with
    | progress => exact ⟨_, rfl, hPush, effect_push⟩
    | result | unrecognized => exact ⟨_, rfl, hTaken.push rfl, effect_same rfl rfl fun _ => rfl⟩
  | dropped =>
    rw [hx] at hTaken
    cases kind with
    | progress => exact ⟨_, rfl, h, hSame⟩
    | result => exact ⟨_, rfl, hTaken, effect_same rfl rfl fun _ => rfl⟩
    | unrecognized =>
      rw [hDropped rfl hx]
      exact ⟨_, rfl, hTaken, effect_same rfl rfl fun _ => rfl⟩
  | redirectDone r =>
    rw [hx] at hTaken
    cases kind with
    | progress => exact ⟨_, rfl, h, hSame⟩
    | result =>
      have hSent : c.state = .redirectSent :=
        (hTaken.liveState (Nat.succ_pos _)).resolve_right hState
      have hReply := hRead rfl (by rw [hx]; rfl)
      obtain ⟨d, hEq, hSound, hEffect⟩ := hTaken.redirectDone hSent hReply
      exact ⟨d, hEq, hSound, hEffect.of_same rfl rfl rfl⟩
    | unrecognized =>
      obtain ⟨d, hEq, hSound, hEffect⟩ := hTaken.redirectFailed
      exact ⟨d, hEq, hSound, hEffect.of_same rfl rfl rfl⟩

theorem Counts.receive (h : Sound c) (hFrames : c.frames = []) (hState : c.state ≠ .disconnected)
    {m : Message} (hIntended : Intended readObject c (.receive m)) :
    ∃ d, c.receive readObject m = some d ∧ Sound d ∧ Effect c d (helloOf c (.receive m)) := by
  cases m with
  | hello content eom =>
    unfold Channel.receive helloOf
    dsimp only
    by_cases hEarly : c.state = .started ∨ c.state = .helloSent
    · rw [if_pos hEarly, if_pos ⟨hFrames, hEarly⟩]
      have hHello := h.eventLocatorHello hFrames hEarly content eom
      cases hRead : readHello content eom with
      | nullName => exact absurd (readHello_nullName hRead) (hIntended hEarly)
      | exception =>
        rw [hRead] at hHello
        exact hHello
      | list services rest =>
        rw [hRead] at hHello
        exact hHello
    · rw [if_neg hEarly, if_neg fun hBoth => hEarly hBoth.2]
      exact ⟨_, rfl, h.push rfl, effect_push⟩
  | reply kind tokenid content eom raises =>
    obtain ⟨base, hBaseEq, hBase, hSameState, hSameCalls, hSameList, hSameFind⟩ :
        ∃ base, (if raises then c.push .raise else c) = base ∧ Sound base ∧ base.state = c.state ∧
          base.calls = c.calls ∧ base.peerServiceList = c.peerServiceList ∧
          base.findReplyHandler tokenid = c.findReplyHandler tokenid := by
      refine ⟨_, rfl, ?_⟩
      cases raises with
      | false => exact ⟨h, rfl, rfl, rfl, rfl⟩
      | true => exact ⟨h.push rfl, rfl, rfl, rfl, rfl⟩
    unfold Channel.receive
    dsimp only
    rw [hBaseEq]
    cases hFind : c.findReplyHandler tokenid with
    | none =>
      dsimp only
      split
      · exact ⟨_, rfl, hBase.push rfl,
          (effect_push (c := base)).of_same hSameState hSameCalls hSameList⟩
      · exact h.close
    | some x =>
      have hBoth := hIntended x hFind
      obtain ⟨d, hEq, hSound, hEffect⟩ := hBase.takeReply (hSameState ▸ hState)
        (hSameFind.trans hFind) hBoth.1 hBoth.2
      exact ⟨d, hEq, hSound, hEffect.of_same hSameState hSameCalls hSameList⟩
  | other raises =>
    unfold Channel.receive
    cases raises with
    | false => exact ⟨_, rfl, h.push rfl, effect_push⟩
    | true => exact ⟨_, rfl, (h.push rfl).push rfl, effect_same rfl rfl fun _ => rfl⟩

theorem Counts.ret (h : Sound c) :
    ∃ d, step readObject c .ret = some d ∧ Sound d ∧ Effect c d none := by
  have hSame : Effect c c none := effect_same rfl rfl fun _ => rfl
  unfold step
  cases hFrames : c.frames with
  | nil => exact ⟨c, rfl, h, hSame⟩
  | cons f frames =>
    cases f with
    | closeLoop todo => exact ⟨c, rfl, h, hSame⟩
    | callback => exact ⟨_, rfl, h.pop hFrames rfl, effect_same rfl rfl fun _ => rfl⟩
    | visited t =>
      dsimp only
      split
      · exact ⟨_, rfl, h.retVisited hFrames, effect_same rfl rfl fun _ => rfl⟩
      · exact ⟨_, rfl, h.pop hFrames rfl, effect_same rfl rfl fun _ => rfl⟩
    | redirected r =>
      refine ⟨_, rfl, h.retRedirected hFrames, effect_same rfl ?_ fun _ => rfl⟩
      rw [opened_callHandler]
      rfl
    | raise =>
      obtain ⟨d, hEq, hSound, hEffect⟩ := (h.pop hFrames rfl).close
      exact ⟨d, hEq, hSound, hEffect.of_same rfl rfl rfl⟩

theorem Counts.sendCommandFailed (h : Sound c) :
    ∃ d, step readObject c .sendCommandFailed = some d ∧ Sound d ∧ Effect c d none := by
  have hSame : Effect c c none := effect_same rfl rfl fun _ => rfl
  unfold step
  cases hFrames : c.frames with
  | cons f frames => exact ⟨c, rfl, h, hSame⟩
  | nil =>
    cases hPosted : c.posted with
    | nil => exact ⟨c, rfl, h, hSame⟩
    | cons k posted =>
      have hTaken := h.takePosted hPosted
      cases k with
      | redirectDone r =>
        obtain ⟨d, hEq, hSound, hEffect⟩ := hTaken.redirectFailed
        rw [hFrames] at hEq
        exact ⟨d, hEq, hSound, hEffect.of_same rfl rfl rfl⟩
      | other =>
        rw [hFrames] at hTaken
        exact ⟨_, rfl, hTaken.push rfl, effect_same rfl rfl fun _ => rfl⟩
      | dropped =>
        rw [hFrames] at hTaken
        exact ⟨_, rfl, hTaken, effect_same rfl rfl fun _ => rfl⟩

theorem Sound.step (h : Sound c) {a : Action} (hIntended : Intended readObject c a) :
    ∃ d, step readObject c a = some d ∧ Sound d ∧ Effect c d (helloOf c a) := by
  -- an action that is not possible leaves the channel as it is
  have hSame : Effect c c none := effect_same rfl rfl fun _ => rfl
  cases a with
  | sendHelloMessage =>
    unfold Handshake.step
    dsimp only
    split
    · rename_i hFree
      exact h.sendHelloMessage (hIntended hFree)
    · exact ⟨c, rfl, h, hSame⟩
  | sendRedirectCommand =>
    unfold Handshake.step
    dsimp only
    split
    · rename_i hFree
      exact h.sendRedirectCommand (hIntended hFree)
    · exact ⟨c, rfl, h, hSame⟩
  | sendCommand =>
    unfold Handshake.step
    dsimp only
    split
    · exact ⟨_, rfl, h.sendCommand⟩
    · exact ⟨c, rfl, h, hSame⟩
  | close =>
    unfold Handshake.step
    dsimp only
    split
    · exact h.close
    · exact ⟨c, rfl, h, hSame⟩
  | receive m =>
    unfold Handshake.step
    dsimp only
    split
    · rename_i hReady
      exact h.receive hReady.1 hReady.2 hIntended
    · rename_i hBusy
      have hNone : helloOf c (.receive m) = none := by
        cases m with
        | hello content eom =>
          refine if_neg fun hBoth => hBusy ⟨hBoth.1, ?_⟩
          rcases hBoth.2 with hState | hState <;> rw [hState] <;> decide
        | reply _ _ _ _ _ | other _ => rfl
      rw [hNone]
      exact ⟨c, rfl, h, hSame⟩
  | sendCommandFailed => exact h.sendCommandFailed
  | visit t =>
    unfold Handshake.step
    dsimp only
    split
    · rename_i hFind
      exact h.visit hFind
    · exact ⟨c, rfl, h, hSame⟩
  | loopDone =>
    unfold Handshake.step
    dsimp only
    split
    · rename_i todo frames hFrames
      split
      · rename_i hAll
        refine ⟨_, rfl, h.loopDone hFrames fun x hx hIn => ?_⟩
        have hOne := List.all_eq_true.1 hAll x hx
        simpa [hIn] using hOne
      · exact ⟨c, rfl, h, hSame⟩
    · exact ⟨c, rfl, h, hSame⟩
  | ret => exact h.ret

end

end

/-! ## Runs -/

/-- A channel with the last Hello message that it has accepted, and the number of handshakes. -/
structure Watched where
  channel    : Channel
  lastHello  : Option Text
  handshakes : Nat

def Watched.start (hasDefaultHandler : Bool) : Watched where
  channel := .start hasDefaultHandler
  lastHello := none
  handshakes := 0

/-- A Hello message is accepted when the state of the channel changes to one in which the services
are known. -/
def Watched.hello (w : Watched) (d : Channel) : Action → Option Text
  | .receive (.hello content _) =>
    if (w.channel.state = .started ∨ w.channel.state = .helloSent) ∧
      (d.state = .helloReceived ∨ d.state = .connected) then some content
    else w.lastHello
  | _ => w.lastHello

section

variable (readObject : Text → Option (Text × Text))

def watch (w : Watched) (a : Action) : Option Watched :=
  (step readObject w.channel a).map fun d =>
    { channel := d
      lastHello := w.hello d a
      handshakes := w.handshakes + if Connects w.channel.state d.state then 1 else 0 }

end

/-- Nothing is to be done before the next message. -/
def Channel.Idle (c : Channel) : Prop := c.frames = [] ∧ c.posted = []

/-- What the handshake promises, in a state of a run. -/
structure Safe (readObject : Text → Option (Text × Text)) (w : Watched) : Prop where
  /-- No assertion fails in the next step, and its states follow each other. -/
  follows : ∀ a, Intended readObject w.channel a →
    ∃ v, watch readObject w a = some v ∧ Follows w.channel.state v.channel.state
  /-- The services of the peer are the names of the last Hello message. -/
  services : w.channel.state = .connected → ∃ content names, w.lastHello = some content ∧
    helloElements content = some names ∧
      w.channel.peerServiceList.getD [] = names.filterMap id
  /-- The listeners are called once for each handshake. -/
  opened : w.channel.opened = w.handshakes
  /-- No handler of a redirect request is called twice. -/
  once : ∀ r, w.channel.called r ≤ 1
  /-- All handlers have been called, but the one of a request that has no reply yet. -/
  handled : w.channel.Idle → ∀ r < w.channel.requests,
    w.channel.called r = 1 ∨ w.channel.state = .redirectSent ∧ r + 1 = w.channel.requests

/-- The invariant of a run that is watched. -/
structure Inv (w : Watched) : Prop where
  sound    : Sound w.channel
  opened   : w.channel.opened = w.handshakes
  services : w.channel.state.known → ∃ content names, w.lastHello = some content ∧
    helloElements content = some names ∧
      w.channel.peerServiceList.getD [] = names.filterMap id

theorem inv_start (hasDefaultHandler : Bool) : Inv (.start hasDefaultHandler) := by
  refine ⟨⟨fun r => rfl, Nat.zero_le _, fun hPos => ?_, fun hSent => ?_, fun hGone => ?_,
    fun f hf => ?_, fun r hr => ?_, ?_⟩, rfl, fun hKnown => ?_⟩
  · cases hPos
  · cases hSent
  · cases hGone
  · cases hf
  · cases hr
  · show false = true ↔ ChannelState.started = .connected ∨ ChannelState.started = .redirectSent
    simp
  · rcases hKnown with h | h | h <;> cases h

theorem filterMap_map_some (services : List Text) :
    (services.map some).filterMap id = services := by
  rw [List.filterMap_map]
  exact List.filterMap_some

variable {a : Action}

/-- A Hello message that is accepted has a list. -/
theorem helloOf_hello {c : Channel}
    (h : helloOf c a = some services) : ∃ content eom, a = .receive (.hello content eom) ∧
      (c.state = .started ∨ c.state = .helloSent) ∧
        helloElements content = some (services.map some) := by
  unfold helloOf at h
  split at h
  · rename_i content eom
    split at h
    · rename_i hReady
      split at h
      · rename_i hRead
        cases h
        exact ⟨content, eom, rfl, hReady.2, readHello_elements hRead⟩
      · cases h
    · cases h
  · cases h

section

variable {readObject : Text → Option (Text × Text)} {w : Watched}

/-- The list of services after a step. -/
theorem Inv.services_step (h : Inv w) {d : Channel}
    (hEffect : Effect w.channel d (helloOf w.channel a)) (hKnown : d.state.known) :
    ∃ content names, w.hello d a = some content ∧ helloElements content = some names ∧
      d.peerServiceList.getD [] = names.filterMap id := by
  have hServices := hEffect.services hKnown
  cases hHello : helloOf w.channel a with
  | none =>
    -- the state was one in which no Hello message is taken
    rw [hHello] at hServices
    obtain ⟨hBefore, hList⟩ := hServices
    obtain ⟨content, names, hLast, hNames, hSame⟩ := h.services hBefore
    have hNot : ¬ (w.channel.state = .started ∨ w.channel.state = .helloSent) := by
      rcases hBefore with hState | hState | hState <;> simp [hState]
    refine ⟨content, names, ?_, hNames, by rw [hList, hSame]⟩
    unfold Watched.hello
    split
    · rw [if_neg fun hBoth => hNot hBoth.1]
      exact hLast
    · exact hLast
  | some services =>
    rw [hHello] at hServices
    obtain ⟨content, eom, rfl, hEarly, hNames⟩ := helloOf_hello hHello
    have hFollows := hEffect.follows
    have hNew : d.state = .helloReceived ∨ d.state = .connected := by
      rcases hKnown with hState | hState | hState
      · exact .inl hState
      · exact .inr hState
      · rw [hState] at hFollows
        rcases hEarly with hOld | hOld <;> rw [hOld] at hFollows <;> cases hFollows
    refine ⟨content, services.map some, if_pos ⟨hEarly, hNew⟩, hNames, ?_⟩
    rw [filterMap_map_some]
    exact hServices

theorem Inv.step (h : Inv w) (hIntended : Intended readObject w.channel a) :
    ∃ v, watch readObject w a = some v ∧ Inv v ∧ Follows w.channel.state v.channel.state := by
  obtain ⟨d, hEq, hSound, hEffect⟩ := h.sound.step hIntended
  refine ⟨_, by rw [watch, hEq]; rfl, ⟨hSound, ?_, fun hKnown => ?_⟩, hEffect.follows⟩
  · rw [← h.opened]
    exact hEffect.opened
  · exact h.services_step hEffect hKnown

/-- Where nothing is to be done, only the last request can be without a call of its handler. -/
theorem Counts.handled {c : Channel} (h : Sound c) (hIdle : c.Idle) {r : Nat}
    (hr : r < c.requests) : c.called r = 1 ∨ c.state = .redirectSent ∧ r + 1 = c.requests := by
  obtain ⟨hFrames, hPosted⟩ := hIdle
  by_cases hSent : c.state = .redirectSent
  · by_cases hLast : r + 1 = c.requests
    · exact .inr ⟨hSent, hLast⟩
    · exact .inl (h.last r (by omega))
  · have hNone : (none : Option Nat).toList.length = 0 := rfl
    have hLive : c.live = 0 := by
      by_contra hPos
      rcases h.liveState (by omega) with hState | hGone
      · exact hSent hState
      · -- the loop of `channel_closed` is over
        have hTable : c.replyHandlers.countP (fun x => x.handler.isRedirect) ≠ 0 := by
          unfold Channel.live at hPos
          rw [hPosted] at hPos
          exact hPos
        obtain ⟨x, hx, hRedirect⟩ := List.countP_pos_iff.1 (Nat.pos_of_ne_zero hTable)
        obtain ⟨todo, hIn, -⟩ := h.covered hGone x hx hRedirect
        rw [hFrames] at hIn
        cases hIn
    have hZero := pending_zero hLive (fun f hf => by rw [hFrames] at hf; cases hf) r
    have hTotal := h.total r
    rw [hZero, if_pos hr] at hTotal
    exact .inl hTotal

theorem Inv.safe (h : Inv w) : Safe readObject w := by
  refine ⟨fun a hIntended => ?_, fun hState => h.services (.inr (.inl hState)), h.opened,
    fun r => ?_, fun hIdle r hr => h.sound.handled hIdle hr⟩
  · obtain ⟨v, hv, -, hFollows⟩ := h.step hIntended
    exact ⟨v, hv, hFollows⟩
  · have hTotal := h.sound.total r
    split at hTotal <;> omega

/-- The states of a channel, its list of services, and the calls of listeners and handlers. -/
theorem handshake_safe {hasDefaultHandler : Bool} {actions : List Action}
    (h : Meets (watch readObject) (fun w a => Intended readObject w.channel a)
      (.start hasDefaultHandler) actions) :
    ∃ w, run (watch readObject) (.start hasDefaultHandler) actions = some w ∧
      Safe readObject w := by
  obtain ⟨w, hRun, hInv⟩ := run_total (P := Inv)
    (fun w a hw hIntended => by
      obtain ⟨v, hv, hInv, -⟩ := hw.step hIntended
      exact ⟨v, hv, hInv⟩) (inv_start hasDefaultHandler) h
  exact ⟨w, hRun, hInv.safe⟩

end

/-- The list `["A"]` comes as the answer to a Hello message, and a redirect request is answered. -/
theorem handshake_safe_redirect : ∃ w, run (watch fun _ => none) (.start false)
    [.sendHelloMessage, .receive (.hello (ascii "[\"A\"]" ++ [0]) true), .ret, .ret,
      .sendRedirectCommand, .receive (.reply .result 1 [0] true false)] = some w ∧
    Safe (fun _ => none) w := by
  refine handshake_safe ⟨fun _ => .inl rfl, fun w hStep => ?_⟩
  cases hStep
  refine ⟨fun _ => by decide, fun w hStep => ?_⟩
  cases hStep
  refine ⟨trivial, fun w hStep => ?_⟩
  cases hStep
  refine ⟨trivial, fun w hStep => ?_⟩
  cases hStep
  refine ⟨fun _ => rfl, fun w hStep => ?_⟩
  cases hStep
  refine ⟨fun h hFind => ?_, fun _ _ => trivial⟩
  cases hFind
  exact ⟨fun _ _ => by decide, fun hKind => by cases hKind⟩

/-- The list `[null]` is no list, and the handler of a redirect request whose reply cannot be read
is never called. -/
theorem hello_null_redirect_unread :
    run (watch fun _ => none) (.start false)
      [.sendHelloMessage, .receive (.hello (ascii "[null]" ++ [0]) true)] = none ∧
    ∃ w, run (watch fun _ => none) (.start false)
        [.sendHelloMessage, .receive (.hello (ascii "[\"A\"]" ++ [0]) true), .ret, .ret,
          .sendRedirectCommand, .receive (.reply .result 1 [1] true false), .ret, .loopDone, .ret,
          .ret] = some w ∧
      w.channel.Idle ∧ w.channel.state = .disconnected ∧ w.channel.requests = 1 ∧
        w.channel.called 0 = 0 :=
  ⟨rfl, _, rfl, ⟨rfl, rfl⟩, rfl, rfl, rfl⟩

end TcfAgent.Handshake
