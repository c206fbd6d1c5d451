import TcfAgent.Lib.Run
import TcfAgent.Framework.Peer

/-!
# The table of peer servers

The list of peers of `framework/peer.c`: peers are added, refreshed, removed, and removed when they
are stale. Listeners are told of every change while the call that made it is still going on, and can
make calls themselves: a run is the calls and what the notifications that are going on do next, the
innermost of them first.

A peer has the address of its block, so that a pointer to one that has been freed can be told.

Main results:

* `table_kept` — in every run the table and what has been announced are as expected.
-/

namespace TcfAgent.Peer

open TcfAgent.Lib

/-! ## Peers and announcements -/

/-- `PeerServer`, when it is listed. -/
structure Listed where
  addr       : Nat
  id         : CString
  list       : List Property
  flags      : Flags
  creation   : Int
  expiration : Int
deriving DecidableEq

/-- `PS_EVENT_ADDED` and the others. -/
inductive PsEvent where
  | added
  | changed
  | heartBeat
  | removed
deriving DecidableEq, Repr

/-- What has made a change. -/
inductive Cause where
  | add (flags : Flags)
  | remove
  | stale (timenow : Int)
deriving DecidableEq, Repr

/-- A change that was announced: the listed peer of this ID before and after it. -/
structure Change where
  event  : PsEvent
  id     : CString
  cause  : Cause
  before : Option Listed
  after  : Option Listed
deriving DecidableEq

/-- A call that tells the listeners of a change: what it goes on with when they have been told. -/
inductive Frame where
  | adding (addr : Nat) (isNew : Bool)
  | removing
  | clearing (prev : Option Nat) (timenow : Int)
deriving DecidableEq, Repr

/-- The table, the calls that are running, and the log of changes. -/
structure State where
  peers       : List Listed
  next        : Nat
  timerActive : Bool
  frames      : List Frame
  changes     : List Change
deriving DecidableEq

def State.init : State := ⟨[], 0, false, [], []⟩

/-! ## Calls -/

/-- `is_same` -/
def isSame (a b : List Property) : Bool :=
  a.length = b.length && a.all fun x =>
    match b.find? fun y => x.1 = y.1 with
    | none => false
    | some y => x.2 = y.2

/-- The peer of this ID, with those in front of it and behind it. -/
def findPeer (id : CString) : List Listed → Option (List Listed × Listed × List Listed)
  | [] => none
  | s :: peers =>
    if s.id = id then some ([], s, peers)
    else (findPeer id peers).map fun (before, s', behind) => (s :: before, s', behind)

/-- The change is announced; the listeners are told next. -/
def State.notify (s : State) (peers : List Listed) (c : Change) (f : Frame) : State :=
  { s with peers := peers, frames := f :: s.frames, changes := s.changes ++ [c] }

/-- The new peer is listed in front of the others. -/
def State.link (s : State) (n : Listed) (others : List Listed) (event : PsEvent)
    (before : Option Listed) : State :=
  { s.notify (n :: others) ⟨event, n.id, .add n.flags, before, some n⟩
    (.adding n.addr true) with next := s.next + 1 }

/-- `peer_server_add`, to the notification. -/
def peerServerAdd (s : State) (id : CString) (list : List Property) (flags : Flags)
    (staleDelta : Nat)
    (timenow : Int) : State :=
  let n : Listed := ⟨s.next, id, list, flags, timenow, timenow + staleDelta⟩
  match findPeer id s.peers with
  | none => s.link n s.peers .added none
  | some (before, p, behind) =>
    if (p.flags.isLocal ∧ ¬ flags.isLocal) ∨ isSame p.list list then
      -- Never replace local entries with discovered ones
      let p' := { p with
        expiration := timenow + staleDelta
        flags := if p.flags.isLocal then p.flags else flags }
      s.notify (before ++ p' :: behind) ⟨.heartBeat, id, .add flags, some p, some p'⟩
        (.adding p.addr false)
    else s.link n (before ++ behind) .changed (some p)

/-- `peer_server_remove`, to the notification. -/
def peerServerRemove (s : State) (id : CString) : State :=
  match findPeer id s.peers with
  | none => s
  | some (before, p, behind) =>
      s.notify (before ++ behind) ⟨.removed, id, .remove, some p, none⟩ .removing

/-- The first stale peer, with those in front of it and behind it. -/
def firstStale (timenow : Int) : List Listed → Option (List Listed × Listed × List Listed)
  | [] => none
  | s :: peers =>
    if s.expiration ≤ timenow then some ([], s, peers)
    else (firstStale timenow peers).map fun (before, s', behind) => (s :: before, s', behind)

/-- The peers up to the one at this address, and those behind it. -/
def splitAt (addr : Nat) : List Listed → Option (List Listed × List Listed)
  | [] => none
  | s :: peers =>
    if s.addr = addr then some ([s], peers)
    else (splitAt addr peers).map fun (before, behind) => (s :: before, behind)

/-- What the pointer `sp` splits the list into: it is in the peer `prev`, or the head of the list;
`none` when `prev` has been freed. -/
def splitFrom (prev : Option Nat) (peers : List Listed) : Option (List Listed × List Listed) :=
  match prev with
  | none => some ([], peers)
  | some addr => splitAt addr peers

/-- The loop of `clear_stale_peers` over the peers `behind`, to the next notification. -/
def clearBehind (s : State) (before behind : List Listed) (prev : Option Nat)
    (timenow : Int) : State :=
  match firstStale timenow behind with
  | none => { s with timerActive := s.peers ≠ [] }
  | some (fresh, p, rest) =>
    s.notify (before ++ fresh ++ rest) ⟨.removed, p.id, .stale timenow, some p, none⟩
      (.clearing (if fresh = [] then prev else fresh.getLast?.map Listed.addr) timenow)

/-- `clear_stale_peers`, from the peer behind `prev` on. -/
def clearStalePeers (s : State) (prev : Option Nat) (timenow : Int) : Option State :=
  (splitFrom prev s.peers).map fun split => clearBehind s split.1 split.2 prev timenow

/-! ## Runs -/

/-- A call, by the program or by a listener; the timer; the innermost notification goes on with one
more listener, or has told all of them. -/
inductive Op where
  | add (id : CString) (list : List Property) (flags : Flags) (staleDelta : Nat) (timenow : Int)
  | remove (id : CString)
  | timer (timenow : Int)
  | listener
  | done
deriving DecidableEq

/-- A listed peer has this address. -/
def State.Live (s : State) (addr : Nat) : Prop := ∃ p ∈ s.peers, p.addr = addr

instance (s : State) (addr : Nat) : Decidable (s.Live addr) := List.decidableBEx _ _

/-- `none` when a peer is used that has been freed. -/
def step (s : State) : Op → Option State
  | .add id list flags staleDelta timenow => some (peerServerAdd s id list flags staleDelta timenow)
  | .remove id => some (peerServerRemove s id)
  | .timer timenow =>
      if s.frames = [] ∧ s.timerActive then clearStalePeers s none timenow else some s
  | .listener =>
    match s.frames with
    | .adding addr _ :: _ => if s.Live addr then some s else none
    | _ => some s
  | .done =>
    match s.frames with
    | [] => some s
    | .adding _ isNew :: frames =>
        some { s with frames := frames, timerActive := s.timerActive || isNew }
    | .removing :: frames => some { s with frames := frames }
    | .clearing prev timenow :: frames => clearStalePeers { s with frames := frames } prev timenow

/-! ## What is expected -/

/-- Whether a peer is listed after an event; `none` when the event must not be announced. -/
def announced : Bool → PsEvent → Option Bool
  | false, .added => some true
  | true, .changed => some true
  | true, .heartBeat => some true
  | true, .removed => some false
  | _, _ => none

/-- The events that were announced for an ID, in their order. -/
def eventsOf (id : CString) (changes : List Change) : List PsEvent :=
  (changes.filter fun c => c.id = id).map Change.event

/-- A discovered peer leaves a local one as it is, and does not make its life shorter. -/
def Change.LocalKept (c : Change) : Prop :=
  ∀ flags p, c.cause = .add flags → ¬ flags.isLocal → c.before = some p → p.flags.isLocal →
    ∃ p', c.after = some p' ∧ p'.addr = p.addr ∧ p'.list = p.list ∧ p'.flags = p.flags ∧
      p.expiration ≤ p'.expiration

/-- A peer is removed as stale after its expiration time. -/
def Change.Expired (c : Change) : Prop :=
  ∀ timenow, c.cause = .stale timenow → ∃ p, c.before = some p ∧ p.expiration ≤ timenow

/-- No ID is listed twice; the events of every ID alternate, and those IDs are listed that were
added and not removed; local peers are kept, and only those are removed as stale whose time is over.
-/
structure Consistent (s : State) : Prop where
  nodup : (s.peers.map Listed.id).Nodup
  alternate :
    ∀ id, (eventsOf id s.changes).foldlM announced false =
    some (decide (id ∈ s.peers.map Listed.id))
  localKept : ∀ c ∈ s.changes, c.LocalKept
  expired : ∀ c ∈ s.changes, c.Expired

/-- The peer that listeners are told of has not been freed by one of them. -/
def Frame.Tells (s : State) : Frame → Prop
  | .adding addr _ => s.Live addr
  | _ => True

/-- The peer in front of the stale one has not been freed by a listener. -/
def Frame.GoesOn (s : State) : Frame → Prop
  | .clearing (some addr) _ => s.Live addr
  | _ => True

/-- A discovered peer does not come with less time than the local peer of its ID has; and listeners
do not free the peers that are still used. -/
def StepOk (s : State) : Op → Prop
  | .add id _ flags staleDelta timenow =>
    ∀ p ∈ s.peers, p.id = id ∧ p.flags.isLocal ∧ ¬ flags.isLocal →
      p.expiration ≤ timenow + staleDelta
  | .listener => ∀ f ∈ s.frames.head?, f.Tells s
  | .done => ∀ f ∈ s.frames.head?, f.GoesOn s
  | _ => True

instance (s : State) : DecidablePred (Frame.Tells s)
  | .adding addr _ => inferInstanceAs (Decidable (s.Live addr))
  | .removing => isTrue trivial
  | .clearing _ _ => isTrue trivial

instance (s : State) : DecidablePred (Frame.GoesOn s)
  | .adding _ _ => isTrue trivial
  | .removing => isTrue trivial
  | .clearing none _ => isTrue trivial
  | .clearing (some addr) _ => inferInstanceAs (Decidable (s.Live addr))

instance : ∀ s op, Decidable (StepOk s op)
  | _, .add _ _ _ _ _ => List.decidableBAll _ _
  | s, .listener => inferInstanceAs (Decidable (∀ f ∈ s.frames.head?, f.Tells s))
  | s, .done => inferInstanceAs (Decidable (∀ f ∈ s.frames.head?, f.GoesOn s))
  | _, .remove _ => isTrue trivial
  | _, .timer _ => isTrue trivial

/-! ## Lists of peers -/

section

variable {s : State} {id : CString} {peers before behind rest : List Listed} {p : Listed}
  {addr : Nat}
  {timenow : Int} {c : Change} {f : Frame} {op : Op}

theorem findPeer_some (h : findPeer id peers = some (before, p, behind)) :
    peers = before ++ p :: behind ∧ p.id = id := by
  induction peers generalizing before with
  | nil => cases h
  | cons q peers ih =>
    rw [findPeer] at h
    split at h
    · cases h
      exact ⟨rfl, ‹_›⟩
    · obtain ⟨⟨before', p', behind'⟩, hTail, hParts⟩ := Option.map_eq_some_iff.1 h
      cases hParts
      obtain ⟨hSplit, hId⟩ := ih hTail
      exact ⟨congrArg _ hSplit, hId⟩

theorem findPeer_none (h : findPeer id peers = none) : id ∉ peers.map Listed.id := by
  induction peers with
  | nil => exact List.not_mem_nil
  | cons q peers ih =>
    rw [findPeer] at h
    split at h
    · cases h
    · rename_i hNe
      rw [List.map_cons, List.mem_cons, not_or]
      exact ⟨Ne.symm hNe, ih (Option.map_eq_none_iff.1 h)⟩

theorem firstStale_some (h : firstStale timenow peers = some (before, p, behind)) :
    peers = before ++ p :: behind ∧ p.expiration ≤ timenow := by
  induction peers generalizing before with
  | nil => cases h
  | cons q peers ih =>
    rw [firstStale] at h
    split at h
    · cases h
      exact ⟨rfl, ‹_›⟩
    · obtain ⟨⟨before', p', behind'⟩, hTail, hParts⟩ := Option.map_eq_some_iff.1 h
      cases hParts
      obtain ⟨hSplit, hTime⟩ := ih hTail
      exact ⟨congrArg _ hSplit, hTime⟩

theorem splitAt_some (h : splitAt addr peers = some (before, behind)) :
    peers = before ++ behind := by
  induction peers generalizing before with
  | nil => cases h
  | cons q peers ih =>
    rw [splitAt] at h
    split at h
    · cases h
      rfl
    · obtain ⟨⟨before', behind'⟩, hTail, hParts⟩ := Option.map_eq_some_iff.1 h
      cases hParts
      exact congrArg _ (ih hTail)

theorem splitAt_live (h : ∃ p ∈ peers, p.addr = addr) : ∃ before behind, splitAt addr peers = some
    (before, behind) := by
  induction peers with
  | nil =>
    obtain ⟨p, hMem, -⟩ := h
    exact absurd hMem List.not_mem_nil
  | cons q peers ih =>
    rw [splitAt]
    by_cases hSame : q.addr = addr
    · rw [if_pos hSame]
      exact ⟨_, _, rfl⟩
    · rw [if_neg hSame]
      obtain ⟨p, hMem, hAddr⟩ := h
      rcases List.mem_cons.1 hMem with rfl | hMem
      · exact absurd hAddr hSame
      · obtain ⟨before, behind, hTail⟩ := ih ⟨p, hMem, hAddr⟩
        rw [hTail]
        exact ⟨_, _, rfl⟩

/-! ## Announcements -/

theorem consistent_init : Consistent .init :=
  ⟨List.nodup_nil, fun _ => rfl, fun _ hc => absurd hc List.not_mem_nil,
    fun _ hc => absurd hc List.not_mem_nil⟩

/-- A change that is announced: its event fits the ID that is changed, and the others are listed as
before. -/
theorem Consistent.notify (h : Consistent s) (hNodup : (peers.map Listed.id).Nodup)
    (hEvent : announced (decide (c.id ∈ s.peers.map Listed.id)) c.event = some
    (decide (c.id ∈ peers.map Listed.id)))
    (hOthers : ∀ id, id ≠ c.id → (id ∈ peers.map Listed.id ↔ id ∈ s.peers.map Listed.id))
    (hLocal : c.LocalKept) (hExpired : c.Expired) : Consistent (s.notify peers c f) := by
  have hMem : ∀ {P : Change → Prop}, (∀ x ∈ s.changes, P x) → P c →
    ∀ x ∈ s.changes ++ [c], P x := by
    intro P hAll hLast x hx
    rcases List.mem_append.1 hx with hx | hx
    · exact hAll x hx
    · rw [List.mem_singleton.1 hx]
      exact hLast
  refine ⟨hNodup, fun id => ?_, hMem h.localKept hLocal, hMem h.expired hExpired⟩
  show (eventsOf id (s.changes ++ [c])).foldlM announced false =
    some (decide (id ∈ peers.map Listed.id))
  rw [eventsOf, List.filter_append, List.map_append, List.foldlM_append]
  have hBefore := h.alternate id
  rw [eventsOf] at hBefore
  rw [hBefore]
  by_cases hSame : c.id = id
  · subst hSame
    simp only [List.filter_cons, decide_true, if_true, List.filter_nil, List.map_cons, List.map_nil]
    show (announced _ c.event).bind some = _
    rw [hEvent]
    rfl
  · rw [List.filter_cons, if_neg (by simpa using hSame)]
    refine congrArg some ?_
    exact decide_eq_decide.2 (hOthers id (Ne.symm hSame)).symm

/-- The peer in the middle is removed. -/
theorem Consistent.unlink (h : Consistent s) (hPeers : s.peers = before ++ p :: behind)
    (hId : c.id = p.id)
    (hEvent : c.event = .removed) (hLocal : c.LocalKept) (hExpired : c.Expired) :
    Consistent (s.notify (before ++ behind) c f) := by
  have hAll := h.nodup
  rw [hPeers, List.map_append, List.map_cons] at hAll
  have hNodup := List.nodup_middle.1 hAll
  rw [← List.map_append] at hNodup
  refine h.notify (List.nodup_cons.1 hNodup).2 ?_ ?_ hLocal hExpired
  · have hThere : p.id ∈ s.peers.map Listed.id := by
      rw [hPeers]
      simp
    rw [hId, hEvent, decide_eq_true hThere, decide_eq_false (List.nodup_cons.1 hNodup).1]
    rfl
  · intro id hNe
    rw [hId] at hNe
    rw [hPeers]
    simp [hNe]

theorem Consistent.congr {t : State} (h : Consistent s) (hPeers : t.peers = s.peers)
    (hChanges : t.changes = s.changes) : Consistent t where
  nodup := by rw [hPeers]; exact h.nodup
  alternate id := by rw [hPeers, hChanges]; exact h.alternate id
  localKept := by rw [hChanges]; exact h.localKept
  expired := by rw [hChanges]; exact h.expired

/-- A new peer is listed in front of the others. -/
theorem Consistent.link {n : Listed} {others : List Listed} {event : PsEvent}
    {before : Option Listed}
    (h : Consistent s) (hNodup : (n.id :: others.map Listed.id).Nodup)
    (hEvent : announced (decide (n.id ∈ s.peers.map Listed.id)) event = some true)
    (hOthers : ∀ id, id ≠ n.id → (id ∈ others.map Listed.id ↔ id ∈ s.peers.map Listed.id))
    (hLocal : Change.LocalKept ⟨event, n.id, .add n.flags, before, some n⟩) :
    Consistent (s.link n others event before) := by
  have hNotified : Consistent (s.notify (n :: others) ⟨event, n.id, .add n.flags, before, some n⟩
      (.adding n.addr true)) := by
    refine h.notify hNodup ?_ ?_ hLocal ?_
    · rw [hEvent, List.map_cons, decide_eq_true List.mem_cons_self]
    · intro id hNe
      rw [List.map_cons, List.mem_cons, or_iff_right hNe, hOthers id hNe]
    · intro timenow hCause
      cases hCause
  exact hNotified.congr rfl rfl

/-! ## Calls -/

theorem peerServerRemove_consistent (h : Consistent s) : Consistent (peerServerRemove s id) := by
  unfold peerServerRemove
  rcases hFind : findPeer id s.peers with - | ⟨before, p, behind⟩
  · exact h
  · obtain ⟨hPeers, hId⟩ := findPeer_some hFind
    refine h.unlink hPeers hId.symm rfl ?_ ?_
    · intro flags p hCause
      cases hCause
    · intro timenow hCause
      cases hCause

theorem peerServerAdd_consistent {list : List Property} {flags : Flags} {staleDelta : Nat}
    (h : Consistent s)
    (hOk : StepOk s (.add id list flags staleDelta timenow)) :
    Consistent (peerServerAdd s id list flags staleDelta timenow) := by
  unfold peerServerAdd
  have hExpired :
    ∀ {event before after}, Change.Expired ⟨event, id, .add flags, before, after⟩ := by
    intro event before after timenow hCause
    cases hCause
  rcases hFind : findPeer id s.peers with - | ⟨before, p, behind⟩
  · have hNew := findPeer_none hFind
    refine h.link (List.nodup_cons.2 ⟨hNew, h.nodup⟩) ?_ (fun id' _ => Iff.rfl) ?_
    · rw [decide_eq_false hNew]
      rfl
    · intro flags' p' hCause hRemote hBefore
      cases hBefore
  · obtain ⟨hPeers, rfl⟩ := findPeer_some hFind
    have hThere : p.id ∈ s.peers.map Listed.id := by
      rw [hPeers]
      simp
    dsimp only
    split
    · have hIds :
        (before ++ ⟨p.addr, p.id, p.list, if p.flags.isLocal then p.flags else flags, p.creation,
          timenow + staleDelta⟩ :: behind).map Listed.id = s.peers.map Listed.id := by
        rw [hPeers]
        simp
      refine h.notify (by rw [hIds]; exact h.nodup) ?_ ?_ ?_ hExpired
      · rw [hIds, decide_eq_true hThere]
        rfl
      · intro id' hNe
        rw [hIds]
      · intro flags' q hCause hRemote hBefore hLocal
        obtain rfl : flags = flags' := by injection hCause
        cases hBefore
        refine ⟨_, rfl, rfl, rfl, if_pos hLocal, ?_⟩
        exact hOk p (by rw [hPeers]; simp) ⟨rfl, hLocal, hRemote⟩
    -- the peer is replaced: its old entry goes, the new one is linked in front
    · rename_i hReplace
      have hAll := h.nodup
      rw [hPeers, List.map_append, List.map_cons] at hAll
      have hNodup := List.nodup_middle.1 hAll
      rw [← List.map_append] at hNodup
      refine h.link hNodup ?_ ?_ ?_
      · rw [decide_eq_true hThere]
        rfl
      · intro id' hNe
        rw [hPeers]
        simp [hNe]
      · intro flags' q hCause hRemote hBefore hLocal
        obtain rfl : flags = flags' := by injection hCause
        cases hBefore
        exact absurd (.inl ⟨hLocal, hRemote⟩) hReplace

theorem splitFrom_some {prev : Option Nat} (h : splitFrom prev peers = some (before, behind)) :
    peers = before ++ behind := by
  rcases prev with - | addr
  · cases h
    rfl
  · exact splitAt_some h

theorem clearStalePeers_consistent {t : State} {prev : Option Nat} (h : Consistent s)
    (hStep : clearStalePeers s prev timenow = some t) : Consistent t := by
  obtain ⟨⟨before, behind⟩, hSplit, rfl⟩ := Option.map_eq_some_iff.1 hStep
  have hPeers := splitFrom_some hSplit
  unfold clearBehind
  rcases hStale : firstStale timenow behind with - | ⟨fresh, p, rest⟩
  · exact h.congr rfl rfl
  · obtain ⟨rfl, hTime⟩ := firstStale_some hStale
    rw [← List.append_assoc] at hPeers
    refine h.unlink hPeers rfl rfl ?_ ?_
    · intro flags p hCause
      cases hCause
    · intro timenow' hCause
      obtain rfl : timenow = timenow' := by injection hCause
      exact ⟨p, rfl, hTime⟩

/-- A step that is as it should be finds no peer that has been freed, and keeps the table
consistent. -/
theorem step_consistent (h : Consistent s) (hOk : StepOk s op) : ∃ t, step s op = some t ∧
    Consistent t := by
  rcases op with ⟨id, list, flags, staleDelta, timenow⟩ | id | timenow | - | -
  · exact ⟨_, rfl, peerServerAdd_consistent h hOk⟩
  · exact ⟨_, rfl, peerServerRemove_consistent h⟩
  · rw [step]
    split
    · have hRun : clearStalePeers s none timenow = some (clearBehind s [] s.peers none timenow) :=
        rfl
      exact ⟨_, hRun, clearStalePeers_consistent h hRun⟩
    · exact ⟨s, rfl, h⟩
  · rw [step]
    split
    · rename_i addr isNew frames hFrames
      have hLive : s.Live addr := hOk (.adding addr isNew) (by rw [hFrames]; rfl)
      rw [if_pos hLive]
      exact ⟨s, rfl, h⟩
    · exact ⟨s, rfl, h⟩
  · rw [step]
    split
    · exact ⟨s, rfl, h⟩
    · exact ⟨_, rfl, h.congr rfl rfl⟩
    · exact ⟨_, rfl, h.congr rfl rfl⟩
    · rename_i prev timenow frames hFrames
      have hFree : Consistent { s with frames := frames } := h.congr rfl rfl
      obtain ⟨before, behind, hSplit⟩ :
        ∃ before behind, splitFrom prev s.peers = some (before, behind) := by
        rcases prev with - | addr
        · exact ⟨_, _, rfl⟩
        · have hLive : s.Live addr := hOk (.clearing (some addr) timenow) (by rw [hFrames]; rfl)
          exact splitAt_live hLive
      have hRun : clearStalePeers { s with frames := frames } prev timenow =
          some (clearBehind { s with frames := frames } before behind prev timenow) := by
        rw [clearStalePeers, hSplit]
        rfl
      exact ⟨_, hRun, clearStalePeers_consistent hFree hRun⟩

end

/-- In every run the table and the announcements are as they should be. -/
theorem table_kept (ops : List Op) (hOk : Meets step StepOk .init ops) (k : Nat) :
    ∃ s, run step .init (ops.take k) = some s ∧ Consistent s :=
  run_total (P := Consistent) (fun _ _ h hOp => step_consistent h hOp) consistent_init (hOk.take k)

/-- A local peer is added and refreshed, and is removed when its time is over. -/
theorem table_kept_refreshed :
    ∃ s, run step .init ([.add (cstring "a") [] ⟨true, false, true⟩ 60 0, .done,
    .add (cstring "a") [] ⟨false, false, true⟩ 60 10, .listener, .done, .timer 100].take 6) =
      some s ∧ Consistent s :=
  table_kept _ (by decide +kernel) 6

/-- A discovered peer makes the life of a local one shorter, from 120 to 70. -/
theorem local_not_kept :
    ¬ ∃ s, run step .init [.add (cstring "a") [] ⟨true, false, true⟩ 120 0, .done,
    .add (cstring "a") [] ⟨false, false, true⟩ 60 10, .done, .timer 70] = some s ∧
      Consistent s := by
  rintro ⟨s, hRun, hConsistent⟩
  have hChange : (run step .init [.add (cstring "a") [] ⟨true, false, true⟩ 120 0, .done,
      .add (cstring "a") [] ⟨false, false, true⟩ 60 10, .done, .timer 70]).map
        (·.changes[1]?) = some (some
        ⟨.heartBeat, cstring "a", .add ⟨false, false, true⟩,
          some ⟨0, cstring "a", [], ⟨true, false, true⟩, 0, 120⟩,
          some ⟨0, cstring "a", [], ⟨true, false, true⟩, 0, 70⟩⟩) := by decide +kernel
  rw [hRun] at hChange
  have hMem := List.mem_of_getElem? (Option.some.inj hChange)
  obtain ⟨p', hAfter, -, -, -, hTime⟩ := hConsistent.localKept _ hMem _ _ rfl (by decide) rfl rfl
  obtain rfl := Option.some.inj hAfter
  exact absurd hTime (by decide)

end TcfAgent.Peer
