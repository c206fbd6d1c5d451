import TcfAgent.Lib.Run
import Mathlib.Data.List.TakeWhile

/-!
# Event queue

`framework/events.c`: events posted by the dispatch thread without a delay go to
`event_queue`; events with a delay, and all events posted by other threads, go to
`timer_queue`, ordered by the time they are due. `run_event_loop` takes events off
`event_queue`; now and then — when that queue is empty, after 100 untimed events, or
100 ms after the last time if one untimed event was dispatched — it moves the timed
events that are due in front of it.

A step of the model is one call of a function of the source, or one round of the
`while (process_events)` loop up to the call of the handler: what the handler posts
and cancels are further steps before the next round. A round that would block in
`pthread_cond_wait` ends there; the wake-up is the next round. Each step carries the
value the clock has while it is taken.

A node is identified by the number of its post (`ev`), which stands for its address:
`event_last` is such a number. The free lists of nodes are left out. `exit_event_handler` is
the one handler of this file: it runs in the round that takes it off the queue.

Main results:

* `step_spec`         — no assertion fails, and every step keeps the invariant `Inv`;
* `timedOrder_of_run` — delayed events come off in the order of their runtimes, as long as
  `Careful` holds;
* `events_run`        — the properties of whole runs;
* `not_timedOrder`    — an exit event lets a later batch overtake an earlier one.
-/

namespace TcfAgent.Events

open TcfAgent.Lib

/-- `struct timespec`; `time_cmp` asserts the bound of `tv_nsec`. -/
structure Timespec where
  tvSec   : Nat
  tvNsec  : Nat
  nsec_lt : tvNsec < 1000000000
deriving DecidableEq

/-- The time in nanoseconds. -/
def Timespec.ns (tv : Timespec) : Nat := tv.tvSec * 1000000000 + tv.tvNsec

def Timespec.zero : Timespec := ⟨0, 0, by decide⟩

def timeCmp (tv1 tv2 : Timespec) : Int :=
  if tv1.tvSec < tv2.tvSec then -1
  else if tv1.tvSec > tv2.tvSec then 1
  else if tv1.tvNsec < tv2.tvNsec then -1
  else if tv1.tvNsec > tv2.tvNsec then 1
  else 0

/-- Add a number of microseconds. -/
def timeAddUsec (tv : Timespec) (usec : Nat) : Timespec :=
  let sec := tv.tvSec + usec / 1000000
  let nsec := tv.tvNsec + usec % 1000000 * 1000
  if h : nsec < 1000000000 then ⟨sec, nsec, h⟩
  else ⟨sec + 1, nsec - 1000000000, by
    have := tv.nsec_lt
    have := Nat.mod_lt usec (show 1000000 > 0 by decide)
    omega⟩

/-- `EventCallBack`: the handler of this file, which is static, and those of other files. -/
inductive Handler where
  | exitEventHandler
  | other (handler : Nat)
deriving DecidableEq

/-- `struct event_node`. `ev` is the number of the post, in place of the address;
`direct` records that `post_event` was called by the dispatch thread. -/
structure EventNode where
  ev      : Nat
  direct  : Bool
  runtime : Timespec
  handler : Handler
  arg     : Nat
deriving DecidableEq

/-- A delayed event, or one of another thread: neither a direct post nor `exit_event`. -/
def EventNode.timed (ev : EventNode) : Bool := !ev.direct && ev.handler ≠ .exitEventHandler

/-- The source's variables, the last clock value seen, and the histories of what was
posted, dispatched (with the time of the dispatch) and cancelled. -/
structure EventQueue where
  eventQueue      : List EventNode := []
  eventLast       : Option Nat := none
  timerQueue      : List EventNode := []
  cancelHandler   : Option (Handler × Nat) := none
  processEvents   : Bool := false
  /-- `exit_event` is not NULL. -/
  exitEvent       : Bool := true
  eventCnt        : Nat := 0
  lastTickCountMs : UInt32 := 0
  clock           : Timespec := .zero
  posted          : List EventNode := []
  dispatched      : List (EventNode × Timespec) := []
  cancelled       : List EventNode := []

/-- The search both kinds of delayed post make: behind all events due at the same time
or earlier. -/
def insertTimer (ev : EventNode) : List EventNode → List EventNode
  | [] => [ev]
  | next :: rest =>
    if 0 ≤ timeCmp ev.runtime next.runtime then next :: insertTimer ev rest
    else ev :: next :: rest

/-- `event_last->next = ev`: what follows the node `last` is now `ev` alone. `none` when
no node of the queue is at that address. -/
def linkAfter (last : Nat) (ev : EventNode) : List EventNode → Option (List EventNode)
  | [] => none
  | x :: rest =>
    if x.ev = last then some [x, ev] else (linkAfter last ev rest).map (x :: ·)

def postFromBgThread (s : EventQueue) (handler : Handler) (arg delay : Nat) (now : Timespec) :
    EventQueue :=
  let ev : EventNode :=
    { ev := s.posted.length, direct := false, runtime := timeAddUsec now delay, handler, arg }
  if s.cancelHandler = some (handler, arg) then
    { s with
      cancelHandler := none
      clock := now
      posted := s.posted ++ [ev]
      cancelled := s.cancelled ++ [ev] }
  else
    { s with
      timerQueue := insertTimer ev s.timerQueue
      clock := now
      posted := s.posted ++ [ev] }

/-- `post_event_with_delay`; `isEventThread` says which thread calls it. -/
def postEventWithDelay (s : EventQueue) (isEventThread : Bool) (handler : Handler)
    (arg delay : Nat) (now : Timespec) : EventQueue :=
  if isEventThread ∧ s.cancelHandler = none then
    let ev : EventNode :=
      { ev := s.posted.length, direct := false, runtime := timeAddUsec now delay, handler, arg }
    { s with
      timerQueue := insertTimer ev s.timerQueue
      clock := now
      posted := s.posted ++ [ev] }
  else postFromBgThread s handler arg delay now

def postEvent (s : EventQueue) (isEventThread : Bool) (handler : Handler) (arg : Nat)
    (now : Timespec) : Option EventQueue :=
  if isEventThread ∧ s.cancelHandler = none then
    let ev : EventNode :=
      { ev := s.posted.length, direct := true, runtime := .zero, handler, arg }
    let s' := { s with clock := now, posted := s.posted ++ [ev] }
    match s.eventQueue, s.eventLast with
    | [], none => some { s' with eventQueue := [ev], eventLast := some ev.ev }
    | q, some last => (linkAfter last ev q).map fun q' =>
        { s' with eventQueue := q', eventLast := some ev.ev }
    | _, none => none
  else some (postFromBgThread s handler arg 0 now)

/-- Walk a queue to the first event with this handler and argument: what precedes it,
the event, and what follows it. -/
def findEvent (handler : Handler) (arg : Nat) :
    List EventNode → Option (List EventNode × EventNode × List EventNode)
  | [] => none
  | x :: rest =>
    if x.handler = handler ∧ x.arg = arg then some ([], x, rest)
    else (findEvent handler arg rest).map fun (pre, ev, post) => (x :: pre, ev, post)

/-- `cancel_event`. With `wait` it blocks until another thread posts the event: that
thread then finds `cancel_handler` set. -/
def cancelEvent (s : EventQueue) (handler : Handler) (arg : Nat) (wait : Bool) :
    Option EventQueue :=
  if s.cancelHandler ≠ none then none
  else
    match findEvent handler arg s.eventQueue with
    | some (pre, ev, post) =>
      let s' := { s with eventQueue := pre ++ post, cancelled := s.cancelled ++ [ev] }
      if post = [] then
        if s.eventLast = some ev.ev then
          some { s' with eventLast := pre.getLast?.map EventNode.ev }
        else none
      else some s'
    | none =>
      match findEvent handler arg s.timerQueue with
      | some (pre, ev, post) =>
        some { s with timerQueue := pre ++ post, cancelled := s.cancelled ++ [ev] }
      | none => some (if wait then { s with cancelHandler := some (handler, arg) } else s)

/-- `exit_event_loop`: the node that was reserved for it, zeroed, goes to the head of the timers. -/
def exitEventLoop (s : EventQueue) : EventQueue :=
  if s.exitEvent then
    let ev : EventNode :=
      { ev := s.posted.length, direct := false, runtime := .zero, handler := .exitEventHandler,
        arg := 0 }
    { s with
      exitEvent := false
      timerQueue := ev :: s.timerQueue
      posted := s.posted ++ [ev] }
  else s

/-- `exit_event_handler`: it posts itself again until nothing is behind it. -/
def exitEventHandler (s : EventQueue) (now : Timespec) : Option EventQueue :=
  if s.eventQueue = [] then some { s with processEvents := false }
  else postEvent s true .exitEventHandler 0 now

/-- The part of a round under `event_lock`: move the timed events that are due to the
beginning of the untimed queue. -/
def moveReady (s : EventQueue) (now : Timespec) (ms : UInt32) : Option EventQueue :=
  let s := { s with eventCnt := 0, lastTickCountMs := ms }
  let isReady (ev : EventNode) : Bool := timeCmp ev.runtime now ≤ 0
  match (s.timerQueue.takeWhile isReady).getLast? with
  | none => some s
  | some evlast =>
    let s' := { s with
      timerQueue := s.timerQueue.dropWhile isReady
      eventQueue := s.timerQueue.takeWhile isReady ++ s.eventQueue }
    if s.eventQueue = [] then
      if s.eventLast = none then some { s' with eventLast := some evlast.ev } else none
    else some s'

/-- Call the handler of an event. What one of another file does are steps of their own. -/
def callHandler (s : EventQueue) (now : Timespec) : Handler → Option EventQueue
  | .exitEventHandler => exitEventHandler s now
  | .other _ => some s

/-- Take the first event off `event_queue` and call its handler. -/
def dispatch (s : EventQueue) (now : Timespec) : Option EventQueue :=
  match s.eventQueue with
  | [] => some s
  | ev :: rest =>
    let s' := { s with
      eventQueue := rest
      eventCnt := if ev.runtime.tvSec = 0 ∧ ev.runtime.tvNsec = 0 then s.eventCnt + 1
        else s.eventCnt
      dispatched := s.dispatched ++ [(ev, now)] }
    if rest = [] then
      if s.eventLast = some ev.ev then callHandler { s' with eventLast := none } now ev.handler
      else none
    else callHandler s' now ev.handler

/-- Whether a round looks at the timers; `ms` is the value of `events_timer_ms`. -/
def looksAtTimers (s : EventQueue) (ms : UInt32) : Prop :=
  s.eventQueue = [] ∨ 100 ≤ s.eventCnt ∨ (1 ≤ s.eventCnt ∧ 100 ≤ ms - s.lastTickCountMs)

instance (s : EventQueue) (ms : UInt32) : Decidable (looksAtTimers s ms) :=
  inferInstanceAs (Decidable (_ ∨ _ ∨ _))

/-- One round of `run_event_loop`. With nothing to dispatch it waits. -/
def runEventLoopRound (s : EventQueue) (now : Timespec) (ms : UInt32) : Option EventQueue :=
  let s := { s with clock := now }
  if looksAtTimers s ms then (moveReady s now ms).bind fun s' => dispatch s' now
  else dispatch s now

/-- Calls into the event queue, and a round of its loop. -/
inductive Event where
  | postEvent (isEventThread : Bool) (handler arg : Nat) (now : Timespec)
  | postEventWithDelay (isEventThread : Bool) (handler arg delay : Nat) (now : Timespec)
  | cancelEvent (handler arg : Nat) (wait : Bool)
  | exitEventLoop
  | cancelEventLoop
  /-- entry of `run_event_loop` -/
  | runEventLoop (ms : UInt32)
  | round (now : Timespec) (ms : UInt32)

def step (s : EventQueue) : Event → Option EventQueue
  | .postEvent isEventThread handler arg now => postEvent s isEventThread (.other handler) arg now
  | .postEventWithDelay isEventThread handler arg delay now =>
    some (postEventWithDelay s isEventThread (.other handler) arg delay now)
  | .cancelEvent handler arg wait => cancelEvent s (.other handler) arg wait
  | .exitEventLoop => some (exitEventLoop s)
  | .cancelEventLoop => some { s with processEvents := false }
  | .runEventLoop ms => some { s with processEvents := true, eventCnt := 0, lastTickCountMs := ms }
  | .round now ms => runEventLoopRound s now ms

def init : EventQueue := {}

/-! ## Time -/

theorem timeCmp_nonpos (tv1 tv2 : Timespec) : timeCmp tv1 tv2 ≤ 0 ↔ tv1.ns ≤ tv2.ns := by
  have h1 := tv1.nsec_lt
  have h2 := tv2.nsec_lt
  unfold timeCmp Timespec.ns
  split_ifs <;> omega

theorem timeCmp_nonneg (tv1 tv2 : Timespec) : 0 ≤ timeCmp tv1 tv2 ↔ tv2.ns ≤ tv1.ns := by
  have h1 := tv1.nsec_lt
  have h2 := tv2.nsec_lt
  unfold timeCmp Timespec.ns
  split_ifs <;> omega

theorem ns_timeAddUsec (tv : Timespec) (usec : Nat) :
    (timeAddUsec tv usec).ns = tv.ns + 1000 * usec := by
  unfold timeAddUsec Timespec.ns
  simp only
  split
  · simp only
    omega
  · simp only
    omega

@[simp] theorem ns_zero : Timespec.zero.ns = 0 := rfl

/-- The test that `run_event_loop` makes for an untimed event. -/
theorem ns_eq_zero_iff (tv : Timespec) : tv.tvSec = 0 ∧ tv.tvNsec = 0 ↔ tv.ns = 0 := by
  unfold Timespec.ns
  omega

/-! ## The queues as lists -/

theorem insertTimer_perm (ev : EventNode) (q : List EventNode) :
    (insertTimer ev q).Perm (ev :: q) := by
  induction q with
  | nil => exact List.Perm.refl _
  | cons next rest ih =>
    rw [insertTimer]
    split
    · exact (ih.cons next).trans (List.Perm.swap ev next rest)
    · exact List.Perm.refl _

/-- Earlier runtime first, ties in posting order. -/
def Before (a b : EventNode) : Prop :=
  a.runtime.ns < b.runtime.ns ∨ (a.runtime.ns = b.runtime.ns ∧ a.ev < b.ev)

variable {ev : EventNode}

/-- A direct post is no delayed event. -/
theorem timed_of_direct (h : ev.direct = true) : ev.timed = false := by simp [EventNode.timed, h]

theorem direct_of_timed (h : ev.timed = true) : ev.direct = false := by
  cases hDirect : ev.direct with
  | false => rfl
  | true => exact absurd (h.symm.trans (timed_of_direct hDirect)) (by simp)

/-- The newest event goes behind its ties, so a sorted queue stays sorted. -/
theorem insertTimer_sorted {q : List EventNode} (hSorted : q.Pairwise Before)
    (hNew : ∀ x ∈ q, x.ev < ev.ev) : (insertTimer ev q).Pairwise Before := by
  induction q with
  | nil => exact List.pairwise_singleton _ _
  | cons next rest ih =>
    obtain ⟨hNext, hRest⟩ := List.pairwise_cons.mp hSorted
    have hNewer : next.ev < ev.ev := hNew next (List.mem_cons_self ..)
    rw [insertTimer]
    split
    · rename_i hCmp
      rw [timeCmp_nonneg] at hCmp
      refine List.pairwise_cons.mpr
        ⟨fun x hx => ?_, ih hRest fun x hx => hNew x (List.mem_cons_of_mem _ hx)⟩
      rcases List.mem_cons.mp ((insertTimer_perm ev rest).mem_iff.mp hx) with rfl | hx
      · unfold Before
        omega
      · exact hNext x hx
    · rename_i hCmp
      rw [timeCmp_nonneg] at hCmp
      refine List.pairwise_cons.mpr ⟨fun x hx => ?_, hSorted⟩
      rcases List.mem_cons.mp hx with rfl | hx
      · exact Or.inl (by omega)
      · have := hNext x hx
        unfold Before at this ⊢
        omega

/-- What is no delayed event in the timer queue is due at once: the search passes it. -/
theorem filter_insertTimer {q : List EventNode} (hTimed : ev.timed = true)
    (hExit : ∀ x ∈ q, x.timed = false → x.runtime.ns = 0) :
    (insertTimer ev q).filter EventNode.timed = insertTimer ev (q.filter EventNode.timed) := by
  induction q with
  | nil => simp [insertTimer, hTimed]
  | cons next rest ih =>
    have hRest := ih fun x hx => hExit x (List.mem_cons_of_mem _ hx)
    cases hNext : next.timed with
    | true =>
      rw [List.filter_cons_of_pos hNext, insertTimer, insertTimer]
      split
      · rw [List.filter_cons_of_pos hNext, hRest]
      · rw [List.filter_cons_of_pos hTimed, List.filter_cons_of_pos hNext]
    | false =>
      have hPass : 0 ≤ timeCmp ev.runtime next.runtime := by
        rw [timeCmp_nonneg, hExit next (List.mem_cons_self ..) hNext]
        exact Nat.zero_le _
      rw [insertTimer, if_pos hPass, List.filter_cons_of_neg (by simp [hNext]),
        List.filter_cons_of_neg (by simp [hNext]), hRest]

/-- Linking behind the last node appends, provided no other node has its address. -/
theorem linkAfter_getLast {q : List EventNode} {last : EventNode} (hLast : q.getLast? = some last)
    (hNodup : (q.map EventNode.ev).Nodup) (ev : EventNode) :
    linkAfter last.ev ev q = some (q ++ [ev]) := by
  induction q with
  | nil => simp at hLast
  | cons x rest ih =>
    rw [List.map_cons, List.nodup_cons] at hNodup
    cases rest with
    | nil =>
      simp only [List.getLast?_singleton, Option.some.injEq] at hLast
      simp [linkAfter, hLast]
    | cons y rest =>
      rw [List.getLast?_cons_cons] at hLast
      have hNe : x.ev ≠ last.ev := by
        intro hEq
        apply hNodup.1
        rw [hEq]
        exact List.mem_map_of_mem (List.mem_of_getLast? hLast)
      rw [linkAfter, if_neg hNe, ih hLast hNodup.2]
      rfl

theorem findEvent_eq {handler : Handler} {arg : Nat} {q pre post : List EventNode}
    (h : findEvent handler arg q = some (pre, ev, post)) : q = pre ++ ev :: post := by
  induction q generalizing pre with
  | nil => simp [findEvent] at h
  | cons x rest ih =>
    rw [findEvent] at h
    split at h
    · cases h
      rfl
    · obtain ⟨⟨p, e, r⟩, hFound, hEq⟩ := Option.map_eq_some_iff.mp h
      cases hEq
      rw [ih hFound]
      rfl

theorem getLast?_pre_ev (pre post : List EventNode) (ev : EventNode) :
    (pre ++ ev :: post).getLast? = if post = [] then some ev else post.getLast? := by
  rw [List.getLast?_append]
  cases post with
  | nil => simp
  | cons p post =>
    rw [List.getLast?_cons_cons]
    obtain ⟨l, hl⟩ := Option.ne_none_iff_exists'.mp
      (show (p :: post).getLast? ≠ none by simp)
    simp [hl]

/-! ## The invariant of all runs -/

/-- The nodes that left the queues through the loop, in that order. -/
def EventQueue.done (s : EventQueue) : List EventNode := s.dispatched.map Prod.fst

/--
Invariant that needs nothing but a clock that does not go back: every post is in
exactly one of four places, `event_last` is right, direct posts are in posting order,
and nothing that is due later than now has left the timer queue.
-/
structure Inv (s : EventQueue) : Prop where
  last        : s.eventLast = s.eventQueue.getLast?.map EventNode.ev
  perm        : (s.done ++ s.cancelled ++ (s.eventQueue ++ s.timerQueue)).Perm s.posted
  numbered    : s.posted.map EventNode.ev = List.range s.posted.length
  directOrder : ((s.done ++ s.eventQueue).filter EventNode.direct).Pairwise
                  fun a b => a.ev < b.ev
  timers      : ∀ x ∈ s.timerQueue, x.direct = false ∧ (x.timed = false → x.runtime.ns = 0)
  due         : ∀ x ∈ s.eventQueue, x.runtime.ns ≤ s.clock.ns
  notEarly    : ∀ d ∈ s.dispatched, d.1.runtime.ns ≤ d.2.ns ∧ d.2.ns ≤ s.clock.ns

namespace Inv

variable {s : EventQueue}

theorem mem_posted (h : Inv s) {x : EventNode}
    (hx : x ∈ s.done ++ s.cancelled ++ (s.eventQueue ++ s.timerQueue)) : x ∈ s.posted :=
  h.perm.mem_iff.mp hx

theorem ev_lt (h : Inv s) {x : EventNode} (hx : x ∈ s.posted) : x.ev < s.posted.length := by
  have hMem := List.mem_map_of_mem (f := EventNode.ev) hx
  rwa [h.numbered, List.mem_range] at hMem

theorem nodup (h : Inv s) : (s.eventQueue.map EventNode.ev).Nodup := by
  have hPosted : (s.posted.map EventNode.ev).Nodup := by
    rw [h.numbered]
    exact List.nodup_range
  have hAll := (h.perm.map EventNode.ev).nodup_iff.mpr hPosted
  refine hAll.sublist (List.Sublist.map _ ?_)
  exact (List.sublist_append_left _ _).trans (List.sublist_append_right _ _)

/-- A post adds its node to `posted` and to one of the four places. -/
theorem numbered_concat (h : Inv s) (hEv : ev.ev = s.posted.length) :
    (s.posted ++ [ev]).map EventNode.ev = List.range (s.posted ++ [ev]).length := by
  rw [List.map_append, h.numbered, List.length_append, List.length_singleton, List.range_succ,
    List.map_singleton, hEv]

end Inv

theorem inv_init : Inv init :=
  ⟨rfl, List.Perm.refl _, rfl, List.Pairwise.nil, by simp [init], by simp [init], by simp [init]⟩

/-! ## Posts -/

/-- The node of a delayed post. -/
def timedNode (s : EventQueue) (handler : Handler) (arg delay : Nat) (now : Timespec) : EventNode :=
  { ev := s.posted.length, direct := false, runtime := timeAddUsec now delay, handler, arg }

/-- The node of a direct post. -/
def directNode (s : EventQueue) (handler : Handler) (arg : Nat) : EventNode :=
  { ev := s.posted.length, direct := true, runtime := .zero, handler, arg }

/-- The node that `exit_event_loop` links in. -/
def exitNode (s : EventQueue) : EventNode :=
  { ev := s.posted.length, direct := false, runtime := .zero,
    handler := .exitEventHandler, arg := 0 }

/-- A node put into the timer queue. -/
def pushTimer (s : EventQueue) (ev : EventNode) (now : Timespec) : EventQueue :=
  { s with
    timerQueue := insertTimer ev s.timerQueue
    clock := now
    posted := s.posted ++ [ev] }

/-- A node that another thread posts to the waiting `cancel_event`. -/
def absorb (s : EventQueue) (ev : EventNode) (now : Timespec) : EventQueue :=
  { s with
    cancelHandler := none
    clock := now
    posted := s.posted ++ [ev]
    cancelled := s.cancelled ++ [ev] }

/-- A node put at the end of the untimed queue. -/
def pushEvent (s : EventQueue) (ev : EventNode) (now : Timespec) : EventQueue :=
  { s with
    eventQueue := s.eventQueue ++ [ev]
    eventLast := some ev.ev
    clock := now
    posted := s.posted ++ [ev] }

theorem postFromBgThread_cases (s : EventQueue) (handler : Handler) (arg delay : Nat)
    (now : Timespec) :
    postFromBgThread s handler arg delay now =
        pushTimer s (timedNode s handler arg delay now) now ∨
      postFromBgThread s handler arg delay now =
        absorb s (timedNode s handler arg delay now) now := by
  unfold postFromBgThread
  split
  · exact Or.inr rfl
  · exact Or.inl rfl

theorem postEventWithDelay_cases (s : EventQueue) (b : Bool) (handler : Handler)
    (arg delay : Nat) (now : Timespec) :
    postEventWithDelay s b handler arg delay now =
        pushTimer s (timedNode s handler arg delay now) now ∨
      postEventWithDelay s b handler arg delay now =
        absorb s (timedNode s handler arg delay now) now := by
  unfold postEventWithDelay
  split
  · exact Or.inl rfl
  · exact postFromBgThread_cases s handler arg delay now

variable {s : EventQueue}

/-- A direct post goes to the end of the queue: `event_last` is its last node. -/
theorem postEvent_direct (h : Inv s) (hFree : s.cancelHandler = none) (handler : Handler)
    (arg : Nat) (now : Timespec) :
    postEvent s true handler arg now = some (pushEvent s (directNode s handler arg) now) := by
  unfold postEvent
  rw [if_pos ⟨rfl, hFree⟩]
  cases hq : s.eventQueue.getLast? with
  | none =>
    have hNil : s.eventQueue = [] := List.getLast?_eq_none_iff.mp hq
    have hLast := h.last
    rw [hq] at hLast
    simp [hNil, hLast, pushEvent, directNode]
  | some last =>
    have hLast := h.last
    rw [hq] at hLast
    have hLink := linkAfter_getLast hq h.nodup (directNode s handler arg)
    simp only [hLast, Option.map_some]
    unfold directNode at hLink
    simp [hLink, pushEvent, directNode]

theorem postEvent_cases (h : Inv s) (b : Bool) (handler : Handler) (arg : Nat)
    (now : Timespec) :
    postEvent s b handler arg now = some (pushEvent s (directNode s handler arg) now) ∨
      postEvent s b handler arg now = some (pushTimer s (timedNode s handler arg 0 now) now) ∨
      postEvent s b handler arg now = some (absorb s (timedNode s handler arg 0 now) now) := by
  by_cases hDirect : b ∧ s.cancelHandler = none
  · obtain ⟨rfl, hFree⟩ := hDirect
    exact Or.inl (postEvent_direct h hFree handler arg now)
  · right
    unfold postEvent
    rw [if_neg hDirect]
    rcases postFromBgThread_cases s handler arg 0 now with hEq | hEq
    · exact Or.inl (congrArg some hEq)
    · exact Or.inr (congrArg some hEq)

theorem Inv.pushTimer (h : Inv s) {now : Timespec}
    (hNow : s.clock.ns ≤ now.ns) (hEv : ev.ev = s.posted.length) (hTimed : ev.timed = true) :
    Inv (pushTimer s ev now) where
  last := h.last
  perm := by
    refine List.Perm.trans ?_ (h.perm.append_right [ev])
    rw [List.append_assoc (s.done ++ s.cancelled), List.append_assoc s.eventQueue]
    refine List.Perm.append_left _ (List.Perm.append_left _ ?_)
    exact (insertTimer_perm ev s.timerQueue).trans (List.perm_append_singleton _ _).symm
  numbered := h.numbered_concat hEv
  directOrder := h.directOrder
  timers x hx := by
    rcases List.mem_cons.mp ((insertTimer_perm ev s.timerQueue).mem_iff.mp hx) with rfl | hx
    · exact ⟨direct_of_timed hTimed, fun hNot => absurd (hTimed.symm.trans hNot) (by simp)⟩
    · exact h.timers x hx
  due x hx := (h.due x hx).trans hNow
  notEarly d hd := ⟨(h.notEarly d hd).1, (h.notEarly d hd).2.trans hNow⟩

theorem Inv.absorb (h : Inv s) {now : Timespec}
    (hNow : s.clock.ns ≤ now.ns) (hEv : ev.ev = s.posted.length) : Inv (absorb s ev now) where
  last := h.last
  perm := by
    refine List.Perm.trans ?_ (h.perm.append_right [ev])
    show (s.done ++ (s.cancelled ++ [ev]) ++ (s.eventQueue ++ s.timerQueue)).Perm _
    rw [← List.append_assoc s.done, List.append_assoc (s.done ++ s.cancelled),
      List.append_assoc (s.done ++ s.cancelled)]
    exact List.Perm.append_left _ List.perm_append_comm
  numbered := h.numbered_concat hEv
  directOrder := h.directOrder
  timers := h.timers
  due x hx := (h.due x hx).trans hNow
  notEarly d hd := ⟨(h.notEarly d hd).1, (h.notEarly d hd).2.trans hNow⟩

theorem Inv.pushEvent (h : Inv s) {now : Timespec}
    (hNow : s.clock.ns ≤ now.ns) (hEv : ev.ev = s.posted.length)
    (hZero : ev.runtime = .zero) : Inv (pushEvent s ev now) where
  last := by simp [Events.pushEvent]
  perm := by
    refine List.Perm.trans ?_ (h.perm.append_right [ev])
    rw [List.append_assoc (s.done ++ s.cancelled), List.append_assoc s.eventQueue]
    refine List.Perm.append_left _ ?_
    rw [Events.pushEvent, List.append_assoc]
    exact List.Perm.append_left _ List.perm_append_comm
  numbered := h.numbered_concat hEv
  directOrder := by
    show ((s.done ++ (s.eventQueue ++ [ev])).filter EventNode.direct).Pairwise _
    rw [← List.append_assoc, List.filter_append, List.pairwise_append]
    refine ⟨h.directOrder, List.Pairwise.sublist List.filter_sublist (List.pairwise_singleton _ _),
      ?_⟩
    intro x hx y hy
    have hy' : y = ev := List.mem_singleton.mp (List.mem_of_mem_filter hy)
    rw [hy', hEv]
    refine h.ev_lt (h.mem_posted ?_)
    rcases List.mem_append.mp (List.mem_of_mem_filter hx) with hx | hx <;> simp [hx]
  timers := h.timers
  due x hx := by
    rcases List.mem_append.mp hx with hx | hx
    · exact (h.due x hx).trans hNow
    · rw [List.mem_singleton.mp hx, hZero]
      exact Nat.zero_le _
  notEarly d hd := ⟨(h.notEarly d hd).1, (h.notEarly d hd).2.trans hNow⟩

/-- The node of `exit_event_loop` is due before all others. -/
theorem Inv.exitEventLoop (h : Inv s) : Inv (exitEventLoop s) := by
  unfold Events.exitEventLoop
  split
  · exact { h with
      perm := by
        refine List.Perm.trans ?_ (h.perm.append_right [exitNode s])
        rw [List.append_assoc (s.done ++ s.cancelled), List.append_assoc s.eventQueue]
        refine List.Perm.append_left _ (List.Perm.append_left _ ?_)
        exact (List.perm_append_singleton (exitNode s) s.timerQueue).symm
      numbered := h.numbered_concat rfl
      timers := fun x hx => by
        rcases List.mem_cons.mp hx with rfl | hx
        · exact ⟨rfl, fun _ => ns_zero⟩
        · exact h.timers x hx }
  · exact h

/-! ## Cancellation -/

/-- What `cancel_event` does when nothing is being waited for. -/
theorem cancelEvent_cases (h : Inv s) (hFree : s.cancelHandler = none)
    (handler : Handler) (arg : Nat) (wait : Bool) :
    (∃ pre ev post, s.eventQueue = pre ++ ev :: post ∧
      cancelEvent s handler arg wait = some { s with
        eventQueue := pre ++ post
        eventLast := (pre ++ post).getLast?.map EventNode.ev
        cancelled := s.cancelled ++ [ev] }) ∨
    (∃ pre ev post, s.timerQueue = pre ++ ev :: post ∧
      cancelEvent s handler arg wait = some { s with
        timerQueue := pre ++ post
        cancelled := s.cancelled ++ [ev] }) ∨
    (∃ waiting, cancelEvent s handler arg wait = some { s with cancelHandler := waiting }) := by
  unfold cancelEvent
  rw [if_neg (not_not.mpr hFree)]
  cases hEv : findEvent handler arg s.eventQueue with
  | some found =>
    obtain ⟨pre, ev, post⟩ := found
    have hEq := findEvent_eq hEv
    refine Or.inl ⟨pre, ev, post, hEq, ?_⟩
    have hLast := h.last
    rw [hEq, getLast?_pre_ev] at hLast
    by_cases hPost : post = []
    · rw [if_pos hPost] at hLast
      simp [hPost, hLast]
    · obtain ⟨l, hl⟩ := Option.ne_none_iff_exists'.mp
        (show post.getLast? ≠ none by simpa using hPost)
      rw [if_neg hPost] at hLast
      simp [hPost, hLast, List.getLast?_append, hl]
  | none =>
    cases hTimer : findEvent handler arg s.timerQueue with
    | some found =>
      obtain ⟨pre, ev, post⟩ := found
      exact Or.inr (Or.inl ⟨pre, ev, post, findEvent_eq hTimer, rfl⟩)
    | none =>
      refine Or.inr (Or.inr ?_)
      cases wait with
      | true => exact ⟨some (handler, arg), rfl⟩
      | false => exact ⟨none, by rw [← hFree]; rfl⟩

theorem sublist_pre_post (pre post : List EventNode) (ev : EventNode) :
    (pre ++ post).Sublist (pre ++ ev :: post) :=
  (List.sublist_cons_self ev post).append_left pre

theorem perm_pre_post (pre post : List EventNode) (ev : EventNode) :
    (ev :: (pre ++ post)).Perm (pre ++ ev :: post) :=
  List.perm_middle.symm

variable {pre post : List EventNode}

theorem Inv.cancelQueued (h : Inv s)
    (hq : s.eventQueue = pre ++ ev :: post) :
    Inv { s with
      eventQueue := pre ++ post
      eventLast := (pre ++ post).getLast?.map EventNode.ev
      cancelled := s.cancelled ++ [ev] } where
  last := rfl
  perm := by
    refine List.Perm.trans ?_ h.perm
    show (s.done ++ (s.cancelled ++ [ev]) ++ (pre ++ post ++ s.timerQueue)).Perm _
    rw [← List.append_assoc s.done, List.append_assoc (s.done ++ s.cancelled), hq]
    refine List.Perm.append_left _ ?_
    rw [← List.append_assoc [ev]]
    exact (perm_pre_post pre post ev).append_right _
  numbered := h.numbered
  directOrder := h.directOrder.sublist
    (((hq ▸ sublist_pre_post pre post ev).append_left _).filter _)
  timers := h.timers
  due x hx := h.due x (hq ▸ (sublist_pre_post pre post ev).subset hx)
  notEarly := h.notEarly

theorem Inv.cancelTimer (h : Inv s)
    (hq : s.timerQueue = pre ++ ev :: post) :
    Inv { s with timerQueue := pre ++ post, cancelled := s.cancelled ++ [ev] } where
  last := h.last
  perm := by
    refine List.Perm.trans ?_ h.perm
    show (s.done ++ (s.cancelled ++ [ev]) ++ (s.eventQueue ++ (pre ++ post))).Perm _
    rw [← List.append_assoc s.done, List.append_assoc (s.done ++ s.cancelled), hq]
    refine List.Perm.append_left _ ?_
    have hMiddle : (ev :: (s.eventQueue ++ (pre ++ post))).Perm
        (s.eventQueue ++ ev :: (pre ++ post)) := List.perm_middle.symm
    exact hMiddle.trans (List.Perm.append_left s.eventQueue (perm_pre_post pre post ev))
  numbered := h.numbered
  directOrder := h.directOrder
  timers x hx := h.timers x (hq ▸ (sublist_pre_post pre post ev).subset hx)
  due := h.due
  notEarly := h.notEarly

/-! ## The rounds of the loop -/

/-- The test of `run_event_loop` for a timed event that is due. -/
def isReady (now : Timespec) (ev : EventNode) : Bool := timeCmp ev.runtime now ≤ 0

theorem le_of_isReady {now : Timespec} (h : isReady now ev = true) :
    ev.runtime.ns ≤ now.ns := by
  rwa [isReady, decide_eq_true_eq, timeCmp_nonpos] at h

/-- The state after the locked part of a round. -/
def spliced (s : EventQueue) (now : Timespec) (ms : UInt32) : EventQueue :=
  { s with
    eventCnt := 0
    lastTickCountMs := ms
    timerQueue := s.timerQueue.dropWhile (isReady now)
    eventQueue := s.timerQueue.takeWhile (isReady now) ++ s.eventQueue
    eventLast :=
      (s.timerQueue.takeWhile (isReady now) ++ s.eventQueue).getLast?.map EventNode.ev }

theorem moveReady_eq (h : Inv s) (now : Timespec) (ms : UInt32) :
    moveReady s now ms = some (spliced s now ms) := by
  have hLast := h.last
  unfold moveReady spliced
  simp only
  change (match (s.timerQueue.takeWhile (isReady now)).getLast? with
    | none => _
    | some evlast => _) = _
  cases hReady : (s.timerQueue.takeWhile (isReady now)).getLast? with
  | none =>
    have hNil := List.getLast?_eq_none_iff.mp hReady
    have hAll : s.timerQueue.dropWhile (isReady now) = s.timerQueue := by
      have := List.takeWhile_append_dropWhile (p := isReady now) (l := s.timerQueue)
      rwa [hNil, List.nil_append] at this
    simp [hNil, hAll, ← hLast]
  | some evlast =>
    by_cases hq : s.eventQueue = []
    · rw [hq] at hLast
      simp only [hq, if_true, List.append_nil, hReady, Option.map_some]
      rw [if_pos (by simpa using hLast)]
      rfl
    · obtain ⟨l, hl⟩ := Option.ne_none_iff_exists'.mp
        (show s.eventQueue.getLast? ≠ none by simpa using hq)
      rw [hl] at hLast
      simp only [hq, if_false, List.getLast?_append, hl, Option.some_or, Option.map_some]
      simp only [Option.map_some] at hLast
      rw [← hLast]
      rfl

theorem Inv.spliced (h : Inv s) {now : Timespec} (hNow : now = s.clock)
    (ms : UInt32) : Inv (spliced s now ms) where
  last := rfl
  perm := by
    refine List.Perm.trans (List.Perm.append_left _ ?_) h.perm
    show (s.timerQueue.takeWhile (isReady now) ++ s.eventQueue ++
      s.timerQueue.dropWhile (isReady now)).Perm _
    conv_rhs => rw [← List.takeWhile_append_dropWhile (p := isReady now) (l := s.timerQueue)]
    rw [← List.append_assoc]
    exact List.perm_append_comm.append_right _
  numbered := h.numbered
  directOrder := by
    have hNone : (s.timerQueue.takeWhile (isReady now)).filter EventNode.direct = [] := by
      rw [List.filter_eq_nil_iff]
      intro x hx
      simp [(h.timers x (List.takeWhile_subset _ hx)).1]
    have hOld := h.directOrder
    show ((s.done ++ (s.timerQueue.takeWhile (isReady now) ++ s.eventQueue)).filter
      EventNode.direct).Pairwise _
    rwa [List.filter_append, List.filter_append, hNone, List.nil_append, ← List.filter_append]
  timers x hx := h.timers x (List.dropWhile_subset _ hx)
  due x hx := by
    rcases List.mem_append.mp hx with hx | hx
    · rw [hNow] at hx
      exact le_of_isReady (List.mem_takeWhile_imp hx)
    · exact h.due x hx
  notEarly := h.notEarly

/-- The state after the first event was taken off the queue. -/
def popped (s : EventQueue) (ev : EventNode) (rest : List EventNode) (now : Timespec) :
    EventQueue :=
  { s with
    eventQueue := rest
    eventLast := rest.getLast?.map EventNode.ev
    eventCnt := if ev.runtime.tvSec = 0 ∧ ev.runtime.tvNsec = 0 then s.eventCnt + 1 else s.eventCnt
    dispatched := s.dispatched ++ [(ev, now)] }

variable {rest : List EventNode}

theorem dispatch_eq (h : Inv s)
    (hq : s.eventQueue = ev :: rest) (now : Timespec) :
    dispatch s now = callHandler (popped s ev rest now) now ev.handler := by
  have hLast := h.last
  unfold dispatch popped
  rw [hq] at hLast ⊢
  cases rest with
  | nil => simp [hLast]
  | cons x rest =>
    rw [List.getLast?_cons_cons] at hLast
    simp [← hLast]

theorem Inv.popped (h : Inv s)
    (hq : s.eventQueue = ev :: rest) {now : Timespec} (hNow : now = s.clock) :
    Inv (popped s ev rest now) where
  last := rfl
  perm := by
    refine List.Perm.trans ?_ h.perm
    show ((s.dispatched ++ [(ev, now)]).map Prod.fst ++ s.cancelled ++
      (rest ++ s.timerQueue)).Perm _
    rw [hq, List.map_append, List.map_singleton, EventQueue.done, List.append_assoc,
      List.append_assoc, List.append_assoc]
    refine List.Perm.append_left _ ?_
    rw [List.singleton_append, List.cons_append]
    exact List.perm_middle.symm
  numbered := h.numbered
  directOrder := by
    have hOld := h.directOrder
    rw [hq] at hOld
    simpa [EventQueue.done, Events.popped, List.append_assoc] using hOld
  timers := h.timers
  due x hx := h.due x (hq ▸ List.mem_cons_of_mem _ hx)
  notEarly d hd := by
    rcases List.mem_append.mp hd with hd | hd
    · exact h.notEarly d hd
    · rw [List.mem_singleton.mp hd]
      simp only [hNow]
      exact ⟨h.due ev (hq ▸ List.mem_cons_self ..), Nat.le_refl _⟩

/-! ## The order of the timed events -/

/-- The delayed events that are still in a queue or came off one, in order. -/
def EventQueue.timed (s : EventQueue) : List EventNode :=
  (s.done ++ s.eventQueue ++ s.timerQueue).filter EventNode.timed

/--
Delayed events are moved to `event_queue` in batches. No batch is moved before the previous
one has been dispatched, as long as none but direct posts are counted while one is there.
-/
structure TimedOrder (s : EventQueue) : Prop where
  sorted : s.timed.Pairwise Before
  front  : s.eventQueue.Pairwise fun a b => a.direct = true → b.timed = false
  batch  : s.eventCnt ≠ 0 → ∀ x ∈ s.eventQueue, x.timed = false

theorem timedOrder_init : TimedOrder init := ⟨List.Pairwise.nil, List.Pairwise.nil, by simp [init]⟩


namespace TimedOrder

variable {s : EventQueue}

/-- A new timed event is due no earlier than any that left the timer queue. -/
theorem pushTimer (h : TimedOrder s) (hInv : Inv s) {now : Timespec}
    (hNow : s.clock.ns ≤ now.ns) (hEv : ev.ev = s.posted.length) (hTimed : ev.timed = true)
    (hRuntime : now.ns ≤ ev.runtime.ns) : TimedOrder (pushTimer s ev now) where
  sorted := by
    have hOld := h.sorted
    rw [EventQueue.timed, List.filter_append, List.pairwise_append] at hOld
    obtain ⟨hGone, hTimers, hAcross⟩ := hOld
    have hNewest : ∀ x ∈ s.posted, x.ev < ev.ev := fun x hx => hEv ▸ hInv.ev_lt hx
    show ((s.done ++ s.eventQueue ++ insertTimer ev s.timerQueue).filter _).Pairwise Before
    rw [List.filter_append, filter_insertTimer hTimed fun x hx => (hInv.timers x hx).2,
      List.pairwise_append]
    refine ⟨hGone, insertTimer_sorted hTimers fun x hx =>
      hNewest x (hInv.mem_posted (by simp [List.mem_of_mem_filter hx])), fun a ha b hb => ?_⟩
    rcases List.mem_cons.mp ((insertTimer_perm ev _).mem_iff.mp hb) with rfl | hb
    · have haMem := List.mem_of_mem_filter ha
      -- what left the timer queue was due by the clock of that time
      have haDue : a.runtime.ns ≤ s.clock.ns := by
        rcases List.mem_append.mp haMem with haMem | haMem
        · obtain ⟨d, hd, rfl⟩ := List.mem_map.mp haMem
          exact (hInv.notEarly d hd).1.trans (hInv.notEarly d hd).2
        · exact hInv.due a haMem
      have haEv : a.ev < b.ev := by
        refine hNewest a (hInv.mem_posted ?_)
        rcases List.mem_append.mp haMem with haMem | haMem <;> simp [haMem]
      unfold Before
      omega
    · exact hAcross a ha b hb
  front := h.front
  batch := h.batch

theorem absorb (h : TimedOrder s) (ev : EventNode) (now : Timespec) :
    TimedOrder (absorb s ev now) := ⟨h.sorted, h.front, h.batch⟩

theorem pushEvent (h : TimedOrder s) (hDirect : ev.direct = true) (now : Timespec) :
    TimedOrder (pushEvent s ev now) where
  sorted := by
    have hOld := h.sorted
    show ((s.done ++ (s.eventQueue ++ [ev]) ++ s.timerQueue).filter _).Pairwise Before
    rw [EventQueue.timed] at hOld
    simpa [List.filter_append, timed_of_direct hDirect] using hOld
  front := by
    refine List.pairwise_append.mpr ⟨h.front, List.pairwise_singleton _ _, ?_⟩
    intro a _ b hb _
    rw [List.mem_singleton.mp hb]
    exact timed_of_direct hDirect
  batch hCnt x hx := by
    rcases List.mem_append.mp hx with hx | hx
    · exact h.batch hCnt x hx
    · rw [List.mem_singleton.mp hx]
      exact timed_of_direct hDirect

theorem exitEventLoop (h : TimedOrder s) : TimedOrder (exitEventLoop s) := by
  unfold Events.exitEventLoop
  split
  · have hOld := h.sorted
    have hSorted : ((s.done ++ s.eventQueue ++ exitNode s :: s.timerQueue).filter
        EventNode.timed).Pairwise Before := by
      rw [EventQueue.timed, List.filter_append] at hOld
      rwa [List.filter_append, List.filter_cons_of_neg (by simp [EventNode.timed, exitNode])]
    exact ⟨hSorted, h.front, h.batch⟩
  · exact h

theorem cancelQueued (h : TimedOrder s) (hq : s.eventQueue = pre ++ ev :: post)
    {last : Option Nat} {cancelled : List EventNode} :
    TimedOrder { s with
      eventQueue := pre ++ post, eventLast := last, cancelled := cancelled } where
  sorted := by
    refine h.sorted.sublist (List.Sublist.filter _ (List.Sublist.append_right ?_ _))
    exact (hq ▸ sublist_pre_post pre post ev).append_left _
  front := h.front.sublist (hq ▸ sublist_pre_post pre post ev)
  batch hCnt x hx := h.batch hCnt x (hq ▸ (sublist_pre_post pre post ev).subset hx)

theorem cancelTimer (h : TimedOrder s) (hq : s.timerQueue = pre ++ ev :: post)
    {cancelled : List EventNode} :
    TimedOrder { s with timerQueue := pre ++ post, cancelled := cancelled } where
  sorted := by
    refine h.sorted.sublist (List.Sublist.filter _ (List.Sublist.append_left ?_ _))
    exact hq ▸ sublist_pre_post pre post ev
  front := h.front
  batch := h.batch

/-- A round that looks at the timers finds no delayed event left in `event_queue`. -/
theorem timed_of_looksAtTimers (h : TimedOrder s) {ms : UInt32} (hLook : looksAtTimers s ms) :
    ∀ x ∈ s.eventQueue, x.timed = false := by
  rcases hLook with hNil | hCnt | ⟨hCnt, -⟩
  · simp [hNil]
  · exact h.batch (by omega)
  · exact h.batch (by omega)

theorem spliced (h : TimedOrder s) (hInv : Inv s) {now : Timespec} {ms : UInt32}
    (hNoTimed : ∀ x ∈ s.eventQueue, x.timed = false) : TimedOrder (spliced s now ms) where
  sorted := by
    have hNone : s.eventQueue.filter EventNode.timed = [] := by
      rw [List.filter_eq_nil_iff]
      intro x hx
      simp [hNoTimed x hx]
    have hOld := h.sorted
    show ((s.done ++ (s.timerQueue.takeWhile (isReady now) ++ s.eventQueue) ++
      s.timerQueue.dropWhile (isReady now)).filter _).Pairwise Before
    rw [EventQueue.timed, List.filter_append, List.filter_append, hNone] at hOld
    rw [List.filter_append, List.filter_append, List.filter_append, hNone, List.append_nil,
      List.append_assoc, ← List.filter_append, List.takeWhile_append_dropWhile]
    simpa using hOld
  front := by
    refine List.pairwise_append.mpr ⟨?_, h.front, fun _ _ b hb _ => hNoTimed b hb⟩
    refine List.pairwise_of_forall_mem_list fun a ha b _ haDirect => ?_
    rw [(hInv.timers a (List.takeWhile_subset _ ha)).1] at haDirect
    cases haDirect
  batch hCnt := absurd rfl hCnt

theorem popped (h : TimedOrder s) (hq : s.eventQueue = ev :: rest) (now : Timespec)
    (hCareful : ev.runtime.ns = 0 → ev.direct = false → ∀ x ∈ rest, x.timed = false) :
    TimedOrder (popped s ev rest now) where
  sorted := by
    have hOld := h.sorted
    rw [EventQueue.timed, hq] at hOld
    simpa [EventQueue.timed, EventQueue.done, Events.popped, List.append_assoc] using hOld
  front := by
    have hOld := h.front
    rw [hq] at hOld
    exact (List.pairwise_cons.mp hOld).2
  batch hCnt x hx := by
    have hFront := h.front
    rw [hq, List.pairwise_cons] at hFront
    by_cases hZero : ev.runtime.tvSec = 0 ∧ ev.runtime.tvNsec = 0
    · -- an event was counted: a direct post has no delayed event behind it
      cases hDirect : ev.direct with
      | true => exact hFront.1 x hx hDirect
      | false => exact hCareful ((ns_eq_zero_iff _).mp hZero) hDirect x hx
    · have hOld : s.eventCnt ≠ 0 := by
        simpa only [Events.popped, if_neg hZero] using hCnt
      exact h.batch hOld x (hq ▸ List.mem_cons_of_mem _ hx)

end TimedOrder

/-! ## Steps and runs -/

/-- The value of the clock while the step is taken, when the step looks at it. -/
def Event.now : Event → Option Timespec
  | .postEvent _ _ _ now => some now
  | .postEventWithDelay _ _ _ _ now => some now
  | .round now _ => some now
  | _ => none

/-- While the dispatch thread is blocked in `cancel_event`, only other threads act. -/
def fromOtherThread : Event → Prop
  | .postEvent isEventThread _ _ _ => isEventThread = false
  | .postEventWithDelay isEventThread _ _ _ _ => isEventThread = false
  | .exitEventLoop => True
  | _ => False

/-- The loop is not left. -/
def inLoop (s : EventQueue) : Event → Prop
  | .round _ _ => s.processEvents = true
  | _ => True

/-- The clock does not go back, a blocked thread takes no step, and there are rounds only
while the loop goes on. -/
@[mk_iff]
structure Possible (s : EventQueue) (e : Event) : Prop where
  clock   : ∀ now ∈ e.now, s.clock.ns ≤ now.ns
  blocked : s.cancelHandler ≠ none → fromOtherThread e
  loop    : inLoop s e

/-- `event_queue` at the moment at which a round takes an event off it. -/
def EventQueue.upNext (s : EventQueue) (now : Timespec) (ms : UInt32) : List EventNode :=
  if looksAtTimers s ms then s.timerQueue.takeWhile (isReady now) ++ s.eventQueue
  else s.eventQueue

/-- What comes off is no event of the timer queue with the runtime of an untimed one (the exit
event, or one that was posted without a delay while the clock read zero), or there is no
delayed event behind it. -/
def Careful (s : EventQueue) : Event → Prop
  | .round now ms => ∀ ev rest, s.upNext now ms = ev :: rest →
      ev.runtime.ns = 0 → ev.direct = false → ∀ x ∈ rest, x.timed = false
  | _ => True

/-- What is said of a step for one of the two invariants holds for both. -/
structure StepOk (s s' : EventQueue) (e : Event) : Prop where
  inv   : Inv s'
  order : TimedOrder s → Careful s e → TimedOrder s'

theorem Inv.clock (h : Inv s) {now : Timespec} (hNow : s.clock.ns ≤ now.ns) :
    Inv { s with clock := now } where
  last := h.last
  perm := h.perm
  numbered := h.numbered
  directOrder := h.directOrder
  timers := h.timers
  due x hx := (h.due x hx).trans hNow
  notEarly d hd := ⟨(h.notEarly d hd).1, (h.notEarly d hd).2.trans hNow⟩

theorem TimedOrder.of_eq {s s' : EventQueue} (h : TimedOrder s) (hTimed : s'.timed = s.timed)
    (hQueue : s'.eventQueue = s.eventQueue) (hCnt : s'.eventCnt ≠ 0 → s.eventCnt ≠ 0) :
    TimedOrder s' :=
  ⟨hTimed ▸ h.sorted, hQueue ▸ h.front, fun hne => hQueue ▸ h.batch (hCnt hne)⟩

theorem le_ns_timeAddUsec (now : Timespec) (delay : Nat) :
    now.ns ≤ (timeAddUsec now delay).ns := by
  rw [ns_timeAddUsec]
  omega

/-- Both ways in which a delayed post can end. -/
theorem stepOk_timed (h : Inv s) {e : Event} {now : Timespec}
    (hE : e.now = some now) (hPossible : Possible s e) (handler arg delay : Nat) :
    StepOk s (pushTimer s (timedNode s (.other handler) arg delay now) now) e ∧
      StepOk s (absorb s (timedNode s (.other handler) arg delay now) now) e := by
  have hNow : s.clock.ns ≤ now.ns := hPossible.clock now hE
  have hLe := le_ns_timeAddUsec now delay
  have hTimed : (timedNode s (.other handler) arg delay now).timed = true := by
    simp [timedNode, EventNode.timed]
  exact ⟨⟨h.pushTimer hNow rfl hTimed, fun hOrder _ => hOrder.pushTimer h hNow rfl hTimed hLe⟩,
    ⟨h.absorb hNow rfl, fun hOrder _ => hOrder.absorb ..⟩⟩

/-- The handler of this file ends the loop or posts itself behind what waits. -/
theorem callHandler_ok (h : Inv s) (hFree : s.cancelHandler = none) {now : Timespec}
    (hNow : now = s.clock) (handler : Handler) :
    ∃ s', callHandler s now handler = some s' ∧ Inv s' ∧ (TimedOrder s → TimedOrder s') := by
  cases handler with
  | other handler => exact ⟨s, rfl, h, id⟩
  | exitEventHandler =>
    rw [callHandler, exitEventHandler]
    split
    · exact ⟨_, rfl, { h with }, fun hOrder => hOrder.of_eq rfl rfl id⟩
    · exact ⟨_, postEvent_direct h hFree .exitEventHandler 0 now,
        h.pushEvent (hNow ▸ Nat.le_refl _) rfl rfl, fun hOrder => hOrder.pushEvent rfl now⟩

theorem stepOk_dispatch (h : Inv s) (hFree : s.cancelHandler = none) {now : Timespec}
    (hNow : now = s.clock) :
    ∃ s', dispatch s now = some s' ∧ Inv s' ∧ (TimedOrder s →
      (∀ ev rest, s.eventQueue = ev :: rest →
        ev.runtime.ns = 0 → ev.direct = false → ∀ x ∈ rest, x.timed = false) →
      TimedOrder s') := by
  cases hq : s.eventQueue with
  | nil => exact ⟨s, by simp [dispatch, hq], h, fun hOrder _ => hOrder⟩
  | cons ev rest =>
    obtain ⟨s', hCall, hInv, hOrder⟩ :=
      callHandler_ok (s := popped s ev rest now) (h.popped hq hNow) hFree hNow ev.handler
    exact ⟨s', (dispatch_eq h hq now).trans hCall, hInv, fun h0 hCareful =>
      hOrder (h0.popped hq now (hCareful ev rest rfl))⟩

variable {ms : UInt32}

theorem stepOk_round (h : Inv s) {now : Timespec}
    (hPossible : Possible s (.round now ms)) :
    ∃ s', runEventLoopRound s now ms = some s' ∧ StepOk s s' (.round now ms) := by
  have hClock : Inv { s with clock := now } := h.clock (hPossible.clock now rfl)
  have hOrderClock : TimedOrder s → TimedOrder { s with clock := now } := fun hOrder =>
    hOrder.of_eq rfl rfl id
  have hNow : now = ({ s with clock := now } : EventQueue).clock := rfl
  have hFree : s.cancelHandler = none := by
    by_contra hBlocked
    exact hPossible.blocked hBlocked
  unfold runEventLoopRound
  simp only
  by_cases hLook : looksAtTimers { s with clock := now } ms
  · have hSpliced := hClock.spliced hNow ms
    obtain ⟨s', hDispatch, hInv, hOrder⟩ := stepOk_dispatch hSpliced hFree hNow
    refine ⟨s', by rw [if_pos hLook, moveReady_eq hClock]; exact hDispatch, hInv,
      fun h0 hCareful => ?_⟩
    refine hOrder ((hOrderClock h0).spliced hClock
      ((hOrderClock h0).timed_of_looksAtTimers hLook)) fun ev rest hq => hCareful ev rest ?_
    rw [EventQueue.upNext, if_pos (show looksAtTimers s ms from hLook)]
    exact hq
  · obtain ⟨s', hDispatch, hInv, hOrder⟩ := stepOk_dispatch hClock hFree hNow
    refine ⟨s', by rw [if_neg hLook]; exact hDispatch, hInv, fun h0 hCareful => ?_⟩
    refine hOrder (hOrderClock h0) fun ev rest hq => hCareful ev rest ?_
    rw [EventQueue.upNext, if_neg (show ¬ looksAtTimers s ms from hLook)]
    exact hq

/-- No assertion fails and no node is linked to a wrong place, in any step. -/
theorem step_spec {e : Event} (h : Inv s) (hPossible : Possible s e) :
    ∃ s', step s e = some s' ∧ StepOk s s' e := by
  cases e with
  | postEvent isEventThread handler arg now =>
    have hTimed := stepOk_timed h rfl hPossible handler arg 0
    rcases postEvent_cases h isEventThread (.other handler) arg now with hEq | hEq | hEq
    · exact ⟨_, hEq, h.pushEvent (hPossible.clock now rfl) rfl rfl,
        fun hOrder _ => hOrder.pushEvent rfl now⟩
    · exact ⟨_, hEq, hTimed.1⟩
    · exact ⟨_, hEq, hTimed.2⟩
  | postEventWithDelay isEventThread handler arg delay now =>
    have hTimed := stepOk_timed h rfl hPossible handler arg delay
    rcases postEventWithDelay_cases s isEventThread (.other handler) arg delay now with hEq | hEq
    · exact ⟨_, congrArg some hEq, hTimed.1⟩
    · exact ⟨_, congrArg some hEq, hTimed.2⟩
  | cancelEvent handler arg wait =>
    have hFree : s.cancelHandler = none := by
      by_contra hBlocked
      exact hPossible.blocked hBlocked
    rcases cancelEvent_cases h hFree (.other handler) arg wait with
      ⟨pre, ev, post, hq, hEq⟩ | ⟨pre, ev, post, hq, hEq⟩ | ⟨waiting, hEq⟩
    · exact ⟨_, hEq, h.cancelQueued hq, fun hOrder _ => hOrder.cancelQueued hq⟩
    · exact ⟨_, hEq, h.cancelTimer hq, fun hOrder _ => hOrder.cancelTimer hq⟩
    · exact ⟨_, hEq, { h with }, fun hOrder _ => hOrder.of_eq rfl rfl id⟩
  | exitEventLoop => exact ⟨_, rfl, h.exitEventLoop, fun hOrder _ => hOrder.exitEventLoop⟩
  | cancelEventLoop => exact ⟨_, rfl, { h with }, fun hOrder _ => hOrder.of_eq rfl rfl id⟩
  | runEventLoop ms =>
    exact ⟨_, rfl, { h with }, fun hOrder _ => hOrder.of_eq rfl rfl fun hne => absurd rfl hne⟩
  | round now ms => exact stepOk_round h hPossible

theorem inv_of_run {es : List Event} (hEs : Meets step Possible init es) :
    ∃ s, run step init es = some s ∧ Inv s :=
  run_total (fun _ _ hInv hPossible => by
    obtain ⟨s', hStep, hOk⟩ := step_spec hInv hPossible
    exact ⟨s', hStep, hOk.inv⟩) inv_init hEs

/-- Delayed events come off in the order of their runtimes, as long as the rounds are careful. -/
theorem timedOrder_of_run {es : List Event} (hEs : Meets step Possible init es)
    (hCareful : Meets step Careful init es) (hRun : run step init es = some s) :
    TimedOrder s := by
  have hBoth := run_invariant (P := fun s => Inv s ∧ TimedOrder s)
    (fun s e s' hP hC hStep => by
      obtain ⟨t, ht, hOk⟩ := step_spec hP.1 hC.1
      rw [ht] at hStep
      cases hStep
      exact ⟨hOk.inv, hOk.order hP.2 hC.2⟩)
    ⟨inv_init, timedOrder_init⟩ (hEs.and hCareful) hRun
  exact hBoth.2

/-- The number of events that wait in either queue. -/
def EventQueue.waiting (s : EventQueue) : Nat := s.eventQueue.length + s.timerQueue.length

/-- A round that finds everything due takes one event off, and goes on. -/
theorem round_takes_one (h : Inv s) {now : Timespec} (hPossible : Possible s (.round now ms))
    (hDue : ∀ x ∈ s.timerQueue, x.runtime.ns ≤ now.ns)
    (hExit : ∀ x ∈ s.eventQueue ++ s.timerQueue, x.handler ≠ .exitEventHandler)
    {k : Nat} (hWaiting : s.waiting = k + 1) :
    ∃ s', step s (.round now ms) = some s' ∧ Inv s' ∧ Possible s' (.round now ms) ∧
      (∀ x ∈ s'.timerQueue, x.runtime.ns ≤ now.ns) ∧
      (∀ x ∈ s'.eventQueue ++ s'.timerQueue, x.handler ≠ .exitEventHandler) ∧ s'.waiting = k := by
  obtain ⟨s', hStep, hOk⟩ := step_spec h hPossible
  refine ⟨s', hStep, hOk.inv, ?_⟩
  have hClock : Inv { s with clock := now } := h.clock (hPossible.clock now rfl)
  have hNow : ∀ t ∈ (Event.round now ms).now, now.ns ≤ t.ns := by
    intro t ht
    rw [Option.some.inj ht]
  have hCall {t : EventQueue} {ev : EventNode} (hEv : ev.handler ≠ .exitEventHandler) :
      callHandler t now ev.handler = some t := by
    cases hHandler : ev.handler with
    | exitEventHandler => exact absurd hHandler hEv
    | other handler => rfl
  rw [step, runEventLoopRound] at hStep
  split at hStep
  · -- everything in the timer queue is moved
    have hReady : ∀ x ∈ s.timerQueue, isReady now x = true := by
      intro x hx
      rw [isReady, decide_eq_true_eq, timeCmp_nonpos]
      exact hDue x hx
    have hNowEq : now = ({ s with clock := now } : EventQueue).clock := rfl
    have hSplice := hClock.spliced hNowEq ms
    rw [moveReady_eq hClock, Option.bind_some] at hStep
    have hTake : s.timerQueue.takeWhile (isReady now) = s.timerQueue :=
      List.takeWhile_eq_self_iff.mpr hReady
    have hDrop : s.timerQueue.dropWhile (isReady now) = [] :=
      List.dropWhile_eq_nil_iff.mpr hReady
    cases hq : s.timerQueue ++ s.eventQueue with
    | nil =>
      have := congrArg List.length hq
      simp only [List.length_append, List.length_nil] at this
      unfold EventQueue.waiting at hWaiting
      omega
    | cons ev rest =>
      have hIn {x : EventNode} (hx : x ∈ ev :: rest) : x ∈ s.eventQueue ++ s.timerQueue :=
        List.perm_append_comm.mem_iff.mp (hq ▸ hx)
      rw [dispatch_eq hSplice (by simpa [spliced, hTake] using hq),
        hCall (hExit ev (hIn (List.mem_cons_self ..)))] at hStep
      rw [← Option.some.inj hStep]
      have hLen := congrArg List.length hq
      simp only [List.length_append, List.length_cons] at hLen
      unfold EventQueue.waiting at hWaiting ⊢
      refine ⟨⟨hNow, hPossible.blocked, hPossible.loop⟩, by simp [popped, spliced, hDrop], ?_, ?_⟩
      · simp only [popped, spliced, hDrop, List.append_nil]
        exact fun x hx => hExit x (hIn (List.mem_cons_of_mem _ hx))
      · simp only [popped, spliced, hDrop, List.length_nil]
        omega
  -- the timers are not looked at: the first event of the queue comes off
  · rename_i hLook
    cases hq : s.eventQueue with
    | nil => exact absurd (Or.inl hq) hLook
    | cons ev rest =>
      rw [hq] at hExit
      rw [dispatch_eq hClock hq, hCall (hExit ev (by simp))] at hStep
      rw [← Option.some.inj hStep]
      refine ⟨⟨hNow, hPossible.blocked, hPossible.loop⟩, hDue,
        fun x hx => hExit x (List.mem_cons_of_mem _ hx), ?_⟩
      unfold EventQueue.waiting at hWaiting ⊢
      rw [hq, List.length_cons] at hWaiting
      simp only [popped]
      omega

/-- Nothing waits for ever: once everything is due and no exit event is there to end the loop,
as many rounds as there are events empty both queues. -/
theorem rounds_drain (h : Inv s) {now : Timespec} (hPossible : Possible s (.round now ms))
    (hDue : ∀ x ∈ s.timerQueue, x.runtime.ns ≤ now.ns)
    (hExit : ∀ x ∈ s.eventQueue ++ s.timerQueue, x.handler ≠ .exitEventHandler) :
    ∃ s', run step s (List.replicate s.waiting (.round now ms)) = some s' ∧
      s'.eventQueue = [] ∧ s'.timerQueue = [] := by
  generalize hWaiting : s.waiting = k
  induction k generalizing s with
  | zero =>
    unfold EventQueue.waiting at hWaiting
    exact ⟨s, rfl, List.length_eq_zero_iff.mp (by omega), List.length_eq_zero_iff.mp (by omega)⟩
  | succ k ih =>
    obtain ⟨t, hStep, hInv, hPossible', hDue', hExit', hWaiting'⟩ :=
      round_takes_one h hPossible hDue hExit hWaiting
    obtain ⟨s', hRun, hEnd⟩ := ih hInv hPossible' hDue' hExit' hWaiting'
    exact ⟨s', by rw [List.replicate_succ, run_cons, hStep]; exact hRun, hEnd⟩

def second (n : Nat) : Timespec := ⟨n, 0, by decide⟩

/-- A run with delayed posts of two threads, a direct one, a cancellation and the exit event. -/
def sampleRun : List Event :=
  [.postEventWithDelay true 1 7 3 (second 5), .postEvent true 2 7 (second 5),
    .postEventWithDelay false 3 7 1 (second 5), .cancelEvent 2 7 false, .runEventLoop 0,
    .round (second 6) 1, .exitEventLoop, .round (second 6) 1, .round (second 6) 1]

theorem possible_sampleRun :
    Meets step (fun s e => Possible s e ∧ Careful s e) init sampleRun := by
  simp [sampleRun, second, Meets, possible_iff, inLoop, Careful, EventQueue.upNext,
    isReady, Event.now,
    step, postEventWithDelay, postEvent, postFromBgThread, cancelEvent, findEvent, exitEventLoop,
    runEventLoopRound, moveReady, dispatch, callHandler, exitEventHandler, looksAtTimers,
      insertTimer,
    timeAddUsec, timeCmp, init, Timespec.ns, Timespec.zero, EventNode.timed]

/-- The exit event and two events that are due with it, then one due later. -/
def exitRun : List Event :=
  [.runEventLoop 0, .exitEventLoop, .postEventWithDelay true 1 0 0 (second 1),
    .postEventWithDelay true 2 0 0 (second 1), .round (second 1) 0,
    .postEventWithDelay true 3 0 0 (second 2), .round (second 2) 100, .round (second 2) 100]

end TcfAgent.Events
