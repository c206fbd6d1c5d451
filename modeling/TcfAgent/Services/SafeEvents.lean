import TcfAgent.Lib.Run
import TcfAgent.Lib.Counting

/-!
# Safe events

`services/runctrl.c`: a safe event is a function that is called when all contexts of a stop
group are stopped. Safe events wait in a queue, and each of them holds the run control lock.
`run_safe_events` stops the contexts of the groups for which events are queued, counts those
it has to wait for, and when there are none runs the events.

`C` are the contexts, `G` the stop groups: `context_get_group(ctx, CONTEXT_GROUP_STOP)`, a
context that is in its own group, so that a group is marked exactly when its members are. What
happens while a function is called comes as steps of its own between the step that calls it
and the one in which it returns. Counters of posted events stand for the queue of events.

Main results:

* `step_inv`         — what a step keeps;
* `quiet_bound`      — events do not wait forever;
* `safe_events`      — every run, as long as nothing comes that `Careful` excludes;
* `safe_events_fail` — where it does.
-/


namespace TcfAgent.SafeEvents

open TcfAgent.Lib

/-! ## State -/

/-- A context and what the run control keeps for it. -/
structure Ctx (G : Type) where
  stopGroup : G
  hasState : Bool
  stopped : Bool := false
  exiting : Bool := false
  exited : Bool := false
  cannotStop : Bool := false
  safeSingleStep : Bool := false
  pendingSafeEvent : Bool := false
  stopGroupMark : Bool := false
deriving DecidableEq, Repr

/-- `SafeEvent`; `done` tells whether there is a function to call. Events are numbered as they
are posted. -/
structure SafeEvent (C : Type) where
  number : Nat
  ctx : C
  done : Bool
deriving DecidableEq, Repr

/-- The state of the module, with what has been posted and run. -/
structure State (C G : Type) where
  /-- `context_root` -/
  root : List C := []
  ctxs : C → Ctx G
  safeEventList : List (SafeEvent C) := []
  /-- The event whose function is being called: `safe_event_active`. -/
  active : Option (SafeEvent C) := none
  safeEventPidCount : Nat := 0
  stopAllTimerCnt : Nat := 0
  stopAllTimerPosted : Bool := false
  runSafeEventsPosted : Nat := 0
  syncRunStatePosted : Nat := 0
  runCtrlLockCnt : Nat := 0
  /-- Locks that other parts of the agent hold. -/
  others : Nat := 0
  /-- The safe events that were posted so far. -/
  posted : Nat := 0
  /-- The events that were run, in order, and those whose lock was released. -/
  ran : List Nat := []
  released : List Nat := []

def stopAllMaxCnt : Nat := 20

variable {C G : Type} [DecidableEq C] [DecidableEq G]

def State.setCtx (s : State C G) (c : C) (x : Ctx G) : State C G :=
  { s with ctxs := Function.update s.ctxs c x }

/-- `run_safe_events_posted++`, and the event is posted. -/
def postRunSafeEvents (s : State C G) : State C G :=
  { s with runSafeEventsPosted := s.runSafeEventsPosted + 1 }

/-! ## The run control lock and the queue -/

/-- `run_ctrl_lock` -/
def runCtrlLock (s : State C G) : Option (State C G) :=
  if s.runCtrlLockCnt = 0 ∧ s.safeEventList ≠ [] then none
  else some { s with runCtrlLockCnt := s.runCtrlLockCnt + 1 }

/-- `run_ctrl_unlock` -/
def runCtrlUnlock (s : State C G) : Option (State C G) :=
  if s.runCtrlLockCnt = 0 then none
  else
    let s := { s with runCtrlLockCnt := s.runCtrlLockCnt - 1 }
    if s.runCtrlLockCnt ≠ 0 then some s
    else if s.safeEventList ≠ [] then none
    else some (postRunSafeEvents s)

/-- `post_safe_event` -/
def postSafeEvent (c : C) (done : Bool) (s : State C G) : Option (State C G) :=
  (runCtrlLock s).map fun s =>
    let s := if s.safeEventList = [] then postRunSafeEvents s else s
    { s with
      safeEventList := s.safeEventList ++ [{ number := s.posted, ctx := c, done }]
      posted := s.posted + 1 }

/-- `is_all_stopped` -/
def isAllStopped (c : C) (s : State C G) : Bool :=
  s.root.all fun c' =>
    let x := s.ctxs c'
    x.stopped || x.exited || x.exiting || x.cannotStop || !x.hasState ||
      x.stopGroup ≠ (s.ctxs c).stopGroup

/-- `check_all_stopped`, which waits for `safe_events_cache` when an event is posted. -/
def checkAllStopped (c : C) (s : State C G) : Option (State C G) :=
  if isAllStopped c s then some s else postSafeEvent c false s

/-! ## Context events -/

/-- `check_safe_events` -/
def checkSafeEvents (c : C) (s : State C G) : Option (State C G) :=
  let x := s.ctxs c
  if (x.stopped = false ∧ x.exited = false) ∨ x.pendingSafeEvent = false ∨
      s.safeEventPidCount = 0 then none
  else
    let s : State C G := { s.setCtx c { x with pendingSafeEvent := false } with
      safeEventPidCount := s.safeEventPidCount - 1 }
    some (if s.safeEventPidCount = 0 then postRunSafeEvents s else s)

/-- `stop_if_safe_events` -/
def stopIfSafeEvents (c : C) (s : State C G) : Option (State C G) :=
  let x := s.ctxs c
  if s.active.isSome && x.stopGroupMark && !x.exiting && x.hasState then
    if s.runCtrlLockCnt = 0 then none
    else if x.pendingSafeEvent then some s
    else
      some { s.setCtx c { x with pendingSafeEvent := true } with
        safeEventPidCount := s.safeEventPidCount + 1 }
  else some s

/-- A context is created, running: `event_context_created`. -/
def contextCreated (c : C) (stopGroup : G) (hasState : Bool) (s : State C G) :
    Option (State C G) :=
  stopIfSafeEvents c { s.setCtx c { stopGroup, hasState } with root := s.root ++ [c] }

/-- A context is resumed: `event_context_started`. -/
def contextStarted (c : C) (s : State C G) : Option (State C G) :=
  stopIfSafeEvents c (s.setCtx c { s.ctxs c with stopped := false })

/-- A context stops: `event_context_stopped`. -/
def contextStopped (c : C) (s : State C G) : Option (State C G) :=
  let s := s.setCtx c
    { s.ctxs c with stopped := true, safeSingleStep := false, cannotStop := false }
  (if (s.ctxs c).pendingSafeEvent then checkSafeEvents c s else some s).map fun s =>
    if s.runCtrlLockCnt = 0 ∧ s.runSafeEventsPosted < 4 then postRunSafeEvents s else s

/-- A context exits: `event_context_exited`. -/
def contextExited (c : C) (s : State C G) : Option (State C G) :=
  let s := s.setCtx c { s.ctxs c with exited := true, safeSingleStep := false }
  if (s.ctxs c).pendingSafeEvent then checkSafeEvents c s else some s

/-- `safe_context_single_step`; `ok` tells whether the context can be resumed. -/
def safeContextSingleStep (c : C) (ok : Bool) (s : State C G) : Option (State C G) :=
  let x := s.ctxs c
  if s.runCtrlLockCnt = 0 ∨ s.safeEventList = [] ∨ x.safeSingleStep = true then none
  else if ok then contextStarted c (s.setCtx c { x with safeSingleStep := true })
  else some s

/-! ## Running safe events -/

/-- `mark_cannot_stop` -/
def Ctx.markCannotStop (x : Ctx G) : Ctx G := { x with safeSingleStep := false, cannotStop := true }

/-- One context in the loop of `run_safe_events` that stops the contexts; `stops` tells whether
`context_stop` is accepted, `named` whether the context has a state name. -/
def Ctx.waitFor (x : Ctx G) (mark stops named : Bool) (stopAllTimerCnt : Nat) : Ctx G :=
  let x := { x with pendingSafeEvent := false, stopGroupMark := mark }
  if x.exited || x.exiting || x.cannotStop then x
  else if !x.safeSingleStep && !x.stopGroupMark then x
  else if x.stopped || !x.hasState then x
  else if stopAllTimerCnt ≥ stopAllMaxCnt then x.markCannotStop
  else if stopAllTimerCnt ≥ 2 && named then x.markCannotStop
  else if (!x.safeSingleStep || stopAllTimerCnt ≥ stopAllMaxCnt / 2) && !stops then x.markCannotStop
  else { x with pendingSafeEvent := true }

/-- What the target answers while contexts are stopped. -/
structure Stops (C : Type) where
  stops : C → Bool
  named : C → Bool

/-- The stop group of the context is that of a queued event. -/
def isMarked (events : List (SafeEvent C)) (s : State C G) (c : C) : Bool :=
  events.any fun i => (s.ctxs i.ctx).stopGroup = (s.ctxs c).stopGroup

/-- The contexts are stopped, one after another, and counted. -/
def waitForAll (t : Stops C) : List C → State C G → State C G
  | [], s => s
  | c :: cs, s =>
    let x := (s.ctxs c).waitFor (isMarked s.safeEventList s c) (t.stops c) (t.named c)
      s.stopAllTimerCnt
    waitForAll t cs { s.setCtx c x with
      safeEventPidCount := s.safeEventPidCount + if x.pendingSafeEvent then 1 else 0 }

/-- The queue is run, up to the next event with a function. -/
def runQueue : List (SafeEvent C) → State C G → Option (State C G)
  | [], s => some s
  | i :: rest, s =>
    if (s.ctxs i.ctx).stopGroupMark = false then
      if s.runCtrlLockCnt = 0 then none
      else some (if s.runSafeEventsPosted = 0 then postRunSafeEvents s else s)
    else if 0 < s.safeEventPidCount then some { s with stopAllTimerPosted := true }
    else if isAllStopped i.ctx s = false then none
    else
      let s := { s with safeEventList := rest, ran := s.ran ++ [i.number] }
      if i.done then
        if (s.ctxs i.ctx).pendingSafeEvent then none else some { s with active := some i }
      else
        (runCtrlUnlock { s with released := s.released ++ [i.number] }).bind (runQueue rest)

/-- `run_safe_events` -/
def runSafeEvents (t : Stops C) (s : State C G) : Option (State C G) :=
  let s := { s with runSafeEventsPosted := s.runSafeEventsPosted - 1 }
  if 0 < s.runSafeEventsPosted then some s
  else if s.runCtrlLockCnt = 0 then some { s with syncRunStatePosted := s.syncRunStatePosted + 1 }
  else if s.safeEventList = [] then some s
  else
    let s := waitForAll t s.root { s with safeEventPidCount := 0 }
    let s := if s.safeEventPidCount = 0 then
        { s with stopAllTimerCnt := 0, stopAllTimerPosted := false }
      else s
    runQueue s.safeEventList s

/-- The function of the event returns, and the queue is run further. -/
def callbackReturns (s : State C G) : Option (State C G) :=
  match s.active with
  | none => none
  | some i =>
    (runCtrlUnlock { s with active := none, released := s.released ++ [i.number] }).bind
      fun s => runQueue s.safeEventList s

/-- `stop_all_timer` -/
def stopAllTimer (s : State C G) : State C G :=
  postRunSafeEvents { s with
    stopAllTimerPosted := false
    stopAllTimerCnt := s.stopAllTimerCnt + 1 }

/-! ## Stopping and resuming contexts -/

/-- What becomes of `context_resume`: the context runs, it has to step over a breakpoint first,
there is an error, something is missing in a cache. -/
inductive Resume where
  | runs
  | skips
  | fails
  | misses
deriving DecidableEq, Repr

/-- What `sync_run_state` finds for a context: its intercept group has to be suspended, it can
be resumed, or resumed after the others. -/
inductive Plan where
  | leave
  | suspend
  | resume (r : Resume)
  | later (r : Resume)
deriving DecidableEq, Repr

/-- One run of `sync_run_state`: the context at which the first loop gives up because
something is missing in a cache, whether the second one does, and what is found. -/
structure Sync (C : Type) where
  missing : Option C := none
  missingLater : Bool := false
  plan : C → Plan

/-- How the loops go on: the errors so far, and whether something was missing. -/
structure Progress (C : Type) where
  errors : Nat := 0
  missed : Bool := false
  laterOnes : List (C × Resume) := []

/-- The flags are cleared, up to the context where something is missing. -/
def clearPending (missing : Option C) : List C → State C G → State C G × Bool
  | [], s => (s, false)
  | c :: cs, s =>
    let s := s.setCtx c { s.ctxs c with pendingSafeEvent := false }
    if missing = some c ∧ (s.ctxs c).hasState = false then (s, true)
    else clearPending missing cs s

/-- A context is resumed. -/
def resumeContext (c : C) (r : Resume) (p : Progress C) (s : State C G) :
    Option (Progress C × State C G) :=
  match r with
  | .runs => (contextStarted c s).map fun s => (p, s)
  | .skips => (postSafeEvent c true s).map fun s => (p, s)
  | .fails => some ({ p with errors := p.errors + 1 }, s)
  | .misses => some ({ p with missed := true }, s)

/-- One context in the third loop of `sync_run_state`. -/
def stopOrResume (plan : Plan) (c : C) (p : Progress C) (s : State C G) :
    Option (Progress C × State C G) :=
  let x := s.ctxs c
  if x.exited || !x.hasState then some (p, s)
  else
    match plan with
    | .leave => some (p, s)
    | .suspend =>
      if !x.stopped && !x.exiting then
        if x.safeSingleStep then none
        else
          some (p, { s.setCtx c { x with pendingSafeEvent := true } with
            safeEventPidCount := s.safeEventPidCount + 1 })
      else some (p, s)
    | .resume r => if x.stopped then resumeContext c r p s else some (p, s)
    | .later r =>
      some (if x.stopped then { p with laterOnes := p.laterOnes ++ [(c, r)] } else p, s)

/-- The loops end with the first error, and when the lock is taken. -/
def goesOn (p : Progress C) (s : State C G) : Bool :=
  p.errors = 0 && s.runCtrlLockCnt = 0 && !p.missed

def stopOrResumeAll (plan : C → Plan) :
    List C → Progress C → State C G → Option (Progress C × State C G)
  | [], p, s => some (p, s)
  | c :: cs, p, s =>
    if goesOn p s then
      (stopOrResume (plan c) c p s).bind fun q => stopOrResumeAll plan cs q.1 q.2
    else some (p, s)

def resumeLater : List (C × Resume) → Progress C → State C G → Option (Progress C × State C G)
  | [], p, s => some (p, s)
  | (c, r) :: rest, p, s =>
    if goesOn p s then (resumeContext c r p s).bind fun q => resumeLater rest q.1 q.2
    else some (p, s)

/-- `sync_run_state`, and whether something was missing. -/
def syncRunState (t : Sync C) (s : State C G) : Option (Bool × State C G) :=
  if s.runCtrlLockCnt ≠ 0 then some (false, s)
  else if s.safeEventList ≠ [] then none
  else
    let (s, missed) := clearPending t.missing s.root
      { s with stopAllTimerCnt := 0, safeEventPidCount := 0 }
    if missed || t.missingLater then some (true, s)
    else
      (stopOrResumeAll t.plan s.root {} s).bind fun q =>
        (resumeLater q.1.laterOnes q.1 q.2).map fun (p, s) =>
          if p.missed then (true, s)
          else if 0 < s.safeEventPidCount ∨ 0 < s.runCtrlLockCnt then (false, s)
          else if 0 < p.errors ∧ s.runSafeEventsPosted < 4 then (false, postRunSafeEvents s)
          else (false, s)

/-- `sync_run_state_cache_client`: it is run again when something was missing. -/
def syncClient (t : Sync C) (s : State C G) : Option (State C G) :=
  (syncRunState t s).map fun (missed, s) =>
    if missed then s else { s with syncRunStatePosted := s.syncRunStatePosted - 1 }

/-! ## Steps -/

/-- What can come next: a call of the run control by another part of the agent or by the
function of the active event, a context event, an event of the agent's queue. -/
inductive Event (C G : Type) where
  | post (c : C) (done : Bool)
  | checkStopped (c : C)
  | lock
  | unlock
  | wake
  | singleStep (c : C) (ok : Bool)
  | created (c : C) (stopGroup : G) (hasState : Bool)
  | changed (c : C)
  | started (c : C)
  | stopped (c : C)
  | exiting (c : C)
  | exited (c : C)
  | regrouped (c : C) (stopGroup : G)
  | dispatch (t : Stops C)
  | returns
  | timer
  | sync (t : Sync C)

def step (s : State C G) : Event C G → Option (State C G)
  | .post c done => postSafeEvent c done s
  | .checkStopped c => checkAllStopped c s
  | .lock => (runCtrlLock s).map fun s => { s with others := s.others + 1 }
  | .unlock => runCtrlUnlock { s with others := s.others - 1 }
  | .wake => some (postRunSafeEvents s)
  | .singleStep c ok => safeContextSingleStep c ok s
  | .created c stopGroup hasState => contextCreated c stopGroup hasState s
  | .changed c => stopIfSafeEvents c s
  | .started c => contextStarted c s
  | .stopped c => contextStopped c s
  | .exiting c => some (s.setCtx c { s.ctxs c with exiting := true })
  | .exited c => contextExited c s
  | .regrouped c stopGroup => some (s.setCtx c { s.ctxs c with stopGroup })
  | .dispatch t => runSafeEvents t s
  | .returns => callbackReturns s
  | .timer => some (stopAllTimer s)
  | .sync t => syncClient t s

/-- Contexts exist, and their events make sense; locks are released by who took them; a
context is single stepped by the function of its own event, after another event was posted;
only what is posted is dispatched, and not while a function is called. -/
def Enabled (s : State C G) : Event C G → Prop
  | .post c _ => c ∈ s.root
  | .checkStopped c => c ∈ s.root
  | .unlock => 0 < s.others
  | .singleStep c _ => c ∈ s.root ∧ s.active.map SafeEvent.ctx = some c ∧ s.safeEventList ≠ [] ∧
      (s.ctxs c).stopped = true ∧ (s.ctxs c).exited = false ∧ (s.ctxs c).exiting = false ∧
      (s.ctxs c).hasState = true
  | .created c _ _ => c ∉ s.root
  | .changed c => c ∈ s.root ∧ (s.ctxs c).exited = false
  | .started c => c ∈ s.root ∧ (s.ctxs c).stopped = true ∧ (s.ctxs c).exited = false
  | .stopped c => c ∈ s.root ∧ (s.ctxs c).stopped = false ∧ (s.ctxs c).exited = false
  | .exiting c => c ∈ s.root
  | .exited c => c ∈ s.root ∧ (s.ctxs c).exited = false
  | .regrouped c _ => c ∈ s.root
  | .dispatch _ => s.active = none ∧ 0 < s.runSafeEventsPosted
  | .returns => s.active ≠ none
  | .timer => s.active = none ∧ s.stopAllTimerPosted = true
  | .sync _ => s.active = none ∧ 0 < s.syncRunStatePosted
  | _ => True

/-- While the function of an event is called, no event comes that a stopped context of a marked
group has changed, and no context gets into or out of the marked groups. The first loop of
`sync_run_state` does not give up before the pending flags are cleared. -/
def Careful (s : State C G) : Event C G → Prop
  | .created _ stopGroup hasState => s.active ≠ none → hasState = true →
      ∀ c ∈ s.root, (s.ctxs c).stopGroupMark = true → (s.ctxs c).stopGroup ≠ stopGroup
  | .changed c => s.active ≠ none → (s.ctxs c).stopGroupMark = true → (s.ctxs c).hasState = true →
      (s.ctxs c).exiting = false → (s.ctxs c).stopped = false
  | .regrouped c stopGroup => s.active ≠ none →
      ∀ c' ∈ s.root, c' ≠ c → (s.ctxs c').stopGroup = stopGroup →
        ((s.ctxs c).stopGroupMark = true → (s.ctxs c').hasState = true →
          (s.ctxs c').stopGroupMark = true) ∧
        ((s.ctxs c').stopGroupMark = true → (s.ctxs c).hasState = true →
          (s.ctxs c).stopGroupMark = true)
  | .sync t =>
    match t.missing with
    | none => True
    | some c => s.runCtrlLockCnt = 0 → (s.ctxs c).hasState = false →
        ∀ c' ∈ (s.root.dropWhile (· ≠ c)).tail, (s.ctxs c').pendingSafeEvent = false
  | _ => True

instance (s : State C G) (e : Event C G) : Decidable (Enabled s e) := by
  cases e <;> unfold Enabled <;> infer_instance

instance (s : State C G) (e : Event C G) : Decidable (Careful s e) := by
  cases e with
  | sync t =>
    obtain ⟨missing, missingLater, plan⟩ := t
    cases missing <;> unfold Careful <;> infer_instance
  | _ => unfold Careful; infer_instance

/-- The agent starts without contexts. -/
def init (ctxs : C → Ctx G) : State C G := { ctxs }

/-! ## The invariant -/

/-- The counters, and what was run of what was posted. -/
structure Core (s : State C G) : Prop where
  nodup : s.root.Nodup
  lock : s.runCtrlLockCnt =
    s.others + s.safeEventList.length + if s.active.isSome then 1 else 0
  count : s.safeEventPidCount = s.root.countP fun c => (s.ctxs c).pendingSafeEvent
  running : ∀ c ∈ s.root, (s.ctxs c).pendingSafeEvent = true → (s.ctxs c).stopped = false
  queued : ∀ i ∈ s.safeEventList, i.ctx ∈ s.root
  stopped : ∀ c ∈ s.root, (s.ctxs c).stopped = true →
    (s.ctxs c).cannotStop = false ∧ (s.ctxs c).safeSingleStep = false
  stepping : ∀ c ∈ s.root, (s.ctxs c).safeSingleStep = true →
    (s.ctxs c).hasState = true ∧ (s.ctxs c).cannotStop = false ∧
      ((s.ctxs c).exited = false → (s.ctxs c).exiting = false →
        (s.ctxs c).pendingSafeEvent = true ∧ s.safeEventList ≠ [])
  ran : s.ran ++ s.safeEventList.map SafeEvent.number = List.range s.posted
  released : s.released ++ s.active.toList.map SafeEvent.number = s.ran

/-- Whole stop groups are marked, and whoever is not stopped in them is waited for. -/
structure Marks (s : State C G) : Prop where
  groups : ∀ c ∈ s.root, ∀ c' ∈ s.root, (s.ctxs c).stopGroupMark = true →
    (s.ctxs c').stopGroup = (s.ctxs c).stopGroup → (s.ctxs c').hasState = true →
    (s.ctxs c').stopGroupMark = true
  pending : ∀ c ∈ s.root, (s.ctxs c).stopGroupMark = true → (s.ctxs c).hasState = true →
    (s.ctxs c).stopped = false → (s.ctxs c).exited = false → (s.ctxs c).exiting = false →
    (s.ctxs c).cannotStop = false → (s.ctxs c).pendingSafeEvent = true

/-- Between steps. -/
structure Inv (s : State C G) : Prop extends Core s where
  marks : ∀ i ∈ s.active, Marks s ∧ i.ctx ∈ s.root ∧ (s.ctxs i.ctx).stopGroupMark = true
  timer : s.stopAllTimerPosted = true →
    s.active = none ∧ s.safeEventList ≠ [] ∧ s.stopAllTimerCnt < stopAllMaxCnt
  idle : s.active ≠ none → s.stopAllTimerCnt = 0
  awake : s.active = none → s.safeEventList ≠ [] →
    0 < s.runSafeEventsPosted ∨ s.stopAllTimerPosted = true

omit [DecidableEq C] [DecidableEq G] in
theorem inv_init (ctxs : C → Ctx G) : Inv (init ctxs) where
  nodup := List.nodup_nil
  lock := rfl
  count := rfl
  running := by simp [init]
  queued := by simp [init]
  stopped := by simp [init]
  stepping := by simp [init]
  ran := rfl
  released := rfl
  marks := by simp [init]
  timer := by simp [init]
  idle := by simp [init]
  awake := by simp [init]

variable {s : State C G} {c : C}

omit [DecidableEq C] [DecidableEq G] in
/-- Nobody is waited for when the counter is zero. -/
theorem Core.not_pending (h : Core s) (hZero : s.safeEventPidCount = 0)
    (hc : c ∈ s.root) : (s.ctxs c).pendingSafeEvent = false := by
  rw [h.count] at hZero
  exact not_of_countP_eq_zero (p := fun c => (s.ctxs c).pendingSafeEvent) hZero hc

variable {x : Ctx G}

omit [DecidableEq G] in
/-- One context is replaced, and the counter is corrected. -/
theorem Core.setCtx (h : Core s) (hc : c ∈ s.root) {n : Nat}
    (hRunning : x.pendingSafeEvent = true → x.stopped = false)
    (hStopped : x.stopped = true → x.cannotStop = false ∧ x.safeSingleStep = false)
    (hStepping : x.safeSingleStep = true → x.hasState = true ∧ x.cannotStop = false ∧
      (x.exited = false → x.exiting = false →
        x.pendingSafeEvent = true ∧ s.safeEventList ≠ []))
    (hCount : n + (if (s.ctxs c).pendingSafeEvent then 1 else 0) =
      s.safeEventPidCount + if x.pendingSafeEvent then 1 else 0) :
    Core { s.setCtx c x with safeEventPidCount := n } := by
  have hOther {c' : C} (hc' : c' ≠ c) : Function.update s.ctxs c x c' = s.ctxs c' :=
    Function.update_of_ne hc' _ _
  refine { h with
    count := ?_
    running := fun c' hIn => ?_
    stopped := fun c' hIn => ?_
    stepping := fun c' hIn => ?_ }
  · have hUpdate := countP_update Ctx.pendingSafeEvent s.ctxs x h.nodup hc
    rw [← h.count] at hUpdate
    show n = s.root.countP fun c' => (Function.update s.ctxs c x c').pendingSafeEvent
    omega
  all_goals
    simp only [State.setCtx]
    by_cases hc' : c' = c
  · subst hc'
    simpa using hRunning
  · rw [hOther hc']
    exact h.running c' hIn
  · subst hc'
    simpa using hStopped
  · rw [hOther hc']
    exact h.stopped c' hIn
  · subst hc'
    simpa using hStepping
  · rw [hOther hc']
    exact h.stepping c' hIn

omit [DecidableEq G] in
/-- A context of a marked group is replaced: it stays where it is. -/
theorem Marks.setCtx (h : Marks s) (c : C) (n : Nat)
    (hMark : x.stopGroupMark = (s.ctxs c).stopGroupMark)
    (hGroup : x.stopGroup = (s.ctxs c).stopGroup) (hState : x.hasState = (s.ctxs c).hasState)
    (hPending : x.stopGroupMark = true → x.hasState = true → x.stopped = false →
      x.exited = false → x.exiting = false → x.cannotStop = false → x.pendingSafeEvent = true) :
    Marks { s.setCtx c x with safeEventPidCount := n } := by
  have hSame (c' : C) : (Function.update s.ctxs c x c').stopGroupMark = (s.ctxs c').stopGroupMark ∧
      (Function.update s.ctxs c x c').stopGroup = (s.ctxs c').stopGroup ∧
      (Function.update s.ctxs c x c').hasState = (s.ctxs c').hasState := by
    by_cases hc' : c' = c
    · subst hc'
      simp [hMark, hGroup, hState]
    · simp [Function.update_of_ne hc']
  refine ⟨fun c₁ h₁ c₂ h₂ => ?_, fun c' hIn => ?_⟩
  · simp only [State.setCtx, (hSame c₁).1, (hSame c₁).2.1, hSame c₂]
    exact h.groups c₁ h₁ c₂ h₂
  · simp only [State.setCtx]
    by_cases hc' : c' = c
    · subst hc'
      simpa using hPending
    · rw [Function.update_of_ne hc']
      exact h.pending c' hIn

omit [DecidableEq G] in
/-- The same for the whole invariant; events may be posted. -/
theorem Inv.setCtx (h : Inv s) (hc : c ∈ s.root) {n m : Nat}
    (hRunning : x.pendingSafeEvent = true → x.stopped = false)
    (hStopped : x.stopped = true → x.cannotStop = false ∧ x.safeSingleStep = false)
    (hStepping : x.safeSingleStep = true → x.hasState = true ∧ x.cannotStop = false ∧
      (x.exited = false → x.exiting = false →
        x.pendingSafeEvent = true ∧ s.safeEventList ≠ []))
    (hCount : n + (if (s.ctxs c).pendingSafeEvent then 1 else 0) =
      s.safeEventPidCount + if x.pendingSafeEvent then 1 else 0)
    (hMark : x.stopGroupMark = (s.ctxs c).stopGroupMark)
    (hGroup : x.stopGroup = (s.ctxs c).stopGroup) (hState : x.hasState = (s.ctxs c).hasState)
    (hPending : s.active ≠ none → x.stopGroupMark = true → x.hasState = true →
      x.stopped = false → x.exited = false → x.exiting = false → x.cannotStop = false →
      x.pendingSafeEvent = true)
    (hPosted : s.runSafeEventsPosted ≤ m) :
    Inv { s.setCtx c x with safeEventPidCount := n, runSafeEventsPosted := m } := by
  have hCore := h.toCore.setCtx hc hRunning hStopped hStepping hCount
  refine { hCore with
    marks := fun i hi => ?_
    timer := h.timer
    idle := h.idle
    awake := ?_ }
  · have hActive : s.active ≠ none := by
      rintro hNone
      simp [State.setCtx, hNone] at hi
    obtain ⟨hMarks, hIn, hMarked⟩ := h.marks i hi
    have hNew := hMarks.setCtx c n hMark hGroup hState (hPending hActive)
    refine ⟨{ hNew with }, hIn, ?_⟩
    simp only [State.setCtx]
    by_cases hc' : i.ctx = c
    · rw [hc', Function.update_self, hMark, ← hc']
      exact hMarked
    · rw [Function.update_of_ne hc']
      exact hMarked
  · exact fun hNone hSome => (h.awake hNone hSome).imp (fun hPos => lt_of_lt_of_le hPos hPosted) id

/-! ## Calls -/

omit [DecidableEq C] [DecidableEq G] in
theorem Inv.wake (h : Inv s) : Inv (postRunSafeEvents s) :=
  { h with
    marks := fun i hi => by
      obtain ⟨hMarks, hRest⟩ := h.marks i hi
      exact ⟨{ hMarks with }, hRest⟩
    awake := fun _ _ => .inl (Nat.succ_pos _) }

omit [DecidableEq C] [DecidableEq G] in
/-- The lock is never free while an event is queued or run. -/
theorem Core.lock_pos (h : Core s) (hBusy : s.active ≠ none ∨ s.safeEventList ≠ []) :
    s.runCtrlLockCnt ≠ 0 := by
  rw [h.lock]
  rcases hBusy with hActive | hList
  · have : s.active.isSome = true := Option.isSome_iff_ne_none.2 hActive
    simp [this]
  · have := List.length_pos_iff.2 hList
    omega

omit [DecidableEq C] [DecidableEq G] in
theorem runCtrlLock_eq (h : Core s) :
    runCtrlLock s = some { s with runCtrlLockCnt := s.runCtrlLockCnt + 1 } := by
  refine if_neg fun hFree => ?_
  exact h.lock_pos (.inr hFree.2) hFree.1

theorem lock_inv (h : Inv s) :
    ∃ s', step s (.lock : Event C G) = some s' ∧ Inv s' := by
  refine ⟨{ s with runCtrlLockCnt := s.runCtrlLockCnt + 1, others := s.others + 1 }, ?_, ?_⟩
  · simp [step, runCtrlLock_eq h.toCore]
  · refine { h with
      lock := ?_
      marks := fun i hi => ?_ }
    · show s.runCtrlLockCnt + 1 = s.others + 1 + s.safeEventList.length +
        if s.active.isSome then 1 else 0
      rw [h.lock]
      omega
    · obtain ⟨hMarks, hRest⟩ := h.marks i hi
      exact ⟨{ hMarks with }, hRest⟩

omit [DecidableEq C] [DecidableEq G] in
/-- The lock is released; when nobody holds it any more, no event is queued. -/
theorem runCtrlUnlock_eq (hLock : s.runCtrlLockCnt ≠ 0)
    (hNew : Core { s with runCtrlLockCnt := s.runCtrlLockCnt - 1 }) :
    ∃ m, s.runSafeEventsPosted ≤ m ∧ runCtrlUnlock s =
      some { s with runCtrlLockCnt := s.runCtrlLockCnt - 1, runSafeEventsPosted := m } := by
  unfold runCtrlUnlock
  rw [if_neg hLock]
  dsimp only
  split
  · exact ⟨s.runSafeEventsPosted, le_rfl, rfl⟩
  · rename_i hFree
    have hNone : s.safeEventList = [] := by
      by_contra hSome
      exact hNew.lock_pos (.inr hSome) (not_not.1 hFree)
    rw [if_neg (not_not.2 hNone)]
    exact ⟨s.runSafeEventsPosted + 1, Nat.le_succ _, rfl⟩

theorem unlock_inv (h : Inv s) (hOthers : 0 < s.others) :
    ∃ s', step s (.unlock : Event C G) = some s' ∧ Inv s' := by
  have hLock := h.lock
  have hCore : Core { s with runCtrlLockCnt := s.runCtrlLockCnt - 1, others := s.others - 1 } := by
    refine { h with lock := ?_ }
    show s.runCtrlLockCnt - 1 = s.others - 1 + s.safeEventList.length +
      if s.active.isSome then 1 else 0
    omega
  have hPos : s.runCtrlLockCnt ≠ 0 := by omega
  obtain ⟨m, hm, hEq⟩ := runCtrlUnlock_eq (s := { s with others := s.others - 1 }) hPos hCore
  refine ⟨_, hEq, { hCore with
    marks := fun i hi => ?_
    timer := h.timer
    idle := h.idle
    awake := fun hNone hSome => (h.awake hNone hSome).imp (fun hPos => lt_of_lt_of_le hPos hm) id }⟩
  obtain ⟨hMarks, hRest⟩ := h.marks i hi
  exact ⟨{ hMarks with }, hRest⟩

omit [DecidableEq C] [DecidableEq G] in
/-- The events that were posted before are numbered up to the new one. -/
theorem postSafeEvent_inv (h : Inv s) (hc : c ∈ s.root) (done : Bool) :
    ∃ s', postSafeEvent c done s = some s' ∧ Inv s' ∧ s'.root = s.root ∧ s'.ctxs = s.ctxs ∧
      s'.active = s.active := by
  unfold postSafeEvent
  rw [runCtrlLock_eq h.toCore, Option.map_some]
  refine ⟨_, rfl, ?_⟩
  obtain ⟨m, hm, hPos⟩ : ∃ m, (if s.safeEventList = [] then
        postRunSafeEvents { s with runCtrlLockCnt := s.runCtrlLockCnt + 1 }
      else { s with runCtrlLockCnt := s.runCtrlLockCnt + 1 }) =
      { s with runCtrlLockCnt := s.runCtrlLockCnt + 1, runSafeEventsPosted := m } ∧
      (s.active = none → 0 < m ∨ s.stopAllTimerPosted = true) := by
    split
    · exact ⟨_, rfl, fun _ => .inl (Nat.succ_pos _)⟩
    · rename_i hSome
      exact ⟨_, rfl, fun hNone => h.awake hNone hSome⟩
  rw [hm]
  refine ⟨{ h with
    lock := ?_
    queued := fun i hi => ?_
    stepping := fun c' hc' hStep => ?_
    ran := ?_
    marks := fun i hi => ?_
    timer := fun hTimer => ?_
    awake := fun hNone _ => hPos hNone }, rfl, rfl, rfl⟩
  · show s.runCtrlLockCnt + 1 = s.others + (s.safeEventList ++ [_]).length +
      if s.active.isSome then 1 else 0
    rw [h.lock, List.length_append, List.length_singleton]
    omega
  · rcases List.mem_append.1 hi with hi | hi
    · exact h.queued i hi
    · obtain rfl := List.mem_singleton.1 hi
      exact hc
  · obtain ⟨hState, hStop, hPending⟩ := h.stepping c' hc' hStep
    exact ⟨hState, hStop, fun hExited hExiting => ⟨(hPending hExited hExiting).1, by simp⟩⟩
  · show s.ran ++ (s.safeEventList ++ [_]).map SafeEvent.number = List.range (s.posted + 1)
    rw [List.map_append, ← List.append_assoc, h.ran, List.range_succ]
    rfl
  · obtain ⟨hMarks, hRest⟩ := h.marks i hi
    exact ⟨{ hMarks with }, hRest⟩
  · obtain ⟨hNone, -, hCnt⟩ := h.timer hTimer
    exact ⟨hNone, by simp, hCnt⟩

omit [DecidableEq C] in
theorem checkAllStopped_inv (h : Inv s) (hc : c ∈ s.root) :
    ∃ s', checkAllStopped c s = some s' ∧ Inv s' := by
  unfold checkAllStopped
  split
  · exact ⟨s, rfl, h⟩
  · obtain ⟨s', hEq, h', -⟩ := postSafeEvent_inv h hc false
    exact ⟨s', hEq, h'⟩

/-! ## Context events -/

/-- The context has to be waited for, because the function of an event is being called. -/
def State.awaits (s : State C G) (x : Ctx G) : Bool :=
  s.active.isSome && x.stopGroupMark && !x.exiting && x.hasState

omit [DecidableEq G] in
theorem stopIfSafeEvents_eq (hLock : s.active ≠ none → s.runCtrlLockCnt ≠ 0)
    (c : C) :
    stopIfSafeEvents c s = some { s.setCtx c { s.ctxs c with
        pendingSafeEvent := (s.ctxs c).pendingSafeEvent || s.awaits (s.ctxs c) } with
      safeEventPidCount := s.safeEventPidCount +
        if s.awaits (s.ctxs c) && !(s.ctxs c).pendingSafeEvent then 1 else 0 } := by
  have hSelf : s.setCtx c (s.ctxs c) = s := by
    unfold State.setCtx
    rw [Function.update_eq_self]
  unfold stopIfSafeEvents
  change (if s.awaits (s.ctxs c) = true then _ else _) = _
  cases hAwaits : s.awaits (s.ctxs c) with
  | false => simp [hSelf]
  | true =>
    have hActive : s.active ≠ none := by
      rintro hNone
      simp [State.awaits, hNone] at hAwaits
    rw [if_pos rfl, if_neg (hLock hActive)]
    cases hPending : (s.ctxs c).pendingSafeEvent with
    | false => simp
    | true =>
      have hSame : ({ s.ctxs c with pendingSafeEvent := true } : Ctx G) = s.ctxs c := by
        rw [← hPending]
      simp [hSame, hSelf]

omit [DecidableEq G] in
/-- A context that has changed is not stopped, unless it does not have to be waited for. -/
theorem changed_inv (h : Inv s) (hc : c ∈ s.root)
    (hCareful : Careful s (.changed c)) : ∃ s', stopIfSafeEvents c s = some s' ∧ Inv s' := by
  refine ⟨_, stopIfSafeEvents_eq (fun hActive => h.toCore.lock_pos (.inl hActive)) c, ?_⟩
  refine h.setCtx hc (fun hPending => ?_) (h.stopped c hc) (fun hStep => ?_) ?_ rfl rfl rfl
    (fun hActive hMark hState hStopped hExited hExiting hCan => ?_) le_rfl
  · rcases Bool.or_eq_true_iff.1 hPending with hPending | hAwaits
    · exact h.running c hc hPending
    · simp only [State.awaits, Bool.and_eq_true, Bool.not_eq_true',
        Option.isSome_iff_ne_none] at hAwaits
      obtain ⟨⟨⟨hActive, hMark⟩, hExiting⟩, hState⟩ := hAwaits
      exact hCareful hActive hMark hState hExiting
  · obtain ⟨hState, hStop, hPending⟩ := h.stepping c hc hStep
    refine ⟨hState, hStop, fun hExited hExiting => ?_⟩
    obtain ⟨hPending, hSome⟩ := hPending hExited hExiting
    exact ⟨by simp [hPending], hSome⟩
  · cases (s.ctxs c).pendingSafeEvent <;> cases s.awaits (s.ctxs c) <;> rfl
  · obtain ⟨i, hi⟩ := Option.ne_none_iff_exists'.1 hActive
    have hPending := (h.marks i hi).1.pending c hc hMark hState hStopped hExited hExiting hCan
    show ((s.ctxs c).pendingSafeEvent || _) = true
    rw [hPending, Bool.true_or]

omit [DecidableEq G] in
/-- A context is resumed; it may be single stepped by the function of its own event. -/
theorem started_inv (h : Inv s) (hc : c ∈ s.root)
    (hStopped : (s.ctxs c).stopped = true) (ok : Bool)
    (hStep : ok = true → s.awaits (s.ctxs c) = true ∧ s.safeEventList ≠ []) :
    ∃ s', contextStarted c (s.setCtx c { s.ctxs c with safeSingleStep := ok }) = some s' ∧
      Inv s' ∧ (s.active = none → s' = s.setCtx c
        { s.ctxs c with safeSingleStep := ok, stopped := false }) := by
  obtain ⟨x, hx⟩ : ∃ x, s.ctxs c = x := ⟨_, rfl⟩
  obtain ⟨hCan, hNoStep⟩ := h.stopped c hc hStopped
  -- a context that is stopped is not waited for
  have hIdle : x.pendingSafeEvent = false := by
    rw [Bool.eq_false_iff]
    intro hPending
    rw [← hx] at hPending
    rw [h.running c hc hPending] at hStopped
    cases hStopped
  rw [hx] at hStopped hStep hCan hNoStep ⊢
  unfold contextStarted
  have hAwaits : (State.setCtx (s.setCtx c { x with safeSingleStep := ok }) c
      { (s.setCtx c { x with safeSingleStep := ok }).ctxs c with stopped := false }).awaits
        { x with safeSingleStep := ok, stopped := false } = s.awaits x := rfl
  have hLock : s.active ≠ none → s.runCtrlLockCnt ≠ 0 :=
    fun hActive => h.toCore.lock_pos (.inl hActive)
  rw [stopIfSafeEvents_eq (by exact hLock)]
  simp only [State.setCtx, Function.update_self, Function.update_idem] at hAwaits ⊢
  rw [hAwaits, hIdle]
  refine ⟨_, rfl, h.setCtx hc (fun _ => rfl) (fun hFalse => by cases hFalse) (fun hOk => ?_) ?_
    (by rw [hx]) (by rw [hx]) (by rw [hx])
    (fun hActive hMark hState _ _ hExiting _ => ?_) le_rfl, fun hNone => ?_⟩
  -- a single step in a safe event: the context is waited for again
  · obtain ⟨hYes, hSome⟩ := hStep hOk
    have hState : x.hasState = true := by
      simp only [State.awaits, Bool.and_eq_true] at hYes
      exact hYes.2
    exact ⟨hState, hCan, fun _ _ => ⟨by simp [hYes], hSome⟩⟩
  · rw [hx, hIdle]
    cases s.awaits x <;> rfl
  · have hSome : s.active.isSome = true := Option.isSome_iff_ne_none.2 hActive
    change x.stopGroupMark = true at hMark
    change x.hasState = true at hState
    change x.exiting = false at hExiting
    simp [State.awaits, hSome, hMark, hState, hExiting]
  · simp [State.awaits, hNone]

omit [DecidableEq G] in
/-- A context that has stopped or exited is not waited for any more. -/
theorem settle_inv (h : Inv s) (hc : c ∈ s.root)
    (hSettled : x.stopped = true ∨ x.exited = true) (hStep : x.safeSingleStep = false)
    (hStopped : x.stopped = true → x.cannotStop = false)
    (hPending : x.pendingSafeEvent = (s.ctxs c).pendingSafeEvent)
    (hMark : x.stopGroupMark = (s.ctxs c).stopGroupMark)
    (hGroup : x.stopGroup = (s.ctxs c).stopGroup) (hState : x.hasState = (s.ctxs c).hasState) :
    ∃ s', (if x.pendingSafeEvent then checkSafeEvents c (s.setCtx c x)
      else some (s.setCtx c x)) = some s' ∧ Inv s' := by
  have hNew {n m : Nat} (hCount : n + (if (s.ctxs c).pendingSafeEvent then 1 else 0) =
        s.safeEventPidCount) (hPosted : s.runSafeEventsPosted ≤ m) :
      Inv { s.setCtx c { x with pendingSafeEvent := false } with
        safeEventPidCount := n
        runSafeEventsPosted := m } :=
    h.setCtx hc (by simp) (fun hYes => ⟨hStopped hYes, hStep⟩) (by simp [hStep]) hCount hMark
      hGroup hState
      (fun _ _ _ hNo hNo' _ _ => by
        rcases hSettled with hYes | hYes
        · exact absurd (hYes.symm.trans hNo) (by simp)
        · exact absurd (hYes.symm.trans hNo') (by simp)) hPosted
  split
  · rename_i hYes
    have hOld : (s.ctxs c).pendingSafeEvent = true := hPending ▸ hYes
    have hPos : s.safeEventPidCount ≠ 0 := fun hZero => by
      exact absurd (hOld.symm.trans (h.toCore.not_pending hZero hc)) (by simp)
    have hGuard : ¬ ((x.stopped = false ∧ x.exited = false) ∨ x.pendingSafeEvent = false ∨
        s.safeEventPidCount = 0) := by
      rintro (⟨hNo, hNo'⟩ | hNo | hZero)
      · simp [hNo, hNo'] at hSettled
      · exact absurd (hYes.symm.trans hNo) (by simp)
      · exact hPos hZero
    have hCount : s.safeEventPidCount - 1 + (if (s.ctxs c).pendingSafeEvent then 1 else 0) =
        s.safeEventPidCount := by
      rw [if_pos hOld]
      omega
    unfold checkSafeEvents
    simp only [State.setCtx, Function.update_self, Function.update_idem, if_neg hGuard]
    split
    · exact ⟨_, rfl, hNew hCount (Nat.le_succ _)⟩
    · exact ⟨_, rfl, hNew hCount le_rfl⟩
  · rename_i hNo
    have hNo : x.pendingSafeEvent = false := by simpa using hNo
    have hCount : s.safeEventPidCount + (if (s.ctxs c).pendingSafeEvent then 1 else 0) =
        s.safeEventPidCount := by rw [← hPending, hNo]; rfl
    have hSame : ({ x with pendingSafeEvent := false } : Ctx G) = x := by rw [← hNo]
    have hEnd := hNew hCount le_rfl
    rw [hSame] at hEnd
    exact ⟨_, rfl, hEnd⟩

omit [DecidableEq G] in
theorem stopped_inv (h : Inv s) (hc : c ∈ s.root) :
    ∃ s', contextStopped c s = some s' ∧ Inv s' := by
  obtain ⟨s', hEq, h'⟩ := settle_inv h hc
    (x := { s.ctxs c with stopped := true, safeSingleStep := false, cannotStop := false })
    (.inl rfl) rfl (fun _ => rfl) rfl rfl rfl rfl
  have hCtx : (s.setCtx c { s.ctxs c with
      stopped := true, safeSingleStep := false, cannotStop := false }).ctxs c =
      { s.ctxs c with stopped := true, safeSingleStep := false, cannotStop := false } :=
    Function.update_self ..
  unfold contextStopped
  dsimp only
  rw [hCtx, hEq, Option.map_some]
  refine ⟨_, rfl, ?_⟩
  split
  · exact h'.wake
  · exact h'

omit [DecidableEq G] in
theorem exited_inv (h : Inv s) (hc : c ∈ s.root) :
    ∃ s', contextExited c s = some s' ∧ Inv s' := by
  obtain ⟨s', hEq, h'⟩ := settle_inv h hc
    (x := { s.ctxs c with exited := true, safeSingleStep := false })
    (.inr rfl) rfl (fun hStopped => (h.stopped c hc hStopped).1) rfl rfl rfl rfl
  have hCtx : (s.setCtx c { s.ctxs c with exited := true, safeSingleStep := false }).ctxs c =
      { s.ctxs c with exited := true, safeSingleStep := false } := Function.update_self ..
  unfold contextExited
  dsimp only
  rw [hCtx]
  exact ⟨s', hEq, h'⟩

omit [DecidableEq G] in
theorem exiting_inv (h : Inv s) (hc : c ∈ s.root) :
    Inv (s.setCtx c { s.ctxs c with exiting := true }) :=
  h.setCtx hc (h.running c hc) (h.stopped c hc)
    (fun hStep => by
      obtain ⟨hState, hCan, -⟩ := h.stepping c hc hStep
      exact ⟨hState, hCan, fun _ hFalse => by cases hFalse⟩)
    rfl rfl rfl rfl (fun _ _ _ _ _ hFalse _ => by cases hFalse) le_rfl

omit [DecidableEq G] in
/-- A context that is created is not waited for: its stop group is not marked. -/
theorem created_inv (h : Inv s) (hc : c ∉ s.root) {stopGroup : G}
    {hasState : Bool} (hCareful : Careful s (.created c stopGroup hasState)) :
    ∃ s', contextCreated c stopGroup hasState s = some s' ∧ Inv s' := by
  obtain ⟨x, hx⟩ : ∃ x : Ctx G, ({ stopGroup, hasState } : Ctx G) = x := ⟨_, rfl⟩
  have hEq : contextCreated c stopGroup hasState s =
      some { s.setCtx c x with root := s.root ++ [c] } := by
    subst hx
    simp [contextCreated, stopIfSafeEvents, State.setCtx]
  have hOld {c' : C} (hc' : c' ∈ s.root) : Function.update s.ctxs c x c' = s.ctxs c' :=
    Function.update_of_ne (ne_of_mem_of_not_mem hc' hc) _ _
  -- what holds of all contexts, and of the new one
  have hMem (P : Ctx G → Prop) (hRoot : ∀ c' ∈ s.root, P (s.ctxs c')) (hNew : P x) :
      ∀ c' ∈ s.root ++ [c], P (Function.update s.ctxs c x c') := by
    intro c' hc'
    rcases List.mem_append.1 hc' with hc' | hc'
    · rw [hOld hc']
      exact hRoot c' hc'
    · obtain rfl := List.mem_singleton.1 hc'
      rw [Function.update_self]
      exact hNew
  refine ⟨_, hEq, { h with
    nodup := ?_
    count := ?_
    running := hMem (fun x => x.pendingSafeEvent = true → x.stopped = false) h.running
      (by simp [← hx])
    queued := fun i hi => List.mem_append_left _ (h.queued i hi)
    stopped := hMem (fun x => x.stopped = true → x.cannotStop = false ∧ x.safeSingleStep = false)
      h.stopped (by simp [← hx])
    stepping := hMem (fun x => x.safeSingleStep = true → x.hasState = true ∧ x.cannotStop = false ∧
      (x.exited = false → x.exiting = false → x.pendingSafeEvent = true ∧ s.safeEventList ≠ []))
      h.stepping (by simp [← hx])
    marks := fun i hi => ?_ }⟩
  · exact List.nodup_append.2 ⟨h.nodup, List.nodup_singleton c, by
      rintro a ha b hb rfl
      exact hc (List.mem_singleton.1 hb ▸ ha)⟩
  · show s.safeEventPidCount = (s.root ++ [c]).countP fun c' =>
      (Function.update s.ctxs c x c').pendingSafeEvent
    rw [List.countP_append, countP_update_of_notMem Ctx.pendingSafeEvent s.ctxs x hc, ← h.count]
    simp [← hx]
  · have hActive : s.active ≠ none := by
      rintro hNone
      simp [State.setCtx, hNone] at hi
    obtain ⟨hMarks, hIn, hMarked⟩ := h.marks i hi
    refine ⟨⟨fun c₁ h₁ c₂ h₂ => ?_, hMem (fun x => x.stopGroupMark = true → x.hasState = true →
      x.stopped = false → x.exited = false → x.exiting = false → x.cannotStop = false →
      x.pendingSafeEvent = true) hMarks.pending (by simp [← hx])⟩, List.mem_append_left _ hIn, ?_⟩
    · simp only [State.setCtx]
      rcases List.mem_append.1 h₁ with hIn₁ | hNew₁
      · rw [hOld hIn₁]
        rcases List.mem_append.1 h₂ with hIn₂ | hNew₂
        · rw [hOld hIn₂]
          exact hMarks.groups c₁ hIn₁ c₂ hIn₂
        · rw [List.mem_singleton.1 hNew₂, Function.update_self, ← hx]
          exact fun hMark hGroup hState =>
            absurd hGroup.symm (hCareful hActive hState c₁ hIn₁ hMark)
      · rw [List.mem_singleton.1 hNew₁, Function.update_self, ← hx]
        exact fun hMark => by cases hMark
    · simp only [State.setCtx]
      rw [hOld hIn]
      exact hMarked

omit [DecidableEq G] in
/-- The stop group of a context changes; the marked groups stay what they are. -/
theorem regrouped_inv (h : Inv s) (hc : c ∈ s.root) {stopGroup : G}
    (hCareful : Careful s (.regrouped c stopGroup)) :
    Inv (s.setCtx c { s.ctxs c with stopGroup }) := by
  have hCore := h.toCore.setCtx hc (x := { s.ctxs c with stopGroup }) (h.running c hc)
    (h.stopped c hc) (h.stepping c hc) rfl
  refine { hCore with
    marks := fun i hi => ?_
    timer := h.timer
    idle := h.idle
    awake := h.awake }
  -- only while an event is run do the marks of groups matter
  have hActive : s.active ≠ none := by
    rintro hNone
    simp [State.setCtx, hNone] at hi
  obtain ⟨hMarks, hIn, hMarked⟩ := h.marks i hi
  have hOther {c' : C} (hc' : c' ≠ c) :
      Function.update s.ctxs c { s.ctxs c with stopGroup } c' = s.ctxs c' :=
    Function.update_of_ne hc' _ _
  refine ⟨⟨fun c₁ h₁ c₂ h₂ => ?_, fun c' hc' => ?_⟩, hIn, ?_⟩
  all_goals simp only [State.setCtx]
  · by_cases hc₁ : c₁ = c
    · subst hc₁
      by_cases hc₂ : c₂ = c₁
      · subst hc₂
        simp only [Function.update_self]
        exact fun hMark _ _ => hMark
      · rw [Function.update_self, hOther hc₂]
        exact fun hMark hGroup hState => (hCareful hActive c₂ h₂ hc₂ hGroup).1 hMark hState
    · rw [hOther hc₁]
      by_cases hc₂ : c₂ = c
      · subst hc₂
        rw [Function.update_self]
        exact fun hMark hGroup hState => (hCareful hActive c₁ h₁ hc₁ hGroup.symm).2 hMark hState
      · rw [hOther hc₂]
        exact hMarks.groups c₁ h₁ c₂ h₂
  · by_cases hc₁ : c' = c
    · subst hc₁
      rw [Function.update_self]
      exact hMarks.pending c' hc'
    · rw [hOther hc₁]
      exact hMarks.pending c' hc'
  · by_cases hc₁ : i.ctx = c
    · rw [hc₁, Function.update_self, ← hc₁]
      exact hMarked
    · rw [hOther hc₁]
      exact hMarked

omit [DecidableEq G] in
theorem singleStep_inv (h : Inv s) {ok : Bool}
    (hEnabled : Enabled s (.singleStep c ok)) :
    ∃ s', safeContextSingleStep c ok s = some s' ∧ Inv s' := by
  obtain ⟨hc, hOwn, hSome, hStopped, hExited, hExiting, hState⟩ := hEnabled
  obtain ⟨i, hi, rfl⟩ := Option.map_eq_some_iff.1 hOwn
  have hActive : s.active ≠ none := by
    rintro hNone
    simp [hNone] at hi
  have hNoStep := (h.stopped i.ctx hc hStopped).2
  have hGuard : ¬ (s.runCtrlLockCnt = 0 ∨ s.safeEventList = [] ∨
      (s.ctxs i.ctx).safeSingleStep = true) := by
    rintro (hFree | hNone | hYes)
    · exact h.toCore.lock_pos (.inl hActive) hFree
    · exact hSome hNone
    · exact absurd (hYes.symm.trans hNoStep) (by simp)
  unfold safeContextSingleStep
  rw [if_neg hGuard]
  cases ok with
  | false => exact ⟨s, rfl, h⟩
  | true =>
    have hAwaits : s.awaits (s.ctxs i.ctx) = true := by
      simp [State.awaits, Option.isSome_iff_ne_none.2 hActive, (h.marks i hi).2.2, hExiting, hState]
    obtain ⟨s', hEq, h', -⟩ := started_inv h hc hStopped true fun _ => ⟨hAwaits, hSome⟩
    exact ⟨s', by simpa using hEq, h'⟩

omit [DecidableEq G] in
/-- A context is resumed, as far as it was stopped. -/
theorem resumed_inv (h : Inv s) (hc : c ∈ s.root)
    (hStopped : s.active ≠ none → (s.ctxs c).stopped = true) :
    ∃ s', contextStarted c s = some s' ∧ Inv s' ∧
      (s.active = none → s' = s.setCtx c { s.ctxs c with stopped := false }) := by
  by_cases hYes : (s.ctxs c).stopped = true
  · have hNoStep := (h.stopped c hc hYes).2
    have hSame : ({ s.ctxs c with safeSingleStep := false } : Ctx G) = s.ctxs c := by rw [← hNoStep]
    have hSelf : s.setCtx c (s.ctxs c) = s := by
      unfold State.setCtx
      rw [Function.update_eq_self]
    obtain ⟨s', hEq, h', hEnd⟩ := started_inv h hc hYes false fun hFalse => by cases hFalse
    rw [hSame, hSelf] at hEq
    refine ⟨s', hEq, h', fun hNone => ?_⟩
    rw [hEnd hNone, ← hNoStep]
  · have hNone : s.active = none := by
      by_contra hActive
      exact hYes (hStopped hActive)
    have hSame : ({ s.ctxs c with stopped := false } : Ctx G) = s.ctxs c := by
      rw [← Bool.eq_false_iff.2 hYes]
    have hEq : contextStarted c s = some (s.setCtx c { s.ctxs c with stopped := false }) := by
      simp [contextStarted, stopIfSafeEvents, State.setCtx, hNone]
    refine ⟨_, hEq, ?_, fun _ => rfl⟩
    rw [hSame]
    unfold State.setCtx
    rw [Function.update_eq_self]
    exact h

/-! ## The queue -/

/-- What the loop makes of one context: it is waited for only when it runs, and not forever;
what runs in a marked group, or is single stepped, is waited for or given up. -/
structure Waits (x : Ctx G) (mark : Bool) (stopAllTimerCnt : Nat) (y : Ctx G) : Prop where
  stopGroup : y.stopGroup = x.stopGroup
  hasState : y.hasState = x.hasState
  stopped : y.stopped = x.stopped
  exiting : y.exiting = x.exiting
  exited : y.exited = x.exited
  marked : y.stopGroupMark = mark
  pending : y.pendingSafeEvent = true → x.stopped = false ∧ stopAllTimerCnt < stopAllMaxCnt
  kept : y.cannotStop = x.cannotStop ∧ y.safeSingleStep = x.safeSingleStep ∨
    x.stopped = false ∧ y.cannotStop = true ∧ y.safeSingleStep = false
  awaited : mark = true ∨ x.safeSingleStep = true → x.hasState = true → x.stopped = false →
    x.exited = false → x.exiting = false → y.cannotStop = false → y.pendingSafeEvent = true

omit [DecidableEq G] in
theorem waitFor_waits (x : Ctx G) (mark stops named : Bool) (cnt : Nat) :
    Waits x mark cnt (x.waitFor mark stops named cnt) := by
  unfold Ctx.waitFor
  dsimp only
  split
  · rename_i hGone
    simp only [Bool.or_eq_true] at hGone
    refine ⟨rfl, rfl, rfl, rfl, rfl, rfl, (by cases ·), .inl ⟨rfl, rfl⟩,
      fun _ _ _ hExited hExiting hCan => ?_⟩
    change x.cannotStop = false at hCan
    simp [hExited, hExiting, hCan] at hGone
  split
  · rename_i hWatched
    refine ⟨rfl, rfl, rfl, rfl, rfl, rfl, (by cases ·), .inl ⟨rfl, rfl⟩, fun hMark _ _ _ _ _ => ?_⟩
    rcases hMark with rfl | hStep
    · simp at hWatched
    · simp [hStep] at hWatched
  split
  · rename_i hRuns
    refine ⟨rfl, rfl, rfl, rfl, rfl, rfl, (by cases ·), .inl ⟨rfl, rfl⟩,
      fun _ hState hStopped _ _ _ => ?_⟩
    simp [hState, hStopped] at hRuns
  rename_i hRuns
  have hStopped : x.stopped = false := by
    rw [Bool.or_eq_true, not_or, Bool.not_eq_true] at hRuns
    exact hRuns.1
  -- the context is given up, or waited for
  have hGivenUp : Waits x mark cnt
      ({ x with pendingSafeEvent := false, stopGroupMark := mark } : Ctx G).markCannotStop :=
    ⟨rfl, rfl, rfl, rfl, rfl, rfl, (by cases ·), .inr ⟨hStopped, rfl, rfl⟩,
      fun _ _ _ _ _ hFalse => by cases hFalse⟩
  split
  · exact hGivenUp
  rename_i hCnt
  split
  · exact hGivenUp
  split
  · exact hGivenUp
  · exact ⟨rfl, rfl, rfl, rfl, rfl, rfl, fun _ => ⟨hStopped, not_le.1 hCnt⟩, .inl ⟨rfl, rfl⟩,
      fun _ _ _ _ _ _ => rfl⟩

/-- What `run_safe_events` makes of a context. -/
def State.waited (s : State C G) (t : Stops C) (c : C) : Ctx G :=
  (s.ctxs c).waitFor (isMarked s.safeEventList s c) (t.stops c) (t.named c) s.stopAllTimerCnt

variable {cs : List C}

theorem waitForAll_eq (t : Stops C) (hCs : cs.Nodup) (s : State C G) :
    waitForAll t cs s = { s with
      ctxs := fun c => if c ∈ cs then s.waited t c else s.ctxs c
      safeEventPidCount := s.safeEventPidCount +
        cs.countP fun c => (s.waited t c).pendingSafeEvent } := by
  induction cs generalizing s with
  | nil => simp [waitForAll]
  | cons c cs ih =>
    obtain ⟨hNot, hCs'⟩ := List.nodup_cons.1 hCs
    obtain ⟨s₁, hs₁⟩ : ∃ s₁ : State C G, { s.setCtx c (s.waited t c) with
      safeEventPidCount := s.safeEventPidCount +
        if (s.waited t c).pendingSafeEvent then 1 else 0 } = s₁ := ⟨_, rfl⟩
    have hStep : waitForAll t (c :: cs) s = waitForAll t cs s₁ := by rw [← hs₁]; rfl
    -- a turn does not change what the later ones look at
    have hGroup (c' : C) : (s₁.ctxs c').stopGroup = (s.ctxs c').stopGroup := by
      by_cases hc' : c' = c
      · subst hc'
        simp [← hs₁, State.setCtx, State.waited, (waitFor_waits ..).stopGroup]
      · simp [← hs₁, State.setCtx, Function.update_of_ne hc']
    have hWaited (c' : C) (hc' : c' ∈ cs) : s₁.waited t c' = s.waited t c' := by
      have hne : c' ≠ c := ne_of_mem_of_not_mem hc' hNot
      have hMarked : isMarked s₁.safeEventList s₁ c' = isMarked s.safeEventList s c' := by
        simp only [isMarked, hGroup]
        rw [← hs₁]
        rfl
      unfold State.waited
      rw [hMarked]
      simp [← hs₁, State.setCtx, Function.update_of_ne hne]
    have hCount : cs.countP (fun c => (s₁.waited t c).pendingSafeEvent) =
        cs.countP fun c => (s.waited t c).pendingSafeEvent :=
      List.countP_congr fun c' hc' => by rw [hWaited c' hc']
    have hCtxs : (fun c' => if c' ∈ cs then s₁.waited t c' else s₁.ctxs c') =
        fun c' => if c' ∈ c :: cs then s.waited t c' else s.ctxs c' := by
      funext c'
      by_cases hIn : c' ∈ cs
      · rw [if_pos hIn, if_pos (List.mem_cons_of_mem _ hIn), hWaited c' hIn]
      · rw [if_neg hIn]
        by_cases hc' : c' = c
        · subst hc'
          simp [← hs₁, State.setCtx]
        · simp [← hs₁, State.setCtx, hc', hIn]
    rw [hStep, ih hCs' s₁, hCtxs, hCount, ← hs₁, List.countP_cons]
    simp [State.setCtx]
    omega

theorem waited_eq (h : s.root.Nodup) (t : Stops C) :
    ∃ f : C → Ctx G, waitForAll t s.root { s with safeEventPidCount := 0 } = { s with
        ctxs := f
        safeEventPidCount := s.root.countP fun c => (f c).pendingSafeEvent } ∧
      ∀ c ∈ s.root, Waits (s.ctxs c) (isMarked s.safeEventList s c) s.stopAllTimerCnt (f c) := by
  obtain ⟨f, hf⟩ : ∃ f : C → Ctx G,
    (fun c => if c ∈ s.root then s.waited t c else s.ctxs c) = f := ⟨_, rfl⟩
  have hMember : ∀ c ∈ s.root, f c = s.waited t c := fun c hc => by
    rw [← hf]
    exact if_pos hc
  have hCount : s.root.countP (fun c => (s.waited t c).pendingSafeEvent) =
      s.root.countP fun c => (f c).pendingSafeEvent :=
    List.countP_congr fun c hc => by rw [hMember c hc]
  refine ⟨f, ?_, fun c hc => hMember c hc ▸ waitFor_waits ..⟩
  have hEq := waitForAll_eq t h { s with safeEventPidCount := 0 }
  have hWaited : State.waited ({ s with safeEventPidCount := 0 } : State C G) t = s.waited t := rfl
  rw [hWaited] at hEq
  rw [hf, hCount, Nat.zero_add] at hEq
  exact hEq

omit [DecidableEq C] in
/-- Every context has been looked at: the counter is right again. -/
theorem waited_core (h : Core s) (hSome : s.safeEventList ≠ []) {f : C → Ctx G}
    (hf : ∀ c ∈ s.root,
      Waits (s.ctxs c) (isMarked s.safeEventList s c) s.stopAllTimerCnt (f c)) :
    Core { s with
      ctxs := f
      safeEventPidCount := s.root.countP fun c => (f c).pendingSafeEvent } := by
  refine { h with
    count := rfl
    running := fun c hc hPending => ?_
    stopped := fun c hc hStopped => ?_
    stepping := fun c hc hStep => ?_ }
  all_goals have hWaits := hf c hc
  · show (f c).stopped = false
    rw [hWaits.stopped]
    exact (hWaits.pending hPending).1
  · change (f c).stopped = true at hStopped
    rw [hWaits.stopped] at hStopped
    -- the context is as it was, or runs and cannot be stopped
    rcases hWaits.kept with ⟨hCan, hStep⟩ | ⟨hRuns, -⟩
    · show (f c).cannotStop = false ∧ (f c).safeSingleStep = false
      rw [hCan, hStep]
      exact h.stopped c hc hStopped
    · exact absurd (hStopped.symm.trans hRuns) (by simp)
  · change (f c).safeSingleStep = true at hStep
    rcases hWaits.kept with ⟨hCan, hSame⟩ | ⟨-, -, hNone⟩
    · rw [hSame] at hStep
      obtain ⟨hState, hCan', -⟩ := h.stepping c hc hStep
      have hStopped : (s.ctxs c).stopped = false := by
        by_contra hYes
        rw [Bool.not_eq_false] at hYes
        exact absurd (hStep.symm.trans (h.stopped c hc hYes).2) (by simp)
      refine ⟨hWaits.hasState.trans hState, hCan.trans hCan', fun hExited hExiting => ⟨?_, hSome⟩⟩
      exact hWaits.awaited (.inr hStep) hState hStopped (hWaits.exited.symm.trans hExited)
        (hWaits.exiting.symm.trans hExiting) (hCan.trans hCan')
    · exact absurd (hStep.symm.trans hNone) (by simp)

omit [DecidableEq C] in
/-- The groups of the queued events are marked. -/
theorem waited_marks {f : C → Ctx G} (n : Nat)
    (hf : ∀ c ∈ s.root,
      Waits (s.ctxs c) (isMarked s.safeEventList s c) s.stopAllTimerCnt (f c)) :
    Marks { s with ctxs := f, safeEventPidCount := n } := by
  refine ⟨fun c hc c' hc' hMark hGroup _ => ?_,
    fun c hc hMark hState hStopped hExited hExiting hCan => ?_⟩
  · change (f c).stopGroupMark = true at hMark
    change (f c').stopGroup = (f c).stopGroup at hGroup
    show (f c').stopGroupMark = true
    rw [(hf c hc).marked] at hMark
    rw [(hf c' hc').stopGroup, (hf c hc).stopGroup] at hGroup
    rw [(hf c' hc').marked]
    unfold isMarked
    rw [hGroup]
    exact hMark
  · have hWaits := hf c hc
    exact hWaits.awaited (.inl (hWaits.marked.symm.trans hMark))
      (hWaits.hasState.symm.trans hState) (hWaits.stopped.symm.trans hStopped)
      (hWaits.exited.symm.trans hExited) (hWaits.exiting.symm.trans hExiting) hCan

omit [DecidableEq C] in
/-- With nobody to wait for, all contexts of a marked group are stopped, or need not be. -/
theorem allStopped_of_marks (h : Core s) (hMarks : Marks s)
    (hZero : s.safeEventPidCount = 0) (hc : c ∈ s.root)
    (hMark : (s.ctxs c).stopGroupMark = true) : isAllStopped c s = true := by
  refine List.all_eq_true.2 fun c' hc' => ?_
  have hIdle := h.not_pending hZero hc'
  by_contra hRuns
  simp only [Bool.or_eq_true, not_or, Bool.not_eq_true, Bool.not_eq_false',
    decide_eq_false_iff_not, ne_eq, not_not] at hRuns
  obtain ⟨⟨⟨⟨⟨hStopped, hExited⟩, hExiting⟩, hCan⟩, hState⟩, hGroup⟩ := hRuns
  have hMark' := hMarks.groups c hc c' hc' hMark hGroup hState
  have hPending := hMarks.pending c' hc' hMark' hState hStopped hExited hExiting hCan
  exact absurd (hPending.symm.trans hIdle) (by simp)

variable {l : List (SafeEvent C)}

omit [DecidableEq C] in
/-- The queue is run: no assertion fails. What is left is waited for, or the function of an
event is being called. -/
theorem runQueue_inv (h : Core s) (hMarks : Marks s)
    (hNone : s.active = none) (hList : s.safeEventList = l)
    (hCnt : 0 < s.safeEventPidCount → s.stopAllTimerCnt < stopAllMaxCnt)
    (hZero : s.safeEventPidCount = 0 → s.stopAllTimerCnt = 0)
    (hTimer : s.stopAllTimerPosted = true → 0 < s.safeEventPidCount ∧ l ≠ []) :
    ∃ s', runQueue l s = some s' ∧ Inv s' := by
  induction l generalizing s with
  | nil =>
    refine ⟨s, rfl, { h with
      marks := fun i hi => by simp [hNone] at hi
      timer := fun hYes => absurd rfl (hTimer hYes).2
      idle := fun hActive => absurd hNone hActive
      awake := fun _ hSome => absurd hList hSome }⟩
  | cons i rest ih =>
    have hSome : s.safeEventList ≠ [] := by simp [hList]
    have hIn : i.ctx ∈ s.root := h.queued i (by simp [hList])
    have hWaiting : s.stopAllTimerPosted = true →
        s.active = none ∧ s.safeEventList ≠ [] ∧ s.stopAllTimerCnt < stopAllMaxCnt :=
      fun hYes => ⟨hNone, hSome, hCnt (hTimer hYes).1⟩
    -- the first event is run only when its contexts are marked and nobody is waited for
    unfold runQueue
    split
    · rw [if_neg (h.lock_pos (.inr hSome))]
      refine ⟨_, rfl, ?_⟩
      split
      · exact { h with
          marks := fun i hi => by simp [postRunSafeEvents, hNone] at hi
          timer := hWaiting
          idle := fun hActive => absurd hNone hActive
          awake := fun _ _ => .inl (Nat.succ_pos _) }
      · rename_i hPosted
        exact { h with
          marks := fun i hi => by simp [hNone] at hi
          timer := hWaiting
          idle := fun hActive => absurd hNone hActive
          awake := fun _ _ => .inl (Nat.pos_of_ne_zero hPosted) }
    rename_i hMark
    rw [Bool.not_eq_false] at hMark
    split
    · rename_i hPos
      exact ⟨_, rfl, { h with
        marks := fun i hi => by simp [hNone] at hi
        timer := fun _ => ⟨hNone, hSome, hCnt hPos⟩
        idle := fun hActive => absurd hNone hActive
        awake := fun _ _ => .inr rfl }⟩
    -- from here on the event is taken off the queue
    rename_i hNobody
    have hNobody : s.safeEventPidCount = 0 := Nat.eq_zero_of_not_pos hNobody
    have hNoTimer : s.stopAllTimerPosted = false := by
      rw [Bool.eq_false_iff]
      exact fun hYes => absurd hNobody (Nat.pos_iff_ne_zero.1 (hTimer hYes).1)
    have hIdle := h.not_pending hNobody hIn
    have hQueued : ∀ j ∈ rest, j.ctx ∈ s.root := fun j hj => h.queued j (by simp [hList, hj])
    have hStepping : ∀ c ∈ s.root, (s.ctxs c).safeSingleStep = true →
        (s.ctxs c).hasState = true ∧ (s.ctxs c).cannotStop = false ∧ ((s.ctxs c).exited = false →
          (s.ctxs c).exiting = false → (s.ctxs c).pendingSafeEvent = true ∧ rest ≠ []) := by
      intro c hc hStep
      obtain ⟨hState, hCan, hPending⟩ := h.stepping c hc hStep
      refine ⟨hState, hCan, fun hExited hExiting => ?_⟩
      have hNot := h.not_pending hNobody hc
      exact absurd ((hPending hExited hExiting).1.symm.trans hNot) (by simp)
    have hRan : (s.ran ++ [i.number]) ++ rest.map SafeEvent.number = List.range s.posted := by
      rw [← h.ran, hList]
      simp
    have hReleased : s.released = s.ran := by
      rw [← h.released, hNone]
      simp
    have hLock : s.runCtrlLockCnt = s.others + rest.length + 1 := by
      rw [h.lock, hNone, hList]
      simp
      omega
    have hAll := allStopped_of_marks h hMarks hNobody hIn hMark
    rw [if_neg (by simp [hAll])]
    dsimp only
    split
    · rw [if_neg (by simp [hIdle])]
      refine ⟨_, rfl, { h with
        lock := hLock
        queued := hQueued
        stepping := hStepping
        ran := hRan
        released := by simp [hReleased]
        marks := fun j hj => ?_
        timer := fun hYes => absurd (hNoTimer.symm.trans hYes) (by simp)
        idle := fun _ => hZero hNobody
        awake := fun hNo => by cases hNo }⟩
      obtain rfl : i = j := by simpa using hj
      exact ⟨{ hMarks with }, hIn, hMark⟩
    -- the event is dropped: its lock is released, and the rest of the queue follows
    · have hCore : Core { s with
          safeEventList := rest
          ran := s.ran ++ [i.number]
          released := s.released ++ [i.number]
          runCtrlLockCnt := s.runCtrlLockCnt - 1 } := { h with
        lock := by
          show s.runCtrlLockCnt - 1 = s.others + rest.length + if s.active.isSome then 1 else 0
          rw [hLock, hNone]
          rfl
        queued := hQueued
        stepping := hStepping
        ran := hRan
        released := by simp [hReleased, hNone] }
      obtain ⟨m, hm, hEq⟩ := runCtrlUnlock_eq (s := { s with
          safeEventList := rest
          ran := s.ran ++ [i.number]
          released := s.released ++ [i.number] }) (h.lock_pos (.inr hSome)) hCore
      rw [hEq, Option.bind_some]
      exact ih { hCore with } { hMarks with } hNone rfl hCnt hZero fun hYes =>
        absurd (hNoTimer.symm.trans hYes) (by simp)

omit [DecidableEq C] in
/-- The function of the active event returns. -/
theorem returns_inv (h : Inv s) (hActive : s.active ≠ none) :
    ∃ s', callbackReturns s = some s' ∧ Inv s' := by
  obtain ⟨i, hi⟩ := Option.ne_none_iff_exists'.1 hActive
  have hNoTimer : s.stopAllTimerPosted = false := by
    rw [Bool.eq_false_iff]
    exact fun hYes => hActive (h.timer hYes).1
  have hCore : Core { s with
      active := none
      released := s.released ++ [i.number]
      runCtrlLockCnt := s.runCtrlLockCnt - 1 } := { h with
    lock := by
      show s.runCtrlLockCnt - 1 = s.others + s.safeEventList.length + 0
      rw [h.lock, hi]
      rfl
    released := by
      show (s.released ++ [i.number]) ++ [] = s.ran
      rw [← h.released, hi]
      simp }
  obtain ⟨m, hm, hEq⟩ := runCtrlUnlock_eq
    (s := { s with active := none, released := s.released ++ [i.number] })
    (h.toCore.lock_pos (.inl hActive)) hCore
  unfold callbackReturns
  rw [hi]
  dsimp only
  rw [hEq, Option.bind_some]
  have hIdle := h.idle hActive
  exact runQueue_inv { hCore with } { (h.marks i hi).1 with } rfl rfl
    (fun _ => by
      show s.stopAllTimerCnt < stopAllMaxCnt
      rw [hIdle]
      decide)
    (fun _ => hIdle) fun hYes => absurd (hNoTimer.symm.trans hYes) (by simp)

theorem dispatch_inv (h : Inv s) (t : Stops C) (hNone : s.active = none) :
    ∃ s', runSafeEvents t s = some s' ∧ Inv s' := by
  -- the posted events are counted down, and nothing else changes
  have hLess {m k : Nat} (hAwake : s.safeEventList ≠ [] → 0 < m ∨ s.stopAllTimerPosted = true) :
      Inv { s with runSafeEventsPosted := m, syncRunStatePosted := k } := { h with
    marks := fun i hi => by simp [hNone] at hi
    awake := fun _ => hAwake }
  unfold runSafeEvents
  dsimp only
  split
  · rename_i hMore
    exact ⟨_, rfl, hLess fun _ => .inl hMore⟩
  split
  · rename_i hFree
    exact ⟨_, rfl, hLess fun hSome => absurd hFree (h.toCore.lock_pos (.inr hSome))⟩
  split
  · rename_i hEmpty
    exact ⟨_, rfl, hLess fun hSome => absurd hEmpty hSome⟩
  · rename_i hSome
    obtain ⟨f, hEq, hf⟩ := waited_eq
      (s := { s with runSafeEventsPosted := s.runSafeEventsPosted - 1 }) h.nodup t
    have hCore := waited_core (s := { s with runSafeEventsPosted := s.runSafeEventsPosted - 1 })
      { h.toCore with } hSome hf
    have hMarks := waited_marks
      (s := { s with runSafeEventsPosted := s.runSafeEventsPosted - 1 })
      (s.root.countP fun c => (f c).pendingSafeEvent) hf
    have hCnt : 0 < (s.root.countP fun c => (f c).pendingSafeEvent) →
        s.stopAllTimerCnt < stopAllMaxCnt := fun hPos => by
      obtain ⟨c, hc, hPending⟩ := List.countP_pos_iff.1 hPos
      exact ((hf c hc).pending hPending).2
    rw [hEq]
    split
    -- nobody has to be waited for: the queue is run
    · rename_i hZero
      refine runQueue_inv { hCore with } { hMarks with } hNone rfl (fun hPos => ?_)
        (fun _ => rfl) fun hYes => by cases hYes
      exact absurd hZero (Nat.pos_iff_ne_zero.1 hPos)
    -- the contexts that still run are waited for, with a timer
    · rename_i hPos
      exact runQueue_inv hCore hMarks hNone rfl hCnt (fun hZero => absurd hZero hPos)
        fun _ => ⟨Nat.pos_of_ne_zero hPos, hSome⟩

omit [DecidableEq C] [DecidableEq G] in
theorem timer_inv (h : Inv s) (hNone : s.active = none) :
    Inv (stopAllTimer s) :=
  { h with
    marks := fun i hi => by simp [stopAllTimer, postRunSafeEvents, hNone] at hi
    timer := fun hYes => by cases hYes
    idle := fun hActive => absurd hNone hActive
    awake := fun _ _ => .inl (Nat.succ_pos _) }

/-! ## Stopping and resuming contexts -/

omit [DecidableEq G] in
/-- The flags are cleared, but for contexts that come after one where something is missing. -/
theorem clearPending_eq (missing : Option C) (hCs : cs.Nodup) (s : State C G) :
    ∃ f : C → Ctx G, (clearPending missing cs s).1 = { s with ctxs := f } ∧
      (∀ c, f c = s.ctxs c ∨ f c = { s.ctxs c with pendingSafeEvent := false }) ∧
      ∀ c ∈ cs, (f c).pendingSafeEvent = false ∨ ∃ c₀ ∈ missing, (s.ctxs c₀).hasState = false ∧
        c ∈ (cs.dropWhile (· ≠ c₀)).tail := by
  induction cs generalizing s with
  | nil => exact ⟨s.ctxs, rfl, fun _ => .inl rfl, by simp⟩
  | cons c cs ih =>
    obtain ⟨hNot, hCs'⟩ := List.nodup_cons.1 hCs
    obtain ⟨g, hg⟩ : ∃ g, Function.update s.ctxs c
      { s.ctxs c with pendingSafeEvent := false } = g := ⟨_, rfl⟩
    have hSelf : g c = { s.ctxs c with pendingSafeEvent := false } := by simp [← hg]
    have hOther {c' : C} (hc' : c' ≠ c) : g c' = s.ctxs c' := by
      simp [← hg, Function.update_of_ne hc']
    have hState (c' : C) : (g c').hasState = (s.ctxs c').hasState := by
      by_cases hc' : c' = c
      · rw [hc', hSelf]
      · rw [hOther hc']
    unfold clearPending
    simp only [State.setCtx, hg]
    split
    · rename_i hMissing
      refine ⟨g, rfl, fun c' => ?_, fun c' hc' => ?_⟩
      · by_cases hEq : c' = c
        · exact .inr (hEq ▸ hSelf)
        · exact .inl (hOther hEq)
      · rcases List.mem_cons.1 hc' with rfl | hc'
        · exact .inl (by rw [hSelf])
        · exact .inr ⟨c, hMissing.1, (hState c).symm.trans hMissing.2, by simpa using hc'⟩
    · rename_i hThere
      obtain ⟨f, hEq, hf, hClear⟩ := ih hCs' { s with ctxs := g }
      refine ⟨f, hEq, fun c' => ?_, fun c' hc' => ?_⟩
      · by_cases hc : c' = c
        · rcases hf c' with hSame | hSame
          · exact .inr (by rw [hSame, hc]; exact hSelf)
          · refine .inr (hSame.trans ?_)
            show ({ g c' with pendingSafeEvent := false } : Ctx G) = _
            rw [hc, hSelf]
        · have hSame := hf c'
          dsimp only at hSame
          rwa [hOther hc] at hSame
      · rcases List.mem_cons.1 hc' with rfl | hc'
        · rcases hf c' with hSame | hSame
          · exact .inl (by rw [hSame]; show (g c').pendingSafeEvent = false; rw [hSelf])
          · exact .inl (by rw [hSame])
        · refine (hClear c' hc').imp id ?_
          rintro ⟨c₀, hMissing, hNoState, hTail⟩
          have hNoState' : (s.ctxs c₀).hasState = false := (hState c₀).symm.trans hNoState
          have hne : c ≠ c₀ := by
            rintro rfl
            exact hThere ⟨hMissing, hNoState⟩
          exact ⟨c₀, hMissing, hNoState', by simpa [List.dropWhile_cons, hne] using hTail⟩

/-- What the loops of `sync_run_state` keep, as long as they go on. -/
structure Syncing (root : List C) (s : State C G) : Prop where
  inv : Inv s
  active : s.active = none
  root : s.root = root

variable {root : List C}

omit [DecidableEq G] in
theorem resumeContext_inv (h : Syncing root s)
    (hc : c ∈ root) (r : Resume) (p : Progress C) :
    ∃ q, resumeContext c r p s = some q ∧ Syncing root q.2 ∧ q.1.laterOnes = p.laterOnes ∧
      ∀ c' ≠ c, q.2.ctxs c' = s.ctxs c' := by
  have hc' : c ∈ s.root := h.root ▸ hc
  cases r with
  | runs =>
    obtain ⟨s', hEq, h', hEnd⟩ := resumed_inv h.inv hc' fun hActive => absurd h.active hActive
    have hEnd := hEnd h.active
    refine ⟨(p, s'), by simp [resumeContext, hEq], ⟨h', ?_, ?_⟩, rfl, fun c' hne => ?_⟩
    · rw [hEnd]
      exact h.active
    · rw [hEnd]
      exact h.root
    · rw [hEnd]
      exact Function.update_of_ne hne _ _
  | skips =>
    obtain ⟨s', hEq, h', hRoot, hCtxs, hActive⟩ := postSafeEvent_inv h.inv hc' true
    exact ⟨(p, s'), by simp [resumeContext, hEq], ⟨h', hActive.trans h.active, hRoot.trans h.root⟩,
      rfl, fun c' _ => by rw [hCtxs]⟩
  | fails => exact ⟨_, rfl, h, rfl, fun _ _ => rfl⟩
  | misses => exact ⟨_, rfl, h, rfl, fun _ _ => rfl⟩

variable {p : Progress C}

omit [DecidableEq G] in
/-- A context that is not waited for is stopped, or resumed. -/
theorem stopOrResume_inv (h : Syncing root s)
    (hc : c ∈ root) (hIdle : (s.ctxs c).pendingSafeEvent = false) (hFree : s.runCtrlLockCnt = 0)
    (plan : Plan) (hLater : ∀ x ∈ p.laterOnes, x.1 ∈ root) :
    ∃ q, stopOrResume plan c p s = some q ∧ Syncing root q.2 ∧
      (∀ x ∈ q.1.laterOnes, x.1 ∈ root) ∧ ∀ c' ≠ c, q.2.ctxs c' = s.ctxs c' := by
  have hc' : c ∈ s.root := h.root ▸ hc
  have hSame : ∃ q, some (p, s) = some q ∧ Syncing root q.2 ∧
      (∀ x ∈ q.1.laterOnes, x.1 ∈ root) ∧ ∀ c' ≠ c, q.2.ctxs c' = s.ctxs c' :=
    ⟨_, rfl, h, hLater, fun _ _ => rfl⟩
  unfold stopOrResume
  dsimp only
  split
  · exact hSame
  rename_i hThere
  simp only [Bool.or_eq_true, not_or, Bool.not_eq_true] at hThere
  cases plan with
  | leave => exact hSame
  | suspend =>
    dsimp only
    split
    · rename_i hRuns
      simp only [Bool.and_eq_true, Bool.not_eq_true'] at hRuns
      -- nobody is single stepped while the lock is free
      have hNoStep : (s.ctxs c).safeSingleStep = false := by
        rw [Bool.eq_false_iff]
        intro hStep
        have hSome := ((h.inv.stepping c hc' hStep).2.2 hThere.1 hRuns.2).2
        exact h.inv.toCore.lock_pos (.inr hSome) hFree
      rw [if_neg (by simp [hNoStep])]
      have hInv : Inv { s.setCtx c { s.ctxs c with pendingSafeEvent := true } with
          safeEventPidCount := s.safeEventPidCount + 1 } :=
        h.inv.setCtx hc' (fun _ => hRuns.1) (h.inv.stopped c hc')
          (fun hStep => absurd (hStep.symm.trans hNoStep) (by simp)) (by rw [hIdle]; rfl) rfl rfl
          rfl (fun hActive => absurd h.active hActive) le_rfl
      exact ⟨_, rfl, ⟨hInv, h.active, h.root⟩, hLater, fun c' hne => Function.update_of_ne hne _ _⟩
    · exact hSame
  | resume r =>
    dsimp only
    split
    · obtain ⟨q, hEq, h', hOnes, hOther⟩ := resumeContext_inv h hc r p
      exact ⟨q, hEq, h', hOnes ▸ hLater, hOther⟩
    · exact hSame
  | later r =>
    dsimp only
    split
    · refine ⟨_, rfl, h, fun x hx => ?_, fun _ _ => rfl⟩
      rcases List.mem_append.1 hx with hx | hx
      · exact hLater x hx
      · obtain rfl := List.mem_singleton.1 hx
        exact hc
    · exact hSame

omit [DecidableEq C] [DecidableEq G] in
theorem goesOn_free (h : goesOn p s = true) :
    s.runCtrlLockCnt = 0 := by
  simp only [goesOn, Bool.and_eq_true, decide_eq_true_eq] at h
  exact h.1.2

omit [DecidableEq G] in
theorem stopOrResumeAll_inv (plan : C → Plan) (hCs : cs.Nodup)
    (hRoot : ∀ c ∈ cs, c ∈ root) (h : Syncing root s)
    (hIdle : ∀ c ∈ cs, (s.ctxs c).pendingSafeEvent = false)
    (hLater : ∀ x ∈ p.laterOnes, x.1 ∈ root) :
    ∃ q, stopOrResumeAll plan cs p s = some q ∧ Syncing root q.2 ∧
      ∀ x ∈ q.1.laterOnes, x.1 ∈ root := by
  induction cs generalizing s p with
  | nil => exact ⟨_, rfl, h, hLater⟩
  | cons c cs ih =>
    obtain ⟨hNot, hCs'⟩ := List.nodup_cons.1 hCs
    unfold stopOrResumeAll
    split
    · rename_i hOn
      obtain ⟨q, hEq, h', hLater', hOther⟩ := stopOrResume_inv h (hRoot c List.mem_cons_self)
        (hIdle c List.mem_cons_self) (goesOn_free hOn) (plan c) hLater
      rw [hEq, Option.bind_some]
      refine ih hCs' (fun c' hc' => hRoot c' (List.mem_cons_of_mem _ hc')) h' (fun c' hc' => ?_)
        hLater'
      rw [hOther c' (ne_of_mem_of_not_mem hc' hNot)]
      exact hIdle c' (List.mem_cons_of_mem _ hc')
    · exact ⟨_, rfl, h, hLater⟩

omit [DecidableEq G] in
theorem resumeLater_inv {later : List (C × Resume)}
    (hLater : ∀ x ∈ later, x.1 ∈ root) (h : Syncing root s) (p : Progress C) :
    ∃ q, resumeLater later p s = some q ∧ Syncing root q.2 := by
  induction later generalizing s p with
  | nil => exact ⟨_, rfl, h⟩
  | cons x rest ih =>
    obtain ⟨c, r⟩ := x
    unfold resumeLater
    split
    · obtain ⟨q, hEq, h', -⟩ := resumeContext_inv h (hLater _ List.mem_cons_self) r p
      rw [hEq, Option.bind_some]
      exact ih (fun x hx => hLater x (List.mem_cons_of_mem _ hx)) h' q.1
    · exact ⟨_, rfl, h⟩

variable {t : Sync C}

omit [DecidableEq G] in
theorem syncRunState_inv (h : Inv s) (hNone : s.active = none)
    (hCareful : Careful s (.sync t : Event C G)) :
    ∃ q, syncRunState t s = some q ∧ Inv q.2 := by
  unfold syncRunState
  split
  · exact ⟨_, rfl, h⟩
  rename_i hFree
  have hFree : s.runCtrlLockCnt = 0 := not_not.1 hFree
  have hEmpty : s.safeEventList = [] := by
    by_contra hSome
    exact h.toCore.lock_pos (.inr hSome) hFree
  rw [if_neg (not_not.2 hEmpty)]
  obtain ⟨f, hClear, hf, hIdle⟩ := clearPending_eq t.missing h.nodup
    { s with stopAllTimerCnt := 0, safeEventPidCount := 0 }
  have hIdle : ∀ c ∈ s.root, (f c).pendingSafeEvent = false := by
    intro c hc
    rcases hIdle c hc with hIdle | ⟨c₀, hMissing, hNoState, hTail⟩
    · exact hIdle
    · have hMissing : t.missing = some c₀ := hMissing
      unfold Careful at hCareful
      dsimp only at hCareful
      rw [hMissing] at hCareful
      have hNot := hCareful hFree hNoState c hTail
      rcases hf c with hSame | hSame
      · rw [hSame]
        exact hNot
      · rw [hSame]
  -- clearing the marks leaves the rest of a context alone
  have hSame (c : C) : (f c).stopped = (s.ctxs c).stopped ∧
      (f c).cannotStop = (s.ctxs c).cannotStop ∧
      (f c).safeSingleStep = (s.ctxs c).safeSingleStep ∧ (f c).hasState = (s.ctxs c).hasState ∧
      (f c).exited = (s.ctxs c).exited ∧ (f c).exiting = (s.ctxs c).exiting := by
    rcases hf c with hEq | hEq <;> rw [hEq] <;> exact ⟨rfl, rfl, rfl, rfl, rfl, rfl⟩
  have hZero : s.root.countP (fun c => (f c).pendingSafeEvent) = 0 :=
    List.countP_eq_zero.2 fun c hc => by simp [hIdle c hc]
  have hNoTimer : s.stopAllTimerPosted = false := by
    rw [Bool.eq_false_iff]
    exact fun hYes => (h.timer hYes).2.1 hEmpty
  have hCleared : Syncing s.root
      { s with ctxs := f, stopAllTimerCnt := 0, safeEventPidCount := 0 } := by
    refine ⟨{ h with
      count := hZero.symm
      running := fun c hc hPending => absurd (hPending.symm.trans (hIdle c hc)) (by simp)
      stopped := fun c hc hStopped => ?_
      stepping := fun c hc hStep => ?_
      marks := fun i hi => by simp [hNone] at hi
      timer := fun hYes => absurd (hNoTimer.symm.trans hYes) (by simp)
      idle := fun _ => rfl }, hNone, rfl⟩
    · obtain ⟨hEq₁, hEq₂, hEq₃, -⟩ := hSame c
      show (f c).cannotStop = false ∧ (f c).safeSingleStep = false
      rw [hEq₂, hEq₃]
      exact h.stopped c hc (hEq₁.symm.trans hStopped)
    · obtain ⟨-, hEq₂, hEq₃, hEq₄, hEq₅, hEq₆⟩ := hSame c
      obtain ⟨hState, hCan, hPending⟩ := h.stepping c hc (hEq₃.symm.trans hStep)
      refine ⟨hEq₄.trans hState, hEq₂.trans hCan, fun hExited hExiting => ?_⟩
      exact absurd hEmpty (hPending (hEq₅.symm.trans hExited) (hEq₆.symm.trans hExiting)).2
  obtain ⟨missed, hMissed⟩ : ∃ missed, (clearPending t.missing s.root
    { s with stopAllTimerCnt := 0, safeEventPidCount := 0 }).2 = missed := ⟨_, rfl⟩
  have hPair : clearPending t.missing s.root
      { s with stopAllTimerCnt := 0, safeEventPidCount := 0 } =
      ({ s with ctxs := f, stopAllTimerCnt := 0, safeEventPidCount := 0 }, missed) :=
    Prod.ext hClear hMissed
  rw [hPair]
  dsimp only
  split
  · exact ⟨_, rfl, hCleared.inv⟩
  · obtain ⟨q, hAll, hSync, hLater⟩ := stopOrResumeAll_inv t.plan h.nodup (fun _ hc => hc) hCleared
      hIdle (p := {}) (by simp)
    obtain ⟨q', hRest, hSync'⟩ := resumeLater_inv hLater hSync q.1
    rw [hAll, Option.bind_some, hRest, Option.map_some]
    refine ⟨_, rfl, ?_⟩
    split
    · exact hSync'.inv
    split
    · exact hSync'.inv
    split
    · exact hSync'.inv.wake
    · exact hSync'.inv

omit [DecidableEq G] in
theorem sync_inv (h : Inv s) (hNone : s.active = none)
    (hCareful : Careful s (.sync t : Event C G)) : ∃ s', syncClient t s = some s' ∧ Inv s' := by
  obtain ⟨q, hEq, h'⟩ := syncRunState_inv h hNone hCareful
  unfold syncClient
  rw [hEq, Option.map_some]
  refine ⟨_, rfl, ?_⟩
  dsimp only
  split
  · exact h'
  · exact { h' with
      marks := fun i hi => by
        obtain ⟨hMarks, hRest⟩ := h'.marks i hi
        exact ⟨{ hMarks with }, hRest⟩ }

/-! ## Runs -/

variable {e : Event C G}

/-- A step: no assertion fails, and the invariant is kept. -/
theorem step_inv (h : Inv s) (hEnabled : Enabled s e)
    (hCareful : Careful s e) : ∃ s', step s e = some s' ∧ Inv s' := by
  cases e with
  | post c done =>
    obtain ⟨s', hEq, h', -⟩ := postSafeEvent_inv h hEnabled done
    exact ⟨s', hEq, h'⟩
  | checkStopped c => exact checkAllStopped_inv h hEnabled
  | lock => exact lock_inv h
  | unlock => exact unlock_inv h hEnabled
  | wake => exact ⟨_, rfl, h.wake⟩
  | singleStep c ok => exact singleStep_inv h hEnabled
  | created c stopGroup hasState => exact created_inv h hEnabled hCareful
  | changed c => exact changed_inv h hEnabled.1 hCareful
  | started c =>
    obtain ⟨s', hEq, h', -⟩ := resumed_inv h hEnabled.1 fun _ => hEnabled.2.1
    exact ⟨s', hEq, h'⟩
  | stopped c => exact stopped_inv h hEnabled.1
  | exiting c => exact ⟨_, rfl, exiting_inv h hEnabled⟩
  | exited c => exact exited_inv h hEnabled.1
  | regrouped c stopGroup => exact ⟨_, rfl, regrouped_inv h hEnabled hCareful⟩
  | dispatch t => exact dispatch_inv h t hEnabled.1
  | returns => exact returns_inv h hEnabled
  | timer => exact ⟨_, rfl, timer_inv h hEnabled.1⟩
  | sync t => exact sync_inv h hEnabled.1 hCareful

/-! ## Progress -/

/-- Nothing new comes: events are dispatched, the function of an event returns, contexts are
left as they are. -/
def Quiet : Event C G → Prop
  | .dispatch _ => True
  | .returns => True
  | .timer => True
  | .sync t => t.missing = none ∧ t.missingLater = false ∧ ∀ c, t.plan c = .leave
  | _ => False

/-- How many such steps there can be. While somebody is waited for, the timer is posted again
and again, until the contexts that do not stop are given up. -/
def State.toDo (s : State C G) : Nat :=
  50 * s.safeEventList.length + (if s.active.isSome then 3 else 0) + 2 * s.runSafeEventsPosted +
    s.syncRunStatePosted + (if s.stopAllTimerPosted then 1 else 0) +
    if s.safeEventList = [] then 0 else 2 * (stopAllMaxCnt - s.stopAllTimerCnt)

variable {s s' : State C G}

omit [DecidableEq C] [DecidableEq G] in
theorem runCtrlUnlock_some (h : runCtrlUnlock s = some s') :
    ∃ n m, s' = { s with runCtrlLockCnt := n, runSafeEventsPosted := m } ∧
      m ≤ s.runSafeEventsPosted + if s.safeEventList = [] then 1 else 0 := by
  unfold runCtrlUnlock at h
  split at h
  · cases h
  dsimp only at h
  split at h
  · cases h
    exact ⟨_, _, rfl, Nat.le_add_right _ _⟩
  split at h
  · cases h
  · rename_i hEmpty
    cases h
    refine ⟨_, _, rfl, ?_⟩
    rw [if_pos (not_not.1 hEmpty)]

omit [DecidableEq C] in
/-- Running the queue may leave one more event posted, or the timer. -/
theorem runQueue_toDo (hNone : s.active = none)
    (hList : s.safeEventList = l) (h : runQueue l s = some s') : s'.toDo ≤ s.toDo + 2 := by
  induction l generalizing s with
  | nil =>
    cases h
    exact Nat.le_add_right _ _
  | cons i rest ih =>
    have hLength : s.safeEventList.length = rest.length + 1 := by simp [hList]
    have hSome : s.safeEventList ≠ [] := by simp [hList]
    unfold runQueue at h
    split at h
    -- the group of the first event is not marked: the function is posted again
    · split at h
      · cases h
      · cases h
        split
        · simp [State.toDo, postRunSafeEvents, hNone]
          omega
        · exact Nat.le_add_right _ _
    split at h
    · cases h
      simp only [State.toDo, if_true]
      split <;> omega
    split at h
    · cases h
    dsimp only at h
    split at h
    · split at h
      · cases h
      · cases h
        simp only [State.toDo, hSome, if_false, hLength, hNone]
        simp only [Option.isSome_some, Option.isSome_none, if_true]
        split <;> split <;> simp_all <;> omega
    -- the event is dropped with its lock, and the rest is run
    · obtain ⟨s₁, hUnlock, hRest⟩ := Option.bind_eq_some_iff.1 h
      obtain ⟨n, m, rfl, hm⟩ := runCtrlUnlock_some hUnlock
      refine (ih ?_ ?_ hRest).trans ?_
      · exact hNone
      · rfl
      simp only [State.toDo, hSome, if_false, hLength, hNone] at hm ⊢
      split at hm <;> simp_all <;> omega

omit [DecidableEq C] in
/-- One event at least is run when nobody is waited for. -/
theorem runQueue_less {i : SafeEvent C} {rest : List (SafeEvent C)}
    (hNone : s.active = none) (hList : s.safeEventList = i :: rest)
    (hMark : (s.ctxs i.ctx).stopGroupMark = true) (hZero : s.safeEventPidCount = 0)
    (h : runQueue (i :: rest) s = some s') : s'.toDo + 46 ≤ s.toDo := by
  have hLength : s.safeEventList.length = rest.length + 1 := by simp [hList]
  have hSome : s.safeEventList ≠ [] := by simp [hList]
  unfold runQueue at h
  rw [if_neg (by simp [hMark]), if_neg (by simp [hZero])] at h
  split at h
  · cases h
  dsimp only at h
  split at h
  · split at h
    · cases h
    · cases h
      simp only [State.toDo, hSome, if_false, hLength, hNone]
      simp only [Option.isSome_some, Option.isSome_none, if_true]
      split <;> split <;> simp_all <;> omega
  · obtain ⟨s₁, hUnlock, hRest⟩ := Option.bind_eq_some_iff.1 h
    obtain ⟨n, m, rfl, hm⟩ := runCtrlUnlock_some hUnlock
    refine (Nat.add_le_add_right (runQueue_toDo ?_ ?_ hRest) 46).trans ?_
    · exact hNone
    · rfl
    simp only [State.toDo, hSome, if_false, hLength, hNone] at hm ⊢
    split at hm <;> simp_all <;> omega

omit [DecidableEq C] in
theorem returns_toDo (hActive : s.active ≠ none)
    (hStep : callbackReturns s = some s') : s'.toDo < s.toDo := by
  obtain ⟨i, hi⟩ := Option.ne_none_iff_exists'.1 hActive
  unfold callbackReturns at hStep
  rw [hi] at hStep
  obtain ⟨s₁, hUnlock, hQueue⟩ := Option.bind_eq_some_iff.1 hStep
  obtain ⟨n, m, rfl, hm⟩ := runCtrlUnlock_some hUnlock
  dsimp only at hQueue hm
  cases hList : s.safeEventList with
  | nil =>
    rw [hList] at hQueue
    cases hQueue
    simp [State.toDo, hList, hi] at hm ⊢
    omega
  | cons j rest =>
    rw [if_neg (by simp [hList]), Nat.add_zero] at hm
    refine (Nat.lt_of_le_of_lt (runQueue_toDo ?_ ?_ hQueue) ?_)
    · rfl
    · rfl
    · simp [State.toDo, hi]
      omega

/-- Either fewer events are left, or the timer is posted. -/
theorem dispatch_toDo (h : Inv s) (t : Stops C) (hNone : s.active = none)
    (hPosted : 0 < s.runSafeEventsPosted) (hStep : runSafeEvents t s = some s') :
    s'.toDo < s.toDo := by
  unfold runSafeEvents at hStep
  dsimp only at hStep
  split at hStep
  · cases hStep
    simp [State.toDo]
    omega
  split at hStep
  · cases hStep
    simp [State.toDo]
    omega
  split at hStep
  · cases hStep
    simp [State.toDo]
    omega
  · rename_i hSome
    obtain ⟨f, hEq, hf⟩ := waited_eq
      (s := { s with runSafeEventsPosted := s.runSafeEventsPosted - 1 }) h.nodup t
    rw [hEq] at hStep
    obtain ⟨i, rest, hList⟩ := List.exists_cons_of_ne_nil hSome
    have hList : s.safeEventList = i :: rest := hList
    -- the first event is that of a marked group
    have hIn : i.ctx ∈ s.root := h.queued i (by simp [hList])
    have hMark : (f i.ctx).stopGroupMark = true := by
      rw [(hf i.ctx hIn).marked]
      simp [isMarked, hList]
    split at hStep
    -- an event is taken off the queue, which is worth more than a new posting
    · rename_i hZero
      rw [hList] at hStep
      have hLess : s'.toDo + 46 ≤ State.toDo { s with
          ctxs := f
          safeEventList := i :: rest
          safeEventPidCount := s.root.countP fun c => (f c).pendingSafeEvent
          runSafeEventsPosted := s.runSafeEventsPosted - 1
          stopAllTimerCnt := 0
          stopAllTimerPosted := false } := by
        refine runQueue_less ?_ ?_ ?_ ?_ hStep
        · exact hNone
        · rfl
        · exact hMark
        · exact hZero
      simp only [State.toDo, hNone, hList, List.cons_ne_nil, if_false, stopAllMaxCnt] at hLess ⊢
      simp at hLess ⊢
      omega
    -- the timer is started, so that its turns are counted from now on
    · rename_i hPos
      rw [hList] at hStep
      unfold runQueue at hStep
      rw [if_neg (by simp [hMark]), if_pos (Nat.pos_of_ne_zero hPos)] at hStep
      cases hStep
      simp [State.toDo, hNone, hList]
      split <;> omega

omit [DecidableEq G] in
theorem clearPending_none (cs : List C) (s : State C G) : (clearPending none cs s).2 = false := by
  induction cs generalizing s with
  | nil => rfl
  | cons c cs ih =>
    unfold clearPending
    rw [if_neg (by simp)]
    exact ih _

omit [DecidableEq G] in
theorem stopOrResumeAll_leave {plan : C → Plan} (hPlan : ∀ c, plan c = .leave) (cs : List C)
    (p : Progress C) (s : State C G) : stopOrResumeAll plan cs p s = some (p, s) := by
  induction cs with
  | nil => rfl
  | cons c cs ih =>
    have hStep : stopOrResume (plan c) c p s = some (p, s) := by
      unfold stopOrResume
      rw [hPlan c, ite_self]
    unfold stopOrResumeAll
    split
    · rw [hStep, Option.bind_some]
      exact ih
    · rfl

omit [DecidableEq G] in
/-- Nothing is stopped or resumed. -/
theorem syncRunState_quiet (h : Inv s)
    (hQuiet : Quiet (.sync t : Event C G)) :
    ∃ f n k, syncRunState t s = some (false, { s with
      ctxs := f
      safeEventPidCount := n
      stopAllTimerCnt := k }) ∧ (k = s.stopAllTimerCnt ∨ s.safeEventList = []) := by
  obtain ⟨hMissing, hLater, hPlan⟩ := hQuiet
  by_cases hFree : s.runCtrlLockCnt = 0
  · have hEmpty : s.safeEventList = [] := by
      by_contra hSome
      exact h.toCore.lock_pos (.inr hSome) hFree
    obtain ⟨f, hClear, -⟩ := clearPending_eq t.missing h.nodup
      { s with stopAllTimerCnt := 0, safeEventPidCount := 0 }
    have hPair : clearPending t.missing s.root
        { s with stopAllTimerCnt := 0, safeEventPidCount := 0 } =
        ({ s with ctxs := f, stopAllTimerCnt := 0, safeEventPidCount := 0 }, false) :=
      Prod.ext hClear (hMissing ▸ clearPending_none _ _)
    refine ⟨f, 0, 0, ?_, .inr hEmpty⟩
    unfold syncRunState
    rw [if_neg (not_not.2 hFree), if_neg (not_not.2 hEmpty), hPair]
    simp [hLater, stopOrResumeAll_leave hPlan, resumeLater, hFree]
  · exact ⟨s.ctxs, s.safeEventPidCount, s.stopAllTimerCnt, if_pos hFree, .inl rfl⟩

omit [DecidableEq G] in
theorem sync_toDo (h : Inv s) (hQuiet : Quiet (.sync t : Event C G))
    (hPosted : 0 < s.syncRunStatePosted) (hStep : syncClient t s = some s') : s'.toDo < s.toDo := by
  obtain ⟨f, n, k, hSync, hCnt⟩ := syncRunState_quiet h hQuiet
  unfold syncClient at hStep
  rw [hSync] at hStep
  cases hStep
  rcases hCnt with rfl | hEmpty
  · simp [State.toDo]
    omega
  · simp [State.toDo, hEmpty]
    omega

/-- A step in which nothing new comes leaves less to do. -/
theorem quiet_step (h : Inv s) (hEnabled : Enabled s e)
    (hQuiet : Quiet e) (hStep : step s e = some s') : s'.toDo < s.toDo := by
  cases e with
  | dispatch t => exact dispatch_toDo h t hEnabled.1 hEnabled.2 hStep
  | returns => exact returns_toDo hEnabled hStep
  | timer =>
    cases hStep
    obtain ⟨hNone, hSome, hCnt⟩ := h.timer hEnabled.2
    simp [State.toDo, stopAllTimer, postRunSafeEvents, hEnabled.2, hSome, hNone]
    omega
  | sync t => exact sync_toDo h hQuiet hEnabled.2 hStep
  | _ => exact hQuiet.elim

omit [DecidableEq G] in
theorem careful_of_quiet (s : State C G) (h : Quiet e) : Careful s e := by
  cases e with
  | dispatch t => trivial
  | returns => trivial
  | timer => trivial
  | sync t =>
    unfold Careful
    dsimp only
    rw [h.1]
    trivial
  | _ => exact h.elim

/-- There are only so many steps without something new. -/
theorem quiet_bound (h : Inv s) {es : List (Event C G)}
    (hEs : Meets step (fun s e => Enabled s e ∧ Quiet e) s es) : es.length ≤ s.toDo := by
  induction es generalizing s with
  | nil => exact Nat.zero_le _
  | cons e es ih =>
    obtain ⟨s', hStep, h'⟩ := step_inv h hEs.1.1 (careful_of_quiet s hEs.1.2)
    have hLess := quiet_step h hEs.1.1 hEs.1.2 hStep
    have hRest := ih h' (hEs.2 s' hStep)
    rw [List.length_cons]
    omega

theorem waitForAll_active (t : Stops C) (cs : List C) (s : State C G) :
    (waitForAll t cs s).active = s.active := by
  induction cs generalizing s with
  | nil => rfl
  | cons c cs ih => exact ih _

omit [DecidableEq C] in
/-- When the queue has been run up to an event with a function, the contexts of its stop group
are stopped. -/
theorem runQueue_calls (hNone : s.active = none)
    (h : runQueue l s = some s') : ∀ i ∈ s'.active, isAllStopped i.ctx s' = true := by
  induction l generalizing s with
  | nil =>
    cases h
    simp [hNone]
  | cons i rest ih =>
    unfold runQueue at h
    split at h
    · split at h
      · cases h
      · cases h
        split <;> simp [postRunSafeEvents, hNone]
    split at h
    · cases h
      simp [hNone]
    split at h
    · cases h
    rename_i hStopped
    dsimp only at h
    split at h
    · split at h
      · cases h
      · cases h
        rintro j hj
        obtain rfl : i = j := by simpa using hj
        exact (Bool.not_eq_false _).mp hStopped
    · obtain ⟨s₁, hUnlock, hRest⟩ := Option.bind_eq_some_iff.1 h
      obtain ⟨n, m, rfl, -⟩ := runCtrlUnlock_some hUnlock
      exact ih (by exact hNone) hRest

/-- A function is called when the contexts of the stop group are stopped. -/
theorem step_calls (hEnabled : Enabled s e)
    (hRuns : (∃ t, e = .dispatch t) ∨ e = .returns) (hStep : step s e = some s') :
    ∀ i ∈ s'.active, isAllStopped i.ctx s' = true := by
  rcases hRuns with ⟨t, rfl⟩ | rfl
  · have hNone : s.active = none := hEnabled.1
    change runSafeEvents t s = some s' at hStep
    unfold runSafeEvents at hStep
    dsimp only at hStep
    split at hStep
    · cases hStep
      simp [hNone]
    split at hStep
    · cases hStep
      simp [hNone]
    split at hStep
    · cases hStep
      simp [hNone]
    · refine runQueue_calls ?_ hStep
      split
      all_goals exact (waitForAll_active t _ _).trans hNone
  · change callbackReturns s = some s' at hStep
    unfold callbackReturns at hStep
    split at hStep
    · cases hStep
    · obtain ⟨s₁, hUnlock, hQueue⟩ := Option.bind_eq_some_iff.1 hStep
      obtain ⟨n, m, rfl, -⟩ := runCtrlUnlock_some hUnlock
      exact runQueue_calls rfl hQueue

/-- Safe events. In every run no assertion fails. The events that were run, and then the queued
ones, are those that were posted, in that order; the lock of each one that was run has been
released, but for the active one. A function is called only when the contexts of the stop
group are stopped, exited, exiting or cannot be stopped. The lock is held once for every event
that is queued or active. The counter is the number of pending contexts, none of which is
stopped. Nor do events wait forever: there are only so many steps without something new, and
when none of them can come any more, the queue is empty. -/
theorem safe_events (ctxs : C → Ctx G) (es : List (Event C G))
    (hEs : Meets step (fun s e => Enabled s e ∧ Careful s e) (init ctxs) es) :
    ∃ s, run step (init ctxs) es = some s ∧
      s.ran ++ s.safeEventList.map SafeEvent.number = List.range s.posted ∧
      s.released ++ s.active.toList.map SafeEvent.number = s.ran ∧
      (∀ e s', Enabled s e → ((∃ t, e = .dispatch t) ∨ e = .returns) → step s e = some s' →
        ∀ i ∈ s'.active, isAllStopped i.ctx s' = true) ∧
      s.runCtrlLockCnt = s.others + s.safeEventList.length + (if s.active.isSome then 1 else 0) ∧
      s.safeEventPidCount = s.root.countP (fun c => (s.ctxs c).pendingSafeEvent) ∧
      (∀ c ∈ s.root, (s.ctxs c).pendingSafeEvent = true → (s.ctxs c).stopped = false) ∧
      (∀ es', Meets step (fun s e => Enabled s e ∧ Quiet e) s es' → es'.length ≤ s.toDo) ∧
      (s.active = none → s.runSafeEventsPosted = 0 → s.stopAllTimerPosted = false →
        s.safeEventList = []) := by
  obtain ⟨s, hRun, h⟩ := run_total (P := Inv) (fun s e h he => step_inv h he.1 he.2)
    (inv_init ctxs) hEs
  refine ⟨s, hRun, h.ran, h.released, fun e s' he hRuns hStep => step_calls he hRuns hStep, h.lock,
    h.count, h.running, fun es' hEs' => quiet_bound h hEs', fun hNone hPosted hTimer => ?_⟩
  by_contra hSome
  rcases h.awake hNone hSome with hPos | hYes
  · exact absurd hPosted (Nat.pos_iff_ne_zero.1 hPos)
  · exact absurd (hTimer.symm.trans hYes) (by simp)

def noCtx : Nat → Ctx Nat := fun _ => { stopGroup := 0, hasState := false }

/-- The target stops every context. -/
def stopsAll : Stops Nat := { stops := fun _ => true, named := fun _ => false }

/-- Thread 2 of process 1 stops for a safe event, steps over a breakpoint in it, and stops again
for the next one. -/
def steppingRun : List (Event Nat Nat) :=
  [.created 1 1 false, .created 2 1 true, .post 2 true, .dispatch stopsAll, .stopped 2,
    .dispatch stopsAll, .post 2 true, .singleStep 2 true, .returns, .timer, .stopped 2,
    .dispatch stopsAll, .dispatch stopsAll, .dispatch stopsAll, .returns, .dispatch stopsAll,
    .sync { plan := fun _ => .resume .runs }]

theorem safe_events_stepping :
    ∃ s, run step (init noCtx) steppingRun = some s ∧
      s.ran ++ s.safeEventList.map SafeEvent.number = List.range s.posted ∧
      s.released ++ s.active.toList.map SafeEvent.number = s.ran ∧
      (∀ e s', Enabled s e → ((∃ t, e = .dispatch t) ∨ e = .returns) → step s e = some s' →
        ∀ i ∈ s'.active, isAllStopped i.ctx s' = true) ∧
      s.runCtrlLockCnt = s.others + s.safeEventList.length + (if s.active.isSome then 1 else 0) ∧
      s.safeEventPidCount = s.root.countP (fun c => (s.ctxs c).pendingSafeEvent) ∧
      (∀ c ∈ s.root, (s.ctxs c).pendingSafeEvent = true → (s.ctxs c).stopped = false) ∧
      (∀ es', Meets step (fun s e => Enabled s e ∧ Quiet e) s es' → es'.length ≤ s.toDo) ∧
      (s.active = none → s.runSafeEventsPosted = 0 → s.stopAllTimerPosted = false →
        s.safeEventList = []) :=
  safe_events noCtx steppingRun (by decide)

/-- Thread 2 is stopped, and the function of a safe event is being called. -/
def callingRun : List (Event Nat Nat) :=
  [.created 2 1 true, .post 2 true, .post 2 true, .dispatch stopsAll, .stopped 2,
    .dispatch stopsAll]

/-- The first safe event is to terminate process 1, the second one resumes thread 3, which is
stopped again. Then `sync_run_state` tries to terminate the process. -/
def terminatingRun : List (Event Nat Nat) :=
  [.created 1 1 false, .created 3 2 true, .post 1 true, .post 3 true, .dispatch stopsAll,
    .stopped 3, .dispatch stopsAll, .returns, .started 3, .returns, .dispatch stopsAll,
    .sync { missing := some 1, plan := fun _ => .leave }]

/-- Where it goes wrong. The stopped thread has changed: it is waited for. A thread is created
in the stop group of the next event: that group is not stopped when the event is run. Something
is missing in a cache when the process is terminated: the counter does not know of thread 3,
which is pending, and when it stops an assertion fails. -/
theorem safe_events_fail :
    (Meets step Enabled (init noCtx) (callingRun ++ [.changed 2]) ∧
      ∃ s, run step (init noCtx) (callingRun ++ [.changed 2]) = some s ∧
        2 ∈ s.root ∧ (s.ctxs 2).pendingSafeEvent = true ∧ (s.ctxs 2).stopped = true) ∧
    (Meets step Enabled (init noCtx) (callingRun ++ [.created 3 1 true, .returns]) ∧
      run step (init noCtx) (callingRun ++ [.created 3 1 true, .returns]) = none) ∧
    Meets step Enabled (init noCtx) (terminatingRun ++ [.stopped 3]) ∧
      run step (init noCtx) (terminatingRun ++ [.stopped 3]) = none := by
  refine ⟨⟨by decide, ?_⟩, ⟨by decide, ?_⟩, by decide, ?_⟩
  · have hEnd : (run step (init noCtx) (callingRun ++ [.changed 2])).any (fun s =>
        decide (2 ∈ s.root ∧ (s.ctxs 2).pendingSafeEvent = true ∧
          (s.ctxs 2).stopped = true)) = true := by
      decide
    obtain ⟨s, hRun, hLost⟩ := (Option.any_eq_true _ _).1 hEnd
    exact ⟨s, hRun, of_decide_eq_true hLost⟩
  · exact Option.isNone_iff_eq_none.1 (by decide)
  · exact Option.isNone_iff_eq_none.1 (by decide)

end TcfAgent.SafeEvents