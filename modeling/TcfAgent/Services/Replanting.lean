import TcfAgent.Lib.Simulation
import Mathlib.Logic.Function.Basic

/-!
# Replanting breakpoints

`services/breakpoints.c`: a request to evaluate the breakpoints of a group of contexts is
put on `evaluations_posted`, and an event is posted that takes the whole list over to
`evaluations_active`: a generation. For each of the active requests a cache client
evaluates locations and conditions; it can be run several times, until everything it looks
at is in the caches. The last one that comes to its end finishes the generation.

`G` are the breakpoint groups, `T` the threads, `B` the breakpoints, `I` the instructions.
The other events of the agent come in between in any order; what they and the target answer
is in the parameters of a step (`World`, `Turn`). The generations are counted without an end,
and the events of a queue are dispatched in the order in which they were posted.

Main results:

* `step_follows`           — no assertion fails in a step, and `spec` accepts what is observed;
* `replanting_protocol`    — nor in a run;
* `quiet_bound`, `at_rest` — a generation that is waited for comes.
-/


namespace TcfAgent.Replanting

open TcfAgent.Lib

/-! ## Requests -/

/-- `LocationEvaluationRequest`: up to eight breakpoints, or all of them. -/
structure Loc (B : Type) where
  bps : List B := []
  all : Bool := false
deriving DecidableEq, Repr

def locEvaluationBpMax : Nat := 8

/-- A breakpoint is added, or all of them (`none`). -/
def Loc.add {B : Type} (l : Loc B) (bp : Option B) : Loc B :=
  match bp with
  | some b =>
    if l.all = false ∧ l.bps.length < locEvaluationBpMax then { l with bps := l.bps ++ [b] }
    else { l with all := true }
  | none => { l with all := true }

/-- `ConditionEvaluationRequest`. -/
structure Cond (T B I : Type) where
  ctx : T
  bp : B
  bi : I
  conditionOk : Bool := false
deriving DecidableEq, Repr

/-- `EvaluationRequest`; whether it is linked is in the lists of the state. -/
structure Request (T B I : Type) where
  locPosted : Loc B := {}
  locActive : Loc B := {}
  conds : List (Cond T B I) := []
deriving DecidableEq, Repr

/-- What a request is posted for: one breakpoint, all of them, or a context that has stopped
at a breakpoint. -/
inductive Job (B : Type) where
  | location (bp : Option B)
  | condition
deriving DecidableEq, Repr

/-- What becomes of a condition request: the context is gone, `condition_ok` is not set, the
hit is counted, and it is reported too. -/
inductive Fate where
  | gone
  | failed
  | ignored
  | reported
deriving DecidableEq, Repr

/-- What can be observed: the run control lock, requests that are posted, generations that
start and finish, a client that has evaluated its locations, a condition request that is
used up. -/
inductive Obs (G T B I : Type) where
  | lock
  | unlock
  | posted (g : G) (job : Job B)
  | started (gs : List G)
  | evaluated (g : G) (loc : Loc B)
  | consumed (g : G) (c : Cond T B I) (fate : Fate)
  | finished
deriving DecidableEq, Repr

/-- The state of the module, and the log. -/
structure State (G T B I : Type) where
  posted : List G := []
  active : List G := []
  req : G → Request T B I := fun _ => {}
  generationPosted : Nat := 0
  generationActive : Nat := 0
  generationDone : Nat := 0
  cacheEnterCnt : Nat := 0
  /-- The requests whose cache client has not come to its end. -/
  clients : List G := []
  /-- The arguments of the posted `event_replant_breakpoints`. -/
  events : List Nat := []
  runCtrlLock : Nat := 0
  hitCount : B → G → Nat := fun _ _ => 0
  log : List (Obs G T B I) := []

/-- What is found when conditions are looked at. -/
structure World (T B : Type) where
  isDisabled : B → Bool
  /-- `ctx->exited || ctx->exiting` -/
  gone : T → Bool
  /-- `check_context_ids_condition` -/
  admits : T → B → Bool
  /-- The breakpoint has a condition or a stop group, or is temporary. -/
  slow : B → Bool
  /-- There is no condition, or its value is not zero, or it cannot be evaluated. -/
  holds : T → B → Bool
  ignoreCount : B → Nat

/-- How far a run of a cache client comes: a context is not stopped yet, something is
missing in a cache, nothing is missing. -/
inductive Outcome where
  | waits
  | misses
  | exits
deriving DecidableEq, Repr

/-- One run of a cache client; the lists are the locations that are posted while it runs, by
callbacks of breakpoints that were hit (or when a temporary one is removed), and while
instructions are planted. -/
structure Turn (G T B : Type) where
  world : World T B
  outcome : Outcome
  posts : List (G × Option B) := []
  callbacks : List (G × Option B) := []
  flushing : List (G × Option B) := []

variable {G T B I : Type} [DecidableEq G] [DecidableEq T] [DecidableEq B] [DecidableEq I]

def State.emit (s : State G T B I) (o : Obs G T B I) : State G T B I :=
  { s with log := s.log ++ [o] }

def State.setReq (s : State G T B I) (g : G) (r : Request T B I) : State G T B I :=
  { s with req := Function.update s.req g r }

/-! ## Posting -/

def runCtrlLock (s : State G T B I) : State G T B I :=
  { s with runCtrlLock := s.runCtrlLock + 1 }.emit .lock

def runCtrlUnlock (s : State G T B I) : Option (State G T B I) :=
  if s.runCtrlLock = 0 then none
  else some ({ s with runCtrlLock := s.runCtrlLock - 1 }.emit .unlock)

/-- `post_event(event_replant_breakpoints, ++generation_posted)` -/
def postReplantEvent (s : State G T B I) : State G T B I :=
  { s with
    generationPosted := s.generationPosted + 1
    events := s.events ++ [s.generationPosted + 1] }

/-- `post_evaluation_request` -/
def postEvaluationRequest (g : G) (job : Job B) (s : State G T B I) : State G T B I :=
  if g ∈ s.posted then s.emit (.posted g job)
  else
    let s := { s with posted := s.posted ++ [g] }
    let s := if s.generationPosted = s.generationDone then runCtrlLock s else s
    (postReplantEvent s).emit (.posted g job)

/-- The end of `post_location_evaluation_request`, for the group `g`. -/
def postLocation (g : G) (bp : Option B) (s : State G T B I) : State G T B I :=
  postEvaluationRequest g (.location bp)
    (s.setReq g { s.req g with locPosted := (s.req g).locPosted.add bp })

def postLocations (posts : List (G × Option B)) (s : State G T B I) : State G T B I :=
  posts.foldl (fun s p => postLocation p.1 p.2 s) s

/-! ## Conditions -/

/-- `evaluate_condition`, after `condition_ok` has been reset. -/
def World.ok (w : World T B) (ctx : T) (bp : B) : Bool :=
  !w.isDisabled bp && w.admits ctx bp && w.holds ctx bp

def evaluateConditions (w : World T B) (g : G) (s : State G T B I) : State G T B I :=
  s.setReq g { s.req g with
    conds := (s.req g).conds.map fun c => { c with conditionOk := w.ok c.ctx c.bp } }

/-- One request of `done_condition_evaluation`. -/
def doneCondition (w : World T B) (g : G) (c : Cond T B I) (s : State G T B I) :
    State G T B I :=
  if w.gone c.ctx then s.emit (.consumed g c .gone)
  else if c.conditionOk = false then s.emit (.consumed g c .failed)
  else
    let count := s.hitCount c.bp g + 1
    { s with
      hitCount := Function.update s.hitCount c.bp
        (Function.update (s.hitCount c.bp) g count) }.emit
      (.consumed g c (if count ≤ w.ignoreCount c.bp then .ignored else .reported))

/-- `done_condition_evaluation` -/
def doneConditionEvaluation (w : World T B) (g : G) (s : State G T B I) : State G T B I :=
  (s.req g).conds.foldl (fun s c => doneCondition w g c s) s

/-- `add_condition_evaluation_request`, for the instructions at which the context has stopped
and their breakpoints of the group, one after another; `need` is `need_to_post`. A request that
is there already is left as it is. -/
def addConditions (w : World T B) (ctx : T) :
    List (I × B) → Bool → List (Cond T B I) → Bool × List (Cond T B I)
  | [], need, conds => (need, conds)
  | (bi, bp) :: hits, need, conds =>
    if conds.any (fun c => c.ctx = ctx ∧ c.bp = bp ∧ c.bi = bi) then
      addConditions w ctx hits need conds
    else if need || w.isDisabled bp then
      addConditions w ctx hits need (conds ++ [{ ctx, bp, bi }])
    else if w.slow bp then addConditions w ctx hits true (conds ++ [{ ctx, bp, bi }])
    else addConditions w ctx hits need (conds ++ [{ ctx, bp, bi, conditionOk := w.admits ctx bp }])

/-- `evaluate_breakpoint`. -/
def evaluateBreakpoint (w : World T B) (ctx : T) (g : G) (hits : List (I × B))
    (callbacks : List (G × Option B)) (s : State G T B I) : State G T B I :=
  let alreadyPosted : Bool := g ∈ s.posted ∨ g ∈ s.active
  let p := addConditions w ctx hits (alreadyPosted || 0 < s.cacheEnterCnt) (s.req g).conds
  let s := s.setReq g { s.req g with conds := p.2 }
  if p.1 then
    if alreadyPosted then s else postEvaluationRequest g .condition s
  else
    let s := postLocations callbacks (doneConditionEvaluation w g s)
    s.setReq g { s.req g with conds := [] }

/-! ## Generations -/

/-- The second loop of `done_all_evaluations`. -/
def releaseActive : List G → State G T B I → State G T B I
  | [], s => s
  | g :: gs, s =>
    releaseActive gs
      { (s.setReq g { s.req g with conds := [] }) with active := s.active.erase g }

/-- `done_all_evaluations` -/
def doneAllEvaluations (t : Turn G T B) (s : State G T B I) : State G T B I :=
  let s' := s.active.foldl (fun s g => doneConditionEvaluation t.world g s) (s.emit .finished)
  releaseActive s.active (postLocations t.callbacks s')

/-- The last client of a generation comes to its end. -/
def finishGeneration (t : Turn G T B) (s : State G T B I) : Option (State G T B I) :=
  let s := doneAllEvaluations t s
  if s.active ≠ [] then none
  else
    let s := if s.posted = [] then postLocations t.flushing s else s
    if s.posted ≠ [] then some (postReplantEvent s)
    else if s.generationDone = s.generationActive then none
    else
      let s := { s with generationDone := s.generationActive }
      if s.generationPosted ≠ s.generationDone then none else runCtrlUnlock s

/-- `replant_breakpoints_cache_client` -/
def replantClient (t : Turn G T B) (g : G) (s : State G T B I) : Option (State G T B I) :=
  if g ∉ s.active then none
  else
    match t.outcome with
    | .waits => some s
    | .misses => some (evaluateConditions t.world g (postLocations t.posts s))
    | .exits =>
      let s := evaluateConditions t.world g (postLocations t.posts s)
      if s.cacheEnterCnt = 0 then none
      else
        let s := { s with
          cacheEnterCnt := s.cacheEnterCnt - 1
          clients := s.clients.erase g }.emit (.evaluated g (s.req g).locActive)
        if s.cacheEnterCnt = 0 then finishGeneration t s else some s

/-- The requests are taken over, one after another. -/
def activate : List G → State G T B I → Option (State G T B I)
  | [], s => some s
  | g :: gs, s =>
    if g ∈ s.active then none
    else
      activate gs { (s.setReq g { s.req g with
          locActive := (s.req g).locPosted
          locPosted := {} }) with
        active := s.active ++ [g]
        posted := s.posted.erase g
        clients := s.clients ++ [g]
        cacheEnterCnt := s.cacheEnterCnt + 1 }

/-- `cache_enter(replant_breakpoints_cache_client, ...)` for the requests. -/
def enterClients (turns : G → Turn G T B) : List G → State G T B I → Option (State G T B I)
  | [], s => some s
  | g :: gs, s => (replantClient (turns g) g s).bind (enterClients turns gs)

/-- `event_replant_breakpoints` -/
def eventReplant (turns : G → Turn G T B) (arg : Nat) (s : State G T B I) :
    Option (State G T B I) :=
  if s.posted = [] then none
  else if arg ≠ s.generationPosted then some s
  else if 0 < s.cacheEnterCnt then some s
  else
    (activate s.posted { s with generationActive := s.generationPosted }).bind fun s =>
      enterClients turns s.active (s.emit (.started s.active))

/-! ## Steps -/

/-- A location is posted by a client command or a context event; a context stops at
breakpoints; an event is dispatched; a cache that a client waits for is filled. -/
inductive Event (G T B I : Type) where
  | location (g : G) (bp : Option B)
  | stop (w : World T B) (ctx : T) (g : G) (hits : List (I × B)) (callbacks : List (G × Option B))
  | dispatch (turns : G → Turn G T B)
  | rerun (g : G) (t : Turn G T B)

def step (s : State G T B I) : Event G T B I → Option (State G T B I)
  | .location g bp => some (postLocation g bp s)
  | .stop w ctx g hits callbacks => some (evaluateBreakpoint w ctx g hits callbacks s)
  | .dispatch turns =>
    match s.events with
    | [] => none
    | arg :: events => eventReplant turns arg { s with events }
  | .rerun g t => if g ∈ s.clients then replantClient t g s else none

/-- Only an event that was posted is dispatched, and only a client that waits is run. -/
def Enabled (s : State G T B I) : Event G T B I → Prop
  | .dispatch _ => s.events ≠ []
  | .rerun g _ => g ∈ s.clients
  | _ => True

instance (s : State G T B I) : (e : Event G T B I) → Decidable (Enabled s e)
  | .dispatch _ => inferInstanceAs (Decidable (s.events ≠ []))
  | .rerun g _ => inferInstanceAs (Decidable (g ∈ s.clients))
  | .location _ _ => isTrue trivial
  | .stop _ _ _ _ _ => isTrue trivial

def init : State G T B I := {}

/-! ## What is observed -/

/-- The locations that are evaluated include the job. -/
def Loc.Covers (l : Loc B) : Job B → Prop
  | .location (some b) => l.all = true ∨ b ∈ l.bps
  | .location none => l.all = true
  | .condition => True

instance (l : Loc B) (j : Job B) : Decidable (l.Covers j) := by
  unfold Loc.Covers
  split <;> infer_instance

/-- What is posted, what the generation that runs has to do, and what it has done. -/
structure Spec (G B : Type) where
  held : Bool := false
  waiting : List (G × Job B) := []
  current : List (G × Job B) := []
  evaluated : List G := []

/-- The lock is taken and released in turn, and released when nothing is left to do. A
generation takes over everything that has been posted before it, and is finished when all
of that has been evaluated. -/
def spec (t : Spec G B) : Obs G T B I → Option (Spec G B)
  | .lock =>
    if t.held = false ∧ t.waiting = [] ∧ t.current = [] then some { t with held := true } else none
  | .unlock =>
    if t.held = true ∧ t.waiting = [] ∧ t.current = [] then some { t with held := false } else none
  | .posted g job =>
    if t.held = true then some { t with waiting := t.waiting ++ [(g, job)] } else none
  | .started gs =>
    if t.current = [] ∧ ∀ p ∈ t.waiting, p.1 ∈ gs then
      some { t with waiting := [], current := t.waiting, evaluated := [] }
    else none
  | .evaluated g loc =>
    if ∀ p ∈ t.current, p.1 = g → loc.Covers p.2 then
      some { t with evaluated := g :: t.evaluated }
    else none
  | .finished =>
    if ∀ p ∈ t.current, p.1 ∈ t.evaluated then some { t with current := [] } else none
  | .consumed _ _ _ => some t

/-! ## The invariant -/

/-- The lists, counters and events, where `busy` says that there is a generation: active
requests, or those of a generation that is being finished. -/
structure Inv (busy : Prop) (s : State G T B I) : Prop where
  nodupPosted : s.posted.Nodup
  nodupActive : s.active.Nodup
  nodupClients : s.clients.Nodup
  clients_active : ∀ g ∈ s.clients, g ∈ s.active
  cnt : s.cacheEnterCnt = s.clients.length
  active_busy : s.active ≠ [] → busy
  generation : busy → s.generationDone < s.generationActive ∧
    s.generationActive ≤ s.generationPosted ∧
    (s.posted = [] → s.generationActive = s.generationPosted)
  done_le : s.generationDone ≤ s.generationPosted
  pending : s.generationDone ≠ s.generationPosted ↔ s.posted ≠ [] ∨ busy
  sorted : s.events.Pairwise (· < ·)
  events_le : ∀ e ∈ s.events, e ≤ s.generationPosted
  last : s.events ≠ [] → s.posted ≠ [] ∧ s.generationPosted ∈ s.events
  fresh : s.posted ≠ [] → ¬ busy → s.events ≠ []
  lock : s.runCtrlLock = if s.generationPosted = s.generationDone then 0 else 1

/-- What is posted is in the posted requests, what a generation has to do in the active
ones; those whose client has come to its end have been evaluated. -/
structure Related (s : State G T B I) (t : Spec G B) : Prop where
  held : t.held = true ↔ s.generationPosted ≠ s.generationDone
  waiting : ∀ p ∈ t.waiting, p.1 ∈ s.posted ∧ (s.req p.1).locPosted.Covers p.2
  current : ∀ p ∈ t.current, p.1 ∈ s.active ∧ (s.req p.1).locActive.Covers p.2
  evaluated : ∀ g ∈ s.active, g ∉ s.clients → g ∈ t.evaluated

/-- In the middle of a step, or while a generation is finished. -/
def Mid (busy : Prop) (s : State G T B I) (t : Spec G B) : Prop := Inv busy s ∧ Related s t

/-- Between steps. -/
def Rel (s : State G T B I) (t : Spec G B) : Prop :=
  Mid (s.active ≠ []) s t ∧ (s.clients = [] → s.active = [])

abbrev Follows (R : State G T B I → Spec G B → Prop) (s : State G T B I) (t : Spec G B) : Prop :=
  Tracks State.log spec R {} s t

section

omit [DecidableEq G] [DecidableEq T] [DecidableEq B] [DecidableEq I]

/-- The lists and counters that the invariant and the relation speak of are left alone, also
the locations that requests have been posted for. -/
structure Same (s s' : State G T B I) : Prop where
  posted : s'.posted = s.posted
  active : s'.active = s.active
  locPosted : ∀ g, (s'.req g).locPosted = (s.req g).locPosted
  locActive : ∀ g, (s'.req g).locActive = (s.req g).locActive
  generationPosted : s'.generationPosted = s.generationPosted
  generationActive : s'.generationActive = s.generationActive
  generationDone : s'.generationDone = s.generationDone
  cacheEnterCnt : s'.cacheEnterCnt = s.cacheEnterCnt
  clients : s'.clients = s.clients
  events : s'.events = s.events
  runCtrlLock : s'.runCtrlLock = s.runCtrlLock

theorem Same.rfl {s : State G T B I} : Same s s :=
  ⟨.refl _, .refl _, fun _ => .refl _, fun _ => .refl _, .refl _, .refl _, .refl _,
    .refl _, .refl _,
    .refl _, .refl _⟩

theorem Same.trans {s₁ s₂ s₃ : State G T B I} (h : Same s₁ s₂) (h' : Same s₂ s₃) : Same s₁ s₃ where
  posted := h'.posted.trans h.posted
  active := h'.active.trans h.active
  locPosted g := (h'.locPosted g).trans (h.locPosted g)
  locActive g := (h'.locActive g).trans (h.locActive g)
  generationPosted := h'.generationPosted.trans h.generationPosted
  generationActive := h'.generationActive.trans h.generationActive
  generationDone := h'.generationDone.trans h.generationDone
  cacheEnterCnt := h'.cacheEnterCnt.trans h.cacheEnterCnt
  clients := h'.clients.trans h.clients
  events := h'.events.trans h.events
  runCtrlLock := h'.runCtrlLock.trans h.runCtrlLock

theorem Inv.same {busy : Prop} {s s' : State G T B I} (h : Inv busy s) (hSame : Same s s') :
    Inv busy s' where
  nodupPosted := hSame.posted ▸ h.nodupPosted
  nodupActive := hSame.active ▸ h.nodupActive
  nodupClients := hSame.clients ▸ h.nodupClients
  clients_active := hSame.clients ▸ hSame.active ▸ h.clients_active
  cnt := by rw [hSame.cacheEnterCnt, hSame.clients, h.cnt]
  active_busy := hSame.active ▸ h.active_busy
  generation := by
    rw [hSame.generationDone, hSame.generationActive, hSame.generationPosted, hSame.posted]
    exact h.generation
  done_le := by
    rw [hSame.generationDone, hSame.generationPosted]
    exact h.done_le
  pending := by
    rw [hSame.generationDone, hSame.generationPosted, hSame.posted]
    exact h.pending
  sorted := hSame.events ▸ h.sorted
  events_le := by
    rw [hSame.events, hSame.generationPosted]
    exact h.events_le
  last := by
    rw [hSame.events, hSame.generationPosted, hSame.posted]
    exact h.last
  fresh := by
    rw [hSame.posted, hSame.events]
    exact h.fresh
  lock := by
    rw [hSame.runCtrlLock, hSame.generationPosted, hSame.generationDone]
    exact h.lock

theorem Related.same {s s' : State G T B I} {t : Spec G B} (h : Related s t)
    (hSame : Same s s') : Related s' t where
  held := by
    rw [hSame.generationPosted, hSame.generationDone]
    exact h.held
  waiting p hp := by
    rw [hSame.posted, hSame.locPosted]
    exact h.waiting p hp
  current p hp := by
    rw [hSame.active, hSame.locActive]
    exact h.current p hp
  evaluated := by
    rw [hSame.active, hSame.clients]
    exact h.evaluated

theorem inv_init : Inv (B := B) (I := I) (T := T) False (init : State G T B I) where
  nodupPosted := List.nodup_nil
  nodupActive := List.nodup_nil
  nodupClients := List.nodup_nil
  clients_active := by simp [init]
  cnt := rfl
  active_busy h := absurd rfl h
  generation := False.elim
  done_le := le_rfl
  pending := by simp [init]
  sorted := List.Pairwise.nil
  events_le := by simp [init]
  last h := absurd rfl h
  fresh h := absurd rfl h
  lock := rfl

end

/-- `Same`, and nothing is observed that `spec` looks at. -/
structure Silent (s s' : State G T B I) : Prop where
  same : Same s s'
  log : ∃ out, s'.log = s.log ++ out ∧ ∀ t : Spec G B, run spec t out = some t

variable {s : State G T B I}

omit [DecidableEq T] [DecidableEq I] in
theorem Silent.rfl : Silent s s := ⟨.rfl, [], by simp, fun _ => .refl _⟩

omit [DecidableEq T] [DecidableEq I] in
theorem Silent.trans {s₁ s₂ s₃ : State G T B I} (h : Silent s₁ s₂) (h' : Silent s₂ s₃) :
    Silent s₁ s₃ := by
  obtain ⟨out, hLog, hRun⟩ := h.log
  obtain ⟨out', hLog', hRun'⟩ := h'.log
  refine ⟨h.same.trans h'.same, out ++ out', by rw [hLog', hLog, List.append_assoc], fun t => ?_⟩
  rw [run_append, hRun]
  exact hRun' t

variable {t : Spec G B} {busy : Prop} {s s' : State G T B I}

omit [DecidableEq T] [DecidableEq I] in
theorem Silent.follows (hSilent : Silent s s')
    (h : Follows (Mid busy) s t) : Follows (Mid busy) s' t := by
  obtain ⟨out, hLog, hRun⟩ := hSilent.log
  exact h.append hLog (hRun t)
    ⟨h.related.1.same hSilent.same, h.related.2.same hSilent.same⟩

omit [DecidableEq T] [DecidableEq I] in
theorem silent_foldl {α : Type} {f : State G T B I → α → State G T B I}
    (hf : ∀ s a, Silent s (f s a)) (as : List α) (s : State G T B I) :
    Silent s (as.foldl f s) := by
  induction as generalizing s with
  | nil => exact .rfl
  | cons a as ih => exact (hf s a).trans (ih (f s a))

omit [DecidableEq T] [DecidableEq I] in
theorem silent_consumed (s : State G T B I) (g : G) (c : Cond T B I) (fate : Fate) :
    Silent s (s.emit (.consumed g c fate)) :=
  ⟨{ Same.rfl with }, [.consumed g c fate], rfl, fun _ => rfl⟩

omit [DecidableEq T] [DecidableEq I] in
theorem silent_doneCondition (w : World T B) (g : G) (s : State G T B I) (c : Cond T B I) :
    Silent s (doneCondition w g c s) := by
  unfold doneCondition
  split
  · exact silent_consumed s g c _
  split
  · exact silent_consumed s g c _
  · exact ⟨{ Same.rfl with }, [.consumed g c _], rfl, fun _ => rfl⟩

omit [DecidableEq T] [DecidableEq I] in
theorem silent_doneConditionEvaluation (w : World T B) (s : State G T B I) (g : G) :
    Silent s (doneConditionEvaluation w g s) :=
  silent_foldl (fun s c => silent_doneCondition w g s c) _ s

omit [DecidableEq T] [DecidableEq I] in
theorem silent_setConds (s : State G T B I) (g : G) (conds : List (Cond T B I)) :
    Silent s (s.setReq g { s.req g with conds := conds }) := by
  refine ⟨{ Same.rfl with locPosted := fun g' => ?_, locActive := fun g' => ?_ }, [],
    by simp [State.setReq],
    fun _ => rfl⟩
  all_goals
    by_cases hg : g' = g
    · subst hg
      simp [State.setReq]
    · simp [State.setReq, Function.update_of_ne hg]

/-! ## Posting -/

omit [DecidableEq B] in
theorem covers_add_self (l : Loc B) (bp : Option B) : (l.add bp).Covers (.location bp) := by
  unfold Loc.add
  cases bp with
  | none => exact rfl
  | some b =>
    dsimp only
    split
    · exact .inr (by simp)
    · exact .inl rfl

variable {job : Job B}

omit [DecidableEq B] in
theorem covers_add {l : Loc B} (bp : Option B) (h : l.Covers job) :
    (l.add bp).Covers job := by
  have hAll : ({ l with all := true } : Loc B).Covers job := by
    match job with
    | .location (some b) => exact .inl rfl
    | .location none => exact rfl
    | .condition => trivial
  unfold Loc.add
  cases bp with
  | none => exact hAll
  | some b =>
    dsimp only
    split
    · match job, h with
      | .location (some b), h => exact h.imp id (List.mem_append_left _)
      | .location none, h => exact h
      | .condition, _ => trivial
    · exact hAll

variable {g : G}

omit [DecidableEq G] [DecidableEq T] [DecidableEq B] [DecidableEq I] in
/-- A posted request waits, in a period that has begun. -/
theorem posted_related
    (h : Mid busy s t) (hPosted : g ∈ s.posted) (hJob : (s.req g).locPosted.Covers job) :
    Mid busy (s.emit (.posted g job)) { t with waiting := t.waiting ++ [(g, job)] } := by
  refine ⟨h.1.same { Same.rfl with }, ?_⟩
  refine { h.2.same { Same.rfl with } with waiting := fun p hp => ?_ }
  rcases List.mem_append.1 hp with hp | hp
  · exact h.2.waiting p hp
  · obtain rfl := List.mem_singleton.1 hp
    exact ⟨hPosted, hJob⟩

omit [DecidableEq G] [DecidableEq T] [DecidableEq B] [DecidableEq I] in
theorem postReplantEvent_inv (h : Inv busy s)
    (hPosted : s.posted ≠ []) : Inv busy (postReplantEvent s) := by
  have hPending : s.generationDone ≠ s.generationPosted := h.pending.2 (.inl hPosted)
  have hDone := h.done_le
  refine { h with
    generation := fun hBusy => ?_
    done_le := Nat.le_succ_of_le hDone
    pending := ?_
    sorted := ?_
    events_le := fun e he => ?_
    last := fun _ => ⟨hPosted, by simp [postReplantEvent]⟩
    fresh := fun _ _ => by simp [postReplantEvent]
    lock := ?_ }
  · obtain ⟨hDone, hActive, -⟩ := h.generation hBusy
    exact ⟨hDone, Nat.le_succ_of_le hActive, fun hNone => absurd hNone hPosted⟩
  · have : s.generationDone ≠ s.generationPosted + 1 := by omega
    exact ⟨fun _ => .inl hPosted, fun _ => this⟩
  · refine List.pairwise_append.2 ⟨h.sorted, List.pairwise_singleton _ _, ?_⟩
    rintro e he _ hNew
    obtain rfl := List.mem_singleton.1 hNew
    exact Nat.lt_succ_of_le (h.events_le e he)
  · rcases List.mem_append.1 he with he | he
    · exact Nat.le_succ_of_le (h.events_le e he)
    · exact (List.mem_singleton.1 he).le
  · have hOpen : s.generationPosted ≠ s.generationDone := Ne.symm hPending
    have hNext : s.generationPosted + 1 ≠ s.generationDone := by omega
    show s.runCtrlLock = if s.generationPosted + 1 = s.generationDone then 0 else 1
    rw [h.lock, if_neg hOpen, if_neg hNext]

omit [DecidableEq G] [DecidableEq T] [DecidableEq B] [DecidableEq I] in
theorem postReplantEvent_related (h : Related s t)
    (hOpen : s.generationDone < s.generationPosted) : Related (postReplantEvent s) t := by
  refine { h with held := ?_ }
  have hNext : s.generationPosted + 1 ≠ s.generationDone := by omega
  rw [h.held]
  exact ⟨fun _ => hNext, fun _ => by omega⟩

omit [DecidableEq G] [DecidableEq T] [DecidableEq B] [DecidableEq I] in
/-- One more request is posted in a period that has begun. -/
theorem addPosted_inv (h : Inv busy s)
    (hNew : g ∉ s.posted) (hOpen : s.generationPosted ≠ s.generationDone) :
    Inv busy { s with posted := s.posted ++ [g] } := by
  have hSome : s.posted ++ [g] ≠ [] := by simp
  refine { h with
    nodupPosted := ?_
    generation := fun hBusy => ?_
    pending := ⟨fun _ => .inl hSome, fun _ => Ne.symm hOpen⟩
    last := fun hEvents => ⟨hSome, (h.last hEvents).2⟩
    fresh := fun _ hIdle => ?_ }
  · exact List.nodup_append.2 ⟨h.nodupPosted, List.nodup_singleton g, by
      rintro x hx y hy rfl
      exact hNew (List.mem_singleton.1 hy ▸ hx)⟩
  · obtain ⟨hDone, hActive, -⟩ := h.generation hBusy
    exact ⟨hDone, hActive, fun hNone => absurd hNone hSome⟩
  · rcases h.pending.1 (Ne.symm hOpen) with hPosted | hBusy
    · exact h.fresh hPosted hIdle
    · exact absurd hBusy hIdle

omit [DecidableEq G] [DecidableEq T] [DecidableEq B] [DecidableEq I] in
theorem addPosted_related (h : Related s t) (g : G) :
    Related { s with posted := s.posted ++ [g] } t :=
  { h with waiting := fun p hp =>
      ⟨List.mem_append_left _ (h.waiting p hp).1, (h.waiting p hp).2⟩ }

omit [DecidableEq G] [DecidableEq T] [DecidableEq B] [DecidableEq I] in
/-- Nothing is left to do when the generations have caught up. -/
theorem idle_of_done (h : Inv busy s)
    (hDone : s.generationPosted = s.generationDone) :
    s.posted = [] ∧ ¬ busy ∧ s.active = [] ∧ s.events = [] := by
  have hNone : ¬ (s.posted ≠ [] ∨ busy) := fun hSome => h.pending.2 hSome hDone.symm
  obtain ⟨hPosted, hIdle⟩ := not_or.1 hNone
  refine ⟨not_not.1 hPosted, hIdle, ?_, ?_⟩
  · by_contra hActive
    exact hIdle (h.active_busy hActive)
  · by_contra hEvents
    exact hPosted (h.last hEvents).1

omit [DecidableEq G] [DecidableEq T] [DecidableEq B] [DecidableEq I] in
/-- The first request of a period takes the lock. -/
theorem openPeriod_inv (h : Inv busy s) (g : G)
    (hDone : s.generationPosted = s.generationDone) :
    Inv busy (postReplantEvent (runCtrlLock { s with posted := s.posted ++ [g] })) := by
  obtain ⟨hPosted, hIdle, -, hEvents⟩ := idle_of_done h hDone
  have hOpen : s.generationDone ≠ s.generationPosted + 1 := by omega
  have hSome : s.posted ++ [g] ≠ [] := by simp
  have hQueue : (postReplantEvent (runCtrlLock { s with posted := s.posted ++ [g] })).events =
      [s.generationPosted + 1] := by
    simp [postReplantEvent, runCtrlLock, State.emit, hEvents]
  refine { h with
    nodupPosted := by simp [postReplantEvent, runCtrlLock, State.emit, hPosted]
    generation := fun hBusy => absurd hBusy hIdle
    done_le := Nat.le_succ_of_le h.done_le
    pending := ⟨fun _ => .inl hSome, fun _ => hOpen⟩
    sorted := by simp [hQueue]
    events_le := fun e he => ?_
    last := fun _ => ⟨hSome, by simp [postReplantEvent, runCtrlLock, State.emit]⟩
    fresh := fun _ _ => by simp [hQueue]
    lock := ?_ }
  · rw [hQueue] at he
    exact (List.mem_singleton.1 he).le
  · show s.runCtrlLock + 1 = if s.generationPosted + 1 = s.generationDone then 0 else 1
    rw [h.lock, if_pos hDone, if_neg (Ne.symm hOpen)]

omit [DecidableEq G] [DecidableEq T] [DecidableEq B] [DecidableEq I] in
theorem openPeriod_related (h : Mid busy s t)
    (g : G) (hDone : s.generationPosted = s.generationDone) :
    Related (postReplantEvent (runCtrlLock { s with posted := s.posted ++ [g] }))
      { t with held := true } := by
  refine { h.2 with
    held := ⟨fun _ => ?_, fun _ => rfl⟩
    waiting := fun p hp => ⟨List.mem_append_left _ (h.2.waiting p hp).1, (h.2.waiting p hp).2⟩ }
  show s.generationPosted + 1 ≠ s.generationDone
  omega

omit [DecidableEq G] [DecidableEq T] [DecidableEq B] [DecidableEq I] in
/-- Nothing is waited for when the generations have caught up. -/
theorem spec_idle (h : Mid busy s t)
    (hDone : s.generationPosted = s.generationDone) :
    t.held = false ∧ t.waiting = [] ∧ t.current = [] := by
  obtain ⟨hPosted, -, hActive, -⟩ := idle_of_done h.1 hDone
  refine ⟨?_, ?_, ?_⟩
  · rw [Bool.eq_false_iff]
    exact fun hHeld => h.2.held.1 hHeld hDone
  · refine List.eq_nil_iff_forall_not_mem.2 fun p hp => ?_
    have := (h.2.waiting p hp).1
    simp [hPosted] at this
  · refine List.eq_nil_iff_forall_not_mem.2 fun p hp => ?_
    have := (h.2.current p hp).1
    simp [hActive] at this

omit [DecidableEq T] [DecidableEq I] in
/-- A request is posted. -/
theorem postEvaluationRequest_follows
    (h : Follows (Mid busy) s t) (hJob : (s.req g).locPosted.Covers job) :
    ∃ t', Follows (Mid busy) (postEvaluationRequest g job s) t' ∧ t'.current = t.current := by
  unfold postEvaluationRequest
  obtain ⟨hInv, hRel⟩ := h.related
  split
  · rename_i hPosted
    have hHeld : t.held = true :=
      hRel.held.2 (Ne.symm (hInv.pending.2 (.inl (List.ne_nil_of_mem hPosted))))
    exact ⟨_, h.append rfl (by simp [spec, hHeld]) (posted_related h.related hPosted hJob), rfl⟩
  · rename_i hNew
    have hMember : g ∈ s.posted ++ [g] := by simp
    dsimp only
    split
    · rename_i hDone
      obtain ⟨hHeld, hWaiting, hCurrent⟩ := spec_idle h.related hDone
      have hMid : Mid busy (postReplantEvent (runCtrlLock { s with posted := s.posted ++ [g] }))
          { t with held := true } :=
        ⟨openPeriod_inv hInv g hDone, openPeriod_related h.related g hDone⟩
      have hLog : (postReplantEvent (runCtrlLock { s with posted := s.posted ++ [g] })).log =
          s.log ++ [.lock] := rfl
      have hLock := h.append hLog (by simp [spec, hHeld, hWaiting, hCurrent]) hMid
      exact ⟨_, hLock.append rfl (by simp [spec]) (posted_related hMid hMember hJob), rfl⟩
    · rename_i hOpen
      have hLt : s.generationDone < s.generationPosted := by
        have := hInv.done_le
        omega
      have hMid : Mid busy (postReplantEvent { s with posted := s.posted ++ [g] }) t :=
        ⟨postReplantEvent_inv (addPosted_inv hInv hNew hOpen) (by simp),
          postReplantEvent_related (addPosted_related hRel g) hLt⟩
      have hHeld : t.held = true := hRel.held.2 hOpen
      have hEvent : Follows (Mid busy) (postReplantEvent { s with posted := s.posted ++ [g] }) t :=
        h.silent rfl hMid
      exact ⟨_, hEvent.append rfl (by simp [spec, hHeld]) (posted_related hMid hMember hJob), rfl⟩

omit [DecidableEq T] [DecidableEq I] in
theorem setLocPosted_follows (h : Follows (Mid busy) s t) (g : G) (bp : Option B) :
    Follows (Mid busy)
      (s.setReq g { s.req g with locPosted := (s.req g).locPosted.add bp }) t := by
  refine h.silent rfl ⟨{ h.related.1 with },
    { h.related.2 with waiting := fun p hp => ?_, current := fun p hp => ?_ }⟩
  · obtain ⟨hPosted, hCovers⟩ := h.related.2.waiting p hp
    refine ⟨hPosted, ?_⟩
    by_cases hg : p.1 = g
    · subst hg
      simpa [State.setReq] using covers_add bp hCovers
    · simpa [State.setReq, Function.update_of_ne hg] using hCovers
  · obtain ⟨hActive, hCovers⟩ := h.related.2.current p hp
    refine ⟨hActive, ?_⟩
    by_cases hg : p.1 = g
    · subst hg
      simpa [State.setReq] using hCovers
    · simpa [State.setReq, Function.update_of_ne hg] using hCovers

omit [DecidableEq T] [DecidableEq I] in
theorem postLocation_follows (h : Follows (Mid busy) s t) (g : G) (bp : Option B) :
    ∃ t', Follows (Mid busy) (postLocation g bp s) t' ∧ t'.current = t.current := by
  refine postEvaluationRequest_follows (setLocPosted_follows h g bp) ?_
  simpa [State.setReq] using covers_add_self (s.req g).locPosted bp

omit [DecidableEq T] [DecidableEq I] in
theorem postLocations_follows (h : Follows (Mid busy) s t) (posts : List (G × Option B)) :
    ∃ t', Follows (Mid busy) (postLocations posts s) t' ∧ t'.current = t.current := by
  induction posts generalizing s t with
  | nil => exact ⟨t, h, rfl⟩
  | cons p posts ih =>
    obtain ⟨t₁, h₁, hCurrent₁⟩ := postLocation_follows h p.1 p.2
    obtain ⟨t₂, h₂, hCurrent₂⟩ := ih h₁
    exact ⟨t₂, h₂, hCurrent₂.trans hCurrent₁⟩

/-- What posting leaves alone: the generation that runs, and the conditions. -/
structure Kept (s s' : State G T B I) : Prop where
  active : s'.active = s.active
  clients : s'.clients = s.clients
  cacheEnterCnt : s'.cacheEnterCnt = s.cacheEnterCnt
  generationActive : s'.generationActive = s.generationActive
  generationDone : s'.generationDone = s.generationDone
  conds : ∀ g, (s'.req g).conds = (s.req g).conds
  hitCount : s'.hitCount = s.hitCount

omit [DecidableEq G] [DecidableEq T] [DecidableEq B] [DecidableEq I] in
theorem Kept.rfl : Kept s s :=
  ⟨.refl _, .refl _, .refl _, .refl _, .refl _, fun _ => .refl _, .refl _⟩

omit [DecidableEq G] [DecidableEq T] [DecidableEq B] [DecidableEq I] in
theorem Kept.trans {s₁ s₂ s₃ : State G T B I} (h : Kept s₁ s₂) (h' : Kept s₂ s₃) : Kept s₁ s₃ where
  active := h'.active.trans h.active
  clients := h'.clients.trans h.clients
  cacheEnterCnt := h'.cacheEnterCnt.trans h.cacheEnterCnt
  generationActive := h'.generationActive.trans h.generationActive
  generationDone := h'.generationDone.trans h.generationDone
  conds g := (h'.conds g).trans (h.conds g)
  hitCount := h'.hitCount.trans h.hitCount

omit [DecidableEq T] [DecidableEq B] [DecidableEq I] in
theorem kept_postEvaluationRequest (g : G) (job : Job B) (s : State G T B I) :
    Kept s (postEvaluationRequest g job s) := by
  unfold postEvaluationRequest
  split
  · exact { Kept.rfl with }
  · dsimp only
    split
    · exact { Kept.rfl with }
    · exact { Kept.rfl with }

omit [DecidableEq T] [DecidableEq B] [DecidableEq I] in
theorem kept_postLocation (g : G) (bp : Option B) (s : State G T B I) :
    Kept s (postLocation g bp s) := by
  have hSet : Kept s (s.setReq g
      { s.req g with locPosted := (s.req g).locPosted.add bp }) := by
    refine { Kept.rfl with conds := fun g' => ?_ }
    by_cases hg : g' = g
    · subst hg
      simp [State.setReq]
    · simp [State.setReq, Function.update_of_ne hg]
  exact hSet.trans (kept_postEvaluationRequest g _ _)

omit [DecidableEq T] [DecidableEq B] [DecidableEq I] in
theorem kept_postLocations (posts : List (G × Option B)) (s : State G T B I) :
    Kept s (postLocations posts s) := by
  induction posts generalizing s with
  | nil => exact .rfl
  | cons p posts ih => exact (kept_postLocation p.1 p.2 s).trans (ih _)

/-! ## The end of a generation -/

omit [DecidableEq T] [DecidableEq I] in
/-- The active requests are released, in whatever order. -/
theorem releaseActive_follows (gs : List G)
    (h : Follows (Mid True) s t) (hClients : s.clients = []) (hCurrent : t.current = [])
    (hGs : ∀ g ∈ s.active, g ∈ gs) :
    Follows (Mid True) (releaseActive gs s) t ∧ (releaseActive gs s).active = [] ∧
      (releaseActive gs s).clients = [] ∧ (releaseActive gs s).cacheEnterCnt = 0 := by
  induction gs generalizing s with
  | nil =>
    have hActive : s.active = [] := List.eq_nil_iff_forall_not_mem.2 fun g hg => by
      simpa using hGs g hg
    refine ⟨h, hActive, hClients, ?_⟩
    show s.cacheEnterCnt = 0
    rw [h.related.1.cnt, hClients]
    rfl
  | cons g gs ih =>
    have hErase (x : G) (hx : x ∈ s.active.erase g) : x ≠ g ∧ x ∈ s.active :=
      (List.Nodup.mem_erase_iff h.related.1.nodupActive).1 hx
    have hSame := (silent_setConds s g []).same
    have hInv := h.related.1.same hSame
    have hRel := h.related.2.same hSame
    refine ih ?_ hClients fun x hx => ?_
    · refine h.silent rfl ⟨{ hInv with
          nodupActive := h.related.1.nodupActive.erase g
          clients_active := fun x hx => ?_
          active_busy := fun _ => trivial }, { hRel with
          current := fun p hp => ?_
          evaluated := fun x hx hNot => hRel.evaluated x (hErase x hx).2 hNot }⟩
      · simp [State.setReq, hClients] at hx
      · simp [hCurrent] at hp
    · obtain ⟨hNe, hActive⟩ := hErase x hx
      exact (List.mem_cons.1 (hGs x hActive)).resolve_left hNe

omit [DecidableEq T] [DecidableEq I] in
theorem doneAllEvaluations_follows
    (h : Follows (Mid busy) s t) (hBusy : busy) (hClients : s.clients = []) (turn : Turn G T B) :
    ∃ t', Follows (Mid True) (doneAllEvaluations turn s) t' ∧
      (doneAllEvaluations turn s).active = [] ∧ (doneAllEvaluations turn s).clients = [] ∧
      (doneAllEvaluations turn s).cacheEnterCnt = 0 := by
  obtain rfl : busy = True := eq_true hBusy
  have hAll : ∀ p ∈ t.current, p.1 ∈ t.evaluated := fun p hp =>
    h.related.2.evaluated p.1 (h.related.2.current p hp).1 (by simp [hClients])
  have hFinished : Follows (Mid True) (s.emit .finished) { t with current := [] } := by
    have hSpec : spec t (.finished : Obs G T B I) = some { t with current := [] } := if_pos hAll
    refine h.append rfl (by rw [run_cons, hSpec]; rfl) ⟨h.related.1.same { Same.rfl with }, ?_⟩
    exact { h.related.2.same { Same.rfl with } with current := fun p hp => by simp at hp }
  have hSilent := silent_foldl (silent_doneConditionEvaluation turn.world) s.active
    (s.emit .finished)
  obtain ⟨t₁, h₁, hCurrent⟩ := postLocations_follows (hSilent.follows hFinished) turn.callbacks
  have hKept := kept_postLocations turn.callbacks
    (s.active.foldl (fun s g => doneConditionEvaluation turn.world g s) (s.emit .finished))
  have hRelease := releaseActive_follows s.active h₁
    (by rw [hKept.clients, hSilent.same.clients]; exact hClients) hCurrent
    (by rw [hKept.active, hSilent.same.active]; exact fun g hg => hg)
  exact ⟨t₁, hRelease⟩

omit [DecidableEq T] [DecidableEq I] in
/-- A generation that is finished ends the period, or another one has to follow it. -/
theorem finishGeneration_follows
    (h : Follows (Mid busy) s t) (hBusy : busy) (hClients : s.clients = []) (turn : Turn G T B) :
    ∃ s' t', finishGeneration turn s = some s' ∧ Follows Rel s' t' ∧ s'.clients = [] := by
  obtain ⟨t₁, h₁, hActive₁, hClients₁, hCnt₁⟩ := doneAllEvaluations_follows h hBusy hClients turn
  unfold finishGeneration
  rw [if_neg (not_not.2 hActive₁)]
  -- what planting posts does not matter: the requests that are left decide
  obtain ⟨s₂, t₂, hEq, h₂, hActive₂, hClients₂⟩ : ∃ s₂ t₂,
      (if (doneAllEvaluations turn s).posted = [] then
        postLocations turn.flushing (doneAllEvaluations turn s)
      else doneAllEvaluations turn s) = s₂ ∧ Follows (Mid True) s₂ t₂ ∧ s₂.active = [] ∧
      s₂.clients = [] := by
    split
    · obtain ⟨t₂, h₂, -⟩ := postLocations_follows h₁ turn.flushing
      have hKept := kept_postLocations turn.flushing (doneAllEvaluations turn s)
      exact ⟨_, t₂, rfl, h₂, hKept.active.trans hActive₁, hKept.clients.trans hClients₁⟩
    · exact ⟨_, t₁, rfl, h₁, hActive₁, hClients₁⟩
  rw [hEq]
  obtain ⟨hInv, hRel⟩ := h₂.related
  obtain ⟨hLt, hLe, hLast⟩ := hInv.generation trivial
  have hCurrent : t₂.current = [] := List.eq_nil_iff_forall_not_mem.2 fun p hp => by
    have := (hRel.current p hp).1
    simp [hActive₂] at this
  by_cases hPosted : s₂.posted = []
  · have hGeneration := hLast hPosted
    have hWaiting : t₂.waiting = [] := List.eq_nil_iff_forall_not_mem.2 fun p hp => by
      have := (hRel.waiting p hp).1
      simp [hPosted] at this
    have hOpen : s₂.generationPosted ≠ s₂.generationDone := by omega
    have hLock : s₂.runCtrlLock = 1 := by rw [hInv.lock, if_neg hOpen]
    have hEvents : s₂.events = [] := by
      by_contra hSome
      exact (hInv.last hSome).1 hPosted
    have hHeld : t₂.held = true := hRel.held.2 hOpen
    rw [if_neg (not_not.2 hPosted), if_neg (Nat.ne_of_lt hLt), if_neg (not_not.2 hGeneration.symm)]
    have hUnlock : runCtrlUnlock { s₂ with generationDone := s₂.generationActive } =
        some ({ s₂ with generationDone := s₂.generationActive, runCtrlLock := 0 }.emit
          .unlock) := by
      simp [runCtrlUnlock, hLock]
    refine ⟨_, { t₂ with held := false }, hUnlock, ?_, hClients₂⟩
    refine h₂.append rfl (by simp [spec, hHeld, hWaiting, hCurrent]) ⟨⟨?_, ?_⟩, fun _ => hActive₂⟩
    · exact {
        nodupPosted := hInv.nodupPosted
        nodupActive := hInv.nodupActive
        nodupClients := hInv.nodupClients
        clients_active := hInv.clients_active
        cnt := hInv.cnt
        active_busy := id
        generation := fun hSome => absurd hActive₂ hSome
        done_le := hLe
        pending := by simp [State.emit, hPosted, hActive₂, hGeneration]
        sorted := hInv.sorted
        events_le := hInv.events_le
        last := fun hSome => absurd hEvents hSome
        fresh := fun hSome => absurd hPosted hSome
        lock := by simp [State.emit, hGeneration] }
    · refine { hRel with held := ?_ }
      simp [State.emit, hGeneration]
  · rw [if_pos hPosted]
    have hNext := postReplantEvent_inv hInv hPosted
    refine ⟨_, t₂, rfl, h₂.silent rfl ⟨⟨?_, postReplantEvent_related hRel (by omega)⟩,
      fun _ => hActive₂⟩, hClients₂⟩
    exact { hNext with
      active_busy := id
      generation := fun hSome => absurd hActive₂ hSome
      pending := ⟨fun _ => .inl hPosted, fun _ => hNext.pending.2 (.inl hPosted)⟩
      fresh := fun _ _ => by simp [postReplantEvent] }

/-! ## Clients -/

omit [DecidableEq T] [DecidableEq I] in
/-- A posting or a condition that is evaluated keeps the relation between steps. -/
theorem rel_of_mid (h : Follows (Mid (s.active ≠ [])) s' t)
    (hActive : s'.active = s.active) (hClients : s'.clients = s.clients)
    (hNone : s.clients = [] → s.active = []) : Follows Rel s' t := by
  refine h.silent rfl ⟨?_, fun h => ?_⟩
  · rw [hActive]
    exact h.related
  · rw [hActive]
    exact hNone (hClients.symm.trans h)

omit [DecidableEq T] [DecidableEq I] in
theorem beforeExit_follows (h : Follows Rel s t)
    (turn : Turn G T B) (g : G) :
    ∃ t', Follows (Mid (s.active ≠ []))
        (evaluateConditions turn.world g (postLocations turn.posts s)) t' ∧
      (evaluateConditions turn.world g (postLocations turn.posts s)).active = s.active ∧
      (evaluateConditions turn.world g (postLocations turn.posts s)).clients = s.clients ∧
      (evaluateConditions turn.world g (postLocations turn.posts s)).cacheEnterCnt =
        s.cacheEnterCnt := by
  obtain ⟨t', h', -⟩ := postLocations_follows (h.silent rfl h.related.1) turn.posts
  have hKept := kept_postLocations turn.posts s
  have hSilent := silent_setConds (postLocations turn.posts s) g
    (((postLocations turn.posts s).req g).conds.map fun c =>
      { c with conditionOk := turn.world.ok c.ctx c.bp })
  exact ⟨t', hSilent.follows h', hKept.active, hKept.clients, hKept.cacheEnterCnt⟩

omit [DecidableEq T] [DecidableEq I] in
/-- A run of a client: no assertion fails, and when the client does not come to its end it
is left waiting. -/
theorem replantClient_follows (h : Follows Rel s t)
    (turn : Turn G T B) (hg : g ∈ s.clients) :
    ∃ s' t', replantClient turn g s = some s' ∧ Follows Rel s' t' ∧
      s'.clients = if turn.outcome = .exits then s.clients.erase g else s.clients := by
  have hActive : g ∈ s.active := h.related.1.1.clients_active g hg
  have hBusy : s.active ≠ [] := List.ne_nil_of_mem hActive
  unfold replantClient
  rw [if_neg (not_not.2 hActive)]
  cases hOutcome : turn.outcome with
  | waits => exact ⟨s, t, rfl, h, rfl⟩
  | misses =>
    obtain ⟨t', h', hActive', hClients', -⟩ := beforeExit_follows h turn g
    exact ⟨_, t', rfl, rel_of_mid h' hActive' hClients' h.related.2, hClients'⟩
  | exits =>
    obtain ⟨t', h', hActive', hClients', hCnt'⟩ := beforeExit_follows h turn g
    dsimp only
    obtain ⟨s₁, hs₁⟩ : ∃ s₁, evaluateConditions turn.world g (postLocations turn.posts s) = s₁ :=
      ⟨_, rfl⟩
    rw [hs₁] at h' hActive' hClients' hCnt' ⊢
    obtain ⟨hInv, hRel⟩ := h'.related
    have hg₁ : g ∈ s₁.clients := hClients' ▸ hg
    have hPos : 0 < s₁.clients.length := List.length_pos_of_mem hg₁
    have hCnt : s₁.cacheEnterCnt ≠ 0 := by
      rw [hInv.cnt]
      omega
    have hErase (x : G) : x ∈ s₁.clients.erase g ↔ x ≠ g ∧ x ∈ s₁.clients :=
      List.Nodup.mem_erase_iff hInv.nodupClients
    have hLength : (s₁.clients.erase g).length = s₁.clients.length - 1 :=
      List.length_erase_of_mem hg₁
    -- the client of the cache exits: its evaluation goes to the log
    have hEvaluated : Follows (Mid (s.active ≠ []))
        ({ s₁ with
          cacheEnterCnt := s₁.cacheEnterCnt - 1
          clients := s₁.clients.erase g }.emit (.evaluated g (s₁.req g).locActive))
        { t' with evaluated := g :: t'.evaluated } := by
      have hCovers : ∀ p ∈ t'.current, p.1 = g → (s₁.req g).locActive.Covers p.2 := by
        rintro p hp rfl
        exact (hRel.current p hp).2
      have hSpec : spec t' (.evaluated g (s₁.req g).locActive : Obs G T B I) =
          some { t' with evaluated := g :: t'.evaluated } := if_pos hCovers
      refine h'.append rfl (by rw [run_cons, hSpec]; rfl) ⟨{ hInv with
          nodupClients := hInv.nodupClients.erase g
          clients_active := fun x hx => hInv.clients_active x ((hErase x).1 hx).2
          cnt := ?_ }, { hRel with evaluated := fun x hx hNot => ?_ }⟩
      · show s₁.cacheEnterCnt - 1 = (s₁.clients.erase g).length
        rw [hLength, hInv.cnt]
      · by_cases hxg : x = g
        · exact hxg ▸ List.mem_cons_self
        · refine List.mem_cons_of_mem _ (hRel.evaluated x hx fun hx' => ?_)
          exact hNot ((hErase x).2 ⟨hxg, hx'⟩)
    rw [if_neg hCnt]
    split
    -- the last client finishes the generation
    · rename_i hLast
      have hNone : s₁.clients.erase g = [] := by
        refine List.length_eq_zero_iff.1 ?_
        change s₁.cacheEnterCnt - 1 = 0 at hLast
        rw [hLength, ← hInv.cnt, hLast]
      obtain ⟨s', t'', hEq, hFollows, hClients⟩ :=
        finishGeneration_follows hEvaluated hBusy hNone turn
      refine ⟨s', t'', hEq, hFollows, ?_⟩
      rw [if_pos rfl, ← hClients', hNone, hClients]
    -- the others are still evaluating
    · rename_i hMore
      refine ⟨_, _, rfl, hEvaluated.silent rfl ⟨?_, fun hNone => ?_⟩, ?_⟩
      · have hSame : (s₁.active ≠ []) = (s.active ≠ []) := by rw [hActive']
        show Mid (s₁.active ≠ []) _ _
        rw [hSame]
        exact hEvaluated.related
      · refine absurd ?_ hMore
        change s₁.clients.erase g = [] at hNone
        show s₁.cacheEnterCnt - 1 = 0
        rw [hInv.cnt, ← hLength, hNone]
        rfl
      · rw [if_pos rfl, ← hClients']
        rfl

omit [DecidableEq T] [DecidableEq B] [DecidableEq I] in
theorem releaseActive_done (gs : List G) (s : State G T B I) :
    (releaseActive gs s).generationDone = s.generationDone := by
  induction gs generalizing s with
  | nil => rfl
  | cons g gs ih => exact ih _

omit [DecidableEq T] [DecidableEq I] in
theorem doneAllEvaluations_done (turn : Turn G T B) (s : State G T B I) :
    (doneAllEvaluations turn s).generationDone = s.generationDone := by
  have hSilent := silent_foldl (silent_doneConditionEvaluation turn.world) s.active
    (s.emit .finished)
  have hKept := kept_postLocations turn.callbacks
    (s.active.foldl (fun s g => doneConditionEvaluation turn.world g s) (s.emit .finished))
  exact (releaseActive_done _ _).trans (hKept.generationDone.trans hSilent.same.generationDone)

variable {turn : Turn G T B}

omit [DecidableEq T] [DecidableEq I] in
/-- When the last client of a generation has counted it, the generations have caught up. -/
theorem finishGeneration_done (h : finishGeneration turn s = some s') :
    s'.generationDone = s.generationDone ∨ s'.generationDone = s'.generationPosted := by
  unfold finishGeneration at h
  dsimp only at h
  split at h
  · cases h
  obtain ⟨s₁, hState, hDone⟩ : ∃ s₁, (if (doneAllEvaluations turn s).posted = [] then
      postLocations turn.flushing (doneAllEvaluations turn s) else doneAllEvaluations turn s) =
        s₁ ∧ s₁.generationDone = s.generationDone := by
    have hDone := doneAllEvaluations_done turn s
    split
    · exact ⟨_, rfl, (kept_postLocations _ _).generationDone.trans hDone⟩
    · exact ⟨_, rfl, hDone⟩
  rw [hState] at h
  split at h
  · cases h
    exact .inl hDone
  split at h
  · cases h
  split at h
  · cases h
  · rename_i hPosted
    unfold runCtrlUnlock at h
    split at h
    · cases h
    · cases h
      exact .inr (not_not.1 hPosted).symm

omit [DecidableEq T] [DecidableEq I] in
theorem replantClient_done (h : replantClient turn g s = some s') :
    s'.generationDone = s.generationDone ∨ s'.generationDone = s'.generationPosted := by
  have hKept := kept_postLocations turn.posts s
  unfold replantClient at h
  split at h
  · cases h
  split at h
  · cases h
    exact .inl rfl
  · cases h
    exact .inl hKept.generationDone
  · dsimp only at h
    split at h
    · cases h
    split at h
    · refine (finishGeneration_done h).imp_left fun hDone => hDone.trans ?_
      exact hKept.generationDone
    · cases h
      exact .inl hKept.generationDone

variable {gs : List G}

omit [DecidableEq T] [DecidableEq I] in
/-- The clients of a generation are entered one after another. -/
theorem enterClients_follows (h : Follows Rel s t)
    (turns : G → Turn G T B) (hNodup : gs.Nodup) (hGs : ∀ g ∈ gs, g ∈ s.clients) :
    ∃ s' t', enterClients turns gs s = some s' ∧ Follows Rel s' t' ∧
      s'.clients.length ≤ s.clients.length := by
  induction gs generalizing s t with
  | nil => exact ⟨s, t, rfl, h, le_rfl⟩
  | cons g gs ih =>
    obtain ⟨s₁, t₁, hEq, h₁, hClients⟩ :=
      replantClient_follows h (turns g) (hGs g List.mem_cons_self)
    obtain ⟨hNot, hNodup'⟩ := List.nodup_cons.1 hNodup
    obtain ⟨s', t', hEq', h', hLength⟩ := ih h₁ hNodup' fun x hx => by
      have hx' := hGs x (List.mem_cons_of_mem _ hx)
      have hne : x ≠ g := fun h => hNot (h ▸ hx)
      rw [hClients]
      split
      · exact (List.Nodup.mem_erase_iff h.related.1.1.nodupClients).2 ⟨hne, hx'⟩
      · exact hx'
    refine ⟨s', t', by rw [enterClients, hEq]; exact hEq', h', hLength.trans ?_⟩
    rw [hClients]
    split
    · exact List.length_erase_le
    · exact le_rfl

/-! ## Events -/

/-- The request of a generation that starts. -/
def Request.start (r : Request T B I) : Request T B I :=
  { r with locActive := r.locPosted, locPosted := {} }

/-- All posted requests are taken over. -/
def State.takeOver (s : State G T B I) (gs : List G) : State G T B I :=
  { s with
    posted := []
    active := s.active ++ gs
    clients := s.clients ++ gs
    cacheEnterCnt := s.cacheEnterCnt + gs.length
    req := fun g => if g ∈ gs then (s.req g).start else s.req g }

omit [DecidableEq T] [DecidableEq B] [DecidableEq I] in
theorem activate_eq (hPosted : s.posted = gs)
    (hNodup : gs.Nodup) (hNew : ∀ g ∈ gs, g ∉ s.active) :
    activate gs s = some (s.takeOver gs) := by
  induction gs generalizing s with
  | nil =>
    obtain ⟨posted, active⟩ := s
    cases hPosted
    simp [activate, State.takeOver]
  | cons g gs ih =>
    obtain ⟨hNot, hNodup'⟩ := List.nodup_cons.1 hNodup
    rw [activate, if_neg (hNew g List.mem_cons_self), ih]
    · simp only [State.takeOver, State.setReq, List.append_assoc, List.singleton_append,
        List.length_cons, Option.some.injEq, State.mk.injEq, true_and, and_true]
      refine ⟨funext fun x => ?_, by omega⟩
      by_cases hx : x = g
      · subst hx
        simp [hNot, Request.start]
      · simp [hx]
    · simp [hPosted]
    · exact hNodup'
    · intro x hx hActive
      rcases List.mem_append.1 hActive with hActive | hActive
      · exact hNew x (List.mem_cons_of_mem _ hx) hActive
      · exact hNot (List.mem_singleton.1 hActive ▸ hx)

variable {events : List Nat}

omit [DecidableEq G] [DecidableEq T] [DecidableEq B] [DecidableEq I] in
/-- The events that are queued are dispatched in order, the newest last: a stale one is
followed by it. -/
theorem stale_iff (h : Inv busy s) {arg : Nat}
    (hEvents : s.events = arg :: events) :
    (arg = s.generationPosted ↔ events = []) ∧ (events ≠ [] → s.generationPosted ∈ events) := by
  have hSorted := h.sorted
  have hLast := (h.last (by simp [hEvents])).2
  have hLe := h.events_le
  rw [hEvents] at hSorted hLast hLe
  obtain ⟨hHead, -⟩ := List.pairwise_cons.1 hSorted
  have hStale : arg ≠ s.generationPosted → s.generationPosted ∈ events := fun hNe =>
    (List.mem_cons.1 hLast).resolve_left (Ne.symm hNe)
  refine ⟨⟨fun hEq => ?_, fun hNone => ?_⟩, fun hSome => hStale fun hEq => ?_⟩
  · refine List.eq_nil_iff_forall_not_mem.2 fun e he => ?_
    have := hHead e he
    have := hLe e (List.mem_cons_of_mem _ he)
    omega
  · by_contra hNe
    simpa [hNone] using hStale hNe
  · obtain ⟨e, he⟩ := List.exists_mem_of_ne_nil _ hSome
    have := hHead e he
    have := hLe e (List.mem_cons_of_mem _ he)
    omega

omit [DecidableEq T] [DecidableEq I] in
/-- An event that does not start a generation is dropped. -/
theorem dropEvent_follows (h : Follows Rel s t) {arg : Nat}
    (hEvents : s.events = arg :: events)
    (hDrop : events ≠ [] ∨ s.active ≠ []) : Follows Rel { s with events } t := by
  obtain ⟨⟨hInv, hRel⟩, hNone⟩ := h.related
  have hPosted : s.posted ≠ [] := (hInv.last (by simp [hEvents])).1
  have hStale := (stale_iff hInv hEvents).2
  refine h.silent rfl ⟨⟨{ hInv with
    sorted := ?_
    events_le := fun e he => ?_
    last := fun hSome => ⟨hPosted, hStale hSome⟩
    fresh := fun _ hIdle => hDrop.resolve_right hIdle }, { hRel with }⟩, hNone⟩
  · have := hInv.sorted
    rw [hEvents] at this
    exact (List.pairwise_cons.1 this).2
  · refine hInv.events_le e ?_
    rw [hEvents]
    exact List.mem_cons_of_mem _ he

omit [DecidableEq T] [DecidableEq I] in
/-- A generation starts, with everything that is posted. -/
theorem start_follows (h : Follows Rel s t)
    (hPosted : s.posted ≠ []) (hClients : s.clients = []) :
    Follows Rel
      ((({ s with events := [], generationActive := s.generationPosted }).takeOver s.posted).emit
        (.started s.posted))
      { t with waiting := [], current := t.waiting, evaluated := [] } := by
  obtain ⟨⟨hInv, hRel⟩, hNone⟩ := h.related
  have hActive : s.active = [] := hNone hClients
  have hOpen : s.generationDone ≠ s.generationPosted := hInv.pending.2 (.inl hPosted)
  have hLt : s.generationDone < s.generationPosted := by
    have := hInv.done_le
    omega
  have hCurrent : t.current = [] := List.eq_nil_iff_forall_not_mem.2 fun p hp => by
    have := (hRel.current p hp).1
    simp [hActive] at this
  have hGs : ∀ p ∈ t.waiting, p.1 ∈ s.posted := fun p hp => (hRel.waiting p hp).1
  have hSpec : spec t (.started s.posted : Obs G T B I) =
      some { t with waiting := [], current := t.waiting, evaluated := [] } :=
    if_pos ⟨hCurrent, hGs⟩
  refine h.append rfl (by rw [run_cons, hSpec]; rfl) ⟨⟨?_, ?_⟩, fun hEmpty => ?_⟩
  · exact {
      nodupPosted := List.nodup_nil
      nodupActive := by simpa [State.takeOver, State.emit, hActive] using hInv.nodupPosted
      nodupClients := by simpa [State.takeOver, State.emit, hClients] using hInv.nodupPosted
      clients_active := by simp [State.takeOver, State.emit, hActive, hClients]
      cnt := by simp [State.takeOver, State.emit, hClients, hInv.cnt]
      active_busy := id
      generation := fun _ => ⟨hLt, le_rfl, fun _ => rfl⟩
      done_le := hInv.done_le
      pending := ⟨fun _ => .inr (by simpa [State.takeOver, State.emit, hActive] using hPosted),
        fun _ => hOpen⟩
      sorted := List.Pairwise.nil
      events_le := by simp [State.takeOver, State.emit]
      last := fun hSome => absurd rfl hSome
      fresh := fun hSome => absurd rfl hSome
      lock := hInv.lock }
  · exact {
      held := hRel.held
      waiting := by simp
      current := fun p hp => by
        obtain ⟨hMem, hCovers⟩ := hRel.waiting p hp
        exact ⟨by simpa [State.takeOver, State.emit] using .inr hMem,
          by simpa [State.takeOver, State.emit, hMem, Request.start] using hCovers⟩
      evaluated := by simp [State.takeOver, State.emit, hActive, hClients] }
  · simp [State.takeOver, State.emit, hClients, hPosted] at hEmpty

omit [DecidableEq T] [DecidableEq B] [DecidableEq I] in
theorem activate_all (hNodup : s.posted.Nodup) (hActive : s.active = []) :
    activate s.posted { s with events := [], generationActive := s.generationPosted } =
        some (({ s with events := [], generationActive := s.generationPosted }).takeOver s.posted) ∧
      (({ s with events := [], generationActive := s.generationPosted }).takeOver s.posted).active =
        s.posted :=
  ⟨activate_eq rfl hNodup (by simp [hActive]), by simp [State.takeOver, hActive]⟩

omit [DecidableEq T] [DecidableEq I] in
/-- An event is dispatched: no assertion fails. -/
theorem eventReplant_follows (h : Follows Rel s t)
    (turns : G → Turn G T B) {arg : Nat} (hEvents : s.events = arg :: events) :
    ∃ s' t', eventReplant turns arg { s with events } = some s' ∧ Follows Rel s' t' := by
  obtain ⟨⟨hInv, hRel⟩, hNone⟩ := h.related
  have hPosted : s.posted ≠ [] := (hInv.last (by simp [hEvents])).1
  have hStale := (stale_iff hInv hEvents).1
  unfold eventReplant
  rw [if_neg hPosted]
  by_cases hArg : arg = s.generationPosted
  · rw [if_neg (not_not.2 hArg)]
    by_cases hCnt : 0 < s.cacheEnterCnt
    · rw [if_pos hCnt]
      have hActive : s.active ≠ [] := by
        obtain ⟨g, hg⟩ := List.exists_mem_of_length_pos (hInv.cnt ▸ hCnt)
        exact List.ne_nil_of_mem (hInv.clients_active g hg)
      exact ⟨_, t, rfl, dropEvent_follows h hEvents (.inr hActive)⟩
    · rw [if_neg hCnt]
      have hClients : s.clients = [] := by
        refine List.length_eq_zero_iff.1 ?_
        rw [← hInv.cnt]
        omega
      obtain rfl : events = [] := hStale.1 hArg
      have hActive : s.active = [] := hNone hClients
      obtain ⟨hActivate, hGs⟩ := activate_all (s := s) hInv.nodupPosted hActive
      have hStart := start_follows h hPosted hClients
      show ∃ s' t', (activate s.posted
        { s with events := [], generationActive := s.generationPosted }).bind
          (fun s => enterClients turns s.active (s.emit (.started s.active))) = some s' ∧ _
      rw [hActivate, Option.bind_some, hGs]
      obtain ⟨s', t', hEq, h', -⟩ := enterClients_follows hStart turns hInv.nodupPosted
        (by simp [State.takeOver, State.emit, hClients])
      exact ⟨s', t', hEq, h'⟩
  · rw [if_pos hArg]
    exact ⟨_, t, rfl, dropEvent_follows h hEvents (.inl fun hEmpty => hArg (hStale.2 hEmpty))⟩

/-- A context stops at breakpoints. -/
theorem evaluateBreakpoint_follows (h : Follows Rel s t)
    (w : World T B) (ctx : T) (g : G) (hits : List (I × B)) (callbacks : List (G × Option B)) :
    ∃ t', Follows Rel (evaluateBreakpoint w ctx g hits callbacks s) t' := by
  obtain ⟨hMid, hNone⟩ := h.related
  have h : Follows (Mid (s.active ≠ [])) s t := h.silent rfl hMid
  unfold evaluateBreakpoint
  dsimp only
  obtain ⟨p, hp⟩ : ∃ p, addConditions w ctx hits
    (decide (g ∈ s.posted ∨ g ∈ s.active) || decide (0 < s.cacheEnterCnt)) (s.req g).conds = p :=
    ⟨_, rfl⟩
  rw [hp]
  have hAdd := silent_setConds s g p.2
  have hAdded := hAdd.follows h
  split
  · split
    · exact ⟨t, rel_of_mid hAdded hAdd.same.active hAdd.same.clients hNone⟩
    · have hJob : ((s.setReq g { s.req g with conds := p.2 }).req g).locPosted.Covers
          .condition := trivial
      obtain ⟨t', h', -⟩ := postEvaluationRequest_follows hAdded hJob
      have hKept := kept_postEvaluationRequest g .condition
        (s.setReq g { s.req g with conds := p.2 })
      exact ⟨t', rel_of_mid h' (hKept.active.trans hAdd.same.active)
        (hKept.clients.trans hAdd.same.clients) hNone⟩
  · have hDone := silent_doneConditionEvaluation w (s.setReq g { s.req g with conds := p.2 }) g
    obtain ⟨t', h', -⟩ := postLocations_follows (hDone.follows hAdded) callbacks
    have hKept := kept_postLocations callbacks
      (doneConditionEvaluation w g (s.setReq g { s.req g with conds := p.2 }))
    have hClear := silent_setConds (postLocations callbacks
      (doneConditionEvaluation w g (s.setReq g { s.req g with conds := p.2 }))) g []
    refine ⟨t', rel_of_mid (hClear.follows h') ?_ ?_ hNone⟩
    · rw [hClear.same.active, hKept.active, hDone.same.active, hAdd.same.active]
    · rw [hClear.same.clients, hKept.clients, hDone.same.clients, hAdd.same.clients]

/-- Every step that is enabled succeeds, and what it lets be observed is accepted. -/
theorem step_follows (h : Follows Rel s t)
    {e : Event G T B I} (he : Enabled s e) :
    ∃ s' t', step s e = some s' ∧ Follows Rel s' t' := by
  cases e with
  | location g bp =>
    obtain ⟨t', h', -⟩ := postLocation_follows (h.silent rfl h.related.1) g bp
    have hKept := kept_postLocation g bp s
    exact ⟨_, t', rfl, rel_of_mid h' hKept.active hKept.clients h.related.2⟩
  | stop w ctx g hits callbacks =>
    obtain ⟨t', h'⟩ := evaluateBreakpoint_follows h w ctx g hits callbacks
    exact ⟨_, t', rfl, h'⟩
  | dispatch turns =>
    cases hEvents : s.events with
    | nil => exact absurd hEvents he
    | cons arg events =>
      obtain ⟨s', t', hEq, h'⟩ := eventReplant_follows h turns hEvents
      exact ⟨s', t', by simpa [step, hEvents] using hEq, h'⟩
  | rerun g turn =>
    obtain ⟨s', t', hEq, h', -⟩ := replantClient_follows h turn he
    exact ⟨s', t', by simpa [step, show g ∈ s.clients from he] using hEq, h'⟩

omit [DecidableEq T] [DecidableEq I] in
theorem init_follows : Follows Rel (init : State G T B I) {} :=
  ⟨rfl, ⟨by
    have hIdle : ((init : State G T B I).active ≠ []) = False := by simp [init]
    rw [hIdle]
    exact ⟨inv_init, by simp [init], by simp, by simp, by simp [init]⟩, fun _ => rfl⟩⟩

/-! ## Progress -/

/-- Nothing is posted in the run of the client. -/
def Turn.Quiet (t : Turn G T B) : Prop := t.posts = [] ∧ t.callbacks = [] ∧ t.flushing = []

/-- Only events are dispatched, and clients that wait come to their end. -/
def Quiet : Event G T B I → Prop
  | .dispatch turns => ∀ g, (turns g).Quiet
  | .rerun _ turn => turn.Quiet ∧ turn.outcome = .exits
  | _ => False

/-- How many such steps there can be. -/
def State.toDo (s : State G T B I) : Nat :=
  s.events.length + s.posted.length + s.clients.length +
    if s.posted ≠ [] ∧ s.clients ≠ [] then 1 else 0

/-- What a client does to the queue when nothing is posted. -/
structure QuietEnd (s s' : State G T B I) : Prop where
  posted : s'.posted = s.posted
  events : s'.events.length ≤ s.events.length + if s.posted ≠ [] then 1 else 0

omit [DecidableEq T] [DecidableEq B] [DecidableEq I] in
theorem releaseActive_queue (gs : List G) (s : State G T B I) :
    (releaseActive gs s).posted = s.posted ∧ (releaseActive gs s).events = s.events := by
  induction gs generalizing s with
  | nil => exact ⟨rfl, rfl⟩
  | cons g gs ih => exact ih _

omit [DecidableEq T] [DecidableEq I] in
theorem finishGeneration_quiet (hQuiet : turn.Quiet)
    (h : finishGeneration turn s = some s') : QuietEnd s s' := by
  obtain ⟨-, hCallbacks, hFlushing⟩ := hQuiet
  have hDone : (doneAllEvaluations turn s).posted = s.posted ∧
      (doneAllEvaluations turn s).events = s.events := by
    have hSilent := (silent_foldl (silent_doneConditionEvaluation turn.world) s.active
      (s.emit .finished)).same
    unfold doneAllEvaluations
    rw [hCallbacks]
    obtain ⟨hPosted, hEvents⟩ := releaseActive_queue s.active (postLocations []
      (s.active.foldl (fun s g => doneConditionEvaluation turn.world g s) (s.emit .finished)))
    exact ⟨hPosted.trans hSilent.posted, hEvents.trans hSilent.events⟩
  unfold finishGeneration at h
  rw [hFlushing] at h
  obtain ⟨hPosted, hEvents⟩ := hDone
  obtain ⟨s₁, hs₁⟩ : ∃ s₁, doneAllEvaluations turn s = s₁ := ⟨_, rfl⟩
  rw [hs₁] at h hPosted hEvents
  simp only [postLocations, List.foldl_nil, ite_self] at h
  split at h
  · cases h
  split at h
  · rename_i hSome
    cases h
    refine ⟨hPosted, ?_⟩
    rw [hPosted] at hSome
    simp [postReplantEvent, hEvents, hSome]
  · split at h
    · cases h
    split at h
    · cases h
    simp only [runCtrlUnlock] at h
    split at h
    · cases h
    · cases h
      exact ⟨hPosted, by simp [State.emit, hEvents]⟩

omit [DecidableEq T] [DecidableEq I] in
/-- A client that has come to its end: the last one of a generation posts an event if a
request is posted, none of the others does. -/
theorem replantClient_quiet (hQuiet : turn.Quiet)
    (h : replantClient turn g s = some s') :
    s'.posted = s.posted ∧
      s'.events.length ≤ s.events.length +
        if s.posted ≠ [] ∧ s.cacheEnterCnt = 1 then 1 else 0 := by
  unfold replantClient at h
  rw [hQuiet.1] at h
  split at h
  · cases h
  split at h
  · cases h
    exact ⟨rfl, Nat.le_add_right _ _⟩
  · cases h
    exact ⟨rfl, Nat.le_add_right _ _⟩
  · dsimp only at h
    split at h
    · cases h
    rename_i hCnt
    split at h
    · rename_i hLast
      have hEnd := finishGeneration_quiet hQuiet h
      refine ⟨hEnd.posted, hEnd.events.trans ?_⟩
      change s.cacheEnterCnt - 1 = 0 at hLast
      change ¬ s.cacheEnterCnt = 0 at hCnt
      have hOne : s.cacheEnterCnt = 1 := by omega
      simp only [hOne, and_true]
      exact le_rfl
    · cases h
      exact ⟨rfl, Nat.le_add_right _ _⟩

omit [DecidableEq T] [DecidableEq I] in
theorem enterClients_quiet {turns : G → Turn G T B} (hQuiet : ∀ g, (turns g).Quiet)
    (hPosted : s.posted = []) (h : enterClients turns gs s = some s') :
    s'.posted = [] ∧ s'.events.length ≤ s.events.length := by
  induction gs generalizing s with
  | nil =>
    cases h
    exact ⟨hPosted, le_rfl⟩
  | cons g gs ih =>
    obtain ⟨s₁, h₁, h⟩ := Option.bind_eq_some_iff.1 h
    obtain ⟨hPosted₁, hEvents₁⟩ := replantClient_quiet (hQuiet g) h₁
    obtain ⟨hPosted', hEvents'⟩ := ih (hPosted₁.trans hPosted) h
    simp only [hPosted, ne_eq, not_true_eq_false, false_and, if_false, Nat.add_zero] at hEvents₁
    exact ⟨hPosted', hEvents'.trans hEvents₁⟩

/-- A step in which nothing is posted leaves less to do. -/
theorem quiet_step (h : Follows Rel s t)
    {e : Event G T B I} (he : Enabled s e) (hQuiet : Quiet e) (hStep : step s e = some s') :
    s'.toDo < s.toDo := by
  obtain ⟨⟨hInv, -⟩, hNone⟩ := h.related
  cases e with
  | location g bp => exact hQuiet.elim
  | stop w ctx g hits callbacks => exact hQuiet.elim
  | dispatch turns =>
    cases hEvents : s.events with
    | nil => exact absurd hEvents he
    | cons arg events =>
      have hDrop : ({ s with events } : State G T B I).toDo < s.toDo := by
        simp [State.toDo, hEvents]
      simp only [step, hEvents, eventReplant] at hStep
      split at hStep
      · cases hStep
      split at hStep
      · cases hStep
        exact hDrop
      split at hStep
      · cases hStep
        exact hDrop
      · rename_i hPosted hArg hCnt
        have hClients : s.clients = [] := by
          refine List.length_eq_zero_iff.1 ?_
          rw [← hInv.cnt]
          omega
        obtain rfl : events = [] := (stale_iff hInv hEvents).1.1 (not_not.1 hArg)
        have hActive : s.active = [] := hNone hClients
        obtain ⟨hActivate, hGs⟩ := activate_all (s := s) hInv.nodupPosted hActive
        rw [hActivate, Option.bind_some] at hStep
        have hEnter := enterClients_quiet hQuiet rfl hStep
        rw [hGs] at hStep
        obtain ⟨s₁, t₁, hEq, -, hLength⟩ := enterClients_follows
          (start_follows h hPosted hClients) turns hInv.nodupPosted
          (by simp [State.takeOver, State.emit, hClients])
        obtain rfl : s₁ = s' := Option.some.inj (hEq.symm.trans hStep)
        have hNoEvents : s₁.events = [] := by
          simpa [State.takeOver, State.emit] using hEnter.2
        have hFew : s₁.clients.length ≤ s.posted.length := by
          simpa [State.takeOver, State.emit, hClients] using hLength
        simp [State.toDo, hEnter.1, hNoEvents, hEvents]
        omega
  | rerun g turn =>
    obtain ⟨hTurn, hExits⟩ := hQuiet
    have hg : g ∈ s.clients := he
    obtain ⟨s₁, t₁, hEq, -, hClients⟩ := replantClient_follows h turn hg
    have hSame : s₁ = s' := by
      simp only [step, hg, ↓reduceIte, hEq, Option.some.injEq] at hStep
      exact hStep
    subst hSame
    obtain ⟨hPosted, hEvents⟩ := replantClient_quiet hTurn hEq
    rw [if_pos hExits] at hClients
    have hLength : s₁.clients.length = s.clients.length - 1 := by
      rw [hClients, List.length_erase_of_mem hg]
    have hPos : 0 < s.clients.length := List.length_pos_of_mem hg
    have hSome : s.clients ≠ [] := List.ne_nil_of_mem hg
    rw [hInv.cnt] at hEvents
    have hEmpty : s₁.clients ≠ [] ↔ s.clients.length ≠ 1 := by
      rw [← List.length_pos_iff, hLength]
      omega
    simp only [State.toDo, hPosted, hLength, hEmpty, hSome, ne_eq, not_false_eq_true, and_true]
    split at hEvents <;> split <;> split <;> simp_all <;> omega

/-- There are only so many steps without a new request. -/
theorem quiet_bound (h : Follows Rel s t)
    {es : List (Event G T B I)} (hEs : Meets step (fun s e => Enabled s e ∧ Quiet e) s es) :
    es.length ≤ s.toDo := by
  induction es generalizing s t with
  | nil => exact Nat.zero_le _
  | cons e es ih =>
    obtain ⟨s', t', hStep, h'⟩ := step_follows h hEs.1.1
    have hLess := quiet_step h hEs.1.1 hEs.1.2 hStep
    have hRest := ih h' (hEs.2 s' hStep)
    rw [List.length_cons]
    omega

omit [DecidableEq T] [DecidableEq I] in
/-- Nothing is left to do when no event is queued and no client waits. -/
theorem at_rest (h : Follows Rel s t) (hEvents : s.events = [])
    (hClients : s.clients = []) :
    s.generationPosted = s.generationDone ∧ t.waiting = [] ∧ t.current = [] := by
  obtain ⟨hMid, hNone⟩ := h.related
  have hIdle : ¬ s.active ≠ [] := not_not.2 (hNone hClients)
  have hPosted : s.posted = [] := by
    by_contra hSome
    exact hMid.1.fresh hSome hIdle hEvents
  have hDone : s.generationPosted = s.generationDone := by
    by_contra hOpen
    rcases hMid.1.pending.1 (Ne.symm hOpen) with hSome | hBusy
    · exact hSome hPosted
    · exact hIdle hBusy
  exact ⟨hDone, (spec_idle hMid hDone).2⟩

/-- The replanting protocol: in every run no assertion fails, the run control lock is held
exactly while `generation_posted` is not `generation_done`, and what is observed is accepted
by `spec`: the lock is taken and released in turn, and everything that is posted is taken
over by a generation that starts later, and evaluated before that generation is finished.
A request does not wait forever: there are only so many steps without new requests, and when
no event is queued and no client waits, all of the requests have been processed. -/
theorem replanting_protocol (es : List (Event G T B I)) (hEs : Meets step Enabled init es) :
    ∃ s t, run step init es = some s ∧ run spec {} s.log = some t ∧
      s.runCtrlLock = (if s.generationPosted ≠ s.generationDone then 1 else 0) ∧
      (t.held = true ↔ s.generationPosted ≠ s.generationDone) ∧
      (∀ es', Meets step (fun s e => Enabled s e ∧ Quiet e) s es' → es'.length ≤ s.toDo) ∧
      (s.events = [] → s.clients = [] →
        s.generationPosted = s.generationDone ∧ t.waiting = [] ∧ t.current = []) := by
  have hStep (s : State G T B I) (t : Spec G B) (e : Event G T B I) (h : Follows Rel s t)
      (he : Enabled s e) : ∃ s' t', step s e = some s' ∧ Follows Rel s' t' := step_follows h he
  obtain ⟨s, t, hRun, h⟩ := tracks_run hStep init_follows hEs
  refine ⟨s, t, hRun, h.accepts, ?_, h.related.1.2.held, fun es' hEs' => quiet_bound h hEs',
    at_rest h⟩
  rw [h.related.1.1.lock, ite_not]

/-- A world without conditions. -/
def plainWorld : World Nat Nat where
  isDisabled _ := false
  gone _ := false
  admits _ _ := true
  slow _ := false
  holds _ _ := true
  ignoreCount _ := 0

/-- Two groups are replanted; the client of the second one has to wait, and a breakpoint of
the first group is posted meanwhile. -/
def delayedRun : List (Event Nat Nat Nat Nat) :=
  [.location 1 none, .location 2 (some 7),
    .dispatch fun _ => ⟨plainWorld, .waits, [], [], []⟩,
    .dispatch fun g => ⟨plainWorld, if g = 1 then .exits else .misses, [], [], []⟩,
    .location 1 (some 8), .dispatch fun _ => ⟨plainWorld, .exits, [], [], []⟩,
    .rerun 2 ⟨plainWorld, .exits, [], [], []⟩, .dispatch fun _ => ⟨plainWorld, .exits, [], [], []⟩]

theorem replanting_protocol_delayed :
    ∃ s t, run step init delayedRun = some s ∧ run spec {} s.log = some t ∧
      s.runCtrlLock = (if s.generationPosted ≠ s.generationDone then 1 else 0) ∧
      (t.held = true ↔ s.generationPosted ≠ s.generationDone) ∧
      (∀ es', Meets step (fun s e => Enabled s e ∧ Quiet e) s es' → es'.length ≤ s.toDo) ∧
      (s.events = [] → s.clients = [] →
        s.generationPosted = s.generationDone ∧ t.waiting = [] ∧ t.current = []) :=
  replanting_protocol delayedRun (by decide)

end TcfAgent.Replanting
