import TcfAgent.Lib.Simulation
import Mathlib.Data.List.Perm.Basic
import Mathlib.Data.UInt

/-!
# Asynchronous caches

`framework/cache.c`: a cache client is a function that is run from its start again each
time a cache it waited for is filled. `cache_wait` throws `ERR_CACHE_MISS`; when the
exception leaves the client, `run_cache_client` parks it in the wait list of the cache, and
`cache_notify` runs what is parked there again. A client ends its transaction with
`cache_exit`, and after that it may call `cache_enter` and `cache_notify` itself, so
`run_cache_client` is re-entered: the state has a stack of frames, one for each client
that is being run.

The bodies of the clients are the environment: an event is a call that the client on top
of the stack makes, its return (or an exception that leaves it), or a call or a posted
event from the event loop when no client runs. Transaction listeners, the default channel
and the timer that traces stalled clients are left out.

`cache_notify` runs the clients out of the global array `wait_list_buf`, which a
notification inside another one overwrites.

What the module is for is said by `Spec`, which reads the log of the calls: parked
clients wait, a notification makes those of its cache due, and only what is due may be run
again, once. Main results:

* `step_tracks` — a step after which the array still holds what the frames need is a
  step of `Spec`;
* `cache_run`   — so the log of a run of such steps is accepted, and when no client runs
  and no event is posted nothing is due.
-/

namespace TcfAgent.Cache

open TcfAgent.Lib

/-! ## The model -/

/-- `client` names the function and `channel` the channel, `none` being `NULL`. A client
that is zeroed in the source (`id == 0`) is an absent one here. -/
structure WaitingCacheClient where
  id       : UInt32
  client   : Nat
  channel  : Option Nat
  args     : Option (List UInt8)
  argsCopy : Bool
  id_ne    : id ≠ 0
deriving DecidableEq

/-- What the caller of `run_cache_client` is in the middle of: the loop of `cache_notify`
over `wait_list_buf`, or the loop of `cache_notify_event` over a buffer of its own (up to
the zeroed element). -/
inductive Loop where
  | enter
  | notify (i cnt : Nat)
  | event (buf : List WaitingCacheClient) (i : Nat)
deriving DecidableEq

/-- A call of `run_cache_client`, with its local variable `id`. -/
structure Frame where
  id   : UInt32
  loop : Loop
deriving DecidableEq

/-- What can be observed: a transaction is entered, run again, ended (`exited`, or `failed`
by an exception), parked; a cache is notified; a channel is locked and unlocked. -/
inductive LogEntry where
  | entered (w : WaitingCacheClient)
  | exited
  | failed
  | parked (cache : Nat) (w : WaitingCacheClient)
  | notified (cache : Nat)
  | reran (w : WaitingCacheClient)
  | locked (channel : Nat)
  | unlocked (channel : Nat)
deriving DecidableEq

/-- The global variables of the source, the wait lists of the caches, the posted events,
the stack and the log. -/
structure State where
  currentClient : Option WaitingCacheClient := none
  currentCache  : Option Nat := none
  cacheMissCnt  : Nat := 0
  waitListBuf   : List WaitingCacheClient := []
  idCnt         : UInt32 := 0
  waitLists     : Nat → List WaitingCacheClient := fun _ => []
  posted        : List (List WaitingCacheClient) := []
  frames        : List Frame := []
  log           : List LogEntry := []

inductive Error where
  | cacheMiss
  | other
deriving DecidableEq

/-- `memset(&current_client, 0, sizeof(current_client))` and what goes with it. -/
def clearCurrent (s : State) : State :=
  { s with currentClient := none, currentCache := none, cacheMissCnt := 0 }

/-- `run_cache_client`, up to the call of the client. -/
def startClient (s : State) (w : WaitingCacheClient) (loop : Loop) : State :=
  { s with
    currentClient := some w
    currentCache := none
    cacheMissCnt := 0
    frames := ⟨w.id, loop⟩ :: s.frames }

/-- `id_cnt++`, and once more when that gave 0. -/
def nextId (idCnt : UInt32) : UInt32 :=
  if idCnt = 0 then 1 else idCnt

theorem nextId_ne (idCnt : UInt32) : nextId idCnt ≠ 0 := by
  unfold nextId
  split_ifs with h
  · decide
  · exact h

def cacheEnter (s : State) (client : Nat) (channel : Option Nat) (args : Option (List UInt8)) :
    Option State :=
  if s.currentClient = none then
    let w : WaitingCacheClient :=
      { id := nextId s.idCnt, client := client, channel := channel, args := args,
        argsCopy := false, id_ne := nextId_ne s.idCnt }
    some (startClient { s with idCnt := nextId s.idCnt + 1, log := s.log ++ [.entered w] } w .enter)
  else none

/-- With a miss counted, `ERR_CACHE_MISS` is thrown and nothing changes. -/
def cacheExit (s : State) : Option State :=
  if s.currentClient = none then none
  else if 0 < s.cacheMissCnt then some s
  else some (clearCurrent { s with log := s.log ++ [.exited] })

/-- `ERR_CACHE_MISS` is thrown. -/
def cacheWait (s : State) (cache : Nat) : Option State :=
  if s.currentClient = none then none
  else some { s with currentCache := some cache, cacheMissCnt := s.cacheMissCnt + 1 }

/-- The client as it is parked: with a copy of its arguments. -/
def WaitingCacheClient.copied (w : WaitingCacheClient) : WaitingCacheClient :=
  { w with argsCopy := w.argsCopy || w.args.isSome }

/-- The client is added to the wait list, its channel locked. -/
def park (s : State) (w : WaitingCacheClient) (cache : Nat) : State :=
  clearCurrent { s with
    waitLists := Function.update s.waitLists cache (s.waitLists cache ++ [w.copied])
    log := s.log ++ w.channel.toList.map LogEntry.locked ++ [.parked cache w.copied] }

/-- `run_cache_client`, after the client has returned (`none`) or thrown an exception. -/
def finishClient (s : State) (f : Frame) : Option Error → Option State
  | none => if s.currentClient = none ∧ s.cacheMissCnt = 0 then some s else none
  | some error =>
    match s.currentClient with
    | none => if s.cacheMissCnt = 0 then some s else none
    | some w =>
      if f.id ≠ w.id then none
      else
        match s.currentCache with
        | some cache =>
          if error ≠ .cacheMiss ∨ s.cacheMissCnt = 0 then
            some (clearCurrent { s with log := s.log ++ [.failed] })
          else some (park s w cache)
        | none => some (clearCurrent { s with log := s.log ++ [.failed] })

/-- The next round of the loop of `cache_notify`. -/
def notifyLoop (s : State) (i cnt : Nat) : Option State :=
  if i < cnt then
    s.waitListBuf[i]?.map fun w =>
      startClient { s with log := s.log ++ [.reran w] } w (.notify i cnt)
  else some s

/-- The next round of the loop of `cache_notify_event`. -/
def eventLoop (s : State) (buf : List WaitingCacheClient) (i : Nat) : State :=
  match buf[i]? with
  | some w => startClient { s with log := s.log ++ [.reran w] } w (.event buf i)
  | none => s

/-- `if (channel != NULL) channel_unlock_with_msg(channel, channel_lock_msg)` -/
def unlock (s : State) (w : WaitingCacheClient) : State :=
  { s with log := s.log ++ w.channel.toList.map LogEntry.unlocked }

/-- The caller goes on after `run_cache_client`. -/
def afterClient (s : State) : Loop → Option State
  | .enter => some s
  | .notify i cnt => s.waitListBuf[i]?.bind fun w => notifyLoop (unlock s w) (i + 1) cnt
  | .event buf i => buf[i]?.map fun w => eventLoop (unlock s w) buf (i + 1)

/-- The client on top of the stack ends. -/
def leave (s : State) (error : Option Error) : Option State :=
  match s.frames with
  | [] => none
  | f :: rest =>
    (finishClient s f error).bind fun s => afterClient { s with frames := rest } f.loop

/-- `memcpy(wait_list_buf, list, ...)`; what is behind the copy stays. -/
def overwrite (buf list : List WaitingCacheClient) : List WaitingCacheClient :=
  list ++ buf.drop list.length

def cacheNotify (s : State) (cache : Nat) : Option State :=
  let list := s.waitLists cache
  if list.length = 0 then some s
  else
    notifyLoop { s with
      waitLists := Function.update s.waitLists cache []
      waitListBuf := overwrite s.waitListBuf list
      log := s.log ++ [.notified cache] } 0 list.length

def cacheNotifyLater (s : State) (cache : Nat) : State :=
  let list := s.waitLists cache
  if list.length = 0 then s
  else { s with
    waitLists := Function.update s.waitLists cache []
    posted := s.posted ++ [list]
    log := s.log ++ [.notified cache] }

/-- The event loop runs the first posted `cache_notify_event`. -/
def runEvent (s : State) : Option State :=
  match s.posted with
  | [] => none
  | buf :: rest => some (eventLoop { s with posted := rest } buf 0)

/-- What the agent can do with the cache. -/
inductive Event where
  | enter (client : Nat) (channel : Option Nat) (args : Option (List UInt8))
  | exit
  | wait (cache : Nat)
  | leave (error : Option Error)
  | notify (cache : Nat)
  | notifyLater (cache : Nat)
  | runEvent
deriving DecidableEq

def step (s : State) : Event → Option State
  | .enter client channel args => cacheEnter s client channel args
  | .exit => cacheExit s
  | .wait cache => cacheWait s cache
  | .leave error => leave s error
  | .notify cache => cacheNotify s cache
  | .notifyLater cache => some (cacheNotifyLater s cache)
  | .runEvent => runEvent s

/-- What clients and providers of data keep to: inside a transaction a client may wait,
exit, and throw; it returns after `cache_exit` only, and only outside a transaction are
clients entered and caches notified. -/
def Allowed (s : State) : Event → Prop
  | .enter _ _ _ => s.currentClient = none
  | .exit => s.currentClient ≠ none
  | .wait _ => s.currentClient ≠ none
  | .leave error => s.frames ≠ [] ∧ (error = none → s.currentClient = none)
  | .notify _ => s.currentClient = none
  | .notifyLater _ => True
  | .runEvent => s.frames = [] ∧ s.posted ≠ []

/-- The frame still finds in `wait_list_buf` what it needs after `list` is copied there:
the elements behind its index, and the channel of the element at its index. -/
def Loop.Survives (buf list : List WaitingCacheClient) : Loop → Prop
  | .notify i cnt =>
    min cnt list.length ≤ i + 1 ∧
      ∀ w ∈ list[i]?, buf[i]?.map (·.channel) = some w.channel
  | _ => True

/-- A notification leaves intact what the notifications it is made from still need. -/
def Intact (s : State) : Event → Prop
  | .notify cache => ∀ f ∈ s.frames, f.loop.Survives s.waitListBuf (s.waitLists cache)
  | _ => True

instance (s : State) (e : Event) : Decidable (Allowed s e) := by
  cases e <;> unfold Allowed <;> infer_instance

instance (buf list : List WaitingCacheClient) (loop : Loop) :
    Decidable (loop.Survives buf list) := by
  cases loop <;> unfold Loop.Survives <;> infer_instance

instance (s : State) (e : Event) : Decidable (Intact s e) := by
  cases e <;> unfold Intact <;> infer_instance

/-! ## What the module is for -/

/-- The transaction inside which a client is, the parked clients with their caches, those
that are due to be run again, the channels of those that were run and not yet unlocked,
and the locks held. -/
structure Spec where
  current : Option WaitingCacheClient := none
  waiting : List (Nat × WaitingCacheClient) := []
  due     : List WaitingCacheClient := []
  running : List Nat := []
  held    : List Nat := []
deriving DecidableEq

/-- The clients parked on a cache. -/
def Spec.waitingOn (t : Spec) (cache : Nat) : List WaitingCacheClient :=
  (t.waiting.filter (·.1 = cache)).map Prod.snd

/-- A client is parked with its own arguments; it becomes due when its cache is notified,
is run again only when it is due, which uses up one notification, and its lock is released
once after that. -/
def Spec.step (t : Spec) : LogEntry → Option Spec
  | .entered w => if t.current = none then some { t with current := some w } else none
  | .exited => if t.current = none then none else some { t with current := none }
  | .failed => if t.current = none then none else some { t with current := none }
  | .parked cache w =>
    if t.current.map (·.copied) = some w then
      some { t with current := none, waiting := t.waiting ++ [(cache, w)] }
    else none
  | .notified cache =>
    some { t with
      waiting := t.waiting.filter (·.1 ≠ cache)
      due := t.due ++ t.waitingOn cache }
  | .reran w =>
    if t.current = none ∧ w ∈ t.due then
      some { t with
        current := some w
        due := t.due.erase w
        running := w.channel.toList ++ t.running }
    else none
  | .locked channel => some { t with held := channel :: t.held }
  | .unlocked channel =>
    if channel ∈ t.running ∧ channel ∈ t.held then
      some { t with running := t.running.erase channel, held := t.held.erase channel }
    else none

/-- The channels the clients of a list hold locked. -/
def channelsOf (list : List WaitingCacheClient) : List Nat :=
  list.filterMap (·.channel)

/-- Each parked client, each due one and each that is being run holds its lock. -/
def Spec.Balanced (t : Spec) : Prop :=
  t.held.Perm (channelsOf (t.waiting.map Prod.snd) ++ channelsOf t.due ++ t.running)

/-! ## Locks and the clients they belong to -/

@[simp] theorem channelsOf_append (l l' : List WaitingCacheClient) :
    channelsOf (l ++ l') = channelsOf l ++ channelsOf l' := by
  simp [channelsOf]

theorem channelsOf_cons (w : WaitingCacheClient) (l : List WaitingCacheClient) :
    channelsOf (w :: l) = w.channel.toList ++ channelsOf l := by
  cases hChannel : w.channel <;> simp [channelsOf, hChannel]

@[simp] theorem channelsOf_singleton (w : WaitingCacheClient) :
    channelsOf [w] = w.channel.toList := by
  rw [channelsOf_cons]
  exact List.append_nil _

theorem channelsOf_perm {l l' : List WaitingCacheClient} (h : l.Perm l') :
    (channelsOf l).Perm (channelsOf l') :=
  h.filterMap _

variable {w : WaitingCacheClient}

theorem channelsOf_erase {l : List WaitingCacheClient} (h : w ∈ l) :
    (channelsOf l).Perm (w.channel.toList ++ channelsOf (l.erase w)) := by
  rw [← channelsOf_cons]
  exact channelsOf_perm (List.perm_cons_erase h)

variable {t : Spec}

/-- A due client is run again. -/
theorem Spec.rerun (hBalanced : t.Balanced) (hCurrent : t.current = none)
    {rest : List WaitingCacheClient} (hDue : t.due.Perm (w :: rest)) :
    ∃ t', t.step (.reran w) = some t' ∧ t'.Balanced ∧ t'.current = some w ∧
      t'.waiting = t.waiting ∧ t'.due.Perm rest ∧ t'.running = w.channel.toList ++ t.running := by
  have hMem : w ∈ t.due := hDue.symm.subset (List.mem_cons_self ..)
  refine ⟨_, if_pos ⟨hCurrent, hMem⟩, ?_, rfl, rfl, ?_, rfl⟩
  · show t.held.Perm (channelsOf (t.waiting.map Prod.snd) ++ channelsOf (t.due.erase w) ++
      (w.channel.toList ++ t.running))
    refine hBalanced.trans ?_
    rw [List.append_assoc, List.append_assoc]
    refine List.Perm.append_left _ ?_
    rw [← List.append_assoc]
    exact ((channelsOf_erase hMem).trans List.perm_append_comm).append_right _
  · exact (List.erase_cons_head w rest) ▸ hDue.erase w

/-- The lock of a client that has been run is released. -/
theorem Spec.unlock (hBalanced : t.Balanced)
    {rest : List Nat} (hRunning : t.running.Perm (w.channel.toList ++ rest)) :
    ∃ t', run Spec.step t (w.channel.toList.map LogEntry.unlocked) = some t' ∧ t'.Balanced ∧
      t'.current = t.current ∧ t'.waiting = t.waiting ∧ t'.due = t.due ∧
      t'.running.Perm rest := by
  cases hChannel : w.channel with
  | none =>
    rw [hChannel] at hRunning
    exact ⟨t, rfl, hBalanced, rfl, rfl, rfl, hRunning⟩
  | some channel =>
    rw [hChannel] at hRunning
    have hMem : channel ∈ t.running := hRunning.symm.subset (List.mem_cons_self ..)
    have hHeld : channel ∈ t.held :=
      hBalanced.symm.subset (List.mem_append_right _ hMem)
    refine ⟨{ t with running := t.running.erase channel, held := t.held.erase channel }, ?_, ?_,
      rfl, rfl, rfl, ?_⟩
    · show (t.step (.unlocked channel)).bind _ = _
      rw [show t.step (.unlocked channel) = some _ from if_pos ⟨hMem, hHeld⟩]
      rfl
    · show (t.held.erase channel).Perm (_ ++ t.running.erase channel)
      have hCons : (channel :: t.held.erase channel).Perm
          (channel :: (channelsOf (t.waiting.map Prod.snd) ++ channelsOf t.due ++
            t.running.erase channel)) := by
        refine (List.perm_cons_erase hHeld).symm.trans (hBalanced.trans ?_)
        exact ((List.perm_cons_erase hMem).append_left _).trans List.perm_middle
      exact hCons.cons_inv
    · have hErase := hRunning.erase channel
      rwa [Option.toList_some, List.singleton_append, List.erase_cons_head] at hErase

/-- The client is locked and parked. -/
theorem Spec.park (hBalanced : t.Balanced)
    (hCurrent : t.current = some w) (cache : Nat) :
    ∃ t', run Spec.step t (w.channel.toList.map LogEntry.locked ++ [.parked cache w.copied]) =
        some t' ∧ t'.Balanced ∧ t'.current = none ∧ t'.waiting = t.waiting ++ [(cache, w.copied)] ∧
      t'.due = t.due ∧ t'.running = t.running := by
  refine ⟨{ t with
    current := none
    waiting := t.waiting ++ [(cache, w.copied)]
    held := w.channel.toList ++ t.held }, ?_, ?_, rfl, rfl, rfl, rfl⟩
  · have hCopied : t.current.map (·.copied) = some w.copied := by rw [hCurrent]; rfl
    cases hChannel : w.channel with
    | none => simp [Spec.step, hCopied]
    | some channel =>
      have hParked : Spec.step { t with held := channel :: t.held } (.parked cache w.copied) =
          some _ := if_pos hCopied
      show (Spec.step { t with held := channel :: t.held } (.parked cache w.copied)).bind _ = _
      rw [hParked]
      rfl
  · show (w.channel.toList ++ t.held).Perm (channelsOf ((t.waiting ++ [_]).map Prod.snd) ++ _ ++ _)
    rw [List.map_append, List.map_singleton, channelsOf_append, channelsOf_singleton]
    show (w.channel.toList ++ t.held).Perm
      (channelsOf (t.waiting.map Prod.snd) ++ w.channel.toList ++ channelsOf t.due ++ t.running)
    rw [List.append_assoc, List.append_assoc, ← List.append_assoc]
    refine List.Perm.trans ?_ (List.perm_append_comm.append_right _)
    rw [List.append_assoc, ← List.append_assoc (channelsOf (t.waiting.map Prod.snd))]
    exact hBalanced.append_left _

/-- What waits on one cache becomes due. -/
theorem Spec.notify (hBalanced : t.Balanced) (cache : Nat) :
    ∃ t', run Spec.step t [.notified cache] = some t' ∧ t'.Balanced ∧ t'.current = t.current ∧
      (∀ c, t'.waitingOn c = if c = cache then [] else t.waitingOn c) ∧
      t'.due = t.due ++ t.waitingOn cache ∧ t'.running = t.running := by
  refine ⟨_, rfl, ?_, rfl, ?_, rfl, rfl⟩
  · show t.held.Perm (channelsOf ((t.waiting.filter (·.1 ≠ cache)).map Prod.snd) ++
      channelsOf (t.due ++ t.waitingOn cache) ++ t.running)
    refine hBalanced.trans ?_
    refine List.Perm.append_right _ ?_
    have hSplit : (t.waiting.filter (·.1 = cache) ++ t.waiting.filter (·.1 ≠ cache)).Perm
        t.waiting := by
      have hAll :=
        List.filter_append_perm (fun p : Nat × WaitingCacheClient => p.1 = cache) t.waiting
      simpa using hAll
    have hChannels := channelsOf_perm (hSplit.map Prod.snd)
    rw [List.map_append, channelsOf_append] at hChannels
    rw [channelsOf_append]
    refine (hChannels.symm.append_right _).trans ?_
    rw [List.append_assoc]
    refine List.perm_append_comm.trans ?_
    rw [List.append_assoc]
    rfl
  · intro c
    show ((t.waiting.filter (·.1 ≠ cache)).filter (·.1 = c)).map Prod.snd = _
    rw [List.filter_filter]
    split_ifs with hc
    · subst hc
      simp
    · unfold Spec.waitingOn
      congr 1
      apply List.filter_congr
      intro p _
      by_cases hp : p.1 = c
      · simp [hp, hc]
      · simp [hp]

/-! ## The frames and the global array -/

/-- The clients the loop has not come to yet. -/
def Loop.pending (buf : List WaitingCacheClient) : Loop → List WaitingCacheClient
  | .enter => []
  | .notify i cnt => (buf.take cnt).drop (i + 1)
  | .event own i => own.drop (i + 1)

/-- The channel that is unlocked when the client returns. -/
def Loop.holding (buf : List WaitingCacheClient) : Loop → List Nat
  | .enter => []
  | .notify i _ => (buf[i]?.bind (·.channel)).toList
  | .event own i => (own[i]?.bind (·.channel)).toList

/-- The index of a loop is inside of what it goes through. -/
def Loop.InBounds (buf : List WaitingCacheClient) : Loop → Prop
  | .enter => True
  | .notify i cnt => i < cnt ∧ cnt ≤ buf.length
  | .event own i => i < own.length

/-- A loop that survives the copy finds in the array what it found before. -/
theorem Loop.Survives.same {buf list : List WaitingCacheClient} {loop : Loop}
    (h : loop.Survives buf list) (hBounds : loop.InBounds buf) :
    loop.pending (overwrite buf list) = loop.pending buf ∧
      loop.holding (overwrite buf list) = loop.holding buf ∧
      loop.InBounds (overwrite buf list) := by
  cases loop with
  | enter => exact ⟨rfl, rfl, trivial⟩
  | event own i => exact ⟨rfl, rfl, hBounds⟩
  | notify i cnt =>
    obtain ⟨hShort, hChannel⟩ := h
    obtain ⟨hi, hcnt⟩ := hBounds
    refine ⟨?_, ?_, hi, ?_⟩
    · apply List.ext_getElem?
      intro k
      unfold Loop.pending overwrite
      rw [List.getElem?_drop, List.getElem?_drop, List.getElem?_take, List.getElem?_take]
      split_ifs with hk
      · -- the element is behind the copy
        rw [List.getElem?_append_right (by omega), List.getElem?_drop]
        congr 1
        omega
      · rfl
    · show ((overwrite buf list)[i]?.bind (·.channel)).toList = (buf[i]?.bind (·.channel)).toList
      unfold overwrite
      rcases Nat.lt_or_ge i list.length with hlt | hge
      · have hSame := hChannel _ (List.getElem?_eq_getElem hlt)
        obtain ⟨w, hw, hEq⟩ := Option.map_eq_some_iff.mp hSame
        rw [List.getElem?_append_left hlt, List.getElem?_eq_getElem hlt, hw, Option.bind_some,
          Option.bind_some, hEq]
      · have hBack : list.length + (i - list.length) = i := by omega
        rw [List.getElem?_append_right hge, List.getElem?_drop, hBack]
    · unfold overwrite
      rw [List.length_append, List.length_drop]
      omega

/-- The state of the code and the state of the abstract machine. `extra` are clients that
are due and on the way from the wait list of a cache or from a frame that is being popped,
`hold` the channels of clients whose frames are being popped. -/
structure Sim (extra : List WaitingCacheClient) (hold : List Nat) (s : State) (t : Spec) :
    Prop where
  current : t.current = s.currentClient
  waiting : ∀ cache, t.waitingOn cache = s.waitLists cache
  due : t.due.Perm
    (extra ++ s.posted.flatten ++ s.frames.flatMap fun f => f.loop.pending s.waitListBuf)
  running : t.running.Perm (hold ++ s.frames.flatMap fun f => f.loop.holding s.waitListBuf)
  balanced : t.Balanced
  bounds : ∀ f ∈ s.frames, f.loop.InBounds s.waitListBuf
  top : ∀ w, s.currentClient = some w → ∃ f rest, s.frames = f :: rest ∧ f.id = w.id
  misses : s.currentClient = none → s.cacheMissCnt = 0

/-- The log of the state is accepted by the abstract machine, which is then in `t`. -/
abbrev Refines (extra : List WaitingCacheClient) (hold : List Nat) : State → Spec → Prop :=
  Tracks State.log Spec.step (Sim extra hold) {}

/-! ## The loops -/

variable {s : State}

/-- A due client is started: it is run again. -/
theorem refines_rerun {extra : List WaitingCacheClient} (h : Refines (w :: extra) [] s t)
    (hIdle : s.currentClient = none) {loop : Loop} (hPending : loop.pending s.waitListBuf = extra)
    (hHolding : loop.holding s.waitListBuf = w.channel.toList)
    (hBounds : loop.InBounds s.waitListBuf) :
    ∃ t', Refines [] [] (startClient { s with log := s.log ++ [.reran w] } w loop) t' := by
  obtain ⟨hCurrent, hWaiting, hDue, hRunning, hBalanced, hAll, -, -⟩ := h.related
  rw [hIdle] at hCurrent
  rw [List.cons_append, List.cons_append] at hDue
  obtain ⟨t', hStep, hBalanced', hCurrent', hWaiting', hDue', hRunning'⟩ :=
    Spec.rerun hBalanced hCurrent hDue
  have hRead : run Spec.step t [.reran w] = some t' := by
    rw [run_cons, hStep]
    rfl
  refine ⟨t', h.append rfl hRead ⟨hCurrent', ?_, ?_, ?_, hBalanced', ?_, ?_, ?_⟩⟩
  · intro cache
    refine Eq.trans ?_ (hWaiting cache)
    unfold Spec.waitingOn
    rw [hWaiting']
  · refine hDue'.trans ?_
    show (extra ++ s.posted.flatten ++ _).Perm ([] ++ s.posted.flatten ++
      (loop.pending s.waitListBuf ++ s.frames.flatMap fun f => f.loop.pending s.waitListBuf))
    rw [hPending, List.nil_append, ← List.append_assoc]
    exact List.perm_append_comm.append_right _
  · rw [hRunning']
    show (w.channel.toList ++ t.running).Perm
      (loop.holding s.waitListBuf ++ s.frames.flatMap fun f => f.loop.holding s.waitListBuf)
    rw [hHolding]
    exact hRunning.append_left _
  · intro f hf
    rcases List.mem_cons.mp hf with rfl | hf
    · exact hBounds
    · exact hAll f hf
  · intro w' hw'
    cases hw'
    exact ⟨_, _, rfl, rfl⟩
  · intro hNone
    cases hNone

/-- The loop of `cache_notify` goes on when what is left in the array is due. -/
theorem refines_notifyLoop {i cnt : Nat}
    (h : Refines ((s.waitListBuf.take cnt).drop i) [] s t) (hIdle : s.currentClient = none)
    (hcnt : cnt ≤ s.waitListBuf.length) :
    ∃ s' t', notifyLoop s i cnt = some s' ∧ Refines [] [] s' t' := by
  unfold notifyLoop
  by_cases hi : i < cnt
  · have hGet : s.waitListBuf[i]? = some (s.waitListBuf.get ⟨i, by omega⟩) :=
      List.getElem?_eq_getElem (by omega)
    have hLeft : (s.waitListBuf.take cnt).drop i =
        s.waitListBuf.get ⟨i, by omega⟩ :: (s.waitListBuf.take cnt).drop (i + 1) := by
      rw [List.drop_eq_getElem_cons (by rw [List.length_take]; omega), List.getElem_take]
      rfl
    rw [hLeft] at h
    have hHolding : (Loop.notify i cnt).holding s.waitListBuf =
        (s.waitListBuf.get ⟨i, by omega⟩).channel.toList := by
      show (s.waitListBuf[i]?.bind (·.channel)).toList = _
      rw [hGet]
      rfl
    have hBounds : (Loop.notify i cnt).InBounds s.waitListBuf := ⟨hi, hcnt⟩
    obtain ⟨t', h'⟩ := refines_rerun h hIdle rfl hHolding hBounds
    rw [if_pos hi, hGet]
    exact ⟨_, t', rfl, h'⟩
  · have hNone : (s.waitListBuf.take cnt).drop i = [] := by
      apply List.drop_eq_nil_of_le
      rw [List.length_take]
      omega
    rw [hNone] at h
    rw [if_neg hi]
    exact ⟨s, t, rfl, h⟩

/-- The loop of `cache_notify_event`, over its own buffer. -/
theorem refines_eventLoop {buf : List WaitingCacheClient} {i : Nat}
    (h : Refines (buf.drop i) [] s t) (hIdle : s.currentClient = none) :
    ∃ t', Refines [] [] (eventLoop s buf i) t' := by
  unfold eventLoop
  rcases Nat.lt_or_ge i buf.length with hi | hi
  · have hGet : buf[i]? = some (buf.get ⟨i, hi⟩) := List.getElem?_eq_getElem hi
    rw [List.drop_eq_getElem_cons hi] at h
    have hHolding : (Loop.event buf i).holding s.waitListBuf =
        (buf.get ⟨i, hi⟩).channel.toList := by
      show (buf[i]?.bind (·.channel)).toList = _
      rw [hGet]
      rfl
    rw [hGet]
    exact refines_rerun h hIdle rfl hHolding hi
  · rw [List.getElem?_eq_none hi]
    rw [List.drop_eq_nil_of_le hi] at h
    exact ⟨t, h⟩

/-- The client of a popped frame is unlocked. -/
theorem refines_unlock {extra : List WaitingCacheClient} (h : Refines extra w.channel.toList s t) :
    ∃ t', Refines extra [] (unlock s w) t' := by
  obtain ⟨hCurrent, hWaiting, hDue, hRunning, hBalanced, hBounds, hTop, hMisses⟩ := h.related
  obtain ⟨t', hRead, hBalanced', hCurrent', hWaiting', hDue', hRunning'⟩ :=
    Spec.unlock hBalanced hRunning
  refine ⟨t', h.append rfl hRead ⟨hCurrent'.trans hCurrent, ?_, ?_, hRunning', hBalanced', hBounds,
    hTop, hMisses⟩⟩
  · intro cache
    refine Eq.trans ?_ (hWaiting cache)
    unfold Spec.waitingOn
    rw [hWaiting']
  · rw [hDue']
    exact hDue

variable {rest : List Frame}

/-- The frame on top is popped when its client is not inside a transaction. -/
theorem refines_pop (h : Refines [] [] s t) (hIdle : s.currentClient = none)
    {f : Frame} (hFrames : s.frames = f :: rest) :
    Refines (f.loop.pending s.waitListBuf) (f.loop.holding s.waitListBuf)
      { s with frames := rest } t := by
  obtain ⟨hCurrent, hWaiting, hDue, hRunning, hBalanced, hBounds, -, hMisses⟩ := h.related
  rw [hFrames] at hDue hRunning hBounds
  refine h.silent rfl ⟨hCurrent, hWaiting, ?_, hRunning, hBalanced, ?_, ?_, hMisses⟩
  · refine hDue.trans ?_
    rw [List.nil_append, List.flatMap_cons, ← List.append_assoc]
    exact List.perm_append_comm.append_right _
  · exact fun g hg => hBounds g (List.mem_cons_of_mem _ hg)
  · intro w hw
    rw [show s.currentClient = some w from hw] at hIdle
    cases hIdle

theorem refines_afterClient (h : Refines [] [] s t)
    (hIdle : s.currentClient = none) {f : Frame}
    (hFrames : s.frames = f :: rest) :
    ∃ s' t', afterClient { s with frames := rest } f.loop = some s' ∧ Refines [] [] s' t' := by
  have hPop := refines_pop h hIdle hFrames
  have hBounds := h.related.bounds f (hFrames ▸ List.mem_cons_self ..)
  obtain ⟨id, loop⟩ := f
  cases loop with
  | enter => exact ⟨_, t, rfl, hPop⟩
  | notify i cnt =>
    obtain ⟨hi, hcnt⟩ : i < cnt ∧ cnt ≤ s.waitListBuf.length := hBounds
    have hGet : s.waitListBuf[i]? = some (s.waitListBuf.get ⟨i, by omega⟩) :=
      List.getElem?_eq_getElem (by omega)
    have hHolding : (Loop.notify i cnt).holding s.waitListBuf =
        (s.waitListBuf.get ⟨i, by omega⟩).channel.toList := by
      show (s.waitListBuf[i]?.bind (·.channel)).toList = _
      rw [hGet]
      rfl
    rw [hHolding] at hPop
    obtain ⟨t', h'⟩ := refines_unlock hPop
    obtain ⟨s'', t'', hLoop, h''⟩ := refines_notifyLoop
      (s := unlock { s with frames := rest } (s.waitListBuf.get ⟨i, by omega⟩)) (i := i + 1)
      h' hIdle hcnt
    refine ⟨s'', t'', ?_, h''⟩
    show (s.waitListBuf[i]?.bind _) = _
    rw [hGet]
    exact hLoop
  | event buf i =>
    have hi : i < buf.length := hBounds
    have hGet : buf[i]? = some (buf.get ⟨i, hi⟩) := List.getElem?_eq_getElem hi
    have hHolding : (Loop.event buf i).holding s.waitListBuf =
        (buf.get ⟨i, hi⟩).channel.toList := by
      show (buf[i]?.bind (·.channel)).toList = _
      rw [hGet]
      rfl
    rw [hHolding] at hPop
    obtain ⟨t', h'⟩ := refines_unlock hPop
    obtain ⟨t'', h''⟩ := refines_eventLoop h' hIdle
    refine ⟨_, t'', ?_, h''⟩
    show (buf[i]?.map _) = _
    rw [hGet]
    rfl

/-! ## The client on top of the stack -/

/-- A transaction ends, by `cache_exit` or by an exception. -/
theorem refines_clear (h : Refines [] [] s t)
    (hCurrent : s.currentClient = some w) {entry : LogEntry}
    (hEntry : entry = .exited ∨ entry = .failed) :
    ∃ t', Refines [] [] (clearCurrent { s with log := s.log ++ [entry] }) t' := by
  obtain ⟨hSame, hWaiting, hDue, hRunning, hBalanced, hBounds, -, -⟩ := h.related
  have hSome : t.current ≠ none := by
    rw [hSame, hCurrent]
    exact Option.some_ne_none w
  have hRead : run Spec.step t [entry] = some { t with current := none } := by
    rcases hEntry with rfl | rfl
    · simp [Spec.step, hSome]
    · simp [Spec.step, hSome]
  refine ⟨_, h.append rfl hRead ⟨rfl, hWaiting, hDue, hRunning, hBalanced, hBounds, ?_,
    fun _ => rfl⟩⟩
  intro w' hw'
  cases hw'

/-- A client that has missed is parked with its own arguments. -/
theorem refines_park (h : Refines [] [] s t)
    (hCurrent : s.currentClient = some w) (cache : Nat) :
    ∃ t', Refines [] [] (park s w cache) t' := by
  obtain ⟨hSame, hWaiting, hDue, hRunning, hBalanced, hBounds, -, -⟩ := h.related
  obtain ⟨t', hRead, hBalanced', hCurrent', hWaiting', hDue', hRunning'⟩ :=
    Spec.park hBalanced (hSame.trans hCurrent) cache
  refine ⟨t', h.append (List.append_assoc _ _ _) hRead ⟨hCurrent', ?_, ?_, ?_, hBalanced', hBounds,
    ?_, fun _ => rfl⟩⟩
  · intro c
    unfold Spec.waitingOn
    rw [hWaiting', List.filter_append, List.map_append]
    show t.waitingOn c ++ _ = Function.update s.waitLists cache _ c
    rw [hWaiting c]
    by_cases hc : c = cache
    · subst hc
      simp
    · have hc' : cache ≠ c := fun hEq => hc hEq.symm
      simp [hc, hc']
  · rw [hDue']
    exact hDue
  · rw [hRunning']
    exact hRunning
  · intro w' hw'
    cases hw'

/-- However the client on top ends, it is not inside a transaction afterwards. -/
theorem refines_finishClient (h : Refines [] [] s t) {f : Frame}
    (hFrames : s.frames = f :: rest) {error : Option Error}
    (hReturn : error = none → s.currentClient = none) :
    ∃ s' t', finishClient s f error = some s' ∧ Refines [] [] s' t' ∧
      s'.currentClient = none ∧ s'.frames = f :: rest := by
  have hMisses := h.related.misses
  cases error with
  | none =>
    have hIdle := hReturn rfl
    exact ⟨s, t, if_pos ⟨hIdle, hMisses hIdle⟩, h, hIdle, hFrames⟩
  | some error =>
    unfold finishClient
    cases hCurrent : s.currentClient with
    | none => exact ⟨s, t, if_pos (hMisses hCurrent), h, hCurrent, hFrames⟩
    | some w =>
      obtain ⟨g, rest', hTop, hId⟩ := h.related.top w hCurrent
      have hSame : f.id = w.id := by
        rw [hFrames] at hTop
        cases hTop
        exact hId
      obtain ⟨t₁, hFailed⟩ := refines_clear h hCurrent (Or.inr rfl)
      dsimp only
      rw [if_neg (not_not_intro hSame)]
      cases s.currentCache with
      | none => exact ⟨_, t₁, rfl, hFailed, rfl, hFrames⟩
      | some cache =>
        dsimp only
        by_cases hOther : error ≠ .cacheMiss ∨ s.cacheMissCnt = 0
        · rw [if_pos hOther]
          exact ⟨_, t₁, rfl, hFailed, rfl, hFrames⟩
        · obtain ⟨t₂, hPark⟩ := refines_park h hCurrent cache
          rw [if_neg hOther]
          exact ⟨_, t₂, rfl, hPark, rfl, hFrames⟩

theorem refines_leave (h : Refines [] [] s t) {error : Option Error}
    (hAllowed : Allowed s (.leave error)) :
    ∃ s' t', leave s error = some s' ∧ Refines [] [] s' t' := by
  obtain ⟨hSome, hReturn⟩ := hAllowed
  obtain ⟨f, rest, hFrames⟩ := List.exists_cons_of_ne_nil hSome
  obtain ⟨s₁, t₁, hFinish, h₁, hIdle, hFrames₁⟩ := refines_finishClient h hFrames hReturn
  obtain ⟨s₂, t₂, hAfter, h₂⟩ := refines_afterClient h₁ hIdle hFrames₁
  refine ⟨s₂, t₂, ?_, h₂⟩
  unfold leave
  rw [hFrames]
  dsimp only
  rw [hFinish]
  exact hAfter

theorem refines_enter (h : Refines [] [] s t)
    (hIdle : s.currentClient = none) (client : Nat) (channel : Option Nat)
    (args : Option (List UInt8)) :
    ∃ s' t', cacheEnter s client channel args = some s' ∧ Refines [] [] s' t' := by
  obtain ⟨hSame, hWaiting, hDue, hRunning, hBalanced, hBounds, -, -⟩ := h.related
  unfold cacheEnter
  rw [if_pos hIdle]
  generalize (⟨nextId s.idCnt, client, channel, args, false, nextId_ne s.idCnt⟩ :
    WaitingCacheClient) = w
  have hRead : run Spec.step t [.entered w] = some { t with current := some w } := by
    simp [Spec.step, hSame, hIdle]
  refine ⟨_, _, rfl, h.append rfl hRead ⟨rfl, hWaiting, hDue, hRunning, hBalanced, ?_, ?_, ?_⟩⟩
  · intro f hf
    rcases List.mem_cons.mp hf with rfl | hf
    · trivial
    · exact hBounds f hf
  · intro w' hw'
    cases hw'
    exact ⟨_, _, rfl, rfl⟩
  · intro hNone
    cases hNone

/-! ## Notifications -/

/-- The wait list of a cache is emptied, what was in it is due. -/
theorem waiting_notified {t t' : Spec} {cache : Nat}
    (hWaiting : ∀ c, t.waitingOn c = s.waitLists c)
    (h : ∀ c, t'.waitingOn c = if c = cache then [] else t.waitingOn c) (c : Nat) :
    t'.waitingOn c = Function.update s.waitLists cache [] c := by
  rw [h c]
  by_cases hc : c = cache
  · subst hc
    simp
  · simp [hc, hWaiting c]

theorem refines_notify (h : Refines [] [] s t)
    (hIdle : s.currentClient = none) {cache : Nat} (hIntact : Intact s (.notify cache)) :
    ∃ s' t', cacheNotify s cache = some s' ∧ Refines [] [] s' t' := by
  obtain ⟨hSame, hWaiting, hDue, hRunning, hBalanced, hBounds, hTop, hMisses⟩ := h.related
  unfold cacheNotify
  by_cases hNone : (s.waitLists cache).length = 0
  · rw [if_pos hNone]
    exact ⟨s, t, rfl, h⟩
  rw [if_neg hNone]
  obtain ⟨t', hStep, hBalanced', hCurrent', hWaiting', hDue', hRunning'⟩ :=
    Spec.notify hBalanced cache
  generalize hList : s.waitLists cache = list at *
  -- the frames below find the same in the array
  have hPending : (s.frames.flatMap fun f => f.loop.pending (overwrite s.waitListBuf list)) =
      s.frames.flatMap fun f => f.loop.pending s.waitListBuf := by
    apply List.flatMap_congr
    intro f hf
    exact ((hList ▸ hIntact f hf).same (hBounds f hf)).1
  have hHolding : (s.frames.flatMap fun f => f.loop.holding (overwrite s.waitListBuf list)) =
      s.frames.flatMap fun f => f.loop.holding s.waitListBuf := by
    apply List.flatMap_congr
    intro f hf
    exact ((hList ▸ hIntact f hf).same (hBounds f hf)).2.1
  have hCopy : ((overwrite s.waitListBuf list).take list.length).drop 0 = list := by
    unfold overwrite
    rw [List.take_left, List.drop_zero]
  refine refines_notifyLoop (t := t') ?_ hIdle ?_
  · show Refines (((overwrite s.waitListBuf list).take list.length).drop 0) [] _ t'
    rw [hCopy]
    refine h.append rfl hStep ⟨hCurrent'.trans hSame, waiting_notified hWaiting hWaiting', ?_, ?_,
      hBalanced', ?_, hTop, hMisses⟩
    · show t'.due.Perm (list ++ s.posted.flatten ++
        s.frames.flatMap fun f => f.loop.pending (overwrite s.waitListBuf list))
      rw [hPending, hDue', hWaiting cache, hList, List.append_assoc]
      exact (hDue.append_right _).trans List.perm_append_comm
    · show t'.running.Perm ([] ++
        s.frames.flatMap fun f => f.loop.holding (overwrite s.waitListBuf list))
      rw [hHolding, hRunning']
      exact hRunning
    · exact fun f hf => ((hList ▸ hIntact f hf).same (hBounds f hf)).2.2
  · show list.length ≤ (overwrite s.waitListBuf list).length
    unfold overwrite
    rw [List.length_append]
    exact Nat.le_add_right _ _

theorem refines_notifyLater (h : Refines [] [] s t) (cache : Nat) :
    ∃ t', Refines [] [] (cacheNotifyLater s cache) t' := by
  obtain ⟨hSame, hWaiting, hDue, hRunning, hBalanced, hBounds, hTop, hMisses⟩ := h.related
  unfold cacheNotifyLater
  by_cases hNone : (s.waitLists cache).length = 0
  · rw [if_pos hNone]
    exact ⟨t, h⟩
  rw [if_neg hNone]
  obtain ⟨t', hStep, hBalanced', hCurrent', hWaiting', hDue', hRunning'⟩ :=
    Spec.notify hBalanced cache
  refine ⟨t', h.append rfl hStep ⟨hCurrent'.trans hSame, waiting_notified hWaiting hWaiting', ?_,
    hRunning' ▸ hRunning, hBalanced', hBounds, hTop, hMisses⟩⟩
  show t'.due.Perm ([] ++ (s.posted ++ [s.waitLists cache]).flatten ++
    s.frames.flatMap fun f => f.loop.pending s.waitListBuf)
  rw [hDue', hWaiting cache, List.flatten_append, List.flatten_singleton]
  refine (hDue.append_right _).trans ?_
  rw [List.nil_append, List.nil_append, List.append_assoc, List.append_assoc]
  exact List.perm_append_comm.append_left _

theorem refines_runEvent (h : Refines [] [] s t)
    (hAllowed : Allowed s .runEvent) :
    ∃ s' t', runEvent s = some s' ∧ Refines [] [] s' t' := by
  obtain ⟨hFrames, hPosted⟩ := hAllowed
  obtain ⟨buf, rest, hCons⟩ := List.exists_cons_of_ne_nil hPosted
  obtain ⟨hSame, hWaiting, hDue, hRunning, hBalanced, hBounds, hTop, hMisses⟩ := h.related
  have hIdle : s.currentClient = none := by
    by_contra hSome
    obtain ⟨w, hw⟩ := Option.ne_none_iff_exists'.mp hSome
    obtain ⟨f, rest', hTop', -⟩ := hTop w hw
    rw [hFrames] at hTop'
    cases hTop'
  unfold runEvent
  rw [hCons]
  have h' : Refines (buf.drop 0) [] { s with posted := rest } t := by
    refine h.silent rfl ⟨hSame, hWaiting, ?_, hRunning, hBalanced, hBounds, hTop, hMisses⟩
    rw [hCons] at hDue
    exact hDue
  obtain ⟨t', hLoop⟩ := refines_eventLoop h' hIdle
  exact ⟨_, t', rfl, hLoop⟩

/-! ## Every run -/

/-- Every call that keeps to the rules succeeds, and when it leaves the array intact what
it does is what the abstract machine allows. -/
theorem step_tracks {e : Event} (h : Refines [] [] s t)
    (hAllowed : Allowed s e) (hIntact : Intact s e) :
    ∃ s' t', step s e = some s' ∧ Refines [] [] s' t' := by
  cases e with
  | enter client channel args => exact refines_enter h hAllowed client channel args
  | exit =>
    obtain ⟨w, hCurrent⟩ := Option.ne_none_iff_exists'.mp hAllowed
    show ∃ s' t', cacheExit s = some s' ∧ _
    unfold cacheExit
    rw [if_neg hAllowed]
    by_cases hMiss : 0 < s.cacheMissCnt
    · rw [if_pos hMiss]
      exact ⟨s, t, rfl, h⟩
    · rw [if_neg hMiss]
      obtain ⟨t', h'⟩ := refines_clear h hCurrent (Or.inl rfl)
      exact ⟨_, t', rfl, h'⟩
  | wait cache =>
    obtain ⟨hSame, hWaiting, hDue, hRunning, hBalanced, hBounds, hTop, -⟩ := h.related
    refine ⟨_, t, if_neg hAllowed, h.silent rfl ⟨hSame, hWaiting, hDue, hRunning, hBalanced,
      hBounds, hTop, ?_⟩⟩
    intro hNone
    exact absurd hNone hAllowed
  | leave error => exact refines_leave h hAllowed
  | notify cache => exact refines_notify h hAllowed hIntact
  | notifyLater cache =>
    obtain ⟨t', h'⟩ := refines_notifyLater h cache
    exact ⟨_, t', rfl, h'⟩
  | runEvent => exact refines_runEvent h hAllowed

theorem refines_init : Refines [] [] {} {} := by
  refine ⟨rfl, rfl, fun _ => rfl, List.Perm.nil, List.Perm.nil, List.Perm.nil, ?_, ?_, fun _ => rfl⟩
  · intro f hf
    cases hf
  · intro w hw
    cases hw

end TcfAgent.Cache
