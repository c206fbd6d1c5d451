import TcfAgent.Services.MemoryFill
import TcfAgent.Framework.JsonBinaryRest

/-!
# What the clients of the memory service leave behind

A command that has come to an end has released the lock and freed the buffer, has sent one reply or
closed the channel, and has announced what was written. A client does this unless an exception is
raised after `cache_exit`, the channel is closed behind the first write of `set`, or the loop of
`fill` never ends.

Main results:

* `Running.clean` — what a client leaves when it comes to its end;
* `setClient_good`, `setClient_bad` — the clients of `set` that come there, and the others;
* `getClient_good` — those of `get` all do;
* `fillClient_good`, `fillClient_bad` — the clients of `fill`.
-/

namespace TcfAgent.MemoryService

open TcfAgent.Lib TcfAgent.Lib.Program TcfAgent.JsonText TcfAgent.JsonBuffers

/-! ## What is left behind -/

/-- The address is one of `size` from `addr0` on. -/
def Within (addr0 : Address) (size : Nat) (addr : Address) : Prop :=
  ∃ j < size, addr = addr0 + BitVec.ofNat 64 j

/-- What is in the log of a command that has come to an end. -/
structure Clean (log : List Effect) : Prop where
  lock : log.count .lock = log.count .unlock ∧ log.count .lock ≤ 1
  buffer : log.count .alloc = log.count .free ∧ log.count .alloc ≤ 1
  answer : log.count .protocolError = 1 ∧ replies log = [] ∨ log.count .protocolError = 0 ∧
    (.closed ∈ log ∧ replies log = [] ∨
      .closed ∉ log ∧ ∃ r, replies log = [r] ∧ r.map Prod.fst = (failures log).head?)
  announced : ∀ p ∈ written log, ∃ ctxId addr size,
    .memoryChanged ctxId addr size ∈ log ∧ Within addr size p.1

/-- The program comes to an end in the right way, or waits for a cache. -/
def Concludes (p : Action Unit) (s : State) : Prop :=
  ∃ n r t, p.run n s = some (r, t) ∧ (r = .error .miss ∨ r = .ok ⟨⟩ ∧ Clean t.log)

/-- Every path of the command comes to the right end. -/
def CleansUp (cmd : Cmd) (text : Text) (as : List Attempt) : Prop :=
    Concludes (command cmd text as) ⟨0, []⟩

/-! ## When it is -/

/-- What the checks of `set` and `fill` come to. -/
def checkWrite (args : MemoryCommandArgs) (needed : Bool) (a : Attempt) :
    Option (Option MemError) :=
  contextCheck args.dontStop needed (·.wrStop) (·.wrRunning) (a.id2ctx args.ctxId)

/-- What the checks of `get` come to. -/
def checkRead (args : MemoryCommandArgs) (needed : Bool) (a : Attempt) : Option (Option MemError) :=
  contextCheck args.dontStop needed (·.rdStop) (·.rdRunning) (a.id2ctx args.ctxId)

/-- A cache misses in the checks, or in the one transfer before `cache_exit`. -/
def MissesFirst (check : Option (Option MemError)) (needed : Prop) (a : Attempt) : Prop :=
  check = none ∨ check = some none ∧ needed ∧ a.inCache 0 = none

/-- `fill` comes to this write, if those before it are done: the size is not yet reached, or is one
of a negative `int`. -/
def Asked (args : MemoryCommandArgs) (turn : Nat) : Prop :=
  turn * args.buf.length < args.size.toNat ∨ 2 ^ 31 ≤ args.size.toNat

/-- A cache misses in a write of `fill`. -/
def MissesWrite (args : MemoryCommandArgs) (a : Attempt) : Prop :=
  ∃ turn, Asked args turn ∧ a.inCache turn = none ∧ ∀ j < turn, a.inCache j = some .done

def MissesFill (args : MemoryCommandArgs) (a : Attempt) : Prop :=
  checkWrite args (args.size ≠ 0) a = none ∨
    checkWrite args (args.size ≠ 0) a = some none ∧ MissesWrite args a

/-- The first attempt in which no cache misses, if there is one, is good. -/
def Last (misses good : Attempt → Prop) : List Attempt → Prop
  | [] => True
  | a :: as => (misses a → Last misses good as) ∧ (¬ misses a → good a)

/-- Some of the first chunk of the data is written. -/
def WritesFirst (args : MemoryCommandArgs) (a : Attempt) : Prop :=
  args.buf ≠ [] ∧ checkWrite args (args.buf ≠ []) a = some none ∧
    (a.inCache 0 = some .done ∨ ∃ errno valid, a.inCache 0 = some (.failed errno valid) ∧ 0 < valid)

/-- The data that are left are well formed, and so is the end of the message. -/
def WellFormed (max : Nat) (s : ReadState) : Prop :=
  ∃ pieces text, readRest max s = .ok (pieces, text) ∧ jsonTestChar text 0 = some []

/-- With the channel closed, nothing has been written; else the data are well formed. -/
def GoodSet (args : MemoryCommandArgs) (s : ReadState) (a : Attempt) : Prop :=
  (a.closed = true → ¬ WritesFirst args a) ∧
    (a.closed = false → WellFormed args.max s)

/-- Where the context can be written, the size is not negative, or not all writes are done. -/
def GoodFill (args : MemoryCommandArgs) (a : Attempt) : Prop :=
  checkWrite args (args.size ≠ 0) a = some none →
    args.size.toNat < 2 ^ 31 ∨ ∃ turn, a.inCache turn ≠ some .done

/-- The buffer of `fill`, doubled as long as it fits and is not enough. -/
def growBuf (size max : Nat) (buf : List UInt8) : List UInt8 :=
  if buf ≠ [] ∧ buf.length < size ∧ buf.length ≤ max / 2 then growBuf size max (buf ++ buf) else buf
termination_by max - buf.length
decreasing_by
  rename_i hMore
  have hLength := List.length_pos_of_ne_nil hMore.1
  rw [List.length_append]
  omega

/-- The array of a command `fill`, and the end of the message. -/
def readFill (text : Text) : Option (List (BitVec 64)) := do
  let (values, text) ← jsonReadArray readUlong text
  let text ← jsonTestChar text 0
  if text = [] then some values else none

/-- The condition for the part behind the arguments. -/
def GoodCommand (cmd : Cmd) (args : MemoryCommandArgs) (rest : Text) (as : List Attempt) : Prop :=
  match cmd with
  | .get => rest = []
  | .set => ∀ s, jsonReadBinaryStart rest = .ok s →
      ∃ buf s', jsonReadBinaryData bufSize s = .ok (buf, s') ∧
        Last (fun a => MissesFirst (checkWrite args (buf ≠ []) a) (buf ≠ []) a)
          (GoodSet { args with buf := buf, max := bufSize } s') as
  | .fill =>
    match readFill rest with
    | none => callsBack rest = false
    | some values =>
      let args := values.foldl readMemoryFillArrayCb args
      let args := { args with buf := growBuf args.size.toNat args.max args.buf }
      (values ≠ [] ∨ args.size = 0) ∧ Last (MissesFill args) (GoodFill args) as

/-- Whatever can be read before the data, the command is good. -/
def Good (cmd : Cmd) (text : Text) (as : List Attempt) : Prop :=
  ∀ args rest, readHeader text = some (args, rest) → GoodCommand cmd args rest as

/-! ## Ranges -/

section

variable {addr0 addr : Address} {size size' d : Nat}

theorem Within.mono (h : Within addr0 size addr) (hLe : size ≤ size') :
    Within addr0 size' addr := by
  obtain ⟨j, hj, hAddr⟩ := h
  exact ⟨j, Nat.lt_of_lt_of_le hj hLe, hAddr⟩

theorem Within.shift (h : Within (addr0 + BitVec.ofNat 64 d) size addr) :
    Within addr0 (d + size) addr := by
  obtain ⟨j, hj, rfl⟩ := h
  refine ⟨d + j, Nat.add_lt_add_left hj d, ?_⟩
  rw [BitVec.ofNat_add, BitVec.add_assoc]

theorem bytesAt_ne_nil {bytes : List UInt8} (h : bytes ≠ []) : bytesAt addr0 bytes ≠ [] := by
  obtain ⟨b, bytes, rfl⟩ := List.exists_cons_of_ne_nil h
  exact List.cons_ne_nil _ _

theorem within_bytesAt {bytes : List UInt8} {p : Address × UInt8} (h : p ∈ bytesAt addr0 bytes) :
    Within addr0 bytes.length p.1 := by
  induction bytes generalizing addr0 with
  | nil => exact absurd h List.not_mem_nil
  | cons b bytes ih =>
    rcases List.mem_cons.1 h with rfl | hTail
    · exact ⟨0, Nat.succ_pos _, (BitVec.add_zero _).symm⟩
    · have hNext : Within (addr0 + BitVec.ofNat 64 1) bytes.length p.1 := ih hTail
      rw [List.length_cons, Nat.add_comm]
      exact hNext.shift

end

/-! ## The log of a client -/

/-- The log of a client before its end: the lock is held, and the buffer, if there is one; what has
been written is near, and at most one thing has failed. -/
structure Running (allocated : Bool) (near : Address → Prop) (err : Error)
    (log : List Effect) : Prop where
  lock : log.count .lock = 1 ∧ log.count .unlock = 0
  buffer : log.count .alloc = allocated.toNat ∧ log.count .free = 0
  silent : log.count .protocolError = 0 ∧ .closed ∉ log ∧ replies log = []
  unannounced : ∀ ctxId addr size, .memoryChanged ctxId addr size ∉ log
  failure : failures log = (err.map Prod.fst).toList
  places : ∀ p ∈ written log, near p.1

section

variable {allocated : Bool} {near near' : Address → Prop} {err : Error} {log : List Effect}
  {addr : Address} {bytes : List UInt8} {e : MemError} {valid : Nat}

theorem Running.mono (h : Running allocated near err log) (hNear : ∀ addr, near addr → near' addr) :
    Running allocated near' err log :=
  ⟨h.lock, h.buffer, h.silent, h.unannounced, h.failure, fun p hp => hNear _ (h.places p hp)⟩

theorem count_wroteLog (e : Effect) (hOther : ∀ addr bytes, e ≠ .wrote addr bytes) :
    (wroteLog addr bytes).count e = 0 := by
  rw [List.count_eq_zero, wroteLog]
  split
  · exact List.not_mem_nil
  · rw [List.mem_singleton]
    exact hOther _ _

/-- A write that is near. -/
theorem Running.wrote (h : Running allocated near none log) (hNear : ∀ addr, near addr → near' addr)
    (hBytes : ∀ p ∈ bytesAt addr bytes, near' p.1) :
    Running allocated near' none (log ++ wroteLog addr bytes) := by
  have hOther : ∀ e, (∀ addr bytes, e ≠ .wrote addr bytes) →
      (log ++ wroteLog addr bytes).count e = log.count e := by
    intro e he
    rw [List.count_append, count_wroteLog e he, Nat.add_zero]
  have hMem : ∀ e, (∀ addr bytes, e ≠ .wrote addr bytes) → e ∉ log →
    e ∉ log ++ wroteLog addr bytes := by
    intro e he hLog
    rw [← List.count_eq_zero] at hLog ⊢
    rw [hOther e he, hLog]
  refine ⟨?_, ?_, ⟨?_, hMem _ (by simp) h.silent.2.1, ?_⟩, fun ctxId a size =>
    hMem _ (by simp) (h.unannounced ctxId a size),
    ?_, ?_⟩
  · rw [hOther _ (by simp), hOther _ (by simp)]
    exact h.lock
  · rw [hOther _ (by simp), hOther _ (by simp)]
    exact h.buffer
  · rw [hOther _ (by simp)]
    exact h.silent.1
  · rw [replies_append, replies_wroteLog, h.silent.2.2]
    rfl
  · rw [failures_append, failures_wroteLog, h.failure]
    rfl
  · intro p hp
    rw [written_append, written_wroteLog, List.mem_append] at hp
    rcases hp with hp | hp
    · exact hNear _ (h.places p hp)
    · exact hBytes p hp

/-- The first failure. -/
theorem Running.failed (h : Running allocated near none log) (e : MemError) (valid : Nat) :
    Running allocated near (some (e, valid)) (log ++ [.failed e]) := by
  refine ⟨?_, ?_, ⟨?_, ?_, ?_⟩, fun ctxId a size => ?_, ?_, ?_⟩
  · simpa using h.lock
  · simpa using h.buffer
  · simpa using h.silent.1
  · simpa using h.silent.2.1
  · rw [replies_append, h.silent.2.2]
    rfl
  · simpa using h.unannounced ctxId a size
  · rw [failures_append, h.failure]
    rfl
  · intro p hp
    rw [written_append, show written [Effect.failed e] = [] from rfl, List.append_nil] at hp
    exact h.places p hp

theorem mem_bytesAt_take {p : Address × UInt8} (h : p ∈ bytesAt addr (bytes.take valid)) :
    p ∈ bytesAt addr bytes := by
  rw [← List.take_append_drop valid bytes, bytesAt_append]
  exact List.mem_append_left _ h

/-- A write that fails after some bytes. -/
theorem Running.wroteSome (h : Running allocated near none log)
    (hNear : ∀ addr, near addr → near' addr)
    (hBytes : ∀ p ∈ bytesAt addr bytes, near' p.1) (valid : Nat) (e : MemError) (k : Nat) :
    Running allocated near' (some (e, k))
      (log ++ wroteLog addr (bytes.take valid) ++ [.failed e]) :=
  (h.wrote hNear fun p hp => hBytes p (mem_bytesAt_take hp)).failed e k

/-- The lock is held. -/
theorem Running.not_clean (h : Running allocated near err log) : ¬ Clean log := by
  intro hClean
  have hLock := hClean.lock.1
  rw [h.lock.1, h.lock.2] at hLock
  cases hLock

/-- What is released at the end of a client. -/
def released (allocated : Bool) : List Effect := (if allocated then [.free] else []) ++ [.unlock]

/-- What a client leaves when it has announced what is near, has sent the reply or found the channel
closed, and has released what it held. -/
theorem Running.clean {announced : List Effect} {answer : Effect}
    (h : Running allocated near err log)
    (hEvents : ∀ e ∈ announced, ∃ ctxId addr size, e = .memoryChanged ctxId addr size)
    (hNear : ∀ addr, near addr → ∃ ctxId addr0 size,
      .memoryChanged ctxId addr0 size ∈ announced ∧ Within addr0 size addr)
    (hAnswer : answer = .closed ∨ ∃ r, answer = .reply r ∧ r.map Prod.fst = err.map Prod.fst) :
    Clean (log ++ (announced ++ answer :: released allocated)) := by
  unfold released
  have hOther : ∀ e, (∀ ctxId addr size, e ≠ .memoryChanged ctxId addr size) →
      announced.count e = 0 := by
    intro e he
    rw [List.count_eq_zero]
    intro hMem
    obtain ⟨ctxId, addr, size, hEvent⟩ := hEvents e hMem
    exact he ctxId addr size hEvent
  have hQuiet : written announced = [] ∧ failures announced = [] ∧ replies announced = [] := by
    simp only [written, failures, replies, List.flatMap_eq_nil_iff]
    refine ⟨?_, ?_, ?_⟩
    all_goals
      intro e he
      obtain ⟨ctxId, addr, size, rfl⟩ := hEvents e he
      rfl
  have hFirst : (failures log).head? = err.map Prod.fst := by
    rw [h.failure]
    rcases err with - | err
    · rfl
    · rfl
  have hClosed : .closed ∉ announced := List.count_eq_zero.1 (hOther _ (by simp))
  obtain ⟨hLock, hUnlock⟩ := h.lock
  obtain ⟨hAlloc, hFree⟩ := h.buffer
  obtain ⟨hProtocol, hOpen, hReplies⟩ := h.silent
  have hWritten :
    written (log ++ (announced ++ answer :: ((if allocated then [.free] else []) ++ [.unlock]))) =
      written log := by
    rcases hAnswer with rfl | ⟨r, rfl, -⟩ <;> rcases allocated with - | - <;>
      simp [written_append, hQuiet.1] <;> rfl
  refine ⟨?_, ?_, ?_, ?_⟩
  · rcases hAnswer with rfl | ⟨r, rfl, -⟩ <;> rcases allocated with - | - <;>
      simp [hLock, hUnlock, hOther]
  · rcases hAnswer with rfl | ⟨r, rfl, -⟩ <;> rcases allocated with - | - <;>
      simp [hAlloc, hFree, hOther]
  · right
    rcases hAnswer with rfl | ⟨r, rfl, hr⟩ <;> rcases allocated with - | -
    all_goals
      refine ⟨by simp [hProtocol, hOther], ?_⟩
    -- the channel is closed
    · exact .inl ⟨by simp, by simp [replies_append, hReplies, hQuiet.2.2]; rfl⟩
    · exact .inl ⟨by simp, by simp [replies_append, hReplies, hQuiet.2.2]; rfl⟩
    -- the reply has been sent
    · refine .inr ⟨by simp [hOpen, hClosed], r,
        by simp [replies_append, hReplies, hQuiet.2.2]; rfl, ?_⟩
      rw [hr, ← hFirst, failures_append, failures_append, hQuiet.2.1]
      exact congrArg List.head? (List.append_nil _).symm
    · refine .inr ⟨by simp [hOpen, hClosed], r,
        by simp [replies_append, hReplies, hQuiet.2.2]; rfl, ?_⟩
      rw [hr, ← hFirst, failures_append, failures_append, hQuiet.2.1]
      exact congrArg List.head? (List.append_nil _).symm
  · intro p hp
    rw [hWritten] at hp
    obtain ⟨ctxId, addr0, size, hEvent, hWithin⟩ := hNear _ (h.places p hp)
    exact ⟨ctxId, addr0, size, by simp [hEvent], hWithin⟩

end

/-- The program comes to its end, and leaves nothing behind. -/
def Cleans (p : Action Unit) (s : State) : Prop := ∃ n t, p.run n s = some (.ok ⟨⟩, t) ∧ Clean t.log

/-- The program never ends, or leaves something behind. -/
def Litters (p : Action Unit) (s : State) : Prop :=
  Never p s ∨ ∃ n r t, p.run n s = some (r, t) ∧ r ≠ .error .miss ∧ ¬ Clean t.log

/-! ## Before `cache_exit` -/

section

variable {allocated : Bool} {near : Address → Prop} {log : List Effect} {dontStop needed : Bool}
  {stop running : Context → Bool} {ctx : Option Context} {n turn : Nat} {s : State}
  {args : MemoryCommandArgs} {a : Attempt} {r : ReadState}

theorem checkContext_miss (h : contextCheck dontStop needed stop running ctx = none) :
    (checkContext dontStop needed stop running ctx).run n s = some (.error .miss, s) := by
  rw [checkContext, h]
  rfl

theorem checkContext_passes (h : contextCheck dontStop needed stop running ctx = some none) :
    (checkContext dontStop needed stop running ctx).run n s = some (.ok none, s) := by
  rw [checkContext, h]
  rfl

theorem checkContext_ends {e : Option MemError}
    (h : contextCheck dontStop needed stop running ctx = some e)
    (hRunning : Running allocated near none log) :
    ∃ log', (∀ n, (checkContext dontStop needed stop running ctx).run n ⟨turn, log⟩ =
        some (.ok (e.map fun e => (e, 0)), ⟨turn, log'⟩)) ∧
      Running allocated near (e.map fun e => (e, 0)) log' ∧ written log' = written log := by
  rw [checkContext, h]
  rcases e with - | e
  · exact ⟨log, fun n => rfl, hRunning, rfl⟩
  · refine ⟨_, fun n => rfl, hRunning.failed e 0, ?_⟩
    rw [written_append]
    exact List.append_nil _

theorem replyOf_first (err : Error) (addr0 addr : Address) :
    (replyOf err addr0 addr).map Prod.fst = err.map Prod.fst := by
  rcases err with - | err
  · rfl
  · rfl

/-- `memory_set_cache_client` before `cache_exit` -/
def firstWrite (args : MemoryCommandArgs) (a : Attempt) : Action Error := do
  let err ← checkContext args.dontStop (args.buf ≠ []) (·.wrStop) (·.wrRunning)
    (a.id2ctx args.ctxId)
  if args.buf ≠ [] ∧ err = none then writeMem a.inCache args.addr args.buf else pure err

/-- `memory_set_cache_client` after `cache_exit`, when the channel is not closed -/
def setAnswer (args : MemoryCommandArgs) (r : ReadState) (a : Attempt) (err : Error) :
    Action Unit := do
  let addr := if err = none then args.addr + BitVec.ofNat 64 args.buf.length else args.addr
  let v ← loop (setRound a args.max) ⟨r, addr, err, args.buf.length⟩
  let text ← ofResult (jsonReadBinaryEnd v.reader)
  let text ← ofOption (jsonTestChar text 0)
  testEom text
  sendEventMemoryChanged (a.id2ctx args.ctxId) args.addr v.size
  sendReply v.err args.addr v.addr

/-- Nothing is logged before a miss. -/
theorem firstWrite_misses (h : MissesFirst (checkWrite args (args.buf ≠ []) a) (args.buf ≠ []) a) :
    ∃ turn, (firstWrite args a).run n ⟨0, log⟩ = some (.error .miss, ⟨turn, log⟩) := by
  rcases h with hCheck | ⟨hCheck, hSome, hMiss⟩
  · exact ⟨0, run_bind_error (checkContext_miss hCheck)⟩
  · refine ⟨1, ?_⟩
    have hRun : (checkContext args.dontStop (args.buf ≠ []) (·.wrStop) (·.wrRunning)
        (a.id2ctx args.ctxId)).run n ⟨0, log⟩ = some (.ok none, ⟨0, log⟩) :=
      checkContext_passes hCheck
    rw [firstWrite, run_bind_ok hRun, if_pos ⟨hSome, rfl⟩]
    exact writeMem_miss hMiss

theorem firstWrite_ends (h : ¬ MissesFirst (checkWrite args (args.buf ≠ []) a) (args.buf ≠ []) a)
    (hRunning : Running allocated (fun _ => False) none log) :
    ∃ err turn log', (∀ n, (firstWrite args a).run n ⟨0, log⟩ = some (.ok err, ⟨turn, log'⟩)) ∧
      Running allocated (Within args.addr args.buf.length) err log' ∧
      (WritesFirst args a ↔ written log' ≠ []) := by
  have hNothing : written log = [] := by
    rw [List.eq_nil_iff_forall_not_mem]
    exact fun p hp => hRunning.places p hp
  have hFirst : Running allocated (Within args.addr args.buf.length) none log :=
    hRunning.mono fun _ hFalse => absurd hFalse not_false
  rcases hCheck : checkWrite args (args.buf ≠ []) a with - | e
  · exact absurd (.inl hCheck) h
  · obtain ⟨log', hRun, hAfter, hSame⟩ := @checkContext_ends _ _ log _ _ _ _ _ 0 _ hCheck hFirst
    rw [hNothing] at hSame
    by_cases hWrites : args.buf ≠ [] ∧ (e.map fun e => (e, 0)) = (none : Error)
    · obtain ⟨hSome, hNone⟩ := id hWrites
      obtain rfl : e = none := Option.map_eq_none_iff.1 hNone
      have hWritten :
        ∀ bytes, written (log' ++ wroteLog args.addr bytes) = bytesAt args.addr bytes := by
        intro bytes
        rw [written_append, hSame, written_wroteLog]
        rfl
      rcases hResult : a.inCache 0 with - | result
      · exact absurd (.inr ⟨hCheck, hSome, hResult⟩) h
      · rcases result with - | ⟨errno, valid⟩
        · refine ⟨none, 1, log' ++ wroteLog args.addr args.buf, ?_,
            hAfter.wrote (fun _ => id) ?_, ?_⟩
          · intro n
            rw [firstWrite, run_bind_ok (hRun n), if_pos hWrites]
            exact writeMem_done hResult
          · exact fun p => within_bytesAt
          · rw [hWritten]
            exact iff_of_true ⟨hSome, hCheck, .inl hResult⟩ (bytesAt_ne_nil hSome)
        · refine ⟨some (.target errno, min valid args.buf.length), 1, _, ?_,
            hAfter.wroteSome (fun _ => id) (fun p => within_bytesAt) valid (.target errno) _, ?_⟩
          · intro n
            rw [firstWrite, run_bind_ok (hRun n), if_pos hWrites]
            exact writeMem_failed hResult
          · rw [written_append, hWritten,
              show written [Effect.failed (.target errno)] = [] from rfl,
              List.append_nil]
            constructor
            · rintro ⟨-, -, hDone | ⟨errno', valid', hFailed, hPos⟩⟩
              · rw [hResult] at hDone
                cases hDone
              · rw [hResult] at hFailed
                cases hFailed
                refine bytesAt_ne_nil fun hNil => ?_
                rcases List.take_eq_nil_iff.1 hNil with hZero | hNil
                · exact absurd hZero (Nat.ne_of_gt hPos)
                · exact hSome hNil
            · intro hNe
              refine ⟨hSome, hCheck,
                .inr ⟨errno, valid, hResult, Nat.pos_of_ne_zero fun hZero => ?_⟩⟩
              rw [hZero, List.take_zero] at hNe
              exact hNe rfl
    · refine ⟨e.map fun e => (e, 0), 0, log', ?_, hAfter, ?_⟩
      · intro n
        rw [firstWrite, run_bind_ok (hRun n), if_neg hWrites]
        rfl
      · rw [hSame]
        refine ⟨fun hFirst => ?_, fun hNe => absurd rfl hNe⟩
        obtain ⟨hSome, hNone, -⟩ := hFirst
        rw [hCheck] at hNone
        cases hNone
        exact absurd ⟨hSome, rfl⟩ hWrites

theorem setClient_eq : memorySetCacheClient args r a =
    firstWrite args a >>= fun err =>
      (if a.closed = false then setAnswer args r a err else emit .closed) >>= fun _ =>
        release true := by
  simp only [memorySetCacheClient, firstWrite, setAnswer, then_assoc, ite_then, pure_then]

end

/-! ## The client of `set` -/

section

variable {allocated : Bool} {log : List Effect} {args : MemoryCommandArgs} {a : Attempt}
  {r : ReadState}
  {v : SetState} {addr0 : Address} {n turn max : Nat}

/-- The loop over the data: what has been written is in the range so far, which is also where the
next write starts. -/
def Received (allocated : Bool) (addr0 : Address) (v : SetState) (log : List Effect) : Prop :=
  Running allocated (Within addr0 v.size) v.err log ∧
    (v.err = none → v.addr = addr0 + BitVec.ofNat 64 v.size)

variable {reader : ReadState}

theorem setRound_next {buf : List UInt8} (n turn : Nat)
    (hRead : jsonReadBinaryData max v.reader = .ok (buf, reader)) (hSome : buf ≠ [])
    (h : Received allocated addr0 v log) :
    ∃ v' turn' log', (setRound a max v).run n ⟨turn, log⟩ = some (.ok (.inl v'), ⟨turn', log'⟩) ∧
      v'.reader = reader ∧ Received allocated addr0 v' log' := by
  obtain ⟨hRunning, hAddr⟩ := h
  have hMono : ∀ addr, Within addr0 v.size addr → Within addr0 (v.size + buf.length) addr :=
    fun _ hWithin => hWithin.mono (Nat.le_add_right _ _)
  rw [setRound, hRead]
  show ∃ v' turn' log', (if buf = [] then _ else _ : Action _).run n _ = _ ∧ _
  rw [if_neg hSome]
  by_cases hErr : v.err = none
  · rw [if_pos hErr]
    rw [hErr] at hRunning
    have hBytes : ∀ p ∈ bytesAt v.addr buf, Within addr0 (v.size + buf.length) p.1 := by
      intro p hp
      rw [hAddr hErr] at hp
      exact (within_bytesAt hp).shift
    rcases hResult : a.after turn with - | ⟨errno, valid⟩
    · refine ⟨_, _, _, run_bind_ok (writeMem_done (congrArg some hResult)), rfl,
        hRunning.wrote hMono hBytes, fun _ => ?_⟩
      show v.addr + BitVec.ofNat 64 buf.length = addr0 + BitVec.ofNat 64 (v.size + buf.length)
      rw [hAddr hErr, BitVec.ofNat_add, BitVec.add_assoc]
    · refine ⟨_, _, _, run_bind_ok (writeMem_failed (congrArg some hResult)), rfl,
        hRunning.wroteSome hMono hBytes valid _ _, fun hNone => ?_⟩
      cases hNone
  · rw [if_neg hErr]
    exact ⟨_, _, _, rfl, rfl, hRunning.mono hMono, fun hNone => absurd hNone hErr⟩

/-- The loop comes to the end of the data, or raises an exception with the lock held. -/
theorem setLoop_ends {k : Nat} (n turn : Nat) (hMax : 0 < max) (hSound : Sound v.reader)
    (hLess : v.reader.left < k)
    (h : Received allocated addr0 v log) :
    (∃ pieces v' turn' log', readPieces max k v.reader = .ok (pieces, v'.reader) ∧
      loopFrom (setRound a max) n k v ⟨turn, log⟩ = some (.ok v', ⟨turn', log'⟩) ∧
      Received allocated addr0 v' log') ∨
    (∃ e v' turn' log', readPieces max k v.reader = .error e ∧
      loopFrom (setRound a max) n k v ⟨turn, log⟩ = some (.error .raised, ⟨turn', log'⟩) ∧
      Received allocated addr0 v' log') := by
  induction k generalizing v turn log with
  | zero => exact absurd hLess (Nat.not_lt_zero _)
  | succ k ih =>
    rcases readData_progress hSound hMax with ⟨f, hRead⟩ | ⟨buf, reader, hRead, hSound', hLeft, -⟩
    · refine .inr ⟨.raise f, v, turn, log, ?_, ?_, h⟩
      · rw [readPieces, hRead]
        rfl
      · refine loopFrom_error ?_
        rw [setRound, hRead]
        rfl
    · by_cases hSome : buf = []
      · refine .inl ⟨[], { v with reader }, turn, log, ?_, ?_, h⟩
        · rw [readPieces, hRead, hSome]
          rfl
        · refine loopFrom_break ?_
          rw [setRound, hRead, hSome]
          rfl
      · obtain ⟨v', turn', log', hRound, hReader, hNext⟩ := setRound_next n turn hRead hSome h
        have hPos := List.length_pos_of_ne_nil hSome
        have hPieces : readPieces max (k + 1) v.reader =
            (readPieces max k v'.reader >>= fun rest => pure (buf :: rest.1, rest.2)) := by
          rw [readPieces, hRead, hReader]
          show (if buf = [] then _ else _) = _
          rw [if_neg hSome]
        rw [hPieces, loopFrom_continue hRound]
        rcases ih turn' (by rw [hReader]; exact hSound') (by rw [hReader]; omega) hNext with
          ⟨pieces, v'', turn'', log'', hRest, hLoop, hEnd⟩ | ⟨e, v'', turn'', log'', hRest,
            hLoop, hEnd⟩
        · exact .inl ⟨buf :: pieces, v'', turn'', log'', by rw [hRest]; rfl, hLoop, hEnd⟩
        · exact .inr ⟨e, v'', turn'', log'', by rw [hRest]; rfl, hLoop, hEnd⟩

theorem readRest_ok {pieces : List Text} {text : Text}
    (hPieces : readPieces max (r.left + 1) r = .ok (pieces, reader))
    (hEnd : jsonReadBinaryEnd reader = .ok text) : readRest max r = .ok (pieces, text) := by
  rw [readRest, hPieces]
  show (jsonReadBinaryEnd reader >>= _) = _
  rw [hEnd]
  rfl

theorem wellFormed_iff {pieces : List Text}
    (hPieces : readPieces max (r.left + 1) r = .ok (pieces, reader)) :
    WellFormed max r ↔ ∃ text, jsonReadBinaryEnd reader = .ok text ∧
      jsonTestChar text 0 = some [] := by
  constructor
  · rintro ⟨pieces', text, hRest, hTest⟩
    rcases hEnd : jsonReadBinaryEnd reader with e | text'
    · rw [readRest, hPieces] at hRest
      change (jsonReadBinaryEnd reader >>= _) = _ at hRest
      rw [hEnd] at hRest
      cases hRest
    · obtain ⟨-, rfl⟩ := Prod.mk.inj (Except.ok.inj ((readRest_ok hPieces hEnd).symm.trans hRest))
      exact ⟨_, rfl, hTest⟩
  · rintro ⟨text, hEnd, hTest⟩
    exact ⟨pieces, text, readRest_ok hPieces hEnd, hTest⟩

/-- The checks at the end of the message. -/
def endOfData (reader : ReadState) : Action Unit := do
  let text ← ofResult (jsonReadBinaryEnd reader)
  let text ← ofOption (jsonTestChar text 0)
  testEom text

theorem run_endOfData {s : State} :
    (endOfData reader).run n s = some (.ok ⟨⟩, s) ∧
        (∃ text, jsonReadBinaryEnd reader = .ok text ∧ jsonTestChar text 0 = some []) ∨
      (∃ e, e ≠ .miss ∧ (endOfData reader).run n s = some (.error e, s)) ∧
        ¬ ∃ text, jsonReadBinaryEnd reader = .ok text ∧ jsonTestChar text 0 = some [] := by
  unfold endOfData
  rcases jsonReadBinaryEnd reader with (e | -) | text
  · exact .inr ⟨⟨.raised, by simp, rfl⟩, by simp⟩
  · exact .inr ⟨⟨.fault, by simp, rfl⟩, by simp⟩
  · rcases hTest : jsonTestChar text 0 with - | text'
    · refine .inr ⟨⟨.raised, by simp, ?_⟩, by simp [hTest]⟩
      simp [ofResult, ofOption, hTest]
    · by_cases hEom : text' = []
      · refine .inl ⟨?_, text, rfl, by rw [hTest, hEom]⟩
        simp [ofResult, ofOption, hTest, testEom, hEom]
      · refine .inr ⟨⟨.raised, by simp, ?_⟩, by simp [hTest, hEom]⟩
        simp [ofResult, ofOption, hTest, testEom, hEom]

/-- The reply is sent when the data are well formed; else the lock is held. -/
theorem setAnswer_ends {err : Error} (hMax : 0 < args.max) (hSound : Sound r)
    (h : Running allocated (Within args.addr args.buf.length) err log) :
    (WellFormed args.max r →
      ∃ n size err' turn' log' reply, (setAnswer args r a err).run n ⟨turn, log⟩ =
          some (.ok ⟨⟩, ⟨turn', log' ++
            [.memoryChanged ((a.id2ctx args.ctxId).map Context.id) args.addr size, .reply reply]⟩) ∧
        Running allocated (Within args.addr size) err' log' ∧
          reply.map Prod.fst = err'.map Prod.fst) ∧
    (¬ WellFormed args.max r →
      ∃ n e t near err',
        (setAnswer args r a err).run n ⟨turn, log⟩ = some (.error e, t) ∧ e ≠ .miss ∧
        Running allocated near err' t.log) := by
  have hReceived : Received allocated args.addr
      ⟨r, if err = none then args.addr + BitVec.ofNat 64 args.buf.length else args.addr, err,
        args.buf.length⟩
      log := ⟨h, fun hNone => if_pos hNone⟩
  have hAnswer : setAnswer args r a err =
      loop (setRound a args.max)
        ⟨r, if err = none then args.addr + BitVec.ofNat 64 args.buf.length else args.addr, err,
          args.buf.length⟩ >>= fun v =>
        endOfData v.reader >>= fun _ =>
          sendEventMemoryChanged (a.id2ctx args.ctxId) args.addr v.size >>= fun _ =>
            sendReply v.err args.addr v.addr := by
    simp only [setAnswer, endOfData, then_assoc]
  rw [hAnswer]
  rcases setLoop_ends (a := a) (r.left + 1) turn hMax hSound (Nat.lt_succ_self _) hReceived with
    ⟨pieces, v, turn', log', hPieces, hLoop, hEnd⟩ | ⟨e, v, turn', log', hPieces, hLoop, hEnd⟩
  · rw [wellFormed_iff hPieces]
    rcases run_endOfData (n := r.left + 1) (s := ⟨turn', log'⟩) with
      ⟨hData, hText⟩ | ⟨⟨e, hMiss, hData⟩, hText⟩
    · refine ⟨fun _ => ?_, fun hBad => absurd hText hBad⟩
      refine ⟨r.left + 1, v.size, v.err, turn', log', replyOf v.err args.addr v.addr, ?_, hEnd.1,
        replyOf_first _ _ _⟩
      rw [run_bind_ok hLoop, run_bind_ok hData]
      simp [sendEventMemoryChanged, run_sendReply]
    · refine ⟨fun hGood => absurd hGood hText, fun _ => ?_⟩
      refine ⟨r.left + 1, e, ⟨turn', log'⟩, _, _, ?_, hMiss, hEnd.1⟩
      rw [run_bind_ok hLoop, run_bind_error hData]
  · refine ⟨fun hGood => ?_, fun _ => ?_⟩
    · obtain ⟨pieces, text, hRest, -⟩ := hGood
      rw [readRest, hPieces] at hRest
      cases hRest
    · exact ⟨r.left + 1, .raised, ⟨turn', log'⟩, _, _, run_bind_error hLoop, by simp, hEnd.1⟩

theorem setClient_misses (h : MissesFirst (checkWrite args (args.buf ≠ []) a) (args.buf ≠ []) a) :
    ∃ n t, (memorySetCacheClient args r a).run n ⟨0, log⟩ = some (.error .miss, t) ∧
      t.log = log := by
  obtain ⟨turn, hRun⟩ := @firstWrite_misses log 0 args a h
  refine ⟨0, ⟨turn, log⟩, ?_, rfl⟩
  rw [setClient_eq]
  exact run_bind_error hRun

theorem setClient_good (hMax : 0 < args.max) (hSound : Sound r)
    (hFinds : ¬ MissesFirst (checkWrite args (args.buf ≠ []) a) (args.buf ≠ []) a)
    (hGood : GoodSet args r a)
    (h : Running true (fun _ => False) none log) :
    Cleans (memorySetCacheClient args r a) ⟨0, log⟩ := by
  by_cases hClosed : a.closed = false
  · obtain ⟨err, turn, log', hFirst, hRunning, -⟩ := firstWrite_ends hFinds h
    obtain ⟨n, size, err', turn', log'', reply, hRun, hEnd, hReply⟩ :=
      (setAnswer_ends hMax hSound hRunning).1 (hGood.2 hClosed)
    have hClean : Clean (log'' ++
        ([.memoryChanged ((a.id2ctx args.ctxId).map Context.id) args.addr size] ++
          .reply reply :: released true)) := by
      refine hEnd.clean ?_ ?_ (.inr ⟨reply, rfl, hReply⟩)
      · exact fun e he => ⟨_, _, _, List.mem_singleton.1 he⟩
      · exact fun addr hWithin => ⟨_, _, _, List.mem_singleton_self _, hWithin⟩
    refine ⟨n, ⟨turn', _⟩, ?_, hClean⟩
    rw [setClient_eq, run_bind_ok (hFirst _), if_pos hClosed, run_bind_ok hRun, run_release]
    simp [released]
  · obtain ⟨err, turn, log', hFirst, hRunning, hWrites⟩ := firstWrite_ends hFinds h
    have hNothing : written log' = [] := by
      by_contra hSome
      exact hGood.1 (by simpa using hClosed) (hWrites.2 hSome)
    have hNone : Running true (fun _ => False) err log' :=
      ⟨hRunning.lock, hRunning.buffer, hRunning.silent, hRunning.unannounced, hRunning.failure, by
        rw [hNothing]
        exact fun p hp => absurd hp List.not_mem_nil⟩
    have hClean : Clean (log' ++ ([] ++ .closed :: released true)) := by
      refine hNone.clean ?_ ?_ (.inl rfl)
      · exact fun e he => absurd he List.not_mem_nil
      · exact fun _ hFalse => absurd hFalse not_false
    refine ⟨0, ⟨turn, _⟩, ?_, hClean⟩
    rw [setClient_eq, run_bind_ok (hFirst _), if_neg hClosed]
    simp [run_release, released]

theorem setClient_bad (hMax : 0 < args.max) (hSound : Sound r)
    (hFinds : ¬ MissesFirst (checkWrite args (args.buf ≠ []) a) (args.buf ≠ []) a)
    (hBad : ¬ GoodSet args r a)
    (h : Running true (fun _ => False) none log) :
    Litters (memorySetCacheClient args r a) ⟨0, log⟩ := by
  right
  by_cases hClosed : a.closed = false
  · obtain ⟨err, turn, log', hFirst, hRunning, -⟩ := firstWrite_ends hFinds h
    obtain ⟨n, e, t, near, err', hRun, hMiss, hEnd⟩ :=
      (setAnswer_ends hMax hSound hRunning).2 fun hGood =>
      hBad ⟨fun hTrue => absurd (hClosed.symm.trans hTrue) Bool.false_ne_true, fun _ => hGood⟩
    refine ⟨n, .error e, t, ?_, fun hError => hMiss (Except.error.inj hError), hEnd.not_clean⟩
    rw [setClient_eq, run_bind_ok (hFirst _), if_pos hClosed, run_bind_error hRun]
  · obtain ⟨err, turn, log', hFirst, hRunning, hWrites⟩ := firstWrite_ends hFinds h
    -- what has been written is not announced
    have hSome : written log' ≠ [] := by
      refine hWrites.1 ?_
      by_contra hNot
      exact hBad ⟨fun _ => hNot, fun hFalse => absurd hFalse hClosed⟩
    obtain ⟨p, hp⟩ := List.exists_mem_of_ne_nil _ hSome
    refine ⟨0, .ok ⟨⟩, ⟨turn, log' ++ [.closed, .free, .unlock]⟩, ?_, by simp, fun hClean => ?_⟩
    · rw [setClient_eq, run_bind_ok (hFirst _), if_neg hClosed]
      simp [run_release]
    · obtain ⟨ctxId, addr, size, hEvent, -⟩ := hClean.announced p (by
        rw [written_append]
        exact List.mem_append_left _ hp)
      exact hRunning.unannounced ctxId addr size (by simpa using hEvent)

end

/-! ## The client of `get` -/

section

variable {allocated : Bool} {near : Address → Prop} {log : List Effect} {args : MemoryCommandArgs}
  {a : Attempt} {n turn size max : Nat}

theorem readMem_ends {results : Nat → Option Transfer} {result : Transfer}
    (h : results turn = some result)
    (hRunning : Running allocated near none log) :
    ∃ err log', (∀ n, (readMem results size).run n ⟨turn, log⟩ = some (.ok err, ⟨turn + 1, log'⟩)) ∧
      Running allocated near err log' := by
  rcases result with - | ⟨errno, valid⟩
  · refine ⟨none, log, fun n => ?_, hRunning⟩
    simp [readMem, nextTurn, h, transfer]
  · refine ⟨_, _, fun n => ?_, hRunning.failed (.target errno) (min valid size)⟩
    simp [readMem, nextTurn, h, transfer, fail]

/-- `memory_get_cache_client` before `cache_exit` -/
def firstRead (args : MemoryCommandArgs) (a : Attempt) : Action Error := do
  let err ← checkContext args.dontStop (args.size ≠ 0) (·.rdStop) (·.rdRunning)
    (a.id2ctx args.ctxId)
  if args.size ≠ 0 ∧ err = none then readMem a.inCache (min args.size.toNat args.max) else pure err

theorem firstRead_misses (h : MissesFirst (checkRead args (args.size ≠ 0) a) (args.size ≠ 0) a) :
    ∃ turn, (firstRead args a).run n ⟨0, log⟩ = some (.error .miss, ⟨turn, log⟩) := by
  rcases h with hCheck | ⟨hCheck, hSome, hMiss⟩
  · exact ⟨0, run_bind_error (checkContext_miss hCheck)⟩
  · refine ⟨1, ?_⟩
    have hRun : (checkContext args.dontStop (args.size ≠ 0) (·.rdStop) (·.rdRunning)
        (a.id2ctx args.ctxId)).run n ⟨0, log⟩ = some (.ok none, ⟨0, log⟩) :=
      checkContext_passes hCheck
    rw [firstRead, run_bind_ok hRun, if_pos ⟨hSome, rfl⟩]
    simp [readMem, nextTurn, hMiss, transfer]

theorem firstRead_ends (h : ¬ MissesFirst (checkRead args (args.size ≠ 0) a) (args.size ≠ 0) a)
    (hRunning : Running allocated near none log) :
    ∃ err turn log', (∀ n, (firstRead args a).run n ⟨0, log⟩ = some (.ok err, ⟨turn, log'⟩)) ∧
      Running allocated near err log' := by
  rcases hCheck : checkRead args (args.size ≠ 0) a with - | e
  · exact absurd (.inl hCheck) h
  · obtain ⟨log', hRun, hAfter, -⟩ := @checkContext_ends _ _ log _ _ _ _ _ 0 _ hCheck hRunning
    by_cases hReads : args.size ≠ 0 ∧ (e.map fun e => (e, 0)) = (none : Error)
    · obtain ⟨hSome, hNone⟩ := id hReads
      obtain rfl : e = none := Option.map_eq_none_iff.1 hNone
      rcases hResult : a.inCache 0 with - | result
      · exact absurd (.inr ⟨hCheck, hSome, hResult⟩) h
      · obtain ⟨err, log'', hRead, hEnd⟩ := readMem_ends hResult hAfter
        refine ⟨err, 1, log'', fun n => ?_, hEnd⟩
        rw [firstRead, run_bind_ok (hRun n), if_pos hReads]
        exact hRead n
    · refine ⟨e.map fun e => (e, 0), 0, log', fun n => ?_, hAfter⟩
      rw [firstRead, run_bind_ok (hRun n), if_neg hReads]
      rfl

/-- The loop comes to the end of the data. -/
theorem getLoop_ends {size : BitVec 64} {v : GetState} (hMax : size ≠ 0 → 0 < max)
    (hPos : v.pos ≤ size) (h : Running allocated near v.err log) (hLess : size.toNat < n) :
    Ends (loop (getRound a max size) v) n ⟨turn, log⟩ (fun v t =>
      Running allocated near v.err t.log)
      (fun _ _ => False) := by
  refine Ends.loop (I := fun v t => v.pos ≤ size ∧ Running allocated near v.err t.log)
    (fun v _ => size.toNat - v.pos.toNat) ⟨hPos, h⟩ (by omega) ?_
  rintro v ⟨turn, log⟩ ⟨hPos, h⟩
  by_cases hMore : v.pos < size
  · have hSize := BitVec.lt_def.1 hMore
    have hPositive : 0 < max := hMax fun hZero => by
      rw [hZero] at hSize
      exact absurd hSize (Nat.not_lt_zero _)
    have hRest : (size - v.pos).toNat = size.toNat - v.pos.toNat := BitVec.toNat_sub_of_le hPos
    have hNext : (v.pos + BitVec.ofNat 64 (min (size - v.pos).toNat max)).toNat =
        v.pos.toNat + min (size.toNat - v.pos.toNat) max := by
      rw [BitVec.toNat_add, BitVec.toNat_ofNat, hRest]
      omega
    have hStep : v.pos + BitVec.ofNat 64 (min (size - v.pos).toNat max) ≤ size ∧
        size.toNat - (v.pos + BitVec.ofNat 64 (min (size - v.pos).toNat max)).toNat <
          size.toNat - v.pos.toNat := by
      rw [BitVec.le_def, hNext]
      omega
    by_cases hErr : v.err = none
    · rw [hErr] at h
      obtain ⟨err, log', hRead, hAfter⟩ :
        ∃ err log', (∀ n, (readMem (fun turn => some (a.after turn))
          (min (size - v.pos).toNat max)).run n ⟨turn, log⟩ = some (.ok err, ⟨turn + 1, log'⟩)) ∧
          Running allocated near err log' := readMem_ends rfl h
      refine ends_again (c := ⟨v.pos + BitVec.ofNat 64 (min (size - v.pos).toNat max),
        if err = none then v.addr + BitVec.ofNat 64 (min (size - v.pos).toNat max) else v.addr,
          err⟩)
        (t := ⟨turn + 1, log'⟩) ?_ ⟨⟨hStep.1, hAfter⟩, hStep.2⟩
      rw [getRound, if_pos hMore]
      rw [if_pos hErr, run_bind_ok (hRead n)]
      rfl
    · refine ends_again
        (c := ⟨v.pos + BitVec.ofNat 64 (min (size - v.pos).toNat max), v.addr, v.err⟩)
        (t := ⟨turn, log⟩) ?_ ⟨⟨hStep.1, h⟩, hStep.2⟩
      rw [getRound, if_pos hMore]
      dsimp only
      rw [if_neg hErr, pure_then, if_neg hErr]
      rfl
  · refine ends_leave ?_ h
    rw [getRound, if_neg hMore]
    rfl

/-- `memory_get_cache_client` after `cache_exit`, when the channel is not closed -/
def getAnswer (args : MemoryCommandArgs) (a : Attempt) (err : Error) : Action Unit := do
  let rd := min args.size.toNat args.max
  let addr := if err = none then args.addr + BitVec.ofNat 64 rd else args.addr
  let v ← loop (getRound a args.max args.size) ⟨BitVec.ofNat 64 rd, addr, err⟩
  sendReply v.err args.addr v.addr

theorem getClient_eq : memoryGetCacheClient args a =
    firstRead args a >>= fun err =>
      (if a.closed = false then getAnswer args a err else emit .closed) >>= fun _ =>
        release true := by
  simp only [memoryGetCacheClient, firstRead, getAnswer, then_assoc, ite_then, pure_then]

theorem getClient_misses (h : MissesFirst (checkRead args (args.size ≠ 0) a) (args.size ≠ 0) a) :
    ∃ n t, (memoryGetCacheClient args a).run n ⟨0, log⟩ = some (.error .miss, t) ∧ t.log = log := by
  obtain ⟨turn, hRun⟩ := @firstRead_misses log args a 0 h
  refine ⟨0, ⟨turn, log⟩, ?_, rfl⟩
  rw [getClient_eq]
  exact run_bind_error hRun

theorem getClient_good (hMax : args.size ≠ 0 → 0 < args.max)
    (hFinds : ¬ MissesFirst (checkRead args (args.size ≠ 0) a) (args.size ≠ 0) a)
    (h : Running true (fun _ => False) none log) :
    Cleans (memoryGetCacheClient args a) ⟨0, log⟩ := by
  obtain ⟨err, turn, log', hFirst, hRunning⟩ := firstRead_ends hFinds h
  have hEvents : ∀ e ∈ ([] : List Effect), ∃ ctxId addr size, e = .memoryChanged ctxId addr size :=
    fun e he => absurd he List.not_mem_nil
  have hNone : ∀ addr : Address, False → ∃ ctxId addr0 size,
    Effect.memoryChanged ctxId addr0 size ∈ [] ∧
      Within addr0 size addr := fun _ hFalse => absurd hFalse not_false
  by_cases hClosed : a.closed = false
  · have hPos : BitVec.ofNat 64 (min args.size.toNat args.max) ≤ args.size := by
      have hBound := args.size.isLt
      rw [BitVec.le_def, BitVec.toNat_ofNat]
      omega
    obtain ⟨r, t, hLoop, hDone, hError⟩ :=
      @getLoop_ends _ _ log' a (args.size.toNat + 1) turn args.max args.size
      ⟨BitVec.ofNat 64 (min args.size.toNat args.max),
        if err = none then args.addr + BitVec.ofNat 64
          (min args.size.toNat args.max) else args.addr, err⟩
      hMax hPos hRunning (Nat.lt_succ_self _)
    rcases r with e | v
    · exact absurd (hError e rfl) not_false
    · have hClean :
        Clean (t.log ++ ([] ++ .reply (replyOf v.err args.addr v.addr) :: released true)) :=
        (hDone v rfl).clean hEvents hNone (.inr ⟨_, rfl, replyOf_first _ _ _⟩)
      refine ⟨args.size.toNat + 1, ⟨t.turn, _⟩, ?_, hClean⟩
      rw [getClient_eq, run_bind_ok (hFirst _), if_pos hClosed, getAnswer, then_assoc,
        run_bind_ok hLoop, run_bind_ok (run_sendReply _ _ _), run_release]
      simp [released]
  · have hClean : Clean (log' ++ ([] ++ .closed :: released true)) :=
      hRunning.clean hEvents hNone (.inl rfl)
    refine ⟨0, ⟨turn, _⟩, ?_, hClean⟩
    rw [getClient_eq, run_bind_ok (hFirst _), if_neg hClosed]
    simp [run_release, released]

end

/-! ## The client of `fill` -/

section

variable {allocated : Bool} {log : List Effect} {args : MemoryCommandArgs} {a : Attempt}
  {v : FillState}
  {n turn bound : Nat}

/-- The loop over the memory: the place is that of the turn, or something has failed. A size that an
`unsigned` does not hold is never reached. -/
structure Filling (allocated : Bool) (args : MemoryCommandArgs) (a : Attempt) (v : FillState)
    (turn : Nat)
    (log : List Effect) : Prop where
  running : Running allocated (Within args.addr args.size.toNat) v.err log
  place : v.err = none → (∀ j < turn, a.inCache j = some .done) ∧
    ∃ d ≤ args.size.toNat, v.addr = args.addr + BitVec.ofNat 64 d ∧
      (args.size.toNat < 2 ^ 31 → d = min (turn * args.buf.length) args.size.toNat) ∧
      (2 ^ 31 ≤ args.size.toNat → (args.size.toNat - d) / 2 ^ 32 = args.size.toNat / 2 ^ 32)
  finds : v.err ≠ none → ¬ MissesWrite args a

/-- The sizes of an `int`. -/
def IntSize (args : MemoryCommandArgs) : Prop := args.size.toNat < 2 ^ 31 ∨ 2 ^ 32 ≤ args.size.toNat

/-- What a round does that is not the last one. -/
theorem fillRound_next (h : Filling allocated args a v turn log)
    (hMore : v.err = none ∧ v.addr - args.addr < args.size) :
    Asked args turn ∧
      ((∃ v' log', (∀ n, (fillRound a args.buf args.addr args.size v).run n ⟨turn, log⟩ =
            some (.ok (.inl v'), ⟨turn + 1, log'⟩)) ∧ Filling allocated args a v' (turn + 1) log' ∧
          (v'.err = none → ∀ j < turn + 1, a.inCache j = some .done)) ∨
        MissesWrite args a ∧ ∀ n, (fillRound a args.buf args.addr args.size v).run n ⟨turn, log⟩ =
          some (.error .miss, ⟨turn + 1, log⟩)) := by
  obtain ⟨addr, err⟩ := v
  obtain ⟨hErr, hIn⟩ := id hMore
  obtain rfl : err = none := hErr
  obtain ⟨hBefore, d, hd, hAddr, hSmall, hLarge⟩ := h.place rfl
  obtain rfl : addr = args.addr + BitVec.ofNat 64 d := hAddr
  have hLess : d < args.size.toNat := by
    have hIn : args.addr + BitVec.ofNat 64 d - args.addr < args.size := hIn
    rwa [add_sub_self, ofNat_lt_iff hd] at hIn
  have hAsked : Asked args turn := by
    rcases Nat.lt_or_ge args.size.toNat (2 ^ 31) with hLt | hGe
    · left
      have hd := hSmall hLt
      omega
    · exact .inr hGe
  -- whatever the size wraps to, the chunk lies within the range
  have hChunk := @fillChunk_le args.buf args.addr args.size d hd
  have hMod := Nat.mod_le (args.size.toNat - d) (2 ^ 32)
  have hBytes : ∀ p ∈ bytesAt (args.addr + BitVec.ofNat 64 d)
      (args.buf.take (fillChunk args.buf args.addr args.size (args.addr + BitVec.ofNat 64 d))),
      Within args.addr args.size.toNat p.1 := by
    intro p hp
    refine (within_bytesAt hp).shift.mono ?_
    rw [List.length_take]
    omega
  refine ⟨hAsked, ?_⟩
  rcases hResult : a.inCache turn with - | result
  · exact .inr ⟨⟨turn, hAsked, hResult, hBefore⟩, fun n => fillRound_miss hMore hResult⟩
  · left
    rcases result with - | ⟨errno, valid⟩
    -- the chunk is written
    · have hDone : ∀ j < turn + 1, a.inCache j = some .done := by
        intro j hj
        rcases Nat.lt_succ_iff_lt_or_eq.1 hj with hj | rfl
        · exact hBefore j hj
        · exact hResult
      refine ⟨_, _, fun n => fillRound_done hMore hResult, ⟨h.running.wrote (fun _ => id) hBytes,
        fun _ => ⟨hDone, d + fillChunk args.buf args.addr args.size (args.addr + BitVec.ofNat 64 d),
          by omega,
          ?_, ?_, ?_⟩, fun hNe => absurd rfl hNe⟩, fun _ => hDone⟩
      · rw [BitVec.ofNat_add, BitVec.add_assoc]
      · intro hLt
        have hEq := @fillChunk_eq args.buf args.addr args.size d hd (by omega)
        have hd := hSmall hLt
        rw [hEq, Nat.succ_mul]
        omega
      · intro hGe
        have hd := hLarge hGe
        omega
    -- the target fails: no round comes after this one
    · refine ⟨_, _, fun n => fillRound_failed hMore hResult,
        ⟨h.running.wroteSome (fun _ => id) hBytes valid _ _,
        fun hNone => ?_, fun _ => ?_⟩, fun hNone => ?_⟩
      · cases hNone
      · rintro ⟨k, -, hMiss, hDone⟩
        rcases Nat.lt_trichotomy k turn with hk | rfl | hk
        · rw [hBefore k hk] at hMiss
          cases hMiss
        · rw [hResult] at hMiss
          cases hMiss
        · rw [hDone turn hk] at hResult
          cases hResult
      · cases hNone

theorem fillLoop_finds (hInt : IntSize args) (h : Filling allocated args a v turn log)
    (hEnd : ¬ (v.err = none ∧ v.addr - args.addr < args.size)) : ¬ MissesWrite args a := by
  by_cases hErr : v.err = none
  · obtain ⟨hBefore, d, hd, hAddr, hSmall, hLarge⟩ := h.place hErr
    have hAll : d = args.size.toNat := by
      by_contra hNe
      refine hEnd ⟨hErr, ?_⟩
      rw [hAddr, add_sub_self, ofNat_lt_iff hd]
      omega
    rintro ⟨k, hAsked, hMiss, -⟩
    have hTurn : turn ≤ k := by
      by_contra hLess
      rw [hBefore k (by omega)] at hMiss
      cases hMiss
    have hMul := Nat.mul_le_mul_right args.buf.length hTurn
    rcases hInt with hLt | hGe
    · have hMin := hSmall hLt
      rcases hAsked with hAsked | hAsked
      · omega
      · omega
    · have hDiv := hLarge (by omega)
      rw [hAll, Nat.sub_self, Nat.zero_div] at hDiv
      omega
  · exact h.finds hErr

/-- The loop ends before a bound of its writes, unless a cache misses. -/
theorem fillLoop_outcome (hInt : IntSize args)
    (hBound : ∀ turn, Asked args turn → (∀ j < turn + 1, a.inCache j = some .done) → turn < bound)
    (h : Running allocated (Within args.addr args.size.toNat) none log) (hLess : bound + 1 < n) :
    Ends (loop (fillRound a args.buf args.addr args.size) ⟨args.addr, none⟩) n ⟨0, log⟩
      (fun v t => ¬ MissesWrite args a ∧
        Running allocated (Within args.addr args.size.toNat) v.err t.log)
      (fun e t => e = .miss ∧ MissesWrite args a ∧
        Running allocated (Within args.addr args.size.toNat) none t.log) := by
  have hStart : Filling allocated args a ⟨args.addr, none⟩ 0 log := by
    refine ⟨h, fun _ => ⟨fun j hj => absurd hj (Nat.not_lt_zero _), 0, Nat.zero_le _,
      (BitVec.add_zero _).symm, fun _ => ?_, fun _ => rfl⟩, fun hNe => absurd rfl hNe⟩
    rw [Nat.zero_mul, Nat.zero_min]
  refine Ends.loop (I := fun v t => Filling allocated args a v t.turn t.log)
    (fun v t => bound - t.turn + (if v.err = none then 1 else 0)) hStart ?_ ?_
  · show bound - 0 + 1 < n
    omega
  · rintro v ⟨turn, log⟩ hFilling
    by_cases hMore : v.err = none ∧ v.addr - args.addr < args.size
    · obtain ⟨hAsked, ⟨v', log', hRun, hNext, hDone⟩ | ⟨hMiss, hRun⟩⟩ :=
        fillRound_next hFilling hMore
      · refine ends_again (hRun n) ⟨hNext, ?_⟩
        show bound - (turn + 1) + (if v'.err = none then 1 else 0) <
          bound - turn + (if v.err = none then 1 else 0)
        rw [if_pos hMore.1]
        split
        · have hTurn := hBound turn hAsked (hDone ‹_›)
          omega
        · omega
      · refine ends_error (hRun n) ⟨rfl, hMiss, ?_⟩
        have hRunning := hFilling.running
        rwa [hMore.1] at hRunning
    · exact ends_leave (fillRound_end hMore) ⟨fillLoop_finds hInt hFilling hMore, hFilling.running⟩

/-- `memory_fill_cache_client` after `cache_exit` -/
def fillAnswer (args : MemoryCommandArgs) (a : Attempt) (v : FillState) : Action Unit := do
  sendEventMemoryChanged (a.id2ctx args.ctxId) args.addr args.size.toNat
  if a.closed = false then sendReply v.err args.addr v.addr else emit .closed
  release (args.max ≠ 0)

theorem fillClient_eq : memoryFillCacheClient args a =
    checkContext args.dontStop (args.size ≠ 0) (·.wrStop) (·.wrRunning)
      (a.id2ctx args.ctxId) >>= fun err =>
      loop (fillRound a args.buf args.addr args.size) ⟨args.addr, err⟩ >>= fillAnswer args a := rfl

theorem fillAnswer_cleans (turn : Nat)
    (h : Running (args.max ≠ 0) (Within args.addr args.size.toNat) v.err log) :
    ∃ log', (∀ n, (fillAnswer args a v).run n ⟨turn, log⟩ = some (.ok ⟨⟩, ⟨turn, log'⟩)) ∧
      Clean log' := by
  have hClean :
    ∀ answer, (answer = .closed ∨ ∃ r, answer = .reply r ∧ r.map Prod.fst = v.err.map Prod.fst) →
      Clean (log ++
        ([.memoryChanged ((a.id2ctx args.ctxId).map Context.id) args.addr args.size.toNat] ++
        answer :: released (args.max ≠ 0))) := by
    intro answer hAnswer
    refine h.clean ?_ ?_ hAnswer
    · exact fun e he => ⟨_, _, _, List.mem_singleton.1 he⟩
    · exact fun addr hWithin => ⟨_, _, _, List.mem_singleton_self _, hWithin⟩
  by_cases hClosed : a.closed = false
  · refine ⟨_, fun n =>
      ?_, hClean (.reply (replyOf v.err args.addr v.addr)) (.inr ⟨_, rfl, replyOf_first _ _ _⟩)⟩
    rw [fillAnswer, if_pos hClosed]
    simp [sendEventMemoryChanged, run_sendReply, run_release, released]
  · refine ⟨_, fun n => ?_, hClean .closed (.inl rfl)⟩
    rw [fillAnswer, if_neg hClosed]
    simp [sendEventMemoryChanged, run_release, released]

theorem MissesWrite.exists_bound (h : MissesWrite args a) :
    ∃ bound, ∀ turn, Asked args turn → (∀ j < turn + 1, a.inCache j = some .done) →
      turn < bound := by
  obtain ⟨k, -, hMiss, -⟩ := h
  refine ⟨k, fun turn _ hDone => ?_⟩
  by_contra hLess
  rw [hDone k (by omega)] at hMiss
  cases hMiss

theorem fillClient_misses (hInt : IntSize args) (hMisses : MissesFill args a)
    (h : Running allocated (Within args.addr args.size.toNat) none log) :
    ∃ n t, (memoryFillCacheClient args a).run n ⟨0, log⟩ = some (.error .miss, t) ∧
      Running allocated (Within args.addr args.size.toNat) none t.log := by
  rw [fillClient_eq]
  rcases hMisses with hCheck | ⟨hCheck, hWrite⟩
  · exact ⟨0, ⟨0, log⟩, run_bind_error (checkContext_miss hCheck), h⟩
  · obtain ⟨bound, hBound⟩ := hWrite.exists_bound
    obtain ⟨r, t, hLoop, hDone, hError⟩ :=
      @fillLoop_outcome _ _ args a (bound + 2) bound hInt hBound h (Nat.lt_succ_self _)
    have hRun : (checkContext args.dontStop (args.size ≠ 0) (·.wrStop) (·.wrRunning)
        (a.id2ctx args.ctxId)).run (bound + 2) ⟨0, log⟩ = some (.ok none, ⟨0, log⟩) :=
      checkContext_passes hCheck
    rcases r with e | v
    · obtain ⟨rfl, -, hEnd⟩ := hError e rfl
      refine ⟨bound + 2, t, ?_, hEnd⟩
      rw [run_bind_ok hRun, run_bind_error hLoop]
    · exact absurd hWrite (hDone v rfl).1

/-- After an error nothing is written. -/
theorem fillClient_fails {e : MemError} (hCheck : checkWrite args (args.size ≠ 0) a = some (some e))
    (h : Running allocated (Within args.addr args.size.toNat) none log) :
    ∃ log', (∀ n, (memoryFillCacheClient args a).run (n + 1) ⟨0, log⟩ =
        (fillAnswer args a ⟨args.addr, some (e, 0)⟩).run (n + 1) ⟨0, log'⟩) ∧
      Running allocated (Within args.addr args.size.toNat) (some (e, 0)) log' := by
  obtain ⟨log', hRun, hAfter, -⟩ := @checkContext_ends _ _ log _ _ _ _ _ 0 _ hCheck h
  refine ⟨log', fun n => ?_, hAfter⟩
  have hLoop :
    (loop (fillRound a args.buf args.addr args.size) ⟨args.addr, some (e, 0)⟩).run
    (n + 1) ⟨0, log'⟩ =
      some (.ok ⟨args.addr, some (e, 0)⟩, ⟨0, log'⟩) := by
    have hRound :=
      @fillRound_end a args.buf args.addr args.size ⟨args.addr, some (e, 0)⟩ (n + 1) ⟨0, log'⟩
      fun hMore => by cases hMore.1
    exact @loopFrom_break _ _ _ _ _ _ _ _ _ n _ hRound
  rw [fillClient_eq, run_bind_ok (hRun (n + 1))]
  exact run_bind_ok hLoop

theorem fillClient_good (hInt : IntSize args) (hBuf : args.buf ≠ [] ∨ args.size = 0)
    (hFinds : ¬ MissesFill args a) (hGood : GoodFill args a)
    (h : Running (args.max ≠ 0) (Within args.addr args.size.toNat) none log) :
    Cleans (memoryFillCacheClient args a) ⟨0, log⟩ := by
  rcases hCheck : checkWrite args (args.size ≠ 0) a with - | - | e
  · exact absurd (.inl hCheck) hFinds
  · have hWrite : ¬ MissesWrite args a := fun hWrite => hFinds (.inr ⟨hCheck, hWrite⟩)
    obtain ⟨bound, hBound⟩ : ∃ bound, ∀ turn, Asked args turn →
        (∀ j < turn + 1, a.inCache j = some .done) → turn < bound := by
      rcases hGood hCheck with hSmall | ⟨k, hk⟩
      · refine ⟨args.size.toNat, fun turn hAsked _ => ?_⟩
        have hLess : turn * args.buf.length < args.size.toNat := by
          rcases hAsked with hAsked | hAsked
          · exact hAsked
          · omega
        have hPos : 1 ≤ args.buf.length := by
          rcases hBuf with hSome | hZero
          · exact List.length_pos_of_ne_nil hSome
          · rw [hZero] at hLess
            exact absurd hLess (Nat.not_lt_zero _)
        exact Nat.lt_of_le_of_lt (Nat.le_mul_of_pos_right turn hPos) hLess
      · refine ⟨k, fun turn _ hDone => ?_⟩
        by_contra hLess
        exact hk (hDone k (by omega))
    have hRun : (checkContext args.dontStop (args.size ≠ 0) (·.wrStop) (·.wrRunning)
        (a.id2ctx args.ctxId)).run (bound + 2) ⟨0, log⟩ = some (.ok none, ⟨0, log⟩) :=
      checkContext_passes hCheck
    obtain ⟨r, ⟨turn, log'⟩, hLoop, hDone, hError⟩ :=
      @fillLoop_outcome _ _ args a (bound + 2) bound hInt hBound h (Nat.lt_succ_self _)
    rcases r with e | v
    · exact absurd (hError e rfl).2.1 hWrite
    · obtain ⟨log'', hAnswer, hClean⟩ := fillAnswer_cleans turn (hDone v rfl).2
      refine ⟨bound + 2, ⟨turn, log''⟩, ?_, hClean⟩
      rw [fillClient_eq, run_bind_ok hRun, run_bind_ok hLoop]
      exact hAnswer _
  · obtain ⟨log', hRun, hAfter⟩ := fillClient_fails hCheck h
    obtain ⟨log'', hAnswer, hClean⟩ :=
      @fillAnswer_cleans log' args a ⟨args.addr, some (e, 0)⟩ 0 hAfter
    exact ⟨1, ⟨0, log''⟩, (hRun 0).trans (hAnswer 1), hClean⟩

theorem fillClient_bad (hInt : IntSize args) (hBad : ¬ GoodFill args a) :
    Never (memoryFillCacheClient args a) ⟨0, log⟩ := by
  unfold GoodFill at hBad
  push Not at hBad
  obtain ⟨hCheck, hLarge, hAll⟩ := hBad
  have hRun : (checkContext args.dontStop (args.size ≠ 0) (·.wrStop) (·.wrRunning)
      (a.id2ctx args.ctxId)).run 0 ⟨0, log⟩ = some (.ok none, ⟨0, log⟩) :=
    checkContext_passes hCheck
  rw [fillClient_eq]
  refine Never.bind hRun (Never.bind_left (fillLoop_never hAll ?_ _))
  rcases hInt with hSmall | hHuge
  · omega
  · exact hHuge

end

end TcfAgent.MemoryService
