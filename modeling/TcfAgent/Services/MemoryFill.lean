import TcfAgent.Services.MemoryCommands

/-!
# What `fill` writes

The pattern is doubled in the buffer as long as it fits and is not enough, and the buffer is written
one time after the other.

Main results:

* `growLoop_ends` — the buffer has the pattern a number of times;
* `fillLoop_ends` — the bytes before the first failure are written;
* `fill_iff`      — the patterns and sizes with which the pattern is written.
-/

namespace TcfAgent.MemoryService

open TcfAgent.Lib TcfAgent.Lib.Program TcfAgent.JsonText

/-! ## What is in a log -/

/-- Bytes from an address on. -/
def bytesAt (addr : Address) : List UInt8 → List (Address × UInt8)
  | [] => []
  | b :: bytes => (addr, b) :: bytesAt (addr + 1) bytes

def Effect.written : Effect → List (Address × UInt8)
  | .wrote addr bytes => bytesAt addr bytes
  | _ => []

def Effect.failures : Effect → List MemError
  | .failed err => [err]
  | _ => []

def Effect.replies : Effect → List (Option (MemError × Address))
  | .reply err => [err]
  | _ => []

/-- The bytes that are written, in order. -/
def written (log : List Effect) : List (Address × UInt8) := log.flatMap Effect.written

def failures (log : List Effect) : List MemError := log.flatMap Effect.failures

def replies (log : List Effect) : List (Option (MemError × Address)) := log.flatMap Effect.replies

/-! ## The command -/

/-- The byte of a pattern of numbers at an index, again and again; without a number it is zero. -/
def patternByte (pattern : List (BitVec 64)) (i : Nat) : UInt8 :=
  UInt8.ofNat (pattern.getD (i % pattern.length) 0).toNat

/-- The bytes of `size` times the pattern, from an address on. -/
def patternAt (pattern : List (BitVec 64)) (addr : Address) (size : Nat) : List (Address × UInt8) :=
  (List.range size).map fun i => (addr + BitVec.ofNat 64 i, patternByte pattern i)

/-- The arguments of a command `fill` with this pattern; the size is a `long`. -/
def fillArgs (header : MemoryCommandArgs) (pattern : List (BitVec 64)) (size : BitVec 64) :
    MemoryCommandArgs :=
  pattern.foldl readMemoryFillArrayCb
    { header with size := (size.setWidth 32).signExtend 64, buf := [], max := 0 }

/-- `command_fill` with a client that does not miss. -/
def commandFill (args : MemoryCommandArgs) (a : Attempt) : Action Unit := do
  let args ← loop growRound args
  attempts (memoryFillCacheClient args) [a]

/-- The context can be written, no cache misses, and the channel is not closed. -/
structure Ready (args : MemoryCommandArgs) (a : Attempt) : Prop where
  context : ∃ ctx, a.id2ctx args.ctxId = some ctx ∧ ctx.exited = false ∧
    (ctx.allStopped = true ∨
      ctx.wrRunning = true ∧ (ctx.wrStop = false ∨ args.dontStop = true))
  inCache : ∀ turn, a.inCache turn ≠ none
  closed  : a.closed = false

/-- The error of the first write that fails. -/
def FirstFailure (a : Attempt) (err : MemError) : Prop :=
  ∃ k errno valid, (∀ j < k, a.inCache j = some .done) ∧ a.inCache k = some (.failed errno valid) ∧
    err = .target errno

/-- The bytes of the pattern have been written, or those before the first failure; the reply has
their number. -/
def Filled (a : Attempt) (expected : List (Address × UInt8)) (log : List Effect) : Prop :=
  (written log = expected ∧ failures log = [] ∧ replies log = [none]) ∨
    ∃ m err, FirstFailure a err ∧ written log = expected.take m ∧ m ≤ expected.length ∧
      failures log = [err] ∧ replies log = [some (err, BitVec.ofNat 64 m)]

/-- What `fill` is for: for any context that can be written and any results of the writes, the
command comes to an end and writes the pattern `size` bytes long. -/
def FillsPattern (header : MemoryCommandArgs) (pattern : List (BitVec 64))
    (size : BitVec 64) : Prop :=
  ∀ a, Ready header a → ∃ n s,
    (commandFill (fillArgs header pattern size) a).run n ⟨0, []⟩ = some (.ok ⟨⟩, s) ∧
      Filled a (patternAt pattern header.addr size.toInt.toNat) s.log

/-! ## Actions -/

section

variable {n turn : Nat} {log : List Effect} {results : Nat → Option Transfer} {addr : Address}
  {bytes : List UInt8} {errno : ℕ+} {valid : Nat} {s : State}

@[simp] theorem run_emit (e : Effect) :
  (emit e).run n s = some (.ok ⟨⟩, { s with log := s.log ++ [e] }) :=
  rfl

/-- What a write leaves in the log. -/
def wroteLog (addr : Address) (bytes : List UInt8) : List Effect :=
  if bytes = [] then [] else [.wrote addr bytes]

theorem written_wroteLog (addr : Address) (bytes : List UInt8) :
    written (wroteLog addr bytes) = bytesAt addr bytes := by
  unfold wroteLog
  split
  · rename_i hNil
    rw [hNil]
    rfl
  · exact List.append_nil _

theorem failures_wroteLog (addr : Address) (bytes : List UInt8) :
    failures (wroteLog addr bytes) = [] := by
  unfold wroteLog
  split
  · rfl
  · rfl

theorem replies_wroteLog (addr : Address) (bytes : List UInt8) :
    replies (wroteLog addr bytes) = [] := by
  unfold wroteLog
  split
  · rfl
  · rfl

theorem run_logWrite :
    (logWrite addr bytes).run n s = some (.ok ⟨⟩,
    { s with log := s.log ++ wroteLog addr bytes }) := by
  unfold logWrite wroteLog
  split
  · simp
  · rfl

theorem writeMem_done (h : results turn = some .done) :
    (writeMem results addr bytes).run n ⟨turn, log⟩ =
      some (.ok none, ⟨turn + 1, log ++ wroteLog addr bytes⟩) := by
  simp [writeMem, nextTurn, h, transfer, run_logWrite]

theorem writeMem_failed (h : results turn = some (.failed errno valid)) :
    (writeMem results addr bytes).run n ⟨turn, log⟩ =
      some (.ok (some (.target errno, min valid bytes.length)),
        ⟨turn + 1, log ++ wroteLog addr (bytes.take valid) ++ [.failed (.target errno)]⟩) := by
  have hTake : bytes.take (min valid bytes.length) = bytes.take valid := by
    rcases Nat.le_total valid bytes.length with hLe | hLe
    · rw [Nat.min_eq_left hLe]
    · rw [Nat.min_eq_right hLe, List.take_length, List.take_of_length_le hLe]
  simp [writeMem, nextTurn, h, transfer, fail, run_logWrite, hTake]

theorem writeMem_miss (h : results turn = none) :
    (writeMem results addr bytes).run n ⟨turn, log⟩ = some (.error .miss, ⟨turn + 1, log⟩) := by
  simp [writeMem, nextTurn, h, transfer]

end

theorem written_append (log log' : List Effect) :
    written (log ++ log') = written log ++ written log' :=
  List.flatMap_append

theorem failures_append (log log' : List Effect) :
    failures (log ++ log') = failures log ++ failures log' := List.flatMap_append

theorem replies_append (log log' : List Effect) :
    replies (log ++ log') = replies log ++ replies log' :=
  List.flatMap_append

/-! ## The pattern, again and again -/

/-- The first bytes of the pattern, again and again. -/
def cycle (pattern : List (BitVec 64)) (k : Nat) : List UInt8 :=
    (List.range k).map (patternByte pattern)

section

variable {pattern : List (BitVec 64)} {k l : Nat} {addr : Address} {bytes bytes' : List UInt8}

@[simp] theorem length_cycle : (cycle pattern k).length = k := by simp [cycle]

theorem cycle_add (h : pattern.length ∣ k) :
    cycle pattern (k + l) = cycle pattern k ++ cycle pattern l := by
  have hByte : ∀ i, patternByte pattern (k + i) = patternByte pattern i := by
    intro i
    have hMod : (k + i) % pattern.length = i % pattern.length := by
      rw [Nat.add_mod, Nat.mod_eq_zero_of_dvd h, Nat.zero_add, Nat.mod_mod]
    rw [patternByte, hMod]
    rfl
  rw [cycle, List.range_add, List.map_append, List.map_map]
  congr 1
  exact List.map_congr_left fun i _ => hByte i

theorem take_cycle (h : l ≤ k) : (cycle pattern k).take l = cycle pattern l := by
  rw [cycle, ← List.map_take, List.take_range, Nat.min_eq_left h]
  rfl

theorem cycle_pattern : cycle pattern pattern.length = pattern.map fun v =>
    UInt8.ofNat v.toNat := by
  apply List.ext_getElem
  · simp
  · intro i hi _
    have hLess : i < pattern.length := by simpa using hi
    simp [cycle, patternByte, Nat.mod_eq_of_lt hLess, hLess]

theorem bytesAt_append : bytesAt addr (bytes ++ bytes') =
    bytesAt addr bytes ++ bytesAt (addr + BitVec.ofNat 64 bytes.length) bytes' := by
  induction bytes generalizing addr with
  | nil => simp [bytesAt]
  | cons b bytes ih =>
    have hNext :
      addr + 1 + BitVec.ofNat 64 bytes.length = addr + BitVec.ofNat 64 (bytes.length + 1) := by
      rw [BitVec.ofNat_add, BitVec.add_assoc, BitVec.add_comm 1]
      rfl
    rw [List.cons_append, bytesAt, bytesAt, ih, hNext]
    rfl

theorem bytesAt_cycle : bytesAt addr (cycle pattern k) = patternAt pattern addr k := by
  induction k with
  | zero => rfl
  | succ k ih =>
    have hLast : cycle pattern (k + 1) = cycle pattern k ++ [patternByte pattern k] := by
      rw [cycle, List.range_succ, List.map_append]
      rfl
    rw [hLast, bytesAt_append, ih, length_cycle, patternAt, patternAt, List.range_succ,
      List.map_append]
    rfl

theorem patternAt_add (h : pattern.length ∣ k) : patternAt pattern addr (k + l) =
    patternAt pattern addr k ++ patternAt pattern (addr + BitVec.ofNat 64 k) l := by
  rw [← bytesAt_cycle, cycle_add h, bytesAt_append, bytesAt_cycle, bytesAt_cycle, length_cycle]

theorem take_patternAt (h : l ≤ k) :
    (patternAt pattern addr k).take l = patternAt pattern addr l := by
  rw [patternAt, ← List.map_take, List.take_range, Nat.min_eq_left h]
  rfl

@[simp] theorem length_patternAt : (patternAt pattern addr k).length = k := by simp [patternAt]

end

/-! ## The buffer -/

/-- The buffer has the pattern a number of times, at least once when it is needed. -/
def Cycled (pattern : List (BitVec 64)) (size : BitVec 64) (buf : List UInt8) : Prop :=
  ∃ k, buf = cycle pattern k ∧ pattern.length ∣ k ∧ (0 < k ∨ size = 0)

theorem foldl_readMemoryFillArrayCb (pattern : List (BitVec 64)) (args : MemoryCommandArgs)
    (hFits : args.buf.length ≤ args.max) :
    ∃ max, pattern.foldl readMemoryFillArrayCb args =
        { args with buf := args.buf ++ pattern.map (fun v => UInt8.ofNat v.toNat), max := max } ∧
      args.buf.length + pattern.length ≤ max := by
  induction pattern generalizing args with
  | nil => exact ⟨args.max, by simp, by simpa using hFits⟩
  | cons v pattern ih =>
    have hNext :
      (readMemoryFillArrayCb args v).buf.length ≤ (readMemoryFillArrayCb args v).max := by
      simp only [readMemoryFillArrayCb, List.length_append, List.length_singleton]
      split
      · split
        · rename_i hZero
          have hPos : 0 < bufSize := by decide
          omega
        · omega
      · omega
    obtain ⟨max, hFold, hLength⟩ := ih _ hNext
    refine ⟨max, ?_, ?_⟩
    · rw [List.foldl_cons, hFold]
      simp [readMemoryFillArrayCb]
    · simp only [readMemoryFillArrayCb, List.length_append, List.length_singleton] at hLength
      rw [List.length_cons]
      omega

/-- The loop ends, with the pattern a number of times in the buffer. -/
theorem growLoop_ends {pattern : List (BitVec 64)} {args : MemoryCommandArgs} {n : Nat} {s : State}
    (hCycled : Cycled pattern args.size args.buf) (hLess : args.max < n) :
    ∃ buf, Cycled pattern args.size buf ∧
      (loop growRound args).run n s = some (.ok { args with buf := buf }, s) := by
  have hEnds : Ends (loop growRound args) n s
      (fun out t => t = s ∧ ∃ buf, Cycled pattern args.size buf ∧ out = { args with buf := buf })
      (fun _ _ => False) := by
    refine Ends.loop
      (I := fun out t => t = s ∧ ∃ buf, Cycled pattern args.size buf ∧ out =
        { args with buf := buf })
      (fun out _ => args.max - out.buf.length) ⟨rfl, args.buf, hCycled, rfl⟩ (by omega) ?_
    rintro out t ⟨rfl, buf, hBuf, rfl⟩
    obtain ⟨k, rfl, hDvd, hPos⟩ := id hBuf
    by_cases hMore : (cycle pattern k).length < args.size.toNat ∧
      (cycle pattern k).length ≤ args.max / 2
    · have hk : 0 < k := by
        rcases hPos with hk | hZero
        · exact hk
        · rw [hZero] at hMore
          exact absurd hMore.1 (Nat.not_lt_zero _)
      have hSome : cycle pattern k ≠ [] := by
        intro hNil
        have hLength := congrArg List.length hNil
        rw [length_cycle] at hLength
        exact absurd hLength (Nat.ne_of_gt hk)
      rw [length_cycle] at hMore
      have hTwice : Cycled pattern args.size (cycle pattern k ++ cycle pattern k) :=
        ⟨k + k, (cycle_add hDvd).symm, Nat.dvd_add hDvd hDvd, .inl (by omega)⟩
      have hRound : (growRound { args with buf := cycle pattern k }).run n t =
          some (.ok (.inl { args with buf := cycle pattern k ++ cycle pattern k }), t) := by
        simp [growRound, hMore.1, hMore.2, hSome]
      refine ends_again hRound ⟨⟨rfl, _, hTwice, rfl⟩, ?_⟩
      simp
      omega
    · refine ends_leave ?_ ⟨rfl, _, hBuf, rfl⟩
      rw [growRound, if_neg hMore]
      rfl
  obtain ⟨r, t, hRun, hOk, hError⟩ := hEnds
  rcases r with e | out
  · exact absurd (hError e rfl) not_false
  · obtain ⟨rfl, buf, hBuf, rfl⟩ := hOk out rfl
    exact ⟨buf, hBuf, hRun⟩

/-! ## The loop over the memory -/

section

variable {a : Attempt} {buf : List UInt8} {addr0 size : BitVec 64} {v : FillState} {n turn : Nat}
  {log : List Effect} {errno : ℕ+} {valid d : Nat} {pattern : List (BitVec 64)}

theorem fillRound_done (hMore : v.err = none ∧ v.addr - addr0 < size)
    (hResult : a.inCache turn = some .done) :
    (fillRound a buf addr0 size v).run n ⟨turn, log⟩ =
      some (.ok (.inl ⟨v.addr + BitVec.ofNat 64 (fillChunk buf addr0 size v.addr), none⟩),
        ⟨turn + 1, log ++ wroteLog v.addr (buf.take (fillChunk buf addr0 size v.addr))⟩) := by
  rw [fillRound, if_pos hMore, run_bind_ok (writeMem_done hResult)]
  rfl

theorem fillRound_failed (hMore : v.err = none ∧ v.addr - addr0 < size)
    (hResult : a.inCache turn = some (.failed errno valid)) :
    (fillRound a buf addr0 size v).run n ⟨turn, log⟩ =
      some (.ok (.inl ⟨v.addr, some (.target errno,
          min valid (buf.take (fillChunk buf addr0 size v.addr)).length)⟩),
        ⟨turn + 1, log ++
          wroteLog v.addr ((buf.take (fillChunk buf addr0 size v.addr)).take valid) ++
          [.failed (.target errno)]⟩) := by
  rw [fillRound, if_pos hMore, run_bind_ok (writeMem_failed hResult)]
  rfl

theorem fillRound_miss (hMore : v.err = none ∧ v.addr - addr0 < size)
    (hResult : a.inCache turn = none) :
    (fillRound a buf addr0 size v).run n ⟨turn, log⟩ = some (.error .miss, ⟨turn + 1, log⟩) := by
  rw [fillRound, if_pos hMore, run_bind_error (writeMem_miss hResult)]

theorem fillRound_end {s : State} (hEnd : ¬ (v.err = none ∧ v.addr - addr0 < size)) :
    (fillRound a buf addr0 size v).run n s = some (.ok (.inr v), s) := by
  rw [fillRound, if_neg hEnd]
  rfl

theorem ofNat_lt_iff (hd : d ≤ size.toNat) : BitVec.ofNat 64 d < size ↔ d < size.toNat := by
  rw [BitVec.lt_def, BitVec.toNat_ofNat, Nat.mod_eq_of_lt (by omega)]

theorem add_sub_self (addr : Address) (d : Nat) :
    addr + BitVec.ofNat 64 d - addr = BitVec.ofNat 64 d := by
  rw [BitVec.add_comm, BitVec.add_sub_cancel]

theorem rest_toNat (hd : d ≤ size.toNat) :
    (addr0 + size - (addr0 + BitVec.ofNat 64 d)).toNat = size.toNat - d := by
  have hRest : addr0 + size - (addr0 + BitVec.ofNat 64 d) = size - BitVec.ofNat 64 d := by
    rw [BitVec.add_comm addr0 size, BitVec.add_comm addr0]
    apply BitVec.eq_of_toNat_eq
    simp only [BitVec.toNat_sub, BitVec.toNat_add]
    omega
  rw [hRest, BitVec.toNat_sub, BitVec.toNat_ofNat]
  omega

/-- A chunk is what the buffer has, or what is left. -/
theorem fillChunk_eq (hd : d ≤ size.toNat) (hSmall : size.toNat < 2 ^ 32) :
    fillChunk buf addr0 size (addr0 + BitVec.ofNat 64 d) = min buf.length (size.toNat - d) := by
  have hMod : (size.toNat - d) % 2 ^ 32 = size.toNat - d := Nat.mod_eq_of_lt (by omega)
  rw [fillChunk, BitVec.toNat_setWidth, rest_toNat hd, hMod]
  split
  · omega
  · omega

theorem fillChunk_le (hd : d ≤ size.toNat) :
    fillChunk buf addr0 size (addr0 + BitVec.ofNat 64 d) ≤ (size.toNat - d) % 2 ^ 32 := by
  rw [fillChunk, BitVec.toNat_setWidth, rest_toNat hd]
  split
  · exact Nat.le_of_lt ‹_›
  · exact Nat.le_refl _

/-- What has been written and has failed when the loop is at `v`, after a number of writes. -/
def Reached (a : Attempt) (pattern : List (BitVec 64)) (addr0 : Address) (size : Nat)
    (v : FillState)
    (turn : Nat) (work : List Effect) : Prop :=
  replies work = [] ∧ ∃ d ≤ size, v.addr = addr0 + BitVec.ofNat 64 d ∧
    match v.err with
    | none => written work = patternAt pattern addr0 d ∧ failures work = [] ∧
        (pattern.length ∣ d ∨ d = size) ∧ ∀ j < turn, a.inCache j = some .done
    | some (e, valid) => d + valid ≤ size ∧ written work = patternAt pattern addr0 (d + valid) ∧
        failures work = [e] ∧ FirstFailure a e

/-- The loop ends, with the bytes of the pattern before the first failure. -/
theorem fillLoop_ends (hSmall : size.toNat < 2 ^ 32) (hCycled : Cycled pattern size buf)
    (hCache : ∀ turn, a.inCache turn ≠ none) (hLess : size.toNat + 1 < n) :
    Ends (loop (fillRound a buf addr0 size) ⟨addr0, none⟩) n ⟨0, log⟩
      (fun v t => ∃ work, t.log = log ++ work ∧ Reached a pattern addr0 size.toNat v t.turn work ∧
        (v.err = none → written work = patternAt pattern addr0 size.toNat)) (fun _ _ => False) := by
  -- a round takes whole cycles of the pattern, so that its offset stays divisible
  obtain ⟨k, rfl, hDvd, hPos⟩ := hCycled
  refine Ends.loop
    (I := fun v t => ∃ work, t.log = log ++ work ∧ Reached a pattern addr0 size.toNat v t.turn work)
    (fun v _ => size.toNat - (v.addr - addr0).toNat + (if v.err = none then 1 else 0))
    ⟨[], (List.append_nil _).symm, rfl, 0, Nat.zero_le _, (BitVec.add_zero _).symm, rfl, rfl,
      .inl (Nat.dvd_zero _), fun _ hj => absurd hj (Nat.not_lt_zero _)⟩ ?_ ?_
  · simp
    omega
  · rintro ⟨addr, err⟩ ⟨turn, log'⟩ ⟨work, rfl, hReplies, d, hd, hAddr, hCase⟩
    obtain rfl : addr = addr0 + BitVec.ofNat 64 d := hAddr
    have hOffset : (addr0 + BitVec.ofNat 64 d - addr0).toNat = d := by
      rw [add_sub_self, BitVec.toNat_ofNat, Nat.mod_eq_of_lt (by omega)]
    by_cases hMore : err = none ∧ addr0 + BitVec.ofNat 64 d - addr0 < size
    · obtain ⟨rfl, hIn⟩ := id hMore
      rw [add_sub_self, ofNat_lt_iff hd] at hIn
      obtain ⟨hWritten, hFailures, hAligned, hBefore⟩ := hCase
      have hDvdAt : pattern.length ∣ d := hAligned.resolve_right (by omega)
      have hk : 0 < k := hPos.resolve_right fun hZero => by
        rw [hZero] at hIn
        exact absurd hIn (Nat.not_lt_zero _)
      have hChunk : fillChunk (cycle pattern k) addr0 size (addr0 + BitVec.ofNat 64 d) = _ :=
        fillChunk_eq hd hSmall
      rw [length_cycle] at hChunk
      have hTake : (cycle pattern k).take (min k (size.toNat - d)) =
          cycle pattern (min k (size.toNat - d)) := take_cycle (Nat.min_le_left _ _)
      have hBytes : ∀ w ≤ min k (size.toNat - d),
        written (work ++ wroteLog (addr0 + BitVec.ofNat 64 d)
          (cycle pattern w)) = patternAt pattern addr0 (d + w) := by
        intro w _
        rw [written_append, hWritten, written_wroteLog, bytesAt_cycle, ← patternAt_add hDvdAt]
      rcases hResult : a.inCache turn with - | result
      · exact absurd hResult (hCache turn)
      · rcases result with - | ⟨errno, valid⟩
        · -- all of the chunk is written
          refine ends_again (fillRound_done hMore hResult)
            ⟨⟨work ++ _, List.append_assoc _ _ _, ?_, ?_⟩, ?_⟩
          · rw [replies_append, hReplies, replies_wroteLog]
            rfl
          · refine ⟨d + min k (size.toNat - d), by omega, ?_, ?_, ?_, ?_, ?_⟩
            · rw [hChunk, BitVec.ofNat_add, BitVec.add_assoc]
            · rw [hChunk, hTake]
              exact hBytes _ (Nat.le_refl _)
            · rw [failures_append, hFailures, failures_wroteLog]
              rfl
            · rcases Nat.le_total k (size.toNat - d) with hLe | hLe
              · rw [Nat.min_eq_left hLe]
                exact .inl (Nat.dvd_add hDvdAt hDvd)
              · rw [Nat.min_eq_right hLe]
                exact .inr (by omega)
            · intro j hj
              rcases Nat.lt_succ_iff_lt_or_eq.1 hj with hj | rfl
              · exact hBefore j hj
              · exact hResult
          · have hNext : (addr0 + BitVec.ofNat 64 d + BitVec.ofNat 64 (min k (size.toNat - d)) -
                addr0).toNat = d + min k (size.toNat - d) := by
              have hBound := size.isLt
              rw [BitVec.add_assoc, ← BitVec.ofNat_add, add_sub_self, BitVec.toNat_ofNat,
                Nat.mod_eq_of_lt (by omega)]
            simp only [hChunk, hNext, hOffset]
            omega
        · -- some of it is
          have hShort : (cycle pattern (min k (size.toNat - d))).take valid =
              cycle pattern (min valid (min k (size.toNat - d))) := by
            rcases Nat.le_total valid (min k (size.toNat - d)) with hLe | hLe
            · rw [take_cycle hLe, Nat.min_eq_left hLe]
            · rw [List.take_of_length_le (by rw [length_cycle]; exact hLe), Nat.min_eq_right hLe]
          have hRun :
            (fillRound a (cycle pattern k) addr0 size ⟨addr0 + BitVec.ofNat 64 d, none⟩).run n
              ⟨turn, log ++ work⟩ = _ := fillRound_failed hMore hResult
          simp only [hChunk, hTake, hShort, length_cycle, List.append_assoc] at hRun
          refine ends_again hRun ⟨⟨work ++ (_ ++ [.failed (.target errno)]), rfl, ?_, ?_⟩, ?_⟩
          · rw [replies_append, replies_append, hReplies, replies_wroteLog]
            rfl
          · refine ⟨d, hd, rfl, by omega, ?_, ?_, turn, errno, valid, hBefore, hResult, rfl⟩
            · rw [← List.append_assoc, written_append, hBytes _ (Nat.min_le_right _ _)]
              exact List.append_nil _
            · rw [failures_append, failures_append, hFailures, failures_wroteLog]
              rfl
          · simp
    · refine ends_leave (fillRound_end hMore) ⟨work, rfl, ⟨hReplies, d, hd, rfl, hCase⟩,
        fun hNone => ?_⟩
      have hNone : err = none := hNone
      subst hNone
      rw [add_sub_self, ofNat_lt_iff hd] at hMore
      obtain rfl : d = size.toNat := by
        by_contra hNe
        exact hMore ⟨rfl, by omega⟩
      exact hCase.1

/-- A size that an `unsigned` does not hold leaves a chunk of no bytes again and again. -/
theorem fillLoop_never (hAll : ∀ turn, a.inCache turn = some .done) (hLarge : 2 ^ 32 ≤ size.toNat)
    (s : State) : Never (loop (fillRound a buf addr0 size) ⟨addr0, none⟩) s := by
  refine Never.loop
    (I := fun v _ => v.err = none ∧ ∃ d ≤ size.toNat, v.addr = addr0 + BitVec.ofNat 64 d ∧
      (size.toNat - d) / 2 ^ 32 = size.toNat / 2 ^ 32)
    ⟨rfl, 0, Nat.zero_le _, (BitVec.add_zero _).symm, rfl⟩ ?_
  rintro ⟨addr, err⟩ ⟨turn, log⟩ ⟨rfl, d, hd, rfl, hRest⟩
  right
  have hMore : (none : Error) = none ∧ addr0 + BitVec.ofNat 64 d - addr0 < size := by
    rw [add_sub_self, ofNat_lt_iff hd]
    exact ⟨rfl, by omega⟩
  have hChunk := @fillChunk_le buf addr0 size d hd
  refine ⟨0, _, _, fillRound_done hMore (hAll turn), rfl,
    d + fillChunk buf addr0 size (addr0 + BitVec.ofNat 64 d), by omega, ?_, by omega⟩
  rw [BitVec.ofNat_add, BitVec.add_assoc]

end

/-! ## The command -/

section

variable {args : MemoryCommandArgs} {a : Attempt} {pattern : List (BitVec 64)} {n : Nat} {s : State}

theorem run_checkContext {stop running : Context → Bool} {dontStop needed : Bool} {ctx : Context}
    (hExited : ctx.exited = false)
    (hOk : ctx.allStopped = true ∨ running ctx = true ∧ (stop ctx = false ∨ dontStop = true)) :
    (checkContext dontStop needed stop running (some ctx)).run n s = some (.ok none, s) := by
  have hStop : ¬ (needed = true ∧ dontStop = false ∧ stop ctx = true ∧ ctx.allStopped = false) := by
    rintro ⟨-, hDont, hStop, hAll⟩
    rcases hOk with hOk | ⟨-, hOk | hOk⟩
    · rw [hOk] at hAll
      cases hAll
    · rw [hOk] at hStop
      cases hStop
    · rw [hOk] at hDont
      cases hDont
  have hRunning : ¬ (needed = true ∧ running ctx = false ∧ ctx.allStopped = false) := by
    rintro ⟨-, hRunning, hAll⟩
    rcases hOk with hOk | ⟨hOk, -⟩
    · rw [hOk] at hAll
      cases hAll
    · rw [hOk] at hRunning
      cases hRunning
  unfold checkContext contextCheck
  dsimp only
  rw [hExited, if_neg Bool.false_ne_true, if_neg hStop, if_neg hRunning]
  rfl

/-- The error of a reply, with the number of bytes. -/
def replyOf (err : Error) (addr0 addr : Address) : Option (MemError × Address) :=
  err.map fun (e, valid) => (e, ((addr - addr0).setWidth 32).signExtend 64 + BitVec.ofNat 64 valid)

theorem run_sendReply (err : Error) (addr0 addr : Address) : (sendReply err addr0 addr).run n s =
    some (.ok ⟨⟩, { s with log := s.log ++ [.reply (replyOf err addr0 addr)] }) := rfl

theorem run_release (allocated : Bool) :
    (release allocated).run n s = some (.ok ⟨⟩,
      { s with log := s.log ++ ((if allocated then [.free] else []) ++ [.unlock]) }) := by
  rcases allocated with - | -
  · rfl
  · simp [release]

/-- The client comes to an end, with the bytes before the first failure written. -/
theorem fillClient_run (hReady : Ready args a) (hSmall : args.size.toNat < 2 ^ 31)
    (hCycled : Cycled pattern args.size args.buf) (hLess : args.size.toNat + 1 < n) :
    ∃ s, (memoryFillCacheClient args a).run n ⟨0, []⟩ = some (.ok ⟨⟩, s) ∧
      Filled a (patternAt pattern args.addr args.size.toNat) s.log := by
  obtain ⟨ctx, hCtx, hExited, hOk⟩ := hReady.context
  obtain ⟨r, ⟨turn, log⟩, hLoop, hDone, hError⟩ :=
    @fillLoop_ends a args.buf args.addr args.size n [] pattern (by omega) hCycled
      hReady.inCache hLess
  rcases r with e | v
  · exact absurd (hError e rfl) not_false
  · obtain ⟨work, hLog, hReached, hAll⟩ := hDone v rfl
    obtain rfl : work = log := hLog.symm
    have hRun : (memoryFillCacheClient args a).run n ⟨0, []⟩ = some (.ok ⟨⟩, ⟨turn, work ++
        ([Effect.memoryChanged (some ctx.id) args.addr args.size.toNat,
          .reply (replyOf v.err args.addr v.addr)] ++
          ((if args.max ≠ 0 then [Effect.free] else []) ++ [Effect.unlock]))⟩) := by
      unfold memoryFillCacheClient
      rw [hCtx, run_bind_ok (run_checkContext hExited hOk), run_bind_ok hLoop]
      by_cases hMax : args.max = 0
      · simp [sendEventMemoryChanged, hReady.closed, run_sendReply, run_release, hMax]
      · simp [sendEventMemoryChanged, hReady.closed, run_sendReply, run_release, hMax]
    refine ⟨_, hRun, ?_⟩
    have hTail :
      ∀ reply, written
      ([Effect.memoryChanged (some ctx.id) args.addr args.size.toNat, .reply reply] ++
        ((if args.max ≠ 0 then [Effect.free] else []) ++ [Effect.unlock])) = [] ∧
        failures ([Effect.memoryChanged (some ctx.id) args.addr args.size.toNat, .reply reply] ++
          ((if args.max ≠ 0 then [Effect.free] else []) ++ [Effect.unlock])) = [] ∧
        replies ([Effect.memoryChanged (some ctx.id) args.addr args.size.toNat, .reply reply] ++
          ((if args.max ≠ 0 then [Effect.free] else []) ++ [Effect.unlock])) = [reply] := by
      intro reply
      split
      · exact ⟨rfl, rfl, rfl⟩
      · exact ⟨rfl, rfl, rfl⟩
    obtain ⟨hReplies, d, hd, hAddr, hCase⟩ := hReached
    rw [Filled, written_append, failures_append, replies_append, hReplies, (hTail _).1,
      (hTail _).2.1,
      (hTail _).2.2, List.append_nil, List.append_nil, List.nil_append]
    rcases v with ⟨addr, - | ⟨e, valid⟩⟩
    · left
      exact ⟨hAll rfl, hCase.2.1, rfl⟩
    · right
      obtain ⟨hBound, hWritten, hFailures, hFirst⟩ := hCase
      refine ⟨d + valid, e, hFirst, ?_, ?_, hFailures, ?_⟩
      · rw [hWritten, take_patternAt hBound]
      · rw [length_patternAt]
        exact hBound
      · have hNumber : ((addr - args.addr).setWidth 32).signExtend 64 = BitVec.ofNat 64 d := by
          obtain rfl : addr = args.addr + BitVec.ofNat 64 d := hAddr
          have hMod : d % 2 ^ 32 = d := Nat.mod_eq_of_lt (by omega)
          have hMsb : (BitVec.setWidth 32 (BitVec.ofNat 64 d)).msb = false := by
            rw [BitVec.msb_eq_decide]
            simp
            omega
          rw [add_sub_self, BitVec.signExtend_eq_setWidth_of_msb_false hMsb]
          apply BitVec.eq_of_toNat_eq
          simp
          omega
        rw [BitVec.ofNat_add, ← hNumber]
        rfl

theorem fillArgs_cycled (header : MemoryCommandArgs) (pattern : List (BitVec 64)) (size : BitVec 64)
    (hSome : pattern ≠ [] ∨ (size.setWidth 32).signExtend 64 = 0) :
    Cycled pattern (fillArgs header pattern size).size (fillArgs header pattern size).buf := by
  obtain ⟨max, hFold, -⟩ := foldl_readMemoryFillArrayCb pattern
    { header with size := (size.setWidth 32).signExtend 64, buf := [], max := 0 } (Nat.le_refl _)
  rw [fillArgs, hFold]
  refine ⟨pattern.length, ?_, Nat.dvd_refl _, ?_⟩
  · rw [cycle_pattern]
    rfl
  · exact hSome.imp_left List.length_pos_of_ne_nil

theorem fillArgs_same (header : MemoryCommandArgs) (pattern : List (BitVec 64)) (size : BitVec 64) :
    ∃ buf max, fillArgs header pattern size =
      { header with size := (size.setWidth 32).signExtend 64, buf := buf, max := max } := by
  obtain ⟨max, hFold, -⟩ := foldl_readMemoryFillArrayCb pattern
    { header with size := (size.setWidth 32).signExtend 64, buf := [], max := 0 } (Nat.le_refl _)
  exact ⟨_, max, hFold⟩

/-- The command ends when the size, an `int`, is not negative. -/
theorem commandFill_run (hReady : Ready args a) (hSmall : args.size.toNat < 2 ^ 31)
    (hCycled : Cycled pattern args.size args.buf) :
    ∃ n s, (commandFill args a).run n ⟨0, []⟩ = some (.ok ⟨⟩, s) ∧
      Filled a (patternAt pattern args.addr args.size.toNat) s.log := by
  obtain ⟨buf, hBuf, hGrow⟩ := growLoop_ends (n := args.size.toNat + args.max + 2) (s := ⟨0, []⟩)
    hCycled (by omega)
  have hSame : Ready { args with buf := buf } a := ⟨hReady.context, hReady.inCache, hReady.closed⟩
  obtain ⟨s, hRun, hFilled⟩ :=
    fillClient_run (n := args.size.toNat + args.max + 2) hSame hSmall hBuf (by
    show args.size.toNat + 1 < _
    omega)
  refine ⟨args.size.toNat + args.max + 2, s, ?_, hFilled⟩
  rw [commandFill, run_bind_ok hGrow, attempts]
  exact run_catching_ok hRun

/-- The command never ends when the size is larger and all writes are done. -/
theorem commandFill_never (hReady : Ready args a) (hAll : ∀ turn, a.inCache turn = some .done)
    (hLarge : 2 ^ 32 ≤ args.size.toNat) (hCycled : Cycled pattern args.size args.buf) :
    Never (commandFill args a) ⟨0, []⟩ := by
  obtain ⟨buf, -, hGrow⟩ := growLoop_ends (n := args.max + 1) (s := ⟨0, []⟩) hCycled (by omega)
  obtain ⟨ctx, hCtx, hExited, hOk⟩ := hReady.context
  refine Never.bind hGrow (Never.catching (Never.bind (n := 0) rfl ?_))
  have hCheck : (checkContext args.dontStop (args.size ≠ 0) (·.wrStop) (·.wrRunning)
      (a.id2ctx args.ctxId)).run 0 ⟨0, []⟩ = some (.ok none, ⟨0, []⟩) := by
    rw [hCtx]
    exact run_checkContext hExited hOk
  exact Never.bind hCheck (Never.bind_left (fillLoop_never hAll hLarge _))

/-- Without a pattern the first byte is stored where there is no buffer. -/
theorem commandFill_fault (hSize : args.size ≠ 0) (hBuf : args.buf = []) (hMax : args.max = 0) :
    (commandFill args a).run 1 s = some (.error .fault, s) := by
  have hPos : 0 < args.size.toNat := by
    rw [Nat.pos_iff_ne_zero]
    intro hZero
    exact hSize (BitVec.eq_of_toNat_eq hZero)
  have hRound : (growRound args).run 1 s = some (.error .fault, s) := by
    simp [growRound, hBuf, hMax, hPos]
  exact run_bind_error (loopFrom_error hRound)

end

/-! ## The patterns and sizes -/

/-- A context that can be written, where all writes are done. -/
def writable : Attempt :=
  ⟨fun id => some ⟨id, false, false, false, false, false, true⟩, fun _ => some .done,
    fun _ => .done,
    false⟩

theorem ready_writable (args : MemoryCommandArgs) : Ready args writable :=
  ⟨⟨_, rfl, rfl, .inl rfl⟩, fun _ h => Option.some_ne_none _ h, rfl⟩

section

variable {size : BitVec 64}

theorem toNat_size (h : 0 ≤ (size.setWidth 32).toInt) :
    (((size.setWidth 32).signExtend 64).toNat : Int) = (size.setWidth 32).toInt ∧
      ((size.setWidth 32).signExtend 64).toNat < 2 ^ 31 := by
  have hMsb : (size.setWidth 32).msb = false := BitVec.msb_eq_false_iff_two_mul_lt.2 (by
    rw [BitVec.toInt_eq_toNat_cond] at h
    split at h
    · assumption
    · omega)
  have hTwice := BitVec.msb_eq_false_iff_two_mul_lt.1 hMsb
  rw [BitVec.signExtend_eq_setWidth_of_msb_false hMsb, BitVec.toInt_eq_toNat_of_msb hMsb,
    BitVec.toNat_setWidth, Nat.mod_eq_of_lt (by omega)]
  exact ⟨rfl, by omega⟩

theorem toNat_negative (h : (size.setWidth 32).toInt < 0) :
    2 ^ 32 ≤ ((size.setWidth 32).signExtend 64).toNat := by
  have hInt := BitVec.toInt_signExtend_of_le (x := size.setWidth 32) (v := 64) (by decide)
  have hLow := BitVec.le_toInt (size.setWidth 32)
  rw [BitVec.toInt_eq_toNat_cond] at hInt
  split at hInt
  · omega
  · omega

end

theorem written_writable {expected : List (Address × UInt8)} {log : List Effect}
    (h : Filled writable expected log) : written log = expected := by
  rcases h with ⟨hWritten, -⟩ | ⟨m, err, ⟨k, errno, valid, -, hFailed, -⟩, -⟩
  · exact hWritten
  · cases hFailed

/-- Without a pattern nothing but a size of 0 does. -/
theorem not_fills_nothing (header : MemoryCommandArgs) {size : BitVec 64}
    (hSize : (size.setWidth 32).toInt ≠ 0) : ¬ FillsPattern header [] size := by
  intro hFills
  obtain ⟨n, s, hRun, -⟩ := hFills writable (ready_writable header)
  have hFault : (commandFill (fillArgs header [] size) writable).run 1 ⟨0, []⟩ =
      some (.error .fault, ⟨0, []⟩) := by
    refine commandFill_fault (fun hZero => ?_) rfl rfl
    have hInt := BitVec.toInt_signExtend_of_le (x := size.setWidth 32) (v := 64) (by decide)
    rw [show (size.setWidth 32).signExtend 64 = 0 from hZero] at hInt
    exact hSize hInt.symm
  cases run_unique hRun hFault

/-- `fill` writes the pattern exactly when the size is kept as an `int`, or is negative and becomes
0, and there is a pattern, or nothing to write. -/
theorem fill_iff (header : MemoryCommandArgs) (pattern : List (BitVec 64)) (size : BitVec 64) :
    FillsPattern header pattern size ↔
      (size.setWidth 32).toInt = size.toInt.toNat ∧
        (pattern ≠ [] ∨ (size.setWidth 32).toInt = 0) := by
  obtain ⟨buf, max, hArgs⟩ := fillArgs_same header pattern size
  have hReady : ∀ a, Ready header a → Ready (fillArgs header pattern size) a := by
    intro a h
    rw [hArgs]
    exact ⟨h.context, h.inCache, h.closed⟩
  have hAddr : (fillArgs header pattern size).addr = header.addr := by rw [hArgs]
  have hSize : (fillArgs header pattern size).size = (size.setWidth 32).signExtend 64 := by
    rw [hArgs]
  have hEnds : 0 ≤ (size.setWidth 32).toInt → (pattern ≠ [] ∨ (size.setWidth 32).toInt = 0) → ∀ a,
      Ready header a → ∃ n s, (commandFill (fillArgs header pattern size) a).run n ⟨0, []⟩ =
        some (.ok ⟨⟩, s) ∧
          Filled a (patternAt pattern header.addr (size.setWidth 32).toInt.toNat) s.log := by
    intro hSign hSome a h
    obtain ⟨hNat, hSmall⟩ := toNat_size hSign
    have hCycled := fillArgs_cycled header pattern size (hSome.imp_right fun hZero => by
      apply BitVec.eq_of_toNat_eq
      rw [hZero] at hNat
      exact Int.ofNat_eq_zero.1 hNat)
    have hRun := commandFill_run (hReady a h) (by rw [hSize]; exact hSmall) hCycled
    rwa [hAddr, hSize,
      show ((size.setWidth 32).signExtend 64).toNat = (size.setWidth 32).toInt.toNat by
      rw [← hNat]; rfl] at hRun
  constructor
  · intro hFills
    obtain ⟨n, s, hRun, hFilled⟩ := hFills writable (ready_writable header)
    have hSome : pattern ≠ [] ∨ (size.setWidth 32).toInt = 0 := by
      by_contra hNot
      rw [not_or, not_not] at hNot
      obtain ⟨rfl, hZero⟩ := hNot
      exact not_fills_nothing header hZero hFills
    have hSign : 0 ≤ (size.setWidth 32).toInt := by
      by_contra hNot
      have hPattern : pattern ≠ [] := hSome.resolve_right fun hZero => hNot (le_of_eq hZero.symm)
      have hNever := commandFill_never (hReady _ (ready_writable header)) (fun _ => rfl)
        (by rw [hSize]; exact toNat_negative (not_le.1 hNot))
        (fillArgs_cycled header pattern size (.inl hPattern))
      rw [hNever n] at hRun
      cases hRun
    obtain ⟨n', s', hRun', hFilled'⟩ := hEnds hSign hSome writable (ready_writable header)
    obtain ⟨-, rfl⟩ := Prod.mk.inj (run_unique hRun hRun')
    have hLength :=
      congrArg List.length ((written_writable hFilled).symm.trans (written_writable hFilled'))
    rw [length_patternAt, length_patternAt] at hLength
    exact ⟨by omega, hSome⟩
  · rintro ⟨hKept, hSome⟩ a h
    have hRun := hEnds (by omega) hSome a h
    rwa [hKept, Int.toNat_natCast] at hRun

/-- Filling one byte with an empty pattern stores where there is no buffer. -/
theorem not_fills_one : ¬ FillsPattern ⟨ascii "P1", 0x1000, 0, 0, 0, [], 0⟩ [] 1 :=
  not_fills_nothing _ (by decide)

end TcfAgent.MemoryService
