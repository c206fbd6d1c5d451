import TcfAgent.Services.StreamWrite

/-!
# What a stream carries

`virtual_stream_write` and `virtual_stream_get_data` one after the other, in any order: a client
writes to a stream, and the owner takes the data out. What is on its way is in the buffer, or behind
it in the write requests of the client.

Main results

* `transfer_kept` — what the owner gets, and what is on its way, is what has been written
-/

namespace TcfAgent.StreamCommands

open TcfAgent.Lib TcfAgent.JsonText TcfAgent.JsonBuffers TcfAgent.StreamsService

/-- A `write` command, with what follows it, or a call of the owner. -/
inductive Use where
  | write (token : List UInt8) (encoding : Encoding) (payload : List UInt8) (rest : Text)
  | take (bufSize : Nat)

/-- What the owner gets. The client declares the size of what it sends. -/
def Remote.use (fresh : Nat → UInt8) (c : Nat) (r : Remote) :
    Use → Except Trap (List UInt8 × Remote)
  | .write token encoding payload rest => do
    let (_, r) ← virtualStreamWrite r c token payload.length (payloadText encoding payload ++ rest)
    return ([], r)
  | .take bufSize => do
    let (data, _, r) ← getData fresh r bufSize
    return (data, r)

def Remote.uses (fresh : Nat → UInt8) (c : Nat) (r : Remote) :
    List Use → Except Trap (List UInt8 × Remote)
  | [] => .ok ([], r)
  | u :: us => do
    let (data, r) ← r.use fresh c u
    let (more, r) ← r.uses fresh c us
    return (data ++ more, r)

def Use.written : Use → List UInt8
  | .write _ _ payload _ => payload
  | .take _ => []

/-- What has been written: what the stream has accepted, and what waits behind it. -/
def carried (c : Nat) (r : Remote) : List UInt8 :=
  r.base.accepted ++ (r.writes c).flatMap fun w => w.data.drop w.offs

def underway (c : Nat) (r : Remote) : List UInt8 := (carried c r).drop (taken r)

/-- One client writes to an open stream, and declares the right sizes. -/
structure Sole (c : Nat) (r : Remote) : Prop where
  ready : Writable r
  found : writeError r c = none
  alone : ∀ k, k ≠ c → r.writes k = []
  whole : ∀ w ∈ r.writes c, w.eos = false ∧ w.size = w.data.length

/-- Bytes of the requests go to the buffer. -/
structure Moves (c : Nat) (r r' : Remote) : Prop where
  sole    : Sole c r'
  carried : carried c r' = carried c r
  taken   : taken r' = taken r
  more    : r.base.accepted.length ≤ r'.base.accepted.length

section

variable {r r' : Remote} {s : VirtualStream} {c len : Nat}

theorem Sole.of_fixed (h : Sole c r) (hRing : RingOk r'.base) (hCounted : Counted r'.base)
    (hFixed : fixed r' = fixed r) :
    Sole c r' := by
  obtain ⟨hWrites, hAccess, hClients, hMagic, hEos, -⟩ : _ ∧ _ ∧ _ ∧ _ ∧ _ ∧ _ := by
    simpa [fixed] using hFixed
  refine ⟨⟨hRing, hCounted, hAccess.trans h.ready.access, hMagic.trans h.ready.magic,
    hEos.trans h.ready.open_⟩, ?_,
    hWrites ▸ h.alone, hWrites ▸ h.whole⟩
  have hFound := h.found
  unfold writeError VirtualStream.findClient at hFound ⊢
  rwa [hClients, hAccess]

theorem Sole.good (h : Sole c r) : Good r :=
  ⟨fun hRead => absurd hRead (ne_remoteRead h.ready.access), h.ready.ring, h.ready.counted,
    fun _ => ⟨h.ready.access, h.ready.magic⟩⟩

theorem taken_of_fixed (h : fixed r' = fixed r) : taken r' = taken r := by
  simp only [fixed, Prod.mk.injEq] at h
  exact h.2.2.2.2.2

theorem writes_setWrites (ws : List WriteRequest) :
    (r.setWrites c ws).writes c = ws := Function.update_self _ _ _

theorem Sole.setWrites (h : Sole c r) {ws : List WriteRequest}
    (hWhole : ∀ w ∈ ws, w.eos = false ∧ w.size = w.data.length) : Sole c (r.setWrites c ws) :=
  ⟨{ h.ready with }, h.found, fun k hk => (Function.update_of_ne hk _ _).trans (h.alone k hk),
    by rwa [writes_setWrites]⟩

theorem Sole.reply (h : Sole c r) (token : List UInt8) (error : Option CommandError) :
    Sole c (r.reply c token error) :=
  ⟨{ h.ready with }, h.found, h.alone, h.whole⟩

/-- A `write` command goes behind everything that has been written before. -/
theorem write_kept (h : Sole c r) (token : List UInt8) (encoding : Encoding) {payload : List UInt8}
    (rest : Text)
    (hSmall : (carried c r).length + payload.length < 2 ^ 64) :
    ∃ r', virtualStreamWrite r c token payload.length (payloadText encoding payload ++ rest) =
        .ok (.ended none rest, r') ∧
      Sole c r' ∧ carried c r' = carried c r ++ payload ∧ taken r' = taken r := by
  rw [carried, List.length_append] at hSmall
  obtain ⟨inp, hStart, -, hText, hHolds⟩ := @start_payload payload encoding rest (by omega)
  have hFuel : payload.length < inp.sizeStart + inp.text.length + 1 := by omega
  -- what goes to the stream at once, and what is left to a block
  have hJob :
    ∃ job sent left,
    writeLoop payload.length (inp.sizeStart + inp.text.length + 1) (firstJob r c inp) =
        .ok (false, job) ∧ job.err = none ∧ Holds job.inp [] rest ∧ fixed job.stream = fixed r ∧
      job.stream.base.accepted = r.base.accepted ++ sent ∧ payload = sent ++ left ∧
        (r.writes c ≠ [] → sent = []) ∧
      (left = [] ∧ job.data = none ∨ job.data = some left ∧
        blockSize payload.length job.offs = left.length) := by
    unfold firstJob
    rw [h.found]
    by_cases hPending : r.writes c = []
    · rw [if_neg fun hBoth => hBoth.2 hPending]
      by_cases hFits : payload.length ≤ room r
      · obtain ⟨job, hLoop, hErr, hData, hFixed, hEnd, hAll⟩ :=
          @writeLoop_fits ⟨none, 0, none, inp, r⟩ _ rest
          payload.length _ rfl rfl h.ready hHolds (by dsimp only; omega) hFuel hFits
        exact ⟨job, payload, [], hLoop, hErr, hEnd, hFixed, hAll, (List.append_nil _).symm,
          absurd hPending,
          .inl ⟨rfl, hData⟩⟩
      · have hFull :=
          @writeLoop_full ⟨none, 0, none, inp, r⟩ _ rest payload.length _ rfl rfl h.ready hHolds
          (by dsimp only; omega) hFuel (by dsimp only; omega)
        have hBlock : blockSize payload.length (room r) = (payload.drop (room r)).length := by
          rw [blockSize_le (by omega) (by omega), List.length_drop]
        have hRead : readUpTo (room r) payload.length ≤ payload.length := Nat.min_le_right _ _
        dsimp only at hFull
        rw [Nat.zero_add, hBlock, List.length_drop, if_neg (by omega)] at hFull
        obtain ⟨job, hLoop, hErr, hOffs, hData, hFixed, -, hEnd, hAll⟩ := hFull
        rw [hOffs, hBlock, List.take_length] at hData
        rw [hOffs, hBlock, List.drop_length] at hEnd
        exact ⟨job, _, _, hLoop, hErr, hEnd, hFixed, hAll, (List.take_append_drop _ _).symm,
          absurd hPending,
          .inr ⟨hData, hOffs ▸ hBlock⟩⟩
    · have hBlock : blockSize payload.length 0 = payload.length :=
        blockSize_le (Nat.zero_le _) (by omega)
      obtain ⟨inp', hLoop, -, hEnd⟩ :=
        @writeLoop_data ⟨none, 0, some [], inp, r⟩ [] _ rest payload.length _ rfl hHolds
        (Nat.zero_le _) hFuel
      dsimp only at hLoop hEnd
      rw [hBlock, List.length_nil, Nat.sub_zero, List.take_length, List.nil_append] at hLoop
      rw [hBlock, List.length_nil, Nat.sub_zero, List.drop_length] at hEnd
      rw [if_pos ⟨rfl, hPending⟩]
      exact ⟨_, [], payload, hLoop, rfl, hEnd, rfl, (List.append_nil _).symm, rfl,
        fun _ => rfl, .inr ⟨rfl, hBlock⟩⟩
  obtain ⟨job, sent, left, hLoop, hErr, hEnd, hFixed, hAll, rfl, hSent, hLeft⟩ := hJob
  -- the block of the new request waits behind the blocks of the earlier ones
  have hOrder (waits : List UInt8) : job.stream.base.accepted ++
      ((job.stream.writes c).flatMap (fun w => w.data.drop w.offs) ++ waits) = carried c r ++
        (sent ++ waits) := by
    rw [carried, hAll, writes_of_fixed hFixed]
    by_cases hPending : r.writes c = []
    · simp [hPending]
    · simp [hSent hPending]
  have hTaken := taken_of_fixed hFixed
  have hGood :=
    safe_write h.good c token (sent ++ left).length (payloadText encoding (sent ++ left) ++ rest)
  rw [write_of_loop token hStart hLoop, readEnd_holds hEnd, hErr] at hGood ⊢
  refine ⟨_, rfl, ?_⟩
  rcases hLeft with ⟨rfl, hData⟩ | ⟨hData, hBlock⟩
  · rw [finishWrite, hData] at hGood ⊢
    simp only [if_pos hErr] at hGood ⊢
    have hSole : Sole c job.stream := h.of_fixed hGood.ring hGood.counted hFixed
    refine ⟨hSole.reply _ _, ?_, hTaken⟩
    rw [← hOrder, List.append_nil]
    rfl
  · rw [finishWrite, hData] at hGood ⊢
    dsimp only
    have hSole : Sole c job.stream := h.of_fixed hGood.ring hGood.counted hFixed
    refine ⟨hSole.setWrites fun w hw => ?_, ?_, hTaken⟩
    · rcases List.mem_append.1 hw with hw | hw
      · exact hSole.whole w hw
      · obtain rfl := List.mem_singleton.1 hw
        exact ⟨rfl, hBlock⟩
    · rw [← hOrder, carried, writes_setWrites, List.flatMap_append]
      simp [Remote.setWrites]

theorem WriteRequest.bytes_eq {w : WriteRequest} (hSize : w.size = w.data.length)
    (fresh : Nat → UInt8) :
    w.bytes fresh = w.data.drop w.offs := by
  refine List.ext_getElem (by simp [bytes, hSize]) fun i _ hi => ?_
  rw [List.length_drop] at hi
  have hLt : w.offs + i < w.data.length := by omega
  simp [bytes, List.getD, hLt]

variable (fresh : Nat → UInt8)

theorem serveClient_moves (h : Sole c r) (hSmall : (carried c r).length < 2 ^ 64) (k : Nat) :
    ∃ r', serveClient fresh r k = .ok r' ∧ Moves c r r' := by
  by_cases hk : k = c
  · subst hk
    rcases hQueue : r.writes k with - | ⟨w, ws⟩
    · exact ⟨r, by rw [serveClient, hQueue], h, rfl, rfl, Nat.le_refl _⟩
    · obtain ⟨⟨hEos, hSize⟩, hWhole⟩ := List.forall_mem_cons.1 (hQueue ▸ h.whole)
      have hCarried :
        carried k r = r.base.accepted ++ (w.data.drop w.offs ++ ws.flatMap fun w =>
        w.data.drop w.offs) := by
        rw [carried, hQueue, List.flatMap_cons]
      have hLen := congrArg List.length hCarried
      simp only [List.length_append] at hLen
      obtain ⟨r', hAdd, hReady, hFixed, -, hAccepted⟩ :=
        addData_room h.ready (w.data.drop w.offs) (by omega)
      generalize min (room r) (w.data.drop w.offs).length = n at hAdd hAccepted
      have hSole := h.of_fixed hReady.ring hReady.counted hFixed
      have hTaken := taken_of_fixed hFixed
      have hMore : r.base.accepted.length ≤ r'.base.accepted.length := by
        rw [hAccepted, List.length_append]
        exact Nat.le_add_right _ _
      have hAll :
        r'.base.accepted ++ (w.data.drop (w.offs + n) ++ ws.flatMap fun w => w.data.drop w.offs) =
          carried k r := by
        rw [hCarried, hAccepted, ← List.drop_drop, List.append_assoc,
          ← List.append_assoc (List.take _ _),
          List.take_append_drop]
      rw [serveClient, hQueue]
      dsimp only
      rw [w.bytes_eq hSize, hEos, hAdd]
      simp only [bind, Except.bind]
      by_cases hEnd : w.size ≤ w.offs + n
      · rw [if_pos hEnd]
        refine ⟨_, rfl, (hSole.reply _ _).setWrites hWhole, ?_, hTaken, hMore⟩
        rw [carried, writes_setWrites, ← hAll, List.drop_of_length_le (hSize ▸ hEnd)]
        rfl
      · rw [if_neg hEnd]
        refine ⟨_, rfl, hSole.setWrites (List.forall_mem_cons.2 ⟨⟨rfl, hSize⟩, hWhole⟩), ?_,
          hTaken, hMore⟩
        rw [carried, writes_setWrites, ← hAll, List.flatMap_cons]
        rfl
  · exact ⟨r, by rw [serveClient, h.alone k hk], h, rfl, rfl, Nat.le_refl _⟩

theorem serveClients_moves (h : Sole c r) (hSmall : (carried c r).length < 2 ^ 64) :
    ∃ r', serveClients fresh r = .ok r' ∧ Moves c r r' := by
  rw [serveClients, h.ready.access]
  dsimp only
  induction r.base.clients.map (·.channel) generalizing r with
  | nil => exact ⟨r, rfl, h, rfl, rfl, Nat.le_refl _⟩
  | cons k ks ih =>
    obtain ⟨r', hRun, hMoves⟩ := serveClient_moves fresh h hSmall k
    obtain ⟨r'', hRuns, hNext⟩ := ih hMoves.sole (hMoves.carried ▸ hSmall)
    rw [List.foldlM_cons, hRun]
    exact ⟨r'', hRuns, hNext.sole, hNext.carried.trans hMoves.carried,
      hNext.taken.trans hMoves.taken,
      hMoves.more.trans hNext.more⟩

theorem takeData_kept (h : Sole c r) (hLen : len ≤ r.base.dataSize) :
    ∃ r', takeData r len false = .ok r' ∧ Sole c r' ∧ carried c r' = carried c r ∧
      taken r' = taken r + len := by
  unfold takeData
  split
  · rename_i hAccess
    exact absurd hAccess (ne_remoteRead h.ready.access)
  by_cases hZero : len = 0
  · rw [if_pos hZero, hZero]
    exact ⟨r, rfl, h, rfl, rfl⟩
  · obtain ⟨hRing, hSize⟩ := h.ready.ring.advance hLen true
    have hFreed : r.base.magic ≠ false := by simp [h.ready.magic]
    rw [if_neg hZero, if_neg (by simp)]
    refine ⟨_, rfl,
      ⟨⟨hRing, { h.ready.counted with freed := fun h => absurd h hFreed }, h.ready.access,
      h.ready.magic,
      h.ready.open_⟩, h.found, h.alone, h.whole⟩, rfl, ?_⟩
    have hLe := h.ready.ring.le
    show r.base.accepted.length - VirtualStream.dataSize _ = r.base.accepted.length - _ + _
    rw [hSize]
    omega

/-- What `virtual_stream_get_data` copies. -/
theorem load_eq (h : RingOk s) (hLen : len ≤ s.dataSize) :
    (if s.bufOut + len ≤ s.bufLen then Ring.load s.buf s.bufOut len
      else Ring.load s.buf s.bufOut (s.bufLen - s.bufOut) ++
        Ring.load s.buf 0 (len - (s.bufLen - s.bufOut))) =
      (s.accepted.drop (s.accepted.length - s.dataSize)).take len := by
  have hLe := h.le
  have hLt := h.dataSize_lt
  have hHeld : (s.accepted.drop (s.accepted.length - s.dataSize)).length = s.dataSize := by
    rw [List.length_drop]
    omega
  split
  · exact Ring.load_eq_of_holds h.holds ‹_› (by omega)
  · exact Ring.load_wrap_of_holds h.holds h.out (by omega) (by omega) (by omega)

theorem getData_kept (h : Sole c r) (hSmall : (carried c r).length < 2 ^ 64) (bufSize : Nat) :
    ∃ data r', getData fresh r bufSize = .ok (data, false, r') ∧ Sole c r' ∧
      carried c r' = carried c r ∧
      underway c r = data ++ underway c r' := by
  have hLen : min r.base.dataSize bufSize ≤ r.base.dataSize := Nat.min_le_left _ _
  have hLe := h.ready.ring.le
  obtain ⟨r', hServe, hMoves⟩ := serveClients_moves fresh h hSmall
  have hTaken := hMoves.taken
  have hMore := hMoves.more
  have hLe' := hMoves.sole.ready.ring.le
  obtain ⟨r'', hTake, hSole, hCarried, hTaken'⟩ :=
    @takeData_kept r' c (min r.base.dataSize bufSize) hMoves.sole
    (by unfold taken at hTaken; omega)
  have hHeld :
    (r.base.accepted.drop (r.base.accepted.length - r.base.dataSize)).take
    (min r.base.dataSize bufSize) =
      (underway c r).take (min r.base.dataSize bufSize) := by
    rw [underway, carried, taken, List.drop_append_of_le_length (Nat.sub_le _ _),
      List.take_append_of_le_length]
    rw [List.length_drop]
    omega
  refine ⟨(underway c r).take (min r.base.dataSize bufSize), r'', ?_, hSole,
    hCarried.trans hMoves.carried, ?_⟩
  · rw [getData, if_neg (not_not_intro h.ready.magic)]
    simp only [h.ready.open_, ite_self, Bool.or_false, hServe, hTake, load_eq h.ready.ring hLen,
      hHeld, bind, Except.bind]
    rfl
  · rw [underway, underway, hCarried, hMoves.carried, hTaken', hTaken, ← List.drop_drop,
      List.take_append_drop]

theorem use_kept (h : Sole c r) (u : Use)
    (hSmall : (carried c r).length + u.written.length < 2 ^ 64) :
    ∃ data r', r.use fresh c u = .ok (data, r') ∧ Sole c r' ∧
      carried c r' = carried c r ++ u.written ∧
      underway c r ++ u.written = data ++ underway c r' := by
  cases u with
  | write token encoding payload rest =>
    obtain ⟨r', hRun, hSole, hCarried, hTaken⟩ :=
      @write_kept r c h token encoding payload rest hSmall
    refine ⟨[], r', by rw [Remote.use, hRun]; rfl, hSole, hCarried, ?_⟩
    have hLe : taken r ≤ (carried c r).length := by
      rw [carried, List.length_append]
      exact (Nat.sub_le _ _).trans (Nat.le_add_right _ _)
    rw [List.nil_append, underway, underway, hCarried, hTaken, List.drop_append_of_le_length hLe]
    rfl
  | take bufSize =>
    obtain ⟨data, r', hRun, hSole, hCarried, hParts⟩ := getData_kept fresh h (by omega) bufSize
    refine ⟨data, r', by rw [Remote.use, hRun]; rfl, hSole, ?_, ?_⟩
    · rw [hCarried, Use.written, List.append_nil]
    · rw [hParts, Use.written, List.append_nil]

end

/-- In every run of commands and calls of the owner no assertion fails, and what the owner gets,
with what is still on its way, is what was on its way and what is written: each byte once, and in
order. -/
theorem transfer_kept (fresh : Nat → UInt8) {c : Nat} {r : Remote} (h : Sole c r) (us : List Use)
    (hSmall : (carried c r).length + (us.flatMap Use.written).length < 2 ^ 64) :
    ∃ data r', r.uses fresh c us = .ok (data, r') ∧ Sole c r' ∧
      underway c r ++ us.flatMap Use.written = data ++ underway c r' := by
  induction us generalizing r with
  | nil => exact ⟨[], r, rfl, h, List.append_nil _⟩
  | cons u us ih =>
    rw [List.flatMap_cons, List.length_append] at hSmall
    obtain ⟨data, r', hUse, hSole, hCarried, hParts⟩ := use_kept fresh h u (by omega)
    obtain ⟨more, r'', hUses, hEnd, hRest⟩ := ih hSole (by rw [hCarried, List.length_append]; omega)
    refine ⟨data ++ more, r'',
      by rw [Remote.uses, hUse]; simp only [bind, Except.bind, hUses]; rfl, hEnd, ?_⟩
    rw [List.flatMap_cons, ← List.append_assoc, hParts, List.append_assoc, hRest, List.append_assoc]

/-- Six bytes through a buffer of four. -/
theorem transfer_kept_six : ∃ data r', (connected 4).uses (fun _ => 0) 1
      [.write [49] .binary (ascii "abcdef") [0], .take 3, .take 9] = .ok (data, r') ∧ Sole 1 r' ∧
    underway 1 (connected 4) ++ (ascii "abcdef" ++ []) = data ++ underway 1 r' :=
  have hGood := good_connected (by decide : 4 < 2 ^ 32)
  transfer_kept _ ⟨⟨hGood.ring, hGood.counted, rfl, rfl, rfl⟩, rfl,
    fun _ _ => rfl, List.forall_mem_nil _⟩
    [.write [49] .binary (ascii "abcdef") [0], .take 3, .take 9] (by decide)

end TcfAgent.StreamCommands
